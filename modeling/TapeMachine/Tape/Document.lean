import TapeMachine.Error
import TapeMachine.Tape.Basic

/-!
Tapes as documents. A tape is written down with the fewest cells: those from the
first to the last written one, and the one at zero. Reading accepts any cells
around zero and takes all of them as visited.
-/
namespace TapeMachine

/-- The entries of a tape document; `cursor` and `data` must be given in the end. -/
structure TapeEntries where
  blank : Option Symbol := none
  offset : Nat := 0
  cursor : Option Position := none
  data : Option (List (Option Symbol)) := none

def TapeEntries.fields : List (Json.Decode.Field TapeEntries) := [
  { name := "blank_symbol", spare := false
    decode := fun v d => return { d with blank := ← Json.Decode.optional Symbol.decode v } },
  { name := "offset"
    decode := fun v d => return { d with offset := ← Json.Decode.count v } },
  { name := "cursor", spare := false
    decode := fun v d => return { d with cursor := ← Json.Decode.optional Position.decode v } },
  { name := "data", spare := false
    decode := fun v d => return { d with
      data := ← Json.Decode.optional (Json.Decode.list (Json.Decode.optional Symbol.decode)) v } }]

def TapeEntries.decode : Json.Decoder TapeEntries :=
  Json.Decode.record "TapeDocument" fields {}

namespace Tape

/-- The positions of written cells from left to right. -/
def written (t : Tape) : List Int :=
  (span (-t.offset) (t.cells.size - t.offset - 1)).filter fun i => (t.cell i).isSome

/-- The cells to write down, and how many of them stand before zero. -/
def trimmed (t : Tape) : List (Option Symbol) × Nat :=
  match t.written.head?, t.written.getLast? with
  | some first, some last => ((span (min first 0) (max last 0)).map t.cell, (-min first 0).toNat)
  | _, _ => ([], 0)

def toJson (t : Tape) : Json :=
  let (data, offset) := t.trimmed
  .object [
    ("blank_symbol", t.blank.toJson),
    ("cursor", t.cursor.toJson),
    ("data", Json.list Operation.cellToJson data),
    ("offset", .nat offset)]

/-- A tape with the given cells, of which `offset` stand before zero. -/
def ofCells (blank : Symbol) (offset : Nat) (cursor : Position) (data : List (Option Symbol)) :
    Tape :=
  let c := cursor.index
  if data.isEmpty then ⟨#[], offset, cursor, blank, c, c⟩
  else ⟨data.toArray, offset, cursor, blank, min (-offset) c, max (data.length - offset - 1) c⟩

/-- Replaces the tape by the one of a document, which may leave the blank as it is. -/
def load (v : Json) (t : Tape) : Except Error Tape := do
  let d ← (TapeEntries.decode v).mapError .tapeDocument
  match d.data, d.cursor with
  | some data, some cursor =>
    if data.length < d.offset then throw (.offsetTooLarge d.offset data.length)
    return ofCells (d.blank.getD t.blank) d.offset cursor data
  | _, _ => throw .tapeIncomplete

end Tape

end TapeMachine
