import TapeMachine.Tape.Layer
import TapeMachine.Update

/-!
Tapes changed in place. Each step sets some of the fields, and only those before the first
of them may fail if a failure is to leave the tape as it was.
-/
namespace TapeMachine

namespace Tape

/-- Takes over the given cells, all of them as visited, and the blank if there is one. -/
def accept (blank : Option Symbol) (offset : Nat) (cursor : Position)
    (data : List (Option Symbol)) : Update Tape Unit := do
  if let some blank := blank then modify ({ · with blank })
  modify ({ · with offset })
  modify ({ · with cells := data.toArray })
  modify ({ · with cursor })
  let c := cursor.index
  if data.isEmpty then modify ({ · with first := c, last := c })
  else modify ({ · with first := min (-offset) c, last := max (data.length - offset - 1) c })

/-- Takes the tape from a document, which may leave the blank as it is. -/
def replace (v : Json) : Update Tape Unit := do
  let d ← Update.check ((TapeEntries.decode v).mapError .tapeDocument)
  match d.data, d.cursor with
  | some data, some cursor =>
    if data.length < d.offset then throw (.offsetTooLarge d.offset data.length)
    else accept d.blank d.offset cursor data
  | _, _ => throw .tapeIncomplete

end Tape

/-- Puts the given frames, the oldest first, in the place of all others; there is always one. -/
def Journal.setFrames (frames : List (List Operation)) (j : Journal) : Journal :=
  match (frames.map List.reverse).reverse with
  | [] => { j with current := [], earlier := [] }
  | current :: earlier => { j with current, earlier }

namespace LoggedTape

/-- Takes tape and journal from a document. Both parts of the journal are read before the tape
is touched, and set after it. -/
def replace (v : Json) : Update LoggedTape Unit := do
  let frames ← Update.check (Journal.decodeFrames v)
  let limit ← Update.check (Journal.decodeLimit (← get).journal.limit v)
  Update.onPart tape (fun tape t => { t with tape }) (Tape.replace v)
  modify fun t => { t with journal := t.journal.setFrames frames }
  modify (setLimit limit)

/-- Takes back the newest frame, one operation after the other. -/
def takeBack : Update LoggedTape (List Operation) := do
  let journal := (← get).journal
  if journal.isExhausted then throw .nothingToUndo
  modify ({ · with journal := journal.dropFrame })
  journal.inverses.forM fun op => modify fun t => { t with tape := apply t.tape op }
  return journal.inverses

end LoggedTape

/-- Tapes that a document replaces in place. -/
class Replaceable (τ : Type) where
  replace : Json → Update τ Unit

instance : Replaceable Tape := ⟨Tape.replace⟩

instance : Replaceable LoggedTape := ⟨LoggedTape.replace⟩

instance (τ : Type) [Replaceable τ] : Replaceable (Layer τ) :=
  ⟨fun v => Update.onPart Layer.inner (fun inner _ => ⟨inner⟩) (Replaceable.replace v)⟩

namespace HasHead

variable {τ : Type} [HasHead τ]

/-- Writes the symbol with the given index in a row; all but the first need a step before. -/
def writeCell (s : Symbol) (index : Nat) : Update τ Unit := do
  if 0 < index then modify (right 1)
  modify (write s)

/-- Takes what is written from a tape that people have written. -/
def replaceText (text : String) : Update τ Unit := do
  let parsed ← Update.check ((TapeText.parse text).mapError .tapeText)
  modify clear
  parsed.cells.zipIdx.forM fun (s, index) => writeCell s index
  modify (moveTo (.ofInt parsed.cursor))

end HasHead

end TapeMachine
