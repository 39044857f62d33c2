import TapeMachine.Tape.Document

/-!
Tapes that remember how they came about. The journal is a stack of frames, and a
frame is a stack of operations; undoing takes back the operations of the newest
frame. A limit on the number of frames drops the oldest ones.
-/
namespace TapeMachine

/-- Operations recorded together, the latest first. -/
abbrev Frame := List Operation

/-- The frame being filled and those before it, the latest first. -/
structure Journal where
  current : Frame := []
  earlier : List Frame := []
  limit : Option Nat := none
  deriving DecidableEq, Repr

namespace Journal

/-- The frames with their operations, both the oldest first. -/
def frames (j : Journal) : List (List Operation) :=
  ((j.current :: j.earlier).map List.reverse).reverse

def size (j : Journal) : Nat := j.earlier.length + 1

/-- Drops the oldest frames beyond the limit; the current frame is always kept. -/
def evict (j : Journal) : Journal :=
  match j.limit with
  | none => j
  | some limit =>
    if j.earlier.length < max limit 1 then j
    else { j with earlier := j.earlier.take (max limit 1 - 1) }

def setLimit (limit : Option Nat) (j : Journal) : Journal := { j with limit }.evict

def record (op : Operation) (j : Journal) : Journal := { j with current := op :: j.current }

/-- Opens a new frame. -/
def openFrame (j : Journal) : Journal :=
  { j with current := [], earlier := j.current :: j.earlier }.evict

def clear (j : Journal) : Journal := { limit := j.limit }

/-- Whether there is nothing to take back. -/
def isExhausted (j : Journal) : Bool := j.current.isEmpty && j.earlier.isEmpty

/-- Removes the current frame; the last one leaves an empty frame behind. -/
def dropFrame (j : Journal) : Journal :=
  match j.earlier with
  | [] => { j with current := [] }
  | frame :: earlier => { j with current := frame, earlier }

/-- The operations that take back the current frame, in the order to apply them. -/
def inverses (j : Journal) : List Operation := j.current.map Operation.inverse

/-- A journal of the given frames, the oldest first; there is always one. -/
def ofFrames (limit : Option Nat) (frames : List (List Operation)) : Journal :=
  match (frames.map List.reverse).reverse with
  | [] => { limit }
  | current :: earlier => Journal.evict { current, earlier, limit }

def framesToJson (j : Journal) : Json := Json.list (Json.list Operation.toJson) j.frames

def limitToJson (j : Journal) : Json := Json.ofOption Json.nat j.limit

def decodeOperation (v : Json) : Except Error Operation :=
  match Operation.ofJson? v with
  | some op => .ok op
  | none => .error (.badOperation v)

def decodeFrame : Json → Except Error (List Operation)
  | .array ops => ops.mapM decodeOperation
  | v => .error (.frameNotList v)

/-- The frames of a tape document, none if it does not give any. -/
def decodeFrames (document : Json) : Except Error (List (List Operation)) :=
  match document.get? "history" with
  | none | some .null => .ok []
  | some (.array frames) => frames.mapM decodeFrame
  | some v => .error (.historyNotList v)

/-- The limit of a tape document, or `present` if it does not give one. -/
def decodeLimit (present : Option Nat) (document : Json) : Except Error (Option Nat) :=
  match document.get? "history_size" with
  | none => .ok present
  | some .null => .ok none
  | some (.number (.whole i)) =>
    if 0 ≤ i ∧ i ≤ greatestCount then .ok (some i.toNat) else .error (.badHistorySize (.int i))
  | some v => .error (.badHistorySize v)

end Journal

structure LoggedTape where
  tape : Tape
  journal : Journal
  deriving DecidableEq, Repr

namespace LoggedTape

def empty (blank : Symbol) (limit : Option Nat) : LoggedTape := ⟨.empty blank, { limit }⟩

instance : Inhabited LoggedTape := ⟨empty .space none⟩

def record (op : Operation) (t : LoggedTape) : LoggedTape :=
  { t with journal := t.journal.record op }

def write (s : Symbol) (t : LoggedTape) : LoggedTape :=
  let old := t.tape.cell t.tape.cursor.index
  ⟨t.tape.write s, t.journal.record (.write old (some s))⟩

def moveTo (p : Position) (t : LoggedTape) : LoggedTape :=
  ⟨t.tape.moveTo p, t.journal.record (.move (.between t.tape.cursor p))⟩

def left (n : Nat) (t : LoggedTape) : LoggedTape :=
  t.moveTo (t.tape.cursor.advance (-cellCount n))

def right (n : Nat) (t : LoggedTape) : LoggedTape :=
  t.moveTo (t.tape.cursor.advance (cellCount n))

def clear (t : LoggedTape) : LoggedTape := ⟨t.tape.clear, t.journal.clear⟩

def snapshot (t : LoggedTape) : LoggedTape := { t with journal := t.journal.openFrame }

def setLimit (limit : Option Nat) (t : LoggedTape) : LoggedTape :=
  { t with journal := t.journal.setLimit limit }

/-- Does an operation without recording it. -/
def apply (t : Tape) : Operation → Tape
  | .write _ new => t.put t.cursor.index new
  | .move d => t.shift d.cells

/-- Takes back the newest frame, and tells what was done for it. Taking back a write puts a cell,
also if it held nothing before. -/
def undo (t : LoggedTape) : Except Error (List Operation × LoggedTape) :=
  if t.journal.isExhausted then .error .nothingToUndo
  else
    let inverses := t.journal.inverses
    .ok (inverses, ⟨inverses.foldl apply t.tape, t.journal.dropFrame⟩)

def toJson (t : LoggedTape) : Json :=
  let (data, offset) := t.tape.trimmed
  .object [
    ("blank_symbol", t.tape.blank.toJson),
    ("cursor", t.tape.cursor.toJson),
    ("data", Json.list Operation.cellToJson data),
    ("history", t.journal.framesToJson),
    ("history_size", t.journal.limitToJson),
    ("offset", .nat offset)]

/-- Replaces the tape by the one of a document, which may leave blank and limit as they are. -/
def load (v : Json) (t : LoggedTape) : Except Error LoggedTape := do
  let frames ← Journal.decodeFrames v
  let limit ← Journal.decodeLimit t.journal.limit v
  let tape ← t.tape.load v
  return ⟨tape, .ofFrames limit frames⟩

end LoggedTape

end TapeMachine
