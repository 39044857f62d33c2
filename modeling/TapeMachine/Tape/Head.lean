import TapeMachine.Tape.Journal

/-!
What a head can do on any tape, plain or with a journal. Everything here is made
of writes and moves, so a tape with a journal records it.
-/
namespace TapeMachine

/-- Tapes with a head. `tape` is what they show. -/
class HasHead (τ : Type) where
  tape : τ → Tape
  visit : Position → τ → τ
  write : Symbol → τ → τ
  left : Nat → τ → τ
  right : Nat → τ → τ
  moveTo : Position → τ → τ
  clear : τ → τ
  load : Json → τ → Except Error τ
  toJson : τ → Json

instance : HasHead Tape where
  tape := id
  visit p t := t.touch p.index
  write := Tape.write
  left := Tape.left
  right := Tape.right
  moveTo := Tape.moveTo
  clear := Tape.clear
  load := Tape.load
  toJson := Tape.toJson

instance : HasHead LoggedTape where
  tape := LoggedTape.tape
  visit p t := { t with tape := t.tape.touch p.index }
  write := LoggedTape.write
  left := LoggedTape.left
  right := LoggedTape.right
  moveTo := LoggedTape.moveTo
  clear := LoggedTape.clear
  load := LoggedTape.load
  toJson := LoggedTape.toJson

namespace HasHead

variable {τ : Type} [HasHead τ]

/-- Reads a cell that need not be under the head. It counts as visited. -/
def readAt (p : Position) (t : τ) : Symbol × τ :=
  ((tape t).symbolAt p.index, visit p t)

/-- Reads cells one after the other. -/
def readAll : List Position → τ → List Symbol × τ
  | [], t => ([], t)
  | p :: ps, t =>
    let (s, t) := readAt p t
    let (ss, t) := readAll ps t
    (s :: ss, t)

/-- Reads an odd number of cells around a position. -/
def window (p : Position) (count : Nat) (t : τ) : Except Error (List Symbol × τ) :=
  if count % 2 = 0 then .error (.evenWindow count)
  else
    let half : Int := count / 2
    .ok (readAll ((Tape.span (-half) half).map p.advance) t)

/-- Moves by one cell or not at all. -/
def moveBy : Motion → τ → τ
  | .left, t => left 1 t
  | .right, t => right 1 t
  | .stop, t | .halt, t => t

/-- Writes symbols from left to right; the head ends on the last one. -/
def writeRow : List Symbol → τ → τ
  | [], t => t
  | [s], t => write s t
  | s :: rest, t => writeRow rest (right 1 (write s t))

/-- Replaces what is written by the given symbols from zero on. -/
def fill (symbols : List Symbol) (cursor : Position) (t : τ) : τ :=
  moveTo cursor (writeRow symbols (clear t))

/-- Replaces what is written by a tape that people have written. -/
def loadText (text : String) (t : τ) : Except Error τ := do
  let parsed ← (TapeText.parse text).mapError .tapeText
  return fill parsed.cells (.ofInt parsed.cursor) t

end HasHead

end TapeMachine
