import TapeMachine.Symbol
import TapeMachine.Text.Excerpt

/-!
Tapes as people write them: cells separated by commas, the cell under the head
between asterisks. Spaces and tabs around a cell do not count; every other
character but comma and asterisk belongs to the cell. Without asterisks the head
is on the first cell.
-/
namespace TapeMachine

/-- The cells of a written tape from position zero on, and the index of the marked one. -/
structure TapeText where
  cells : List Symbol
  cursor : Nat
  deriving DecidableEq, Repr

namespace TapeText

/-- What a reader could have gone on with where it stopped. -/
inductive Wanted where
  | tape | endOrMarkedCell | endOfText
  deriving DecidableEq, Repr

/-- Why a text is no tape, with the text and how many characters of it had been passed. -/
inductive Fault where
  | unexpected (text : List Char) (passed : Nat) (wanted : Wanted)
  | secondMark (text : List Char) (passed passedEnd : Nat)
  deriving DecidableEq, Repr

def Wanted.message : Wanted → String
  | .tape => "expected tape"
  | .endOrMarkedCell => "expected EOI or cursor_cell"
  | .endOfText => "expected EOI"

namespace Fault

def message : Fault → String
  | .unexpected _ _ wanted => wanted.message
  | .secondMark _ _ _ => "Only one cell may be marked as cursor"

/-- Where the fault begins. -/
def place : Fault → Text.Place
  | .unexpected text passed _ | .secondMark text passed _ => .after (text.take passed)

/-- Where a fault with an extent ends. -/
def placeEnd? : Fault → Option Text.Place
  | .unexpected _ _ _ => none
  | .secondMark text _ passedEnd => some (.after (text.take passedEnd))

/-- The fault shown in its text. -/
def excerpt (f : Fault) : String :=
  match f with
  | .unexpected text passed _ => Text.excerptAt text passed f.message
  | .secondMark text passed passedEnd => Text.excerptOver text passed passedEnd f.message

end Fault

/-- Spaces and tabs are passed over between cells. -/
def isGap (c : Char) : Bool := c == ' ' || c == '\t'

/-- The characters that a cell may hold. -/
def isCellChar (c : Char) : Bool := c != ',' && c != '*'

/-- A cell of a text: whether it is marked, its characters, and how much of the text was left
where it begins and where it ends. -/
structure Cell where
  marked : Bool
  chars : List Char
  leftBefore : Nat
  leftAfter : Nat
  deriving DecidableEq, Repr

/-- The cell at the front of a text. An asterisk without a partner marks nothing, and leaves an
empty cell before it. -/
def scanCell (text : List Char) : Cell × List Char :=
  let plain :=
    let rest := text.dropWhile isCellChar
    (⟨false, text.takeWhile isCellChar, text.length, rest.length⟩, rest)
  match text with
  | '*' :: inner =>
    match inner.dropWhile isCellChar with
    | '*' :: rest => (⟨true, inner.takeWhile isCellChar, text.length, rest.length⟩, rest)
    | _ => plain
  | _ => plain

theorem length_scanCell_le (text : List Char) : (scanCell text).2.length ≤ text.length := by
  unfold scanCell
  split
  next inner =>
    split
    next rest h =>
      have hlength := (List.dropWhile_sublist isCellChar (l := inner)).length_le
      rw [h] at hlength
      simp only [List.length_cons] at *
      omega
    next => exact (List.dropWhile_sublist _).length_le
  next => exact (List.dropWhile_sublist _).length_le

/-- The cells of a text as far as commas join them, and what follows. -/
def scan (text : List Char) : List Cell × List Char :=
  let found := scanCell (text.dropWhile isGap)
  match _h : found.2.dropWhile isGap with
  | ',' :: more =>
    let others := scan more
    (found.1 :: others.1, others.2)
  | left => ([found.1], left)
termination_by text.length
decreasing_by
  have h₁ := (List.dropWhile_sublist isGap (l := (scanCell (text.dropWhile isGap)).2)).length_le
  have h₂ := length_scanCell_le (text.dropWhile isGap)
  have h₃ := (List.dropWhile_sublist isGap (l := text)).length_le
  rw [_h, List.length_cons] at h₁
  omega

/-- Why the text goes on at `left` after its last cell: a cell that begins right there could
have been a marked one. -/
def unexpected (text : List Char) (cells : List Cell) (left : List Char) : Fault :=
  let passed := text.length - left.length
  let wanted : Wanted :=
    if passed = 0 then .tape
    else if cells.getLast?.any (·.leftBefore == left.length) then .endOrMarkedCell
    else .endOfText
  .unexpected text passed wanted

def parse (raw : String) : Except Fault TapeText :=
  let text := raw.toList
  let (cs, left) := scan text
  if !left.isEmpty then .error (unexpected text cs left)
  else
    match cs.filter Cell.marked with
    | _ :: second :: _ =>
      .error (.secondMark text (text.length - second.leftBefore) (text.length - second.leftAfter))
    | _ =>
      .ok ⟨cs.map fun c => Symbol.ofText (String.ofList c.chars), (cs.findIdx? Cell.marked).getD 0⟩

end TapeText

end TapeMachine
