import TapeMachine.Decimal.Numeral

/-!
Places in a text, counted for a reader: lines and columns start at one, a column
is one character wide, and only a line feed begins a new line.
-/
namespace TapeMachine.Text

structure Place where
  line : Nat
  column : Nat
  deriving DecidableEq, Repr

/-- The place reached after reading `passed` from the start of a text. -/
def Place.after (passed : List Char) : Place where
  line := passed.count '\n' + 1
  column := (passed.reverse.takeWhile (· != '\n')).length + 1

/-- The words that give a place at the end of a message. -/
def Place.ending (p : Place) : String :=
  " at line " ++ toString p.line ++ " column " ++ toString p.column

/-- Takes a number off the end of a text, and the word before it. Texts are given from the back. -/
def takeNumber? (word : String) (back : List Char) : Option (Nat × List Char) :=
  let digits := back.takeWhile Char.isDigit
  let rest := back.dropWhile Char.isDigit
  let word := word.toList.reverse
  if !digits.isEmpty && word.isPrefixOf rest then
    some (Decimal.numeralValue digits.reverse, rest.drop word.length)
  else none

/-- A message that ends in a place: what comes before it, and the place. -/
def splitPlace? (message : String) : Option (String × Place) := do
  let (column, back) ← takeNumber? " column " message.toList.reverse
  let (line, back) ← takeNumber? " at line " back
  return (String.ofList back.reverse, ⟨line, column⟩)

end TapeMachine.Text
