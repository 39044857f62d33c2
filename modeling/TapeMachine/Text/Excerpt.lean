import TapeMachine.Text.Place

/-!
Excerpts: the line of a text that a message is about, with the place underlined.
-/
namespace TapeMachine.Text

/-- The whole line around the character after `passed`, its line feed included. -/
def lineAround (text : List Char) (passed : Nat) : List Char :=
  let before := ((text.take passed).reverse.takeWhile (· != '\n')).reverse
  let after := text.drop passed
  before ++ after.takeWhile (· != '\n') ++ (after.dropWhile (· != '\n')).take 1

/-- A line without its line ends. -/
def withoutLineEnds (line : List Char) : String :=
  String.ofList (line.filter fun c => c != '\r' && c != '\n')

/-- A line with its line ends drawn as pictures. -/
def withPictures (line : List Char) : String :=
  String.ofList (line.map fun c => if c = '\r' then '␍' else if c = '\n' then '␊' else c)

/-- Space as wide as the first `n` characters of a line, its tabs kept. -/
def indentLike (line : String) (n : Nat) : String :=
  String.ofList ((line.toList.take n).map fun c => if c = '\t' then '\t' else ' ')

def spaces (n : Nat) : String := String.ofList (List.replicate n ' ')

/-- Lines under a margin as wide as the largest line number. -/
def framed (margin : String) (at' : Place) (lines : List String) (underline message : String) :
    String :=
  "\n".intercalate <|
    [margin ++ "--> " ++ toString at'.line ++ ":" ++ toString at'.column, margin ++ " |"] ++
      lines ++ [margin ++ " | " ++ underline, margin ++ " |", margin ++ " = " ++ message]

def numbered (width line : Nat) (content : String) : String :=
  let n := toString line
  spaces (width - n.length) ++ n ++ " | " ++ content

/-- The line around a single place. -/
def excerptAt (text : List Char) (passed : Nat) (message : String) : String :=
  let start := Place.after (text.take passed)
  let raw := lineAround text passed
  let atLineEnd := match (text.drop passed).head? with
    | some c => c == '\n' || c == '\r'
    | none => false
  let line := if atLineEnd then withPictures raw else withoutLineEnds raw
  let width := (toString start.line).length
  framed (spaces width) start [numbered width start.line line]
    (indentLike line (start.column - 1) ++ "^---") message

/-- A caret at both ends of the columns from `a` up to `b`, dashes between them. -/
def underlineOver (line : String) (a b : Nat) : String :=
  let (from', upTo) := if b < a then (b - 1, a + 1) else (a, b)
  let width := upTo - from'
  indentLike line (from' - 1) ++ "^" ++
    if 1 < width then String.ofList (List.replicate (width - 2) '-') ++ "^" else ""

/-- The lines around an extent of text that ends before `passedEnd`; of more than two lines the
first and the last are shown. -/
def excerptOver (text : List Char) (passed passedEnd : Nat) (message : String) : String :=
  let start := Place.after (text.take passed)
  let stop := Place.after (text.take passedEnd)
  let line := withoutLineEnds (lineAround text passed)
  let width := (toString (max start.line stop.line)).length
  let first := numbered width start.line line
  let lines :=
    if stop.line = start.line then [first]
    else
      let last := numbered width stop.line (withPictures (lineAround text (passedEnd - 1)))
      if stop.line - start.line = 1 then [first, last]
      else [first, spaces width ++ " | ...", last]
  framed (spaces width) start lines (underlineOver line start.column stop.column) message

end TapeMachine.Text
