import TapeMachine.Bounds
import TapeMachine.Rejection
import TapeMachine.Text.Place

/-!
What can be wrong with a document: its text breaks the grammar, or a value is not
of the sort that its place asks for.
-/
namespace TapeMachine.Json

/-- What was being read when the text ended. -/
inductive Part where
  | value | string | list | object
  deriving DecidableEq, Repr

/-- What a place in a document asks for. -/
inductive Shape where
  | text | list | triple | integer | count
  | record (name : String)
  | recordOf (name : String) (fields : Nat)
  | fewerItems
  deriving DecidableEq, Repr

inductive Fault where
  | ended (inside : Part)
  | noValue | misspelt | noColon | noCommaOrBrace | noCommaOrBracket | keyNotText
  | trailingComma | trailingText | badNumber | numberTooLarge | badEscape | cutEscape
  | loneSurrogate | controlCharacter | tooDeep
  | mismatch (found : Json) (wanted : Shape)
  | outOfRange (found : Int) (wanted : Shape)
  | length (found : Nat) (wanted : Shape)
  | missing (field : String)
  | repeated (field : String)
  | rejected (why : Rejection)
  deriving Repr

def Part.describe : Part → String
  | .value => "a value"
  | .string => "a string"
  | .list => "a list"
  | .object => "an object"

def Shape.describe : Shape → String
  | .text => "a string"
  | .list => "a sequence"
  | .triple => "a tuple of size 3"
  | .integer => "i64"
  | .count => "usize"
  | .record name => "struct " ++ name
  | .recordOf name fields => "struct " ++ name ++ " with " ++ toString fields ++ " elements"
  | .fewerItems => "fewer elements in array"

/-- A value named by its sort; a scalar is shown too. -/
def sort : Json → String
  | .null => "null"
  | .bool b => "boolean `" ++ boolText b ++ "`"
  | .number (.whole i) => "integer `" ++ toString i ++ "`"
  | .number (.real x) => "floating point `" ++ (Number.real x).text ++ "`"
  | .string s => "string " ++ Text.quoted s
  | .array _ => "sequence"
  | .object _ => "map"

/-- The message about a value, which may bring a place of its own. Line zero is no place and is
left out, and the numbers of any other place are written anew if 64 bits hold them. -/
def placed (message : String) : String :=
  match Text.splitPlace? message with
  | none => message
  | some (head, p) =>
    if greatestCount < p.line ∨ greatestCount < p.column then message
    else if p.line = 0 then head
    else head ++ p.ending

def Fault.message : Fault → String
  | .ended part => "EOF while parsing " ++ part.describe
  | .noValue => "expected value"
  | .misspelt => "expected ident"
  | .noColon => "expected `:`"
  | .noCommaOrBrace => "expected `,` or `\x7d`"
  | .noCommaOrBracket => "expected `,` or `]`"
  | .keyNotText => "key must be a string"
  | .trailingComma => "trailing comma"
  | .trailingText => "trailing characters"
  | .badNumber => "invalid number"
  | .numberTooLarge => "number out of range"
  | .badEscape => "invalid escape"
  | .cutEscape => "unexpected end of hex escape"
  | .loneSurrogate => "lone leading surrogate in hex escape"
  | .controlCharacter => "control character (\\u0000-\\u001F) found while parsing a string"
  | .tooDeep => "recursion limit exceeded"
  | .mismatch found wanted => "invalid type: " ++ found.sort ++ ", expected " ++ wanted.describe
  | .outOfRange found wanted =>
    "invalid value: integer `" ++ toString found ++ "`, expected " ++ wanted.describe
  | .length found wanted =>
    "invalid length " ++ toString found ++ ", expected " ++ wanted.describe
  | .missing field => "missing field `" ++ field ++ "`"
  | .repeated field => "duplicate field `" ++ field ++ "`"
  | .rejected why => placed why.message

end TapeMachine.Json
