import TapeMachine.Decimal.Layout
import TapeMachine.Json.Basic

/-!
Documents as text: on one line without spaces, or one item to a line, indented by
two spaces a level.
-/
namespace TapeMachine

/-- Real numbers keep a point, and an exponent is written outside of `10 ^ -5` to `10 ^ 15`. -/
def Number.layout : Decimal.Layout := ⟨fun e => -5 ≤ e && e ≤ 15, true⟩

def Number.text : Number → String
  | .whole i => toString i
  | .real x => Number.layout.text x

namespace Json

/-- A character inside a string: seven have a short escape, and other control characters are
given by four hexadecimal digits. -/
def stringChar (c : Char) : String :=
  if c = '"' then "\\\""
  else if c = '\\' then "\\\\"
  else if c = '\n' then "\\n"
  else if c = '\r' then "\\r"
  else if c = '\t' then "\\t"
  else if c.toNat = 0x8 then "\\b"
  else if c.toNat = 0xC then "\\f"
  else if c.toNat < 0x20 then
    "\\u00" ++ String.ofList [(c.toNat / 16).digitChar, (c.toNat % 16).digitChar]
  else c.toString

def stringText (s : String) : String :=
  "\"" ++ String.join (s.toList.map stringChar) ++ "\""

def boolText (b : Bool) : String := if b then "true" else "false"

mutual

/-- The document on one line. -/
def compact : Json → String
  | .null => "null"
  | .bool b => boolText b
  | .number n => n.text
  | .string s => stringText s
  | .array items => "[" ++ ",".intercalate (compactItems items) ++ "]"
  | .object members => "\x7b" ++ ",".intercalate (compactMembers members) ++ "\x7d"

def compactItems : List Json → List String
  | [] => []
  | v :: rest => v.compact :: compactItems rest

def compactMembers : List (String × Json) → List String
  | [] => []
  | (k, v) :: rest => (stringText k ++ ":" ++ v.compact) :: compactMembers rest

end

def lineBreak (level : Nat) : String :=
  "\n" ++ String.ofList (List.replicate (2 * level) ' ')

/-- Items between brackets, each on a line of its own one level further in. -/
def block (level : Nat) (left right : String) (items : List String) : String :=
  if items.isEmpty then left ++ right
  else
    left ++ lineBreak (level + 1) ++ ("," ++ lineBreak (level + 1)).intercalate items ++
      lineBreak level ++ right

mutual

/-- The document over several lines, its first line standing at `level`. -/
def prettyAt (level : Nat) : Json → String
  | .array items => block level "[" "]" (prettyItems (level + 1) items)
  | .object members => block level "\x7b" "\x7d" (prettyMembers (level + 1) members)
  | .null => "null"
  | .bool b => boolText b
  | .number n => n.text
  | .string s => stringText s

def prettyItems (level : Nat) : List Json → List String
  | [] => []
  | v :: rest => v.prettyAt level :: prettyItems level rest

def prettyMembers (level : Nat) : List (String × Json) → List String
  | [] => []
  | (k, v) :: rest => (stringText k ++ ": " ++ v.prettyAt level) :: prettyMembers level rest

end

def pretty (v : Json) : String := v.prettyAt 0

end Json

end TapeMachine
