import TapeMachine.Text.Printable

/-!
Texts in double quotes, as messages show them, and lists of such texts.
-/
namespace TapeMachine.Text

/-- Lower case hexadecimal digits, most significant first and none to spare. -/
def hexDigits (n : Nat) : String :=
  String.ofList (Nat.toDigits 16 n)

/-- One character inside quotes: six have a short escape, and a character that would not show
is given by its code point. -/
def quotedChar (c : Char) : String :=
  if c = '"' then "\\\""
  else if c = '\\' then "\\\\"
  else if c = '\n' then "\\n"
  else if c = '\r' then "\\r"
  else if c = '\t' then "\\t"
  else if c.toNat = 0 then "\\0"
  else if isSpelledOut c then "\\u\x7b" ++ hexDigits c.toNat ++ "\x7d"
  else c.toString

def quoted (s : String) : String :=
  "\"" ++ String.join (s.toList.map quotedChar) ++ "\""

/-- A bracketed list, its items separated by a comma and a space. -/
def bracketed (items : List String) : String :=
  "[" ++ ", ".intercalate items ++ "]"

def quotedList (items : List String) : String :=
  bracketed (items.map quoted)

end TapeMachine.Text
