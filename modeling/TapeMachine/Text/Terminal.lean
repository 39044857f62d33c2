import TapeMachine.Text.Quoted

/-!
Texts on their way to a terminal. Characters that a terminal could take for a
command are spelled out; line breaks and tabs are not among them.
-/
namespace TapeMachine.Text

/-- One character of a text to show: bell, backspace, form feed, escape and delete are given by
two hexadecimal digits, the control characters from 128 on by their code point. -/
def harmlessChar (c : Char) : String :=
  let n := c.toNat
  if n = 0x7 ∨ n = 0x8 ∨ n = 0xC ∨ n = 0x1B ∨ n = 0x7F then
    "\\x" ++ String.ofList [(n / 16).digitChar, (n % 16).digitChar]
  else if 0x80 ≤ n ∧ n ≤ 0x9F then "\\u\x7b" ++ hexDigits n ++ "\x7d"
  else c.toString

def harmless (s : String) : String := String.join (s.toList.map harmlessChar)

end TapeMachine.Text
