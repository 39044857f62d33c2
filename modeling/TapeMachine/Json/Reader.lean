import TapeMachine.Decimal.Numeral
import TapeMachine.Json.Fault

/-!
Reading documents from text. A reader takes characters off the front of a text and
stops at the first fault. Nesting is limited, and that limit carries the recursion.
-/
namespace TapeMachine.Json

/-- Reads a value off the front of a text. -/
abbrev Reader := StateT (List Char) (Except Fault)

/-- How deep lists and objects may be nested. -/
def depthLimit : Nat := 127

def isSpace (c : Char) : Bool :=
  c == ' ' || c == '\n' || c == '\t' || c == '\r'

namespace Reader

/-- The next character, left in place. -/
def look : Reader (Option Char) := do
  return (← get).head?

def drop : Reader Unit :=
  modify List.tail

/-- The next character after any space, left in place. -/
def peek : Reader (Option Char) := do
  modify (·.dropWhile isSpace)
  look

/-- The next character, which must be there. -/
def take (inside : Part) : Reader Char := do
  match ← get with
  | [] => throw (.ended inside)
  | c :: rest => set rest; return c

/-- The rest of a literal whose first character has been taken. -/
def literal : List Char → Reader Unit
  | [] => return
  | c :: cs => do
    if (← take .value) = c then literal cs else throw .misspelt

def takeDigits : Reader (List Char) := do
  let cs ← get
  set (cs.dropWhile Char.isDigit)
  return cs.takeWhile Char.isDigit

/-- Digits, of which there must be one. -/
def someDigits : Reader (List Char) := do
  match ← takeDigits with
  | [] => if (← get).isEmpty then throw (.ended .value) else throw .badNumber
  | ds => return ds

end Reader

/-- A number as it is written. -/
structure Numeral where
  negative : Bool
  whole : List Char
  fraction : Option (List Char)
  exponent : Option Int
  deriving DecidableEq, Repr

/-- Gathers leading digits as long as 64 bits hold their number; the second number counts the
digits left over. -/
def gather : Nat → List Char → Nat × Nat
  | head, [] => (head, 0)
  | head, c :: cs =>
    let next := 10 * head + Decimal.digitValue c
    if next ≤ greatestCount then gather next cs else (head, (c :: cs).length)

/-- The double `significand * 10 ^ e` as one rounded product or quotient of rounded parts; none
when it is too large. -/
def scaled (significand : Nat) (e : Int) : Option Float :=
  let power (n : Nat) : Float := Float.ofScientific 1 false n
  let f := (UInt64.ofNat significand).toFloat
  if significand = 0 then some f
  else if 308 < e then none
  else if 0 ≤ e then
    let x := f * power e.toNat
    if x.isInf then none else some x
  else if -308 ≤ e then some (f / power (-e).toNat)
  else if -616 ≤ e then some (f / power 308 / power (-e - 308).toNat)
  else some 0

/-- The value of a numeral. Without point and exponent it is a whole number if 64 bits hold it,
and negative zero is real. -/
def Numeral.value (n : Numeral) : Except Fault Number :=
  let (head, left) := gather 0 n.whole
  let real (significand : Nat) (e : Int) : Except Fault Number :=
    match scaled significand e with
    | some x => .ok (.real (if n.negative then -x else x))
    | none => .error .numberTooLarge
  match n.fraction, n.exponent with
  | none, none =>
    if left = 0 ∧ !n.negative then .ok (.whole head)
    else if left = 0 ∧ 0 < head ∧ leastIndex ≤ -head then .ok (.whole (-head))
    else real head left
  | fraction, exponent =>
    let places := fraction.getD []
    let (significand, unread) := gather head places
    real significand (left - (places.length - unread : Nat) + exponent.getD 0)

namespace Reader

def exponent : Reader (Option Int) := do
  match ← look with
  | some 'e' | some 'E' =>
    drop
    let negative ← match ← look with
      | some '+' => do drop; pure false
      | some '-' => do drop; pure true
      | _ => pure false
    let ds ← someDigits
    let magnitude := Decimal.numeralValue ds
    return some (if negative then -magnitude else magnitude)
  | _ => return none

def fraction : Reader (Option (List Char)) := do
  match ← look with
  | some '.' => drop; return some (← someDigits)
  | _ => return none

/-- A number from its sign on. A leading zero stands alone before point or exponent. -/
def number : Reader Number := do
  let negative ← match ← look with
    | some '-' => do drop; pure true
    | _ => pure false
  let whole ← someDigits
  if whole.head? = some '0' ∧ 1 < whole.length then throw .badNumber
  let numeral : Numeral := ⟨negative, whole, ← fraction, ← exponent⟩
  numeral.value

def hexValue? (c : Char) : Option Nat :=
  if c.isDigit then some (c.toNat - '0'.toNat)
  else if 'a' ≤ c ∧ c ≤ 'f' then some (c.toNat - 'a'.toNat + 10)
  else if 'A' ≤ c ∧ c ≤ 'F' then some (c.toNat - 'A'.toNat + 10)
  else none

/-- Four hexadecimal digits. Fewer than four bytes of remaining text count as its end. -/
def hexEscape : Reader Nat := do
  let cs ← get
  if (String.ofList (cs.take 4)).utf8ByteSize < 4 then throw (.ended .string)
  match (cs.take 4).mapM hexValue? with
  | some [a, b, c, d] =>
    set (cs.drop 4)
    return ((a * 16 + b) * 16 + c) * 16 + d
  | _ => throw .badEscape

/-- The character named by a `u` escape; one beyond the first 65536 needs a second escape. -/
def codeEscape : Reader Char := do
  let high ← hexEscape
  if 0xDC00 ≤ high ∧ high ≤ 0xDFFF then throw .loneSurrogate
  if high < 0xD800 ∨ 0xDBFF < high then return Char.ofNat high
  if (← take .string) ≠ '\\' then throw .cutEscape
  if (← take .string) ≠ 'u' then throw .cutEscape
  let low ← hexEscape
  if low < 0xDC00 ∨ 0xDFFF < low then throw .loneSurrogate
  return Char.ofNat (0x10000 + (high - 0xD800) * 0x400 + (low - 0xDC00))

/-- The character named by an escape whose backslash has been taken. -/
def escape : Reader Char := do
  match ← take .string with
  | '"' => return '"'
  | '\\' => return '\\'
  | '/' => return '/'
  | 'b' => return Char.ofNat 0x8
  | 'f' => return Char.ofNat 0xC
  | 'n' => return '\n'
  | 'r' => return '\r'
  | 't' => return '\t'
  | 'u' => codeEscape
  | _ => throw .badEscape

/-- Characters up to the closing quote; `fuel` bounds their number. -/
def stringRest : Nat → List Char → Reader String
  | 0, _ => throw (.ended .string)
  | fuel + 1, read => do
    match ← take .string with
    | '"' => return String.ofList read.reverse
    | '\\' => do
      let c ← escape
      stringRest fuel (c :: read)
    | c => if c.toNat < 0x20 then throw .controlCharacter else stringRest fuel (c :: read)

/-- A string whose opening quote has been taken. -/
def string : Reader String := do
  stringRest ((← get).length + 1) []

/-- The items after the first, up to the closing bracket. -/
def listRest (item : Reader α) : Nat → List α → Reader (List α)
  | 0, _ => throw (.ended .list)
  | fuel + 1, read => do
    match ← peek with
    | none => throw (.ended .list)
    | some ']' => drop; return read.reverse
    | some ',' =>
      drop
      match ← peek with
      | none => throw (.ended .value)
      | some ']' => throw .trailingComma
      | some _ => do
        let x ← item
        listRest item fuel (x :: read)
    | some _ => throw .noCommaOrBracket

/-- The items of a list whose opening bracket has been taken. -/
def items (item : Reader α) : Reader (List α) := do
  match ← peek with
  | none => throw (.ended .list)
  | some ']' => drop; return []
  | some _ =>
    let x ← item
    listRest item ((← get).length + 1) [x]

/-- The colon between a key and its value. -/
def colon : Reader Unit := do
  match ← peek with
  | none => throw (.ended .object)
  | some ':' => drop
  | some _ => throw .noColon

/-- A key; colon and value are left to `member`, which joins them to what was read. -/
def keyed (member : String → β → Reader β) (read : β) : Reader β := do
  drop
  let key ← string
  member key read

/-- The members after the first, up to the closing brace. -/
def membersRest (member : String → β → Reader β) : Nat → β → Reader β
  | 0, _ => throw (.ended .object)
  | fuel + 1, read => do
    match ← peek with
    | none => throw (.ended .object)
    | some '\x7d' => drop; return read
    | some ',' =>
      drop
      match ← peek with
      | none => throw (.ended .value)
      | some '\x7d' => throw .trailingComma
      | some '"' => do
        let read ← keyed member read
        membersRest member fuel read
      | some _ => throw .keyNotText
    | some _ => throw .noCommaOrBrace

/-- The members of an object whose opening brace has been taken, joined to `start` in turn. -/
def members (member : String → β → Reader β) (start : β) : Reader β := do
  match ← peek with
  | none => throw (.ended .object)
  | some '\x7d' => drop; return start
  | some '"' =>
    let read ← keyed member start
    membersRest member ((← get).length + 1) read
  | some _ => throw .keyNotText

/-- A value with no items or members, told apart by its first character. -/
def scalar (first : Char) : Reader Json := do
  match first with
  | 'n' => drop; literal "ull".toList; return .null
  | 't' => drop; literal "rue".toList; return .bool true
  | 'f' => drop; literal "alse".toList; return .bool false
  | '"' => drop; return .string (← string)
  | c => if c == '-' || c.isDigit then return .number (← number) else throw .noValue

/-- A value whose lists and objects are nested at most `depth` deep. -/
def value : Nat → Reader Json
  | 0 => do
    match ← peek with
    | none => throw (.ended .value)
    | some '[' | some '\x7b' => throw .tooDeep
    | some c => scalar c
  | depth + 1 => do
    match ← peek with
    | none => throw (.ended .value)
    | some '[' => drop; return .array (← items (value depth))
    | some '\x7b' =>
      drop
      let read ← members (fun key read => do colon; return (key, ← value depth) :: read) []
      return ofMembers read.reverse
    | some c => scalar c

/-- Reads a whole text: only space may follow. -/
def whole (reader : Reader α) (text : String) : Except Fault α := do
  let (a, rest) ← reader.run text.toList
  if (rest.dropWhile isSpace).isEmpty then return a else throw .trailingText

end Reader

/-- The document written in a text. -/
def parse (text : String) : Except Fault Json :=
  Reader.whole (Reader.value depthLimit) text

end TapeMachine.Json
