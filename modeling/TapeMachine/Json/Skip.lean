import TapeMachine.Json.Reader

/-!
Passing over a value that nobody asked for. Only the outline is checked: brackets
match, and strings and numbers are formed like such. Nesting is not limited.
-/
namespace TapeMachine.Json.Reader

/-- A digit, which must be there. -/
def passDigit : Reader Char := do
  match ← get with
  | [] => throw .badNumber
  | c :: rest => if c.isDigit then set rest; return c else throw .badNumber

def passExponent : Reader Unit := do
  match ← look with
  | some 'e' | some 'E' =>
    drop
    match ← look with
    | some '+' | some '-' => drop
    | _ => pure ()
    discard passDigit
    discard takeDigits
  | _ => pure ()

def passFraction : Reader Unit := do
  match ← look with
  | some '.' =>
    drop
    discard passDigit
    discard takeDigits
  | _ => pure ()

def passNumber : Reader Unit := do
  if (← look) = some '-' then drop
  let first ← passDigit
  if first = '0' then
    if (← look).any Char.isDigit then throw .badNumber
  else discard takeDigits
  passFraction
  passExponent

/-- Characters up to the closing quote; an escaped code point may be half a pair. -/
def passString : Nat → Reader Unit
  | 0 => throw (.ended .string)
  | fuel + 1 => do
    match ← take .string with
    | '"' => return
    | '\\' =>
      match ← take .string with
      | 'u' => discard hexEscape
      | c => if "\"\\/bfnrt".toList.contains c then pure () else throw .badEscape
      passString fuel
    | c => if c.toNat < 0x20 then throw .controlCharacter else passString fuel

/-- A bracket that is still open. -/
inductive Bracket where
  | list | object
  deriving DecidableEq, Repr

def Bracket.close : Bracket → Char
  | .list => ']'
  | .object => '\x7d'

def Bracket.part : Bracket → Part
  | .list => .list
  | .object => .object

/-- A key and its colon inside an object; nothing inside a list. -/
def passKey (fuel : Nat) : Bracket → Reader Unit
  | .list => return
  | .object => do
    match ← peek with
    | none => throw (.ended .object)
    | some '"' =>
      drop
      passString fuel
      colon
    | some _ => throw .keyNotText

/-- Passes closing brackets and at most one comma. `fresh` tells that the innermost bracket has
just been opened, so that no comma may stand there. What is left open has its next item coming. -/
def passClosing : List Bracket → (fresh : Bool) → Reader (List Bracket)
  | [], _ => return []
  | open' :: outer, fresh => do
    match ← peek with
    | none => throw (.ended open'.part)
    | some c =>
      if c = open'.close then
        drop
        passClosing outer false
      else if fresh then return open' :: outer
      else if c = ',' then
        drop
        return open' :: outer
      else throw (match open' with | .list => .noCommaOrBracket | .object => .noCommaOrBrace)

/-- Passes values until every bracket of `opened` is closed. -/
def passValues : Nat → List Bracket → Reader Unit
  | 0, _ => throw (.ended .value)
  | fuel + 1, opened => do
    let (opened, fresh) ← match ← peek with
      | none => throw (.ended .value)
      | some '[' => do drop; pure (.list :: opened, true)
      | some '\x7b' => do drop; pure (.object :: opened, true)
      | some 'n' => do drop; literal "ull".toList; pure (opened, false)
      | some 't' => do drop; literal "rue".toList; pure (opened, false)
      | some 'f' => do drop; literal "alse".toList; pure (opened, false)
      | some '"' => do drop; passString (fuel + 1); pure (opened, false)
      | some c =>
        if c == '-' || c.isDigit then do passNumber; pure (opened, false) else throw .noValue
    match ← passClosing opened fresh with
    | [] => return
    | inner :: outer =>
      passKey (fuel + 1) inner
      passValues fuel (inner :: outer)

/-- Passes over one value. -/
def skip : Reader Unit := do
  passValues ((← get).length + 1) []

end TapeMachine.Json.Reader
