import TapeMachine.Json.Skip

/-!
Reading values of a known sort straight from text, so that the first fault of the
text is the one reported, be it one of grammar or of sort. `depth` is how deep
lists and objects may still be nested.
-/
namespace TapeMachine.Json.Reader

/-- Where a value of another sort begins: scalars are read to their end before they are
refused, so that a fault inside them comes first. -/
def refuse (wanted : Shape) : Reader α := do
  match ← peek with
  | none => throw (.ended .value)
  | some '[' => throw (.mismatch (.array []) wanted)
  | some '\x7b' => throw (.mismatch (.object []) wanted)
  | some c => throw (.mismatch (← scalar c) wanted)

def text : Reader String := do
  match ← peek with
  | some '"' => drop; string
  | _ => refuse .text

/-- A whole number from `least` to `greatest`. -/
def within (wanted : Shape) (least greatest : Int) : Reader Int := do
  match ← peek with
  | none => throw (.ended .value)
  | some c =>
    if c == '-' || c.isDigit then
      match ← number with
      | .whole i => if least ≤ i ∧ i ≤ greatest then return i else throw (.outOfRange i wanted)
      | .real x => throw (.mismatch (.number (.real x)) wanted)
    else refuse wanted

/-- Nothing for `null`. -/
def optional (reader : Reader α) : Reader (Option α) := do
  match ← peek with
  | some 'n' => drop; literal "ull".toList; return none
  | _ => return some (← reader)

def listOf (item : Nat → Reader α) : Nat → Reader (List α)
  | 0 => do
    match ← peek with
    | some '[' => throw .tooDeep
    | _ => refuse .list
  | depth + 1 => do
    match ← peek with
    | some '[' => drop; items (item depth)
    | _ => refuse .list

/-- A value that is read whole and then made into something else. -/
def converted (convert : Json → Except Rejection α) (depth : Nat) : Reader α := do
  match convert (← value depth) with
  | .ok a => return a
  | .error why => throw (.rejected why)

/-- A field of a record being drafted. `spare` fields may be left out of the list form. -/
structure Slot (δ : Type) where
  name : String
  filled : δ → Bool
  read : Nat → δ → Reader δ
  spare : Bool := false

/-- Reads what follows a key: a known field once, anything else is passed over. A key that comes
again is a fault before its colon is looked for. -/
def slotMember (slots : List (Slot δ)) (depth : Nat) (key : String) (draft : δ) : Reader δ := do
  match slots.find? (·.name == key) with
  | some slot =>
    if slot.filled draft then throw (.repeated key)
    colon
    slot.read depth draft
  | none =>
    colon
    skip
    return draft

/-- The end of a list that has given all its fields. -/
def listEnd : Reader Unit := do
  match ← peek with
  | none => throw (.ended .list)
  | some ']' => drop
  | some ',' =>
    drop
    if (← peek) = some ']' then throw .trailingComma else throw .trailingText
  | some _ => throw .trailingText

/-- Whether another item follows in a list, its comma being passed. -/
def anotherItem (first : Bool) : Reader Bool := do
  match ← peek with
  | none => throw (.ended .list)
  | some ']' => return false
  | some ',' =>
    if first then return true
    drop
    match ← peek with
    | none => throw (.ended .value)
    | some ']' => throw .trailingComma
    | some _ => return true
  | some _ => if first then return true else throw .noCommaOrBracket

/-- The fields of a record in the order of their declaration. -/
def slotItems (wanted : Shape) (depth : Nat) : Nat → List (Slot δ) → δ → Reader δ
  | _, [], draft => do listEnd; return draft
  | n, slot :: slots, draft => do
    if ← anotherItem (n == 0) then
      let draft ← slot.read depth draft
      slotItems wanted depth (n + 1) slots draft
    else if slot.spare then slotItems wanted depth (n + 1) slots draft
    else throw (.length n wanted)

/-- A record, written as an object or as the list of its fields. `finish` turns the draft into
the record or names the field that is missing. -/
def record (name : String) (slots : List (Slot δ)) (start : δ) (finish : δ → Except Fault α) :
    Nat → Reader α
  | 0 => do
    match ← peek with
    | some '[' | some '\x7b' => throw .tooDeep
    | _ => refuse (.record name)
  | depth + 1 => do
    match ← peek with
    | some '[' =>
      drop
      let draft ← slotItems (.recordOf name slots.length) depth 0 slots start
      finish draft
    | some '\x7b' =>
      drop
      let draft ← members (slotMember slots depth) start
      finish draft
    | _ => refuse (.record name)

/-- A field that must be there. -/
def required (field : String) : Option α → Except Fault α
  | some a => .ok a
  | none => .error (.missing field)

end TapeMachine.Json.Reader
