import TapeMachine.Sorted

/-!
Documents: JSON values whose whole numbers stay exact. An object lists its members
by increasing key, one member to a key.
-/
namespace TapeMachine

/-- A number of a document. Texts give a whole number from `-2 ^ 63` up to `2 ^ 64 - 1` and
written without point and exponent as `whole`, every other as `real`. -/
inductive Number where
  | whole (i : Int)
  | real (x : Float)
  deriving Inhabited, Repr

inductive Json where
  | null
  | bool (b : Bool)
  | number (n : Number)
  | string (s : String)
  | array (items : List Json)
  | object (members : List (String × Json))
  deriving Inhabited, Repr

namespace Json

abbrev int (i : Int) : Json := .number (.whole i)

abbrev nat (n : Nat) : Json := .int n

/-- An object with the given members; of several with one key the last stays. -/
def ofMembers (members : List (String × Json)) : Json :=
  .object (SortedBy.ofList members : SortedBy (Prod.fst : String × Json → String)).toList

/-- The member of an object under `key`. Nothing else has members. -/
def get? (key : String) : Json → Option Json
  | .object members => members.lookup key
  | _ => none

/-- The value, or `null` for none. -/
def ofOption (encode : α → Json) : Option α → Json
  | none => .null
  | some a => encode a

def list (encode : α → Json) (xs : List α) : Json :=
  .array (xs.map encode)

end Json

end TapeMachine
