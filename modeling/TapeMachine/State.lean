import TapeMachine.Symbol

/-!
States of a machine, named by texts that are not empty and have no blanks at their
ends.
-/
namespace TapeMachine

structure State where
  name : String
  trimmed : Text.trim name = name
  nonempty : name ≠ ""
  deriving DecidableEq

namespace State

@[ext] theorem ext {a b : State} (h : a.name = b.name) : a = b := by
  cases a; cases b; cases h; rfl

instance : Repr State := ⟨fun q n => reprPrec q.name n⟩

instance : Ord State := ⟨fun a b => compare a.name b.name⟩

theorem compare_eq_lt {a b : State} : compare a b = .lt ↔ a.name < b.name :=
  compareOfLessAndEq_eq_lt

instance : Std.TransOrd State where
  eq_swap {a b} := Std.OrientedOrd.eq_swap (a := a.name) (b := b.name)
  isLE_trans {a b c} := Std.TransOrd.isLE_trans (a := a.name) (b := b.name) (c := c.name)

instance : Std.LawfulEqOrd State where
  compare_self {a} := Std.ReflOrd.compare_self (a := a.name)
  eq_of_compare {a b} h := ext (Std.LawfulEqOrd.eq_of_compare (a := a.name) (b := b.name) h)

/-- The state named by a text, unless nothing is left of it when it is trimmed. -/
def ofText? (raw : String) : Except Rejection State :=
  if h : Text.trim raw = "" then .error (.stateText raw)
  else .ok ⟨Text.trim raw, Text.trim_trim raw, h⟩

/-- The state named by a scalar. -/
def ofJson? (v : Json) : Except Rejection State :=
  match v.scalarText? with
  | some raw => ofText? raw
  | none => .error (.stateJson v)

def toJson (q : State) : Json := .string q.name

def decode : Json.Decoder State := Json.Decode.converted ofJson?

end State

end TapeMachine
