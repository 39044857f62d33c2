import TapeMachine.Json.Decode
import TapeMachine.Text.Blank

/-!
Symbols, the contents of tape cells. A symbol is a text without blanks at its ends;
the text that has nothing else is written as one space.
-/
namespace TapeMachine

/-- The text of a scalar: strings as they are, numbers and truth values as they are printed. -/
def Json.scalarText? : Json → Option String
  | .string s => some s
  | .number n => some n.text
  | .bool b => some (Json.boolText b)
  | _ => none

/-- Trims a text and puts one space in the place of an empty one. -/
def Symbol.normalize (raw : String) : String :=
  if Text.trim raw = "" then " " else Text.trim raw

theorem Text.trim_space : Text.trim " " = "" := by decide

theorem Symbol.normalize_normalize (raw : String) :
    Symbol.normalize (Symbol.normalize raw) = Symbol.normalize raw := by
  by_cases h : Text.trim raw = "" <;> simp [normalize, h, Text.trim_space, Text.trim_trim]

/-- A normalized text. -/
structure Symbol where
  text : String
  normal : Symbol.normalize text = text
  deriving DecidableEq

namespace Symbol

@[ext] theorem ext {a b : Symbol} (h : a.text = b.text) : a = b := by
  cases a; cases b; cases h; rfl

instance : Repr Symbol := ⟨fun s n => reprPrec s.text n⟩

instance : Ord Symbol := ⟨fun a b => compare a.text b.text⟩

theorem compare_eq_lt {a b : Symbol} : compare a b = .lt ↔ a.text < b.text :=
  compareOfLessAndEq_eq_lt

instance : Std.TransOrd Symbol where
  eq_swap {a b} := Std.OrientedOrd.eq_swap (a := a.text) (b := b.text)
  isLE_trans {a b c} := Std.TransOrd.isLE_trans (a := a.text) (b := b.text) (c := c.text)

instance : Std.LawfulEqOrd Symbol where
  compare_self {a} := Std.ReflOrd.compare_self (a := a.text)
  eq_of_compare {a b} h := ext (Std.LawfulEqOrd.eq_of_compare (a := a.text) (b := b.text) h)

/-- Every text gives a symbol. -/
def ofText (raw : String) : Symbol := ⟨normalize raw, normalize_normalize raw⟩

/-- The symbol of cells that nobody has written. -/
def space : Symbol := ofText " "

instance : Inhabited Symbol := ⟨space⟩

/-- The symbol of a text by the stricter rule for states, which refuses empty texts. -/
def ofName? (raw : String) : Except Rejection Symbol :=
  if Text.trim raw = "" then .error (.symbolText raw) else .ok (ofText raw)

/-- The symbol of a scalar. -/
def ofJson? (v : Json) : Except Rejection Symbol :=
  match v.scalarText? with
  | some raw => .ok (ofText raw)
  | none => .error (.symbolJson v)

def toJson (s : Symbol) : Json := .string s.text

def decode : Json.Decoder Symbol := Json.Decode.converted ofJson?

end Symbol

end TapeMachine
