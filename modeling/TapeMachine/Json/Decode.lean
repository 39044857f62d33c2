import TapeMachine.Bounds
import TapeMachine.Json.Fault

/-!
Taking typed values out of documents. The first fault in the order of the document
is the one reported; the members of an object come in the order of their keys.
-/
namespace TapeMachine.Json

/-- Takes a value of one sort out of a document. -/
abbrev Decoder (α : Type) := Json → Except Fault α

namespace Decode

def text : Decoder String
  | .string s => .ok s
  | v => .error (.mismatch v .text)

/-- A whole number from `least` to `greatest`. -/
def within (wanted : Shape) (least greatest : Int) : Decoder Int
  | .number (.whole i) =>
    if least ≤ i ∧ i ≤ greatest then .ok i else .error (.outOfRange i wanted)
  | v => .error (.mismatch v wanted)

/-- A number of things. -/
def count : Decoder Nat := fun v => Int.toNat <$> within .count 0 greatestCount v

/-- Nothing for `null`. -/
def optional (decode : Decoder α) : Decoder (Option α)
  | .null => .ok none
  | v => some <$> decode v

def list (decode : Decoder α) : Decoder (List α)
  | .array items => items.mapM decode
  | v => .error (.mismatch v .list)

/-- A list of exactly three. What is there is decoded before a wrong length is reported. -/
def triple (first : Decoder α) (second : Decoder β) (third : Decoder γ) : Decoder (α × β × γ)
  | .array items => do
    match items with
    | [] => .error (.length 0 .triple)
    | a :: rest =>
      let a ← first a
      match rest with
      | [] => .error (.length 1 .triple)
      | b :: rest =>
        let b ← second b
        match rest with
        | [] => .error (.length 2 .triple)
        | c :: rest =>
          let c ← third c
          if rest.isEmpty then .ok (a, b, c) else .error (.length items.length .fewerItems)
  | v => .error (.mismatch v .triple)

/-- A value made from any document. -/
def converted (convert : Json → Except Rejection α) : Decoder α := fun v =>
  (convert v).mapError .rejected

/-- A field of a record that has a value before it is decoded. `spare` fields may be left out
of the list form. -/
structure Field (ρ : Type) where
  name : String
  decode : Json → ρ → Except Fault ρ
  spare : Bool := true

/-- Fields in the order of their declaration, `n` of them being done. -/
def fieldItems (wanted : Shape) : Nat → List (Field ρ) → List Json → ρ → Except Fault ρ
  | n, [], rest, record =>
    if rest.isEmpty then .ok record else .error (.length (n + rest.length) .fewerItems)
  | n, field :: fields, v :: rest, record => do
    fieldItems wanted (n + 1) fields rest (← field.decode v record)
  | n, field :: fields, [], record =>
    if field.spare then fieldItems wanted (n + 1) fields [] record
    else .error (.length n wanted)

/-- A record, given as an object or as the list of its fields. Unknown keys are passed over,
and a field that is not given keeps its value in `start`. -/
def record (name : String) (fields : List (Field ρ)) (start : ρ) : Decoder ρ
  | .object members =>
    members.foldlM (fun record (key, v) =>
      match fields.find? (·.name == key) with
      | some field => field.decode v record
      | none => .ok record) start
  | .array items => fieldItems (.recordOf name fields.length) 0 fields items start
  | v => .error (.mismatch v (.record name))

end Decode

end TapeMachine.Json
