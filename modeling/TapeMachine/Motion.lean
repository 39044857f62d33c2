import TapeMachine.Json.Decode
import TapeMachine.Text.Blank

/-!
Motions of the head after a transition.
-/
namespace TapeMachine

/-- Both `stop` and `halt` leave the head where it is. -/
inductive Motion where
  | left | right | stop | halt
  deriving DecidableEq, Repr

namespace Motion

def name : Motion → String
  | .left => "LEFT"
  | .right => "RIGHT"
  | .stop => "STOP"
  | .halt => "HALT"

/-- How far the head goes to the right. -/
def delta : Motion → Int
  | .left => -1
  | .right => 1
  | .stop | .halt => 0

/-- The place of a motion in their order. -/
def rank : Motion → Nat
  | .left => 0
  | .right => 1
  | .stop => 2
  | .halt => 3

instance : Ord Motion := ⟨fun a b => compare a.rank b.rank⟩

/-- Motions go by their names or initials in either case, blanks around them apart. No
character beyond ASCII has one of these letters as its lower case. -/
def ofText? (raw : String) : Except Rejection Motion :=
  let word := String.ofList ((Text.trim raw).toList.map Char.toLower)
  if word = "l" ∨ word = "left" then .ok .left
  else if word = "r" ∨ word = "right" then .ok .right
  else if word = "s" ∨ word = "stop" then .ok .stop
  else if word = "h" ∨ word = "halt" then .ok .halt
  else .error (.motion raw)

def toJson (m : Motion) : Json := .string m.name

def decode : Json.Decoder Motion := fun v => do
  let raw ← Json.Decode.text v
  (ofText? raw).mapError .rejected

end Motion

end TapeMachine
