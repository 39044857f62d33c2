import TapeMachine.Error

/-!
Changing things in place. An update goes from state to state; where it fails, it leaves
the state that its steps have come to, and nothing is taken back.
-/
namespace TapeMachine

/-- Changes a state step by step and answers, or stops with an error on the way. -/
abbrev Update (σ α : Type) := EStateM Error σ α

namespace Update

variable {σ ρ α : Type}

/-- Goes on with a value, or fails where it is. -/
def check : Except Error α → Update σ α
  | .ok a => pure a
  | .error e => throw e

/-- Updates a part of the state. What has become of the part stays there, also after an error. -/
def onPart (get : σ → ρ) (set : ρ → σ → σ) (u : Update ρ α) : Update σ α := fun s =>
  match u (get s) with
  | .ok a r => .ok a (set r s)
  | .error e r => .error e (set r s)

end Update

end TapeMachine
