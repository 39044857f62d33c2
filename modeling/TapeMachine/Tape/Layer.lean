import TapeMachine.Tape.Head

/-!
Layers around tapes. A layer owns the tape inside it and hands every operation of the head
on; what it offers beyond that is made of these operations. Layers may be put around one
another.
-/
namespace TapeMachine

structure Layer (τ : Type) where
  inner : τ
  deriving DecidableEq, Repr

namespace Layer

variable {τ : Type}

/-- Does something to the tape inside. -/
def map (f : τ → τ) (t : Layer τ) : Layer τ := ⟨f t.inner⟩

instance [HasHead τ] : HasHead (Layer τ) where
  tape t := HasHead.tape t.inner
  visit p := map (HasHead.visit p)
  write s := map (HasHead.write s)
  left n := map (HasHead.left n)
  right n := map (HasHead.right n)
  moveTo p := map (HasHead.moveTo p)
  clear := map HasHead.clear
  load v t := mk <$> HasHead.load v t.inner
  toJson t := HasHead.toJson t.inner

end Layer

end TapeMachine
