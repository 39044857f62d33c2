import TapeMachine.Proofs.Layers
import TapeMachine.Proofs.TapeIdentity

/-!
Tapes of any layers. A tape may be plain, have a journal, and be put into layers, and at
every time it may be asked for what its outermost layer offers or, through the layers, for
what a journal offers. Main statement: whatever has been done to such a tape, the tape it
shows can be made of an empty one.
-/
namespace TapeMachine

namespace HasHead

/-- An edit takes one tape to another. A layer hands on what is asked of the tape inside. -/
inductive Step : {τ : Type} → [HasHead τ] → Edit → τ → τ → Prop where
  | head {τ : Type} [HasHead τ] (e : HeadEdit) (t : τ) : Step (.head e) t (e.perform t)
  | journal (e : Edit) (t : LoggedTape) : Step e t (e.perform t)
  | inside {τ : Type} [HasHead τ] {e : Edit} {t u : τ} :
      Step e t u → Step e (Layer.mk t) (Layer.mk u)

/-- The tapes of any layers that can be made of an empty one. -/
inductive Reachable : {τ : Type} → [HasHead τ] → τ → Prop where
  | empty (blank : Symbol) : Reachable (Tape.empty blank)
  | recording (limit : Option Count) {t : Tape} :
      Reachable t → Reachable (LoggedTape.recording t (bound limit))
  | recorded {t : LoggedTape} : Reachable t → Reachable t.tape
  | layer {τ : Type} [HasHead τ] {t : τ} : Reachable t → Reachable (Layer.mk t)
  | inner {τ : Type} [HasHead τ] {t : Layer τ} : Reachable t → Reachable t.inner
  | step {τ : Type} [HasHead τ] {e : Edit} {t u : τ} : Reachable t → Step e t u → Reachable u

end HasHead

/-- Tapes that do to the tape they show what they are asked for, and accept no document that it
would not. -/
class Truthful (τ : Type) [HasHead τ] : Prop extends Transparent τ where
  accepts : ∀ v (t u : τ), HasHead.load v t = .ok u →
    (HasHead.tape t).load v = .ok (HasHead.tape u)

instance : Truthful Tape where
  accepts _ _ _ h := h

instance : Truthful LoggedTape where
  accepts v t u h := by
    obtain ⟨frames, _, h⟩ := bind_eq_ok.mp h
    obtain ⟨limit, _, h⟩ := bind_eq_ok.mp h
    obtain ⟨tape, htape, h⟩ := bind_eq_ok.mp h
    cases h
    exact htape

theorem Layer.load_eq_ok {τ : Type} [HasHead τ] {v : Json} {t u : Layer τ} :
    HasHead.load v t = .ok u ↔ HasHead.load v t.inner = .ok u.inner := by
  change Layer.mk <$> HasHead.load v t.inner = .ok u ↔ _
  obtain ⟨inner⟩ := u
  cases HasHead.load v t.inner with
  | error e => constructor <;> intro h <;> cases h
  | ok w => constructor <;> intro h <;> cases h <;> rfl

instance (τ : Type) [HasHead τ] [Truthful τ] : Truthful (Layer τ) where
  accepts v t u h := Truthful.accepts v t.inner u.inner (Layer.load_eq_ok.mp h)

namespace Truthful

variable {τ : Type} [HasHead τ]

/-- What is shown through a layer is shown inside of it. -/
theorem ofLayer (h : Truthful (Layer τ)) : Truthful τ where
  visit p t := h.visit p ⟨t⟩
  write s t := h.write s ⟨t⟩
  left n t := h.left n ⟨t⟩
  right n t := h.right n ⟨t⟩
  moveTo p t := h.moveTo p ⟨t⟩
  clear t := h.clear ⟨t⟩
  load v t hv := by
    have hload := h.load v ⟨t⟩ hv
    change HasHead.tape <$> Layer.mk <$> HasHead.load v t = (HasHead.tape t).load v at hload
    rw [← hload]
    cases HasHead.load v t <;> rfl
  accepts v t u hu := h.accepts v ⟨t⟩ ⟨u⟩ (Layer.load_eq_ok.mpr hu)

/-- What no operation of a plain tape destroys, no operation destroys of the tape that is shown. -/
theorem headInvariant [Truthful τ] {P : Tape → Prop} (hP : HeadInvariant P) :
    HeadInvariant fun t : τ => P (HasHead.tape t) where
  visit p t h := by
    rw [Transparent.visit]
    exact hP.visit p _ h
  write s t h := by
    rw [Transparent.write]
    exact hP.write s _ h
  left n t h := by
    rw [Transparent.left]
    exact hP.left n _ h
  right n t h := by
    rw [Transparent.right]
    exact hP.right n _ h
  moveTo p t h := by
    rw [Transparent.moveTo]
    exact hP.moveTo p _ h
  clear t h := by
    rw [Transparent.clear]
    exact hP.clear _ h
  load v t u h hu := hP.load v _ _ h (Truthful.accepts v t u hu)

end Truthful

namespace HasHead

variable {τ : Type} [HasHead τ] {t u : τ} {e : Edit}

theorem Step.attainable (hstep : Step e t u) (hτ : Truthful τ) (h : (tape t).Attainable) :
    (tape u).Attainable := by
  induction hstep with
  | head e t => exact (Truthful.headInvariant Tape.attainableInvariant).perform e h
  | journal e t => exact LoggedTape.attainable_perform e h
  | inside _ ih => exact ih hτ.ofLayer h

/-- Whatever has been done in whatever layers, the shown tape can be made of an empty one. -/
theorem Reachable.truthful (h : Reachable t) : Truthful τ ∧ (tape t).Attainable := by
  induction h with
  | empty blank => exact ⟨inferInstance, .empty blank⟩
  | recording limit _ ih => exact ⟨inferInstance, ih.2⟩
  | recorded _ ih => exact ⟨inferInstance, ih.2⟩
  | layer _ ih =>
    have := ih.1
    exact ⟨inferInstance, ih.2⟩
  | inner _ ih => exact ⟨ih.1.ofLayer, ih.2⟩
  | step _ hstep ih => exact ⟨ih.1, hstep.attainable ih.1 ih.2⟩

end HasHead

end TapeMachine
