import TapeMachine.Proofs.Frames
import TapeMachine.Tape.Head

/-!
Everything that can be done to a tape from outside, as data. An edit that fails leaves
the tape as it is. The reachable tapes are those that edits make of an empty one, and
what every single operation of a head preserves is preserved by all edits of a head.
-/
namespace TapeMachine

/-- A number of things that 64 bits can count. -/
abbrev Count := { n : Nat // n ≤ greatestCount }

/-- A limit on frames that 64 bits can count. -/
def bound (limit : Option Count) : Option Nat := limit.map Subtype.val

theorem bound_le {limit : Option Count} {n : Nat} (h : bound limit = some n) :
    n ≤ greatestCount := by
  obtain ⟨c, _, rfl⟩ := Option.map_eq_some_iff.mp h
  exact c.property

/-- What can be asked of any tape with a head. -/
inductive HeadEdit where
  | write (s : Symbol)
  | left (n : Nat)
  | right (n : Nat)
  | moveTo (p : Position)
  | moveBy (motion : Motion)
  | readAt (p : Position)
  | window (p : Position) (count : Nat)
  | clear
  | fill (symbols : List Symbol)
  | loadText (text : String)
  | load (document : Json)

/-- The new value of an attempt, or the old one if it has failed. -/
def settled (old : α) : Except Error α → α
  | .ok new => new
  | .error _ => old

/-- A computation in steps succeeds if every step does. -/
theorem bind_eq_ok {ε α β : Type} {x : Except ε α} {f : α → Except ε β} {b : β} :
    (x >>= f) = .ok b ↔ ∃ a, x = .ok a ∧ f a = .ok b := by
  constructor
  · intro h
    cases x with
    | error e => cases h
    | ok a => exact ⟨a, rfl, h⟩
  · rintro ⟨a, rfl, hf⟩
    exact hf

theorem mapError_eq_ok {ε ε' α : Type} {x : Except ε α} {f : ε → ε'} {a : α} :
    x.mapError f = .ok a ↔ x = .ok a := by
  cases x with
  | error e => constructor <;> intro h <;> cases h
  | ok b => constructor <;> intro h <;> cases h <;> rfl

namespace HeadEdit

variable {τ : Type} [HasHead τ]

def perform : HeadEdit → τ → τ
  | .write s, t => HasHead.write s t
  | .left n, t => HasHead.left n t
  | .right n, t => HasHead.right n t
  | .moveTo p, t => HasHead.moveTo p t
  | .moveBy motion, t => HasHead.moveBy motion t
  | .readAt p, t => (HasHead.readAt p t).2
  | .window p count, t => settled t (Prod.snd <$> HasHead.window p count t)
  | .clear, t => HasHead.clear t
  | .fill symbols, t => HasHead.fill symbols .origin t
  | .loadText text, t => settled t (HasHead.loadText text t)
  | .load document, t => settled t (HasHead.load document t)

end HeadEdit

/-- A property of tapes that no single operation of a head destroys. -/
structure HeadInvariant {τ : Type} [HasHead τ] (P : τ → Prop) : Prop where
  visit : ∀ p t, P t → P (HasHead.visit p t)
  write : ∀ s t, P t → P (HasHead.write s t)
  left : ∀ n t, P t → P (HasHead.left n t)
  right : ∀ n t, P t → P (HasHead.right n t)
  moveTo : ∀ p t, P t → P (HasHead.moveTo p t)
  clear : ∀ t, P t → P (HasHead.clear t)
  load : ∀ v t u, P t → HasHead.load v t = .ok u → P u

namespace HeadInvariant

variable {τ : Type} [HasHead τ] {P : τ → Prop} (hP : HeadInvariant P)
include hP

theorem readAll (ps : List Position) {t : τ} (h : P t) : P (HasHead.readAll ps t).2 := by
  induction ps generalizing t with
  | nil => exact h
  | cons p ps ih => exact ih (hP.visit p t h)

theorem writeRow (symbols : List Symbol) {t : τ} (h : P t) : P (HasHead.writeRow symbols t) := by
  induction symbols generalizing t with
  | nil => exact h
  | cons s rest ih =>
    cases rest with
    | nil => exact hP.write s t h
    | cons s' rest => exact ih (hP.right 1 _ (hP.write s t h))

theorem fill (symbols : List Symbol) (cursor : Position) {t : τ} (h : P t) :
    P (HasHead.fill symbols cursor t) :=
  hP.moveTo cursor _ (hP.writeRow symbols (hP.clear t h))

theorem moveBy (motion : Motion) {t : τ} (h : P t) : P (HasHead.moveBy motion t) := by
  cases motion with
  | left => exact hP.left 1 t h
  | right => exact hP.right 1 t h
  | stop => exact h
  | halt => exact h

/-- What single operations preserve, every edit of a head preserves. -/
theorem perform (e : HeadEdit) {t : τ} (h : P t) : P (e.perform t) := by
  cases e with
  | write s => exact hP.write s t h
  | left n => exact hP.left n t h
  | right n => exact hP.right n t h
  | moveTo p => exact hP.moveTo p t h
  | moveBy motion => exact hP.moveBy motion h
  | readAt p => exact hP.visit p t h
  | window p count =>
    simp only [HeadEdit.perform, HasHead.window]
    split
    · exact h
    · exact hP.readAll _ h
  | clear => exact hP.clear t h
  | fill symbols => exact hP.fill symbols _ h
  | loadText text =>
    simp only [HeadEdit.perform, HasHead.loadText]
    cases TapeText.parse text with
    | error fault => exact h
    | ok parsed => exact hP.fill _ _ h
  | load document =>
    simp only [HeadEdit.perform]
    cases hl : HasHead.load document t with
    | error e => exact h
    | ok u => exact hP.load document t u h hl

end HeadInvariant

/-- What can be asked of a tape with a journal. -/
inductive Edit where
  | head (e : HeadEdit)
  | snapshot
  | undo
  | setLimit (limit : Option Count)

namespace Edit

def perform : Edit → LoggedTape → LoggedTape
  | .head e, t => e.perform t
  | .snapshot, t => t.snapshot
  | .undo, t => settled t (Prod.snd <$> t.undo)
  | .setLimit limit, t => t.setLimit (bound limit)

/-- One edit after the other. -/
def performAll (edits : List Edit) (t : LoggedTape) : LoggedTape :=
  edits.foldl (fun t e => e.perform t) t

theorem perform_undo_of_exhausted {t : LoggedTape} (h : t.journal.stack = [[]]) :
    Edit.undo.perform t = t := by
  simp only [perform, LoggedTape.undo_of_exhausted h]
  rfl

theorem perform_undo_of_not_exhausted {t : LoggedTape} (h : t.journal.stack ≠ [[]]) :
    Edit.undo.perform t = t.undone := by
  simp only [perform, LoggedTape.undo_of_not_exhausted h]
  rfl

end Edit

/-- The tapes that can be made of an empty one. -/
inductive Tape.Reachable : Tape → Prop where
  | empty (blank : Symbol) : Reachable (.empty blank)
  | edit (e : HeadEdit) {t : Tape} : Reachable t → Reachable (e.perform t)

/-- A tape of which everything is recorded from now on. -/
def LoggedTape.recording (t : Tape) (limit : Option Nat) : LoggedTape := ⟨t, { limit }⟩

/-- The tapes with a journal that can be made of a reachable tape. -/
inductive LoggedTape.Reachable : LoggedTape → Prop where
  | recording (limit : Option Count) {t : Tape} :
      t.Reachable → Reachable (.recording t (bound limit))
  | edit (e : Edit) {t : LoggedTape} : Reachable t → Reachable (e.perform t)

theorem LoggedTape.Reachable.performAll {t : LoggedTape} (h : t.Reachable) (edits : List Edit) :
    (Edit.performAll edits t).Reachable := by
  induction edits generalizing t with
  | nil => exact h
  | cons e edits ih => exact ih (.edit e h)

end TapeMachine
