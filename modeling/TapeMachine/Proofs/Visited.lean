import TapeMachine.Proofs.MachineDocument
import TapeMachine.Proofs.TapeIdentity

/-!
The visited range of a tape. It holds the head and every cell that has been written,
however the tape has come about, so tapes that agree where they have been visited agree
everywhere. The tape of a reachable machine has come about in such a way.
-/
namespace TapeMachine

namespace Tape

/-- The head and all written cells are within the visited range. -/
structure Covered (t : Tape) : Prop where
  head : t.first ≤ t.cursor.index ∧ t.cursor.index ≤ t.last
  written : ∀ i, (t.cell i).isSome = true → t.first ≤ i ∧ i ≤ t.last

variable {t u : Tape}

theorem covered_empty (blank : Symbol) : (empty blank).Covered where
  head := ⟨Int.le_refl 0, Int.le_refl 0⟩
  written i hi := by
    rw [cell_empty] at hi
    cases hi

theorem Covered.touch (h : t.Covered) (i : Int) : (t.touch i).Covered where
  head := by
    have hhead := h.head
    change min t.first i ≤ t.cursor.index ∧ t.cursor.index ≤ max t.last i
    omega
  written j hj := by
    have hwritten := h.written j hj
    change min t.first i ≤ j ∧ j ≤ max t.last i
    omega

theorem Covered.put (h : t.Covered) (i : Int) (c : Option Symbol) : (t.put i c).Covered where
  head := (h.touch i).head
  written j hj := by
    rw [cell_put] at hj
    split at hj
    next he =>
      change min t.first i ≤ j ∧ j ≤ max t.last i
      omega
    next => exact (h.touch i).written j hj

theorem Covered.moveTo (h : t.Covered) (p : Position) : (t.moveTo p).Covered where
  head := by
    change min t.first p.index ≤ p.index ∧ p.index ≤ max t.last p.index
    omega
  written := (h.touch p.index).written

theorem covered_ofCells (blank : Symbol) {offset : Nat} (cursor : Position)
    {data : List (Option Symbol)} (h : offset ≤ data.length) :
    (ofCells blank offset cursor data).Covered := by
  cases data with
  | nil =>
    refine ⟨⟨Int.le_refl _, Int.le_refl _⟩, fun i hi => ?_⟩
    rw [cell_ofCells] at hi
    simp at hi
  | cons c data =>
    constructor
    · change min (-(offset : Int)) cursor.index ≤ cursor.index ∧
        cursor.index ≤ max _ cursor.index
      omega
    · intro i hi
      have hrange := index_of_isSome hi
      simp only [ofCells, List.isEmpty_cons, Bool.false_eq_true, ↓reduceIte,
        List.size_toArray] at hrange ⊢
      omega

theorem covered_load {v : Json} (h : t.load v = .ok u) : u.Covered := by
  obtain ⟨d, data, cursor, _, _, _, hle, rfl⟩ := load_eq_ok.mp h
  exact covered_ofCells _ cursor hle

theorem coveredInvariant : HeadInvariant Covered where
  visit p _ h := h.touch p.index
  write _ t h := h.put t.cursor.index _
  left _ _ h := h.moveTo _
  right _ _ h := h.moveTo _
  moveTo p _ h := h.moveTo p
  clear t _ := covered_empty t.blank
  load _ _ _ _ h := covered_load h

theorem Attainable.covered (h : t.Attainable) : t.Covered := by
  induction h with
  | empty blank => exact covered_empty blank
  | edit e _ ih => exact coveredInvariant.perform e ih
  | @apply op t _ ih =>
    cases op with
    | write old new => exact ih.put t.cursor.index new
    | move d => exact ih.moveTo _

theorem Covered.cell_eq_none (h : t.Covered) {i : Int} (hi : ¬(t.first ≤ i ∧ i ≤ t.last)) :
    t.cell i = none := by
  cases hc : t.cell i with
  | none => rfl
  | some s => exact absurd (h.written i (by rw [hc]; rfl)) hi

/-- Comparing the visited ranges compares all cells. -/
theorem equals_iff (ht : t.Covered) (hu : u.Covered) (ignoreBlanks ignoreCursor : Bool) :
    t.equals u ignoreBlanks ignoreCursor = true ↔
      t.blank = u.blank ∧ (ignoreCursor = true ∨ t.cursor = u.cursor) ∧
        ∀ i, agreeAt ignoreBlanks t u i = true := by
  simp only [equals, Bool.and_eq_true, Bool.or_eq_true, beq_iff_eq, allFrom_iff, and_assoc]
  refine and_congr_right fun hblank => and_congr_right fun _ => ⟨fun h i => ?_, fun h i _ _ => h i⟩
  by_cases hi : min t.first u.first ≤ i ∧ i ≤ max t.last u.last
  · exact h i hi.1 (by omega)
  · have hti : t.cell i = none := ht.cell_eq_none (by omega)
    have hui : u.cell i = none := hu.cell_eq_none (by omega)
    simp [agreeAt, symbolAt, hti, hui, hblank]

end Tape

namespace LoggedTape.Reachable

variable {t u : LoggedTape}

theorem load (h : t.Reachable) {v : Json} (hu : t.load v = .ok u) : u.Reachable := by
  have hedit : (Edit.head (.load v)).perform t = u := by
    change settled t (t.load v) = u
    rw [hu]
    rfl
  exact hedit ▸ .edit (.head (.load v)) h

theorem undone (h : t.Reachable) : t.undone.Reachable := by
  by_cases hx : t.journal.stack = [[]]
  · -- there is nothing to take back, and the frame that is dropped is made anew
    obtain ⟨tape, current, earlier, limit⟩ := t
    cases hx
    exact h
  · exact Edit.perform_undo_of_not_exhausted hx ▸ .edit .undo h

end LoggedTape.Reachable

/-- Whatever is done to a machine is done to its tape by edits. -/
theorem Machine.Reachable.tape {m : Machine} (h : m.Reachable) : m.tape.Reachable := by
  induction h with
  | new ht hm =>
    obtain ⟨set, _, hm⟩ := bind_eq_ok.mp hm
    cases hm
    exact ht
  | ofJson hm =>
    obtain ⟨d, hd, hm⟩ := bind_eq_ok.mp hm
    obtain ⟨⟨v, hv⟩, _⟩ := MachineDocument.checked_of_decode hd
    cases hm
    exact LoggedTape.Reachable.load (.recording none (.empty .space)) hv
  | obey c _ ih =>
    refine obey_preserves (P := fun m => m.tape.Reachable) ?_ ?_ ?_ ?_ c ih
    · intro m i _ _ h
      exact .edit (.head (.moveBy i.motion)) (.edit (.head (.write i.write)) (.edit .snapshot h))
    · intro m result before hone h
      obtain ⟨q, past, _, rfl⟩ := eq_reverted_of_backOne hone
      exact h.undone
    · intro m m' hm h
      obtain ⟨tape, htape, hm⟩ := bind_eq_ok.mp hm
      cases hm
      exact h.load htape
    · intro m limit h
      exact .edit (.setLimit limit) h
  | editTape e _ ih => exact .edit e ih
  | replaceTape ht _ _ => exact ht
  | load _ hm ih =>
    obtain ⟨d, hd, hm⟩ := bind_eq_ok.mp hm
    obtain ⟨⟨v, hv⟩, _⟩ := MachineDocument.checked_of_decode hd
    cases hm
    exact ih.load hv
  | setProgram program _ ih => exact ih
  | setTape ht _ _ => exact ht
  | setFinals _ hm ih =>
    obtain ⟨set, _, hm⟩ := bind_eq_ok.mp hm
    cases hm
    exact ih
  | setInitialState q _ ih =>
    unfold Machine.setInitialState
    split <;> exact ih
  | setName name _ ih => exact ih
  | configure settings _ ih => exact ih

end TapeMachine
