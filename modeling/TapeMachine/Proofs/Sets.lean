import TapeMachine.Sorted

/-!
Sorted lists as sets. A set contains the members of its list and nothing else, inserting
adds one member, and a set has no more members than any list that holds them all.
-/
namespace TapeMachine

open Std

namespace SortedBy

variable {α : Type} [Ord α] [LawfulEqOrd α]

/-- Looking a member up finds what is listed. -/
theorem contains_iff_mem (s : SortedSet α) (k : α) : s.contains k = true ↔ k ∈ s.toList := by
  simp only [contains, find?, List.find?_isSome, beq_iff_eq, id_eq]
  constructor
  · rintro ⟨x, hx, hk⟩
    rw [← LawfulEqOrd.eq_of_compare hk]
    exact hx
  · intro hk
    exact ⟨k, hk, ReflOrd.compare_self⟩

theorem nodup_toList (s : SortedSet α) : s.toList.Nodup := by
  refine s.increasing.imp ?_
  rintro a b hab rfl
  rw [ReflOrd.compare_self] at hab
  cases hab

/-- A set is no larger than a list of all its members. -/
theorem size_le_length (s : SortedSet α) {xs : List α} (h : ∀ k, s.contains k = true → k ∈ xs) :
    s.size ≤ xs.length :=
  s.nodup_toList.length_le_of_subset fun k hk => h k ((s.contains_iff_mem k).mpr hk)

/-- A set that contains all of another and one more member is larger. -/
theorem size_lt_size {s t : SortedSet α} (h : ∀ k, s.contains k = true → t.contains k = true)
    {x : α} (hs : s.contains x = false) (ht : t.contains x = true) : s.size < t.size := by
  have hx : x ∉ s.toList := by
    rw [← contains_iff_mem, hs]
    exact Bool.false_ne_true
  have hsub : x :: s.toList ⊆ t.toList := by
    intro k hk
    rw [← contains_iff_mem]
    rcases List.mem_cons.mp hk with rfl | hk
    · exact ht
    · exact h k ((s.contains_iff_mem k).mpr hk)
  exact (List.nodup_cons.mpr ⟨hx, s.nodup_toList⟩).length_le_of_subset hsub

variable [TransOrd α]

theorem contains_insert (s : SortedSet α) (x k : α) :
    (s.insert x).contains k = true ↔ x = k ∨ s.contains k = true := by
  by_cases h : compare x k = .eq
  · have hk : x = k := LawfulEqOrd.eq_of_compare h
    subst hk
    have hself : (s.insert x).find? x = some x := find?_insert_self s x
    simp [contains, hself]
  · have hne : x ≠ k := by
      rintro rfl
      exact h ReflOrd.compare_self
    have hother : (s.insert x).find? k = s.find? k := find?_insert_of_ne s x h
    simp [contains, hother, hne]

theorem contains_foldl_insert (xs : List α) (s : SortedSet α) (k : α) :
    (xs.foldl insert s).contains k = true ↔ k ∈ xs ∨ s.contains k = true := by
  induction xs generalizing s with
  | nil => simp
  | cons x xs ih =>
    rw [List.foldl_cons, ih, contains_insert, List.mem_cons, eq_comm]
    constructor
    · rintro (h | h | h)
      · exact .inl (.inr h)
      · exact .inl (.inl h)
      · exact .inr h
    · rintro ((h | h) | h)
      · exact .inr (.inl h)
      · exact .inl h
      · exact .inr (.inr h)

/-- A set of listed members contains these and no others. -/
theorem contains_ofList (xs : List α) (k : α) :
    (ofList xs : SortedSet α).contains k = true ↔ k ∈ xs := by
  have hempty : (empty : SortedSet α).contains k = false := rfl
  rw [ofList, contains_foldl_insert, hempty]
  simp

end SortedBy

end TapeMachine
