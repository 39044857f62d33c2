import Mathlib.Data.List.Dedup
import Mathlib.Data.List.Induction
import TapeMachine.Sorted

/-!
Sorted lists as maps from keys. What is listed is what is found under its key, so a map is
determined by what it finds. A map that is made of a list finds under each key the last
member with that key, and has as many members as the list has keys.
-/
namespace TapeMachine

open Std

/-- Pairs are compared by what comes first, and if that is equal by what comes second. -/
theorem lexOrd_eq_lt {α β : Type} [Ord α] [Ord β] [LawfulEqOrd α] {a b : α × β} :
    lexOrd.compare a b = .lt ↔ compare a.1 b.1 = .lt ∨ a.1 = b.1 ∧ compare a.2 b.2 = .lt := by
  change (compare a.1 b.1).then (compare a.2 b.2) = .lt ↔ _
  rw [Ordering.then_eq_lt, Std.compare_eq_iff_eq]

namespace SortedBy

theorem ofList_concat {α κ : Type} [Ord κ] [TransOrd κ] {key : α → κ} (xs : List α) (x : α) :
    (ofList (xs ++ [x]) : SortedBy key) = (ofList xs).insert x := by
  rw [ofList, List.foldl_append]
  rfl

variable {α κ : Type} [Ord κ] [LawfulEqOrd κ] {key : α → κ}

theorem nodup_keys (s : SortedBy key) : (s.toList.map key).Nodup := by
  refine List.pairwise_map.mpr (s.increasing.imp ?_)
  intro a b hab he
  rw [he, ReflOrd.compare_self] at hab
  cases hab

/-- A member is found under its own key, and no other one is. -/
theorem find?_eq_some_iff (s : SortedBy key) {k : κ} {x : α} :
    s.find? k = some x ↔ x ∈ s.toList ∧ key x = k := by
  have hfound {y : α} (hy : s.find? k = some y) : y ∈ s.toList ∧ key y = k :=
    ⟨List.mem_of_find?_eq_some hy, LawfulEqOrd.eq_of_compare (by simpa using List.find?_some hy)⟩
  constructor
  · exact hfound
  · rintro ⟨hx, rfl⟩
    cases hy : s.find? (key x) with
    | none =>
      have hnone := List.find?_eq_none.mp hy x hx
      simp [ReflOrd.compare_self] at hnone
    | some y =>
      obtain ⟨hmem, hkey⟩ := hfound hy
      rw [List.inj_on_of_nodup_map s.nodup_keys hmem hx hkey]

theorem mem_toList_iff (s : SortedBy key) {x : α} : x ∈ s.toList ↔ s.find? (key x) = some x := by
  rw [find?_eq_some_iff]
  exact (and_iff_left rfl).symm

variable [TransOrd κ]

/-- There is one order in which members can be listed. -/
theorem ext_mem {s t : SortedBy key} (h : ∀ x, x ∈ s.toList ↔ x ∈ t.toList) : s = t := by
  have hperm : s.toList.Perm t.toList :=
    (List.perm_ext_iff_of_nodup s.nodup_keys.of_map t.nodup_keys.of_map).mpr h
  refine ext (hperm.eq_of_pairwise ?_ s.increasing t.increasing)
  intro a b _ _ hab hba
  rw [OrientedCmp.gt_of_lt hba] at hab
  cases hab

/-- Maps that find the same are the same. -/
theorem ext_find? {s t : SortedBy key} (h : ∀ k, s.find? k = t.find? k) : s = t :=
  ext_mem fun x => by rw [mem_toList_iff, mem_toList_iff, h]

variable [DecidableEq κ]

/-- A new member is found under its key, and nothing else changes. -/
theorem find?_insert (s : SortedBy key) (x : α) (k : κ) :
    (s.insert x).find? k = if key x = k then some x else s.find? k := by
  split
  next h => rw [← h, find?_insert_self]
  next h => exact find?_insert_of_ne s x fun he => h (LawfulEqOrd.eq_of_compare he)

/-- Of several members with one key the last is found. -/
theorem find?_ofList (xs : List α) (k : κ) :
    (ofList xs : SortedBy key).find? k = (xs.filter fun x => key x = k).getLast? := by
  induction xs using List.reverseRecOn with
  | nil => rfl
  | append_singleton xs x ih =>
    rw [ofList_concat, List.filter_append, find?_insert]
    split
    next hx => simp [hx]
    next hx => simp [hx, ih]

theorem mem_of_mem_ofList {xs : List α} {x : α} (h : x ∈ (ofList xs : SortedBy key).toList) :
    x ∈ xs := by
  rw [mem_toList_iff, find?_ofList] at h
  exact (List.mem_filter.mp (List.mem_of_getLast? h)).1

/-- No key is lost. -/
theorem mem_keys_ofList (xs : List α) (k : κ) :
    k ∈ (ofList xs : SortedBy key).toList.map key ↔ k ∈ xs.map key := by
  constructor
  · intro h
    obtain ⟨x, hx, rfl⟩ := List.mem_map.mp h
    exact List.mem_map_of_mem (mem_of_mem_ofList hx)
  · intro h
    obtain ⟨x, hx, rfl⟩ := List.mem_map.mp h
    have hsome : xs.filter (fun y => key y = key x) ≠ [] :=
      List.ne_nil_of_mem (List.mem_filter.mpr ⟨hx, decide_eq_true rfl⟩)
    have hlast := (find?_ofList xs (key x)).trans (List.getLast?_eq_some_getLast hsome)
    obtain ⟨hmem, hkey⟩ := (find?_eq_some_iff _).mp hlast
    rw [← hkey]
    exact List.mem_map_of_mem hmem

/-- A map has one member for each key of the list that it is made of. -/
theorem size_ofList (xs : List α) :
    (ofList xs : SortedBy key).size = (xs.map key).dedup.length := by
  have hperm : ((ofList xs : SortedBy key).toList.map key).Perm (xs.map key).dedup := by
    rw [List.perm_ext_iff_of_nodup (nodup_keys _) (List.nodup_dedup _)]
    intro k
    rw [mem_keys_ofList, List.mem_dedup]
  rw [← hperm.length_eq, List.length_map]
  rfl

theorem size_ofList_eq_length_iff (xs : List α) :
    (ofList xs : SortedBy key).size = xs.length ↔ (xs.map key).Nodup := by
  rw [size_ofList]
  constructor
  · intro h
    have hsame : (xs.map key).dedup = xs.map key :=
      (List.dedup_sublist _).eq_of_length (by rw [h, List.length_map])
    rw [← hsame]
    exact List.nodup_dedup _
  · intro h
    rw [h.dedup, List.length_map]

/-- A map has all members of the list that it is made of exactly if no two have the same key. -/
theorem perm_ofList_iff (xs : List α) :
    (ofList xs : SortedBy key).toList.Perm xs ↔ (xs.map key).Nodup := by
  constructor
  · intro h
    exact (h.map key).nodup_iff.mp (nodup_keys _)
  · intro h
    rw [List.perm_ext_iff_of_nodup (nodup_keys _).of_map h.of_map]
    refine fun x => ⟨mem_of_mem_ofList, fun hx => ?_⟩
    -- the member that is kept under the key of `x` is one of the list, and so it is `x`
    have hkept := (mem_keys_ofList xs (key x)).mpr (List.mem_map_of_mem hx)
    obtain ⟨y, hy, hkey⟩ := List.mem_map.mp hkept
    rw [← List.inj_on_of_nodup_map h (mem_of_mem_ofList hy) hx hkey]
    exact hy

end SortedBy

end TapeMachine
