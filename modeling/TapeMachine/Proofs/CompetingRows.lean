import Mathlib.Data.Prod.Basic
import TapeMachine.Proofs.TransitionTable

/-!
Rows that compete for one situation. Rows are counted by situation in one pass. Main
statement: the check finds exactly the situations of more than one row, and passes exactly
if a program can be made of the rows without losing any.
-/
namespace TapeMachine

open Std

/-- The situation of a row, the symbol first. -/
def Row.situation (r : Row) : Symbol × State := (r.read, r.state)

/-- How many rows there are for each situation. -/
abbrev Tally := SortedBy (Prod.fst : (Symbol × State) × Nat → Symbol × State)

namespace Tally

def count (t : Tally) (k : Symbol × State) : Nat := ((t.find? k).map Prod.snd).getD 0

/-- Counts one more row. -/
def add (t : Tally) (r : Row) : Tally := t.insert (r.situation, t.count r.situation + 1)

def ofRows (rows : List Row) : Tally := rows.foldl add .empty

/-- The situations that have been counted more than once. -/
def repeated (t : Tally) : List (Symbol × State) := (t.toList.filter fun c => 1 < c.2).map Prod.fst

theorem count_add (t : Tally) (r : Row) (k : Symbol × State) :
    (t.add r).count k = t.count k + if r.situation = k then 1 else 0 := by
  rw [count, add, SortedBy.find?_insert]
  by_cases hk : r.situation = k
  · simp [hk]
  · simp [hk, count]

/-- One pass counts the rows of every situation. -/
theorem count_ofRows (rows : List Row) (k : Symbol × State) :
    (ofRows rows).count k = (rows.map Row.situation).count k := by
  induction rows using List.reverseRecOn with
  | nil => rfl
  | append_singleton rows r ih =>
    have hlast : ofRows (rows ++ [r]) = (ofRows rows).add r := List.foldl_append
    rw [hlast, count_add, ih, List.map_append, List.count_append]
    simp [List.count_singleton]

/-- A situation that is listed is listed with its count. -/
theorem mem_repeated {t : Tally} {k : Symbol × State} : k ∈ t.repeated ↔ 1 < t.count k := by
  rw [repeated, List.mem_map, count]
  constructor
  · rintro ⟨c, hc, rfl⟩
    obtain ⟨hmem, hmore⟩ := List.mem_filter.mp hc
    rw [t.mem_toList_iff.mp hmem]
    simpa using hmore
  · intro hmore
    cases hc : t.find? k with
    | none => simp [hc] at hmore
    | some c =>
      obtain ⟨hmem, hkey⟩ := (SortedBy.find?_eq_some_iff t).mp hc
      rw [hc] at hmore
      exact ⟨c, List.mem_filter.mpr ⟨hmem, decide_eq_true hmore⟩, hkey⟩

end Tally

theorem mem_repeatedKeys {rows : List Row} {k : Symbol × State} :
    k ∈ (repeatedKeys rows).toList ↔ 1 < (rows.map Row.situation).count k := by
  rw [← SortedBy.contains_iff_mem, repeatedKeys, SortedBy.contains_ofList, List.mem_filter,
    decide_eq_true_iff]
  refine and_iff_right_of_imp fun h => ?_
  exact List.count_pos_iff.mp (Nat.lt_of_succ_lt h)

/-- The situations of more than one row are those that have been counted more than once. -/
theorem repeatedKeys_eq_repeated (rows : List Row) :
    (repeatedKeys rows).toList = (Tally.ofRows rows).repeated := by
  have hsorted : Increasing id (Tally.ofRows rows).repeated :=
    List.pairwise_map.mpr ((Tally.ofRows rows).increasing.filter _)
  have hsame : repeatedKeys rows = ⟨(Tally.ofRows rows).repeated, hsorted⟩ := by
    refine SortedBy.ext_mem fun k => ?_
    rw [mem_repeatedKeys, Tally.mem_repeated, Tally.count_ofRows]
  exact congrArg SortedBy.toList hsame

theorem repeatedKeys_eq_nil_iff (rows : List Row) :
    (repeatedKeys rows).toList = [] ↔ (rows.map Row.key).Nodup := by
  have hswap : rows.map Row.key = (rows.map Row.situation).map Prod.swap := by
    rw [List.map_map]
    rfl
  rw [hswap, List.nodup_map_iff Prod.swap_injective, List.nodup_iff_count_le_one,
    List.eq_nil_iff_forall_not_mem]
  refine forall_congr' fun k => ?_
  rw [mem_repeatedKeys, Nat.not_lt]

/-- The check answers that there is no such situation, or names them all. -/
theorem checkRows_eq (rows : List Row) :
    checkRows rows =
      if (repeatedKeys rows).toList = [] then .ok ()
      else .error (.competing (repeatedKeys rows)) := by
  simp [checkRows, SortedBy.isEmpty]

theorem checkRows_eq_ok_iff (rows : List Row) :
    checkRows rows = .ok () ↔ (rows.map Row.key).Nodup := by
  rw [checkRows_eq, ← repeatedKeys_eq_nil_iff]
  split
  next h => exact iff_of_true rfl h
  next h => exact iff_of_false (fun he => by cases he) h

theorem checkRows_eq_error_iff (rows : List Row) (f : Finding) :
    checkRows rows = .error f ↔
      (repeatedKeys rows).toList ≠ [] ∧ f = .competing (repeatedKeys rows) := by
  rw [checkRows_eq]
  split
  next h => simp [h]
  next h => simp [h, eq_comm]

theorem repeatedKeys_sorted (rows : List Row) :
    (repeatedKeys rows).toList.Pairwise fun k k' =>
      k.1.text < k'.1.text ∨ k.1 = k'.1 ∧ k.2.name < k'.2.name := by
  refine (repeatedKeys rows).increasing.imp fun {k k'} h => ?_
  rw [← Symbol.compare_eq_lt, ← State.compare_eq_lt]
  exact lexOrd_eq_lt.mp h

theorem count_situation (rows : List Row) (s : Symbol) (q : State) :
    (rows.map Row.situation).count (s, q) =
      (rows.filter fun r => r.read = s ∧ r.state = q).length := by
  rw [List.count_eq_countP, List.countP_map, ← List.countP_eq_length_filter]
  refine List.countP_congr fun r _ => ?_
  simp [Row.situation]

/-- The situations that are reported are, by increasing symbol and state, those of two or more rows,
as one pass over the rows counts them. The check passes exactly if a program made of the rows has as
many of them, and exactly if it has the same rows in another order; otherwise it reports all these
situations. -/
theorem check_finds_lost_rows (rows : List Row) :
    ((repeatedKeys rows).toList.Pairwise fun k k' =>
      k.1.text < k'.1.text ∨ k.1 = k'.1 ∧ k.2.name < k'.2.name) ∧
    (∀ s q, (s, q) ∈ (repeatedKeys rows).toList ↔
      2 ≤ (rows.filter fun r => r.read = s ∧ r.state = q).length) ∧
    (repeatedKeys rows).toList = (Tally.ofRows rows).repeated ∧
    (checkRows rows = .ok () ↔ (Program.ofRows rows).size = rows.length) ∧
    (checkRows rows = .ok () ↔ (Program.ofRows rows).rows.Perm rows) ∧
    ∀ f, checkRows rows = .error f ↔
      (repeatedKeys rows).toList ≠ [] ∧ f = .competing (repeatedKeys rows) := by
  refine ⟨repeatedKeys_sorted rows, fun s q => ?_, repeatedKeys_eq_repeated rows, ?_, ?_,
    checkRows_eq_error_iff rows⟩
  · rw [mem_repeatedKeys, count_situation]
    exact Nat.lt_iff_add_one_le
  · rw [checkRows_eq_ok_iff]
    exact (SortedBy.size_ofList_eq_length_iff rows).symm
  · rw [checkRows_eq_ok_iff]
    exact (SortedBy.perm_ofList_iff rows).symm

end TapeMachine
