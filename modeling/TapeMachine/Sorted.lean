/-!
Lists that increase strictly by a key. Such a list is a finite map from keys to
its members, or a finite set when a member is its own key. Insertion keeps one
member to a key and the newest wins, so a list is determined by what it holds.
-/
namespace TapeMachine

open Std

/-- Each member's key is below the keys of all later members. -/
def Increasing [Ord κ] (key : α → κ) (xs : List α) : Prop :=
  xs.Pairwise fun a b => compare (key a) (key b) = .lt

/-- Puts `x` where its key belongs, in the stead of a member with the same key. -/
def placeBy [Ord κ] (key : α → κ) (x : α) : List α → List α
  | [] => [x]
  | y :: ys =>
    match compare (key x) (key y) with
    | .lt => x :: y :: ys
    | .eq => x :: ys
    | .gt => y :: placeBy key x ys

theorem eq_or_mem_of_mem_placeBy [Ord κ] {key : α → κ} {x a : α} {xs : List α}
    (h : a ∈ placeBy key x xs) : a = x ∨ a ∈ xs := by
  induction xs with
  | nil => simpa [placeBy] using h
  | cons y ys ih =>
    unfold placeBy at h
    split at h
    · simpa using h
    · rcases List.mem_cons.1 h with rfl | h
      · exact .inl rfl
      · exact .inr (List.mem_cons_of_mem _ h)
    · rcases List.mem_cons.1 h with rfl | h
      · exact .inr List.mem_cons_self
      · exact (ih h).imp_right (List.mem_cons_of_mem _)

theorem Increasing.placeBy [Ord κ] [TransOrd κ] {key : α → κ} (x : α) {xs : List α}
    (h : Increasing key xs) : Increasing key (TapeMachine.placeBy key x xs) := by
  induction xs with
  | nil => simp [Increasing, TapeMachine.placeBy]
  | cons y ys ih =>
    obtain ⟨hy, hys⟩ := List.pairwise_cons.1 h
    unfold TapeMachine.placeBy
    split
    next hlt =>
      refine List.pairwise_cons.2 ⟨fun a ha => ?_, h⟩
      rcases List.mem_cons.1 ha with rfl | ha
      · exact hlt
      · exact TransCmp.lt_trans hlt (hy a ha)
    next heq => exact List.pairwise_cons.2 ⟨fun a ha => TransCmp.lt_of_eq_of_lt heq (hy a ha), hys⟩
    next hgt =>
      refine List.pairwise_cons.2 ⟨fun a ha => ?_, ih hys⟩
      rcases eq_or_mem_of_mem_placeBy ha with rfl | ha
      · exact OrientedCmp.lt_of_gt hgt
      · exact hy a ha

/-- A list that increases by `key`. -/
structure SortedBy [Ord κ] (key : α → κ) where
  toList : List α
  increasing : Increasing key toList

namespace SortedBy

variable {α κ : Type} [Ord κ] {key : α → κ}

@[ext] theorem ext {s t : SortedBy key} (h : s.toList = t.toList) : s = t := by
  cases s; cases t; cases h; rfl

instance [DecidableEq α] : DecidableEq (SortedBy key) := fun s t =>
  if h : s.toList = t.toList then isTrue (ext h) else isFalse fun e => h (e ▸ rfl)

def empty : SortedBy key := ⟨[], List.Pairwise.nil⟩

instance : Inhabited (SortedBy key) := ⟨empty⟩

def isEmpty (s : SortedBy key) : Bool := s.toList.isEmpty

def size (s : SortedBy key) : Nat := s.toList.length

def insert [TransOrd κ] (s : SortedBy key) (x : α) : SortedBy key :=
  ⟨placeBy key x s.toList, s.increasing.placeBy x⟩

/-- Inserts the members from left to right, so of several with one key the last stays. -/
def ofList [TransOrd κ] (xs : List α) : SortedBy key :=
  xs.foldl insert empty

/-- The member with key `k`. -/
def find? (s : SortedBy key) (k : κ) : Option α :=
  s.toList.find? fun x => compare (key x) k == .eq

def contains (s : SortedBy key) (k : κ) : Bool :=
  (s.find? k).isSome

def filter (s : SortedBy key) (p : α → Bool) : SortedBy key :=
  ⟨s.toList.filter p, List.Pairwise.filter p s.increasing⟩

theorem find?_insert_self [TransOrd κ] (s : SortedBy key) (x : α) :
    (s.insert x).find? (key x) = some x := by
  obtain ⟨xs, hs⟩ := s
  show (placeBy key x xs).find? _ = some x
  clear hs
  induction xs with
  | nil => simp [placeBy]
  | cons y ys ih =>
    unfold placeBy
    split
    next => simp
    next => simp
    next h =>
      have hne : compare (key y) (key x) ≠ .eq := by
        rw [OrientedCmp.lt_of_gt h]; decide
      rw [List.find?_cons_of_neg (by simpa using hne), ih]

theorem find?_insert_of_ne [TransOrd κ] (s : SortedBy key) (x : α) {k : κ}
    (h : compare (key x) k ≠ .eq) : (s.insert x).find? k = s.find? k := by
  obtain ⟨xs, hs⟩ := s
  show (placeBy key x xs).find? _ = xs.find? _
  clear hs
  induction xs with
  | nil => simp [placeBy, h]
  | cons y ys ih =>
    unfold placeBy
    split
    next => rw [List.find?_cons_of_neg (by simpa using h)]
    next he =>
      have hy : compare (key y) k ≠ .eq := fun hk => h (TransCmp.eq_trans he hk)
      rw [List.find?_cons_of_neg (by simpa using h), List.find?_cons_of_neg (by simpa using hy)]
    next => rw [List.find?_cons, List.find?_cons, ih]

end SortedBy

/-- A finite set, listed in order. -/
abbrev SortedSet (α : Type) [Ord α] := SortedBy (id : α → α)

end TapeMachine
