import TapeMachine.Motion
import TapeMachine.Position
import TapeMachine.Symbol

/-!
The tape: a cell for every whole number, of which finitely many have been written.
Cells are stored in an array that grows on either side; `offset` tells which of
them stands at zero. The head starts at zero, and the tape remembers the first and
the last position it has been asked about.
-/
namespace TapeMachine

structure Tape where
  cells : Array (Option Symbol)
  offset : Nat
  cursor : Position
  blank : Symbol
  first : Int
  last : Int
  deriving DecidableEq, Repr

namespace Tape

/-- A tape with no cell written and the head at zero. -/
def empty (blank : Symbol) : Tape := ⟨#[], 0, .origin, blank, 0, 0⟩

instance : Inhabited Tape := ⟨empty .space⟩

/-- What has been written at `i`. -/
def cell (t : Tape) (i : Int) : Option Symbol :=
  if 0 ≤ i + t.offset then t.cells[(i + t.offset).toNat]?.join else none

/-- What is read at `i`: the blank where nothing has been written. -/
def symbolAt (t : Tape) (i : Int) : Symbol := (t.cell i).getD t.blank

/-- The symbol under the head. -/
def read (t : Tape) : Symbol := t.symbolAt t.cursor.index

/-- Widens the visited range to include `i`. -/
def touch (t : Tape) (i : Int) : Tape := { t with first := min t.first i, last := max t.last i }

/-- An array of cells with `v` at index `n`, filled up with unwritten cells if it ends before. -/
def store (cells : Array (Option Symbol)) (n : Nat) (v : Option Symbol) : Array (Option Symbol) :=
  if h : n < cells.size then cells.set n v
  else (cells ++ Array.replicate (n - cells.size) none).push v

/-- Stores a cell, adding unwritten cells on the side where the array falls short. Storage is taken
to suffice for them; `missing` counts them and `fits` tells whether a room has place for them, where
a result depends on that. -/
def put (t : Tape) (i : Int) (v : Option Symbol) : Tape :=
  let k := i + t.offset
  let missing := (-k).toNat
  let cells :=
    if k < 0 then #[v] ++ Array.replicate (missing - 1) none ++ t.cells
    else store t.cells k.toNat v
  { t with cells, offset := t.offset + missing }.touch i

def write (s : Symbol) (t : Tape) : Tape := t.put t.cursor.index (some s)

def moveTo (p : Position) (t : Tape) : Tape := { t with cursor := p }.touch p.index

/-- Moves the head `n` cells to the right, as far as there are positions. -/
def shift (n : Int) (t : Tape) : Tape := t.moveTo (t.cursor.advance n)

def left (n : Nat) (t : Tape) : Tape := t.shift (-cellCount n)

def right (n : Nat) (t : Tape) : Tape := t.shift (cellCount n)

/-- Forgets all that has been written and goes back to zero. -/
def clear (t : Tape) : Tape := empty t.blank

/-- The whole numbers from `a` to `b`. -/
def span (a b : Int) : List Int :=
  (List.range (b - a + 1).toNat).map fun (n : Nat) => a + n

/-- The visited positions and what is read there, from left to right. -/
def visited (t : Tape) : List (Int × Symbol) :=
  (span t.first t.last).map fun i => (i, t.symbolAt i)

/-- The symbols that are read at visited positions. -/
def alphabet (t : Tape) : SortedSet Symbol := .ofList (t.visited.map Prod.snd)

/-- Whether something other than the blank has been written at `i`. -/
def isFilled (t : Tape) (i : Int) : Bool := (t.cell i).any (· != t.blank)

@[simp] theorem cell_empty (blank : Symbol) (i : Int) : (empty blank).cell i = none := by
  simp [cell, empty]

@[simp] theorem cell_touch (t : Tape) (i j : Int) : (t.touch i).cell j = t.cell j := rfl

@[simp] theorem cell_moveTo (p : Position) (t : Tape) (i : Int) :
    (t.moveTo p).cell i = t.cell i := rfl

theorem getElem?_store (cells : Array (Option Symbol)) (n m : Nat) (v : Option Symbol) :
    (store cells n v)[m]?.join = if m = n then v else cells[m]?.join := by
  unfold store
  split
  next h =>
    rw [Array.getElem?_set]
    by_cases hm : m = n
    · simp [hm]
    · simp [hm, Ne.symm hm]
  next h =>
    rw [Array.getElem?_push, Array.getElem?_append, Array.getElem?_replicate, Array.size_append,
      Array.size_replicate, Nat.add_sub_cancel' (Nat.le_of_not_lt h)]
    by_cases hm : m = n
    · simp [hm]
    · by_cases hs : m < cells.size
      · simp [hm, hs]
      · by_cases hn : m - cells.size < n - cells.size <;> simp [hm, hs, hn]

/-- Putting a cell changes what is written there and nowhere else. -/
theorem cell_put (t : Tape) (i j : Int) (v : Option Symbol) :
    (t.put i v).cell j = if j = i then v else t.cell j := by
  unfold put
  simp only [cell_touch]
  by_cases hk : i + t.offset < 0
  · simp only [hk, ↓reduceIte, cell]
    by_cases hji : j = i
    · have hz : j + ((t.offset + (-(i + t.offset)).toNat : Nat) : Int) = 0 := by omega
      rw [hz, if_pos hji, Array.append_assoc, Array.getElem?_append, Array.size_singleton]
      rfl
    · by_cases hj : 0 ≤ j + t.offset
      · have hle : 0 ≤ j + ((t.offset + (-(i + t.offset)).toNat : Nat) : Int) := by omega
        have hn : ¬(j + ((t.offset + (-(i + t.offset)).toNat : Nat) : Int)).toNat <
            1 + ((-(i + t.offset)).toNat - 1) := by omega
        have hsub : (j + ((t.offset + (-(i + t.offset)).toNat : Nat) : Int)).toNat -
            (1 + ((-(i + t.offset)).toNat - 1)) = (j + t.offset).toNat := by omega
        rw [if_pos hle, if_pos hj, if_neg hji, Array.getElem?_append, Array.size_append,
          Array.size_replicate, Array.size_singleton, if_neg hn, hsub]
      · rw [if_neg hj, if_neg hji]
        split
        next hle =>
          have hlt : (j + ((t.offset + (-(i + t.offset)).toNat : Nat) : Int)).toNat <
              1 + ((-(i + t.offset)).toNat - 1) := by omega
          have hpos : ¬(j + ((t.offset + (-(i + t.offset)).toNat : Nat) : Int)).toNat < 1 := by
            omega
          rw [Array.getElem?_append, Array.size_append, Array.size_replicate, Array.size_singleton,
            if_pos hlt, Array.getElem?_append, Array.size_singleton, if_neg hpos,
            Array.getElem?_replicate]
          split <;> rfl
        next => rfl
  · have hm : (-(i + t.offset)).toNat = 0 := by omega
    simp only [hk, ↓reduceIte, cell, hm, Nat.add_zero, getElem?_store]
    by_cases hji : j = i
    · subst hji; simp; omega
    · have hne : 0 ≤ j + t.offset → (j + t.offset).toNat ≠ (i + t.offset).toNat := by omega
      by_cases hj : 0 ≤ j + t.offset
      · simp [hj, hji, hne hj]
      · simp [hj, hji]

end Tape

end TapeMachine
