import TapeMachine.Tape.Journal

/-!
What a tape shows, and operations on it. A view has a cell for every whole number and
nothing else: no storage, no visited range. Every change of a tape is a change of its
view, and a recorded operation followed by its inverse changes no view.
-/
namespace TapeMachine

namespace Position

@[simp] theorem advance_index (p : Position) (n : Int) :
    (p.advance n).index = clamp (p.index + n) := rfl

theorem clamp_index (p : Position) : clamp p.index = p.index :=
  clamp_of_mem p.lower p.upper

/-- The distance from `q` to `p` and the way back both fit into 64 bits. -/
def Near (q p : Position) : Prop :=
  -greatestIndex ≤ p.index - q.index ∧ p.index - q.index ≤ greatestIndex

instance (q p : Position) : Decidable (q.Near p) := inferInstanceAs (Decidable (_ ∧ _))

theorem between_cells {q p : Position} (h : q.Near p) :
    (Distance.between q p).cells = p.index - q.index := by
  have hl : leastIndex ≤ -greatestIndex := by decide
  exact clamp_of_mem (Int.le_trans hl h.1) h.2

/-- Going to a position and back by the inverse distance ends where it began. -/
theorem advance_inverse_between {q p : Position} (h : q.Near p) :
    p.advance (Distance.between q p).inverse.cells = q := by
  have hd := between_cells h
  have hne : (Distance.between q p).cells ≠ leastIndex := by
    have hl : leastIndex < -greatestIndex := by decide
    have := h.1
    omega
  apply ext
  rw [advance_index, Distance.inverse, dif_neg hne]
  change clamp (p.index + -(Distance.between q p).cells) = q.index
  rw [hd, show p.index + -(p.index - q.index) = q.index by omega, clamp_index]

/-- A move that stops at the last position is no wider than the count it was asked for. -/
theorem near_advance (q : Position) {n : Int} (lower : -greatestIndex ≤ n)
    (upper : n ≤ greatestIndex) : q.Near (q.advance n) := by
  have hl := q.lower
  have hu := q.upper
  simp only [Near, advance_index, clamp]
  unfold leastIndex greatestIndex at *
  omega

theorem cellCount_le (n : Nat) : cellCount n ≤ greatestIndex :=
  Int.min_le_right _ _

theorem neg_le_cellCount (n : Nat) : -greatestIndex ≤ cellCount n := by
  unfold cellCount greatestIndex
  omega

theorem near_right (q : Position) (n : Nat) : q.Near (q.advance (cellCount n)) :=
  q.near_advance (neg_le_cellCount n) (cellCount_le n)

theorem near_left (q : Position) (n : Nat) : q.Near (q.advance (-cellCount n)) :=
  q.near_advance (Int.neg_le_neg (cellCount_le n)) (Int.neg_le_of_neg_le (neg_le_cellCount n))

end Position

/-- What can be seen of a tape. -/
@[ext] structure View where
  blank : Symbol
  cursor : Position
  cells : Int → Option Symbol

namespace View

def read (v : View) : Symbol := (v.cells v.cursor.index).getD v.blank

def put (v : View) (i : Int) (c : Option Symbol) : View :=
  { v with cells := fun j => if j = i then c else v.cells j }

def write (s : Symbol) (v : View) : View := v.put v.cursor.index (some s)

def moveTo (p : Position) (v : View) : View := { v with cursor := p }

/-- Does one operation of a journal. -/
def apply (v : View) : Operation → View
  | .write _ new => v.put v.cursor.index new
  | .move d => v.moveTo (v.cursor.advance d.cells)

/-- Takes back the operations of a frame, the latest first. -/
def retract (frame : Frame) (v : View) : View :=
  (frame.map Operation.inverse).foldl apply v

@[simp] theorem retract_nil (v : View) : v.retract [] = v := rfl

theorem retract_cons (op : Operation) (frame : Frame) (v : View) :
    v.retract (op :: frame) = (v.apply op.inverse).retract frame := rfl

/-- Putting back what was there undoes a change of the cell. -/
theorem put_put_self (v : View) (i : Int) (c : Option Symbol) :
    (v.put i c).put i (v.cells i) = v := by
  apply View.ext
  · rfl
  · rfl
  · funext j
    by_cases h : j = i <;> simp [put, h]

theorem apply_inverse_write (v : View) (s : Symbol) :
    (v.write s).apply (Operation.write (v.cells v.cursor.index) (some s)).inverse = v :=
  v.put_put_self v.cursor.index (some s)

theorem apply_inverse_move (v : View) (p : Position)
    (h : v.cursor.Near p) :
    (v.moveTo p).apply (Operation.move (.between v.cursor p)).inverse = v := by
  apply View.ext
  · rfl
  · exact Position.advance_inverse_between h
  · rfl

end View

namespace Tape

def view (t : Tape) : View := ⟨t.blank, t.cursor, t.cell⟩

@[simp] theorem view_put (t : Tape) (i : Int) (c : Option Symbol) :
    (t.put i c).view = t.view.put i c := by
  apply View.ext
  · rfl
  · rfl
  · funext j
    exact t.cell_put i j c

@[simp] theorem view_write (s : Symbol) (t : Tape) : (t.write s).view = t.view.write s :=
  t.view_put _ _

@[simp] theorem view_moveTo (p : Position) (t : Tape) : (t.moveTo p).view = t.view.moveTo p := rfl

@[simp] theorem view_apply (t : Tape) (op : Operation) :
    (LoggedTape.apply t op).view = t.view.apply op := by
  cases op with
  | write old new => exact t.view_put _ _
  | move d => rfl

theorem view_foldl_apply (ops : List Operation) (t : Tape) :
    (ops.foldl LoggedTape.apply t).view = ops.foldl View.apply t.view := by
  induction ops generalizing t with
  | nil => rfl
  | cons op ops ih => rw [List.foldl_cons, List.foldl_cons, ih, view_apply]

end Tape

end TapeMachine
