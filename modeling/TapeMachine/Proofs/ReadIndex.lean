import TapeMachine.Proofs.AnyLayer
import TapeMachine.Proofs.Visited

/-!
Where in the storage a cell is looked for. The place of a position is a sum of two numbers
of 64 bits: the position itself and how many cells are stored before zero. Main statement:
the sum fits into 64 bits as long as the visited range is no wider than the greatest
distance. On a wider tape it can leave them, but then it comes round to a place before the
storage, and what is found is still right.
-/
namespace TapeMachine

/-- The number of 64 bits that a sum comes round to. -/
def wrap (i : Int) : Int := (i - leastIndex) % (greatestCount + 1) + leastIndex

theorem wrap_of_mem {i : Int} (lower : leastIndex ≤ i) (upper : i ≤ greatestIndex) :
    wrap i = i := by
  unfold wrap leastIndex greatestIndex greatestCount at *
  omega

/-- A sum that leaves 64 bits on one side, and not by more than half of them, comes round to the
other side. -/
theorem wrap_neg {i : Int} (lower : greatestIndex < i) (upper : i ≤ greatestIndex + greatestIndex) :
    wrap i < 0 := by
  unfold wrap leastIndex greatestIndex greatestCount at *
  omega

namespace Tape

/-- The place of a position in the storage. -/
def place (t : Tape) (p : Position) : Int := p.index + t.offset

/-- What is found at a position if its place is computed in 64 bits. -/
def wrappedCell (t : Tape) (p : Position) : Option Symbol :=
  let k := wrap (t.place p)
  if 0 ≤ k ∧ k < t.cells.size then t.cells[k.toNat]?.join else none

variable {t u : Tape}

theorem least_le_place (t : Tape) (p : Position) : leastIndex ≤ t.place p := by
  have hlower := p.lower
  unfold place
  omega

/-- If the storage can be counted in 64 bits, computing a place in them finds the right cell. -/
theorem wrappedCell_eq_cell (hoffset : t.offset ≤ t.cells.size)
    (hsize : (t.cells.size : Int) ≤ greatestIndex) (p : Position) :
    t.wrappedCell p = t.cell p.index := by
  have hupper := p.upper
  have hplace : t.place p = p.index + t.offset := rfl
  unfold wrappedCell cell
  rw [← hplace]
  by_cases hfits : t.place p ≤ greatestIndex
  · rw [wrap_of_mem (t.least_le_place p) hfits]
    dsimp only
    split
    next hin => rw [if_pos hin.1]
    next hout =>
      split
      next hpos =>
        rw [Array.getElem?_eq_none (by omega)]
        rfl
      next => rfl
  · -- beyond 64 bits is beyond the storage, and so is the place that the sum comes round to
    have hneg := wrap_neg (i := t.place p) (by omega) (by omega)
    have hsmall : t.cells.size ≤ (t.place p).toNat := by omega
    rw [if_neg (by omega), Array.getElem?_eq_none hsmall]
    split <;> rfl

/-- As many cells before zero as are stored have been visited. -/
def Anchored (t : Tape) : Prop := t.offset = 0 ∨ t.first ≤ -t.offset

theorem Anchored.touch (h : t.Anchored) (i : Int) : (t.touch i).Anchored := by
  refine h.imp id fun hfirst => ?_
  change min t.first i ≤ -t.offset
  omega

theorem Anchored.put (h : t.Anchored) (i : Int) (c : Option Symbol) : (t.put i c).Anchored := by
  unfold Anchored at *
  change t.offset + (-(i + t.offset)).toNat = 0 ∨
    min t.first i ≤ -((t.offset + (-(i + t.offset)).toNat : Nat) : Int)
  omega

theorem Anchored.moveTo (h : t.Anchored) (p : Position) : (t.moveTo p).Anchored :=
  h.touch p.index

theorem anchored_load {v : Json} (h : t.load v = .ok u) : u.Anchored := by
  obtain ⟨d, data, cursor, _, _, _, hle, rfl⟩ := load_eq_ok.mp h
  unfold ofCells
  cases data with
  | nil => exact .inl (Nat.le_zero.mp hle)
  | cons c data => exact .inr (Int.min_le_left _ _)

theorem anchoredInvariant : HeadInvariant Anchored where
  visit p _ h := h.touch p.index
  write _ t h := h.put t.cursor.index _
  left _ _ h := h.moveTo _
  right _ _ h := h.moveTo _
  moveTo p _ h := h.moveTo p
  clear _ _ := .inl rfl
  load _ _ _ _ h := anchored_load h

theorem Attainable.anchored (h : t.Attainable) : t.Anchored := by
  induction h with
  | empty blank => exact .inl rfl
  | edit e _ ih => exact anchoredInvariant.perform e ih
  | @apply op t _ ih =>
    cases op with
    | write old new => exact ih.put t.cursor.index new
    | move d => exact ih.moveTo _

/-- Within the visited range no place is further on than the range is wide. -/
theorem Anchored.place_le (h : t.Anchored) (hwidth : t.last - t.first ≤ greatestIndex)
    {p : Position} (hp : p.index ≤ t.last) : t.place p ≤ greatestIndex := by
  have hupper := p.upper
  unfold place
  rcases h with hzero | hfirst
  · omega
  · omega

end Tape

/-- Of every reachable tape, in whatever layers: no place is below 64 bits, and if the visited range
is no wider than the greatest distance, the places of all visited positions fit into them, that of
the head among them. Whether they fit or not, computing a place in 64 bits finds what the tape
holds, if its storage can be counted in them. -/
theorem places_fit_on_narrow_tapes {τ : Type} [HasHead τ] {t : τ} (h : HasHead.Reachable t) :
    let shown := HasHead.tape t
    (∀ p, leastIndex ≤ shown.place p) ∧
    (shown.last - shown.first ≤ greatestIndex →
      shown.place shown.cursor ≤ greatestIndex ∧
        ∀ p : Position, shown.first ≤ p.index → p.index ≤ shown.last →
          shown.place p ≤ greatestIndex) ∧
    ((shown.cells.size : Int) ≤ greatestIndex →
      ∀ p, shown.wrappedCell p = shown.cell p.index) := by
  intro shown
  have hattainable : shown.Attainable := h.truthful.2
  have hanchored := hattainable.anchored
  refine ⟨shown.least_le_place, fun hwidth => ⟨?_, fun p _ hp => ?_⟩, fun hsize p => ?_⟩
  · exact hanchored.place_le hwidth hattainable.covered.head.2
  · exact hanchored.place_le hwidth hp
  · exact Tape.wrappedCell_eq_cell hattainable.offset_le_size hsize p

/-- One cell is written before zero, and then the head goes to the right. -/
def strayed (n : Nat) : Tape :=
  HeadEdit.performAll [.left 1, .write (.ofText "a"), .right n, .right 1] (Tape.empty .space)

theorem reachable_strayed (n : Nat) : HasHead.Reachable (strayed n) := by
  have hmoved := (HasHead.Reachable.empty .space).step (.head (.left 1) _)
  have hwritten := hmoved.step (.head (.write (.ofText "a")) _)
  exact (hwritten.step (.head (.right n) _)).step (.head (.right 1) _)

theorem places_fit_on_narrow_tapes_strayed :
    let near := strayed 9
    let far := strayed 9223372036854775807
    HasHead.Reachable near ∧ near.last - near.first ≤ greatestIndex ∧
    near.place near.cursor = 10 ∧ near.place near.cursor ≤ greatestIndex ∧
    HasHead.Reachable far ∧ far.cursor.index = greatestIndex ∧ far.offset = 1 ∧
    wrap (far.place far.cursor) = leastIndex ∧
    far.wrappedCell far.cursor = far.cell far.cursor.index := by
  -- a plain tape shows itself; said of any tape, so that no run has to be unfolded to see it
  have hplain (t : Tape) (h : HasHead.Reachable t) :
      (t.last - t.first ≤ greatestIndex → t.place t.cursor ≤ greatestIndex) ∧
        ((t.cells.size : Int) ≤ greatestIndex →
          t.wrappedCell t.cursor = t.cell t.cursor.index) := by
    obtain ⟨_, hfits, hcells⟩ := places_fit_on_narrow_tapes h
    exact ⟨fun hwidth => (hfits hwidth).1, fun hsize => hcells hsize t.cursor⟩
  have hnear := reachable_strayed 9
  have hfar := reachable_strayed 9223372036854775807
  have hwidth : (strayed 9).last - (strayed 9).first ≤ greatestIndex := by decide
  have hsize : ((strayed 9223372036854775807).cells.size : Int) ≤ greatestIndex := by decide
  exact ⟨hnear, hwidth, by decide, (hplain _ hnear).1 hwidth, hfar, by decide, by decide,
    by decide, (hplain _ hfar).2 hsize⟩

/-- The place of the head does not always fit into 64 bits. -/
theorem place_of_head_can_overflow :
    ¬∀ t : Tape, t.Reachable →
      leastIndex ≤ t.place t.cursor ∧ t.place t.cursor ≤ greatestIndex := by
  intro h
  have hreachable : (strayed 9223372036854775807).Reachable :=
    .edit (.right 1) (.edit (.right 9223372036854775807)
      (.edit (.write (.ofText "a")) (.edit (.left 1) (.empty .space))))
  have hfits := (h _ hreachable).2
  have hplace : (strayed 9223372036854775807).place (strayed 9223372036854775807).cursor =
      greatestIndex + 1 := rfl
  omega

end TapeMachine
