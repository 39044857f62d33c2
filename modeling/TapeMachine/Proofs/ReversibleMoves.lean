import TapeMachine.Proofs.Frames

/-!
How far a head can go and be brought back. A recorded distance is turned round to take a
move back, and the least distance has no opposite in 64 bits; undoing is done here by an
arithmetic that stops there. Main statement: a move to a position can be taken back exactly
if the way there and the way back fit into 64 bits, and a move by a count always can, for it
stops where the positions end.
-/
namespace TapeMachine

namespace Distance

/-- The opposite distance, if 64 bits hold it. -/
def opposite? (d : Distance) : Option Distance := ofInt? (-d.cells)

theorem opposite?_eq_some_iff {d e : Distance} :
    d.opposite? = some e ↔ e.cells = -d.cells := by
  unfold opposite? ofInt?
  constructor
  · intro h
    split at h
    · cases h
      rfl
    · cases h
  · intro h
    rw [dif_pos ⟨h ▸ e.lower, h ▸ e.upper⟩]
    exact congrArg some (ext h.symm)

theorem cells_inverse {d : Distance} (h : d.cells ≠ leastIndex) :
    d.inverse.cells = -d.cells := by
  rw [inverse, dif_neg h]

theorem opposite?_of_ne {d : Distance} (h : d.cells ≠ leastIndex) :
    d.opposite? = some d.inverse :=
  opposite?_eq_some_iff.mpr (cells_inverse h)

theorem opposite?_of_least {d : Distance} (h : d.cells = leastIndex) : d.opposite? = none := by
  refine Option.eq_none_iff_forall_ne_some.mpr fun e he => ?_
  have hcells := opposite?_eq_some_iff.mp he
  have hupper := e.upper
  unfold leastIndex greatestIndex at *
  omega

theorem eq_inverse_of_opposite? {d e : Distance} (h : d.opposite? = some e) : e = d.inverse := by
  have hne : d.cells ≠ leastIndex := by
    intro hd
    rw [opposite?_of_least hd] at h
    cases h
  apply ext
  rw [opposite?_eq_some_iff.mp h, cells_inverse hne]

end Distance

namespace Operation

/-- The operation that takes this one back, unless its distance leaves 64 bits. -/
def inverse? : Operation → Option Operation
  | .write old new => some (.write new old)
  | .move d => d.opposite?.map .move

theorem inverse_of_inverse? {op inv : Operation} (h : op.inverse? = some inv) :
    inv = op.inverse := by
  cases op with
  | write old new => exact (Option.some.inj h).symm
  | move d =>
    obtain ⟨e, he, rfl⟩ := Option.map_eq_some_iff.mp h
    rw [Distance.eq_inverse_of_opposite? he]
    rfl

/-- Operations that can all be turned round are turned round one by one. -/
theorem map_inverse_of_mapM {frame : Frame} {inverses : List Operation}
    (h : frame.mapM inverse? = some inverses) : inverses = frame.map inverse := by
  induction frame generalizing inverses with
  | nil => exact (Option.some.inj h).symm
  | cons op frame ih =>
    rw [List.mapM_cons] at h
    obtain ⟨inv, hinv, h⟩ := Option.bind_eq_some_iff.mp h
    obtain ⟨rest, hrest, h⟩ := Option.bind_eq_some_iff.mp h
    cases h
    rw [inverse_of_inverse? hinv, ih hrest]
    rfl

end Operation

namespace Position

/-- The way back leads to where the move began only if both ways fit into 64 bits. A longer way to
the right is recorded too short, and one to the left is its own way back. -/
theorem advance_inverse_eq_iff {q p : Position} :
    p.advance (Distance.between q p).inverse.cells = q ↔ q.Near p := by
  refine ⟨fun h => ?_, advance_inverse_between⟩
  have hindex : clamp (p.index + (Distance.between q p).inverse.cells) = q.index :=
    congrArg index h
  have hcells : (Distance.between q p).cells = clamp (p.index - q.index) := rfl
  have hp := And.intro p.lower p.upper
  have hq := And.intro q.lower q.upper
  by_cases hleast : (Distance.between q p).cells = leastIndex
  · rw [Distance.inverse, dif_pos hleast] at hindex
    unfold clamp leastIndex greatestIndex at *
    omega
  · rw [Distance.cells_inverse hleast] at hindex
    unfold Near clamp leastIndex greatestIndex at *
    omega

theorem between_ne_least {q p : Position} (h : q.Near p) :
    (Distance.between q p).cells ≠ leastIndex := by
  have hleast : leastIndex < -greatestIndex := by decide
  have hlower := h.1
  rw [between_cells h]
  omega

/-- A move to the left stops at its target or at the first position. -/
theorem index_advance_left (q : Position) (n : Nat) :
    (q.advance (-cellCount n)).index = max (q.index - min (n : Int) greatestIndex) leastIndex := by
  have hupper := q.upper
  rw [advance_index]
  unfold clamp cellCount leastIndex greatestIndex at *
  omega

/-- A move to the right stops at its target or at the last position. -/
theorem index_advance_right (q : Position) (n : Nat) :
    (q.advance (cellCount n)).index = min (q.index + min (n : Int) greatestIndex) greatestIndex := by
  have hlower := q.lower
  rw [advance_index]
  unfold clamp cellCount leastIndex greatestIndex at *
  omega

end Position

namespace LoggedTape

/-- Takes back the newest frame, or gives nothing if a distance cannot be turned round. -/
def undo? (t : LoggedTape) : Option (Except Error (List Operation × LoggedTape)) :=
  if t.journal.isExhausted then some (.error .nothingToUndo)
  else
    (t.journal.current.mapM Operation.inverse?).map fun inverses =>
      .ok (inverses, ⟨inverses.foldl apply t.tape, t.journal.dropFrame⟩)

/-- Where no number leaves 64 bits, undoing is what it is without bounds. -/
theorem undo_of_undo? {t : LoggedTape} {result : Except Error (List Operation × LoggedTape)}
    (h : t.undo? = some result) : t.undo = result := by
  unfold undo? at h
  unfold undo
  split at h
  next hx =>
    rw [if_pos hx]
    exact Option.some.inj h
  next hx =>
    obtain ⟨inverses, hinverses, rfl⟩ := Option.map_eq_some_iff.mp h
    rw [if_neg hx, Operation.map_inverse_of_mapM hinverses]
    rfl

/-- Undoing succeeds, and then the head is at `q`. -/
def ReturnsTo (t : LoggedTape) (q : Position) : Prop :=
  ∃ inverses u, t.undo = .ok (inverses, u) ∧ u.tape.cursor = q

/-- Undoing succeeds without leaving 64 bits, and then the head is at `q`. -/
def SafelyReturnsTo (t : LoggedTape) (q : Position) : Prop :=
  ∃ inverses u, t.undo? = some (.ok (inverses, u)) ∧ u.tape.cursor = q

theorem SafelyReturnsTo.returnsTo {t : LoggedTape} {q : Position} (h : t.SafelyReturnsTo q) :
    t.ReturnsTo q := by
  obtain ⟨inverses, u, hu, hq⟩ := h
  exact ⟨inverses, u, undo_of_undo? hu, hq⟩

section OneMove

variable {t : LoggedTape} {p : Position}

/-- A move after a snapshot has a frame of its own. -/
theorem current_moveTo :
    (t.snapshot.moveTo p).journal.current = [.move (.between t.tape.cursor p)] :=
  congrArg (Operation.move _ :: ·) t.journal.current_openFrame

theorem undo_moveTo :
    (t.snapshot.moveTo p).undo =
      .ok ((t.snapshot.moveTo p).journal.inverses, (t.snapshot.moveTo p).undone) := by
  apply undo_of_not_exhausted
  simp [Journal.stack, current_moveTo]

theorem returnsTo_moveTo_iff :
    (t.snapshot.moveTo p).ReturnsTo t.tape.cursor ↔ t.tape.cursor.Near p := by
  have hcursor : (t.snapshot.moveTo p).undone.tape.cursor =
      p.advance (Distance.between t.tape.cursor p).inverse.cells := by
    rw [undone, Journal.inverses, current_moveTo]
    rfl
  rw [← Position.advance_inverse_eq_iff, ← hcursor]
  constructor
  · rintro ⟨inverses, u, hu, hq⟩
    rw [undo_moveTo] at hu
    cases hu
    exact hq
  · intro h
    exact ⟨_, _, undo_moveTo, h⟩

theorem undo?_moveTo (h : t.tape.cursor.Near p) :
    (t.snapshot.moveTo p).undo? = some (t.snapshot.moveTo p).undo := by
  have hd := Distance.opposite?_of_ne (Position.between_ne_least h)
  have hx : ¬(t.snapshot.moveTo p).journal.isExhausted = true := by
    simp [Journal.isExhausted, current_moveTo]
  rw [undo?, if_neg hx, undo_moveTo, undone, Journal.inverses, current_moveTo, List.mapM_cons,
    List.mapM_nil, Operation.inverse?, hd]
  rfl

/-- A move can be taken back safely if it can be taken back at all. -/
theorem safelyReturnsTo_moveTo_iff :
    (t.snapshot.moveTo p).SafelyReturnsTo t.tape.cursor ↔ t.tape.cursor.Near p := by
  constructor
  · intro h
    exact returnsTo_moveTo_iff.mp h.returnsTo
  · intro h
    obtain ⟨inverses, u, hu, hq⟩ := returnsTo_moveTo_iff.mpr h
    exact ⟨inverses, u, by rw [undo?_moveTo h, hu], hq⟩

end OneMove

end LoggedTape

/-- A move to a position that is recorded in a frame of its own is taken back exactly if the way
there and the way back fit into 64 bits, and then without leaving them. A move by a count, of which
no more than the greatest distance is done, stops at its target or where the positions end and is
always taken back. -/
theorem moves_taken_back_within_bounds (t : LoggedTape) :
    let start := t.tape.cursor
    (∀ p : Position,
      ((t.snapshot.moveTo p).SafelyReturnsTo start ↔
        -greatestIndex ≤ p.index - start.index ∧ p.index - start.index ≤ greatestIndex) ∧
      ((t.snapshot.moveTo p).ReturnsTo start ↔
        -greatestIndex ≤ p.index - start.index ∧ p.index - start.index ≤ greatestIndex)) ∧
    ∀ n : Nat,
      ((t.snapshot.left n).tape.cursor.index =
          max (start.index - min (n : Int) greatestIndex) leastIndex ∧
        (t.snapshot.left n).SafelyReturnsTo start ∧ (t.snapshot.left n).ReturnsTo start) ∧
      (t.snapshot.right n).tape.cursor.index =
          min (start.index + min (n : Int) greatestIndex) greatestIndex ∧
        (t.snapshot.right n).SafelyReturnsTo start ∧ (t.snapshot.right n).ReturnsTo start := by
  intro start
  refine ⟨fun p => ⟨LoggedTape.safelyReturnsTo_moveTo_iff, LoggedTape.returnsTo_moveTo_iff⟩,
    fun n => ⟨⟨start.index_advance_left n, ?_⟩, start.index_advance_right n, ?_⟩⟩
  · have hnear := start.near_left n
    exact ⟨LoggedTape.safelyReturnsTo_moveTo_iff.mpr hnear,
      LoggedTape.returnsTo_moveTo_iff.mpr hnear⟩
  · have hnear := start.near_right n
    exact ⟨LoggedTape.safelyReturnsTo_moveTo_iff.mpr hnear,
      LoggedTape.returnsTo_moveTo_iff.mpr hnear⟩

end TapeMachine
