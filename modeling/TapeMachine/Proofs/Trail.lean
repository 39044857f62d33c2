import TapeMachine.Proofs.Command

/-!
Transitions and the frames they leave. Following an instruction changes what a machine
shows in the same way whatever is stored and recorded, and leaves one frame, by which
the change can be taken back.
-/
namespace TapeMachine

namespace Position

@[simp] theorem advance_zero (p : Position) : p.advance 0 = p :=
  ext (by rw [advance_index, Int.add_zero, clamp_index])

theorem natAbs_between_advance (q : Position) {n : Int} (h : n.natAbs ≤ 1) :
    (Distance.between q (q.advance n)).cells.natAbs ≤ 1 := by
  have hl := q.lower
  have hu := q.upper
  change (clamp (clamp (q.index + n) - q.index)).natAbs ≤ 1
  unfold clamp leastIndex greatestIndex at *
  omega

end Position

theorem Distance.natAbs_inverse (d : Distance) : d.inverse.cells.natAbs = d.cells.natAbs := by
  unfold inverse
  split
  · rfl
  · exact Int.natAbs_neg d.cells

/-- A distance that has an opposite is as wide as it is far. -/
theorem Distance.width_of_ne {d : Distance} (h : d.cells ≠ leastIndex) :
    d.width = d.cells.natAbs := by
  rw [width, inverse, dif_neg h]
  change max d.cells (-d.cells) = d.cells.natAbs
  omega

theorem Distance.width_le_one {d : Distance} (h : d.cells.natAbs ≤ 1) : d.width ≤ 1 := by
  have hne : d.cells ≠ leastIndex := by
    unfold leastIndex
    omega
  rw [width_of_ne hne]
  omega

theorem Motion.natAbs_delta (motion : Motion) : motion.delta.natAbs ≤ 1 := by
  cases motion <;> decide

theorem Position.near_advance_delta (p : Position) (motion : Motion) :
    p.Near (p.advance motion.delta) := by
  have hd := motion.natAbs_delta
  apply near_advance <;> unfold greatestIndex <;> omega

namespace View

/-- Writes and moves as an instruction says. -/
def follow (i : Instruction) (v : View) : View :=
  (v.write i.write).moveTo (v.cursor.advance i.motion.delta)

/-- What the journal keeps of an instruction, the latest operation first. -/
def frameOf (i : Instruction) (v : View) : Frame :=
  let write := Operation.write (v.cells v.cursor.index) (some i.write)
  let move := Operation.move (.between v.cursor (v.cursor.advance i.motion.delta))
  match i.motion with
  | .left | .right => [move, write]
  | .stop | .halt => [write]

theorem frameOf_ne_nil (i : Instruction) (v : View) : v.frameOf i ≠ [] := by
  cases hm : i.motion <;> simp [frameOf, hm]

/-- The frame of an instruction takes it back, even where a move has stopped at the bounds. -/
theorem retract_frameOf (i : Instruction) (v : View) : (v.follow i).retract (v.frameOf i) = v := by
  have hmove := apply_inverse_move (v.write i.write) _ (v.cursor.near_advance_delta i.motion)
  have hwrite := v.apply_inverse_write i.write
  cases hm : i.motion with
  | left =>
    simp only [follow, frameOf, hm, retract_cons, retract_nil] at hmove ⊢
    exact (congrArg (apply · _) hmove).trans hwrite
  | right =>
    simp only [follow, frameOf, hm, retract_cons, retract_nil] at hmove ⊢
    exact (congrArg (apply · _) hmove).trans hwrite
  | stop =>
    simp only [follow, frameOf, hm, retract_cons, retract_nil, Motion.delta, Position.advance_zero]
    exact hwrite
  | halt =>
    simp only [follow, frameOf, hm, retract_cons, retract_nil, Motion.delta, Position.advance_zero]
    exact hwrite

/-- A machine recognises the frame of an instruction. -/
theorem ofInverses_frameOf (i : Instruction) (v : View) :
    ∃ r, Reversal.ofInverses ((v.frameOf i).map Operation.inverse) = .ok r := by
  have hd : (Distance.between v.cursor (v.cursor.advance i.motion.delta)).inverse.width ≤ 1 := by
    apply Distance.width_le_one
    rw [Distance.natAbs_inverse]
    exact v.cursor.natAbs_between_advance i.motion.natAbs_delta
  cases hm : i.motion <;> rw [hm] at hd <;>
    simp [frameOf, hm, Reversal.ofInverses, Operation.inverse, Reversal.add, hd]

end View

namespace LoggedTape

theorem view_moveBy (motion : Motion) (t : LoggedTape) :
    (HasHead.moveBy motion t).tape.view =
      t.tape.view.moveTo (t.tape.cursor.advance motion.delta) := by
  cases motion with
  | left => rfl
  | right => rfl
  | stop => rw [Motion.delta, Position.advance_zero]; rfl
  | halt => rw [Motion.delta, Position.advance_zero]; rfl

/-- Writing and moving as an instruction says fills an empty frame. -/
theorem journal_moveBy_write {t : LoggedTape} (i : Instruction) (h : t.journal.current = []) :
    (HasHead.moveBy i.motion (t.write i.write)).journal =
      { t.journal with current := t.tape.view.frameOf i } := by
  cases hm : i.motion <;> simp only [View.frameOf, hm, ← h] <;> rfl

end LoggedTape

/-- What a machine shows: its state and its tape. -/
@[ext] structure Scene where
  state : State
  view : View

def Scene.follow (i : Instruction) (s : Scene) : Scene := ⟨i.next, s.view.follow i⟩

namespace Machine

def scene (m : Machine) : Scene := ⟨m.state, m.tape.tape.view⟩

/-- Following an instruction shows the next scene. -/
theorem scene_follow (m : Machine) (i : Instruction) : (m.follow i).scene = m.scene.follow i := by
  apply Scene.ext
  · rfl
  · change (HasHead.moveBy i.motion (m.tape.snapshot.write i.write)).tape.view = _
    rw [LoggedTape.view_moveBy]
    change ((m.tape.tape.write i.write).view).moveTo _ = _
    rw [Tape.view_write]
    rfl

/-- Following an instruction puts one frame on top of the others. -/
theorem stack_follow (m : Machine) (i : Instruction) :
    (m.follow i).tape.journal.stack =
      keep m.tape.journal.limit (m.scene.view.frameOf i :: m.tape.journal.stack) := by
  rw [← Journal.stack_opened]
  change Journal.stack (HasHead.moveBy i.motion (m.tape.snapshot.write i.write)).journal = _
  rw [LoggedTape.journal_moveBy_write i m.tape.journal.current_openFrame]
  rfl

@[simp] theorem limit_follow (m : Machine) (i : Instruction) :
    (m.follow i).tape.journal.limit = m.tape.journal.limit := by
  change Journal.limit (HasHead.moveBy i.motion (m.tape.snapshot.write i.write)).journal = _
  rw [LoggedTape.journal_moveBy_write i m.tape.journal.current_openFrame]
  exact m.tape.journal.limit_openFrame

end Machine

end TapeMachine
