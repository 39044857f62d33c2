import TapeMachine.Proofs.MachineInvariant
import TapeMachine.Proofs.ReversibleMoves
import TapeMachine.Proofs.Room
import TapeMachine.Proofs.Trail

/-!
One step back, whatever has been recorded. The newest frame need not be that of a
transition: somebody may have edited the tape, or the frame may have come with a document.
Main statement: if there is room for the cell that is restored, a step back succeeds exactly
if there is a state to go back to and a frame to take back that looks like that of a
transition, and then it takes one state and one frame, changes one cell at most and moves
the head by what the frame says.
-/
namespace TapeMachine

namespace Operation

def isWrite : Operation → Bool
  | .write _ _ => true
  | .move _ => false

def isMove : Operation → Bool
  | .write _ _ => false
  | .move _ => true

@[simp] theorem isWrite_inverse (op : Operation) : op.inverse.isWrite = op.isWrite := by
  cases op <;> rfl

@[simp] theorem isMove_inverse (op : Operation) : op.inverse.isMove = op.isMove := by
  cases op <;> rfl

theorem countP_isWrite_inverses (frame : Frame) :
    (frame.map inverse).countP isWrite = frame.countP isWrite := by
  rw [List.countP_map]
  exact congrArg (frame.countP ·) (funext isWrite_inverse)

theorem countP_isMove_inverses (frame : Frame) :
    (frame.map inverse).countP isMove = frame.countP isMove := by
  rw [List.countP_map]
  exact congrArg (frame.countP ·) (funext isMove_inverse)

section Counting

variable (ops : List Operation) (old new : Option Symbol) (d : Distance)

@[simp] theorem countP_isWrite_write :
    (write old new :: ops).countP isWrite = ops.countP isWrite + 1 :=
  List.countP_cons_of_pos rfl

@[simp] theorem countP_isWrite_move : (move d :: ops).countP isWrite = ops.countP isWrite :=
  List.countP_cons_of_neg Bool.false_ne_true

@[simp] theorem countP_isMove_write : (write old new :: ops).countP isMove = ops.countP isMove :=
  List.countP_cons_of_neg Bool.false_ne_true

@[simp] theorem countP_isMove_move : (move d :: ops).countP isMove = ops.countP isMove + 1 :=
  List.countP_cons_of_pos rfl

end Counting

theorem move_mem_map_inverse {frame : Frame} {d : Distance} :
    .move d ∈ frame.map inverse ↔ ∃ e, .move e ∈ frame ∧ e.inverse = d := by
  constructor
  · intro h
    obtain ⟨op, hop, he⟩ := List.mem_map.mp h
    cases op with
    | write old new => cases he
    | move e => exact ⟨e, hop, Operation.move.inj he⟩
  · rintro ⟨e, he, rfl⟩
    exact List.mem_map_of_mem (f := inverse) he

end Operation

open Operation (isWrite isMove)

/-- A frame that looks like that of a transition: at most one write and at most one move, which is
by one cell or none. -/
structure OfTransition (frame : List Operation) : Prop where
  writes : frame.countP isWrite ≤ 1
  moves : frame.countP isMove ≤ 1
  short : ∀ d, .move d ∈ frame → d.cells = -1 ∨ d.cells = 0 ∨ d.cells = 1

/-- The order of the operations has no part in it. -/
theorem ofTransition_reverse {frame : List Operation} :
    OfTransition frame.reverse ↔ OfTransition frame := by
  constructor
  · rintro ⟨hw, hm, hs⟩
    rw [List.countP_reverse] at hw hm
    exact ⟨hw, hm, fun d hd => hs d (List.mem_reverse.mpr hd)⟩
  · rintro ⟨hw, hm, hs⟩
    rw [← List.countP_reverse] at hw hm
    exact ⟨hw, hm, fun d hd => hs d (List.mem_reverse.mp hd)⟩

namespace Reversal

/-- How many more operations of a sort are taken. -/
def spare : Option α → Nat
  | none => 1
  | some _ => 0

/-- Operations are read to the end exactly if all of them can be taken and none is too wide. -/
theorem isSome_foldlM_add (ops : List Operation) (r : Reversal) :
    (ops.foldlM add r).isSome ↔
      ops.countP isWrite ≤ spare r.cells ∧ ops.countP isMove ≤ spare r.moved ∧
        ∀ d, .move d ∈ ops → d.width ≤ 1 := by
  induction ops generalizing r with
  | nil => simp
  | cons op ops ih =>
    obtain ⟨cells, moved⟩ := r
    cases op with
    | write old new =>
      cases cells with
      | none =>
        have hnext := ih ⟨some (old, new), moved⟩
        simp [add, spare, hnext]
      | some c =>
        simp [add, spare]
    | move d =>
      cases moved with
      | none =>
        have hnext := ih ⟨cells, some d.cells⟩
        by_cases hd : d.width ≤ 1
        · simp [add, spare, hd, hnext]
        · simp [add, spare, hd]
      | some c =>
        simp [add, spare]

theorem exists_ofInverses_iff (ops : List Operation) :
    (∃ r, ofInverses ops = .ok r) ↔
      ops.countP isWrite ≤ 1 ∧ ops.countP isMove ≤ 1 ∧ ∀ d, .move d ∈ ops → d.width ≤ 1 := by
  have hread := isSome_foldlM_add ops ⟨none, none⟩
  simp only [spare] at hread
  rw [← hread, ofInverses]
  cases ops.foldlM add ⟨none, none⟩ <;> simp

end Reversal

/-- The way back of a distance is as short as the distance itself, if there is one. -/
theorem Distance.width_inverse_le_one_iff {d : Distance} (h : d.cells ≠ leastIndex) :
    d.inverse.width ≤ 1 ↔ d.cells = -1 ∨ d.cells = 0 ∨ d.cells = 1 := by
  have hback := cells_inverse h
  have hne : d.inverse.cells ≠ leastIndex := by
    have hupper := d.upper
    unfold leastIndex greatestIndex at *
    omega
  rw [width_of_ne hne, hback]
  omega

/-- Where all distances have opposites, a machine recognises the frames that look like those of
transitions and no others. -/
theorem recognised_iff {frame : Frame} (h : ∀ d, .move d ∈ frame → d.cells ≠ leastIndex) :
    Recognised frame ↔ OfTransition frame := by
  rw [Recognised, Reversal.exists_ofInverses_iff, Operation.countP_isWrite_inverses,
    Operation.countP_isMove_inverses]
  constructor
  · rintro ⟨hw, hm, hwide⟩
    refine ⟨hw, hm, fun d hd => ?_⟩
    rw [← Distance.width_inverse_le_one_iff (h d hd)]
    exact hwide _ (Operation.move_mem_map_inverse.mpr ⟨d, hd, rfl⟩)
  · rintro ⟨hw, hm, hshort⟩
    refine ⟨hw, hm, fun d hd => ?_⟩
    obtain ⟨e, he, rfl⟩ := Operation.move_mem_map_inverse.mp hd
    rw [Distance.width_inverse_le_one_iff (h e he)]
    exact hshort e he

theorem Recognised.writes {frame : Frame} (h : Recognised frame) : frame.countP isWrite ≤ 1 := by
  have hwrites := ((Reversal.exists_ofInverses_iff _).mp h).1
  rwa [Operation.countP_isWrite_inverses] at hwrites

-- A move by the least distance is recognised, for its width comes out below zero.
example : Recognised [.move ⟨leastIndex, by decide, by decide⟩] := ⟨⟨none, some leastIndex⟩, rfl⟩

namespace View

variable {frame : Frame} {d : Distance}

theorem cells_retract_of_no_write (h : frame.countP isWrite = 0) (v : View) :
    (v.retract frame).cells = v.cells := by
  induction frame generalizing v with
  | nil => rfl
  | cons op frame ih =>
    cases op with
    | write old new => simp at h
    | move d =>
      rw [Operation.countP_isWrite_move] at h
      rw [retract_cons, ih h]
      rfl

theorem cursor_retract_of_no_move (h : frame.countP isMove = 0) (v : View) :
    (v.retract frame).cursor = v.cursor := by
  induction frame generalizing v with
  | nil => rfl
  | cons op frame ih =>
    cases op with
    | write old new =>
      rw [Operation.countP_isMove_write] at h
      rw [retract_cons, ih h]
      rfl
    | move d => simp at h

/-- The only move of a frame is all that the head does when the frame is taken back. -/
theorem cursor_retract_of_one_move (h : frame.countP isMove ≤ 1) (hd : .move d ∈ frame) (v : View) :
    (v.retract frame).cursor = v.cursor.advance d.inverse.cells := by
  induction frame generalizing v with
  | nil => cases hd
  | cons op frame ih =>
    cases op with
    | write old new =>
      rw [Operation.countP_isMove_write] at h
      have hmem : .move d ∈ frame := by simpa using hd
      rw [retract_cons, ih h hmem]
      rfl
    | move e =>
      have hnone : frame.countP isMove = 0 := by simpa using h
      have hed : d = e := by
        have hnot : .move d ∉ frame := fun hmem =>
          absurd rfl (List.countP_eq_zero.mp hnone _ hmem)
        simpa [hnot] using hd
      rw [hed, retract_cons, cursor_retract_of_no_move hnone]
      rfl

theorem blank_retract (frame : Frame) (v : View) : (v.retract frame).blank = v.blank := by
  induction frame generalizing v with
  | nil => rfl
  | cons op frame ih =>
    rw [retract_cons, ih]
    cases op <;> rfl

/-- `w` is `v` but for one cell at most, which is under the head of the one or the other and holds
again what a write of the frame has replaced. -/
def ChangesOneCell (frame : List Operation) (v w : View) : Prop :=
  ∃ i, (i = v.cursor.index ∨ i = w.cursor.index) ∧ (∀ j, j ≠ i → w.cells j = v.cells j) ∧
    ∀ old new, .write old new ∈ frame → w.cells i = old

/-- The only write of a frame is all that changes when the frame is taken back. If the frame has
only one move, the head was at the cell before or is there after it. -/
theorem changesOneCell_retract (hw : frame.countP isWrite ≤ 1) (hm : frame.countP isMove ≤ 1)
    (v : View) : ChangesOneCell frame v (v.retract frame) := by
  induction frame generalizing v with
  | nil => exact ⟨v.cursor.index, .inl rfl, fun _ _ => rfl, fun _ _ h => by cases h⟩
  | cons op frame ih =>
    rw [retract_cons]
    cases op with
    | write old new =>
      have hnone : frame.countP isWrite = 0 := by simpa using hw
      have hcells := cells_retract_of_no_write hnone (v.put v.cursor.index old)
      refine ⟨v.cursor.index, .inl rfl, fun j hj => ?_, fun old' new' hmem => ?_⟩
      · change ((v.put v.cursor.index old).retract frame).cells j = v.cells j
        rw [hcells]
        exact if_neg hj
      · have hnot : .write old' new' ∉ frame := fun hmem =>
          absurd rfl (List.countP_eq_zero.mp hnone _ hmem)
        obtain ⟨rfl, rfl⟩ : old' = old ∧ new' = new := by simpa [hnot] using hmem
        change ((v.put v.cursor.index old').retract frame).cells v.cursor.index = old'
        rw [hcells]
        exact if_pos rfl
    | move d =>
      rw [Operation.countP_isWrite_move] at hw
      have hnone : frame.countP isMove = 0 := by simpa using hm
      obtain ⟨i, hi, hother, hold⟩ := ih hw (hnone ▸ Nat.zero_le 1)
        (v.apply (Operation.move d).inverse)
      refine ⟨i, .inr ?_, hother, fun old new hmem => hold old new (by simpa using hmem)⟩
      -- After its only move the head stays, so it ends where it has been for the write.
      rcases hi with hi | hi
      · rw [hi, cursor_retract_of_no_move hnone]
      · exact hi

end View

namespace Tape

theorem size_foldl_inverses_of_no_write {frame : Frame} (h : frame.countP isWrite = 0) (t : Tape) :
    ((frame.map Operation.inverse).foldl LoggedTape.apply t).cells.size = t.cells.size := by
  induction frame generalizing t with
  | nil => rfl
  | cons op frame ih =>
    cases op with
    | write old new => simp at h
    | move d =>
      rw [Operation.countP_isWrite_move] at h
      exact ih h (t.shift d.inverse.cells)

/-- Taking back a frame adds the cells that are missing where its only write is taken back. -/
theorem size_foldl_inverses {frame : Frame} (h : frame.countP isWrite ≤ 1) (t : Tape) :
    ((frame.map Operation.inverse).foldl LoggedTape.apply t).cells.size =
      t.cells.size + ((restoredAt t.cursor frame).map t.missing).getD 0 := by
  induction frame generalizing t with
  | nil => rfl
  | cons op frame ih =>
    cases op with
    | write old new =>
      have hnone : frame.countP isWrite = 0 := by simpa using h
      have hrest := size_foldl_inverses_of_no_write hnone (t.put t.cursor.index old)
      exact hrest.trans (t.size_put t.cursor.index old)
    | move d =>
      rw [Operation.countP_isWrite_move] at h
      exact ih h (t.shift d.inverse.cells)

end Tape

namespace StepBack

variable {m : Machine}

theorem exists_ok_iff {outcome : Except Error (Transition × Machine)} (h : StepBack m outcome) :
    (∃ step, outcome = .ok step) ↔
      m.past ≠ [] ∧ Recognised m.tape.journal.current ∧ m.tape.journal.stack ≠ [[]] := by
  cases h with
  | atStart hpast => simp [hpast]
  | foreign hpast hframe => simp [hframe]
  | exhausted hpast hframe hstack => simp [hstack]
  | done hpast hframe hstack => simp [hpast, hframe, hstack]

/-- A step back that fails writes nothing. -/
theorem writesAt?_of_error {e : Error} (h : StepBack m (.error e)) :
    Course.back.writesAt? m = none := by
  rw [Option.eq_none_iff_forall_ne_some]
  intro i hi
  obtain ⟨hpast, hframe, hrestored⟩ := Course.writesAt?_back_eq_some.mp hi
  cases h with
  | atStart hnone => exact hpast hnone
  | foreign _ hforeign => exact hforeign hframe
  | exhausted _ _ hstack =>
    rw [(List.cons.inj hstack).1] at hrestored
    cases hrestored

/-- One that succeeds adds the cells that are missing where it writes. -/
theorem stored_of_ok {result : Transition} {before : Machine}
    (h : StepBack m (.ok (result, before))) :
    before.stored = m.stored + ((Course.back.writesAt? m).map m.tape.tape.missing).getD 0 := by
  cases h with
  | @done q past _ hpast hframe hstack =>
    have hwrites : Course.back.writesAt? m =
        restoredAt m.tape.tape.cursor m.tape.journal.current := by
      obtain ⟨r, hr⟩ := hframe
      have hr' : Reversal.ofInverses m.tape.journal.inverses = .ok r := hr
      simp only [Course.back, hpast, hr']
    rw [hwrites]
    exact Tape.size_foldl_inverses hframe.writes m.tape.tape

/-- Of two reasons to fail, the state is looked at first and the frame next. -/
theorem kind_of_error {e : Error} (h : StepBack m (.error e)) :
    (m.past = [] → e.kind = .outOfHistory) ∧
    (m.past ≠ [] → ¬Recognised m.tape.journal.current → e.kind = .assertion) ∧
    (m.past ≠ [] → Recognised m.tape.journal.current → e.kind = .outOfHistory) := by
  cases h with
  | atStart hpast => exact ⟨fun _ => rfl, fun h => absurd hpast h, fun h => absurd hpast h⟩
  | foreign hpast hframe =>
    exact ⟨fun h => absurd h hpast, fun _ _ => rfl, fun _ h => absurd h hframe⟩
  | exhausted hpast hframe hstack =>
    exact ⟨fun _ => rfl, fun _ h => absurd hframe h, fun _ _ => rfl⟩

end StepBack

/-- `before` is `m` without its newest transition, of which `frame` is what was recorded. One state
and one frame have gone, though there is always a frame, and at most one cell has changed. The head
has moved the opposite way as far as there are positions. -/
structure TakenBack (frame : List Operation) (m before : Machine) : Prop where
  states : m.stateHistory = before.stateHistory ++ [m.state]
  step : m.step = before.step + 1
  frames : ∃ earlier, m.tape.journal.frames = earlier ++ [frame] ∧
    before.tape.journal.frames = if earlier = [] then [[]] else earlier
  limit : before.tape.journal.limit = m.tape.journal.limit
  blank : before.tape.tape.blank = m.tape.tape.blank
  cells : View.ChangesOneCell frame m.tape.tape.view before.tape.tape.view
  moved : ∀ d, .move d ∈ frame →
    before.tape.tape.cursor.index = clamp (m.tape.tape.cursor.index - d.cells)
  unmoved : (∀ d, .move d ∉ frame) → before.tape.tape.cursor = m.tape.tape.cursor
  program : before.program = m.program
  finals : before.finals = m.finals
  initialState : before.initialState = m.initialState
  initialTape : before.initialTape = m.initialTape
  name : before.name = m.name
  cap : before.cap = m.cap

namespace Journal

/-- The frames but for the current one, the oldest first. -/
def earlierFrames (j : Journal) : List (List Operation) := (j.earlier.map List.reverse).reverse

theorem frames_eq_concat (j : Journal) : j.frames = j.earlierFrames ++ [j.current.reverse] := by
  rw [frames_eq, stack, List.map_cons, List.reverse_cons]
  rfl

theorem getLast?_frames (j : Journal) : j.frames.getLast? = some j.current.reverse := by
  rw [frames_eq_concat, List.getLast?_concat]

theorem frames_dropFrame (j : Journal) :
    j.dropFrame.frames = if j.earlierFrames = [] then [[]] else j.earlierFrames := by
  have hnil : j.earlierFrames = [] ↔ j.earlier = [] := by simp [earlierFrames]
  rw [frames_eq, stack_dropFrame]
  by_cases h : j.earlier = []
  · rw [if_pos h, if_pos (hnil.mpr h)]
    rfl
  · rw [if_neg h, if_neg (fun he => h (hnil.mp he))]
    rfl

end Journal

namespace Machine

/-- A request for a single step ends as the step does. -/
theorem back_one (m : Machine) :
    m.back 1 = match m.backOne with
      | .ok (result, before) => (.ok [result], before)
      | .error e => (.error e, m) := by
  cases h : m.backOne with
  | error e => simp only [back, h]
  | ok first =>
    obtain ⟨result, before⟩ := first
    simp only [back, h, backMore]
    rfl

/-- There is no room for the cell of a step back exactly if the machine before outgrows the room. -/
theorem lacksCell_back_one (room : Room) (m : Machine) :
    room.lacksCell .back 1 m = true ↔ m.Outgrows room (m.back 1).2 := by
  have hstep := m.stepBack_backOne
  rw [Room.lacksCell_one, m.back_one]
  cases hone : m.backOne with
  | error e =>
    rw [hone] at hstep
    simp [hstep.writesAt?_of_error, not_outgrows_of_stored_eq]
  | ok step =>
    obtain ⟨result, before⟩ := step
    rw [hone] at hstep
    have hstored := hstep.stored_of_ok
    cases hi : Course.back.writesAt? m with
    | none =>
      rw [hi] at hstored
      simp [not_outgrows_of_stored_eq hstored]
    | some i =>
      have hgrown : before.stored = m.stored + m.tape.tape.missing i := by
        rw [hstored, hi]
        rfl
      simp [fits_eq_false_iff hgrown]

theorem exists_backIn_one_iff (room : Room) (m : Machine) :
    (∃ answer, m.backIn room 1 = .ok answer) ↔ ¬m.Outgrows room (m.back 1).2 := by
  rw [backIn_of_room room room.results_pos, ← lacksCell_back_one]
  cases room.lacksCell .back 1 m <;> simp

theorem stateHistory_reverted {m : Machine} {q : State} {past : List State}
    (h : m.past = q :: past) :
    m.stateHistory = (m.reverted q past).stateHistory ++ [m.state] := by
  rw [stateHistory, h, List.reverse_cons]
  rfl

/-- Taking back a frame that looks like that of a transition is a local change. -/
theorem takenBack_reverted {m : Machine} {q : State} {past : List State}
    (hcount : m.past.length = m.step) (hpast : m.past = q :: past)
    (hframe : OfTransition m.tape.journal.current)
    (hleast : ∀ d, .move d ∈ m.tape.journal.current → d.cells ≠ leastIndex) :
    TakenBack m.tape.journal.current.reverse m (m.reverted q past) := by
  have hview := m.tape.view_undone
  constructor
  case states => exact stateHistory_reverted hpast
  case step =>
    change m.step = m.step - 1 + 1
    rw [hpast, List.length_cons] at hcount
    omega
  case frames => exact ⟨_, m.tape.journal.frames_eq_concat, m.tape.journal.frames_dropFrame⟩
  case limit => exact m.tape.journal.limit_dropFrame
  case blank => exact (congrArg View.blank hview).trans (View.blank_retract _ _)
  case cells =>
    change View.ChangesOneCell _ _ m.tape.undone.tape.view
    rw [hview]
    obtain ⟨i, hi, hother, hold⟩ :=
      View.changesOneCell_retract hframe.writes hframe.moves m.tape.tape.view
    exact ⟨i, hi, hother, fun old new h => hold old new (List.mem_reverse.mp h)⟩
  case moved =>
    intro d hd
    rw [List.mem_reverse] at hd
    have hcursor := View.cursor_retract_of_one_move hframe.moves hd m.tape.tape.view
    change m.tape.undone.tape.view.cursor.index = clamp (m.tape.tape.cursor.index - d.cells)
    rw [hview, hcursor, Position.advance_index, Distance.cells_inverse (hleast d hd)]
    rfl
  case unmoved =>
    intro hnone
    have hmoves : m.tape.journal.current.countP isMove = 0 := by
      rw [List.countP_eq_zero]
      intro op hop
      cases op with
      | write old new => exact Bool.false_ne_true
      | move d => exact absurd (List.mem_reverse.mpr hop) (hnone d)
    change m.tape.undone.tape.view.cursor = _
    rw [hview, View.cursor_retract_of_no_move hmoves]
    rfl
  case program => rfl
  case finals => rfl
  case initialState => rfl
  case initialTape => rfl
  case name => rfl
  case cap => rfl

end Machine

/-- One step back of any reachable machine in a room, if its last frame has no move by the least
distance. It is answered exactly if the machine before does not outgrow the room. Then it succeeds
exactly if the counter is not at zero, the last frame looks like that of a transition and the
history is not a single empty frame. At zero the machine is out of history; otherwise a frame of
another shape is a violated assertion; otherwise it is out of history, too; and whenever it fails,
it stays as it is. When it succeeds, there is one result, and the last transition is taken back. -/
theorem step_back_recognised_and_local (room : Room) {m : Machine} (hm : m.Reachable)
    {frame : List Operation} (hlast : m.tape.journal.frames.getLast? = some frame)
    (hleast : ∀ d, .move d ∈ frame → d.cells ≠ leastIndex) :
    ((∃ answer, m.backIn room 1 = .ok answer) ↔ ¬m.Outgrows room (m.back 1).2) ∧
    ∀ outcome before, m.backIn room 1 = .ok (outcome, before) →
      ((∃ results, outcome = .ok results) ↔
        1 ≤ m.step ∧ OfTransition frame ∧ m.tape.journal.frames ≠ [[]]) ∧
      (∀ e, outcome = .error e →
        before = m ∧
        (m.step = 0 → e.kind = .outOfHistory) ∧
        (1 ≤ m.step → ¬OfTransition frame → e.kind = .assertion) ∧
        (1 ≤ m.step → OfTransition frame → e.kind = .outOfHistory)) ∧
      ∀ results, outcome = .ok results → results.length = 1 ∧ TakenBack frame m before := by
  have hcount := hm.storable.past
  have hzero : m.past = [] ↔ m.step = 0 := by
    rw [← hcount, List.length_eq_zero_iff]
  -- The journal keeps the frame in the opposite order, in which it is recognised.
  obtain rfl : m.tape.journal.current.reverse = frame :=
    Option.some.inj (m.tape.journal.getLast?_frames.symm.trans hlast)
  have hleast' : ∀ d, .move d ∈ m.tape.journal.current → d.cells ≠ leastIndex :=
    fun d hd => hleast d (List.mem_reverse.mpr hd)
  have hpos : 1 ≤ m.step ↔ m.past ≠ [] := by
    rw [Ne, hzero]
    omega
  have hempty : m.tape.journal.frames ≠ [[]] ↔ m.tape.journal.stack ≠ [[]] :=
    not_congr m.tape.journal.frames_eq_singleton_nil
  refine ⟨Machine.exists_backIn_one_iff room m, fun outcome before hanswer => ?_⟩
  rw [ofTransition_reverse, ← recognised_iff hleast', ← hzero, hpos, hempty]
  have hstep := m.stepBack_backOne
  have hback := (Machine.eq_back_of_backIn hanswer).trans m.back_one
  cases hone : m.backOne with
  | error e =>
    rw [hone] at hstep hback
    cases hback
    refine ⟨?_, ?_, ?_⟩
    · rw [← hstep.exists_ok_iff]
      constructor <;> rintro ⟨_, hok⟩ <;> cases hok
    · rintro _ ⟨⟩
      exact ⟨rfl, hstep.kind_of_error⟩
    · rintro _ ⟨⟩
  | ok step =>
    rw [hone] at hstep hback
    cases hback
    refine ⟨?_, ?_, ?_⟩
    · rw [← hstep.exists_ok_iff]
      exact ⟨fun _ => ⟨step, rfl⟩, fun _ => ⟨[step.1], rfl⟩⟩
    · rintro _ ⟨⟩
    · rintro _ ⟨⟩
      cases hstep with
      | done hpast hframe hstack =>
        exact ⟨rfl, Machine.takenBack_reverted hcount hpast ((recognised_iff hleast').mp hframe)
          hleast'⟩

/-- A tape can be edited any number of times. -/
theorem Machine.Reachable.editAll {m : Machine} (h : m.Reachable) (edits : List Edit) :
    Reachable { m with tape := Edit.performAll edits m.tape } := by
  induction edits generalizing m with
  | nil => exact h
  | cons e edits ih => exact ih (.editTape e h)

/-- One transition, after which somebody has gone on in a frame of his own and written there. -/
def Stroke.trespassed (m : Machine) : Machine :=
  let m := m.after [.forth 1]
  let edits : List Edit := [.snapshot, .head (.right 1), .head (.write (.ofText "y"))]
  { m with tape := Edit.performAll edits m.tape }

/-- The move and the write of that frame, in an order that no transition has. -/
def Stroke.trespass : List Operation :=
  [.move (.ofInt 1), .write (some (.ofText "1")) (some (.ofText "y"))]

theorem Stroke.reachable_trespassed {m : Machine} (h : m.Reachable) : (trespassed m).Reachable :=
  (h.after _).editAll _

theorem step_back_recognised_and_local_trespassed :
    ∃ m₀, Machine.new Stroke.program Stroke.tape [Stroke.ended] Stroke.going = .ok m₀ ∧
      let m := Stroke.trespassed m₀
      m.Reachable ∧ m.tape.journal.frames.getLast? = some Stroke.trespass ∧
      (∀ d, .move d ∈ Stroke.trespass → d.cells ≠ leastIndex) ∧
      ∃ results before, m.backIn .greatest 1 = .ok (.ok results, before) ∧
        results.length = 1 ∧ TakenBack Stroke.trespass m before := by
  obtain ⟨m₀, hnew⟩ : ∃ m₀,
      Machine.new Stroke.program Stroke.tape [Stroke.ended] Stroke.going = .ok m₀ := ⟨_, rfl⟩
  have hm := Stroke.reachable_trespassed (.new Stroke.reachable_tape hnew)
  have hshort : ∀ d, .move d ∈ Stroke.trespass → d.cells = 1 := by
    intro d hd
    obtain rfl : d = .ofInt 1 := by simpa [Stroke.trespass] using hd
    rfl
  have hleast : ∀ d, .move d ∈ Stroke.trespass → d.cells ≠ leastIndex := by
    intro d hd
    rw [hshort d hd]
    decide
  have hshape : OfTransition Stroke.trespass :=
    ⟨by decide, by decide, fun d hd => .inr (.inr (hshort d hd))⟩
  have hlast : (Stroke.trespassed m₀).tape.journal.frames.getLast? = some Stroke.trespass := by
    cases hnew
    decide
  obtain ⟨hroom, hends⟩ := step_back_recognised_and_local .greatest hm hlast hleast
  have hstep : 1 ≤ (Stroke.trespassed m₀).step := by
    cases hnew
    decide
  have hframes : (Stroke.trespassed m₀).tape.journal.frames ≠ [[]] := by
    cases hnew
    decide
  obtain ⟨⟨outcome, before⟩, hanswer⟩ := hroom.mpr (by cases hnew; decide)
  obtain ⟨hiff, -, hlocal⟩ := hends outcome before hanswer
  obtain ⟨results, rfl⟩ := hiff.mpr ⟨hstep, hshape, hframes⟩
  exact ⟨m₀, hnew, hm, hlast, hleast, results, before, hanswer, hlocal results rfl⟩

/-- The document of a machine with nothing written, whose head is far away, and whose only frame
says that a symbol has been written where there was none. -/
def Stroke.distant : Json :=
  .object [
    ("final_states", .array [.string "end"]),
    ("program", .array []),
    ("state_history", .array [.string "go", .string "end"]),
    ("tape", .object [
      ("cursor", .int 4611686018427387904),
      ("data", .array []),
      ("history", .array [.array [.array [.string "w", .null, .string "x"]]])])]

/-- A step back can stop though its frame is that of a transition: to restore that nothing was
written in a cell that has never been stored, all cells up to it are added, and no room holds as
many. -/
theorem step_back_can_stop :
    ∃ m frame, Machine.ofJson Stroke.distant = .ok m ∧ m.Reachable ∧
      m.tape.journal.frames.getLast? = some frame ∧ (∀ d, .move d ∉ frame) ∧
      1 ≤ m.step ∧ OfTransition frame ∧ m.tape.journal.frames ≠ [[]] ∧
      ∀ room, m.backIn room 1 = .error .cells := by
  obtain ⟨m, hm⟩ : ∃ m, Machine.ofJson Stroke.distant = .ok m := ⟨_, rfl⟩
  let frame : List Operation := [.write none (some (.ofText "x"))]
  have hnone : ∀ d, .move d ∉ frame := by simp [frame]
  have hshape : OfTransition frame := ⟨by decide, by decide, fun d hd => absurd hd (hnone d)⟩
  have hlast : m.tape.journal.frames.getLast? = some frame := by
    cases hm
    decide
  have hstep : 1 ≤ m.step := by
    cases hm
    decide
  have hframes : m.tape.journal.frames ≠ [[]] := by
    cases hm
    decide
  have hwrites : Course.back.writesAt? m = some 4611686018427387904 := by
    cases hm
    rfl
  have hempty : m.tape.tape.missing 4611686018427387904 = 4611686018427387905 := by
    cases hm
    rfl
  refine ⟨m, frame, hm, .ofJson hm, hlast, hnone, hstep, hshape, hframes, fun room => ?_⟩
  have hlacks : room.lacksCell .back 1 m = true := by
    refine (room.lacksCell_one .back m).mpr ⟨_, hwrites, ?_⟩
    rw [← Bool.not_eq_true, Tape.fits_iff, hempty]
    have hfit := room.cells_fit
    unfold cellBytes greatestPiece greatestIndex at hfit
    omega
  rw [Machine.backIn_of_room room room.results_pos, if_pos hlacks]

end TapeMachine
