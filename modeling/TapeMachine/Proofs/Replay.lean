import TapeMachine.Proofs.Alike
import TapeMachine.Proofs.LockStep
import TapeMachine.Proofs.Retreat

/-!
Going back over what a request forward has done. A frame knows the cells before and after
its transition and the way of the head, and the states before are in the machine's past.
Main statement: as long as the frames are there, going back tells of the same transitions,
the latest first and each the other way round, and if no older frame had to go for them,
the machine has its document of before again.
-/
namespace TapeMachine

/-- A motion as a frame tells it, in which nothing is left of an order to halt. -/
def Motion.recorded : Motion → Motion
  | .halt => .stop
  | motion => motion

/-- What is told of a transition when it is taken back: its cells and states the other way round.
The machine can go on from where it gets to. -/
def Transition.reversed (t : Transition) : Transition where
  oldValue := t.newValue
  oldState := t.newState
  newValue := t.oldValue
  motion := t.motion.recorded
  newState := t.oldState
  step := t.step - 1
  nextUndefined := false
  nextFinal := false

/-- The way back of a move that is not stopped. -/
theorem Position.cells_inverse_between {q : Position} {motion : Motion}
    (lower : leastIndex ≤ q.index + motion.delta) (upper : q.index + motion.delta ≤ greatestIndex) :
    (Distance.between q (q.advance motion.delta)).inverse.cells = -motion.delta := by
  have hd := motion.natAbs_delta
  have hnear : q.Near (q.advance motion.delta) := by
    apply near_advance <;> unfold greatestIndex <;> omega
  have hcells : (Distance.between q (q.advance motion.delta)).cells = motion.delta := by
    rw [between_cells hnear, advance_index, clamp_of_mem lower upper]
    omega
  have hne : (Distance.between q (q.advance motion.delta)).cells ≠ leastIndex := by
    rw [hcells]
    unfold leastIndex
    omega
  rw [Distance.inverse, dif_neg hne]
  exact congrArg Neg.neg hcells

/-- What the frame of an instruction tells, if its move is not stopped: the cell that was written,
what was there before, and the motion. -/
theorem View.reversal_frameOf (i : Instruction) (v : View)
    (lower : leastIndex ≤ v.cursor.index + i.motion.delta)
    (upper : v.cursor.index + i.motion.delta ≤ greatestIndex) :
    ∃ r, Reversal.ofInverses ((v.frameOf i).map Operation.inverse) = .ok r ∧
      r.cells = some (some i.write, v.cells v.cursor.index) ∧ r.motion = i.motion.recorded := by
  have hcells := Position.cells_inverse_between lower upper
  cases hm : i.motion with
  | left =>
    rw [hm] at hcells
    have hback : (Distance.between v.cursor (v.cursor.advance (-1))).inverse.cells = 1 := hcells
    have hwidth : (Distance.between v.cursor (v.cursor.advance (-1))).inverse.width ≤ 1 :=
      Distance.width_le_one (by rw [hback]; decide)
    refine ⟨⟨some (some i.write, v.cells v.cursor.index), some 1⟩, ?_, rfl, rfl⟩
    simp [frameOf, hm, Reversal.ofInverses, Operation.inverse, Reversal.add, Motion.delta, hback,
      hwidth]
  | right =>
    rw [hm] at hcells
    have hback : (Distance.between v.cursor (v.cursor.advance 1)).inverse.cells = -1 := hcells
    have hwidth : (Distance.between v.cursor (v.cursor.advance 1)).inverse.width ≤ 1 :=
      Distance.width_le_one (by rw [hback]; decide)
    refine ⟨⟨some (some i.write, v.cells v.cursor.index), some (-1)⟩, ?_, rfl, rfl⟩
    simp [frameOf, hm, Reversal.ofInverses, Operation.inverse, Reversal.add, Motion.delta, hback,
      hwidth]
  | stop =>
    refine ⟨⟨some (some i.write, v.cells v.cursor.index), none⟩, ?_, rfl, rfl⟩
    simp [frameOf, hm, Reversal.ofInverses, Operation.inverse, Reversal.add]
  | halt =>
    refine ⟨⟨some (some i.write, v.cells v.cursor.index), none⟩, ?_, rfl, rfl⟩
    simp [frameOf, hm, Reversal.ofInverses, Operation.inverse, Reversal.add]

namespace Retreat

variable {m last : Machine} {results : List Transition}

/-- One more step back. -/
theorem snoc (h : Retreat m results last) {result : Transition} {before : Machine}
    (hone : last.backOne = .ok (result, before)) : Retreat m (results ++ [result]) before := by
  induction h with
  | stay m => exact .step hone (.stay before)
  | step hfirst _ ih => exact .step hfirst (ih hone)

theorem backMore_eq (h : Retreat m results last) :
    m.backMore results.length = (.ok results, last) := by
  induction h with
  | stay m => rfl
  | step hone _ ih => simp only [List.length_cons, Machine.backMore, hone, ih, Except.map]

/-- A request for as many steps back as there are in a retreat goes along with it. -/
theorem back_eq (h : Retreat m results last) : m.back results.length = (.ok results, last) := by
  cases h with
  | stay => rfl
  | step hone hrest =>
    rw [List.length_cons, Machine.back_of_backOne hone]
    exact (Retreat.step hone hrest).backMore_eq

end Retreat

/-- The frames that are left of a stack after `k` new ones have come and gone. -/
def leftUnder (k : Nat) (limit : Option Nat) (frames : List Frame) : List Frame :=
  match limit with
  | none => frames
  | some n => frames.take (max n 1 - k)

/-- There is room for `k` frames. -/
def RoomFor (k : Nat) (limit : Option Nat) : Prop := ∀ n, limit = some n → k ≤ max 1 n

theorem leftUnder_zero (limit : Option Nat) (frames : List Frame) :
    leftUnder 0 limit frames = keep limit frames := by
  cases limit with
  | none => rfl
  | some n => rfl

theorem leftUnder_keep_cons {k : Nat} {limit : Option Nat} (h : RoomFor (k + 1) limit)
    (frame : Frame) (frames : List Frame) :
    leftUnder k limit (keep limit (frame :: frames)) = frame :: leftUnder (k + 1) limit frames := by
  cases limit with
  | none => rfl
  | some n =>
    have hroom := h n rfl
    have hsucc : max n 1 - k = max n 1 - (k + 1) + 1 := by omega
    have hmin : min (max n 1 - k) (max n 1) = max n 1 - k := by omega
    simp only [leftUnder, keep_some, List.take_take, hmin]
    rw [hsucc, List.take_succ_cons]

theorem leftUnder_of_room {k : Nat} {limit : Option Nat} {frames : List Frame}
    (h : RoomFor (frames.length + k) limit) : leftUnder k limit frames = frames := by
  cases limit with
  | none => rfl
  | some n =>
    have hroom := h n rfl
    exact List.take_of_length_le (by omega)

/-- `b` is as `m` was before `k` transitions that have been taken back: only its tape may be stored
in another way, and frames at the bottom may be missing. -/
structure Returned (k : Nat) (m b : Machine) : Prop where
  alike : b.Alike { m with tape := ⟨m.tape.tape, b.tape.journal⟩ }
  limit : b.tape.journal.limit = m.tape.journal.limit
  stack : b.tape.journal.stack = leftUnder k m.tape.journal.limit m.tape.journal.stack ∨
    b.tape.journal.stack = [[]] ∧ leftUnder k m.tape.journal.limit m.tape.journal.stack = []

namespace Returned

variable {k : Nat} {m b : Machine}

theorem start (h : m.tape.journal.Within) : Returned 0 m m where
  alike := ⟨rfl, ⟨rfl, rfl⟩, rfl, rfl, rfl, rfl, rfl, rfl, rfl⟩
  limit := rfl
  stack := .inl (by rw [leftUnder_zero, h.keep_stack])

theorem stack_follow {i : Instruction} (h : Returned k (m.follow i) b)
    (hroom : RoomFor (k + 1) m.tape.journal.limit) :
    b.tape.journal.stack =
      m.scene.view.frameOf i :: leftUnder (k + 1) m.tape.journal.limit m.tape.journal.stack := by
  have hstack := h.stack
  rw [m.limit_follow, m.stack_follow, leftUnder_keep_cons hroom] at hstack
  rcases hstack with hstack | ⟨_, hnone⟩
  · exact hstack
  · cases hnone

/-- The frame of a transition leads back to what was there before it. -/
theorem view_undone {i : Instruction} (h : Returned k (m.follow i) b)
    (hroom : RoomFor (k + 1) m.tape.journal.limit) :
    b.tape.undone.tape.view = m.tape.tape.view := by
  have hcurrent : b.tape.journal.current = m.scene.view.frameOf i :=
    (List.cons.inj (h.stack_follow hroom)).1
  have hfollow : (m.follow i).tape.tape.view = m.scene.view.follow i :=
    congrArg Scene.view (m.scene_follow i)
  have hview : b.tape.tape.view = (m.follow i).tape.tape.view := h.alike.tape.view
  rw [LoggedTape.view_undone, hcurrent, hview, hfollow, View.retract_frameOf]
  rfl

/-- Taking the transition back leaves one frame less, and one more may be missing below. -/
theorem reverted {i : Instruction} (h : Returned k (m.follow i) b)
    (hroom : RoomFor (k + 1) m.tape.journal.limit) :
    Returned (k + 1) m (b.reverted m.state m.past) where
  alike := by
    refine ⟨h.alike.program, ⟨h.view_undone hroom, rfl⟩, h.alike.finals, h.alike.initialState,
      h.alike.initialTape, rfl, rfl, ?_, h.alike.name⟩
    change b.step - 1 = m.step
    rw [h.alike.step]
    rfl
  limit := (Journal.limit_dropFrame _).trans (h.limit.trans (m.limit_follow i))
  stack := by
    have hearlier : b.tape.journal.earlier = _ := (List.cons.inj (h.stack_follow hroom)).2
    change b.tape.journal.dropFrame.stack = _ ∨ b.tape.journal.dropFrame.stack = _ ∧ _
    rw [Journal.stack_dropFrame, hearlier]
    split
    next hnone => exact .inr ⟨rfl, hnone⟩
    next => exact .inl rfl

/-- What is told of a transition is what was told of it before, the other way round. -/
theorem revertedResult {i : Instruction} (h : Returned k (m.follow i) b)
    (hroom : RoomFor (k + 1) m.tape.journal.limit) (hf : m.atFinal = false)
    (hi : m.instruction? = some i) {r : Reversal}
    (hcells : r.cells = some (some i.write, m.scene.view.cells m.scene.view.cursor.index))
    (hmotion : r.motion = i.motion.recorded) :
    b.revertedResult m.state m.past r = (m.perform i).1.reversed := by
  have hbefore := (h.reverted hroom).alike
  have hblank : (b.reverted m.state m.past).tape.tape.blank = m.tape.tape.blank :=
    hbefore.tape.blank
  have hstep : (b.reverted m.state m.past).step = m.step := hbefore.step
  have hfinal : (b.reverted m.state m.past).atFinal = false := hbefore.atFinal.trans hf
  have hundefined : (b.reverted m.state m.past).atUndefined = false := by
    have hdefined : m.atUndefined = false := by rw [Machine.atUndefined, hi]; rfl
    exact hbefore.atUndefined.trans hdefined
  have hstate : b.state = i.next := h.alike.state
  simp only [Machine.revertedResult, hcells, hmotion, hblank, hstep, hfinal, hundefined, hstate]
  rfl

/-- One transition is taken back and told. -/
theorem backOne {i : Instruction} (h : Returned k (m.follow i) b)
    (hroom : RoomFor (k + 1) m.tape.journal.limit) (hfree : m.Free) (hf : m.atFinal = false)
    (hi : m.instruction? = some i) :
    b.backOne = .ok ((m.perform i).1.reversed, b.reverted m.state m.past) := by
  have hfin : m.finished = false := by simp [Machine.finished, Machine.atUndefined, hf, hi]
  obtain ⟨lower, upper⟩ := hfree hfin i hi
  obtain ⟨r, hr, hcells, hmotion⟩ := m.scene.view.reversal_frameOf i lower upper
  have hframes := h.stack_follow hroom
  rw [← (List.cons.inj hframes).1] at hr
  have hstack : b.tape.journal.stack ≠ [[]] := by
    intro he
    rw [hframes] at he
    exact m.scene.view.frameOf_ne_nil i (List.cons.inj he).1
  have hpast : b.past = m.state :: m.past := h.alike.past
  rw [Machine.backOne, hpast, ← h.revertedResult hroom hf hi hcells hmotion]
  exact Machine.reverse_of_recognised m.state m.past hr hstack

end Returned

theorem Machine.within_follow (m : Machine) (i : Instruction) :
    (m.follow i).tape.journal.Within := by
  intro n hn
  rw [m.limit_follow] at hn
  rw [m.stack_follow, hn, keep_some, List.length_take]
  omega

/-- From the end of a request there is a retreat that tells of its transitions in the opposite
order, the way back being found by induction on the first transition. -/
theorem Machine.retreat_advance (n : Nat) {m : Machine} (hwithin : m.tape.journal.Within)
    (hfree : m.FreeFor (m.advance n).1.length)
    (hroom : RoomFor (m.advance n).1.length m.tape.journal.limit) :
    ∃ b, Retreat (m.advance n).2 ((m.advance n).1.reverse.map Transition.reversed) b ∧
      Returned (m.advance n).1.length m b := by
  induction n generalizing m with
  | zero => exact ⟨m, .stay m, .start hwithin⟩
  | succ n ih =>
    cases hfin : m.finished with
    | true =>
      rw [advance_of_finished (n + 1) hfin]
      exact ⟨m, .stay m, .start hwithin⟩
    | false =>
      obtain ⟨hf, i, hi⟩ := instruction_of_not_finished hfin
      rw [advance_succ n hf hi] at hfree hroom ⊢
      rw [List.length_cons] at hfree hroom ⊢
      -- the later transitions are taken back first; the frame of this one is then on top
      have hrest : RoomFor ((m.follow i).advance n).1.length (m.follow i).tape.journal.limit := by
        intro l hl
        have hl := hroom l ((m.limit_follow i).symm.trans hl)
        omega
      obtain ⟨b, hretreat, hreturned⟩ := ih (m.within_follow i) (hfree.follow hf hi) hrest
      have hone := hreturned.backOne hroom hfree.free hf hi
      refine ⟨b.reverted m.state m.past, ?_, hreturned.reverted hroom⟩
      rw [List.reverse_cons, List.map_append]
      exact hretreat.snoc hone

theorem Journal.eq_of_stack {j j' : Journal} (hstack : j.stack = j'.stack)
    (hlimit : j.limit = j'.limit) : j = j' := by
  cases j with
  | mk current earlier limit =>
    cases j' with
    | mk current' earlier' limit' =>
      obtain ⟨rfl, rfl⟩ := List.cons.inj hstack
      cases hlimit
      rfl

/-- With all frames in their place nothing but the storage of the tape is changed. -/
theorem Returned.alike_of_room {k : Nat} {m b : Machine} (h : Returned k m b)
    (hroom : RoomFor (m.tape.journal.frames.length + k) m.tape.journal.limit) : b.Alike m := by
  rw [Journal.length_frames] at hroom
  have hstack := h.stack
  rw [leftUnder_of_room hroom] at hstack
  rcases hstack with hstack | ⟨_, hnone⟩
  · have hjournal := Journal.eq_of_stack hstack h.limit
    have halike := h.alike
    rw [hjournal] at halike
    exact halike
  · cases hnone

/-- If a request to a reachable machine has executed transitions of which no move was stopped at the
last positions, and the limit leaves room for as many frames, then going back by as many steps
succeeds and tells of the same transitions, the latest first and each the other way round. If there
is room for the frames before as well, the machine then has the document it had before. -/
theorem back_replays_forth {m : Machine} (h : m.Reachable) {n : Nat} {results : List Transition}
    (hforth : (m.forth n).1 = some results) (hfree : m.FreeFor results.length)
    (hroom : RoomFor results.length m.tape.journal.limit) :
    ((m.forth n).2.back results.length).1 = .ok (results.reverse.map Transition.reversed) ∧
    (RoomFor (m.tape.journal.frames.length + results.length) m.tape.journal.limit →
      ((m.forth n).2.back results.length).2.toJson = m.toJson) := by
  have hresults : (m.advance n).1 = results := by
    rw [← m.getD_forth n, hforth, Option.getD_some]
  subst hresults
  obtain ⟨b, hretreat, hreturned⟩ := m.retreat_advance n h.storable.tape.within hfree hroom
  have hback := hretreat.back_eq
  rw [List.length_map, List.length_reverse, ← m.forth_snd n] at hback
  rw [hback]
  exact ⟨rfl, fun hall => (hreturned.alike_of_room hall).toJson⟩

/-- Four transitions on a tape with three frames of its own, of which a limit of two drops all. -/
theorem back_replays_forth_strokes :
    let m := Stroke.machineOn Stroke.tape
    let narrow := (m.obey (.setLimit (some ⟨2, by decide⟩))).2
    (∃ results, m.Reachable ∧ (m.forth 9).1 = some results ∧ m.FreeFor results.length ∧
      RoomFor (m.tape.journal.frames.length + results.length) m.tape.journal.limit ∧
      results.length = 4 ∧
      ((m.forth 9).2.back 4).1 = .ok (results.reverse.map Transition.reversed) ∧
      ((m.forth 9).2.back 4).2.toJson = m.toJson) ∧
    ∃ results, narrow.Reachable ∧ (narrow.forth 2).1 = some results ∧
      narrow.FreeFor results.length ∧ RoomFor results.length narrow.tape.journal.limit ∧
      results.length = 2 ∧
      ((narrow.forth 2).2.back 2).1 = .ok (results.reverse.map Transition.reversed) := by
  intro m narrow
  have hm : m.Reachable := .new Stroke.reachable_tape (Stroke.new_eq_machineOn _)
  have hnarrow : narrow.Reachable := .obey _ hm
  obtain ⟨results, hforth, hlength⟩ : ∃ results, (m.forth 9).1 = some results ∧
      results.length = 4 := by
    refine ⟨(m.advance 9).1, ?_, by decide⟩
    rw [Machine.forth_of_not_finished 9 (by decide)]
  obtain ⟨few, hfew, hcount⟩ : ∃ results, (narrow.forth 2).1 = some results ∧
      results.length = 2 := by
    refine ⟨(narrow.advance 2).1, ?_, by decide⟩
    rw [Machine.forth_of_not_finished 2 (by decide)]
  have hfree : m.FreeFor results.length := by
    rw [hlength]
    exact Machine.freeFor_of_natAbs (by decide)
  have hfree' : narrow.FreeFor few.length := by
    rw [hcount]
    exact Machine.freeFor_of_natAbs (by decide)
  have hroom (k : Nat) : RoomFor k m.tape.journal.limit := by
    intro l hl
    cases hl
  have hroom' : RoomFor few.length narrow.tape.journal.limit := by
    rw [hcount]
    intro l hl
    cases hl
    decide
  have hback := back_replays_forth hm hforth hfree (hroom _)
  have hback' := back_replays_forth hnarrow hfew hfree' hroom'
  rw [hlength] at hback
  rw [hcount] at hback'
  exact ⟨⟨results, hm, hforth, hfree, hroom _, hlength, hback.1, hback.2 (hroom _)⟩,
    few, hnarrow, hfew, hfree', hroom', hcount, hback'.1⟩

end TapeMachine
