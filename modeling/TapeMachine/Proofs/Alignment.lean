import TapeMachine.Proofs.Reachable
import TapeMachine.Proofs.Retrace
import TapeMachine.Proofs.Room

/-!
A machine and its gauge stay aligned: the machine stands at the end of a trail of scenes,
and as many of its frames as the gauge says lead back along this trail. One transition
preserves this, so do a step back, a reset and a new limit, and therefore all commands.
Main statement: the gauge tells exactly how far a machine can go back, if there is room for
as many results as steps are asked for.
-/
namespace TapeMachine

/-- A machine as it was made, before anything has been asked of it. -/
structure Fresh (m : Machine) : Prop where
  state : m.initialState = m.state
  tape : m.initialTape = m.tape.toJson
  past : m.past = []
  step : m.step = 0
  storable : m.tape.Storable

/-- The frame of an instruction restores the cell that the instruction has written. -/
theorem View.restoredAt_frameOf (i : Instruction) (v : View) :
    restoredAt (v.follow i).cursor (v.frameOf i) = some v.cursor.index := by
  have hback := Position.advance_inverse_between (v.cursor.near_advance_delta i.motion)
  change restoredAt (v.cursor.advance i.motion.delta) _ = _
  cases hm : i.motion with
  | left | right =>
    rw [hm] at hback
    simp only [frameOf, hm, restoredAt, hback]
  | stop | halt => simp only [frameOf, hm, restoredAt, Motion.delta, Position.advance_zero]

/-- A machine that was `m₀` once has come along a trail, of which its upper frames know the end. The
cells that these frames restore are stored. -/
structure Aligned (m₀ : Machine) (g : Gauge) (m : Machine) (trail : List Scene) : Prop where
  program : m.program = m₀.program
  finals : m.finals = m₀.finals
  initialState : m.initialState = m₀.initialState
  initialTape : m.initialTape = m₀.initialTape
  limit : m.tape.journal.limit = g.limit
  came : Trail m₀ (m.scene :: trail)
  past : m.past = trail.map Scene.state
  step : m.step = trail.length
  back : Retraces m₀.tape.journal.stack g.undoable m.tape.journal.stack (m.scene :: trail)
  kept : ∀ s ∈ trail.take g.undoable, m.tape.tape.missing s.view.cursor.index = 0

namespace Aligned

variable {m₀ m : Machine} {g : Gauge} {trail : List Scene}

theorem start (h : Fresh m₀) : Aligned m₀ ⟨0, m₀.tape.journal.limit⟩ m₀ [] where
  program := rfl
  finals := rfl
  initialState := rfl
  initialTape := rfl
  limit := rfl
  came := .start
  past := h.past
  step := h.step
  back := .given (List.prefix_refl _) _
  kept := by
    intro s hs
    cases hs

/-- One transition lengthens the trail. -/
theorem follow (h : Aligned m₀ g m trail) {i : Instruction} (hf : m.atFinal = false)
    (hi : m.instruction? = some i) :
    Aligned m₀ (g.grown 1) (m.follow i) (m.scene :: trail) where
  program := h.program
  finals := h.finals
  initialState := h.initialState
  initialTape := h.initialTape
  limit := m.limit_follow i |>.trans h.limit
  came := by
    rw [m.scene_follow]
    refine .step i h.came ?_ ?_
    · rw [← h.finals]
      exact hf
    · rw [← h.program]
      exact hi
  past := congrArg (m.state :: ·) h.past
  step := congrArg (· + 1) h.step
  back := by
    rw [m.scene_follow, m.stack_follow, h.limit]
    exact (h.back.frame i).keep g.limit
  kept := by
    intro s hs
    have hle : capped g.limit (g.undoable + 1) ≤ g.undoable + 1 := capped_le _ _
    have hmem : s ∈ (m.scene :: trail).take (g.undoable + 1) :=
      (List.take_prefix_take_left hle).mem hs
    rw [List.take_succ_cons, List.mem_cons] at hmem
    refine Machine.missing_follow i (hmem.imp ?_ (h.kept s))
    rintro rfl
    rfl

/-- Transitions in one request, as many as there are results. -/
theorem advance (h : Aligned m₀ g m trail) (n : Nat) :
    ∃ trail', Aligned m₀ (g.grown (m.advance n).1.length) (m.advance n).2 trail' ∧
      (m.advance n).2.step = m.step + (m.advance n).1.length := by
  induction n generalizing m g trail with
  | zero => exact ⟨trail, h, rfl⟩
  | succ n ih =>
    cases hfin : m.finished with
    | true =>
      rw [Machine.advance_of_finished (n + 1) hfin]
      exact ⟨trail, h, rfl⟩
    | false =>
      obtain ⟨hf, i, hi⟩ := Machine.instruction_of_not_finished hfin
      obtain ⟨trail', halign, hstep⟩ := ih (h.follow hf hi)
      rw [Machine.advance_succ n hf hi]
      refine ⟨trail', halign, ?_⟩
      rw [hstep, List.length_cons]
      change m.step + 1 + _ = _
      omega

/-- With nothing to take back, a machine is at its first state or has lost its frames. -/
theorem nothing_left (h : Aligned m₀ g m trail) (hu : g.undoable = 0) :
    m.past = [] ∨ m.tape.journal.stack = [[]] := by
  have hback := h.back
  rw [hu] at hback
  cases trail with
  | nil => exact .inl h.past
  | cons s trail =>
    right
    generalize hj : m.tape.journal.stack = frames at hback
    cases hback with
    | lost => exact absurd hj (List.cons_ne_nil _ _)
    | standIn => rfl

/-- Then a step back fails for want of history. -/
theorem backOne_fails (h : Aligned m₀ g m trail) (hu : g.undoable = 0) :
    ∃ e, m.backOne = .error e ∧ e.kind = .outOfHistory := by
  unfold Machine.backOne
  cases hpast : m.past with
  | nil => exact ⟨.atInitialState, rfl, rfl⟩
  | cons q past =>
    have hstack := (h.nothing_left hu).resolve_left (by simp [hpast])
    exact ⟨.nothingToUndo, Machine.reverse_of_exhausted hstack, rfl⟩

/-- A step back removes a frame and a scene. -/
theorem backOne_succeeds (h : Aligned m₀ g m trail) (hu : 0 < g.undoable) :
    ∃ result before trail', m.backOne = .ok (result, before) ∧
      Aligned m₀ (g.lowered 1) before trail' ∧ m.step = before.step + 1 ∧
      before.tape.journal = m.tape.journal.dropFrame := by
  obtain ⟨u, hsucc⟩ := Nat.exists_eq_succ_of_ne_zero (Nat.ne_of_gt hu)
  have hback := h.back
  rw [hsucc] at hback
  obtain ⟨i, rest, s, trail', hframes, rfl, hscene, hrest⟩ := hback.newest
  have hcurrent : m.tape.journal.current = s.view.frameOf i := (List.cons.inj hframes).1
  have hearlier : m.tape.journal.earlier = rest := (List.cons.inj hframes).2
  have hstack : m.tape.journal.stack ≠ [[]] := by
    intro he
    rw [hframes] at he
    exact s.view.frameOf_ne_nil i (List.cons.inj he).1
  obtain ⟨r, hr⟩ := s.view.ofInverses_frameOf i
  rw [← hcurrent] at hr
  have hone : m.backOne = .ok (m.revertedResult s.state (trail'.map Scene.state) r,
      m.reverted s.state (trail'.map Scene.state)) := by
    rw [Machine.backOne, h.past, List.map_cons]
    exact Machine.reverse_of_recognised s.state (trail'.map Scene.state) hr hstack
  have hview : m.tape.undone.tape.view = s.view := by
    have hv : m.tape.tape.view = s.view.follow i := congrArg Scene.view hscene
    rw [LoggedTape.view_undone, hcurrent, hv, View.retract_frameOf]
  have hbefore : Scene.mk s.state m.tape.undone.tape.view = s := by rw [hview]
  refine ⟨_, _, trail', hone,
    ⟨h.program, h.finals, h.initialState, h.initialTape, ?_, ?_, rfl, ?_, ?_, ?_⟩, ?_, rfl⟩
  · exact (Journal.limit_dropFrame _).trans h.limit
  · change Trail m₀ (Scene.mk s.state m.tape.undone.tape.view :: trail')
    rw [hbefore]
    exact h.came.tail
  · change m.step - 1 = trail'.length
    rw [h.step, List.length_cons]
    omega
  · change Retraces _ (g.undoable - 1) m.tape.journal.dropFrame.stack
      (Scene.mk s.state m.tape.undone.tape.view :: trail')
    rw [hbefore, hsucc, Journal.stack_dropFrame, hearlier]
    split
    next he =>
      rw [he] at hrest
      exact hrest.emptied
    next => exact hrest
  · intro s' hs'
    refine Tape.missing_foldl_apply _ (h.kept s' ?_)
    rw [hsucc, List.take_succ_cons]
    exact List.mem_cons_of_mem s (by simpa [Gauge.lowered, hsucc] using hs')
  · change m.step = m.step - 1 + 1
    rw [h.step, List.length_cons]
    omega

/-- What taking back `k` transitions comes to. -/
structure Undid (m₀ : Machine) (g : Gauge) (m : Machine) (k : Nat) (before : Machine) : Prop where
  aligned : ∃ trail, Aligned m₀ (g.lowered k) before trail
  step : before.step + k = m.step
  journal : before.tape.journal = m.tape.journal.dropFrames k

theorem backMore (h : Aligned m₀ g m trail) (n : Nat) :
    ∃ results, (m.backMore n).1 = .ok results ∧ results.length = min n g.undoable ∧
      Undid m₀ g m (min n g.undoable) (m.backMore n).2 := by
  induction n generalizing m g trail with
  | zero =>
    rw [Nat.zero_min]
    exact ⟨[], rfl, rfl, ⟨trail, h⟩, rfl, rfl⟩
  | succ n ih =>
    by_cases hu : g.undoable = 0
    · obtain ⟨e, he, hk⟩ := h.backOne_fails hu
      rw [hu, Nat.min_zero]
      simp only [Machine.backMore, he, hk, ↓reduceIte]
      exact ⟨[], rfl, rfl, ⟨trail, h⟩, rfl, rfl⟩
    · obtain ⟨result, before, trail', hone, halign, hstep, hjournal⟩ :=
        h.backOne_succeeds (Nat.pos_of_ne_zero hu)
      obtain ⟨results, hresults, hlength, hundid⟩ := ih halign
      have hmin : min (n + 1) g.undoable = min n (g.lowered 1).undoable + 1 := by
        change _ = min n (g.undoable - 1) + 1
        omega
      simp only [Machine.backMore, hone, hresults]
      refine ⟨result :: results, rfl, by rw [List.length_cons, hlength, hmin], ?_, ?_, ?_⟩
      · have ha := hundid.aligned
        rw [Gauge.lowered_lowered, Nat.add_comm, ← hmin] at ha
        exact ha
      · have hs := hundid.step
        rw [hmin]
        omega
      · rw [hmin, hundid.journal, hjournal]
        rfl

/-- Going back as far as the gauge says. -/
theorem back_succeeds (h : Aligned m₀ g m trail) {n : Nat} (hn : n = 0 ∨ 0 < g.undoable) :
    ∃ results, (m.back n).1 = .ok results ∧ results.length = min n g.undoable ∧
      Undid m₀ g m (min n g.undoable) (m.back n).2 := by
  cases n with
  | zero => exact h.backMore 0
  | succ n =>
    have hu : 0 < g.undoable := hn.resolve_left (Nat.succ_ne_zero n)
    obtain ⟨result, before, _, hone, _⟩ := h.backOne_succeeds hu
    rw [Machine.back_of_backOne hone]
    exact h.backMore (n + 1)

theorem back_fails (h : Aligned m₀ g m trail) {n : Nat} (hn : 0 < n) (hu : g.undoable = 0) :
    ∃ e, m.back n = (.error e, m) ∧ e.kind = .outOfHistory := by
  obtain ⟨k, rfl⟩ := Nat.exists_eq_succ_of_ne_zero (Nat.ne_of_gt hn)
  obtain ⟨e, he, hk⟩ := h.backOne_fails hu
  refine ⟨e, ?_, hk⟩
  simp only [Machine.back, he]

/-- What a step back writes is stored, for it is a cell that a transition has written. -/
theorem missing_restored (h : Aligned m₀ g m trail) {i : Int}
    (hi : Course.back.writesAt? m = some i) : m.tape.tape.missing i = 0 := by
  obtain ⟨hpast, _, hrestored⟩ := Course.writesAt?_back_eq_some.mp hi
  cases hu : g.undoable with
  | zero =>
    have hstack := (h.nothing_left hu).resolve_left hpast
    rw [(List.cons.inj hstack).1] at hrestored
    cases hrestored
  | succ u =>
    have hback := h.back
    rw [hu] at hback
    obtain ⟨j, rest, s, trail', hframes, rfl, hscene, _⟩ := hback.newest
    have hcursor : m.tape.tape.cursor = (s.view.follow j).cursor :=
      congrArg (fun s => s.view.cursor) hscene
    rw [(List.cons.inj hframes).1, hcursor, View.restoredAt_frameOf] at hrestored
    cases hrestored
    refine h.kept s ?_
    rw [hu, List.take_succ_cons]
    exact List.mem_cons_self

/-- So going back never needs room for a cell. -/
theorem lacksCell (h : Aligned m₀ g m trail) (room : Room) (n : Nat) :
    room.lacksCell .back n m = false := by
  induction n generalizing m g trail with
  | zero => rfl
  | succ n ih =>
    have hfits : (Course.back.writesAt? m).any (!m.tape.tape.fits room ·) = false := by
      cases hi : Course.back.writesAt? m with
      | none => rfl
      | some i => simp [Tape.fits_iff.mpr (.inl (h.missing_restored hi))]
    rw [Room.lacksCell, hfits, if_neg Bool.false_ne_true]
    by_cases hu : g.undoable = 0
    · obtain ⟨e, he, _⟩ := h.backOne_fails hu
      simp only [Course.back, he]
    · obtain ⟨result, before, trail', hone, halign, _⟩ :=
        h.backOne_succeeds (Nat.pos_of_ne_zero hu)
      simp only [Course.back, hone]
      exact ih halign

theorem backIn (h : Aligned m₀ g m trail) {room : Room} {n : Nat} (hn : n ≤ room.results) :
    m.backIn room n = .ok (m.back n) := by
  rw [Machine.backIn_of_room room hn, h.lacksCell room n, if_neg Bool.false_ne_true]

theorem setLimit (h : Aligned m₀ g m trail) (limit : Option Nat) :
    Aligned m₀ ⟨capped limit g.undoable, limit⟩ (m.setLimit limit) trail where
  program := h.program
  finals := h.finals
  initialState := h.initialState
  initialTape := h.initialTape
  limit := Journal.limit_setLimit limit _
  came := h.came
  past := h.past
  step := h.step
  back := by
    change Retraces _ _ (m.tape.journal.setLimit limit).stack _
    rw [Journal.stack_setLimit]
    exact h.back.keep limit
  kept s hs := h.kept s ((List.take_prefix_take_left (capped_le limit g.undoable)).mem hs)

/-- Resetting starts a new trail with the frames and the limit of the first tape. -/
theorem reset (h : Aligned m₀ g m trail) (hf : Fresh m₀) :
    ∃ m', m.reset = .ok m' ∧ Aligned m₀ ⟨0, m₀.tape.journal.limit⟩ m' [] := by
  have hload : m.tape.load m.initialTape = .ok ⟨m₀.tape.tape.restored, m₀.tape.journal⟩ := by
    rw [h.initialTape, hf.tape]
    exact LoggedTape.load_toJson hf.storable m.tape
  have hscene : Scene.mk m.initialState m₀.tape.tape.restored.view = m₀.scene := by
    rw [h.initialState, hf.state, Tape.view_restored]
    rfl
  simp only [Machine.reset, hload, bind, Except.bind]
  refine ⟨_, rfl, h.program, h.finals, h.initialState, h.initialTape, rfl, ?_, rfl, rfl, ?_,
    fun s hs => by cases hs⟩
  · change Trail m₀ [Scene.mk m.initialState m₀.tape.tape.restored.view]
    rw [hscene]
    exact .start
  · exact .given (List.prefix_refl _) _

/-- The step counter tells how many transitions a command has executed. -/
theorem moved (h : Aligned m₀ g m trail) {m' : Machine} {n : Nat} (hm : m' = (m.advance n).2) :
    ∃ trail', Aligned m₀ (g.grown (m'.step - m.step)) m' trail' := by
  obtain ⟨trail', halign, hstep⟩ := h.advance n
  have hdiff : (m.advance n).2.step - m.step = (m.advance n).1.length := by omega
  rw [hm, hdiff]
  exact ⟨trail', halign⟩

/-- Every command leaves the machine aligned with its gauge. -/
theorem obey (h : Aligned m₀ g m trail) (hf : Fresh m₀) (c : Command) :
    ∃ trail', Aligned m₀ (g.next m₀.tape.journal.limit m c) (m.obey c).2 trail' := by
  cases c with
  | forth n => exact h.moved (m.forth_snd n)
  | run => exact h.moved m.run_snd
  | back n =>
    change ∃ trail', Aligned m₀ (g.lowered (m.step - (m.back n).2.step)) (m.back n).2 trail'
    by_cases hn : n = 0 ∨ 0 < g.undoable
    · obtain ⟨results, _, _, hundid⟩ := h.back_succeeds hn
      have hstep := hundid.step
      rw [show m.step - (m.back n).2.step = min n g.undoable by omega]
      exact hundid.aligned
    · obtain ⟨e, he, _⟩ := h.back_fails (n := n) (by omega) (by omega)
      rw [he, Nat.sub_self]
      exact ⟨trail, h⟩
  | reset =>
    obtain ⟨m', hm', halign⟩ := h.reset hf
    refine ⟨[], ?_⟩
    simp only [Machine.obey, hm']
    exact halign
  | setLimit limit => exact ⟨trail, h.setLimit (bound limit)⟩

/-- So does every sequence of commands. -/
theorem after (h : Aligned m₀ g m trail) (hf : Fresh m₀) (commands : List Command) :
    ∃ trail', Aligned m₀ (g.after m₀.tape.journal.limit commands m) (m.after commands) trail' := by
  induction commands generalizing m g trail with
  | nil => exact ⟨trail, h⟩
  | cons c commands ih =>
    obtain ⟨trail', halign⟩ := h.obey hf c
    exact ih halign

end Aligned

/-- Every machine that is made is fresh, and there is one if there is a final state. -/
theorem Machine.exists_new (program : Program) {tape : LoggedTape} {finals : List State}
    (initial : State) (ht : tape.Reachable) (hf : finals ≠ []) :
    ∃ m, Machine.new program tape finals initial = .ok m ∧ Fresh m ∧ m.program = program ∧
      m.finals = .ofList finals ∧ m.tape = tape ∧ m.state = initial := by
  have hfinals : finalSet finals = .ok (.ofList finals) := by
    rw [finalSet, if_neg (by simpa using hf)]
  simp only [Machine.new, hfinals, bind, Except.bind]
  exact ⟨_, rfl, ⟨rfl, rfl, rfl, rfl, ht.storable⟩, rfl, rfl, rfl, rfl⟩

/-- After any commands to a new machine that are answered in a room. The frames under those of its
own transitions were there before it. Going `n` steps back is answered exactly if there is room for
`n` results. Then it fails exactly if something is asked and the gauge is at zero, for want of
history and without effect; otherwise it takes back as many transitions as asked for and as the
gauge says, each with a result. It shows again what it showed after so many transitions, and has
dropped as many frames. -/
theorem back_reaches_retained (room : Room) (program : Program) (tape : LoggedTape)
    (finals : List State) (initial : State) (ht : tape.Reachable) (hf : finals ≠ []) :
    ∃ m₀, Machine.new program tape finals initial = .ok m₀ ∧
    ∀ (commands : List Command) (m : Machine), m₀.afterIn room commands = .ok m → ∀ n : Nat,
      let g := Gauge.after tape.journal.limit ⟨0, tape.journal.limit⟩ commands m₀
      let k := min n g.undoable
      m.tape.journal.limit = g.limit ∧
      (m.tape.journal.stack.drop g.undoable <+: tape.journal.stack ∨
        m.tape.journal.stack.drop g.undoable = [[]]) ∧
      (room.results < n → m.backIn room n = .error .results) ∧
      (n ≤ room.results → ∃ outcome before, m.backIn room n = .ok (outcome, before) ∧
        ((∃ e, outcome = .error e) ↔ 0 < n ∧ g.undoable = 0) ∧
        (∀ e, outcome = .error e → e.kind = .outOfHistory ∧ before = m) ∧
        (∀ results, outcome = .ok results → results.length = k) ∧
        before.step + k = m.step ∧
        (∃ trail, Trail m₀ (before.scene :: trail) ∧ trail.length = before.step) ∧
        before.tape.journal = m.tape.journal.dropFrames k) := by
  obtain ⟨m₀, hnew, hfresh, _, _, rfl, _⟩ := Machine.exists_new program initial ht hf
  refine ⟨m₀, hnew, fun commands m hm n => ?_⟩
  cases Machine.eq_after_of_afterIn hm
  obtain ⟨trail, h⟩ := (Aligned.start hfresh).after hfresh commands
  intro g k
  refine ⟨h.limit, h.back.drop, Machine.backIn_beyond_room room, fun hroom => ?_⟩
  have hanswer := h.backIn hroom
  by_cases hn : 0 < n ∧ g.undoable = 0
  · obtain ⟨e, he, hk⟩ := h.back_fails hn.1 hn.2
    have hzero : k = 0 := by
      change min n g.undoable = 0
      omega
    rw [he] at hanswer
    rw [hzero]
    refine ⟨.error e, _, hanswer, ⟨fun _ => hn, fun _ => ⟨e, rfl⟩⟩, ?_, ?_, rfl,
      ⟨trail, h.came, h.step.symm⟩, rfl⟩
    · rintro _ ⟨⟩
      exact ⟨hk, rfl⟩
    · rintro _ ⟨⟩
  · have hpos : n = 0 ∨ 0 < g.undoable := by omega
    obtain ⟨results, hback, hlength, hundid⟩ := h.back_succeeds hpos
    obtain ⟨trail', halign⟩ := hundid.aligned
    refine ⟨.ok results, _, hanswer.trans (congrArg Except.ok (Prod.ext hback rfl)),
      ⟨?_, fun hn' => absurd hn' hn⟩, ?_, ?_, hundid.step,
      ⟨trail', halign.came, halign.step.symm⟩, hundid.journal⟩
    · rintro ⟨_, ⟨⟩⟩
    · rintro _ ⟨⟩
    · rintro _ ⟨⟩
      exact hlength

theorem back_reaches_retained_strokes :
    Stroke.tape.Reachable ∧ [Stroke.ended] ≠ [] ∧
    ∃ m₀, Machine.new Stroke.program Stroke.tape [Stroke.ended] Stroke.going = .ok m₀ ∧
      ∃ m, m₀.afterIn .greatest Stroke.commands = .ok m ∧ 3 ≤ Room.greatest.results ∧
        ∃ results before, m.backIn .greatest 3 = .ok (.ok results, before) ∧
          results.length = 2 ∧ before.step + 2 = m.step := by
  obtain ⟨m₀, hnew, h⟩ := back_reaches_retained .greatest Stroke.program Stroke.tape [Stroke.ended]
    Stroke.going Stroke.reachable_tape (List.cons_ne_nil _ _)
  obtain ⟨m, hm⟩ : ∃ m, m₀.afterIn .greatest Stroke.commands = .ok m := by
    cases hnew
    exact ⟨_, rfl⟩
  have hgauge : (Gauge.after Stroke.tape.journal.limit ⟨0, Stroke.tape.journal.limit⟩
      Stroke.commands m₀).undoable = 2 := by
    cases hnew
    decide
  have hroom : 3 ≤ Room.greatest.results := by decide
  obtain ⟨_, _, _, hback⟩ := h Stroke.commands m hm 3
  obtain ⟨outcome, before, hanswer, hfail, _, hcount, hstep, _⟩ := hback hroom
  rw [hgauge] at hfail hcount hstep
  refine ⟨Stroke.reachable_tape, List.cons_ne_nil _ _, m₀, hnew, m, hm, hroom, ?_⟩
  cases outcome with
  | error e => exact absurd (hfail.mp ⟨e, rfl⟩).2 (by decide)
  | ok results => exact ⟨results, before, hanswer, hcount results rfl, hstep⟩

/-- A request to go back can stop where it should say that there is no history: no room holds as
many results as can be asked for, and room for them is set aside first. -/
theorem request_to_go_back_can_stop :
    ∃ m₀, Machine.new Stroke.program Stroke.tape [Stroke.ended] Stroke.going = .ok m₀ ∧
      (m₀.back greatestCount).1 = .error .atInitialState ∧
      ∀ room, m₀.backIn room greatestCount = .error .results := by
  obtain ⟨m₀, hnew⟩ : ∃ m₀,
      Machine.new Stroke.program Stroke.tape [Stroke.ended] Stroke.going = .ok m₀ := ⟨_, rfl⟩
  refine ⟨m₀, hnew, ?_, fun room => Machine.backIn_beyond_room room room.results_lt_greatestCount⟩
  cases hnew
  rfl

end TapeMachine
