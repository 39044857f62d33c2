import TapeMachine.Proofs.MachineDocument

/-!
How a request to go back ends. A single step ends in one of four ways, and the steps that
succeed make up a retreat. The request ends when there are enough of them, or in front of a
frame that cannot be taken back. Main statement: if it fails, the machine stays where the
retreat has taken it, so it is as before exactly if not even the first step was possible.
-/
namespace TapeMachine

/-- Steps back, one after the other, and their results. -/
inductive Retreat : Machine → List Transition → Machine → Prop where
  | stay (m : Machine) : Retreat m [] m
  | step {m before last : Machine} {result : Transition} {results : List Transition} :
      m.backOne = .ok (result, before) → Retreat before results last →
      Retreat m (result :: results) last

/-- How a request for `n` steps back ends after a retreat to `last`: with its results if they are
enough or history has run out, with an error if the next frame is not that of a transition. -/
inductive Concluded (n : Nat) (results : List Transition) (last : Machine) :
    Except Error (List Transition) → Prop where
  | enough (h : results.length = n) : Concluded n results last (.ok results)
  | exhausted {e : Error} (h : results.length < n) (he : last.backOne = .error e)
      (hk : e.kind = .outOfHistory) : Concluded n results last (.ok results)
  | foreign {e : Error} (h : results.length < n) (he : last.backOne = .error e)
      (hk : e.kind ≠ .outOfHistory) : Concluded n results last (.error e)

theorem Concluded.cons {n : Nat} {results : List Transition} {last : Machine}
    {outcome : Except Error (List Transition)} (h : Concluded n results last outcome)
    (result : Transition) :
    Concluded (n + 1) (result :: results) last (outcome.map (result :: ·)) := by
  cases h with
  | enough h => exact .enough (congrArg (· + 1) h)
  | exhausted h he hk => exact .exhausted (Nat.succ_lt_succ h) he hk
  | foreign h he hk => exact .foreign (Nat.succ_lt_succ h) he hk

namespace Retreat

variable {m last : Machine} {results : List Transition}

/-- Every step back takes one state off the past. -/
theorem length_past (h : Retreat m results last) :
    last.past.length + results.length = m.past.length := by
  induction h with
  | stay m => rfl
  | step hone _ ih =>
    obtain ⟨q, past, hpast, rfl⟩ := Machine.eq_reverted_of_backOne hone
    change _ = past.length at ih
    rw [hpast, List.length_cons, List.length_cons, ← ih]
    omega

/-- Nothing has changed exactly if no step has been done. -/
theorem eq_start_iff (h : Retreat m results last) : last = m ↔ results = [] := by
  constructor
  · intro he
    have hlength := h.length_past
    rw [he] at hlength
    exact List.eq_nil_of_length_eq_zero (by omega)
  · rintro rfl
    cases h
    rfl

theorem eq_nil_of_error (h : Retreat m results last) {e : Error} (he : m.backOne = .error e) :
    results = [] := by
  cases h with
  | stay => rfl
  | step hone _ =>
    rw [he] at hone
    cases hone

/-- A retreat leads from a reachable machine to another. -/
theorem reachable (h : Retreat m results last) (hm : m.Reachable) : last.Reachable := by
  induction h with
  | stay m => exact hm
  | @step m before last result results hone _ ih =>
    have hback : (m.obey (.back 1)).2 = before := by
      simp only [Machine.obey, Machine.back, hone]
      rfl
    exact ih (hback ▸ .obey (.back 1) hm)

end Retreat

/-- Operations that do not make up a transition are all told. -/
theorem Reversal.eq_foreignFrame_of_error {ops : List Operation} {e : Error}
    (h : ofInverses ops = .error e) : e = .foreignFrame ops := by
  unfold ofInverses at h
  split at h
  · cases h
  · cases h
    rfl

/-- A frame of which a machine can read the transition it is to take back. -/
def Recognised (frame : Frame) : Prop :=
  ∃ r, Reversal.ofInverses (frame.map Operation.inverse) = .ok r

/-- How a step back ends: at the first state, in front of a frame that no transition has left, in
front of none, or in the state before. -/
inductive StepBack (m : Machine) : Except Error (Transition × Machine) → Prop where
  | atStart (h : m.past = []) : StepBack m (.error .atInitialState)
  | foreign (h : m.past ≠ []) (hframe : ¬Recognised m.tape.journal.current) :
      StepBack m (.error (.foreignFrame m.tape.journal.inverses))
  | exhausted (h : m.past ≠ []) (hframe : Recognised m.tape.journal.current)
      (hstack : m.tape.journal.stack = [[]]) : StepBack m (.error .nothingToUndo)
  | done {q : State} {past : List State} {result : Transition} (h : m.past = q :: past)
      (hframe : Recognised m.tape.journal.current) (hstack : m.tape.journal.stack ≠ [[]]) :
      StepBack m (.ok (result, m.reverted q past))

namespace Machine

theorem stepBack_backOne (m : Machine) : StepBack m m.backOne := by
  unfold backOne
  split
  next hpast => exact .atStart hpast
  next q past hpast =>
    have hne : m.past ≠ [] := by simp [hpast]
    cases hr : Reversal.ofInverses m.tape.journal.inverses with
    | error e =>
      have hframe : ¬Recognised m.tape.journal.current := by
        rintro ⟨r, hok⟩
        cases hr.symm.trans hok
      have hback : m.reverse q past = .error (.foreignFrame m.tape.journal.inverses) := by
        simp only [reverse, hr, bind, Except.bind, Reversal.eq_foreignFrame_of_error hr]
      rw [hback]
      exact .foreign hne hframe
    | ok r =>
      by_cases hstack : m.tape.journal.stack = [[]]
      · rw [reverse_of_exhausted hstack]
        exact .exhausted hne ⟨r, hr⟩ hstack
      · rw [reverse_of_recognised q past hr hstack]
        exact .done hpast ⟨r, hr⟩ hstack

/-- A step back fails for want of history or because of the frame it would take back. -/
theorem backOne_error {m : Machine} {e : Error} (h : m.backOne = .error e) :
    e.kind = .outOfHistory ∨ e = .foreignFrame m.tape.journal.inverses := by
  have hstep := m.stepBack_backOne
  rw [h] at hstep
  cases hstep with
  | atStart => exact .inl rfl
  | foreign => exact .inr rfl
  | exhausted => exact .inl rfl

theorem backMore_concluded (n : Nat) (m : Machine) :
    ∃ results, Retreat m results (m.backMore n).2 ∧
      Concluded n results (m.backMore n).2 (m.backMore n).1 := by
  induction n generalizing m with
  | zero => exact ⟨[], .stay m, .enough rfl⟩
  | succ n ih =>
    cases hone : m.backOne with
    | error e =>
      simp only [backMore, hone]
      split
      next hk => exact ⟨[], .stay m, .exhausted n.succ_pos hone hk⟩
      next hk => exact ⟨[], .stay m, .foreign n.succ_pos hone hk⟩
    | ok first =>
      obtain ⟨result, before⟩ := first
      obtain ⟨results, hretreat, hend⟩ := ih before
      simp only [backMore, hone]
      exact ⟨result :: results, .step hone hretreat, hend.cons result⟩

/-- Either the first step fails and nothing happens, or all steps end alike. -/
theorem back_concluded (n : Nat) (m : Machine) :
    (∃ e, 0 < n ∧ m.backOne = .error e ∧ m.back n = (.error e, m)) ∨
    ∃ results, Retreat m results (m.back n).2 ∧
      Concluded n results (m.back n).2 (m.back n).1 := by
  cases n with
  | zero => exact .inr ⟨[], .stay m, .enough rfl⟩
  | succ n =>
    cases hone : m.backOne with
    | error e =>
      refine .inl ⟨e, n.succ_pos, rfl, ?_⟩
      simp only [back, hone]
    | ok first =>
      rw [back_of_backOne hone]
      exact .inr (m.backMore_concluded (n + 1))

end Machine

/-- What a request to go back comes to, whatever has been done to the tape. If it succeeds, there
is a result to every step that was done. If it fails, the machine stays where the steps before the
failing one have taken it: it is as before exactly if not even the first step was possible, which
is so whenever history has run out, and otherwise the frame in front of it is not that of a
transition. -/
theorem failed_back_unchanged_iff (m : Machine) (n : Nat) :
    (∀ results, (m.back n).1 = .ok results → Retreat m results (m.back n).2) ∧
    ∀ e, (m.back n).1 = .error e →
      ((m.back n).2 = m ↔ m.backOne = .error e) ∧
      (e.kind = .outOfHistory → (m.back n).2 = m) ∧
      ∃ results, Retreat m results (m.back n).2 ∧ results.length < n ∧
        (m.back n).2.backOne = .error e ∧
        (results ≠ [] → e = .foreignFrame (m.back n).2.tape.journal.inverses) := by
  rcases m.back_concluded n with ⟨e, hn, hone, hback⟩ | ⟨results, hretreat, hend⟩
  · rw [hback]
    constructor
    · intro results hr
      cases hr
    · intro e' he'
      cases he'
      exact ⟨⟨fun _ => hone, fun _ => rfl⟩, fun _ => rfl, [], .stay m, hn, hone,
        fun h => absurd rfl h⟩
  · generalize hout : (m.back n).1 = outcome at hend
    constructor
    · intro results' hr
      cases hr
      cases hend <;> exact hretreat
    · intro e he
      cases he
      -- want of history ends a request with results, so only a foreign frame is left
      cases hend with
      | foreign hlength hone hk =>
        refine ⟨⟨fun hsame => ?_, fun hfirst => ?_⟩, fun hk' => absurd hk' hk, results, hretreat,
          hlength, hone, fun _ => (Machine.backOne_error hone).resolve_left hk⟩
        · rw [hsame] at hone
          exact hone
        · exact hretreat.eq_start_iff.mpr (hretreat.eq_nil_of_error hfirst)

/-- Two transitions, between which somebody has moved the head by two cells. -/
def Stroke.meddled (m : Machine) : Machine :=
  let m := m.after [.forth 1]
  { m with tape := (Edit.head (.right 2)).perform m.tape }.after [.forth 1]

theorem Stroke.reachable_meddled {m : Machine} (h : m.Reachable) : (meddled m).Reachable :=
  (Machine.Reachable.editTape _ (h.after _)).after _

theorem failed_back_unchanged_iff_meddled :
    ∃ m₀, Machine.new Stroke.program Stroke.tape [Stroke.ended] Stroke.going = .ok m₀ ∧
      ∃ e results, ((Stroke.meddled m₀).back 2).1 = .error e ∧
        (Stroke.meddled m₀).backOne ≠ .error e ∧ results ≠ [] ∧
        Retreat (Stroke.meddled m₀) results ((Stroke.meddled m₀).back 2).2 ∧
        e = .foreignFrame ((Stroke.meddled m₀).back 2).2.tape.journal.inverses := by
  obtain ⟨m₀, hnew⟩ : ∃ m₀,
      Machine.new Stroke.program Stroke.tape [Stroke.ended] Stroke.going = .ok m₀ := ⟨_, rfl⟩
  obtain ⟨e, hfail⟩ : ∃ e, ((Stroke.meddled m₀).back 2).1 = .error e := by
    cases hnew
    exact ⟨_, rfl⟩
  have hstep : ((Stroke.meddled m₀).back 2).2.step ≠ (Stroke.meddled m₀).step := by
    cases hnew
    decide
  obtain ⟨hsame, _, results, hretreat, _, _, hforeign⟩ :=
    (failed_back_unchanged_iff (Stroke.meddled m₀) 2).2 e hfail
  have hchanged : ((Stroke.meddled m₀).back 2).2 ≠ Stroke.meddled m₀ :=
    fun he => hstep (congrArg Machine.step he)
  have hdone : results ≠ [] := fun hnil => hchanged (hretreat.eq_start_iff.mpr hnil)
  exact ⟨m₀, hnew, e, results, hfail, fun hone => hchanged (hsame.mpr hone), hdone, hretreat,
    hforeign hdone⟩

/-- A failed request can have gone back: the frame with the move of two cells is only looked at
after the newest one has been taken back. -/
theorem failed_back_can_change :
    ¬∀ (m : Machine) (n : Nat) (e : Error), m.Reachable → (m.back n).1 = .error e →
      (m.back n).2.tape = m.tape ∧ (m.back n).2.stateHistory = m.stateHistory ∧
        (m.back n).2.step = m.step := by
  intro h
  obtain ⟨m₀, hnew⟩ : ∃ m₀,
      Machine.new Stroke.program Stroke.tape [Stroke.ended] Stroke.going = .ok m₀ := ⟨_, rfl⟩
  have hreachable := Stroke.reachable_meddled (.new Stroke.reachable_tape hnew)
  cases hnew
  -- the counter tells: it has gone down by one
  have hstep := (h _ 2 _ hreachable rfl).2.2
  revert hstep
  decide

end TapeMachine
