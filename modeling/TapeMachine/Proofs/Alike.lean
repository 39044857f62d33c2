import TapeMachine.Proofs.MachineDocument

/-!
Machines that only differ in how their tapes are stored and in the cap on runs. They give
the same answers and stay alike whatever they are told, runs apart, and they have the same
document. A machine and the one that is read back from its document are such a pair.
-/
namespace TapeMachine

/-- Tapes that show and remember the same, wherever the cells are stored. -/
structure LoggedTape.Alike (t u : LoggedTape) : Prop where
  view : t.tape.view = u.tape.view
  journal : t.journal = u.journal

namespace LoggedTape.Alike

variable {t u : LoggedTape} (h : t.Alike u)
include h

theorem blank : t.tape.blank = u.tape.blank := congrArg View.blank h.view

theorem cursor : t.tape.cursor = u.tape.cursor := congrArg View.cursor h.view

theorem cell : t.tape.cell = u.tape.cell := congrArg View.cells h.view

theorem read : t.tape.read = u.tape.read := congrArg View.read h.view

theorem write (s : Symbol) : (t.write s).Alike (u.write s) where
  view := by
    change (t.tape.write s).view = (u.tape.write s).view
    rw [Tape.view_write, Tape.view_write, h.view]
  journal := by simp only [LoggedTape.write, h.cell, h.cursor, h.journal]

theorem moveTo (p : Position) : (t.moveTo p).Alike (u.moveTo p) where
  view := by
    change (t.tape.moveTo p).view = (u.tape.moveTo p).view
    rw [Tape.view_moveTo, Tape.view_moveTo, h.view]
  journal := by simp only [LoggedTape.moveTo, h.cursor, h.journal]

theorem moveBy (motion : Motion) :
    (HasHead.moveBy motion t).Alike (HasHead.moveBy motion u) := by
  cases motion with
  | left =>
    change (t.left 1).Alike (u.left 1)
    rw [LoggedTape.left, LoggedTape.left, h.cursor]
    exact h.moveTo _
  | right =>
    change (t.right 1).Alike (u.right 1)
    rw [LoggedTape.right, LoggedTape.right, h.cursor]
    exact h.moveTo _
  | stop => exact h
  | halt => exact h

theorem snapshot : t.snapshot.Alike u.snapshot where
  view := h.view
  journal := congrArg Journal.openFrame h.journal

theorem setLimit (limit : Option Nat) : (t.setLimit limit).Alike (u.setLimit limit) where
  view := h.view
  journal := congrArg (Journal.setLimit limit) h.journal

theorem undone : t.undone.Alike u.undone where
  view := by rw [view_undone, view_undone, h.view, h.journal]
  journal := congrArg Journal.dropFrame h.journal

/-- A document takes no more than the blank and the limit from the tape that reads it. -/
theorem load (v : Json) : t.load v = u.load v := by
  simp only [LoggedTape.load, Tape.load, h.blank, h.journal]

theorem toJson : t.toJson = u.toJson := toJson_congr h.view h.journal

end LoggedTape.Alike

/-- Machines with the same parts, but for the storage of the tape and the cap on runs. -/
structure Machine.Alike (m n : Machine) : Prop where
  program : m.program = n.program
  tape : m.tape.Alike n.tape
  finals : m.finals = n.finals
  initialState : m.initialState = n.initialState
  initialTape : m.initialTape = n.initialTape
  state : m.state = n.state
  past : m.past = n.past
  step : m.step = n.step
  name : m.name = n.name

namespace Machine.Alike

variable {m n : Machine} (h : m.Alike n)
include h

theorem instruction? : m.instruction? = n.instruction? := by
  simp only [Machine.instruction?, h.program, h.tape.read, h.state]

theorem atFinal : m.atFinal = n.atFinal := by
  simp only [Machine.atFinal, h.finals, h.state]

theorem atUndefined : m.atUndefined = n.atUndefined := congrArg Option.isNone h.instruction?

theorem finished : m.finished = n.finished := by
  simp only [Machine.finished, h.atFinal, h.atUndefined]

theorem toJson : m.toJson = n.toJson := by
  simp only [Machine.toJson, stateHistory, h.program, h.tape.toJson, h.finals, h.initialState,
    h.initialTape, h.state, h.past, h.step, h.name]

theorem follow (i : Instruction) : (m.follow i).Alike (n.follow i) where
  program := h.program
  tape := (h.tape.snapshot.write i.write).moveBy i.motion
  finals := h.finals
  initialState := h.initialState
  initialTape := h.initialTape
  state := rfl
  past := by simp only [Machine.follow, h.state, h.past]
  step := congrArg (· + 1) h.step
  name := h.name

theorem perform (i : Instruction) : (m.perform i).1 = (n.perform i).1 := by
  have hnext := h.follow i
  simp only [Machine.perform, h.tape.read, h.state, hnext.step, hnext.atUndefined, hnext.atFinal]

theorem advance (k : Nat) :
    (m.advance k).1 = (n.advance k).1 ∧ (m.advance k).2.Alike (n.advance k).2 := by
  obtain ⟨hresults, _, hlast⟩ := advance_relates (R := fun _ => Alike)
    (fun _ _ _ h => ⟨h.atFinal, h.instruction?⟩)
    (fun _ _ _ i h _ _ => ⟨h.perform i, h.follow i⟩) k h
  exact ⟨hresults, hlast⟩

theorem forth (k : Nat) :
    (m.forth k).1 = (n.forth k).1 ∧ (m.forth k).2.Alike (n.forth k).2 := by
  have hadvance := h.advance k
  rw [forth_snd, forth_snd]
  refine ⟨?_, hadvance.2⟩
  simp only [Machine.forth, h.finished]
  split
  · rfl
  · exact congrArg some hadvance.1

theorem reverted (q : State) (past : List State) :
    (m.reverted q past).Alike (n.reverted q past) where
  program := h.program
  tape := h.tape.undone
  finals := h.finals
  initialState := h.initialState
  initialTape := h.initialTape
  state := rfl
  past := rfl
  step := congrArg (· - 1) h.step
  name := h.name

theorem revertedResult (q : State) (past : List State) (r : Reversal) :
    m.revertedResult q past r = n.revertedResult q past r := by
  have hbefore := h.reverted q past
  have hblank := hbefore.tape.blank
  have hread := hbefore.tape.read
  unfold Machine.revertedResult
  simp only [hblank, hread, h.tape.read, h.state, hbefore.step, hbefore.atUndefined,
    hbefore.atFinal]

/-- Taking a transition back fails for both in the same way, or gives both the same result. -/
theorem reverse (q : State) (past : List State) :
    (∃ e, m.reverse q past = .error e ∧ n.reverse q past = .error e) ∨
    ∃ result m' n', m.reverse q past = .ok (result, m') ∧ n.reverse q past = .ok (result, n') ∧
      m'.Alike n' := by
  have hjournal := h.tape.journal
  by_cases hstack : m.tape.journal.stack = [[]]
  · left
    have hstack' : n.tape.journal.stack = [[]] := by
      rw [← hjournal]
      exact hstack
    exact ⟨_, reverse_of_exhausted hstack, reverse_of_exhausted hstack'⟩
  · have hstack' : n.tape.journal.stack ≠ [[]] := by
      rw [← hjournal]
      exact hstack
    -- Both look at the same frame first, which need not be that of a transition.
    cases hr : Reversal.ofInverses m.tape.journal.inverses with
    | error e =>
      left
      refine ⟨e, ?_, ?_⟩
      · simp only [Machine.reverse, hr, bind, Except.bind]
      · simp only [Machine.reverse, ← hjournal, hr, bind, Except.bind]
    | ok r =>
      right
      have hbefore := h.reverted q past
      refine ⟨_, _, _, reverse_of_recognised q past hr hstack, ?_, hbefore⟩
      rw [hjournal] at hr
      rw [reverse_of_recognised q past hr hstack', h.revertedResult]

/-- A step back fails for both in the same way, or succeeds for both with the same result. -/
theorem backOne :
    (∃ e, m.backOne = .error e ∧ n.backOne = .error e) ∨
    ∃ result m' n', m.backOne = .ok (result, m') ∧ n.backOne = .ok (result, n') ∧
      m'.Alike n' := by
  unfold Machine.backOne
  rw [h.past]
  cases n.past with
  | nil => exact .inl ⟨_, rfl, rfl⟩
  | cons q past => exact h.reverse q past

theorem backMore (k : Nat) :
    (m.backMore k).1 = (n.backMore k).1 ∧ (m.backMore k).2.Alike (n.backMore k).2 := by
  induction k generalizing m n with
  | zero => exact ⟨rfl, h⟩
  | succ k ih =>
    rcases h.backOne with ⟨e, hm, hn⟩ | ⟨result, m', n', hm, hn, hbefore⟩
    · simp only [Machine.backMore, hm, hn]
      split <;> exact ⟨rfl, h⟩
    · have hrest := ih hbefore
      simp only [Machine.backMore, hm, hn]
      exact ⟨congrArg _ hrest.1, hrest.2⟩

theorem back (k : Nat) :
    (m.back k).1 = (n.back k).1 ∧ (m.back k).2.Alike (n.back k).2 := by
  cases k with
  | zero => exact ⟨rfl, h⟩
  | succ k =>
    rcases h.backOne with ⟨e, hm, hn⟩ | ⟨result, m', n', hm, hn, _⟩
    · simp only [Machine.back, hm, hn]
      exact ⟨trivial, h⟩
    · rw [back_of_backOne hm, back_of_backOne hn]
      exact h.backMore (k + 1)

/-- Resetting fails for both in the same way, or succeeds for both. -/
theorem reset :
    (∃ e, m.reset = .error e ∧ n.reset = .error e) ∨
    ∃ m' n', m.reset = .ok m' ∧ n.reset = .ok n' ∧ m'.Alike n' := by
  have hload : m.tape.load m.initialTape = n.tape.load n.initialTape := by
    rw [h.initialTape]
    exact h.tape.load n.initialTape
  unfold Machine.reset
  rw [hload]
  cases n.tape.load n.initialTape with
  | error e => exact .inl ⟨e, rfl, rfl⟩
  | ok tape =>
    right
    exact ⟨_, _, rfl, rfl, h.program, ⟨rfl, rfl⟩, h.finals, h.initialState, h.initialTape,
      h.initialState, rfl, rfl, h.name⟩

/-- To every command but a run both give the same answer, and they stay alike. -/
theorem obey {c : Command} (hc : c ≠ .run) :
    (m.obey c).1 = (n.obey c).1 ∧ (m.obey c).2.Alike (n.obey c).2 := by
  cases c with
  | forth k =>
    have hforth := h.forth k
    exact ⟨congrArg Answer.forth hforth.1, hforth.2⟩
  | back k =>
    have hback := h.back k
    exact ⟨congrArg Answer.back hback.1, hback.2⟩
  | run => exact absurd rfl hc
  | reset =>
    rcases h.reset with ⟨e, hm, hn⟩ | ⟨m', n', hm, hn, hreset⟩
    · simp only [Machine.obey, hm, hn]
      exact ⟨trivial, h⟩
    · simp only [Machine.obey, hm, hn]
      exact ⟨rfl, hreset⟩
  | setLimit limit =>
    exact ⟨rfl, h.program, h.tape.setLimit _, h.finals, h.initialState, h.initialTape, h.state,
      h.past, h.step, h.name⟩

/-- So it is for every sequence of commands without runs. -/
theorem after {commands : List Command} (hc : Command.run ∉ commands) :
    m.answers commands = n.answers commands ∧ (m.after commands).Alike (n.after commands) := by
  induction commands generalizing m n with
  | nil => exact ⟨rfl, h⟩
  | cons c commands ih =>
    have hfirst : c ≠ .run := fun he => hc (he ▸ List.mem_cons_self)
    have hrest : Command.run ∉ commands := fun hmem => hc (List.mem_cons_of_mem c hmem)
    obtain ⟨hanswer, hobey⟩ := h.obey hfirst
    obtain ⟨hanswers, hafter⟩ := ih hobey hrest
    refine ⟨?_, hafter⟩
    rw [answers, answers, hanswer, hanswers]

end Machine.Alike

theorem Machine.alike_restored (m : Machine) : m.restored.Alike m :=
  ⟨rfl, ⟨m.tape.tape.view_restored, rfl⟩, rfl, rfl, rfl, rfl, rfl, rfl, rfl⟩

/-- A reachable machine, whose step counter has 64 bits, is read back from its document as a
machine with the same document. To any further commands but runs, for which the cap is missing in
the document, both give the same answers, and their documents stay the same. -/
theorem reloaded_behaves_alike {m : Machine} (h : m.Reachable) (hstep : m.step ≤ greatestCount) :
    ∃ m', Machine.ofJson m.toJson = .ok m' ∧ m'.toJson = m.toJson ∧
      ∀ commands : List Command, Command.run ∉ commands →
        m'.answers commands = m.answers commands ∧
        (m'.after commands).toJson = (m.after commands).toJson := by
  have halike := m.alike_restored
  refine ⟨m.restored, Machine.ofJson_toJson h.storable hstep, halike.toJson, ?_⟩
  intro commands hc
  obtain ⟨hanswers, hafter⟩ := halike.after hc
  exact ⟨hanswers, hafter.toJson⟩

theorem reloaded_behaves_alike_strokes :
    ∃ m₀, Machine.new Stroke.program Stroke.tape [Stroke.ended] Stroke.going = .ok m₀ ∧
      (m₀.after Stroke.commands).Reachable ∧
      (m₀.after Stroke.commands).step ≤ greatestCount ∧
      ∃ m', Machine.ofJson (m₀.after Stroke.commands).toJson = .ok m' ∧
        m'.answers [.back 1, .back 2, .forth 1, .reset] =
          (m₀.after Stroke.commands).answers [.back 1, .back 2, .forth 1, .reset] := by
  obtain ⟨m₀, hnew⟩ : ∃ m₀,
      Machine.new Stroke.program Stroke.tape [Stroke.ended] Stroke.going = .ok m₀ := ⟨_, rfl⟩
  have hreachable := (Machine.Reachable.new Stroke.reachable_tape hnew).after Stroke.commands
  cases hnew
  obtain ⟨m', hread, _, h⟩ := reloaded_behaves_alike hreachable (by decide)
  have hanswers := (h [.back 1, .back 2, .forth 1, .reset] (by simp)).1
  exact ⟨_, rfl, hreachable, by decide, m', hread, hanswers⟩

end TapeMachine
