import TapeMachine.Machine.Back
import TapeMachine.Machine.Run
import TapeMachine.Proofs.Edit

/-!
Sequences of commands to a machine: steps forward and back, runs, resets and changes of
the limit, in any order. A command that fails leaves the machine where it is. Whatever
drives a machine forward, it does so by single transitions.
-/
namespace TapeMachine

inductive Command where
  | forth (n : Nat)
  | back (n : Nat)
  | run
  | reset
  | setLimit (limit : Option Count)

/-- What a machine answers to a command. -/
inductive Answer where
  | forth (results : Option (List Transition))
  | back (results : Except Error (List Transition))
  | run (halt : Halt)
  | reset (outcome : Except Error Unit)
  | setLimit

namespace Machine

def setLimit (limit : Option Nat) (m : Machine) : Machine :=
  { m with tape := m.tape.setLimit limit }

def obey (m : Machine) : Command → Answer × Machine
  | .forth n => (m.forth n).map .forth id
  | .back n => (m.back n).map .back id
  | .run => m.run.map .run id
  | .reset => (.reset (discard m.reset), settled m m.reset)
  | .setLimit limit => (.setLimit, m.setLimit (bound limit))

/-- The machine after commands, one by one. -/
def after (commands : List Command) (m : Machine) : Machine :=
  commands.foldl (fun m c => (m.obey c).2) m

/-- The answers to commands, one by one. -/
def answers : List Command → Machine → List Answer
  | [], _ => []
  | c :: commands, m => (m.obey c).1 :: answers commands (m.obey c).2

/-- How many transitions are executed in the course of commands. A command executes as many as it
raises the step counter. -/
def executed : List Command → Machine → Nat
  | [], _ => 0
  | c :: commands, m => ((m.obey c).2.step - m.step) + executed commands (m.obey c).2

theorem advance_of_finished (n : Nat) {m : Machine} (h : m.finished = true) :
    m.advance n = ([], m) := by
  cases n with
  | zero => rfl
  | succ n =>
    unfold finished atUndefined at h
    unfold advance
    by_cases hf : m.atFinal = true
    · rw [if_pos hf]
    · have hi : m.instruction? = none := by simpa [hf] using h
      rw [if_neg hf, hi]

theorem instruction_of_not_finished {m : Machine} (h : m.finished = false) :
    m.atFinal = false ∧ ∃ i, m.instruction? = some i := by
  simpa [finished, atUndefined, Option.isSome_iff_exists] using h

theorem advance_succ (n : Nat) {m : Machine} {i : Instruction} (hf : m.atFinal = false)
    (hi : m.instruction? = some i) :
    m.advance (n + 1) =
      ((m.perform i).1 :: ((m.follow i).advance n).1, ((m.follow i).advance n).2) := by
  simp only [advance, hf, hi, Bool.false_eq_true, ↓reduceIte]
  rfl

theorem forth_snd (n : Nat) (m : Machine) : (m.forth n).2 = (m.advance n).2 := by
  unfold forth
  split
  next h => rw [advance_of_finished n h]
  next => rfl

theorem forth_of_finished (n : Nat) {m : Machine} (h : m.finished = true) :
    m.forth n = (none, m) := by
  rw [forth, if_pos h]

theorem forth_of_not_finished (n : Nat) {m : Machine} (h : m.finished = false) :
    m.forth n = (some (m.advance n).1, (m.advance n).2) := by
  rw [forth, if_neg (by rw [h]; exact Bool.false_ne_true)]

/-- One transition in one request. -/
theorem forth_one {m : Machine} {i : Instruction} (hf : m.atFinal = false)
    (hi : m.instruction? = some i) : m.forth 1 = (some [(m.perform i).1], m.follow i) := by
  have hfin : m.finished = false := by simp [finished, atUndefined, hf, hi]
  rw [forth_of_not_finished 1 hfin, advance_succ 0 hf hi]
  rfl

/-- Single steps go as far as as many transitions in one request. -/
theorem settle_eq_advance (n : Nat) (m : Machine) : m.settle n = (m.advance n).2 := by
  induction n generalizing m with
  | zero => rfl
  | succ n ih =>
    cases hfin : m.finished with
    | true =>
      rw [advance_of_finished (n + 1) hfin]
      simp only [settle, forth_of_finished 1 hfin]
    | false =>
      obtain ⟨hf, i, hi⟩ := instruction_of_not_finished hfin
      rw [advance_succ n hf hi, ← ih]
      simp only [settle, forth_one hf hi]

theorem run_snd (m : Machine) : m.run.2 = (m.advance m.cap).2 :=
  m.settle_eq_advance m.cap

/-- The machine without its newest frame, in the state before. -/
def reverted (m : Machine) (q : State) (past : List State) : Machine :=
  { m with tape := m.tape.undone, state := q, past, step := m.step - 1 }

theorem reverse_of_exhausted {m : Machine} {q : State} {past : List State}
    (h : m.tape.journal.stack = [[]]) : m.reverse q past = .error .nothingToUndo := by
  have hcurrent : m.tape.journal.current = [] := (List.cons.inj h).1
  have hr : Reversal.ofInverses m.tape.journal.inverses = .ok ⟨none, none⟩ := by
    rw [Journal.inverses, hcurrent]
    rfl
  simp only [reverse, hr, LoggedTape.undo_of_exhausted h, bind, Except.bind]

/-- What is told about a transition that has been taken back. -/
def revertedResult (m : Machine) (q : State) (past : List State) (r : Reversal) : Transition :=
  let before := m.reverted q past
  let blank := before.tape.tape.blank
  let (oldValue, newValue) := match r.cells with
    | some (old, new) => (old.getD blank, new.getD blank)
    | none => (m.tape.tape.read, before.tape.tape.read)
  { oldValue, newValue
    oldState := m.state
    motion := r.motion
    newState := q
    step := before.step
    nextUndefined := before.atUndefined
    nextFinal := before.atFinal }

theorem reverse_of_recognised {m : Machine} (q : State) (past : List State) {r : Reversal}
    (hr : Reversal.ofInverses m.tape.journal.inverses = .ok r)
    (h : m.tape.journal.stack ≠ [[]]) :
    m.reverse q past = .ok (m.revertedResult q past r, m.reverted q past) := by
  simp only [reverse, hr, LoggedTape.undo_of_not_exhausted h, bind, Except.bind]
  rfl

/-- After a step back has been possible, the first is like all others. -/
theorem back_of_backOne {m before : Machine} {result : Transition}
    (h : m.backOne = .ok (result, before)) (n : Nat) : m.back (n + 1) = m.backMore (n + 1) := by
  simp only [back, backMore, h]

theorem eq_reverted_of_reverse {m before : Machine} {q : State} {past : List State}
    {result : Transition} (h : m.reverse q past = .ok (result, before)) :
    before = m.reverted q past := by
  obtain ⟨r, hr, h⟩ := bind_eq_ok.mp h
  obtain ⟨⟨inverses, tape⟩, hu, h⟩ := bind_eq_ok.mp h
  by_cases hx : m.tape.journal.stack = [[]]
  · rw [LoggedTape.undo_of_exhausted hx] at hu
    cases hu
  · rw [LoggedTape.undo_of_not_exhausted hx] at hu
    cases hu
    cases h
    rfl

/-- A step back can only lead to the state before. -/
theorem eq_reverted_of_backOne {m before : Machine} {result : Transition}
    (h : m.backOne = .ok (result, before)) :
    ∃ q past, m.past = q :: past ∧ before = m.reverted q past := by
  unfold backOne at h
  split at h
  · cases h
  next q past hpast => exact ⟨q, past, hpast, eq_reverted_of_reverse h⟩

/-- What one transition preserves, all transitions preserve. -/
theorem advance_preserves {P : Machine → Prop}
    (step : ∀ m i, m.atFinal = false → m.instruction? = some i → P m → P (m.follow i))
    (n : Nat) {m : Machine} (h : P m) : P (m.advance n).2 := by
  induction n generalizing m with
  | zero => exact h
  | succ n ih =>
    cases hfin : m.finished with
    | true =>
      rw [advance_of_finished (n + 1) hfin]
      exact h
    | false =>
      obtain ⟨hf, i, hi⟩ := instruction_of_not_finished hfin
      rw [advance_succ n hf hi]
      exact ih (step m i hf hi h)

/-- Machines of which each step does the same to both do the same in all steps. The relation may
count the steps for which it holds out. -/
theorem advance_relates {R : Nat → Machine → Machine → Prop}
    (same : ∀ k m n, R k m n → m.atFinal = n.atFinal ∧ m.instruction? = n.instruction?)
    (step : ∀ k m n i, R (k + 1) m n → m.atFinal = false → m.instruction? = some i →
      (m.perform i).1 = (n.perform i).1 ∧ R k (m.follow i) (n.follow i))
    (k : Nat) {m n : Machine} (h : R k m n) :
    (m.advance k).1 = (n.advance k).1 ∧ ∃ j, R j (m.advance k).2 (n.advance k).2 := by
  induction k generalizing m n with
  | zero => exact ⟨rfl, 0, h⟩
  | succ k ih =>
    obtain ⟨hfinal, hinstruction⟩ := same (k + 1) m n h
    cases hfin : m.finished with
    | true =>
      have hfin' : n.finished = true := by
        rw [← hfin]
        simp only [finished, atUndefined, hfinal, hinstruction]
      rw [advance_of_finished (k + 1) hfin, advance_of_finished (k + 1) hfin']
      exact ⟨rfl, k + 1, h⟩
    | false =>
      obtain ⟨hf, i, hi⟩ := instruction_of_not_finished hfin
      obtain ⟨hresult, hnext⟩ := step k m n i h hf hi
      obtain ⟨hresults, hlast⟩ := ih hnext
      rw [advance_succ k hf hi, advance_succ k (hfinal.symm.trans hf) (hinstruction.symm.trans hi)]
      refine ⟨?_, hlast⟩
      rw [hresult, hresults]

theorem backMore_preserves {P : Machine → Prop}
    (step : ∀ m result before, m.backOne = .ok (result, before) → P m → P before)
    (n : Nat) {m : Machine} (h : P m) : P (m.backMore n).2 := by
  induction n generalizing m with
  | zero => exact h
  | succ n ih =>
    cases hone : m.backOne with
    | error e =>
      simp only [backMore, hone]
      split <;> exact h
    | ok result =>
      simp only [backMore, hone]
      exact ih (step m _ _ hone h)

/-- What one step back preserves, all steps back preserve. -/
theorem back_preserves {P : Machine → Prop}
    (step : ∀ m result before, m.backOne = .ok (result, before) → P m → P before)
    (n : Nat) {m : Machine} (h : P m) : P (m.back n).2 := by
  cases n with
  | zero => exact h
  | succ n =>
    cases hone : m.backOne with
    | error e =>
      simp only [back, hone]
      exact h
    | ok result =>
      rw [back_of_backOne hone]
      exact backMore_preserves step (n + 1) h

/-- What single steps, resets and changes of the limit preserve, every command preserves. -/
theorem obey_preserves {P : Machine → Prop}
    (follow : ∀ m i, m.atFinal = false → m.instruction? = some i → P m → P (m.follow i))
    (backOne : ∀ m result before, m.backOne = .ok (result, before) → P m → P before)
    (reset : ∀ m m', m.reset = .ok m' → P m → P m')
    (setLimit : ∀ m limit, P m → P (m.setLimit (bound limit)))
    (c : Command) {m : Machine} (h : P m) : P (m.obey c).2 := by
  cases c with
  | forth n =>
    change P (m.forth n).2
    rw [forth_snd]
    exact advance_preserves follow n h
  | back n => exact back_preserves backOne n h
  | run =>
    change P m.run.2
    rw [run_snd]
    exact advance_preserves follow m.cap h
  | reset =>
    change P (settled m m.reset)
    cases hm : m.reset with
    | error e => exact h
    | ok m' => exact reset m m' hm h
  | setLimit limit => exact setLimit m limit h

end Machine

namespace Stroke

/-! A machine that crosses out a row of strokes and ends behind it. -/

def going : State := ⟨"go", by decide, by decide⟩

def ended : State := ⟨"end", by decide, by decide⟩

def program : Program :=
  .ofRows [⟨.ofText "1", going, .ofText "x", .right, going⟩,
    ⟨.space, going, .ofText "!", .left, ended⟩]

/-- Three strokes, with frames of the tape's own. -/
def tape : LoggedTape :=
  Edit.performAll [.head (.fill [.ofText "1", .ofText "1", .ofText "1"]), .snapshot, .snapshot]
    (.recording (.empty .space) none)

theorem reachable_tape : tape.Reachable :=
  (LoggedTape.Reachable.recording none (.empty .space)).performAll _

/-- With one frame kept, two steps back are too many; the last run keeps two of four. -/
def commands : List Command :=
  [.forth 2, .setLimit (some ⟨1, by decide⟩), .forth 1, .back 2, .back 1, .forth 1, .reset,
    .setLimit (some ⟨2, by decide⟩), .run]

end Stroke

end TapeMachine
