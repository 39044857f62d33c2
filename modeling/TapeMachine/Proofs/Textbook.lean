import TapeMachine.Program.Basic

/-!
The machine of the textbooks: deterministic, with one tape that has no ends. It reads the
blank where nothing has been written, and stops as soon as its state is final or its
program has no instruction. It has no journal and cannot go back.
-/
namespace TapeMachine

/-- A moment of a computation; `cells` tells what has been written. -/
@[ext] structure Config where
  state : State
  cursor : Int
  cells : Int → Option Symbol

/-- What a computation does not change. -/
structure Textbook where
  program : Program
  finals : List State
  blank : Symbol

namespace Textbook

variable (T : Textbook)

def follow (i : Instruction) (c : Config) : Config :=
  ⟨i.next, c.cursor + i.motion.delta, fun j => if j = c.cursor then some i.write else c.cells j⟩

def step (c : Config) : Option Config :=
  if c.state ∈ T.finals then none
  else (T.program.get? ((c.cells c.cursor).getD T.blank) c.state).map fun i => follow i c

/-- The configuration after exactly `n` steps, if there are so many. -/
def run : Nat → Config → Option Config
  | 0, c => some c
  | n + 1, c => (T.step c).bind (run n)

/-- The configurations from the first up to the one after `n` steps. -/
def trace : Nat → Config → List Config
  | 0, c => [c]
  | n + 1, c =>
    match T.step c with
    | none => [c]
    | some d => c :: trace n d

/-- The computation stops after exactly `n` steps. -/
def HaltsAfter (n : Nat) (c : Config) : Prop :=
  ∃ d, T.run n c = some d ∧ T.step d = none

variable {T}

theorem run_succ_last (n : Nat) (c : Config) : T.run (n + 1) c = (T.run n c).bind T.step := by
  induction n generalizing c with
  | zero =>
    change (T.step c).bind (T.run 0) = T.step c
    cases T.step c <;> rfl
  | succ n ih =>
    change (T.step c).bind (T.run (n + 1)) = ((T.step c).bind (T.run n)).bind T.step
    cases T.step c with
    | none => rfl
    | some d => exact ih d

theorem trace_succ_last {n : Nat} {c d e : Config} (h : T.run n c = some d)
    (he : T.step d = some e) : T.trace (n + 1) c = T.trace n c ++ [e] := by
  induction n generalizing c with
  | zero =>
    cases h
    simp [trace, he]
  | succ n ih =>
    obtain ⟨c', hc', h⟩ := Option.bind_eq_some_iff.mp h
    have htail := ih h
    rw [trace, hc']
    simp only [htail]
    rw [trace, hc']
    rfl

/-- No computation goes on after it has stopped. -/
theorem le_of_haltsAfter {n h : Nat} {c d : Config} (hn : T.run n c = some d)
    (hh : T.HaltsAfter h c) : n ≤ h := by
  induction n generalizing c h with
  | zero => exact Nat.zero_le h
  | succ n ih =>
    obtain ⟨c', hc', hn⟩ := Option.bind_eq_some_iff.mp hn
    obtain ⟨last, hlast, hstop⟩ := hh
    cases h with
    | zero =>
      cases hlast
      rw [hc'] at hstop
      cases hstop
    | succ h =>
      obtain ⟨c'', hc'', hlast⟩ := Option.bind_eq_some_iff.mp hlast
      have hsame : c' = c'' := Option.some.inj (hc'.symm.trans hc'')
      subst hsame
      exact Nat.succ_le_succ (ih hn ⟨last, hlast, hstop⟩)

end Textbook

end TapeMachine
