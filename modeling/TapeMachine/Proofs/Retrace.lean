import TapeMachine.Proofs.Trail

/-!
How far back a machine can go. Under the frames of its own transitions lie those that
the tape brought along, or one empty frame that stands in for frames that were lost. A
gauge counts the former from outside, by what commands do and not by what is recorded.
-/
namespace TapeMachine

/-- A number that a limit on frames bounds, never below one. -/
def capped (limit : Option Nat) (u : Nat) : Nat :=
  match limit with
  | none => u
  | some n => min u (max 1 n)

theorem capped_le (limit : Option Nat) (u : Nat) : capped limit u ≤ u := by
  cases limit with
  | none => exact Nat.le_refl u
  | some n => exact Nat.min_le_left u _

/-- How many transitions can be taken back, and the limit on that. -/
structure Gauge where
  undoable : Nat
  limit : Option Nat
  deriving DecidableEq, Repr

namespace Gauge

/-- After `k` more transitions. -/
def grown (g : Gauge) : Nat → Gauge
  | 0 => g
  | k + 1 => grown { g with undoable := capped g.limit (g.undoable + 1) } k

/-- After `k` transitions have been taken back. -/
def lowered (g : Gauge) (k : Nat) : Gauge := { g with undoable := g.undoable - k }

/-- After a command to `m`, if resetting brings back the limit `initial`. -/
def next (initial : Option Nat) (g : Gauge) (m : Machine) (c : Command) : Gauge :=
  match c with
  | .forth _ | .run => g.grown ((m.obey c).2.step - m.step)
  | .back _ => g.lowered (m.step - (m.obey c).2.step)
  | .reset => ⟨0, initial⟩
  | .setLimit limit => ⟨capped (bound limit) g.undoable, bound limit⟩

/-- After commands, one by one. -/
def after (initial : Option Nat) (g : Gauge) : List Command → Machine → Gauge
  | [], _ => g
  | c :: commands, m => after initial (g.next initial m c) commands (m.obey c).2

theorem lowered_lowered (g : Gauge) (j k : Nat) : (g.lowered j).lowered k = g.lowered (j + k) := by
  simp [lowered, Nat.sub_sub]

end Gauge

/-- Drops the newest `k` frames, one by one. -/
def Journal.dropFrames : Nat → Journal → Journal
  | 0, j => j
  | k + 1, j => dropFrames k j.dropFrame

/-- The upper `u` frames lead back along a trail of scenes, the latest first. Below them are frames
of the tape that the machine was given, `base`, or nothing that could be taken back. -/
inductive Retraces (base : List Frame) : Nat → List Frame → List Scene → Prop where
  | given {frames : List Frame} (h : frames <+: base) (s : Scene) : Retraces base 0 frames [s]
  | lost (s : Scene) (trail : List Scene) : Retraces base 0 [] (s :: trail)
  | standIn (s : Scene) (trail : List Scene) : Retraces base 0 [[]] (s :: trail)
  | frame {u : Nat} {frames : List Frame} {s : Scene} {trail : List Scene} (i : Instruction) :
      Retraces base u frames (s :: trail) →
      Retraces base (u + 1) (s.view.frameOf i :: frames) (s.follow i :: s :: trail)

namespace Retraces

variable {base frames : List Frame} {u : Nat} {trail : List Scene}

theorem take (h : Retraces base u frames trail) (n : Nat) :
    Retraces base (min u n) (frames.take n) trail := by
  induction h generalizing n with
  | given h s =>
    rw [Nat.zero_min]
    exact given ((List.take_prefix n _).trans h) s
  | lost s trail =>
    rw [Nat.zero_min, List.take_nil]
    exact lost s trail
  | standIn s trail =>
    rw [Nat.zero_min]
    cases n with
    | zero => exact lost s trail
    | succ n =>
      rw [List.take_succ_cons, List.take_nil]
      exact standIn s trail
  | frame i _ ih =>
    cases n with
    | zero => exact lost _ _
    | succ n =>
      rw [Nat.succ_min_succ, List.take_succ_cons]
      exact frame i (ih n)

/-- Dropping the oldest frames shortens the way back if nothing else is left to drop. -/
theorem keep (h : Retraces base u frames trail) (limit : Option Nat) :
    Retraces base (capped limit u) (TapeMachine.keep limit frames) trail := by
  cases limit with
  | none => exact h
  | some n =>
    change Retraces base (min u (max 1 n)) (frames.take (max n 1)) trail
    rw [Nat.max_comm 1 n]
    exact h.take (max n 1)

/-- When no frame is left, an empty one can take its place. -/
theorem emptied {s : Scene} (h : Retraces base u [] (s :: trail)) :
    Retraces base u [[]] (s :: trail) := by
  cases h with
  | given _ s => exact standIn s []
  | lost s trail => exact standIn s trail

/-- The newest frame of a way back is that of the latest transition. -/
theorem newest {s : Scene} (h : Retraces base (u + 1) frames (s :: trail)) :
    ∃ i rest s' trail', frames = s'.view.frameOf i :: rest ∧ trail = s' :: trail' ∧
      s = s'.follow i ∧ Retraces base u rest (s' :: trail') := by
  cases h with
  | frame i h => exact ⟨i, _, _, _, rfl, rfl, rfl, h⟩

/-- What lies under the frames of the machine was there before it, or is empty. -/
theorem drop (h : Retraces base u frames trail) :
    frames.drop u <+: base ∨ frames.drop u = [[]] := by
  induction h with
  | given h s => exact .inl h
  | lost s trail => exact .inl List.nil_prefix
  | standIn s trail => exact .inr rfl
  | frame i _ ih => exact ih

end Retraces

/-- What a machine started from `m` shows along a computation, the latest scene first. -/
inductive Trail (m : Machine) : List Scene → Prop where
  | start : Trail m [m.scene]
  | step {s : Scene} {trail : List Scene} (i : Instruction) : Trail m (s :: trail) →
      m.finals.contains s.state = false → m.program.get? s.view.read s.state = some i →
      Trail m (s.follow i :: s :: trail)

theorem Trail.tail {m : Machine} {s s' : Scene} {trail : List Scene}
    (h : Trail m (s :: s' :: trail)) : Trail m (s' :: trail) := by
  cases h with
  | step i h _ _ => exact h

end TapeMachine
