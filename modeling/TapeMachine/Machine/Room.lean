import TapeMachine.Machine.Back
import TapeMachine.Machine.Run
import TapeMachine.Room

/-!
Machines in a room. A request for steps, forward or backward, sets aside room for all the
results it may have before the first step is done, and every step that writes a cell needs
room for it. What comes of a request for which there is room is what comes of it anyway.
-/
namespace TapeMachine

/-- Where a cell is restored when a frame is taken back with the head at `p`. A frame that a
machine recognises has one write at most. -/
def restoredAt (p : Position) : Frame → Option Int
  | [] => none
  | .write _ _ :: _ => some p.index
  | .move d :: frame => restoredAt (p.advance d.inverse.cells) frame

/-- A way to go step by step: the machine after the next step, and where that step writes. -/
structure Course where
  next? : Machine → Option Machine
  writesAt? : Machine → Option Int

namespace Course

/-- Transition after transition. -/
def forth : Course where
  next? m := if m.finished then none else some (m.advance 1).2
  writesAt? m := if m.finished then none else some m.tape.tape.cursor.index

/-- Step back after step back. A frame that is not recognised is left alone. -/
def back : Course where
  next? m :=
    match m.backOne with
    | .ok (_, before) => some before
    | .error _ => none
  writesAt? m :=
    match m.past, Reversal.ofInverses m.tape.journal.inverses with
    | _ :: _, .ok _ => restoredAt m.tape.tape.cursor m.tape.journal.current
    | _, _ => none

end Course

namespace Room

/-- Whether one of up to `n` steps has to write a cell for which there is no room. -/
def lacksCell (room : Room) (course : Course) : Nat → Machine → Bool
  | 0, _ => false
  | n + 1, m =>
    if (course.writesAt? m).any (!m.tape.tape.fits room ·) then true
    else
      match course.next? m with
      | none => false
      | some next => lacksCell room course n next

/-- What a request for up to `n` steps runs short of: room for the results is set aside first. -/
def shortage? (room : Room) (course : Course) (n : Nat) (m : Machine) : Option Shortage :=
  if room.results < n then some .results
  else if room.lacksCell course n m then some .cells
  else none

end Room

namespace Machine

/-- Up to `n` transitions in a room. A machine that has finished before needs none. -/
def forthIn (room : Room) (n : Nat) (m : Machine) :
    Except Shortage (Option (List Transition) × Machine) :=
  if m.finished then .ok (none, m)
  else
    match room.shortage? .forth n m with
    | some shortage => .error shortage
    | none => .ok (m.forth n)

/-- Up to `n` steps back in a room, which is needed even if there is nothing to go back to. -/
def backIn (room : Room) (n : Nat) (m : Machine) :
    Except Shortage (Except Error (List Transition) × Machine) :=
  match room.shortage? .back n m with
  | some shortage => .error shortage
  | none => .ok (m.back n)

/-- Single steps in a room until one cannot be done, at most `n`. -/
def settleIn (room : Room) : Nat → Machine → Except Shortage Machine
  | 0, m => .ok m
  | n + 1, m => do
    match ← m.forthIn room 1 with
    | (none, last) => return last
    | (some _, next) => settleIn room n next

/-- Runs in a room until the machine has finished or its cap is reached. -/
def runIn (room : Room) (m : Machine) : Except Shortage (Halt × Machine) := do
  let last ← m.settleIn room m.cap
  return (last.halt, last)

end Machine

end TapeMachine
