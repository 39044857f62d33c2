import TapeMachine.Machine.Basic

/-!
Running backward. A transition leaves a frame with one write and at most one move
by one cell; only such frames are taken back.
-/
namespace TapeMachine

/-- What a frame says about a transition: the cell taken back and put in its place, and the
motion that was made. -/
structure Reversal where
  cells : Option (Option Symbol × Option Symbol)
  moved : Option Int
  deriving DecidableEq, Repr

namespace Reversal

/-- Adds an operation, unless there is one of its sort or it moves too far. -/
def add (r : Reversal) : Operation → Option Reversal
  | .write old new => if r.cells.isNone then some { r with cells := some (old, new) } else none
  | .move d =>
    if r.moved.isNone ∧ d.width ≤ 1 then some { r with moved := some d.cells } else none

/-- Reads the inverse operations of a frame. -/
def ofInverses (inverses : List Operation) : Except Error Reversal :=
  match inverses.foldlM add ⟨none, none⟩ with
  | some r => .ok r
  | none => .error (.foreignFrame inverses)

/-- The motion whose taking back these operations are. -/
def motion (r : Reversal) : Motion :=
  if r.moved = some (-1) then .right
  else if r.moved = some 1 then .left
  else .stop

end Reversal

namespace Machine

/-- Takes back one transition into state `q`. The frame is checked before anything is changed. -/
def reverse (m : Machine) (q : State) (past : List State) :
    Except Error (Transition × Machine) := do
  let reversal ← Reversal.ofInverses m.tape.journal.inverses
  let (_, tape) ← m.tape.undo
  let before : Machine := { m with tape, state := q, past, step := m.step - 1 }
  let blank := tape.tape.blank
  let (oldValue, newValue) := match reversal.cells with
    | some (old, new) => (old.getD blank, new.getD blank)
    | none => (m.tape.tape.read, tape.tape.read)
  return ({
    oldValue, newValue
    oldState := m.state
    motion := reversal.motion
    newState := q
    step := before.step
    nextUndefined := before.atUndefined
    nextFinal := before.atFinal }, before)

/-- One step back. -/
def backOne (m : Machine) : Except Error (Transition × Machine) :=
  match m.past with
  | [] => .error .atInitialState
  | q :: past => m.reverse q past

/-- Up to `n` more steps back after a first one. Running out of history ends them, and any other
error is the answer; the machine stays where the steps have taken it. -/
def backMore : Nat → Machine → Except Error (List Transition) × Machine
  | 0, m => (.ok [], m)
  | n + 1, m =>
    match m.backOne with
    | .ok (result, before) =>
      let (results, first) := backMore n before
      (results.map (result :: ·), first)
    | .error e => if e.kind = .outOfHistory then (.ok [], m) else (.error e, m)

/-- Up to `n` steps back, of which at least one must be possible. There is taken to be room for the
results and the cells; `backIn` says what comes of it in a given room. -/
def back : Nat → Machine → Except Error (List Transition) × Machine
  | 0, m => (.ok [], m)
  | n + 1, m =>
    match m.backOne with
    | .ok (result, before) =>
      let (results, first) := backMore n before
      (results.map (result :: ·), first)
    | .error e => (.error e, m)

end Machine

end TapeMachine
