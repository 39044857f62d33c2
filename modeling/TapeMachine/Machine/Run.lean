import TapeMachine.Machine.Basic

/-!
Running forward: single transitions, up to a number of them, and until the machine
has finished or its cap is reached.
-/
namespace TapeMachine.Machine

/-- Does one instruction: write, move, enter the next state. It opens a frame of its own. -/
def follow (m : Machine) (i : Instruction) : Machine :=
  { m with
    tape := HasHead.moveBy i.motion (m.tape.snapshot.write i.write)
    state := i.next
    past := m.state :: m.past
    step := m.step + 1 }

/-- What happens when an instruction is done, and the machine after it. -/
def perform (m : Machine) (i : Instruction) : Transition × Machine :=
  let oldValue := m.tape.tape.read
  let oldState := m.state
  let next := m.follow i
  ({ oldValue, oldState
     newValue := i.write
     motion := i.motion
     newState := i.next
     step := next.step
     nextUndefined := next.atUndefined
     nextFinal := next.atFinal }, next)

/-- Up to `n` transitions, as long as the state is not final and there is an instruction. -/
def advance : Nat → Machine → List Transition × Machine
  | 0, m => ([], m)
  | n + 1, m =>
    if m.atFinal then ([], m)
    else
      match m.instruction? with
      | none => ([], m)
      | some i =>
        let (result, next) := m.perform i
        let (results, last) := advance n next
        (result :: results, last)

/-- Up to `n` transitions, or nothing at all if the machine has finished before. There is taken to
be room for the results and the cells; `forthIn` says what comes of it in a given room. -/
def forth (n : Nat) (m : Machine) : Option (List Transition) × Machine :=
  if m.finished then (none, m)
  else
    let (results, last) := m.advance n
    (some results, last)

/-- Single steps until one cannot be done, at most `n`. -/
def settle : Nat → Machine → Machine
  | 0, m => m
  | n + 1, m =>
    match m.forth 1 with
    | (none, last) => last
    | (some _, next) => settle n next

/-- Why the machine stands still where it is. -/
def halt (m : Machine) : Halt :=
  if m.atFinal then .finalState
  else if m.atUndefined then .undefinedInstruction
  else .iterationLimit

/-- Runs until the machine has finished or its cap is reached. -/
def run (m : Machine) : Halt × Machine :=
  let last := m.settle m.cap
  (last.halt, last)

/-- What happens when a machine is asked for a step. -/
inductive Event where
  | moved (result : Transition)
  | hadFinished (state : State) (step : Nat)
  deriving DecidableEq, Repr

/-- What happens in a request for `n` transitions. -/
def forthEvents (n : Nat) (m : Machine) : List Event :=
  match m.forth n with
  | (none, last) => [.hadFinished last.state last.step]
  | (some results, _) => results.map .moved

/-- What happens in the single steps of a run. -/
def settleEvents : Nat → Machine → List Event
  | 0, _ => []
  | n + 1, m =>
    m.forthEvents 1 ++
    match m.forth 1 with
    | (none, _) => []
    | (some _, next) => settleEvents n next

end TapeMachine.Machine
