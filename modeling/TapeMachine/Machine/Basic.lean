import TapeMachine.Program.Basic
import TapeMachine.Settings
import TapeMachine.Tape.Head

/-!
Machines: a program, a tape with a journal, and the states entered so far. A
machine knows the document of the tape it started with, to which it can return.
-/
namespace TapeMachine

structure Machine where
  program : Program
  tape : LoggedTape
  finals : SortedSet State
  initialState : State
  initialTape : Json
  state : State
  /-- The states before the current one, the latest first. -/
  past : List State
  step : Nat
  name : String
  cap : Nat

/-- What one transition did, forward or backward. -/
structure Transition where
  oldValue : Symbol
  oldState : State
  newValue : Symbol
  motion : Motion
  newState : State
  step : Nat
  nextUndefined : Bool
  nextFinal : Bool
  deriving DecidableEq, Repr

/-- Why a run came to its end. -/
inductive Halt where
  | finalState | undefinedInstruction | iterationLimit
  deriving DecidableEq, Repr

namespace Machine

/-- The states entered since the start, the first one first. -/
def stateHistory (m : Machine) : List State := (m.state :: m.past).reverse

/-- A set of states with a member. -/
def finalSet (finals : List State) : Except Error (SortedSet State) :=
  if finals.isEmpty then .error .noFinalStates else .ok (.ofList finals)

/-- A machine at its start. -/
def new (program : Program) (tape : LoggedTape) (finals : List State) (initial : State) :
    Except Error Machine := do
  let settings : MachineSettings := {}
  return {
    program, tape
    finals := ← finalSet finals
    initialState := initial
    initialTape := tape.toJson
    state := initial
    past := []
    step := 0
    name := settings.name
    cap := settings.cap }

def configure (settings : MachineSettings) (m : Machine) : Machine :=
  { m with name := settings.name, cap := settings.cap }

/-- Gives the machine another tape, also to start again with. -/
def setTape (tape : LoggedTape) (m : Machine) : Machine :=
  { m with tape, initialTape := tape.toJson }

def setFinals (finals : List State) (m : Machine) : Except Error Machine :=
  return { m with finals := ← finalSet finals }

/-- Sets the state to start with, which is also entered if no step has been done. -/
def setInitialState (q : State) (m : Machine) : Machine :=
  if m.step = 0 then { m with initialState := q, state := q, past := [] }
  else { m with initialState := q }

def atFinal (m : Machine) : Bool := m.finals.contains m.state

/-- The instruction for the current state and the symbol under the head. -/
def instruction? (m : Machine) : Option Instruction :=
  m.program.get? m.tape.tape.read m.state

def atUndefined (m : Machine) : Bool := m.instruction?.isNone

def finished (m : Machine) : Bool := m.atFinal || m.atUndefined

/-- Goes back to the start: tape, states and step counter. -/
def reset (m : Machine) : Except Error Machine := do
  let tape ← m.tape.load m.initialTape
  return { m with tape, state := m.initialState, past := [], step := 0 }

end Machine

end TapeMachine
