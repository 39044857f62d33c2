import TapeMachine.Program.Basic
import TapeMachine.Text.Quoted

/-!
What can be said of a program before it runs: whether its start can do anything,
which states can be entered from there, and which rows compete for one situation.
-/
namespace TapeMachine

instance : Ord (Symbol × State) := lexOrd

/-- A flaw of a program. -/
inductive Finding where
  | deadStart (state : State)
  | finalsNeverEntered (states : SortedSet State)
  | unreachable (states : SortedSet State)
  | competing (keys : SortedSet (Symbol × State))

namespace Finding

def stateNames (states : SortedSet State) : String :=
  Text.quotedList (states.toList.map State.name)

def message : Finding → String
  | .deadStart state => "Invalid start state: " ++ state.name
  | .finalsNeverEntered states => "Final states are never entered: " ++ stateNames states
  | .unreachable states => "Unreachable states detected: " ++ stateNames states
  | .competing keys =>
    let pair (k : Symbol × State) := "(" ++ k.1.text ++ ", " ++ k.2.name ++ ")"
    "Multiple instructions for: " ++ Text.quotedList (keys.toList.map pair)

end Finding

/-- The symbol and state of more than one row, by symbol and then by state. -/
def repeatedKeys (rows : List Row) : SortedSet (Symbol × State) :=
  let keys := rows.map fun r => (r.read, r.state)
  .ofList (keys.filter fun k => 1 < keys.count k)

/-- Whether no two rows share symbol and state. -/
def checkRows (rows : List Row) : Except Finding Unit :=
  let repeated := repeatedKeys rows
  if repeated.isEmpty then .ok () else .error (.competing repeated)

namespace Program

/-- The states that a row leads to from a state of `seen`. -/
def successors (p : Program) (seen : SortedSet State) : List State :=
  (p.rows.filter fun r => seen.contains r.state).map fun r => r.instruction.next

/-- Joins `seen` with its successors, `n` times over. -/
def spread (p : Program) : Nat → SortedSet State → SortedSet State
  | 0, seen => seen
  | n + 1, seen => p.spread n ((p.successors seen).foldl .insert seen)

/-- The states that can be entered from `start`. Each round but the last brings a new state and
a row that leads there, so there are no more rounds than rows. -/
def reachable (p : Program) (start : State) : SortedSet State :=
  p.spread p.size (.ofList [start])

/-- The first flaw of a program, if it has one: its start has no row and is not final, a final
state is out of reach, or a state with rows is. -/
def analyze (p : Program) (start : State) (finals : SortedSet State) : Except Finding Unit :=
  let reached := p.reachable start
  let lostFinals := finals.filter fun q => !reached.contains q
  let lostStates := p.states.filter fun q => !reached.contains q
  if !p.states.contains start && !finals.contains start then .error (.deadStart start)
  else if !lostFinals.isEmpty then .error (.finalsNeverEntered lostFinals)
  else if !lostStates.isEmpty then .error (.unreachable lostStates)
  else .ok ()

end Program

end TapeMachine
