import TapeMachine.Instruction
import TapeMachine.Sorted

/-!
Programs: tables that give a state and the symbol it reads at most one instruction.
Rows are kept by state and then by symbol, so equal tables are equal programs.
-/
namespace TapeMachine

instance : Ord (State × Symbol) := lexOrd

/-- One line of a table. -/
structure Row where
  read : Symbol
  state : State
  instruction : Instruction
  deriving DecidableEq, Repr

def Row.key (r : Row) : State × Symbol := (r.state, r.read)

structure Program where
  rules : SortedBy Row.key
  deriving DecidableEq

namespace Program

def empty : Program := ⟨.empty⟩

instance : Inhabited Program := ⟨empty⟩

/-- The rows by increasing state and symbol. -/
def rows (p : Program) : List Row := p.rules.toList

def size (p : Program) : Nat := p.rules.size

/-- Of several rows for one state and symbol the last stays. -/
def ofRows (rows : List Row) : Program := ⟨.ofList rows⟩

/-- Adds a row in the stead of the one for the same state and symbol. -/
def insert (p : Program) (r : Row) : Program := ⟨p.rules.insert r⟩

/-- What to do in state `q` on reading `s`. -/
def get? (p : Program) (s : Symbol) (q : State) : Option Instruction :=
  (p.rules.find? (q, s)).map Row.instruction

def defines (p : Program) (s : Symbol) (q : State) : Bool := (p.get? s q).isSome

/-- The states that have a row. -/
def states (p : Program) : SortedSet State := .ofList (p.rows.map Row.state)

/-- The symbols that are read or written. -/
def symbols (p : Program) : SortedSet Symbol :=
  .ofList (p.rows.flatMap fun r => [r.read, r.instruction.write])

end Program

end TapeMachine
