import TapeMachine.Json.Reader
import TapeMachine.Machine.Basic
import TapeMachine.Program.Document

/-!
Machines as documents. A document is checked as a whole before a machine is made
of it, and the document of its first tape is kept word for word.
-/
namespace TapeMachine

/-- The parts of a machine that a document gives. -/
structure MachineDocument where
  program : Program
  tape : LoggedTape
  finals : SortedSet State
  initialState : State
  initialTape : Json
  state : State
  past : List State
  step : Nat
  name : Option String

namespace MachineDocument

/-- An entry that must be there. -/
def entry (document : Json) (key : String) : Except Error Json :=
  match document.get? key with
  | some v => .ok v
  | none => .error (.missingKey key)

def decodeProgram (v : Json) : Except Error Program := do
  let rows ← (Program.decodeRows v).mapError .programDocument
  return .ofRows rows

def decodeStates (v : Json) : Except Error (List State) :=
  (Json.Decode.list State.decode v).mapError .document

/-- The state to start with: the one that is given, or the first of the history. -/
def decodeInitialState (first : State) : Option Json → Except Error State
  | some v => (State.decode v).mapError .document
  | none => .ok first

/-- The tape to start with, kept as it is written if it can be read, or the present one. -/
def decodeInitialTape (template tape : LoggedTape) : Option Json → Except Error Json
  | some v => do
    discard (template.load v)
    return v
  | none => .ok tape.toJson

/-- The step counter, which must count the states after the first. -/
def decodeStep (entries : Nat) : Option Json → Except Error Nat
  | none => .ok (entries - 1)
  | some (.number (.whole i)) =>
    if i < 0 ∨ greatestCount < i then .error (.badStep (.int i))
    else if i.toNat = entries - 1 then .ok i.toNat
    else .error (.stepMismatch i.toNat entries)
  | some v => .error (.badStep v)

/-- A name may be any value; what is no text is written out. -/
def decodeName : Option Json → Option String
  | some (.string name) => some name
  | some .null | none => none
  | some v => some v.compact

/-- Reads a machine document. Tapes keep the blank and the limit of `template` where they give
none. -/
def decode (template : LoggedTape) (document : Json) : Except Error MachineDocument := do
  let historyEntry ← entry document "state_history"
  let tapeEntry ← entry document "tape"
  let programEntry ← entry document "program"
  let finalsEntry ← entry document "final_states"
  let program ← decodeProgram programEntry
  let tape ← template.load tapeEntry
  let finals ← Machine.finalSet (← decodeStates finalsEntry)
  let history ← decodeStates historyEntry
  match history, history.reverse with
  | first :: _, state :: past =>
    let initialState ← decodeInitialState first (document.get? "initial_state")
    let initialTape ← decodeInitialTape template tape (document.get? "initial_tape")
    let step ← decodeStep history.length (document.get? "step")
    let name := decodeName (document.get? "name")
    return { program, tape, finals, initialState, initialTape, state, past, step, name }
  | _, _ => throw .emptyStateHistory

end MachineDocument

namespace Machine

def toJson (m : Machine) : Json :=
  .object [
    ("final_states", Json.list State.toJson m.finals.toList),
    ("initial_state", m.initialState.toJson),
    ("initial_tape", m.initialTape),
    ("name", .string m.name),
    ("program", m.program.toJson),
    ("state_history", Json.list State.toJson m.stateHistory),
    ("step", .nat m.step),
    ("tape", m.tape.toJson)]

def ofDocument (d : MachineDocument) (name : String) (cap : Nat) : Machine where
  program := d.program
  tape := d.tape
  finals := d.finals
  initialState := d.initialState
  initialTape := d.initialTape
  state := d.state
  past := d.past
  step := d.step
  name := d.name.getD name
  cap := cap

/-- The machine of a document. -/
def ofJson (document : Json) : Except Error Machine := do
  let d ← MachineDocument.decode default document
  let settings : MachineSettings := {}
  return ofDocument d settings.name settings.cap

/-- Replaces the machine by the one of a document, which may leave name, blank and limit as they
are. -/
def load (document : Json) (m : Machine) : Except Error Machine := do
  let d ← MachineDocument.decode m.tape document
  return ofDocument d m.name m.cap

/-- The machine of a document given as text. -/
def ofText (text : String) : Except Error Machine := do
  let document ← (Json.parse text).mapError .document
  ofJson document

end Machine

end TapeMachine
