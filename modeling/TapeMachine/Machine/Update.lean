import TapeMachine.Machine.Document
import TapeMachine.Tape.Update

/-!
Programs and machines changed in place.
-/
namespace TapeMachine

def Program.replace (v : Json) : Update Program Unit := do
  let rows ← Update.check ((decodeRows v).mapError .programDocument)
  set (ofRows rows)

namespace Machine

/-- Takes over the parts of a document, the name only if there is one. -/
def accept (d : MachineDocument) : Update Machine Unit := do
  modify ({ · with program := d.program })
  modify ({ · with tape := d.tape })
  modify ({ · with finals := d.finals })
  modify ({ · with initialState := d.initialState })
  modify ({ · with initialTape := d.initialTape })
  modify ({ · with state := d.state, past := d.past })
  modify ({ · with step := d.step })
  if let some name := d.name then modify ({ · with name })

/-- Takes the machine from a document, which is read as a whole before. -/
def replace (document : Json) : Update Machine Unit := do
  let d ← Update.check (MachineDocument.decode (← get).tape document)
  accept d

def replaceFinals (finals : List State) : Update Machine Unit := do
  let finals ← Update.check (finalSet finals)
  modify ({ · with finals })

/-- Goes back to the start; the tape is the first to do so. -/
def restart : Update Machine Unit := do
  let first := (← get).initialTape
  Update.onPart tape (fun tape m => { m with tape }) (LoggedTape.replace first)
  modify fun m => { m with state := m.initialState, past := [] }
  modify ({ · with step := 0 })

end Machine

end TapeMachine
