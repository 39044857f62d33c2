import TapeMachine.Program.Basic

/-!
Programs as documents: a list of rows, each the symbol read, the state and the
instruction.
-/
namespace TapeMachine

namespace Row

def toJson (r : Row) : Json :=
  .array [r.read.toJson, r.state.toJson, r.instruction.toJson]

def decode : Json.Decoder Row := fun v => do
  let (read, state, instruction) ←
    Json.Decode.triple Symbol.decode State.decode Instruction.decode v
  return ⟨read, state, instruction⟩

end Row

namespace Program

def toJson (p : Program) : Json := Json.list Row.toJson p.rows

/-- The rows of a document in its own order, repeated ones included. -/
def decodeRows : Json.Decoder (List Row) := Json.Decode.list Row.decode

end Program

end TapeMachine
