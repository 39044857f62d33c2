import TapeMachine.Motion
import TapeMachine.State

/-!
Instructions of a program: what to write, where to go and which state to enter.
-/
namespace TapeMachine

structure Instruction where
  write : Symbol
  motion : Motion
  next : State
  deriving DecidableEq, Repr

namespace Instruction

def text (i : Instruction) : String :=
  ", ".intercalate [i.write.text, i.motion.name, i.next.name]

def toJson (i : Instruction) : Json :=
  .array [i.write.toJson, i.motion.toJson, i.next.toJson]

def decode : Json.Decoder Instruction := fun v => do
  let (write, motion, next) ← Json.Decode.triple Symbol.decode Motion.decode State.decode v
  return ⟨write, motion, next⟩

end Instruction

end TapeMachine
