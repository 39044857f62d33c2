import TapeMachine.Symbol

/-!
Settings of new tapes and machines. A document may give some of them; the others
keep their usual values.
-/
namespace TapeMachine

structure TapeSettings where
  blank : Symbol := .space
  limit : Option Nat := none
  deriving DecidableEq, Repr

namespace TapeSettings

def decode : Json.Decoder TapeSettings :=
  Json.Decode.record "TapeConfig" [
    { name := "blank_symbol"
      decode := fun v s => return { s with blank := ← Symbol.decode v } },
    { name := "history_size"
      decode := fun v s => return { s with limit := ← Json.Decode.optional Json.Decode.count v } }]
    {}

def toJson (s : TapeSettings) : Json :=
  .object [("blank_symbol", s.blank.toJson), ("history_size", Json.ofOption Json.nat s.limit)]

end TapeSettings

structure MachineSettings where
  name : String := "machine"
  cap : Nat := 10000
  deriving DecidableEq, Repr

namespace MachineSettings

def decode : Json.Decoder MachineSettings :=
  Json.Decode.record "MachineConfig" [
    { name := "name"
      decode := fun v s => return { s with name := ← Json.Decode.text v } },
    { name := "max_iterations"
      decode := fun v s => return { s with cap := ← Json.Decode.count v } }]
    {}

def toJson (s : MachineSettings) : Json :=
  .object [("max_iterations", .nat s.cap), ("name", .string s.name)]

end MachineSettings

end TapeMachine
