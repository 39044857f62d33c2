import TapeMachine.Machine.Document
import TapeMachine.Machine.Run

/-!
Bundles: a program with the tape and the state it starts on, and testcases that
run the same program elsewhere.
-/
namespace TapeMachine

/-- A tape to start with. `offset` of its cells stand before zero. -/
structure TapeSetup where
  blank : Option Symbol := none
  offset : Option Nat := none
  cursor : Option Position := none
  data : List Symbol
  deriving DecidableEq, Repr

/-- What a machine should have come to. What is not given is not compared. -/
structure Expectation where
  state : Option State := none
  content : Option (List Symbol) := none
  cursor : Option Int := none
  deriving DecidableEq, Repr

structure Testcase where
  name : String
  tape : TapeSetup
  state : State
  expected : Expectation
  deriving DecidableEq, Repr

structure Bundle where
  title : String
  description : List Json := []
  version : String
  tape : TapeSetup
  program : Json
  state : State
  finals : List State
  testcases : List Testcase := []

def TapeSetup.build (s : TapeSetup) : Except Error LoggedTape :=
  let offset := s.offset.getD 0
  if s.data.length < offset then .error (.offsetTooLarge offset s.data.length)
  else
    .ok ⟨.ofCells (s.blank.getD .space) offset (s.cursor.getD .origin) (s.data.map some), {}⟩

def Expectation.isEmpty (e : Expectation) : Bool :=
  e.state.isNone && e.content.isNone && e.cursor.isNone

def Testcase.check (t : Testcase) : Except Error Unit :=
  if t.name.isEmpty then .error .namelessTestcase
  else if t.expected.isEmpty then .error (.emptyExpectation t.name)
  else .ok ()

namespace Bundle

/-- What every bundle must have: a title and a version of three characters, a final state, and
testcases that are named and expect something. -/
def check (b : Bundle) : Except Error Unit := do
  if b.title.length < 3 then throw (.shortTitle b.title)
  if b.version.length < 3 then throw (.shortVersion b.version)
  if b.finals.isEmpty then throw .bundleWithoutFinals
  b.testcases.forM Testcase.check

def rows (b : Bundle) : Except Error (List Row) :=
  (Program.decodeRows b.program).mapError .programDocument

/-- The bundle's program on some tape and state. -/
def machineOn (b : Bundle) (tape : TapeSetup) (state : State) (cap : Nat) :
    Except Error Machine := do
  let rows ← b.rows
  let tape ← tape.build
  let machine ← Machine.new (.ofRows rows) tape b.finals state
  return machine.configure ⟨b.title, cap⟩

/-- The bundle's program on its own tape and state. -/
def machine (b : Bundle) (cap : Nat) : Except Error Machine := b.machineOn b.tape b.state cap

end Bundle

end TapeMachine
