import TapeMachine.Bundle.Basic

/-!
Verdicts on testcases: the machine is run and compared with what was expected of
it.
-/
namespace TapeMachine

/-- An expectation that was not met, and what was found instead. -/
inductive Failure where
  | state (expected got : State)
  | content (expected got : List Symbol)
  | cursor (expected got : Int)
  deriving DecidableEq, Repr

namespace Failure

def row (symbols : List Symbol) : String :=
  Text.quoted (", ".intercalate (symbols.map Symbol.text))

def message : Failure → String
  | .state expected got => "expected state " ++ expected.name ++ ", got " ++ got.name
  | .content expected got => "expected tape content " ++ row expected ++ ", got " ++ row got
  | .cursor expected got =>
    "expected cursor position " ++ toString expected ++ ", got " ++ toString got

end Failure

/-- Where the content of a row begins: at the first symbol that is not blank, and at the end of the
row if all are. -/
def contentStart (blank : Symbol) (row : List Symbol) : Nat :=
  (row.findIdx? (· != blank)).getD row.length

/-- Where it ends: behind the last symbol that is not blank, which is searched for from the back, or
where it begins. -/
def contentEnd (blank : Symbol) (row : List Symbol) : Nat :=
  match row.reverse.findIdx? (· != blank) with
  | some passed => row.length - passed
  | none => contentStart blank row

/-- Cuts blank symbols off both ends. -/
def trimBlanks (blank : Symbol) (row : List Symbol) : List Symbol :=
  row.extract (contentStart blank row) (contentEnd blank row)

/-- What is read on the visited cells, without blanks at the ends. -/
def Tape.content (t : Tape) : List Symbol := trimBlanks t.blank (t.visited.map Prod.snd)

/-- The expectations that a machine does not meet. -/
def Expectation.failures (e : Expectation) (m : Machine) : List Failure :=
  let tape := m.tape.tape
  let ofState := match e.state with
    | some q => if m.state = q then [] else [.state q m.state]
    | none => []
  let ofContent := match e.content with
    | some symbols =>
      let wanted := trimBlanks tape.blank symbols
      if tape.content = wanted then [] else [.content wanted tape.content]
    | none => []
  let ofCursor := match e.cursor with
    | some i => if tape.cursor.index = i then [] else [.cursor i tape.cursor.index]
    | none => []
  ofState ++ ofContent ++ ofCursor

/-- How a testcase went. -/
structure Verdict where
  name : String
  halt : Halt
  steps : Nat
  failures : List Failure
  deriving DecidableEq, Repr

def Verdict.passed (v : Verdict) : Bool := v.failures.isEmpty

namespace Bundle

def judge (b : Bundle) (cap : Nat) (t : Testcase) : Except Error Verdict := do
  let start ← b.machineOn t.tape t.state cap
  let (halt, last) := start.run
  return ⟨t.name, halt, last.step, t.expected.failures last⟩

def judgeAll (b : Bundle) (cap : Nat) : Except Error (List Verdict) :=
  b.testcases.mapM (b.judge cap)

end Bundle

end TapeMachine
