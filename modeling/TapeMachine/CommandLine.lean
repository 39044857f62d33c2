import TapeMachine.Bundle.Reader
import TapeMachine.Bundle.Verdict
import TapeMachine.Tape.Printer
import TapeMachine.Text.Terminal

/-!
The command line: what a call with given options prints about the bundle it is
given, and the code it exits with.
-/
namespace TapeMachine

namespace CommandLine

structure Options where
  program : String
  tape : Option String := none
  debug : Bool := false
  testcases : Bool := false
  maxSteps : Nat := ({} : MachineSettings).cap
  json : Bool := false
  deriving DecidableEq, Repr

/-- A line for standard error. The log has warnings, and details for debugging. -/
inductive Note where
  | plain (text : String)
  | warning (text : String)
  | detail (text : String)
  deriving DecidableEq, Repr

/-- The text of a line, if the log is shown or the line is not part of it. -/
def Note.shown? (log : Bool) : Note → Option String
  | .plain text => some text
  | .warning text => if log then some ("WARN " ++ text) else none
  | .detail text => if log then some ("DEBUG " ++ text) else none

/-- Lines for standard output and for standard error, the latest first. -/
structure Output where
  lines : List String := []
  notes : List Note := []
  deriving DecidableEq, Repr

/-- A call in progress: output stays when it fails. -/
abbrev Call := ExceptT Error (StateM Output)

def print (line : String) : Call Unit :=
  modify fun o => { o with lines := line :: o.lines }

def note (n : Note) : Call Unit :=
  modify fun o => { o with notes := n :: o.notes }

def competingNote (key : Symbol × State) : Note :=
  .warning <| "tm_cli::bundle: multiple instructions for the same key, keeping the last symbol=" ++
    key.1.text ++ " state=" ++ key.2.name

def flawNote (m : Machine) (finding : Finding) : Note :=
  .warning <| "tm_cli: " ++ Text.harmless (Error.flawed finding).message ++ " machine=" ++
    Text.quoted m.name

def eventNote : Machine.Event → Note
  | .moved r =>
    .detail <| "tur_tape::machine: forth step=" ++ toString r.step ++ " read=" ++ r.oldValue.text ++
      " from=" ++ r.oldState.name ++ " write=" ++ r.newValue.text ++ " motion=" ++ r.motion.name ++
      " to=" ++ r.newState.name
  | .hadFinished state step =>
    .detail <| "tur_tape::machine: machine is finished state=" ++ state.name ++ " step=" ++
      toString step

def haltName : Halt → String
  | .finalState => "FinalState"
  | .undefinedInstruction => "UndefinedInstruction"
  | .iterationLimit => "IterationLimit"

def haltPhrase : Halt → String
  | .finalState => "final state"
  | .undefinedInstruction => "undefined instruction"
  | .iterationLimit => "iteration limit"

def verdictNote (v : Verdict) : Note :=
  .detail <| "tm_cli::runner: testcase finished testcase=" ++ v.name ++ " halt=" ++
    haltName v.halt ++ " steps=" ++ toString v.steps

/-- Builds a machine of the bundle; rows that lose to a later one are noted. -/
def build (b : Bundle) (tape : TapeSetup) (state : State) (cap : Nat) : Call Machine := do
  let rows ← b.rows
  (repeatedKeys rows).toList.forM fun key => note (competingNote key)
  b.machineOn tape state cap

/-- Notes a flaw of the program, which does not keep it from running. -/
def checkProgram (m : Machine) : Call Unit :=
  match m.program.analyze m.initialState m.finals with
  | .ok () => pure ()
  | .error finding => note (flawNote m finding)

def judge (b : Bundle) (o : Options) (t : Testcase) : Call Verdict := do
  let start ← build b t.tape t.state o.maxSteps
  if o.debug then (start.settleEvents o.maxSteps).forM fun event => note (eventNote event)
  let verdict ← b.judge o.maxSteps t
  if o.debug then note (verdictNote verdict)
  return verdict

def printVerdict (v : Verdict) : Call Unit := do
  if v.passed then print ("PASS " ++ v.name ++ " (" ++ toString v.steps ++ " steps)")
  else
    print <| "FAIL " ++ v.name ++ " (" ++ haltName v.halt ++ " after " ++ toString v.steps ++
      " steps)"
    v.failures.forM fun failure => print ("     " ++ failure.message)

/-- Runs the testcases; succeeds if all of them pass. -/
def runTestcases (b : Bundle) (o : Options) : Call Bool := do
  checkProgram (← build b b.tape b.state o.maxSteps)
  let verdicts ← b.testcases.mapM (judge b o)
  verdicts.forM printVerdict
  let failed := (verdicts.filter fun v => !v.passed).length
  print ("\n" ++ toString (verdicts.length - failed) ++ " passed, " ++ toString failed ++ " failed")
  return failed == 0

def stepLine (m : Machine) : String :=
  "Step: " ++ toString m.step ++ ", State: " ++ m.state.name ++ ", Tape: [" ++
    m.tape.tape.text ++ "]"

/-- Steps one by one while the counter is below `limit`, showing each; there are at most `fuel`
steps. -/
def walk (limit : Nat) : Nat → Machine → List String × List Machine.Event × Machine
  | 0, m => ([], [], m)
  | fuel + 1, m =>
    if m.step < limit then
      match m.forth 1 with
      | (none, last) => ([], m.forthEvents 1, last)
      | (some _, next) =>
        let (lines, events, last) := walk limit fuel next
        (stepLine next :: lines, m.forthEvents 1 ++ events, last)
    else ([], [], m)

/-- The machine with another tape to start with, if one is given. -/
def replaceTape (text : Option String) (m : Machine) : Except Error Machine :=
  match text with
  | none => .ok m
  | some text => return m.setTape (← HasHead.loadText text m.tape)

/-- Runs the bundle on its own tape or another; succeeds if it ends in a final state. -/
def execute (b : Bundle) (o : Options) : Call Bool := do
  let start ← replaceTape o.tape (← build b b.tape b.state o.maxSteps)
  checkProgram start
  let last ←
    if o.debug then do
      let (lines, events, last) := walk o.maxSteps (o.maxSteps - start.step) start
      print (stepLine start)
      lines.forM print
      events.forM fun event => note (eventNote event)
      print "\nFinal tape:"
      pure last
    else pure start.run.2
  print last.tape.tape.text
  note <| .plain <| "Halted on " ++ haltPhrase last.halt ++ " in state " ++ last.state.name ++
    " after " ++ toString last.step ++ " steps"
  if o.json then print last.toJson.pretty
  return last.atFinal

/-- Does a call on the text of the program file, or on the fault met in reading it. -/
def call (o : Options) (source : Except FileFault String) : Call Bool := do
  let text ← source.mapError (Error.unreadable o.program)
  let b ← Bundle.parse text
  if o.testcases then runTestcases b o else execute b o

/-- What a call leaves behind. -/
structure Outcome where
  exitCode : UInt32
  stdout : String
  stderr : String
  deriving DecidableEq, Repr

def lines (ls : List String) : String := String.join (ls.map (· ++ "\n"))

/-- Does a call, with or without its log. An error is the last line of standard error. -/
def run (o : Options) (log : Bool) (source : Except FileFault String) : Outcome :=
  let (result, output) := (call o source).run.run {}
  let stdout := lines output.lines.reverse
  let notes := output.notes.reverse.filterMap (Note.shown? log)
  match result with
  | .ok succeeded => ⟨if succeeded then 0 else 1, stdout, lines notes⟩
  | .error e => ⟨1, stdout, lines (notes ++ [e.message])⟩

end CommandLine

end TapeMachine
