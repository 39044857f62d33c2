import TapeMachine.Bundle.Basic
import TapeMachine.Json.Typed

/-!
Reading bundles from text. Every record may be written as an object or as the list
of its fields, and a draft gathers the fields that have been read.
-/
namespace TapeMachine

open Json Reader

def countReader (_ : Nat) : Reader Nat := Int.toNat <$> within .count 0 greatestCount

def indexReader (_ : Nat) : Reader Int := within .integer leastIndex greatestIndex

def textReader (_ : Nat) : Reader String := Reader.text

def symbolReader : Nat → Reader Symbol := converted Symbol.ofJson?

def stateReader : Nat → Reader State := converted State.ofJson?

/-- A reader for a field that may be `null`. -/
def nullable (reader : Nat → Reader α) (depth : Nat) : Reader (Option α) :=
  optional (reader depth)

namespace TapeSetup

structure Draft where
  blank : Option (Option Symbol) := none
  offset : Option (Option Nat) := none
  cursor : Option (Option Int) := none
  data : Option (List Symbol) := none

def slots : List (Slot Draft) := [
  ⟨"blank", (·.blank.isSome),
    fun n d => return { d with blank := some (← nullable symbolReader n) }, false⟩,
  ⟨"offset", (·.offset.isSome),
    fun n d => return { d with offset := some (← nullable countReader n) }, false⟩,
  ⟨"cursor", (·.cursor.isSome),
    fun n d => return { d with cursor := some (← nullable indexReader n) }, false⟩,
  ⟨"data", (·.data.isSome),
    fun n d => return { d with data := some (← listOf symbolReader n) }, false⟩]

def Draft.finish (d : Draft) : Except Json.Fault TapeSetup := do
  return {
    blank := d.blank.join
    offset := d.offset.join
    cursor := d.cursor.join.map Position.ofInt
    data := ← required "data" d.data }

def reader : Nat → Reader TapeSetup := record "TapeSpec" slots {} Draft.finish

end TapeSetup

namespace Expectation

structure Draft where
  state : Option (Option State) := none
  content : Option (Option (List Symbol)) := none
  cursor : Option (Option Int) := none

def slots : List (Slot Draft) := [
  ⟨"state", (·.state.isSome),
    fun n d => return { d with state := some (← nullable stateReader n) }, false⟩,
  ⟨"tapecontent", (·.content.isSome),
    fun n d => return { d with content := some (← nullable (listOf symbolReader) n) }, false⟩,
  ⟨"cursorposition", (·.cursor.isSome),
    fun n d => return { d with cursor := some (← nullable indexReader n) }, false⟩]

def Draft.finish (d : Draft) : Except Json.Fault Expectation :=
  return ⟨d.state.join, d.content.join, d.cursor.join⟩

def reader : Nat → Reader Expectation := record "ExpectedOutput" slots {} Draft.finish

end Expectation

namespace Testcase

structure InputDraft where
  tape : Option TapeSetup := none
  state : Option State := none

def inputSlots : List (Slot InputDraft) := [
  ⟨"tape", (·.tape.isSome),
    fun n d => return { d with tape := some (← TapeSetup.reader n) }, false⟩,
  ⟨"state", (·.state.isSome),
    fun n d => return { d with state := some (← stateReader n) }, false⟩]

def InputDraft.finish (d : InputDraft) : Except Json.Fault (TapeSetup × State) := do
  return (← required "tape" d.tape, ← required "state" d.state)

def inputReader : Nat → Reader (TapeSetup × State) :=
  record "TestInput" inputSlots {} InputDraft.finish

structure Draft where
  name : Option String := none
  input : Option (TapeSetup × State) := none
  output : Option Expectation := none

def slots : List (Slot Draft) := [
  ⟨"name", (·.name.isSome),
    fun n d => return { d with name := some (← textReader n) }, false⟩,
  ⟨"input", (·.input.isSome),
    fun n d => return { d with input := some (← inputReader n) }, false⟩,
  ⟨"output", (·.output.isSome),
    fun n d => return { d with output := some (← Expectation.reader n) }, false⟩]

def Draft.finish (d : Draft) : Except Json.Fault Testcase := do
  let name ← required "name" d.name
  let (tape, state) ← required "input" d.input
  let expected ← required "output" d.output
  return { name, tape, state, expected }

def reader : Nat → Reader Testcase := record "Testcase" slots {} Draft.finish

end Testcase

namespace Bundle

structure Draft where
  title : Option String := none
  description : Option (List Json) := none
  version : Option String := none
  tape : Option TapeSetup := none
  program : Option Json := none
  state : Option State := none
  finals : Option (List State) := none
  testcases : Option (List Testcase) := none

def slots : List (Slot Draft) := [
  ⟨"title", (·.title.isSome),
    fun n d => return { d with title := some (← textReader n) }, false⟩,
  ⟨"description", (·.description.isSome),
    fun n d => return { d with description := some (← listOf value n) }, true⟩,
  ⟨"version", (·.version.isSome),
    fun n d => return { d with version := some (← textReader n) }, false⟩,
  ⟨"tape", (·.tape.isSome),
    fun n d => return { d with tape := some (← TapeSetup.reader n) }, false⟩,
  ⟨"program", (·.program.isSome),
    fun n d => return { d with program := some (← value n) }, false⟩,
  ⟨"state", (·.state.isSome),
    fun n d => return { d with state := some (← stateReader n) }, false⟩,
  ⟨"final_states", (·.finals.isSome),
    fun n d => return { d with finals := some (← listOf stateReader n) }, false⟩,
  ⟨"testcases", (·.testcases.isSome),
    fun n d => return { d with testcases := some (← listOf Testcase.reader n) }, true⟩]

def Draft.finish (d : Draft) : Except Json.Fault Bundle := do
  return {
    title := ← required "title" d.title
    description := d.description.getD []
    version := ← required "version" d.version
    tape := ← required "tape" d.tape
    program := ← required "program" d.program
    state := ← required "state" d.state
    finals := ← required "final_states" d.finals
    testcases := d.testcases.getD [] }

def reader : Nat → Reader Bundle := record "Bundle" slots {} Draft.finish

/-- The bundle written in a text, if it passes its checks. -/
def parse (text : String) : Except Error Bundle := do
  let b ← (whole (reader depthLimit) text).mapError .document
  b.check
  return b

end Bundle

end TapeMachine
