import TapeMachine.CommandLine

/-!
The program itself: reads the arguments and the bundle, and prints what a call
comes to.
-/
namespace TapeMachine

open CommandLine

/-- An argument of the form `--name=value` in two parts. -/
def splitArgument (arg : String) : List String :=
  let chars := arg.toList
  let name := chars.takeWhile (· != '=')
  match chars.dropWhile (· != '=') with
  | '=' :: value =>
    if "--".toList.isPrefixOf name then [String.ofList name, String.ofList value] else [arg]
  | _ => [arg]

/-- Options given by arguments; none if one of them is not understood. -/
def parseArguments : Options → List String → Option Options
  | o, [] => if o.program.isEmpty then none else some o
  | o, "--debug" :: rest | o, "-d" :: rest => parseArguments { o with debug := true } rest
  | o, "--testcases" :: rest => parseArguments { o with testcases := true } rest
  | o, "--json" :: rest => parseArguments { o with json := true } rest
  | o, "--program" :: path :: rest | o, "-p" :: path :: rest =>
    parseArguments { o with program := path } rest
  | o, "--tape" :: text :: rest | o, "-t" :: text :: rest =>
    parseArguments { o with tape := some text } rest
  | o, "--max-steps" :: n :: rest | o, "-m" :: n :: rest =>
    if n.isEmpty || !n.all Char.isDigit then none
    else parseArguments { o with maxSteps := n.toNat?.getD 0 } rest
  | _, _ :: _ => none

def usage : String :=
  "Usage: --program <PROGRAM> [--tape <TAPE>] [--debug] [--testcases] [--max-steps <N>] [--json]"

def fileFault : IO.Error → FileFault
  | .inappropriateType _ code _ => if code = 20 then .notDirectory else .isDirectory
  | .invalidArgument _ code _ => if code = 36 then .nameTooLong else .nulInPath
  | _ => .notFound

def readSource (path : String) : IO (Except FileFault String) := do
  match ← (IO.FS.readBinFile path).toBaseIO with
  | .error e => return .error (fileFault e)
  | .ok bytes =>
    match String.fromUTF8? bytes with
    | some text => return .ok text
    | none => return .error .notText

end TapeMachine

def main (args : List String) : IO UInt32 := do
  match TapeMachine.parseArguments { program := "" } (args.flatMap TapeMachine.splitArgument) with
  | none =>
    IO.eprintln TapeMachine.usage
    return 2
  | some options =>
    let source ← TapeMachine.readSource options.program
    let outcome := TapeMachine.CommandLine.run options true source
    IO.print outcome.stdout
    IO.eprint outcome.stderr
    return outcome.exitCode
