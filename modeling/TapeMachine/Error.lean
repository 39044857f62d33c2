import TapeMachine.Program.Analysis
import TapeMachine.Tape.Operation
import TapeMachine.Tape.Text

/-!
The causes for which an operation fails, their kinds and their wording.
-/
namespace TapeMachine

/-- Why a file cannot be read or written. -/
inductive FileFault where
  | notFound | notDirectory | isDirectory | nameTooLong | nulInPath | notText
  deriving DecidableEq, Repr

def FileFault.message : FileFault → String
  | .notFound => "No such file or directory (os error 2)"
  | .notDirectory => "Not a directory (os error 20)"
  | .isDirectory => "Is a directory (os error 21)"
  | .nameTooLong => "File name too long (os error 36)"
  | .nulInPath => "file name contained an unexpected NUL byte"
  | .notText => "stream did not contain valid UTF-8"

inductive Error where
  | rejected (why : Rejection)
  | nonBinary (symbol : Symbol) (index : Int)
  | binaryTooLarge (bits : String)
  | evenWindow (count : Nat)
  | noFinalStates
  | emptyStateHistory
  | missingKey (key : String)
  | stepMismatch (step entries : Nat)
  | foreignFrame (inverses : List Operation)
  | shortTitle (title : String)
  | shortVersion (version : String)
  | bundleWithoutFinals
  | namelessTestcase
  | emptyExpectation (testcase : String)
  | document (fault : Json.Fault)
  | tapeDocument (fault : Json.Fault)
  | programDocument (fault : Json.Fault)
  | tapeIncomplete
  | offsetTooLarge (offset cells : Nat)
  | badOperation (found : Json)
  | historyNotList (found : Json)
  | frameNotList (found : Json)
  | badHistorySize (found : Json)
  | badStep (found : Json)
  | nothingToUndo
  | atInitialState
  | tapeText (fault : TapeText.Fault)
  | flawed (finding : Finding)
  | unreadable (path : String) (fault : FileFault)
  | unwritable (path : String) (fault : FileFault)
  | noDirectory (path : String)
  | unreadableDirectory (path : String) (fault : FileFault)
  | notLoaded (path : String) (cause : Error)

namespace Error

def kind : Error → Kind
  | .rejected why => why.kind
  | .nonBinary _ _ | .binaryTooLarge _ => .invalidValue
  | .evenWindow _ | .noFinalStates | .emptyStateHistory | .missingKey _ | .stepMismatch _ _
  | .foreignFrame _ | .shortTitle _ | .shortVersion _ | .bundleWithoutFinals | .namelessTestcase
  | .emptyExpectation _ => .assertion
  | .document _ | .tapeDocument _ | .programDocument _ | .tapeIncomplete | .offsetTooLarge _ _
  | .badOperation _ | .historyNotList _ | .frameNotList _ | .badHistorySize _ | .badStep _ =>
    .malformed
  | .nothingToUndo | .atInitialState => .outOfHistory
  | .tapeText _ => .tapeText
  | .flawed _ => .validation
  | .unreadable _ _ | .unwritable _ _ | .noDirectory _ | .unreadableDirectory _ _
  | .notLoaded _ _ => .file

/-- The message with the heading of its kind. -/
def message (e : Error) : String :=
  e.kind.heading ++ ": " ++
  match e with
  | .rejected why => why.detail
  | .nonBinary symbol index =>
    "Non-binary symbol " ++ Text.quoted symbol.text ++ " at position " ++ toString index
  | .binaryTooLarge bits =>
    "Cannot decode " ++ Text.quoted bits ++ ": number too large to fit in target type"
  | .evenWindow count => "Window size must be odd, got " ++ toString count
  | .noFinalStates => "At least one final state is required"
  | .emptyStateHistory => "State history must contain the initial state"
  | .missingKey key => "Machine JSON is missing '" ++ key ++ "'"
  | .stepMismatch step entries =>
    "Step counter " ++ toString step ++ " does not match a state history of " ++
      toString entries ++ " entries"
  | .foreignFrame inverses =>
    "Tape frame does not describe a single transition: " ++
      Text.bracketed (inverses.map Operation.describe)
  | .shortTitle title => "Bundle title " ++ Text.quoted title ++ " is too short"
  | .shortVersion version => "Bundle version " ++ Text.quoted version ++ " is too short"
  | .bundleWithoutFinals => "Bundle declares no final states"
  | .namelessTestcase => "Testcase name must not be empty"
  | .emptyExpectation testcase => "Testcase " ++ Text.quoted testcase ++ " expects nothing"
  | .document fault => fault.message
  | .tapeDocument fault => "Cannot import tape from JSON: " ++ fault.message
  | .programDocument fault => "Cannot import program from JSON: " ++ fault.message
  | .tapeIncomplete => "Cannot import tape from JSON: data or cursor missing"
  | .offsetTooLarge offset cells =>
    "Cannot import tape from JSON: offset " ++ toString offset ++ " exceeds the " ++
      toString cells ++ " stored cells"
  | .badOperation found => "Invalid tape operation: " ++ found.compact
  | .historyNotList found => "Tape history must be an array, got " ++ found.compact
  | .frameNotList found => "History frame must be an array, got " ++ found.compact
  | .badHistorySize found => "Invalid history size: " ++ found.compact
  | .badStep found => "Invalid step counter: " ++ found.compact
  | .nothingToUndo => "No recorded tape operations left to undo"
  | .atInitialState => "Already at the initial state"
  | .tapeText fault => fault.excerpt
  | .flawed finding => finding.message
  | .unreadable path fault => "Failed to read file " ++ path ++ ": " ++ fault.message
  | .unwritable path fault => "Failed to write file " ++ path ++ ": " ++ fault.message
  | .noDirectory path => "Directory " ++ path ++ " does not exist"
  | .unreadableDirectory path fault =>
    "Failed to read directory " ++ path ++ ": " ++ fault.message
  | .notLoaded path cause => "Failed to load machine from " ++ path ++ ": " ++ cause.message

end Error

end TapeMachine
