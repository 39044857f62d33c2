import TapeMachine.Json.Printer
import TapeMachine.Text.Quoted

/-!
Kinds of errors, and why an input is no symbol, state, motion or position.
-/
namespace TapeMachine

inductive Kind where
  | invalidValue | unknownMotion | invalidPosition | assertion | malformed | outOfHistory
  | tapeText | validation | file
  deriving DecidableEq, Repr

/-- The words that open every message of a kind. -/
def Kind.heading : Kind → String
  | .invalidValue => "Invalid value"
  | .unknownMotion => "Unknown motion"
  | .invalidPosition => "Invalid position"
  | .assertion => "Assertion failed"
  | .malformed => "Syntax error"
  | .outOfHistory => "Out of history"
  | .tapeText => "Tape parsing error"
  | .validation => "Program validation error"
  | .file => "File error"

/-- Kinds that blame a single value rather than a document or an operation. -/
def Kind.blamesValue : Kind → Bool
  | .invalidValue | .unknownMotion | .invalidPosition => true
  | _ => false

/-- An input that is no value of the wanted sort, kept as it was given. -/
inductive Rejection where
  | symbolText (raw : String)
  | symbolJson (raw : Json)
  | stateText (raw : String)
  | stateJson (raw : Json)
  | motion (raw : String)
  | position (raw : String)
  deriving Repr

namespace Rejection

def kind : Rejection → Kind
  | .symbolText _ | .symbolJson _ | .stateText _ | .stateJson _ => .invalidValue
  | .motion _ => .unknownMotion
  | .position _ => .invalidPosition

def detail : Rejection → String
  | .symbolText raw => "Cannot create a symbol from " ++ Text.quoted raw
  | .symbolJson raw => "Cannot create a symbol from " ++ raw.compact
  | .stateText raw => "Cannot create a state from " ++ Text.quoted raw
  | .stateJson raw => "Cannot create a state from " ++ raw.compact
  | .motion raw | .position raw => raw

def message (r : Rejection) : String :=
  r.kind.heading ++ ": " ++ r.detail

end Rejection

end TapeMachine
