import TapeMachine.Position
import TapeMachine.Symbol

/-!
Operations of a head that can be taken back, and their form in documents: a write
is a tagged list of the old and the new cell, a move is a list of one number.
-/
namespace TapeMachine

inductive Operation where
  | write (old new : Option Symbol)
  | move (by' : Distance)
  deriving DecidableEq, Repr

namespace Operation

/-- The operation that takes this one back. -/
def inverse : Operation → Operation
  | .write old new => .write new old
  | .move d => .move d.inverse

def cellToJson (c : Option Symbol) : Json := Json.ofOption Symbol.toJson c

def cellOfJson? (v : Json) : Option (Option Symbol) :=
  (Json.Decode.optional Symbol.decode v).toOption

def toJson : Operation → Json
  | .write old new => .array [.string "w", cellToJson old, cellToJson new]
  | .move d => .array [.int d.cells]

def ofJson? : Json → Option Operation
  | .array [.string "w", old, new] =>
    match cellOfJson? old, cellOfJson? new with
    | some old, some new => some (.write old new)
    | _, _ => none
  | .array [.number (.whole i)] => (Distance.ofInt? i).map .move
  | _ => none

def describeCell : Option Symbol → String
  | none => "None"
  | some s => "Some(Symbol(" ++ Text.quoted s.text ++ "))"

/-- The operation as messages show it. -/
def describe : Operation → String
  | .write old new =>
    "Write \x7b old: " ++ describeCell old ++ ", new: " ++ describeCell new ++ " \x7d"
  | .move d => "Move(" ++ toString d.cells ++ ")"

end Operation

end TapeMachine
