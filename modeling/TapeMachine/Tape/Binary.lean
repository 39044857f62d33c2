import TapeMachine.Error
import TapeMachine.Tape.Basic

/-!
Binary numbers on a tape: all visited cells, the highest place on the left.
-/
namespace TapeMachine

/-- A number with the digits it was read from. -/
structure BinaryNumber where
  bits : String
  value : Nat
  deriving DecidableEq, Repr

def BinaryNumber.length (n : BinaryNumber) : Nat := n.bits.length

/-- The value of binary digits, the highest first. -/
def binaryValue (bits : List Char) : Nat :=
  bits.foldl (fun n c => 2 * n + if c = '1' then 1 else 0) 0

def isBinary (s : Symbol) : Bool := s.text == "0" || s.text == "1"

/-- The least number that takes more than 128 bits. -/
def binaryBound : Nat := 0x100000000000000000000000000000000

/-- The number on the visited cells, if it takes no more than 128 bits. -/
def Tape.binary (t : Tape) : Except Error BinaryNumber :=
  match t.visited.find? fun (_, s) => !isBinary s with
  | some (i, s) => .error (.nonBinary s i)
  | none =>
    let bits := String.join (t.visited.map fun (_, s) => s.text)
    let value := binaryValue bits.toList
    if value < binaryBound then .ok ⟨bits, value⟩ else .error (.binaryTooLarge bits)

end TapeMachine
