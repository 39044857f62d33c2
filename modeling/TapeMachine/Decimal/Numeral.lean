/-!
Numbers written in decimal digits, the highest first.
-/
namespace TapeMachine.Decimal

def digitValue (c : Char) : Nat := c.toNat - '0'.toNat

/-- The number that digits write. -/
def numeralValue (digits : List Char) : Nat :=
  digits.foldl (fun n c => 10 * n + digitValue c) 0

end TapeMachine.Decimal
