/-!
Bounds of numbers held in 64 bits.
-/
namespace TapeMachine

/-- The least whole number of 64 bits, one of them for the sign. -/
def leastIndex : Int := -9223372036854775808

/-- The greatest whole number of 64 bits, one of them for the sign. -/
def greatestIndex : Int := 9223372036854775807

/-- The greatest number of things that 64 bits can count. -/
def greatestCount : Nat := 18446744073709551615

end TapeMachine
