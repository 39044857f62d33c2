/-!
The shortest decimal that reads back as a given binary fraction. A finite double
is `mantissa * 2 ^ exponent`; the reals that round to it form an interval around
it, and the fewest digits win that name a point of that interval. Among decimals
of that length the nearest is taken, a tie going to the even digit.
-/
namespace TapeMachine.Decimal

/-- A positive number `mantissa * 2 ^ exponent`. The gap to the next smaller double is half
the gap to the next larger one exactly when `narrowBelow`. -/
structure Binary where
  mantissa : Nat
  exponent : Int
  narrowBelow : Bool
  deriving DecidableEq, Repr

/-- A number `digits * 10 ^ exponent`. -/
structure Digits where
  digits : Nat
  exponent : Int
  deriving DecidableEq, Repr

/-- The magnitude of a finite double, read off its bits. -/
def Binary.ofBits (bits : UInt64) : Binary :=
  let lead := 0x10000000000000
  let fraction := bits.toNat % lead
  let biased : Nat := bits.toNat / lead % 0x800
  if biased = 0 then ⟨fraction, -1074, false⟩
  else ⟨fraction + lead, (biased : Int) - 1075, fraction = 0 && 1 < biased⟩

/-- Whether the sign bit of a double is set. -/
def isNegative (bits : UInt64) : Bool := 0x8000000000000000 ≤ bits.toNat

/-- The value and the ends of its rounding interval as numerators over one denominator. -/
structure Interval where
  low : Nat
  value : Nat
  high : Nat
  unit : Nat
  closed : Bool
  deriving DecidableEq, Repr

def Binary.interval (b : Binary) : Interval :=
  let scale := Nat.pow 2 (b.exponent - 2).toNat
  { low := (4 * b.mantissa - if b.narrowBelow then 1 else 2) * scale
    value := 4 * b.mantissa * scale
    high := (4 * b.mantissa + 2) * scale
    unit := Nat.pow 2 (2 - b.exponent).toNat
    closed := b.mantissa % 2 = 0 }

/-- The same interval measured in units of `10 ^ k`. -/
def Interval.inUnits (i : Interval) (k : Int) : Interval :=
  let up := Nat.pow 10 (-k).toNat
  { i with
    low := i.low * up, value := i.value * up, high := i.high * up
    unit := i.unit * Nat.pow 10 k.toNat }

/-- Whether the whole number `d` of units lies in the interval. -/
def Interval.holds (i : Interval) (d : Nat) : Bool :=
  if i.closed then i.low ≤ d * i.unit && d * i.unit ≤ i.high
  else i.low < d * i.unit && d * i.unit < i.high

/-- The whole number of units in the interval that is nearest its value, if there is one
beside it. -/
def Interval.nearest? (i : Interval) : Option Nat :=
  let below := i.value / i.unit
  let above := below + 1
  match i.holds below, i.holds above with
  | false, false => none
  | true, false => some below
  | false, true => some above
  | true, true =>
    let fromBelow := 2 * (i.value - below * i.unit)
    if fromBelow < i.unit then some below
    else if i.unit < fromBelow then some above
    else if below % 2 = 0 then some below else some above

/-- The least `k` from which a value below one unit reaches it when multiplied by `10 ^ k`. -/
def Interval.placesBelow (i : Interval) : Nat → Nat → Nat
  | 0, k => k
  | fuel + 1, k => if i.unit ≤ i.value * Nat.pow 10 k then k else placesBelow i fuel (k + 1)

/-- The place of the leading digit: the largest `e` with `10 ^ e` at most the value. No double
has its leading digit more than 324 places below one. -/
def Interval.magnitude (i : Interval) : Int :=
  if i.unit ≤ i.value then (Nat.toDigits 10 (i.value / i.unit)).length - 1
  else -(i.placesBelow 400 1 : Int)

/-- Moves trailing zeros of the digits into the exponent. -/
def Digits.strip : Nat → Digits → Digits
  | 0, d => d
  | fuel + 1, d =>
    if d.digits ≠ 0 ∧ d.digits % 10 = 0 then strip fuel ⟨d.digits / 10, d.exponent + 1⟩ else d

/-- The fewest digits that read back; seventeen always suffice for a double. -/
def shortest (b : Binary) : Digits :=
  if b.mantissa = 0 then ⟨0, 0⟩
  else
    let i := b.interval
    let top := i.magnitude
    let found := (List.range 17).findSome? fun (n : Nat) =>
      let k := top - n
      (i.inUnits k).nearest?.map fun d => (⟨d, k⟩ : Digits)
    match found with
    | some d => d.strip 20
    | none => ⟨i.value / i.unit, 0⟩

end TapeMachine.Decimal
