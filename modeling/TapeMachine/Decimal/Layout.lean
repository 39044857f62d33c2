import TapeMachine.Decimal.Shortest

/-!
Layouts of shortest decimals: where positional digits end and an exponent begins,
and whether a whole number keeps its point.
-/
namespace TapeMachine.Decimal

/-- Decisions of a number format. A decimal whose leading digit stands at a place `e` is
written positionally when `positional e`. -/
structure Layout where
  positional : Int → Bool
  wholePoint : Bool

/-- The digits of `d` written out in full, `tail` following a whole number. -/
def positionalText (tail : String) (d : Digits) : String :=
  let ds := Nat.toDigits 10 d.digits
  if 0 ≤ d.exponent then
    String.ofList (ds ++ List.replicate d.exponent.toNat '0') ++ tail
  else
    let places := (-d.exponent).toNat
    let padded := List.replicate (places + 1 - ds.length) '0' ++ ds
    let cut := padded.length - places
    String.ofList (padded.take cut ++ '.' :: padded.drop cut)

/-- One digit, then the others after a point, then the signed place of the first. -/
def exponentText (d : Digits) : String :=
  let ds := Nat.toDigits 10 d.digits
  let e := d.exponent + (ds.length - 1 : Int)
  let body := match ds with
    | [] => []
    | [c] => [c]
    | c :: rest => c :: '.' :: rest
  String.ofList body ++ "e" ++ (if 0 ≤ e then "+" else "-") ++ toString e.natAbs

def Layout.digits (l : Layout) (d : Digits) : String :=
  if l.positional (d.exponent + ((Nat.toDigits 10 d.digits).length - 1 : Int)) then
    positionalText (if l.wholePoint then ".0" else "") d
  else exponentText d

/-- The text of a double: sign, then the shortest digits; the values that are no numbers have
names. -/
def Layout.text (l : Layout) (x : Float) : String :=
  let bits := x.toBits
  if x.isNaN then "NaN"
  else
    let sign := if isNegative bits then "-" else ""
    sign ++ if x.isInf then "inf" else l.digits (shortest (.ofBits bits))

/-- Every digit is written and a whole number has no point. -/
def plain : Layout := ⟨fun _ => true, false⟩

end TapeMachine.Decimal
