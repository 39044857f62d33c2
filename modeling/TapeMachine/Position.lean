import TapeMachine.Json.Decode
import TapeMachine.Text.Blank

/-!
Positions of the head and distances between them. Both are held in 64 bits:
arithmetic stops at the nearer bound, and only turning a distance round wraps, for
the least distance has no opposite.
-/
namespace TapeMachine

/-- The whole number of 64 bits nearest to `i`. -/
def clamp (i : Int) : Int := max leastIndex (min i greatestIndex)

theorem leastIndex_le_clamp (i : Int) : leastIndex ≤ clamp i := by
  unfold clamp; omega

theorem clamp_le_greatestIndex (i : Int) : clamp i ≤ greatestIndex := by
  unfold clamp leastIndex greatestIndex; omega

theorem clamp_of_mem {i : Int} (lower : leastIndex ≤ i) (upper : i ≤ greatestIndex) :
    clamp i = i := by
  unfold clamp; omega

/-- A place on the tape. -/
structure Position where
  index : Int
  lower : leastIndex ≤ index
  upper : index ≤ greatestIndex
  deriving DecidableEq

/-- How far one position is to the right of another. -/
structure Distance where
  cells : Int
  lower : leastIndex ≤ cells
  upper : cells ≤ greatestIndex
  deriving DecidableEq

namespace Position

@[ext] theorem ext {p q : Position} (h : p.index = q.index) : p = q := by
  cases p; cases q; cases h; rfl

instance : Repr Position := ⟨fun p n => reprPrec p.index n⟩

/-- The position nearest to an index. -/
def ofInt (i : Int) : Position := ⟨clamp i, leastIndex_le_clamp i, clamp_le_greatestIndex i⟩

@[simp] theorem index_ofInt (i : Int) : (ofInt i).index = clamp i := rfl

def origin : Position := ofInt 0

instance : Inhabited Position := ⟨origin⟩

/-- Moves `n` cells to the right, as far as there are positions. -/
def advance (p : Position) (n : Int) : Position := ofInt (p.index + n)

/-- Decimal digits after an optional sign, blanks around them apart. -/
def parseInt? (raw : String) : Option Int :=
  let value (ds : List Char) : Option Int :=
    if ds.isEmpty ∨ !ds.all Char.isDigit then none else some (Decimal.numeralValue ds)
  match (Text.trim raw).toList with
  | '+' :: ds => value ds
  | '-' :: ds => (value ds).map (- ·)
  | ds => value ds

/-- The position with an index, if 64 bits hold it. -/
def ofInt? (i : Int) : Option Position :=
  if h : leastIndex ≤ i ∧ i ≤ greatestIndex then some ⟨i, h.1, h.2⟩ else none

def ofText? (raw : String) : Except Rejection Position :=
  match (parseInt? raw).bind ofInt? with
  | some p => .ok p
  | none => .error (.position raw)

/-- The value of a double that is a whole number. -/
def wholeValue? (x : Float) : Option Int :=
  if x.isNaN || x.isInf then none
  else
    let b := Decimal.Binary.ofBits x.toBits
    let magnitude : Option Nat :=
      if 0 ≤ b.exponent then some (b.mantissa * Nat.pow 2 b.exponent.toNat)
      else
        let unit := Nat.pow 2 (-b.exponent).toNat
        if b.mantissa % unit = 0 then some (b.mantissa / unit) else none
    magnitude.map fun n => if Decimal.isNegative x.toBits then -n else n

def ofFloat? (x : Float) : Except Rejection Position :=
  match (wholeValue? x).bind ofInt? with
  | some p => .ok p
  | none => .error (.position (Decimal.plain.text x))

def toJson (p : Position) : Json := .int p.index

def decode : Json.Decoder Position := fun v =>
  ofInt <$> Json.Decode.within .integer leastIndex greatestIndex v

end Position

namespace Distance

@[ext] theorem ext {d e : Distance} (h : d.cells = e.cells) : d = e := by
  cases d; cases e; cases h; rfl

instance : Repr Distance := ⟨fun d n => reprPrec d.cells n⟩

/-- The distance nearest to a number of cells. -/
def ofInt (i : Int) : Distance := ⟨clamp i, leastIndex_le_clamp i, clamp_le_greatestIndex i⟩

@[simp] theorem cells_ofInt (i : Int) : (ofInt i).cells = clamp i := rfl

/-- The distance of a number of cells, if 64 bits hold it. -/
def ofInt? (i : Int) : Option Distance :=
  if h : leastIndex ≤ i ∧ i ≤ greatestIndex then some ⟨i, h.1, h.2⟩ else none

/-- From `q` to `p`. -/
def between (q p : Position) : Distance := ofInt (p.index - q.index)

/-- The way back. The least distance has no opposite in 64 bits and is its own. -/
def inverse (d : Distance) : Distance :=
  if h : d.cells = leastIndex then d
  else ⟨-d.cells, by
    have := d.upper
    unfold leastIndex greatestIndex at *
    omega, by
    have := d.lower
    unfold leastIndex greatestIndex at *
    omega⟩

/-- How far a distance reaches either way. That of the least one does not fit into 64 bits and
comes out below zero. -/
def width (d : Distance) : Int := max d.cells d.inverse.cells

end Distance

/-- A number of cells as a distance to go: at most the greatest distance. -/
def cellCount (n : Nat) : Int := min n greatestIndex

end TapeMachine
