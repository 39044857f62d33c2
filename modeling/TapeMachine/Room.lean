import TapeMachine.Tape.Basic

/-!
How much there is room for. Results and cells are each stored in one piece, and a piece
never has more bytes than a distance of 64 bits spans; often there is room for less. A
program that needs more than there is room for stops without an answer.
-/
namespace TapeMachine

/-- The greatest number of bytes that are stored in one piece. -/
def greatestPiece : Nat := greatestIndex.toNat

/-- The bytes of a cell: three words for a text, or for none. -/
def cellBytes : Nat := 24

/-- The bytes of a result: four texts, a counter and three flags, in whole words. -/
def resultBytes : Nat := 112

/-- How many results can be stored for a request, of which there is always room for one, and how
many cells for a tape. -/
structure Room where
  results : Nat
  cells : Nat
  results_pos : 0 < results
  results_fit : results * resultBytes ≤ greatestPiece
  cells_fit : cells * cellBytes ≤ greatestPiece

/-- The most that there can be room for. -/
def Room.greatest : Room where
  results := greatestPiece / resultBytes
  cells := greatestPiece / cellBytes
  results_pos := by decide
  results_fit := Nat.div_mul_le_self _ _
  cells_fit := Nat.div_mul_le_self _ _

/-- What a program has run short of when it stops. -/
inductive Shortage where
  | results | cells
  deriving DecidableEq, Repr

namespace Tape

/-- How many cells have to be added before one can be stored at `i`. -/
def missing (t : Tape) (i : Int) : Nat :=
  if i + t.offset < 0 then (-(i + t.offset)).toNat else (i + t.offset).toNat + 1 - t.cells.size

/-- Whether a cell can be stored at `i`. One that is there can always be replaced. -/
def fits (room : Room) (t : Tape) (i : Int) : Bool :=
  t.missing i = 0 || t.cells.size + t.missing i ≤ room.cells

end Tape

end TapeMachine
