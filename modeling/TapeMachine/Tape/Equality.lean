import TapeMachine.Tape.Basic

/-!
Comparing tapes cell by cell over all that either has visited.
-/
namespace TapeMachine.Tape

/-- Whether `p` holds of the `n` numbers from `a` on. -/
def allFrom (p : Int → Bool) (a : Int) : Nat → Bool
  | 0 => true
  | n + 1 => p a && allFrom p (a + 1) n

/-- Whether two tapes agree at `i`; with `ignoreBlanks` a blank may be written or not. -/
def agreeAt (ignoreBlanks : Bool) (t u : Tape) (i : Int) : Bool :=
  if ignoreBlanks then t.symbolAt i == u.symbolAt i else t.cell i == u.cell i

/-- Equality of tapes with the same blank, up to written blanks and the place of the head if
these are to be ignored. -/
def equals (t u : Tape) (ignoreBlanks ignoreCursor : Bool) : Bool :=
  let first := min t.first u.first
  let last := max t.last u.last
  t.blank == u.blank && (ignoreCursor || t.cursor == u.cursor) &&
    allFrom (agreeAt ignoreBlanks t u) first (last - first + 1).toNat

end TapeMachine.Tape
