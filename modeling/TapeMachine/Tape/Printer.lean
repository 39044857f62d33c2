import TapeMachine.Tape.Basic

/-!
Tapes for people to read: the cells from the first to the last that is not blank,
and the one under the head between asterisks in any case.
-/
namespace TapeMachine.Tape

/-- The first and the last position to show. -/
def shownRange (t : Tape) : Int × Int :=
  let filled := (span t.first t.last).filter t.isFilled
  let cursor := t.cursor.index
  (min (filled.head?.getD cursor) cursor, max (filled.getLast?.getD cursor) cursor)

def shownCell (t : Tape) (i : Int) : String :=
  let text := (t.symbolAt i).text
  if i = t.cursor.index then "*" ++ text ++ "*" else text

def text (t : Tape) : String :=
  let (first, last) := t.shownRange
  ", ".intercalate ((span first last).map t.shownCell)

end TapeMachine.Tape
