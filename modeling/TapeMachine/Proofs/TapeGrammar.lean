import Mathlib.Data.List.DropRight
import Mathlib.Data.List.TakeWhile
import TapeMachine.Tape.Text

/-!
The grammar of written tapes. Parsing expressions are read from left to right: a choice
takes its first alternative that goes on, a repetition goes on as long as it can, and
neither is tried another way later. Main statement: the grammar has one reading of every
text, and it is the one of the reader of tapes.
-/
namespace TapeMachine

/-- A piece of text that a grammar has singled out, and whether as a marked cell. -/
structure Token where
  marked : Bool
  chars : List Char
  deriving DecidableEq, Repr

/-- Parsing expressions. -/
inductive Peg where
  | empty
  | char (c : Char)
  | any
  | ending
  | seq (first second : Peg)
  | choice (first second : Peg)
  | many (item : Peg)
  | no (item : Peg)
  | token (marked : Bool) (item : Peg)

namespace Peg

/-- How an expression is read at the front of a text: with which tokens and what text left, or not
at all. -/
inductive Reads : Peg → List Char → Option (List Token × List Char) → Prop where
  | empty (cs : List Char) : Reads .empty cs (some ([], cs))
  | char (c : Char) (cs : List Char) : Reads (.char c) (c :: cs) (some ([], cs))
  | charFails {c : Char} {cs : List Char} (h : cs.head? ≠ some c) : Reads (.char c) cs none
  | any (c : Char) (cs : List Char) : Reads .any (c :: cs) (some ([], cs))
  | anyFails : Reads .any [] none
  | ending : Reads .ending [] (some ([], []))
  | endingFails (c : Char) (cs : List Char) : Reads .ending (c :: cs) none
  | seq {a b : Peg} {cs after left : List Char} {ts us : List Token}
      (ha : Reads a cs (some (ts, after))) (hb : Reads b after (some (us, left))) :
      Reads (.seq a b) cs (some (ts ++ us, left))
  | seqFails {a b : Peg} {cs : List Char} (ha : Reads a cs none) : Reads (.seq a b) cs none
  | seqFailsLater {a b : Peg} {cs after : List Char} {ts : List Token}
      (ha : Reads a cs (some (ts, after))) (hb : Reads b after none) : Reads (.seq a b) cs none
  | choice {a b : Peg} {cs left : List Char} {ts : List Token}
      (ha : Reads a cs (some (ts, left))) : Reads (.choice a b) cs (some (ts, left))
  | choiceSecond {a b : Peg} {cs : List Char} {o : Option (List Token × List Char)}
      (ha : Reads a cs none) (hb : Reads b cs o) : Reads (.choice a b) cs o
  | manyEnd {a : Peg} {cs : List Char} (ha : Reads a cs none) : Reads (.many a) cs (some ([], cs))
  | many {a : Peg} {cs after left : List Char} {ts us : List Token}
      (ha : Reads a cs (some (ts, after))) (hmore : Reads (.many a) after (some (us, left))) :
      Reads (.many a) cs (some (ts ++ us, left))
  | no {a : Peg} {cs : List Char} (ha : Reads a cs none) : Reads (.no a) cs (some ([], cs))
  | noFails {a : Peg} {cs left : List Char} {ts : List Token}
      (ha : Reads a cs (some (ts, left))) : Reads (.no a) cs none
  | token {marked : Bool} {a : Peg} {cs chars left : List Char} {ts : List Token}
      (h : cs = chars ++ left) (ha : Reads a cs (some (ts, left))) :
      Reads (.token marked a) cs (some ([⟨marked, chars⟩], left))
  | tokenFails {marked : Bool} {a : Peg} {cs : List Char} (ha : Reads a cs none) :
      Reads (.token marked a) cs none

/-- There is one way to read an expression. -/
theorem Reads.unique {e : Peg} {cs : List Char} {o o' : Option (List Token × List Char)}
    (h : Reads e cs o) (h' : Reads e cs o') : o = o' := by
  -- along the first reading: the second one cannot leave it at any place
  induction h generalizing o' with
  | empty cs => cases h'; rfl
  | char c cs =>
    cases h' with
    | char => rfl
    | charFails hne => exact absurd rfl hne
  | charFails hne =>
    cases h' with
    | char => exact absurd rfl hne
    | charFails => rfl
  | any c cs => cases h'; rfl
  | anyFails => cases h'; rfl
  | ending => cases h'; rfl
  | endingFails c cs => cases h'; rfl
  | seq _ _ iha ihb =>
    cases h' with
    | seq ha hb =>
      cases iha ha
      cases ihb hb
      rfl
    | seqFails ha => cases iha ha
    | seqFailsLater ha hb =>
      cases iha ha
      cases ihb hb
  | seqFails _ iha =>
    cases h' with
    | seq ha hb => cases iha ha
    | seqFails => rfl
    | seqFailsLater => rfl
  | seqFailsLater _ _ iha ihb =>
    cases h' with
    | seq ha hb =>
      cases iha ha
      cases ihb hb
    | seqFails => rfl
    | seqFailsLater => rfl
  | choice _ iha =>
    cases h' with
    | choice ha => exact iha ha
    | choiceSecond ha hb => cases iha ha
  | choiceSecond _ _ iha ihb =>
    cases h' with
    | choice ha => cases iha ha
    | choiceSecond ha hb => exact ihb hb
  | manyEnd _ iha =>
    cases h' with
    | manyEnd => rfl
    | many ha hmore => cases iha ha
  | many _ _ iha ihmore =>
    cases h' with
    | manyEnd ha => cases iha ha
    | many ha hmore =>
      cases iha ha
      cases ihmore hmore
      rfl
  | no _ iha =>
    cases h' with
    | no => rfl
    | noFails ha => cases iha ha
  | noFails _ iha =>
    cases h' with
    | no ha => cases iha ha
    | noFails => rfl
  | token hcs _ iha =>
    cases h' with
    | token hcs' ha =>
      cases iha ha
      rw [List.append_cancel_right (hcs.symm.trans hcs')]
    | tokenFails ha => cases iha ha
  | tokenFails _ iha =>
    cases h' with
    | token hcs ha => cases iha ha
    | tokenFails => rfl

/-- Characters of one sort are passed as far as they go. -/
theorem reads_many {item : Peg} {p : Char → Bool}
    (hread : ∀ c cs, p c = true → Reads item (c :: cs) (some ([], cs)))
    (hfail : ∀ cs, (∀ c, cs.head? = some c → p c = false) → Reads item cs none) (cs : List Char) :
    Reads (.many item) cs (some ([], cs.dropWhile p)) := by
  induction cs with
  | nil => exact .manyEnd (hfail [] fun c h => by cases h)
  | cons c cs ih =>
    cases hc : p c with
    | true =>
      rw [List.dropWhile_cons_of_pos hc]
      exact .many (hread c cs hc) ih
    | false =>
      rw [List.dropWhile_cons_of_neg (by simp [hc])]
      exact .manyEnd (hfail _ fun d hd => Option.some.inj hd ▸ hc)

end Peg

namespace TapeText

/-- Spaces and tabs. -/
def gaps : Peg := .many (.choice (.char ' ') (.char '\t'))

/-- One after the other, with gaps between them. -/
def spaced (first second : Peg) : Peg := .seq first (.seq gaps second)

/-- Any number of times, with gaps between them. -/
def listed (item : Peg) : Peg := .choice (.seq item (.many (.seq gaps item))) .empty

def cellText : Peg := .many (.seq (.no (.choice (.char ',') (.char '*'))) .any)

def markedCell : Peg := .token true (.seq (.char '*') (.seq cellText (.char '*')))

def plainCell : Peg := .token false cellText

def cell : Peg := .choice markedCell plainCell

def nextCell : Peg := spaced (.char ',') cell

/-- The grammar of written tapes. Gaps do not count around cells and commas; inside of a cell they
do. -/
def grammar : Peg := spaced .empty (spaced cell (spaced (listed nextCell) .ending))

open Peg

theorem reads_gaps (cs : List Char) : Reads gaps cs (some ([], cs.dropWhile isGap)) := by
  refine reads_many ?_ ?_ cs
  · intro c cs hc
    by_cases hspace : c = ' '
    · subst hspace
      exact .choice (.char ' ' cs)
    · have htab : c = '\t' := by simpa [isGap, hspace] using hc
      subst htab
      exact .choiceSecond (.charFails (by simp)) (.char '\t' cs)
  · intro cs hcs
    have hne (g : Char) (hg : isGap g = true) : cs.head? ≠ some g :=
      fun h => absurd hg (by simp [hcs g h])
    exact .choiceSecond (.charFails (hne ' ' rfl)) (.charFails (hne '\t' rfl))

theorem reads_cellText (cs : List Char) :
    Reads cellText cs (some ([], cs.dropWhile isCellChar)) := by
  refine reads_many ?_ ?_ cs
  · intro c cs hc
    obtain ⟨hcomma, hmark⟩ : c ≠ ',' ∧ c ≠ '*' := by simpa [isCellChar] using hc
    have hno : Reads (.choice (.char ',') (.char '*')) (c :: cs) none :=
      .choiceSecond (.charFails (by simpa using hcomma)) (.charFails (by simpa using hmark))
    exact .seq (.no hno) (.any c cs)
  · intro cs hcs
    cases cs with
    | nil =>
      have hno : Reads (.choice (.char ',') (.char '*')) [] none :=
        .choiceSecond (.charFails (by simp)) (.charFails (by simp))
      exact .seqFailsLater (.no hno) .anyFails
    | cons c cs =>
      by_cases hcomma : c = ','
      · subst hcomma
        exact .seqFails (.noFails (.choice (.char ',' cs)))
      · have hmark : c = '*' := by simpa [isCellChar, hcomma] using hcs c rfl
        subst hmark
        exact .seqFails (.noFails (.choiceSecond (.charFails (by simp)) (.char '*' cs)))

/-- A cell as the grammar singles it out, with its asterisks. -/
def Cell.token (c : Cell) : Token :=
  ⟨c.marked, if c.marked then '*' :: (c.chars ++ ['*']) else c.chars⟩

theorem reads_plainCell (cs : List Char) :
    Reads plainCell cs (some ([⟨false, cs.takeWhile isCellChar⟩], cs.dropWhile isCellChar)) :=
  .token List.takeWhile_append_dropWhile.symm (reads_cellText cs)

theorem reads_cell (text : List Char) :
    Reads cell text (some ([(scanCell text).1.token], (scanCell text).2)) := by
  unfold scanCell
  split
  next inner =>
    split
    next rest hrest =>
      have htext : '*' :: inner = '*' :: (inner.takeWhile isCellChar ++ ['*']) ++ rest := by
        rw [List.cons_append, List.append_assoc, List.singleton_append, ← hrest,
          List.takeWhile_append_dropWhile]
      have hcell := reads_cellText inner
      rw [hrest] at hcell
      exact .choice (.token htext (.seq (.char '*' inner) (.seq hcell (.char '*' rest))))
    next hrest =>
      have hlone : (inner.dropWhile isCellChar).head? ≠ some '*' := by
        intro h
        obtain ⟨rest, he⟩ := List.head?_eq_some_iff.mp h
        exact hrest rest he
      have hopen : Reads (.seq cellText (.char '*')) inner none :=
        .seqFailsLater (reads_cellText inner) (.charFails hlone)
      refine .choiceSecond (.tokenFails ?_) (reads_plainCell _)
      exact .seqFailsLater (.char '*' inner) hopen
  next hmark =>
    have hhead : text.head? ≠ some '*' := by
      intro h
      obtain ⟨inner, he⟩ := List.head?_eq_some_iff.mp h
      exact hmark inner he
    exact .choiceSecond (.tokenFails (.seqFails (.charFails hhead))) (reads_plainCell _)

theorem scan_of_comma {text after more : List Char} {c : Cell}
    (hfound : scanCell (text.dropWhile isGap) = (c, after))
    (hafter : after.dropWhile isGap = ',' :: more) :
    scan text = (c :: (scan more).1, (scan more).2) := by
  rw [scan, hfound]
  split
  next heq =>
    rw [hafter] at heq
    cases heq
    rfl
  next hne => exact absurd hafter (hne more)

theorem scan_of_end {text after left : List Char} {c : Cell}
    (hfound : scanCell (text.dropWhile isGap) = (c, after)) (hafter : after.dropWhile isGap = left)
    (hleft : left.head? ≠ some ',') : scan text = ([c], left) := by
  rw [scan, hfound]
  split
  next heq =>
    rw [hafter] at heq
    rw [heq] at hleft
    exact absurd rfl hleft
  next => rw [hafter]

/-- A cell after a comma is read as the first cell of what follows the comma. -/
theorem reads_nextCell (more : List Char) :
    Reads nextCell (',' :: more) (some ([(scanCell (more.dropWhile isGap)).1.token],
      (scanCell (more.dropWhile isGap)).2)) :=
  .seq (.char ',' more) (.seq (reads_gaps more) (reads_cell _))

theorem nextCell_fails {left : List Char} (h : left.head? ≠ some ',') : Reads nextCell left none :=
  .seqFails (.charFails h)

/-- The cells after the first one are read as long as commas join them, and gaps may be left. -/
theorem reads_others (text : List Char) :
    ∃ cs left, scan text = ((scanCell (text.dropWhile isGap)).1 :: cs, left.dropWhile isGap) ∧
      Reads (.many (.seq gaps nextCell)) (scanCell (text.dropWhile isGap)).2
        (some (cs.map Cell.token, left)) := by
  -- one round of the reader is one more time of the repetition
  fun_induction scan text with
  | case1 text found more hafter others ih =>
    obtain ⟨cs, left, hscan, hothers⟩ := ih
    have hgaps := reads_gaps found.2
    rw [hafter] at hgaps
    refine ⟨_ :: cs, left, ?_, .many (.seq hgaps (reads_nextCell more)) hothers⟩
    change (found.1 :: (scan more).1, (scan more).2) = _
    rw [hscan]
  | case2 text found hafter =>
    refine ⟨[], found.2, rfl, .manyEnd (.seqFailsLater (reads_gaps found.2) (nextCell_fails ?_))⟩
    intro h
    obtain ⟨more, he⟩ := List.head?_eq_some_iff.mp h
    exact hafter more he

/-- The same after gaps, for a repetition begins where its first item does. -/
theorem reads_listed (text : List Char) :
    ∃ cs left, scan text = ((scanCell (text.dropWhile isGap)).1 :: cs, left.dropWhile isGap) ∧
      Reads (listed nextCell) ((scanCell (text.dropWhile isGap)).2.dropWhile isGap)
        (some (cs.map Cell.token, left)) := by
  cases hfound : scanCell (text.dropWhile isGap) with
  | mk c after =>
    by_cases hcomma : (after.dropWhile isGap).head? = some ','
    · obtain ⟨more, hafter⟩ := List.head?_eq_some_iff.mp hcomma
      obtain ⟨cs, left, hscan, hothers⟩ := reads_others more
      refine ⟨(scanCell (more.dropWhile isGap)).1 :: cs, left, ?_, ?_⟩
      · rw [scan_of_comma hfound hafter, hscan]
      · rw [hafter]
        exact .choice (.seq (reads_nextCell more) hothers)
    · refine ⟨[], after.dropWhile isGap, ?_, ?_⟩
      · rw [scan_of_end hfound rfl hcomma, List.dropWhile_idempotent]
      · exact .choiceSecond (.seqFails (nextCell_fails hcomma)) (.empty _)

/-- The grammar goes on to the end of a text exactly if nothing is left by the reader, and with the
cells that the reader finds. -/
theorem reads_grammar (text : List Char) :
    Reads grammar text
      (if (scan text).2 = [] then some ((scan text).1.map Cell.token, []) else none) := by
  obtain ⟨cs, left, hscan, hlisted⟩ := reads_listed text
  have hstart := reads_gaps text
  have hfirst := reads_cell (text.dropWhile isGap)
  have hafter := reads_gaps (scanCell (text.dropWhile isGap)).2
  have hleft := reads_gaps left
  rw [hscan]
  cases hend : left.dropWhile isGap with
  | nil =>
    rw [hend] at hleft
    have hending := Reads.seq hlisted (.seq hleft .ending)
    simp only [List.append_nil] at hending
    rw [if_pos rfl]
    exact .seq (.empty text) (.seq hstart (.seq hfirst (.seq hafter hending)))
  | cons d rest =>
    rw [hend] at hleft
    have hending := Reads.seqFailsLater hlisted (.seqFailsLater hleft (.endingFails d rest))
    rw [if_neg (List.cons_ne_nil d rest)]
    exact .seqFailsLater (.empty text)
      (.seqFailsLater hstart (.seqFailsLater hfirst (.seqFailsLater hafter hending)))

theorem parse_eq_ok_iff (raw : String) (t : TapeText) :
    parse raw = .ok t ↔
      (scan raw.toList).2 = [] ∧ ((scan raw.toList).1.filter Cell.marked).length ≤ 1 ∧
        t = ⟨(scan raw.toList).1.map fun c => Symbol.ofText (String.ofList c.chars),
          ((scan raw.toList).1.findIdx? Cell.marked).getD 0⟩ := by
  dsimp only [parse]
  generalize scan raw.toList = found
  obtain ⟨cs, left⟩ := found
  cases left with
  | cons c left => simp
  | nil =>
    simp only [List.isEmpty_nil, Bool.not_true, Bool.false_eq_true, ↓reduceIte, true_and]
    split
    next hfilter => simp [hfilter]
    next hfilter =>
      have hlen : (cs.filter Cell.marked).length ≤ 1 := by
        cases hf : cs.filter Cell.marked with
        | nil => simp
        | cons first others =>
          cases others with
          | nil => simp
          | cons second others => exact absurd hf (hfilter first second others)
      simp [hlen, eq_comm]

/-- The symbol of a token, of a marked one without its asterisks. -/
def tokenSymbol (t : Token) : Symbol :=
  .ofText (String.ofList (if t.marked then t.chars.tail.dropLast else t.chars))

theorem tokenSymbol_token (c : Cell) : tokenSymbol c.token = .ofText (String.ofList c.chars) := by
  cases hmark : c.marked <;> simp [tokenSymbol, Cell.token, hmark]

/-- Parsing is reading by the grammar, and refusing a second mark. -/
theorem parse_eq_ok_iff_reads (raw : String) (t : TapeText) :
    parse raw = .ok t ↔
      ∃ tokens, grammar.Reads raw.toList (some (tokens, [])) ∧
        (tokens.filter Token.marked).length ≤ 1 ∧
        t = ⟨tokens.map tokenSymbol, (tokens.findIdx? Token.marked).getD 0⟩ := by
  have hreads := reads_grammar raw.toList
  have hsymbols (cs : List Cell) : (cs.map Cell.token).map tokenSymbol =
      cs.map fun c => Symbol.ofText (String.ofList c.chars) := by
    simp [tokenSymbol_token]
  have hmarked : Token.marked ∘ Cell.token = Cell.marked := rfl
  rw [parse_eq_ok_iff]
  constructor
  · rintro ⟨hend, hone, rfl⟩
    rw [if_pos hend] at hreads
    refine ⟨_, hreads, ?_, ?_⟩
    · rwa [List.filter_map, List.length_map, hmarked]
    · rw [hsymbols, List.findIdx?_map, hmarked]
  · rintro ⟨tokens, htokens, hone, rfl⟩
    have hsame := hreads.unique htokens
    split at hsame
    next hend =>
      cases hsame
      rw [List.filter_map, List.length_map, hmarked] at hone
      exact ⟨hend, hone, by rw [hsymbols, List.findIdx?_map, hmarked]⟩
    next => cases hsame

end TapeText

end TapeMachine
