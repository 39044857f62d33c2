import Mathlib.Order.Bounds.Basic
import TapeMachine.Proofs.TapeLanguage
import TapeMachine.Proofs.VisitedRange
import TapeMachine.Proofs.WrittenRow
import TapeMachine.Tape.Printer

/-!
Tapes that are shown and read back. A text shows the cells from the first to the last that is
not blank, and the head between asterisks, but not where on the tape they are. Main statement:
a tape that is loaded from the text of another one has the same cells and the same head, moved
so that the first shown cell is at zero, and the same text; symbols with commas or asterisks
apart.
-/
namespace TapeMachine

/-- A symbol that can stand in the text of a tape. -/
def Symbol.Writable (s : Symbol) : Prop := ',' ∉ s.text.toList ∧ '*' ∉ s.text.toList

instance (s : Symbol) : Decidable s.Writable := inferInstanceAs (Decidable (_ ∧ _))

namespace Tape

/-- The positions that a text of the tape has to show. -/
def Shown (t : Tape) : Set Int := { i | i = t.cursor.index ∨ t.symbolAt i ≠ t.blank }

variable {t u : Tape}

theorem isFilled_iff {i : Int} : t.isFilled i = true ↔ t.symbolAt i ≠ t.blank := by
  unfold isFilled symbolAt
  cases t.cell i <;> simp

/-- The visited cells that are not blank are all there are. -/
theorem Covered.mem_filled (h : t.Covered) {i : Int} :
    i ∈ (span t.first t.last).filter t.isFilled ↔ t.symbolAt i ≠ t.blank := by
  rw [List.mem_filter, isFilled_iff, mem_span]
  refine and_iff_right_of_imp fun hi => ?_
  refine Classical.byContradiction fun hout => hi ?_
  rw [symbolAt, h.cell_eq_none hout]
  rfl

theorem filled_increasing (t : Tape) :
    ((span t.first t.last).filter t.isFilled).Pairwise (· < ·) :=
  (span_increasing _ _).filter _

theorem Covered.shown_eq (h : t.Covered) :
    t.Shown = insert t.cursor.index { i | i ∈ (span t.first t.last).filter t.isFilled } := by
  ext i
  exact or_congr_right h.mem_filled.symm

/-- A text begins with the first of the positions that it has to show. -/
theorem Covered.isLeast_shown (h : t.Covered) : IsLeast t.Shown t.shownRange.1 := by
  rw [h.shown_eq, shownRange]
  cases hf : ((span t.first t.last).filter t.isFilled).head? with
  | none => simp [List.head?_eq_none_iff.mp hf]
  | some a =>
    have ha : IsLeast { i | i ∈ (span t.first t.last).filter t.isFilled } a :=
      ⟨List.mem_of_head? hf, fun i hi => head?_le t.filled_increasing hf hi⟩
    rw [Option.getD_some, min_comm]
    exact ha.insert t.cursor.index

/-- It ends with the last of them. -/
theorem Covered.isGreatest_shown (h : t.Covered) : IsGreatest t.Shown t.shownRange.2 := by
  rw [h.shown_eq, shownRange]
  cases hl : ((span t.first t.last).filter t.isFilled).getLast? with
  | none => simp [List.getLast?_eq_none_iff.mp hl]
  | some b =>
    have hb : IsGreatest { i | i ∈ (span t.first t.last).filter t.isFilled } b :=
      ⟨List.mem_of_getLast? hl, fun i hi => le_getLast? t.filled_increasing hl hi⟩
    rw [Option.getD_some, max_comm]
    exact hb.insert t.cursor.index

end Tape

namespace TapeText

/-- A gap before a text belongs to no piece of it. -/
theorem pieces_gap (text : List Char) : pieces (' ' :: text) = pieces text := by
  by_cases hcomma : ',' ∈ text
  · obtain ⟨p, more, rfl, hp⟩ := List.eq_append_cons_of_mem hcomma
    have hp' : ',' ∉ ' ' :: p := by simpa using hp
    rw [pieces_front hp, ← List.cons_append, pieces_front hp']
    rfl
  · rw [pieces_last hcomma, pieces_last (p := ' ' :: text) (by simpa using hcomma)]
    rfl

/-- Texts that are joined by commas and spaces are the pieces of the whole. -/
theorem pieces_intercalate {ps : List (List Char)} (hne : ps ≠ []) (h : ∀ p ∈ ps, ',' ∉ p) :
    pieces ([',', ' '].intercalate ps) = ps.map (·.dropWhile isGap) := by
  induction ps with
  | nil => exact absurd rfl hne
  | cons p ps ih =>
    have hp := h p List.mem_cons_self
    cases ps with
    | nil => rw [List.intercalate_singleton, pieces_last hp]; rfl
    | cons q ps =>
      have hrest := ih (List.cons_ne_nil q ps) fun p hp => h p (List.mem_cons_of_mem _ hp)
      rw [List.intercalate_cons_cons, List.append_assoc, List.cons_append, pieces_front hp,
        List.singleton_append, pieces_gap, hrest]
      rfl

end TapeText

theorem isBlank_of_isGap {c : Char} (h : TapeText.isGap c = true) : Text.isBlank c = true := by
  rcases (by simpa [TapeText.isGap] using h : c = ' ' ∨ c = '\t') with rfl | rfl <;> decide

/-- What is dropped by the narrower rule is dropped by the wider one anyway. -/
theorem dropWhile_isBlank_dropWhile_isGap (cs : List Char) :
    (cs.dropWhile TapeText.isGap).dropWhile Text.isBlank = cs.dropWhile Text.isBlank := by
  induction cs with
  | nil => rfl
  | cons c cs ih =>
    cases hc : TapeText.isGap c with
    | true => simp [hc, isBlank_of_isGap hc, ih]
    | false => simp [hc]

/-- Gaps before its text make no other symbol. -/
theorem Symbol.ofText_dropWhile_isGap (s : Symbol) :
    ofText (String.ofList (s.text.toList.dropWhile TapeText.isGap)) = s := by
  have htrim : Text.trim (String.ofList (s.text.toList.dropWhile TapeText.isGap)) =
      Text.trim s.text := by
    simp [Text.trim, Text.dropEnds, dropWhile_isBlank_dropWhile_isGap]
  have hsame : ofText (String.ofList (s.text.toList.dropWhile TapeText.isGap)) = ofText s.text := by
    apply Symbol.ext
    simp only [ofText, normalize, htrim]
  rw [hsame, ofText_text]

namespace Tape

variable {t u : Tape}

/-- What the text of the tape shows of a position. -/
theorem toList_shownCell (t : Tape) (i : Int) :
    (t.shownCell i).toList =
      if i = t.cursor.index then '*' :: ((t.symbolAt i).text.toList ++ ['*'])
      else (t.symbolAt i).text.toList := by
  unfold shownCell
  split <;> simp

theorem toList_text (t : Tape) :
    t.text.toList = [',', ' '].intercalate
      ((span t.shownRange.1 t.shownRange.2).map fun i => (t.shownCell i).toList) := by
  rw [text, String.toList_intercalate, List.map_map]
  rfl

/-- The blank and all symbols on the tape can stand in a text. -/
structure Writable (t : Tape) : Prop where
  blank : t.blank.Writable
  cells : ∀ i s, t.cell i = some s → s.Writable

theorem Writable.symbolAt (h : t.Writable) (i : Int) : (t.symbolAt i).Writable := by
  unfold Tape.symbolAt
  cases hc : t.cell i with
  | none => exact h.blank
  | some s => exact h.cells i s hc

theorem head_shown (t : Tape) :
    t.shownRange.1 ≤ t.cursor.index ∧ t.cursor.index ≤ t.shownRange.2 :=
  ⟨Int.min_le_right _ _, Int.le_max_right _ _⟩

/-- The piece of the text that shows a position. -/
def piece (t : Tape) (i : Int) : List Char := (t.shownCell i).toList.dropWhile TapeText.isGap

/-- The head's cell is shown as a marked one. -/
theorem Writable.isMarked_piece (h : t.Writable) :
    TapeText.IsMarked (t.symbolAt t.cursor.index).text.toList (t.piece t.cursor.index) := by
  refine ⟨(h.symbolAt _).2, [], by simp, ?_⟩
  rw [piece, toList_shownCell, if_pos rfl]
  rfl

/-- Any other cell is shown as a plain one, by its symbol. -/
theorem piece_of_ne {i : Int} (hi : i ≠ t.cursor.index) :
    t.piece i = (t.symbolAt i).text.toList.dropWhile TapeText.isGap := by
  rw [piece, toList_shownCell, if_neg hi]

theorem Writable.isPlain_piece (h : t.Writable) {i : Int} (hi : i ≠ t.cursor.index) :
    TapeText.IsPlain (t.piece i) := by
  rw [piece_of_ne hi]
  exact fun hmem => (h.symbolAt i).2 ((List.dropWhile_sublist _).subset hmem)

theorem Writable.pieces_text (h : t.Writable) :
    TapeText.pieces t.text.toList = (span t.shownRange.1 t.shownRange.2).map t.piece := by
  have hhead := t.head_shown
  have hne : span t.shownRange.1 t.shownRange.2 ≠ [] :=
    List.ne_nil_of_mem (mem_span.mpr hhead)
  rw [toList_text, TapeText.pieces_intercalate (by simpa using hne), List.map_map]
  · rfl
  · intro p hp
    obtain ⟨i, _, rfl⟩ := List.mem_map.mp hp
    have hcomma := (h.symbolAt i).1
    rw [toList_shownCell]
    split <;> simpa using hcomma

theorem Writable.getElem?_pieces (h : t.Writable) (n : Nat) :
    (TapeText.pieces t.text.toList)[n]? =
      if t.shownRange.1 + n ≤ t.shownRange.2 then some (t.piece (t.shownRange.1 + n))
      else none := by
  rw [h.pieces_text, getElem?_map_span]

/-- Only the head's cell is marked. -/
theorem Writable.markedAt (h : t.Writable) {n : Nat}
    (hn : TapeText.MarkedAt (TapeText.pieces t.text.toList) n) :
    t.shownRange.1 + n = t.cursor.index := by
  obtain ⟨q, inner, hq, hmarked⟩ := hn
  rw [h.getElem?_pieces] at hq
  split at hq
  next =>
    cases hq
    refine Classical.byContradiction fun hne => ?_
    exact h.isPlain_piece hne (TapeText.mem_of_isMarked hmarked)
  next => cases hq

/-- Every piece is read as the symbol at its position, and the marked one gives the head's place. -/
theorem Writable.follows (h : t.Writable) {parsed : TapeText}
    (hparsed : parsed.Follows (TapeText.pieces t.text.toList)) {n : Nat}
    (hn : t.shownRange.1 + n ≤ t.shownRange.2) :
    parsed.cells[n]? = some (t.symbolAt (t.shownRange.1 + n)) ∧
      (t.shownRange.1 + n = t.cursor.index → parsed.cursor = n) := by
  have hpiece := h.getElem?_pieces n
  rw [if_pos hn] at hpiece
  by_cases hi : t.shownRange.1 + n = t.cursor.index
  · rw [hi] at hpiece ⊢
    obtain ⟨hcell, hcursor⟩ := hparsed.marked n _ _ hpiece h.isMarked_piece
    rw [hcell, String.ofList_toList, Symbol.ofText_text]
    exact ⟨rfl, fun _ => hcursor⟩
  · have hcell := hparsed.plain n _ hpiece (h.isPlain_piece hi)
    rw [hcell, piece_of_ne hi, Symbol.ofText_dropWhile_isGap]
    exact ⟨rfl, fun he => absurd he hi⟩

/-- The text of a tape is read as the cells that it shows, with the head where it is among them. -/
theorem Writable.parse_text (h : t.Writable) :
    TapeText.parse t.text = .ok ⟨(span t.shownRange.1 t.shownRange.2).map t.symbolAt,
      (t.cursor.index - t.shownRange.1).toNat⟩ := by
  have hhead := t.head_shown
  obtain ⟨parsed, hparsed⟩ : ∃ parsed, TapeText.parse t.text = .ok parsed := by
    refine (TapeText.exists_parse_iff t.text).mpr ⟨fun q hq => ?_, fun m n hm hn => ?_⟩
    · rw [h.pieces_text] at hq
      obtain ⟨i, _, rfl⟩ := List.mem_map.mp hq
      by_cases hi : i = t.cursor.index
      · exact .inr ⟨_, hi ▸ h.isMarked_piece⟩
      · exact .inl (h.isPlain_piece hi)
    · have hm := h.markedAt hm
      have hn := h.markedAt hn
      omega
  have hfollows := TapeText.follows_of_parse hparsed
  have hcells : parsed.cells = (span t.shownRange.1 t.shownRange.2).map t.symbolAt := by
    refine List.ext_getElem? fun n => ?_
    rw [getElem?_map_span]
    split
    next hn => exact (h.follows hfollows hn).1
    next hn =>
      have hlength : parsed.cells.length = (t.shownRange.2 - t.shownRange.1 + 1).toNat := by
        rw [hfollows.length, h.pieces_text, List.length_map, length_span]
      exact List.getElem?_eq_none (by omega)
  have hcursor : parsed.cursor = (t.cursor.index - t.shownRange.1).toNat :=
    (h.follows hfollows (by omega)).2 (by omega)
  rw [hparsed, ← hcells, ← hcursor]

/-- A tape on which everything is `d` cells further left than on another. -/
structure Moved (d : Int) (t u : Tape) : Prop where
  blank : u.blank = t.blank
  cursor : u.cursor.index = t.cursor.index - d
  symbolAt : ∀ i, u.symbolAt i = t.symbolAt (i + d)

namespace Moved

variable {d : Int}

theorem at_head (h : Moved d t u) (i : Int) : i = u.cursor.index ↔ i + d = t.cursor.index := by
  rw [h.cursor]
  omega

theorem mem_shown (h : Moved d t u) {i : Int} : i ∈ u.Shown ↔ i + d ∈ t.Shown :=
  or_congr (h.at_head i) (by rw [h.symbolAt, h.blank])

theorem shownRange_fst (h : Moved d t u) (ht : t.Covered) (hu : u.Covered) :
    u.shownRange.1 + d = t.shownRange.1 := by
  have hleast : IsLeast t.Shown (u.shownRange.1 + d) := by
    refine ⟨h.mem_shown.mp hu.isLeast_shown.1, fun i hi => ?_⟩
    have hle : u.shownRange.1 ≤ i - d :=
      hu.isLeast_shown.2 (h.mem_shown.mpr (by rw [Int.sub_add_cancel]; exact hi))
    omega
  exact hleast.unique ht.isLeast_shown

theorem shownRange_snd (h : Moved d t u) (ht : t.Covered) (hu : u.Covered) :
    u.shownRange.2 + d = t.shownRange.2 := by
  have hgreatest : IsGreatest t.Shown (u.shownRange.2 + d) := by
    refine ⟨h.mem_shown.mp hu.isGreatest_shown.1, fun i hi => ?_⟩
    have hle : i - d ≤ u.shownRange.2 :=
      hu.isGreatest_shown.2 (h.mem_shown.mpr (by rw [Int.sub_add_cancel]; exact hi))
    omega
  exact hgreatest.unique ht.isGreatest_shown

theorem shownCell (h : Moved d t u) (i : Int) : u.shownCell i = t.shownCell (i + d) := by
  simp only [Tape.shownCell, h.symbolAt, h.at_head]

/-- A text does not show where on the tape its cells are. -/
theorem text_eq (h : Moved d t u) (ht : t.Covered) (hu : u.Covered) : u.text = t.text := by
  have hcells : (span u.shownRange.1 u.shownRange.2).map u.shownCell =
      (span t.shownRange.1 t.shownRange.2).map t.shownCell := by
    refine List.ext_getElem? fun n => ?_
    have hiff : u.shownRange.1 + n ≤ u.shownRange.2 ↔ t.shownRange.1 + n ≤ t.shownRange.2 := by
      rw [← h.shownRange_fst ht hu, ← h.shownRange_snd ht hu]
      omega
    have hindex : u.shownRange.1 + n + d = t.shownRange.1 + n := by
      rw [← h.shownRange_fst ht hu]
      omega
    rw [getElem?_map_span, getElem?_map_span, h.shownCell, hindex]
    simp only [hiff]
  exact congrArg (", ".intercalate ·) hcells

end Moved

/-- Outside of what is shown there are blanks. -/
theorem Covered.symbolAt_outside (h : t.Covered) {i : Int}
    (hi : ¬(t.shownRange.1 ≤ i ∧ i ≤ t.shownRange.2)) : t.symbolAt i = t.blank := by
  refine Classical.byContradiction fun hne => hi ?_
  exact ⟨h.isLeast_shown.2 (.inr hne), h.isGreatest_shown.2 (.inr hne)⟩

/-- A tape that is filled with what another one shows has it from zero on. -/
theorem Covered.moved_fill (h : t.Covered) (hblank : u.blank = t.blank)
    (hroom : t.shownRange.2 - t.shownRange.1 ≤ greatestIndex) :
    Moved t.shownRange.1 t (HasHead.fill ((span t.shownRange.1 t.shownRange.2).map t.symbolAt)
      (.ofInt (t.cursor.index - t.shownRange.1).toNat) u) where
  blank := by rw [blank_fill, hblank]
  cursor := by
    have hhead := t.head_shown
    change clamp ((t.cursor.index - t.shownRange.1).toNat : Int) = _
    rw [clamp_of_mem (by unfold leastIndex; omega) (by omega)]
    omega
  symbolAt i := by
    have hlength : (((span t.shownRange.1 t.shownRange.2).map t.symbolAt).length : Int) ≤
        greatestIndex + 1 := by
      have hhead := t.head_shown
      rw [List.length_map, length_span]
      omega
    rw [Tape.symbolAt, cell_fill hlength, blank_fill, hblank, rowAt]
    by_cases hi : t.shownRange.1 ≤ i + t.shownRange.1 ∧ i + t.shownRange.1 ≤ t.shownRange.2
    · have hindex : t.shownRange.1 + ((i - 0).toNat : Int) = i + t.shownRange.1 := by omega
      rw [if_pos (by omega), getElem?_map_span, hindex, if_pos hi.2]
      rfl
    · rw [h.symbolAt_outside hi]
      split
      next hpos => rw [getElem?_map_span, if_neg (by omega)]; rfl
      next => rfl

theorem length_le_length_intercalate {α : Type} (a b : α) (ps : List (List α)) :
    ps.length ≤ ([a, b].intercalate ps).length + 1 := by
  induction ps with
  | nil => exact Nat.zero_le _
  | cons p ps ih =>
    cases ps with
    | nil => simp
    | cons q ps =>
      rw [List.intercalate_cons_cons]
      simp only [List.length_append, List.length_cons, List.length_nil] at ih ⊢
      omega

/-- A text is at least as long as the way that it shows. -/
theorem shownRange_le_length (t : Tape) :
    t.shownRange.2 - t.shownRange.1 ≤ (t.text.length : Int) := by
  have hlength := length_le_length_intercalate ',' ' '
    ((span t.shownRange.1 t.shownRange.2).map fun i => (t.shownCell i).toList)
  rw [← toList_text, String.length_toList, List.length_map, length_span] at hlength
  omega

end Tape

/-- Any tape can load the text of any reachable one that has the same blank and no comma or
asterisk in its symbols, in whatever layers both are. It is then the other tape, moved so that the
first of the head and of the cells that are not blank is at zero, and is shown by the same text.
There would not be positions for all cells of a text whose length 64 bits cannot count. -/
theorem text_reads_back {τ σ : Type} [HasHead τ] [HasHead σ] [Transparent σ] {t : τ}
    (ht : HasHead.Reachable t) (hwritable : (HasHead.tape t).Writable) (u : σ)
    (hblank : (HasHead.tape u).blank = (HasHead.tape t).blank) :
    let shown := HasHead.tape t
    ∃ v, HasHead.loadText shown.text u = .ok v ∧
      ((shown.text.length : Int) ≤ greatestIndex →
        let read := HasHead.tape v
        ∃ s, IsLeast { i | i = shown.cursor.index ∨ shown.symbolAt i ≠ shown.blank } s ∧
          read.cursor.index = shown.cursor.index - s ∧
          (∀ i, read.symbolAt i = shown.symbolAt (i + s)) ∧
          read.text = shown.text) := by
  intro shown
  have hcovered : shown.Covered := ht.truthful.2.covered
  let symbols := (Tape.span shown.shownRange.1 shown.shownRange.2).map shown.symbolAt
  let cursor := Position.ofInt (shown.cursor.index - shown.shownRange.1).toNat
  have hload : HasHead.loadText shown.text u = .ok (HasHead.fill symbols cursor u) := by
    rw [HasHead.loadText, hwritable.parse_text]
    rfl
  refine ⟨HasHead.fill symbols cursor u, hload, fun hlength => ?_⟩
  have hroom := Int.le_trans shown.shownRange_le_length hlength
  have hmoved := hcovered.moved_fill hblank hroom
  rw [Transparent.fill]
  exact ⟨shown.shownRange.1, hcovered.isLeast_shown, hmoved.cursor, hmoved.symbolAt,
    hmoved.text_eq hcovered (Tape.covered_fill ..)⟩

/-- A tape in two layers with two symbols before zero, one of them a space that is not the blank,
and the head beyond the last of them. -/
def spaced : Layer (Layer LoggedTape) :=
  let empty := LoggedTape.recording (.empty (.ofText "_")) none
  let written := (HeadEdit.write (.ofText "a b")).perform
    ((HeadEdit.left 2).perform (Layer.mk (Layer.mk empty)))
  (HeadEdit.right 4).perform
    ((HeadEdit.write .space).perform ((HeadEdit.right 1).perform written))

theorem reachable_spaced : HasHead.Reachable spaced := by
  have hstart := HasHead.Reachable.recording none (.empty (.ofText "_"))
  have hmoved := hstart.layer.layer.step (.head (.left 2) _)
  have hwritten := hmoved.step (.head (.write (.ofText "a b")) _)
  have hbeside := hwritten.step (.head (.right 1) _)
  have hspaced := hbeside.step (.head (.write .space) _)
  exact hspaced.step (.head (.right 4) _)

theorem writable_spaced : (HasHead.tape spaced).Writable where
  blank := by decide
  cells i s hs := by
    have hall : ∀ c ∈ (HasHead.tape spaced).visited, c.2.Writable := by decide
    exact hall (i, s) (reachable_spaced.truthful.2.covered.mem_visited hs)

theorem text_reads_back_spaced :
    let shown := HasHead.tape spaced
    let used := (Tape.empty (.ofText "_")).write (.ofText "z")
    HasHead.Reachable spaced ∧ shown.Writable ∧ used.blank = shown.blank ∧
    shown.text = "a b,  , _, _, _, *_*" ∧
    ∃ v : Tape, HasHead.loadText "a b,  , _, _, _, *_*" used = .ok v ∧
      v.cursor.index = 5 ∧ v.symbolAt 1 = .space ∧ v.text = shown.text := by
  intro shown used
  have htext : shown.text = "a b,  , _, _, _, *_*" := by decide
  have hblank : used.blank = shown.blank := by decide
  obtain ⟨v, hload, hread⟩ := text_reads_back reachable_spaced writable_spaced used hblank
  obtain ⟨s, hs, hcursor, hsymbols, hsame⟩ := hread (by rw [htext]; decide)
  have hfirst : s = -2 := hs.unique reachable_spaced.truthful.2.covered.isLeast_shown
  subst hfirst
  exact ⟨reachable_spaced, writable_spaced, hblank, htext, v, htext ▸ hload, hcursor, hsymbols 1,
    hsame⟩

end TapeMachine
