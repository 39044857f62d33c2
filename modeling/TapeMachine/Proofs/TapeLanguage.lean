import Mathlib.Data.List.Forall2
import Mathlib.Data.List.TakeWhile
import TapeMachine.Proofs.TapeGrammar
import TapeMachine.Tape.Head

/-!
The language of written tapes, said of the pieces between commas without the reader. Main statement:
the texts that are tapes are those whose pieces all write cells, of which one at most is marked, and
the cells of the tape are those of the pieces.
-/
namespace TapeMachine.TapeText

/-- A text cut at its commas, without the gaps before each piece. -/
def pieces (text : List Char) : List (List Char) :=
  (text.splitOn ',').map (·.dropWhile isGap)

/-- A cell that is not marked is written as it is. -/
def IsPlain (piece : List Char) : Prop := '*' ∉ piece

/-- A marked cell is written between asterisks, and nothing but gaps come after it. -/
def IsMarked (inner piece : List Char) : Prop :=
  '*' ∉ inner ∧ ∃ gaps, (∀ c ∈ gaps, isGap c = true) ∧ piece = '*' :: (inner ++ '*' :: gaps)

/-- A cell that was found is the one that a piece writes. -/
inductive Spells (c : Cell) (piece : List Char) : Prop where
  | plain (hmark : c.marked = false) (h : IsPlain piece) (hchars : c.chars = piece)
  | marked (hmark : c.marked = true) (h : IsMarked c.chars piece)

/-- Texts are built of a last piece, and pieces with a comma before it. -/
theorem pieceInduction {motive : List Char → Prop} (last : ∀ p, ',' ∉ p → motive p)
    (front : ∀ p more, ',' ∉ p → motive more → motive (p ++ ',' :: more)) (text : List Char) :
    motive text := by
  induction hn : text.length using Nat.strongRecOn generalizing text with
  | ind n ih =>
    by_cases hcomma : ',' ∈ text
    · obtain ⟨p, more, rfl, hp⟩ := List.eq_append_cons_of_mem hcomma
      refine front p more hp (ih more.length ?_ more rfl)
      simp only [List.length_append, List.length_cons] at hn
      omega
    · exact last text hcomma

theorem pieces_last {p : List Char} (hp : ',' ∉ p) : pieces p = [p.dropWhile isGap] := by
  rw [pieces, List.splitOn_eq_singleton hp]
  rfl

theorem pieces_front {p : List Char} (hp : ',' ∉ p) (more : List Char) :
    pieces (p ++ ',' :: more) = p.dropWhile isGap :: pieces more := by
  rw [pieces, List.splitOn_append_cons_self_of_not_mem hp]
  rfl

/-- A piece that writes a cell. -/
def IsCell (piece : List Char) : Prop := IsPlain piece ∨ ∃ inner, IsMarked inner piece

theorem Spells.isCell {c : Cell} {piece : List Char} (h : Spells c piece) : IsCell piece := by
  cases h with
  | plain _ h _ => exact .inl h
  | marked _ h => exact .inr ⟨c.chars, h⟩

/-- What comes after a piece: the end of the text, or a comma. -/
def EndsPiece (rest : List Char) : Prop := ∀ c, rest.head? = some c → c = ','

variable {q rest : List Char}

theorem EndsPiece.dropWhile {p : Char → Bool} (h : EndsPiece rest) (hp : p ',' = false) :
    rest.dropWhile p = rest := by
  cases rest with
  | nil => rfl
  | cons c rest => rw [List.dropWhile_cons_of_neg (by simp [h c rfl, hp])]

theorem EndsPiece.takeWhile {p : Char → Bool} (h : EndsPiece rest) (hp : p ',' = false) :
    rest.takeWhile p = [] := by
  cases rest with
  | nil => rfl
  | cons c rest => rw [List.takeWhile_cons_of_neg (by simp [h c rfl, hp])]

theorem isCellChar_of_not_mem (hcomma : ',' ∉ q) (hmark : '*' ∉ q) (c : Char) (hc : c ∈ q) :
    isCellChar c = true := by
  have h₁ : c ≠ ',' := fun h => hcomma (h ▸ hc)
  have h₂ : c ≠ '*' := fun h => hmark (h ▸ hc)
  simp [isCellChar, h₁, h₂]

theorem mem_of_isMarked {inner piece : List Char} (h : IsMarked inner piece) : '*' ∈ piece := by
  obtain ⟨_, gaps, _, rfl⟩ := h
  exact List.mem_cons_self

theorem takeWhile_mark {a : List Char} (ha : '*' ∉ a) (b : List Char) :
    (a ++ '*' :: b).takeWhile (· != '*') = a := by
  have hchars : ∀ c ∈ a, (c != '*') = true := by
    intro c hc
    simpa using fun h : c = '*' => ha (h ▸ hc)
  rw [List.takeWhile_append_of_pos hchars, List.takeWhile_cons_of_neg (by decide),
    List.append_nil]

/-- The first asterisk of a text stands in one place only. -/
theorem eq_of_append_mark {a b a' b' : List Char} (ha : '*' ∉ a) (ha' : '*' ∉ a')
    (h : a ++ '*' :: b = a' ++ '*' :: b') : a = a' ∧ b = b' := by
  have hsame : a = a' := by rw [← takeWhile_mark ha b, h, takeWhile_mark ha' b']
  subst hsame
  exact ⟨rfl, List.tail_eq_of_cons_eq (List.append_cancel_left h)⟩

theorem IsMarked.unique {inner inner' piece : List Char} (h : IsMarked inner piece)
    (h' : IsMarked inner' piece) : inner = inner' := by
  obtain ⟨hinner, gaps, _, rfl⟩ := h
  obtain ⟨hinner', gaps', _, he⟩ := h'
  exact (eq_of_append_mark hinner hinner' (List.tail_eq_of_cons_eq he)).1

/-- How a reader passes the first piece of a text: it has found the cell that the piece writes, and
gaps apart it is at the end of the piece; or the piece writes no cell, and there is no comma where
the reader stands. -/
inductive ReadsFront (q rest : List Char) : Cell × List Char → Prop where
  | cell {c : Cell} {after : List Char} (h : Spells c q) (hafter : after.dropWhile isGap = rest) :
      ReadsFront q rest (c, after)
  | stuck {c : Cell} {after : List Char} (d : Char) (left : List Char) (h : ¬IsCell q)
      (hd : d ≠ ',') (hafter : after.dropWhile isGap = d :: left) : ReadsFront q rest (c, after)

/-- A text that begins with no asterisk begins with a plain cell. -/
theorem scanCell_of_head {text : List Char} (h : text.head? ≠ some '*') :
    scanCell text = (⟨false, text.takeWhile isCellChar, text.length,
      (text.dropWhile isCellChar).length⟩, text.dropWhile isCellChar) := by
  unfold scanCell
  split
  · exact absurd rfl h
  · rfl

theorem readsFront_plain (hcomma : ',' ∉ q) (hmark : '*' ∉ q) (hrest : EndsPiece rest) :
    ReadsFront q rest (scanCell (q ++ rest)) := by
  have hchars := isCellChar_of_not_mem hcomma hmark
  have hhead : (q ++ rest).head? ≠ some '*' := by
    cases q with
    | nil => exact fun h => absurd (hrest '*' h) (by decide)
    | cons c q => exact fun h => hmark (Option.some.inj h ▸ List.mem_cons_self)
  rw [scanCell_of_head hhead, List.takeWhile_append_of_pos hchars,
    List.dropWhile_append_of_pos hchars, hrest.takeWhile (by decide), hrest.dropWhile (by decide),
    List.append_nil]
  exact .cell (.plain rfl hmark rfl) (hrest.dropWhile (by decide))

/-- An asterisk after the beginning of a plain cell belongs to nothing. -/
theorem readsFront_late {x : Char} {a b : List Char} (hcomma : ',' ∉ x :: a)
    (hmark : '*' ∉ x :: a) (rest : List Char) :
    ReadsFront (x :: a ++ '*' :: b) rest (scanCell (x :: a ++ '*' :: b ++ rest)) := by
  have hchars := isCellChar_of_not_mem hcomma hmark
  have hx : x ≠ '*' := fun hx => hmark (hx ▸ List.mem_cons_self)
  rw [scanCell_of_head (by simpa using hx), List.append_assoc, List.dropWhile_append_of_pos hchars]
  refine .stuck '*' (b ++ rest) ?_ (by decide) rfl
  rintro (h | ⟨inner, _, gaps, _, he⟩)
  · exact h (by simp)
  · exact hx (List.head_eq_of_cons_eq he)

/-- So does one without a partner; an empty cell is before it. -/
theorem readsFront_lone {b : List Char} (hcomma : ',' ∉ b) (hmark : '*' ∉ b)
    (hrest : EndsPiece rest) : ReadsFront ('*' :: b) rest (scanCell ('*' :: b ++ rest)) := by
  have hchars := isCellChar_of_not_mem hcomma hmark
  have hdrop : (b ++ rest).dropWhile isCellChar = rest := by
    rw [List.dropWhile_append_of_pos hchars, hrest.dropWhile (by decide)]
  rw [List.cons_append]
  simp only [scanCell, hdrop]
  split
  next => exact absurd (hrest '*' rfl) (by decide)
  next =>
    refine .stuck '*' (b ++ rest) ?_ (by decide) rfl
    rintro (h | ⟨inner, _, gaps, _, he⟩)
    · exact h List.mem_cons_self
    · exact hmark (List.tail_eq_of_cons_eq he ▸ by simp)

/-- Two asterisks mark what is between them, and after them may come gaps only. -/
theorem readsFront_partner {inner gaps : List Char} (hcomma : ',' ∉ inner ++ '*' :: gaps)
    (hmark : '*' ∉ inner) (hrest : EndsPiece rest) :
    ReadsFront ('*' :: (inner ++ '*' :: gaps)) rest
      (scanCell ('*' :: (inner ++ '*' :: gaps) ++ rest)) := by
  obtain ⟨hinner, hgaps⟩ : ',' ∉ inner ∧ ',' ∉ gaps := by simpa using hcomma
  have hchars := isCellChar_of_not_mem hinner hmark
  have htake : (inner ++ '*' :: (gaps ++ rest)).takeWhile isCellChar = inner := by
    rw [List.takeWhile_append_of_pos hchars, List.takeWhile_cons_of_neg (by decide),
      List.append_nil]
  have hdrop : (inner ++ '*' :: (gaps ++ rest)).dropWhile isCellChar = '*' :: (gaps ++ rest) := by
    rw [List.dropWhile_append_of_pos hchars, List.dropWhile_cons_of_neg (by decide)]
  rw [List.cons_append, List.append_assoc, List.cons_append]
  simp only [scanCell, hdrop, htake]
  cases hleft : gaps.dropWhile isGap with
  | nil =>
    have hall : ∀ c ∈ gaps, isGap c = true := List.dropWhile_eq_nil_iff.mp hleft
    refine .cell (.marked rfl ⟨hmark, gaps, hall, rfl⟩) ?_
    rw [List.dropWhile_append_of_pos hall, hrest.dropWhile (by decide)]
  | cons d left =>
    refine .stuck d (left ++ rest) ?_ ?_ ?_
    · rintro (h | ⟨inner', hinner', gaps', hall, he⟩)
      · exact h List.mem_cons_self
      · have hsame := eq_of_append_mark hmark hinner' (List.tail_eq_of_cons_eq he)
        rw [← hsame.2] at hall
        rw [List.dropWhile_eq_nil_iff.mpr hall] at hleft
        cases hleft
    · rintro rfl
      exact hgaps ((List.dropWhile_sublist isGap).subset (hleft ▸ List.mem_cons_self))
    · rw [List.dropWhile_append, hleft]
      rfl

theorem readsFront (hcomma : ',' ∉ q) (hrest : EndsPiece rest) :
    ReadsFront q rest (scanCell (q ++ rest)) := by
  -- where the first asterisk is, and where the next one
  by_cases hmark : '*' ∈ q
  · obtain ⟨a, b, rfl, ha⟩ := List.eq_append_cons_of_mem hmark
    obtain ⟨hcommaA, hcommaB⟩ : ',' ∉ a ∧ ',' ∉ b := by simpa using hcomma
    cases a with
    | cons x a => exact readsFront_late hcommaA ha rest
    | nil =>
      by_cases hpartner : '*' ∈ b
      · obtain ⟨inner, gaps, rfl, hinner⟩ := List.eq_append_cons_of_mem hpartner
        exact readsFront_partner hcommaB hinner hrest
      · exact readsFront_lone hcommaB hpartner hrest
  · exact readsFront_plain hcomma hmark hrest

/-- Gaps before a piece do not reach beyond it. -/
theorem dropWhile_isGap_front (p : List Char) (hrest : EndsPiece rest) :
    (p ++ rest).dropWhile isGap = p.dropWhile isGap ++ rest := by
  rw [List.dropWhile_append]
  split
  next h => rw [List.isEmpty_iff.mp h, hrest.dropWhile (by decide), List.nil_append]
  next => rfl

theorem not_mem_dropWhile {p : List Char} (hp : ',' ∉ p) : ',' ∉ p.dropWhile isGap :=
  fun h => hp ((List.dropWhile_sublist isGap).subset h)

theorem scan_stuck {text after left : List Char} {c : Cell} {d : Char}
    (hfound : scanCell (text.dropWhile isGap) = (c, after))
    (hafter : after.dropWhile isGap = d :: left) (hd : d ≠ ',') : (scan text).2 ≠ [] := by
  rw [scan_of_end hfound hafter (by simpa using hd)]
  exact List.cons_ne_nil d left

/-- All pieces write cells and these were found, or some piece writes none and the reader has
stopped before the end. -/
theorem scan_spells (text : List Char) :
    ((scan text).2 = [] ∧ List.Forall₂ Spells (scan text).1 (pieces text)) ∨
      ((scan text).2 ≠ [] ∧ ∃ q ∈ pieces text, ¬IsCell q) := by
  -- the reader passes one piece in a round, and goes on only if it is at a comma then
  induction text using pieceInduction with
  | last p hp =>
    have hrest : EndsPiece [] := fun c h => by cases h
    have hfront := readsFront (not_mem_dropWhile hp) hrest
    rw [List.append_nil] at hfront
    rw [pieces_last hp]
    cases hfound : scanCell (p.dropWhile isGap) with
    | mk c after =>
      rw [hfound] at hfront
      cases hfront with
      | cell h hafter =>
        left
        rw [scan_of_end hfound hafter (by simp)]
        exact ⟨rfl, .cons h .nil⟩
      | stuck d left h hd hafter =>
        exact .inr ⟨scan_stuck hfound hafter hd, _, List.mem_cons_self, h⟩
  | front p more hp ih =>
    have hrest : EndsPiece (',' :: more) := fun c h => (Option.some.inj h).symm
    have hfront := readsFront (not_mem_dropWhile hp) hrest
    rw [← dropWhile_isGap_front p hrest] at hfront
    rw [pieces_front hp]
    cases hfound : scanCell ((p ++ ',' :: more).dropWhile isGap) with
    | mk c after =>
      rw [hfound] at hfront
      cases hfront with
      | cell h hafter =>
        rw [scan_of_comma hfound hafter]
        rcases ih with ⟨hend, hcells⟩ | ⟨hstop, q, hq, hbad⟩
        · exact .inl ⟨hend, .cons h hcells⟩
        · exact .inr ⟨hstop, q, List.mem_cons_of_mem _ hq, hbad⟩
      | stuck d left h hd hafter =>
        exact .inr ⟨scan_stuck hfound hafter hd, _, List.mem_cons_self, h⟩

/-- A member of one list is related to the member of the other with the same index. -/
theorem exists_getElem? {α β : Type} {R : α → β → Prop} {xs : List α} {ys : List β}
    (h : List.Forall₂ R xs ys) {n : Nat} {x : α} (hx : xs[n]? = some x) :
    ∃ y, ys[n]? = some y ∧ R x y := by
  obtain ⟨hn, rfl⟩ := List.getElem?_eq_some_iff.mp hx
  have hn' : n < ys.length := h.length_eq ▸ hn
  exact ⟨ys[n], List.getElem?_eq_getElem hn', h.get hn hn'⟩

variable {cs : List Cell} {ps : List (List Char)}

/-- Every piece writes the cell with its index. -/
theorem exists_cell (h : List.Forall₂ Spells cs ps) {n : Nat} {q : List Char}
    (hq : ps[n]? = some q) : ∃ c, cs[n]? = some c ∧ Spells c q :=
  exists_getElem? h.flip hq

/-- A text is read to its end exactly if all its pieces write cells. -/
theorem scan_snd_eq_nil_iff (text : List Char) :
    (scan text).2 = [] ↔ ∀ q ∈ pieces text, IsCell q := by
  rcases scan_spells text with ⟨hend, hcells⟩ | ⟨hstop, q, hq, hbad⟩
  · refine ⟨fun _ q hq => ?_, fun _ => hend⟩
    obtain ⟨n, hn⟩ := List.getElem?_of_mem hq
    obtain ⟨c, _, hc⟩ := exists_cell hcells hn
    exact hc.isCell
  · exact ⟨fun h => absurd h hstop, fun h => absurd (h q hq) hbad⟩

theorem spells_of_scan {text : List Char} (h : (scan text).2 = []) :
    List.Forall₂ Spells (scan text).1 (pieces text) := by
  rcases scan_spells text with ⟨_, hcells⟩ | ⟨hstop, _⟩
  · exact hcells
  · exact absurd h hstop

/-- The piece with index `n` writes a marked cell. -/
def MarkedAt (ps : List (List Char)) (n : Nat) : Prop :=
  ∃ q inner, ps[n]? = some q ∧ IsMarked inner q

theorem Spells.marked_iff {c : Cell} {piece : List Char} (h : Spells c piece) :
    c.marked = true ↔ ∃ inner, IsMarked inner piece := by
  cases h with
  | plain hmark h _ =>
    rw [hmark]
    exact ⟨Bool.noConfusion, fun ⟨inner, hm⟩ => absurd (mem_of_isMarked hm) h⟩
  | marked hmark h => exact ⟨fun _ => ⟨c.chars, h⟩, fun _ => hmark⟩

theorem markedAt_iff (h : List.Forall₂ Spells cs ps) (n : Nat) :
    MarkedAt ps n ↔ ∃ c, cs[n]? = some c ∧ c.marked = true := by
  constructor
  · rintro ⟨q, inner, hq, hm⟩
    obtain ⟨c, hc, hspells⟩ := exists_cell h hq
    exact ⟨c, hc, hspells.marked_iff.mpr ⟨inner, hm⟩⟩
  · rintro ⟨c, hc, hm⟩
    obtain ⟨q, hq, hspells⟩ := exists_getElem? h hc
    obtain ⟨inner, hinner⟩ := hspells.marked_iff.mp hm
    exact ⟨q, inner, hq, hinner⟩

/-- No more than one member has a property exactly if all indices of such members are the same. -/
theorem length_filter_le_one_iff {α : Type} (p : α → Bool) (xs : List α) :
    (xs.filter p).length ≤ 1 ↔
      ∀ m n : Nat, (∃ a, xs[m]? = some a ∧ p a = true) → (∃ b, xs[n]? = some b ∧ p b = true) →
        m = n := by
  induction xs with
  | nil => simp
  | cons x xs ih =>
    cases hx : p x with
    | false =>
      rw [List.filter_cons_of_neg (by simp [hx]), ih]
      constructor
      · rintro h (_ | m) (_ | n) ⟨a, ha, hpa⟩ ⟨b, hb, hpb⟩
        · rfl
        · cases ha
          exact absurd hpa (by simp [hx])
        · cases hb
          exact absurd hpb (by simp [hx])
        · exact congrArg (· + 1) (h m n ⟨a, ha, hpa⟩ ⟨b, hb, hpb⟩)
      · intro h m n ha hb
        exact Nat.succ.inj (h (m + 1) (n + 1) ha hb)
    | true =>
      have hnone : (xs.filter p).length + 1 ≤ 1 ↔ ∀ y ∈ xs, ¬p y = true := by
        rw [← List.filter_eq_nil_iff, ← List.length_eq_zero_iff]
        omega
      rw [List.filter_cons_of_pos hx, List.length_cons, hnone]
      constructor
      · rintro h (_ | m) (_ | n) ⟨a, ha, hpa⟩ ⟨b, hb, hpb⟩
        · rfl
        · exact absurd hpb (h b (List.mem_of_getElem? hb))
        · exact absurd hpa (h a (List.mem_of_getElem? ha))
        · exact absurd hpa (h a (List.mem_of_getElem? ha))
      · intro h y hy hpy
        obtain ⟨n, hn⟩ := List.getElem?_of_mem hy
        exact absurd (h 0 (n + 1) ⟨x, rfl, hx⟩ ⟨y, hn, hpy⟩) (by omega)

/-- A text is a tape exactly if each of its pieces writes a cell and no two of them a marked one. -/
theorem exists_parse_iff (raw : String) :
    (∃ t, parse raw = .ok t) ↔
      (∀ q ∈ pieces raw.toList, IsCell q) ∧
        ∀ m n, MarkedAt (pieces raw.toList) m → MarkedAt (pieces raw.toList) n → m = n := by
  rw [← scan_snd_eq_nil_iff]
  constructor
  · rintro ⟨t, ht⟩
    obtain ⟨hend, hone, _⟩ := (parse_eq_ok_iff raw t).mp ht
    refine ⟨hend, fun m n hm hn => ?_⟩
    have hcells := spells_of_scan hend
    rw [markedAt_iff hcells] at hm hn
    exact (length_filter_le_one_iff _ _).mp hone m n hm hn
  · rintro ⟨hend, hone⟩
    have hcells := spells_of_scan hend
    refine ⟨_, (parse_eq_ok_iff raw _).mpr ⟨hend, ?_, rfl⟩⟩
    rw [length_filter_le_one_iff]
    intro m n hm hn
    exact hone m n ((markedAt_iff hcells m).mpr hm) ((markedAt_iff hcells n).mpr hn)

/-- The only member with a property is found where it stands. -/
theorem findIdx?_of_only {α : Type} {p : α → Bool} {xs : List α} (h : (xs.filter p).length ≤ 1)
    {n : Nat} {a : α} (hn : xs[n]? = some a) (ha : p a = true) : xs.findIdx? p = some n := by
  cases hfind : xs.findIdx? p with
  | none =>
    have hfalse := List.findIdx?_eq_none_iff.mp hfind a (List.mem_of_getElem? hn)
    exact absurd ha (by simp [hfalse])
  | some m =>
    obtain ⟨hm, hpm, _⟩ := List.findIdx?_eq_some_iff_getElem.mp hfind
    have hsame := (length_filter_le_one_iff p xs).mp h m n
      ⟨xs[m], List.getElem?_eq_getElem hm, hpm⟩ ⟨a, hn, ha⟩
    rw [hsame]

/-- A tape has the cells that pieces write, one for each, and its head on the marked one or else on
the first. -/
structure Follows (t : TapeText) (ps : List (List Char)) : Prop where
  length : t.cells.length = ps.length
  plain : ∀ (n : Nat) q, ps[n]? = some q → IsPlain q →
    t.cells[n]? = some (.ofText (String.ofList q))
  marked : ∀ (n : Nat) q inner, ps[n]? = some q → IsMarked inner q →
    t.cells[n]? = some (.ofText (String.ofList inner)) ∧ t.cursor = n
  unmarked : (∀ n, ¬MarkedAt ps n) → t.cursor = 0

theorem follows_of_parse {raw : String} {t : TapeText} (h : parse raw = .ok t) :
    t.Follows (pieces raw.toList) := by
  obtain ⟨hend, hone, rfl⟩ := (parse_eq_ok_iff raw t).mp h
  have hcells := spells_of_scan hend
  constructor
  · rw [List.length_map, hcells.length_eq]
  · intro n q hq hplain
    obtain ⟨c, hc, hspells⟩ := exists_cell hcells hq
    rw [List.getElem?_map, hc, Option.map_some]
    cases hspells with
    | plain _ _ hchars => rw [hchars]
    | marked _ hmarked => exact absurd (mem_of_isMarked hmarked) hplain
  · intro n q inner hq hinner
    obtain ⟨c, hc, hspells⟩ := exists_cell hcells hq
    rw [List.getElem?_map, hc, Option.map_some]
    cases hspells with
    | plain _ hplain _ => exact absurd (mem_of_isMarked hinner) hplain
    | marked hmark hmarked =>
      rw [findIdx?_of_only hone hc hmark, hmarked.unique hinner]
      exact ⟨rfl, rfl⟩
  · intro hnone
    have hfind : (scan raw.toList).1.findIdx? Cell.marked = none := by
      refine List.findIdx?_eq_none_iff.mpr fun c hc => ?_
      obtain ⟨n, hn⟩ := List.getElem?_of_mem hc
      cases hmark : c.marked with
      | false => rfl
      | true => exact absurd ((markedAt_iff hcells n).mpr ⟨c, hn, hmark⟩) (hnone n)
    rw [hfind]
    rfl

/-- A text is parsed as the grammar reads it, and refused if the grammar does not read it or marks
two cells. Said of the pieces between commas, without the gaps before them: it is a tape exactly if
every piece has no asterisk, or is a text without asterisks between two of them with gaps at most
after it, and no two pieces are of the second form. The tape has one cell for each piece, in order,
and the head on the marked one or else on the first. What is refused is refused by the tapes of all
layers, with an error of the kind of tape texts. -/
theorem parse_accepts_tape_language (raw : String) :
    (∀ t, parse raw = .ok t ↔
      ∃ tokens, grammar.Reads raw.toList (some (tokens, [])) ∧
        (tokens.filter Token.marked).length ≤ 1 ∧
        t = ⟨tokens.map tokenSymbol, (tokens.findIdx? Token.marked).getD 0⟩) ∧
    ((∃ t, parse raw = .ok t) ↔
      (∀ q ∈ pieces raw.toList, IsPlain q ∨ ∃ inner, IsMarked inner q) ∧
        ∀ m n, MarkedAt (pieces raw.toList) m → MarkedAt (pieces raw.toList) n → m = n) ∧
    (∀ t, parse raw = .ok t → t.Follows (pieces raw.toList)) ∧
    ∀ fault, parse raw = .error fault → (Error.tapeText fault).kind = .tapeText ∧
      ∀ (τ : Type) [HasHead τ] (tape : τ),
        HasHead.loadText raw tape = .error (.tapeText fault) := by
  refine ⟨parse_eq_ok_iff_reads raw, exists_parse_iff raw, fun t h => follows_of_parse h, ?_⟩
  intro fault hfault
  refine ⟨rfl, fun τ _ tape => ?_⟩
  rw [HasHead.loadText, hfault]
  rfl

/-- Gaps after a plain cell are not part of its symbol, and those in a marked one are; a second
marked cell is refused. -/
theorem parse_accepts_tape_language_gaps :
    (∃ t, parse "a ,\t*x  y*  ," = .ok t ∧ t = ⟨["a", "x  y", ""].map .ofText, 1⟩ ∧
      t.Follows ["a ".toList, "*x  y*  ".toList, []]) ∧
    ∃ fault, parse "*a*, *b*" = .error fault ∧
      HasHead.loadText "*a*, *b*" (Tape.empty .space) = .error (.tapeText fault) := by
  have hok : parse "a ,\t*x  y*  ," = .ok ⟨["a", "x  y", ""].map .ofText, 1⟩ := by
    decide +kernel
  have hfault : parse "*a*, *b*" = .error (.secondMark "*a*, *b*".toList 5 8) := by
    decide +kernel
  refine ⟨⟨_, hok, rfl, (parse_accepts_tape_language "a ,\t*x  y*  ,").2.2.1 _ hok⟩, _, hfault, ?_⟩
  exact ((parse_accepts_tape_language "*a*, *b*").2.2.2 _ hfault).2 Tape _

end TapeMachine.TapeText
