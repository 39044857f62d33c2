import Mathlib.Data.List.Induction
import Mathlib.Data.Nat.Digits.Defs
import Mathlib.Order.Bounds.Basic
import TapeMachine.Proofs.VisitedRange
import TapeMachine.Proofs.WrittenRow
import TapeMachine.Tape.Binary

/-!
Numbers read off a tape. What a row of digits stands for is said by the weights of their
places. Main statement: the visited cells are read as a number exactly if all of them hold
digits and 128 bits hold the number, however many zeros are in front; otherwise the first
cell that does not hold a digit is named. A tape that is filled with digits is read as their
number.
-/
namespace TapeMachine

namespace Symbol

/-- A digit of a binary number. -/
def IsDigit (s : Symbol) : Prop := s.text = "0" ∨ s.text = "1"

instance (s : Symbol) : Decidable s.IsDigit := inferInstanceAs (Decidable (_ ∨ _))

def digit (s : Symbol) : Nat := if s.text = "1" then 1 else 0

theorem isBinary_iff {s : Symbol} : isBinary s = true ↔ s.IsDigit := by
  simp [isBinary, IsDigit]

/-- A digit is written with one character. -/
theorem IsDigit.toList_text {s : Symbol} (h : s.IsDigit) :
    s.text.toList = [if s.text = "1" then '1' else '0'] := by
  rcases h with h | h <;> rw [h] <;> rfl

end Symbol

/-- The number that digits write, the highest place first. -/
def numeral (symbols : List Symbol) : Nat := Nat.ofDigits 2 (symbols.map Symbol.digit).reverse

theorem numeral_concat (symbols : List Symbol) (s : Symbol) :
    numeral (symbols ++ [s]) = 2 * numeral symbols + s.digit := by
  rw [numeral, List.map_append, List.map_singleton, List.reverse_append, List.reverse_singleton,
    List.singleton_append, Nat.ofDigits_cons, Nat.add_comm]
  rfl

/-- The text that symbols make one after the other. -/
def joined (symbols : List Symbol) : String := String.join (symbols.map Symbol.text)

theorem toList_joined (symbols : List Symbol) :
    (joined symbols).toList = symbols.flatMap fun s => s.text.toList := by
  rw [joined, String.toList_join, List.flatMap_map]

theorem binaryValue_concat (bits : List Char) (c : Char) :
    binaryValue (bits ++ [c]) = 2 * binaryValue bits + if c = '1' then 1 else 0 := by
  rw [binaryValue, List.foldl_append]
  rfl

variable {symbols : List Symbol}

theorem binaryValue_joined (h : ∀ s ∈ symbols, s.IsDigit) :
    binaryValue (joined symbols).toList = numeral symbols := by
  rw [toList_joined]
  induction symbols using List.reverseRecOn with
  | nil => rfl
  | append_singleton symbols s ih =>
    have hs : s.IsDigit := h s (by simp)
    rw [List.flatMap_append, List.flatMap_singleton, hs.toList_text, binaryValue_concat,
      ih fun s hs => h s (List.mem_append_left _ hs), numeral_concat, Symbol.digit]
    split <;> rfl

theorem length_joined (h : ∀ s ∈ symbols, s.IsDigit) :
    (joined symbols).length = symbols.length := by
  rw [← String.length_toList, toList_joined]
  induction symbols with
  | nil => rfl
  | cons s symbols ih =>
    have hs : s.IsDigit := h s List.mem_cons_self
    rw [List.flatMap_cons, List.length_append, hs.toList_text, List.length_singleton,
      ih fun s hs => h s (List.mem_cons_of_mem _ hs), List.length_cons, Nat.add_comm]

namespace Tape

variable {t : Tape}

/-- The visited positions at which no digit is read. -/
def NonBinary (t : Tape) : Set Int :=
  { i | t.first ≤ i ∧ i ≤ t.last ∧ ¬(t.symbolAt i).IsDigit }

theorem mem_visited {i : Int} {s : Symbol} :
    (i, s) ∈ t.visited ↔ t.first ≤ i ∧ i ≤ t.last ∧ s = t.symbolAt i := by
  simp only [visited, List.mem_map, mem_span, Prod.mk.injEq]
  constructor
  · rintro ⟨j, ⟨hl, hu⟩, rfl, rfl⟩
    exact ⟨hl, hu, rfl⟩
  · rintro ⟨hl, hu, rfl⟩
    exact ⟨i, ⟨hl, hu⟩, rfl, rfl⟩

theorem forall_reading_iff {P : Symbol → Prop} :
    (∀ s ∈ t.reading, P s) ↔ ∀ i, t.first ≤ i → i ≤ t.last → P (t.symbolAt i) := by
  simp only [reading, List.forall_mem_map, mem_span, and_imp]

/-- The walk over the visited cells stops at the first that holds no digit. -/
theorem isLeast_of_find? {i : Int} {s : Symbol}
    (h : t.visited.find? (fun (_, s) => !isBinary s) = some (i, s)) :
    IsLeast t.NonBinary i ∧ s = t.symbolAt i := by
  obtain ⟨hs, before, after, hsplit, hbefore⟩ := List.find?_eq_some_iff_append.mp h
  obtain ⟨hl, hu, rfl⟩ := mem_visited.mp (hsplit ▸ List.mem_append_right _ List.mem_cons_self)
  have hnot : ¬(t.symbolAt i).IsDigit := by
    rw [← Symbol.isBinary_iff]
    simpa using hs
  refine ⟨⟨⟨hl, hu, hnot⟩, fun j hj => ?_⟩, rfl⟩
  obtain ⟨hjl, hju, hjnot⟩ := hj
  have hincreasing := t.visited_increasing
  have hmem := mem_visited.mpr ⟨hjl, hju, rfl⟩
  rw [hsplit] at hincreasing hmem
  rw [List.map_append, List.map_cons, List.pairwise_append, List.pairwise_cons] at hincreasing
  rcases List.mem_append.mp hmem with hj | hj
  · have hdigit := hbefore _ hj
    simp [Symbol.isBinary_iff, hjnot] at hdigit
  · rcases List.mem_cons.mp hj with hj | hj
    · cases hj
      exact Int.le_refl i
    · exact Int.le_of_lt (hincreasing.2.1.1 j (List.mem_map_of_mem hj))

/-- How reading a number can end. -/
inductive Decoded (t : Tape) : Except Error BinaryNumber → Prop where
  | number (digits : ∀ s ∈ t.reading, s.IsDigit) (small : numeral t.reading < 2 ^ 128) :
      Decoded t (.ok ⟨joined t.reading, numeral t.reading⟩)
  | tooLarge (digits : ∀ s ∈ t.reading, s.IsDigit) (large : 2 ^ 128 ≤ numeral t.reading) :
      Decoded t (.error (.binaryTooLarge (joined t.reading)))
  | nonBinary {i : Int} (leftmost : IsLeast t.NonBinary i) :
      Decoded t (.error (.nonBinary (t.symbolAt i) i))

theorem decoded_binary (t : Tape) : t.Decoded t.binary := by
  have hbound : binaryBound = 2 ^ 128 := rfl
  have htexts : String.join (t.visited.map fun (_, s) => s.text) = joined t.reading := by
    rw [joined, ← snd_visited, List.map_map]
    rfl
  unfold binary
  rw [htexts, hbound]
  split
  next i s hfind =>
    obtain ⟨hleast, rfl⟩ := isLeast_of_find? hfind
    exact .nonBinary hleast
  next hfind =>
    have hdigits : ∀ s ∈ t.reading, s.IsDigit := by
      rw [← snd_visited]
      intro s hs
      obtain ⟨c, hc, rfl⟩ := List.mem_map.mp hs
      have hbinary := List.find?_eq_none.mp hfind c hc
      exact Symbol.isBinary_iff.mp (by simpa using hbinary)
    dsimp only
    rw [binaryValue_joined hdigits]
    split
    next hsmall => exact .number hdigits hsmall
    next hlarge => exact .tooLarge hdigits (Nat.le_of_not_lt hlarge)

/-- The errors are of one kind. -/
theorem Decoded.kind {e : Error} (h : t.Decoded (.error e)) : e.kind = .invalidValue := by
  cases h with
  | tooLarge _ _ => rfl
  | nonBinary _ => rfl

theorem not_digits_of_nonBinary {i : Int} (h : i ∈ t.NonBinary) :
    ¬∀ s ∈ t.reading, s.IsDigit := by
  obtain ⟨hl, hu, hnot⟩ := h
  exact fun hdigits => hnot (forall_reading_iff.mp hdigits i hl hu)

theorem exists_binary_iff :
    (∃ n, t.binary = .ok n) ↔ (∀ s ∈ t.reading, s.IsDigit) ∧ numeral t.reading < 2 ^ 128 := by
  have hdecoded := t.decoded_binary
  constructor
  · rintro ⟨n, hn⟩
    rw [hn] at hdecoded
    cases hdecoded with
    | number hdigits hsmall => exact ⟨hdigits, hsmall⟩
  · rintro ⟨hdigits, hsmall⟩
    generalize t.binary = result at hdecoded
    cases hdecoded with
    | number _ _ => exact ⟨_, rfl⟩
    | tooLarge _ hlarge => exact absurd hsmall (Nat.not_lt.mpr hlarge)
    | nonBinary hleast => exact absurd hdigits (not_digits_of_nonBinary hleast.1)

theorem eq_of_binary_eq_ok {n : BinaryNumber} (h : t.binary = .ok n) :
    n.bits = joined t.reading ∧ n.value = numeral t.reading ∧ n.length = t.reading.length := by
  have hdecoded := t.decoded_binary
  rw [h] at hdecoded
  cases hdecoded with
  | number hdigits _ => exact ⟨rfl, rfl, length_joined hdigits⟩

theorem binary_of_nonBinary {i : Int} (h : i ∈ t.NonBinary) :
    ∃ j, IsLeast t.NonBinary j ∧ t.binary = .error (.nonBinary (t.symbolAt j) j) := by
  have hdecoded := t.decoded_binary
  generalize t.binary = result at hdecoded
  cases hdecoded with
  | number hdigits _ => exact absurd hdigits (not_digits_of_nonBinary h)
  | tooLarge hdigits _ => exact absurd hdigits (not_digits_of_nonBinary h)
  | nonBinary hleast => exact ⟨_, hleast, rfl⟩

/-- A tape that is filled with a row has the row on its visited cells. -/
theorem reading_fill (hne : symbols ≠ []) (h : (symbols.length : Int) ≤ greatestIndex + 1)
    (t : Tape) : (HasHead.fill symbols .origin t).reading = symbols := by
  obtain ⟨hfirst, hlast⟩ := range_fill hne h t
  refine List.ext_getElem? fun n => ?_
  rw [reading, getElem?_map_span, hfirst, hlast, symbolAt, cell_fill h, rowAt, Int.zero_add]
  by_cases hn : n < symbols.length
  · rw [if_pos (by omega), if_pos (Int.natCast_nonneg n), Int.sub_zero, Int.toNat_natCast,
      List.getElem?_eq_getElem hn]
    rfl
  · rw [if_neg (by omega), List.getElem?_eq_none (Nat.le_of_not_lt hn)]

end Tape

/-- Of every reachable tape, in whatever layers: a number is read exactly if every visited position
holds a digit and the digits write a number of 128 bits; it has the digits in their order, one for
each position, and the value they write. All other tapes are refused as invalid, and if a position
holds no digit, the leftmost such position is named with its symbol. Any tape whatsoever that is
filled with a row of digits, for which there are positions, is read as the number they write. -/
theorem binary_reads_digits {τ : Type} [HasHead τ] {t : τ} (h : HasHead.Reachable t) :
    let shown := HasHead.tape t
    let symbols := (Tape.span shown.first shown.last).map shown.symbolAt
    ((∃ n, shown.binary = .ok n) ↔
      (∀ i, shown.first ≤ i → i ≤ shown.last → (shown.symbolAt i).IsDigit) ∧
        numeral symbols < 2 ^ 128) ∧
    (∀ n, shown.binary = .ok n →
      n.bits = String.join (symbols.map Symbol.text) ∧
        (n.length : Int) = shown.last - shown.first + 1 ∧ n.value = numeral symbols) ∧
    (∀ e, shown.binary = .error e → e.kind = .invalidValue) ∧
    (∀ i, shown.first ≤ i → i ≤ shown.last → ¬(shown.symbolAt i).IsDigit →
      ∃ j, IsLeast { j | shown.first ≤ j ∧ j ≤ shown.last ∧ ¬(shown.symbolAt j).IsDigit } j ∧
        shown.binary = .error (.nonBinary (shown.symbolAt j) j)) ∧
    ∀ (σ : Type) [HasHead σ] [Transparent σ] (u : σ) (row : List Symbol), row ≠ [] →
      (∀ s ∈ row, s.IsDigit) → numeral row < 2 ^ 128 → (row.length : Int) ≤ greatestIndex + 1 →
      ∃ n, (HasHead.tape (HasHead.fill row .origin u)).binary = .ok n ∧
        n.bits = String.join (row.map Symbol.text) ∧ n.length = row.length ∧
        n.value = numeral row := by
  intro shown symbols
  have hhead : shown.first ≤ shown.cursor.index ∧ shown.cursor.index ≤ shown.last :=
    h.truthful.2.covered.head
  refine ⟨?_, fun n hn => ?_, fun e he => ?_, fun i hl hu hnot => ?_, ?_⟩
  · rw [Tape.exists_binary_iff, Tape.forall_reading_iff]
    rfl
  · obtain ⟨hbits, hvalue, hlength⟩ := Tape.eq_of_binary_eq_ok hn
    refine ⟨hbits, ?_, hvalue⟩
    rw [hlength, Tape.reading, List.length_map, Tape.length_span]
    omega
  · have hdecoded := shown.decoded_binary
    rw [he] at hdecoded
    exact hdecoded.kind
  · exact Tape.binary_of_nonBinary ⟨hl, hu, hnot⟩
  · intro σ _ _ u row hne hdigits hsmall hroom
    have hreading := Tape.reading_fill hne hroom (HasHead.tape u)
    rw [Transparent.fill]
    obtain ⟨n, hn⟩ := Tape.exists_binary_iff.mpr (by rw [hreading]; exact ⟨hdigits, hsmall⟩)
    obtain ⟨hbits, hvalue, hlength⟩ := Tape.eq_of_binary_eq_ok hn
    rw [hreading] at hbits hvalue hlength
    exact ⟨n, hn, hbits, hlength, hvalue⟩

/-- A tape in two layers with a symbol before zero that is no digit. -/
def crossed : Layer (Layer LoggedTape) :=
  (HeadEdit.write (.ofText "x")).perform
    ((HeadEdit.left 2).perform (Layer.mk (Layer.mk (LoggedTape.recording (.empty .space) none))))

/-- Three with more zeros in front of it than 128 bits have places. -/
def paddedRow : List Symbol := List.replicate 130 (.ofText "0") ++ [.ofText "1", .ofText "1"]

theorem binary_reads_digits_crossed :
    let shown := HasHead.tape crossed
    HasHead.Reachable crossed ∧ ¬(shown.symbolAt (-2)).IsDigit ∧ ¬(shown.symbolAt 0).IsDigit ∧
    shown.binary = .error (.nonBinary (.ofText "x") (-2)) ∧
    paddedRow ≠ [] ∧ (∀ s ∈ paddedRow, s.IsDigit) ∧ numeral paddedRow < 2 ^ 128 ∧
    (paddedRow.length : Int) ≤ greatestIndex + 1 ∧
    ∃ n, (HasHead.tape (HasHead.fill paddedRow .origin crossed)).binary = .ok n ∧
      n.length = 132 ∧ n.value = 3 := by
  intro shown
  have hstart := HasHead.Reachable.recording none (.empty .space)
  have hmoved := hstart.layer.layer.step (.head (.left 2) _)
  have hreachable : HasHead.Reachable crossed := hmoved.step (.head (.write (.ofText "x")) _)
  have hx : ¬(shown.symbolAt (-2)).IsDigit := by decide
  have hblank : ¬(shown.symbolAt 0).IsDigit := by decide
  have hdigits : ∀ s ∈ paddedRow, s.IsDigit := by decide +kernel
  have hvalue : numeral paddedRow = 3 := by decide +kernel
  have hroom : (paddedRow.length : Int) ≤ greatestIndex + 1 := by simp [paddedRow, greatestIndex]
  obtain ⟨_, _, _, hnamed, hfilled⟩ := binary_reads_digits hreachable
  obtain ⟨j, hleast, herror⟩ := hnamed 0 (by decide) (by decide) hblank
  have hj : j = -2 := hleast.unique ⟨⟨by decide, by decide, hx⟩, fun i hi => hi.1⟩
  obtain ⟨n, hn, _, hlength, hnumber⟩ := hfilled _ crossed paddedRow (by decide) hdigits
    (by rw [hvalue]; decide) hroom
  subst hj
  exact ⟨hreachable, hx, hblank, herror, by decide, hdigits, by rw [hvalue]; decide, hroom,
    n, hn, hlength, hnumber.trans hvalue⟩

end TapeMachine
