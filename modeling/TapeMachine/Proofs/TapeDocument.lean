import TapeMachine.Proofs.Codec
import TapeMachine.Proofs.Frames

/-!
Documents of tapes. What is written down depends on what the tape shows and on nothing
else, and the tape that is read back shows the same, though it is stored another way.
-/
namespace TapeMachine

namespace Tape

theorem mem_span {a b i : Int} : i ∈ span a b ↔ a ≤ i ∧ i ≤ b := by
  simp only [span, List.mem_map, List.mem_range]
  constructor
  · rintro ⟨n, hn, rfl⟩
    omega
  · rintro ⟨ha, hb⟩
    exact ⟨(i - a).toNat, by omega, by omega⟩

theorem span_increasing (a b : Int) : (span a b).Pairwise (· < ·) := by
  rw [span, List.pairwise_map]
  apply List.pairwise_lt_range.imp
  intro m n h
  omega

theorem length_span (a b : Int) : (span a b).length = (b - a + 1).toNat := by
  simp [span]

theorem getElem?_map_span (f : Int → α) (a b : Int) (n : Nat) :
    ((span a b).map f)[n]? = if a + n ≤ b then some (f (a + n)) else none := by
  rw [span, List.map_map, List.getElem?_map]
  by_cases hn : n < (b - a + 1).toNat
  · rw [List.getElem?_range hn, if_pos (by omega)]
    rfl
  · rw [List.getElem?_eq_none (by simpa using hn), if_neg (by omega)]
    rfl

theorem head?_le {xs : List Int} (h : xs.Pairwise (· < ·)) {a i : Int} (ha : xs.head? = some a)
    (hi : i ∈ xs) : a ≤ i := by
  obtain ⟨rest, rfl⟩ := List.head?_eq_some_iff.mp ha
  rcases List.mem_cons.mp hi with rfl | hrest
  · omega
  · exact Int.le_of_lt ((List.pairwise_cons.mp h).1 i hrest)

theorem le_getLast? {xs : List Int} (h : xs.Pairwise (· < ·)) {b i : Int}
    (hb : xs.getLast? = some b) (hi : i ∈ xs) : i ≤ b := by
  obtain ⟨front, rfl⟩ := List.getLast?_eq_some_iff.mp hb
  rcases List.mem_append.mp hi with hfront | hlast
  · exact Int.le_of_lt ((List.pairwise_append.mp h).2.2 i hfront b List.mem_cons_self)
  · exact Int.le_of_eq (List.mem_singleton.mp hlast)

/-- Cells outside the storage have not been written. -/
theorem index_of_isSome {t : Tape} {i : Int} (h : (t.cell i).isSome = true) :
    -t.offset ≤ i ∧ i ≤ t.cells.size - t.offset - 1 := by
  unfold cell at h
  split at h
  next hl =>
    have hs : (i + t.offset).toNat < t.cells.size := by
      apply Classical.byContradiction
      intro hn
      rw [Array.getElem?_eq_none (Nat.le_of_not_lt hn)] at h
      cases h
    omega
  next => cases h

theorem mem_written {t : Tape} {i : Int} : i ∈ t.written ↔ (t.cell i).isSome = true := by
  simp only [written, List.mem_filter, mem_span]
  constructor
  · exact And.right
  · intro h
    exact ⟨index_of_isSome h, h⟩

theorem written_increasing (t : Tape) : t.written.Pairwise (· < ·) :=
  (span_increasing _ _).filter _

/-- The written positions are determined by the cells, wherever these are stored. -/
theorem written_congr {t u : Tape} (h : t.cell = u.cell) : t.written = u.written := by
  have hmem (i : Int) : i ∈ t.written ↔ i ∈ u.written := by
    rw [mem_written, mem_written, h]
  have hne {a b : Int} (hab : a < b) : a ≠ b := by omega
  have hperm : t.written.Perm u.written :=
    (List.perm_ext_iff_of_nodup (t.written_increasing.imp hne)
      (u.written_increasing.imp hne)).mpr hmem
  refine hperm.eq_of_pairwise ?_ t.written_increasing u.written_increasing
  intro a b _ _ hab hba
  omega

theorem trimmed_congr {t u : Tape} (h : t.cell = u.cell) : t.trimmed = u.trimmed := by
  unfold trimmed
  rw [written_congr h, h]

/-- Nothing is written down of an unwritten tape, and of any other a range of cells around zero
that holds all written ones. -/
theorem trimmed_cases (t : Tape) :
    ((∀ i, t.cell i = none) ∧ t.trimmed = ([], 0)) ∨
    ∃ a b : Int, -t.offset ≤ a ∧ a ≤ 0 ∧ 0 ≤ b ∧
      (∀ i, (t.cell i).isSome = true → a ≤ i ∧ i ≤ b) ∧
      t.trimmed = ((span a b).map t.cell, (-a).toNat) := by
  have hsorted := t.written_increasing
  cases hf : t.written.head? with
  | none =>
    left
    have hw := List.head?_eq_none_iff.mp hf
    constructor
    · intro i
      cases hc : t.cell i with
      | none => rfl
      | some s =>
        have hi : i ∈ t.written := mem_written.mpr (by rw [hc]; rfl)
        rw [hw] at hi
        cases hi
    · rw [trimmed, hf]
  | some first =>
    right
    cases hl : t.written.getLast? with
    | none =>
      rw [List.getLast?_eq_none_iff.mp hl] at hf
      cases hf
    | some last =>
      have hbound := index_of_isSome (mem_written.mp (List.mem_of_head? hf))
      refine ⟨min first 0, max last 0, by omega, by omega, by omega, ?_, by rw [trimmed, hf, hl]⟩
      intro i hi
      have hle := head?_le hsorted hf (mem_written.mpr hi)
      have hge := le_getLast? hsorted hl (mem_written.mpr hi)
      omega

theorem trimmed_offset_le (t : Tape) : t.trimmed.2 ≤ t.offset := by
  rcases t.trimmed_cases with ⟨_, he⟩ | ⟨a, b, ha, _, _, _, he⟩
  · rw [he]
    exact Nat.zero_le _
  · rw [he]
    dsimp only
    omega

theorem trimmed_offset_le_length (t : Tape) : t.trimmed.2 ≤ t.trimmed.1.length := by
  rcases t.trimmed_cases with ⟨_, he⟩ | ⟨a, b, _, ha, hb, _, he⟩
  · rw [he]
    exact Nat.zero_le _
  · rw [he, List.length_map, length_span]
    dsimp only
    omega

theorem cell_ofCells (blank : Symbol) (offset : Nat) (cursor : Position)
    (data : List (Option Symbol)) (i : Int) :
    (ofCells blank offset cursor data).cell i =
      if 0 ≤ i + offset then data[(i + offset).toNat]?.join else none := by
  unfold ofCells cell
  cases data with
  | nil => simp
  | cons c data => simp

/-- The tape that is read back from a document. -/
def restored (t : Tape) : Tape := ofCells t.blank t.trimmed.2 t.cursor t.trimmed.1

/-- Writing a tape down and reading it back changes nothing that it shows. -/
theorem cell_restored (t : Tape) : t.restored.cell = t.cell := by
  funext i
  rw [restored, cell_ofCells]
  rcases t.trimmed_cases with ⟨hnone, he⟩ | ⟨a, b, _, ha, hb, hsome, he⟩
  · rw [he, hnone]
    simp
  · have houtside (h : ¬(a ≤ i ∧ i ≤ b)) : t.cell i = none := by
      cases hc : t.cell i with
      | none => rfl
      | some s => exact absurd (hsome i (by rw [hc]; rfl)) h
    rw [he]
    dsimp only
    rw [getElem?_map_span]
    by_cases hi : 0 ≤ i + ((-a).toNat : Int)
    · have hindex : a + ((i + ((-a).toNat : Int)).toNat : Int) = i := by omega
      rw [if_pos hi, hindex]
      by_cases hib : i ≤ b
      · rw [if_pos hib]
        rfl
      · rw [if_neg hib, houtside (by omega)]
        rfl
    · rw [if_neg hi, houtside (by omega)]

@[simp] theorem view_restored (t : Tape) : t.restored.view = t.view := by
  apply View.ext
  · simp only [view, restored, ofCells]
    split <;> rfl
  · simp only [view, restored, ofCells]
    split <;> rfl
  · exact t.cell_restored

/-- What the document of a tape gives. -/
def entries (t : Tape) : TapeEntries :=
  ⟨some t.blank, t.trimmed.2, some t.cursor, some t.trimmed.1⟩

theorem count_trimmed {t : Tape} (h : t.offset ≤ greatestCount) :
    Json.Decode.count (.nat t.trimmed.2) = .ok t.trimmed.2 :=
  Json.Decode.count_nat (Nat.le_trans t.trimmed_offset_le h)

theorem decode_toJson {t : Tape} (h : t.offset ≤ greatestCount) :
    TapeEntries.decode t.toJson = .ok t.entries := by
  simp [TapeEntries.decode, toJson, Json.Decode.record, TapeEntries.fields, bind, Except.bind,
    pure, Except.pure, count_trimmed h, entries]

/-- Any tape can read a document with the entries of another, and becomes that other one. -/
theorem load_of_entries {v : Json} {t : Tape} (h : TapeEntries.decode v = .ok t.entries)
    (u : Tape) : u.load v = .ok t.restored := by
  have hlen : ¬t.trimmed.1.length < t.trimmed.2 := Nat.not_lt.mpr t.trimmed_offset_le_length
  have hd : (TapeEntries.decode v).mapError Error.tapeDocument = .ok t.entries := by
    rw [h]
    rfl
  simp only [load, hd, entries, bind, Except.bind, if_neg hlen]
  rfl

end Tape

namespace LoggedTape

/-- Tapes whose counters fit into 64 bits and whose journal is within its limit. Their documents
can be read back. -/
structure Storable (t : LoggedTape) : Prop where
  offset : t.tape.offset ≤ greatestCount
  limit : ∀ n, t.journal.limit = some n → n ≤ greatestCount
  within : t.journal.Within

theorem decode_toJson {t : LoggedTape} (h : t.Storable) :
    TapeEntries.decode t.toJson = .ok t.tape.entries := by
  simp [TapeEntries.decode, toJson, Json.Decode.record, TapeEntries.fields, bind, Except.bind,
    pure, Except.pure, Tape.count_trimmed h.offset, Tape.entries]

/-- The document of a tape can be read by any tape, and gives blank, limit and frames anew. -/
theorem load_toJson {t : LoggedTape} (h : t.Storable) (u : LoggedTape) :
    u.load t.toJson = .ok ⟨t.tape.restored, t.journal⟩ := by
  have hframes : Journal.decodeFrames t.toJson = .ok t.journal.frames :=
    Journal.decodeFrames_of_get?
      (by simp [toJson, Json.get?, List.lookup_cons, Journal.framesToJson])
  have hlimit : Journal.decodeLimit u.journal.limit t.toJson = .ok t.journal.limit :=
    Journal.decodeLimit_of_get? _ (by simp [toJson, Json.get?, List.lookup_cons]) h.limit
  have htape := Tape.load_of_entries (decode_toJson h) u.tape
  simp only [load, hframes, hlimit, htape, bind, Except.bind, Journal.ofFrames_frames h.within]
  rfl

theorem toJson_congr {t u : LoggedTape} (hv : t.tape.view = u.tape.view)
    (hj : t.journal = u.journal) : t.toJson = u.toJson := by
  have hb : t.tape.blank = u.tape.blank := congrArg View.blank hv
  have hc : t.tape.cursor = u.tape.cursor := congrArg View.cursor hv
  have ht : t.tape.trimmed = u.tape.trimmed := Tape.trimmed_congr (congrArg View.cells hv)
  simp only [toJson, hb, hc, ht, hj]

end LoggedTape

end TapeMachine
