import TapeMachine.Proofs.Reachable
import TapeMachine.Tape.Equality

/-!
A tape and its document. Main statement: two tapes have the same document exactly if they
show the same, however they have come about and wherever their cells are stored, and a
tape that reads the document of another shows what the other shows.
-/
namespace TapeMachine

namespace Json

/-- What can be read back is written in one way only. -/
theorem eq_of_encode_eq {ε : Type} {encode : α → Json} {decode : Json → Except ε α}
    (h : ∀ a, decode (encode a) = .ok a) {a b : α} (hab : encode a = encode b) : a = b :=
  Except.ok.inj ((h a).symm.trans ((congrArg decode hab).trans (h b)))

end Json

namespace Tape

variable {t u : Tape}

/-- The cells that are written down tell what the tape shows everywhere. -/
theorem trimmed_eq_iff : t.trimmed = u.trimmed ↔ t.cell = u.cell := by
  constructor
  · intro h
    -- the tape restored from them has the cells of the tape, but is a function of them alone
    have hcell (t : Tape) (i : Int) : t.cell i =
        if 0 ≤ i + t.trimmed.2 then t.trimmed.1[(i + t.trimmed.2).toNat]?.join else none := by
      rw [← cell_ofCells t.blank t.trimmed.2 t.cursor t.trimmed.1]
      exact (congrFun t.cell_restored i).symm
    funext i
    rw [hcell t, hcell u, h]
  · exact trimmed_congr

/-- The document of a tape tells what the tape shows, no less and no more. -/
theorem toJson_eq_iff : t.toJson = u.toJson ↔ t.view = u.view := by
  constructor
  · intro h
    simp only [toJson, Json.object.injEq, List.cons.injEq, Prod.mk.injEq, true_and, and_true] at h
    obtain ⟨hblank, hcursor, hdata, hoffset⟩ := h
    have htrimmed : t.trimmed = u.trimmed := by
      apply Prod.ext
      · exact Json.eq_of_encode_eq (Json.Decode.list_list Symbol.optional_cellToJson) hdata
      · exact Int.ofNat.inj (by simpa using hoffset)
    apply View.ext
    · exact Json.eq_of_encode_eq Symbol.decode_toJson hblank
    · exact Json.eq_of_encode_eq Position.decode_toJson hcursor
    · exact trimmed_eq_iff.mp htrimmed
  · intro h
    have hblank : t.blank = u.blank := congrArg View.blank h
    have hcursor : t.cursor = u.cursor := congrArg View.cursor h
    have htrimmed : t.trimmed = u.trimmed := trimmed_congr (congrArg View.cells h)
    simp only [toJson, hblank, hcursor, htrimmed]

theorem view_eq_iff :
    t.view = u.view ↔ t.blank = u.blank ∧ t.cursor = u.cursor ∧ ∀ i, t.cell i = u.cell i := by
  rw [View.ext_iff]
  exact and_congr_right fun _ => and_congr_right fun _ => funext_iff

theorem allFrom_iff (f : Int → Bool) (a : Int) (n : Nat) :
    allFrom f a n = true ↔ ∀ i, a ≤ i → i < a + n → f i = true := by
  induction n generalizing a with
  | zero =>
    simp only [allFrom, true_iff]
    intro i hl hu
    omega
  | succ n ih =>
    rw [allFrom, Bool.and_eq_true, ih]
    constructor
    · rintro ⟨hfirst, hrest⟩ i hl hu
      by_cases hi : i = a
      · rw [hi]
        exact hfirst
      · exact hrest i (by omega) (by omega)
    · intro h
      exact ⟨h a (by omega) (by omega), fun i hl hu => h i (by omega) (by omega)⟩

/-- Tapes that show the same are equal by every comparison. -/
theorem equals_of_view_eq (h : t.view = u.view) (ignoreBlanks ignoreCursor : Bool) :
    t.equals u ignoreBlanks ignoreCursor = true := by
  obtain ⟨hblank, hcursor, hcell⟩ := view_eq_iff.mp h
  have hagree (i : Int) : agreeAt ignoreBlanks t u i = true := by
    simp [agreeAt, symbolAt, hblank, hcell]
  simp [equals, hblank, hcursor, allFrom_iff, hagree]

/-- Every tape reads the document of another as one with the same document. -/
theorem load_toJson (h : t.offset ≤ greatestCount) (v : Tape) :
    ∃ w, v.load t.toJson = .ok w ∧ w.view = t.view :=
  ⟨t.restored, load_of_entries (decode_toJson h) v, t.view_restored⟩

/-- The tapes that can be made of an empty one by edits of a head and by operations of a journal,
which may also take writes back and so leave cells unwritten. -/
inductive Attainable : Tape → Prop where
  | empty (blank : Symbol) : Attainable (.empty blank)
  | edit (e : HeadEdit) {t : Tape} : Attainable t → Attainable (e.perform t)
  | apply (op : Operation) {t : Tape} : Attainable t → Attainable (LoggedTape.apply t op)

theorem Reachable.attainable (h : t.Reachable) : t.Attainable := by
  induction h with
  | empty blank => exact .empty blank
  | edit e _ ih => exact .edit e ih

theorem Attainable.foldl_apply (h : t.Attainable) (ops : List Operation) :
    (ops.foldl LoggedTape.apply t).Attainable := by
  induction ops generalizing t with
  | nil => exact h
  | cons op ops ih => exact ih (.apply op h)

theorem Attainable.load (h : t.Attainable) {v : Json} (hu : t.load v = .ok u) : u.Attainable := by
  have hedit : (HeadEdit.load v).perform t = u := by
    change settled t (t.load v) = u
    rw [hu]
    rfl
  exact hedit ▸ .edit (.load v) h

theorem attainableInvariant : HeadInvariant Attainable where
  visit p _ h := .edit (.readAt p) h
  write s _ h := .edit (.write s) h
  left n _ h := .edit (.left n) h
  right n _ h := .edit (.right n) h
  moveTo p _ h := .edit (.moveTo p) h
  clear _ h := .edit .clear h
  load _ _ _ h hu := h.load hu

theorem Attainable.offset_le (h : t.Attainable) : t.offset ≤ greatestCount := by
  induction h with
  | empty blank => exact Nat.zero_le _
  | edit e _ ih => exact offsetInvariant.perform e ih
  | apply op _ ih => exact offset_foldl_apply_le [op] ih

/-- Storing a cell adds as many cells before zero as it adds before the others. -/
theorem offset_put_le_size (h : t.offset ≤ t.cells.size) (i : Int) (c : Option Symbol) :
    (t.put i c).offset ≤ (t.put i c).cells.size := by
  unfold put store
  dsimp only [touch]
  -- before the storage, within it and beyond it
  split
  · simp only [Array.size_append, Array.size_replicate, Array.size_singleton]
    omega
  · split
    · simp only [Array.size_set]
      omega
    · simp only [Array.size_push, Array.size_append, Array.size_replicate]
      omega

theorem offset_load_le_size {v : Json} (h : t.load v = .ok u) : u.offset ≤ u.cells.size := by
  obtain ⟨d, data, cursor, _, _, _, hle, rfl⟩ := load_eq_ok.mp h
  unfold ofCells
  cases data with
  | nil => exact hle
  | cons c data => exact hle

theorem storageInvariant : HeadInvariant fun t : Tape => t.offset ≤ t.cells.size where
  visit _ _ h := h
  write _ t h := offset_put_le_size h t.cursor.index _
  left _ _ h := h
  right _ _ h := h
  moveTo _ _ h := h
  clear _ _ := Nat.le_refl _
  load _ _ _ _ h := offset_load_le_size h

theorem Attainable.offset_le_size (h : t.Attainable) : t.offset ≤ t.cells.size := by
  induction h with
  | empty blank => exact Nat.le_refl _
  | edit e _ ih => exact storageInvariant.perform e ih
  | @apply op t _ ih =>
    cases op with
    | write old new => exact offset_put_le_size ih t.cursor.index new
    | move d => exact ih

/-- An array whose cells can be counted in 64 bits has none beyond the last positions. -/
theorem Attainable.cell_eq_none (h : t.Attainable) (hs : (t.cells.size : Int) ≤ greatestIndex)
    {i : Int} (hi : ∀ p : Position, p.index ≠ i) : t.cell i = none := by
  cases hc : t.cell i with
  | none => rfl
  | some s =>
    have hoffset := h.offset_le_size
    have hrange := index_of_isSome (t := t) (i := i) (by rw [hc]; rfl)
    refine absurd rfl (hi ⟨i, ?_, ?_⟩) <;> unfold leastIndex greatestIndex at * <;> omega

end Tape

namespace LoggedTape

/-- What is recorded does not influence the tape. -/
theorem attainableInvariant : HeadInvariant fun t : LoggedTape => t.tape.Attainable where
  visit p _ h := .edit (.readAt p) h
  write s _ h := .edit (.write s) h
  left n _ h := .edit (.left n) h
  right n _ h := .edit (.right n) h
  moveTo p _ h := .edit (.moveTo p) h
  clear _ h := .edit .clear h
  load v t u h hu := by
    obtain ⟨frames, _, hu⟩ := bind_eq_ok.mp hu
    obtain ⟨limit, _, hu⟩ := bind_eq_ok.mp hu
    obtain ⟨tape, htape, hu⟩ := bind_eq_ok.mp hu
    cases hu
    exact h.load htape

theorem attainable_perform (e : Edit) {t : LoggedTape} (h : t.tape.Attainable) :
    (e.perform t).tape.Attainable := by
  cases e with
  | head e => exact attainableInvariant.perform e h
  | snapshot => exact h
  | setLimit limit => exact h
  | undo =>
    by_cases hx : t.journal.stack = [[]]
    · rw [Edit.perform_undo_of_exhausted hx]
      exact h
    · rw [Edit.perform_undo_of_not_exhausted hx]
      exact h.foldl_apply _

theorem Reachable.attainable {t : LoggedTape} (h : t.Reachable) : t.tape.Attainable := by
  induction h with
  | recording limit ht => exact ht.attainable
  | edit e _ ih => exact attainable_perform e ih

end LoggedTape

/-- Two tapes have the same document exactly if they have the same blank, the same place of the
head and the same cells; to compare the cells at the positions of 64 bits is enough if the storage
can be counted in them. Every tape can read the document of another, and then has the same document
and compares equal to it; so it is for tapes with a journal. -/
theorem document_identifies_tape :
    (∀ t u : Tape, t.Attainable → u.Attainable →
      (t.toJson = u.toJson ↔
        t.blank = u.blank ∧ t.cursor = u.cursor ∧ ∀ i, t.cell i = u.cell i) ∧
      ((t.cells.size : Int) ≤ greatestIndex → (u.cells.size : Int) ≤ greatestIndex →
        (t.toJson = u.toJson ↔
          t.blank = u.blank ∧ t.cursor = u.cursor ∧
            ∀ p : Position, t.cell p.index = u.cell p.index))) ∧
    (∀ t v : Tape, t.Attainable →
      ∃ w, v.load t.toJson = .ok w ∧ w.toJson = t.toJson ∧ w.equals t false false = true) ∧
    ∀ t v : LoggedTape, t.Reachable →
      ∃ w, v.load t.toJson = .ok w ∧ w.toJson = t.toJson ∧
        w.tape.equals t.tape false false = true := by
  refine ⟨fun t u ht hu => ⟨?_, fun hts hus => ?_⟩, fun t v ht => ?_, fun t v ht => ?_⟩
  · rw [Tape.toJson_eq_iff, Tape.view_eq_iff]
  · have hcells : (∀ p : Position, t.cell p.index = u.cell p.index) ↔
        ∀ i, t.cell i = u.cell i := by
      refine ⟨fun h i => ?_, fun h p => h p.index⟩
      by_cases hi : ∃ p : Position, p.index = i
      · obtain ⟨p, rfl⟩ := hi
        exact h p
      · have hout : ∀ p : Position, p.index ≠ i := fun p hp => hi ⟨p, hp⟩
        rw [ht.cell_eq_none hts hout, hu.cell_eq_none hus hout]
    rw [Tape.toJson_eq_iff, Tape.view_eq_iff, hcells]
  · obtain ⟨w, hload, hview⟩ := Tape.load_toJson ht.offset_le v
    exact ⟨w, hload, Tape.toJson_eq_iff.mpr hview, Tape.equals_of_view_eq hview false false⟩
  · have hview := t.tape.view_restored
    exact ⟨_, LoggedTape.load_toJson ht.storable v, LoggedTape.toJson_congr hview rfl,
      Tape.equals_of_view_eq hview false false⟩

/-- A stroke at zero after a write further left that was taken back. -/
def detour : LoggedTape :=
  Edit.performAll [.snapshot, .head (.left 3), .head (.write (.ofText "0")), .undo,
    .head (.write (.ofText "1")), .head (.readAt (.ofInt 7))] (.recording (.empty .space) none)

theorem document_identifies_tape_detour :
    let direct := Tape.write (.ofText "1") (.empty .space)
    direct.Attainable ∧ detour.tape.Attainable ∧ detour.Reachable ∧
    direct.cells.size = 1 ∧ detour.tape.cells.size = 4 ∧
    (∀ i, direct.cell i = detour.tape.cell i) ∧
    (∃ w, detour.tape.load direct.toJson = .ok w ∧ w.equals direct false false = true) ∧
    ∃ w : LoggedTape, (default : LoggedTape).load detour.toJson = .ok w ∧
      w.toJson = detour.toJson := by
  intro direct
  have hdirect : direct.Attainable := .edit (.write _) (.empty _)
  have hdetour : detour.Reachable :=
    (LoggedTape.Reachable.recording none (.empty .space)).performAll _
  obtain ⟨hsame, hread, hlogged⟩ := document_identifies_tape
  obtain ⟨w, hw, _, hequal⟩ := hread direct detour.tape hdirect
  obtain ⟨w', hw', hdocument, _⟩ := hlogged detour default hdetour
  have hcells := ((hsame direct detour.tape hdirect hdetour.attainable).1.mp rfl).2.2
  exact ⟨hdirect, hdetour.attainable, hdetour, rfl, rfl, hcells, ⟨w, hw, hequal⟩,
    w', hw', hdocument⟩

end TapeMachine
