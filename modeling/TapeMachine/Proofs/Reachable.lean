import TapeMachine.Proofs.Edit
import TapeMachine.Proofs.TapeDocument

/-!
Every reachable tape can be written down and read back. Its storage begins no further
from zero than 64 bits can count, and no edit leaves more frames than the limit allows.
-/
namespace TapeMachine

namespace Json.Decode

theorem count_le {v : Json} {n : Nat} (h : count v = .ok n) : n ≤ greatestCount := by
  unfold count within at h
  split at h
  next i =>
    split at h
    next hi =>
      cases h
      omega
    next => cases h
  next => cases h

variable {ρ : Type} {P : ρ → Prop}

theorem fieldItems_preserves {wanted : Shape} {n : Nat} {fields : List (Field ρ)} {items : List Json}
    {start final : ρ}
    (hf : ∀ f ∈ fields, ∀ v r r', P r → f.decode v r = .ok r' → P r') (hstart : P start)
    (h : fieldItems wanted n fields items start = .ok final) : P final := by
  induction fields generalizing n items start with
  | nil =>
    unfold fieldItems at h
    split at h
    · cases h
      exact hstart
    · cases h
  | cons field fields ih =>
    have hrest : ∀ f ∈ fields, ∀ v r r', P r → f.decode v r = .ok r' → P r' :=
      fun f hmem => hf f (List.mem_cons_of_mem field hmem)
    cases items with
    | nil =>
      unfold fieldItems at h
      split at h
      · exact ih hrest hstart h
      · cases h
    | cons v items =>
      obtain ⟨next, hnext, h⟩ := bind_eq_ok.mp h
      exact ih hrest (hf field List.mem_cons_self v start next hstart hnext) h

/-- What every field of a record preserves holds of the record that is decoded. -/
theorem record_preserves {name : String} {fields : List (Field ρ)} {start final : ρ} {v : Json}
    (hf : ∀ f ∈ fields, ∀ v r r', P r → f.decode v r = .ok r' → P r') (hstart : P start)
    (h : record name fields start v = .ok final) : P final := by
  unfold record at h
  split at h
  next members =>
    induction members generalizing start with
    | nil =>
      cases h
      exact hstart
    | cons member members ih =>
      obtain ⟨next, hnext, h⟩ := bind_eq_ok.mp h
      refine ih ?_ h
      dsimp only at hnext
      split at hnext
      next field hfind => exact hf field (List.mem_of_find?_eq_some hfind) _ _ _ hstart hnext
      next =>
        cases hnext
        exact hstart
  next items => exact fieldItems_preserves hf hstart h
  next => cases h

end Json.Decode

theorem TapeEntries.offset_le {v : Json} {d : TapeEntries} (h : decode v = .ok d) :
    d.offset ≤ greatestCount := by
  refine Json.Decode.record_preserves (P := fun d => d.offset ≤ greatestCount) ?_
    (Nat.zero_le _) h
  intro field hmem v r r' hr hdecode
  simp only [fields, List.mem_cons, List.not_mem_nil, or_false] at hmem
  rcases hmem with rfl | rfl | rfl | rfl
  all_goals
    obtain ⟨x, hx, hdone⟩ := bind_eq_ok.mp hdecode
    cases hdone
  · exact hr
  · exact Json.Decode.count_le hx
  · exact hr
  · exact hr

namespace Tape

theorem offset_put_le {t : Tape} (h : t.offset ≤ greatestCount) (p : Position) (c : Option Symbol) :
    (t.put p.index c).offset ≤ greatestCount := by
  have hp := p.lower
  change t.offset + (-(p.index + t.offset)).toNat ≤ greatestCount
  unfold leastIndex at hp
  unfold greatestCount at *
  omega

/-- A tape accepts a document that gives cells and a place of the head, and not more cells before
zero than there are. -/
theorem load_eq_ok {t u : Tape} {v : Json} :
    t.load v = .ok u ↔
      ∃ d data cursor, TapeEntries.decode v = .ok d ∧ d.data = some data ∧
        d.cursor = some cursor ∧ d.offset ≤ data.length ∧
        u = ofCells (d.blank.getD t.blank) d.offset cursor data := by
  constructor
  · intro h
    obtain ⟨d, hd, h⟩ := bind_eq_ok.mp h
    split at h
    next data cursor hdata hcursor =>
      dsimp only at h
      split at h
      · cases h
      next hle =>
        cases h
        exact ⟨d, data, cursor, mapError_eq_ok.mp hd, hdata, hcursor, Nat.le_of_not_lt hle, rfl⟩
    next => cases h
  · rintro ⟨d, data, cursor, hd, hdata, hcursor, hle, rfl⟩
    refine bind_eq_ok.mpr ⟨d, mapError_eq_ok.mpr hd, ?_⟩
    rw [hdata, hcursor]
    dsimp only
    rw [if_neg (Nat.not_lt.mpr hle)]
    rfl

@[simp] theorem offset_ofCells (blank : Symbol) (offset : Nat) (cursor : Position)
    (data : List (Option Symbol)) : (ofCells blank offset cursor data).offset = offset := by
  unfold ofCells
  split <;> rfl

theorem offset_load_le {t u : Tape} {v : Json} (h : t.load v = .ok u) :
    u.offset ≤ greatestCount := by
  obtain ⟨d, data, cursor, hd, _, _, _, rfl⟩ := load_eq_ok.mp h
  rw [offset_ofCells]
  exact TapeEntries.offset_le hd

theorem offsetInvariant : HeadInvariant fun t : Tape => t.offset ≤ greatestCount where
  visit _ _ h := h
  write _ t h := offset_put_le h t.cursor _
  left _ _ h := h
  right _ _ h := h
  moveTo _ _ h := h
  clear _ _ := Nat.zero_le _
  load _ _ _ _ h := offset_load_le h

theorem Reachable.offset_le {t : Tape} (h : t.Reachable) : t.offset ≤ greatestCount := by
  induction h with
  | empty blank => exact Nat.zero_le _
  | edit e _ ih => exact offsetInvariant.perform e ih

theorem offset_foldl_apply_le (ops : List Operation) {t : Tape} (h : t.offset ≤ greatestCount) :
    (ops.foldl LoggedTape.apply t).offset ≤ greatestCount := by
  induction ops generalizing t with
  | nil => exact h
  | cons op ops ih =>
    cases op with
    | write old new => exact ih (offset_put_le h t.cursor new)
    | move d => exact ih h

end Tape

theorem Journal.decodeLimit_le {present limit : Option Nat} {v : Json}
    (hp : ∀ n, present = some n → n ≤ greatestCount) (h : decodeLimit present v = .ok limit)
    (n : Nat) (hn : limit = some n) : n ≤ greatestCount := by
  unfold decodeLimit at h
  split at h
  next =>
    cases h
    exact hp n hn
  next =>
    cases h
    cases hn
  next i =>
    split at h
    next hi =>
      cases h
      cases hn
      omega
    next => cases h
  next => cases h

namespace Journal

@[simp] theorem limit_ofFrames (limit : Option Nat) (frames : List (List Operation)) :
    (ofFrames limit frames).limit = limit := by
  unfold ofFrames
  split
  · rfl
  · exact limit_evict _

end Journal

namespace LoggedTape

theorem storable_recording {t : Tape} (h : t.offset ≤ greatestCount) (limit : Option Count) :
    (recording t (bound limit)).Storable where
  offset := h
  limit _ hn := bound_le hn
  within := Journal.within_single rfl

theorem Storable.load {t u : LoggedTape} {v : Json} (h : t.Storable) (hu : t.load v = .ok u) :
    u.Storable := by
  obtain ⟨frames, hframes, hu⟩ := bind_eq_ok.mp hu
  obtain ⟨limit, hlimit, hu⟩ := bind_eq_ok.mp hu
  obtain ⟨tape, htape, hu⟩ := bind_eq_ok.mp hu
  cases hu
  constructor
  · exact Tape.offset_load_le htape
  · intro n hn
    exact Journal.decodeLimit_le h.limit hlimit n (by simpa using hn)
  · exact Journal.within_ofFrames limit frames

theorem storableInvariant : HeadInvariant Storable where
  visit _ _ h := ⟨h.offset, h.limit, h.within⟩
  write _ t h := ⟨Tape.offset_put_le h.offset t.tape.cursor _, h.limit, h.within⟩
  left _ _ h := ⟨h.offset, h.limit, h.within⟩
  right _ _ h := ⟨h.offset, h.limit, h.within⟩
  moveTo _ _ h := ⟨h.offset, h.limit, h.within⟩
  clear _ h := ⟨Nat.zero_le _, h.limit, Journal.within_single rfl⟩
  load _ _ _ h hu := h.load hu

theorem Storable.setLimit {t : LoggedTape} (h : t.Storable) (limit : Option Count) :
    (t.setLimit (bound limit)).Storable where
  offset := h.offset
  limit _ hn := bound_le ((Journal.limit_setLimit _ _).symm.trans hn)
  within := Journal.within_setLimit _ _

theorem Storable.snapshot {t : LoggedTape} (h : t.Storable) : t.snapshot.Storable where
  offset := h.offset
  limit n hn := h.limit n ((Journal.limit_openFrame _).symm.trans hn)
  within := Journal.within_openFrame _

theorem Storable.undone {t : LoggedTape} (h : t.Storable) : t.undone.Storable where
  offset := Tape.offset_foldl_apply_le _ h.offset
  limit n hn := h.limit n ((Journal.limit_dropFrame _).symm.trans hn)
  within := h.within.dropFrame

theorem Storable.perform {t : LoggedTape} (h : t.Storable) (e : Edit) :
    (e.perform t).Storable := by
  cases e with
  | head e => exact storableInvariant.perform e h
  | snapshot => exact h.snapshot
  | undo =>
    by_cases hx : t.journal.stack = [[]]
    · rw [Edit.perform_undo_of_exhausted hx]
      exact h
    · rw [Edit.perform_undo_of_not_exhausted hx]
      exact h.undone
  | setLimit limit => exact h.setLimit limit

/-- Every reachable tape can be written down and read back. -/
theorem Reachable.storable {t : LoggedTape} (h : t.Reachable) : t.Storable := by
  induction h with
  | recording limit ht => exact storable_recording ht.offset_le limit
  | edit e _ ih => exact ih.perform e

end LoggedTape

end TapeMachine
