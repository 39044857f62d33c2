import TapeMachine.Proofs.Edit

/-!
Reading a tape document by different tapes. The tape that reads lends its blank and its limit
to a document that gives none. All tapes can read the same documents, and a document that
gives both is read alike by all of them.
-/
namespace TapeMachine

/-- Attempts that fail with the same error or succeed with related values. -/
inductive Matched {α β : Type} (R : α → β → Prop) : Except Error α → Except Error β → Prop where
  | error (e : Error) : Matched R (.error e) (.error e)
  | ok {a : α} {b : β} (h : R a b) : Matched R (.ok a) (.ok b)

namespace Matched

variable {α β γ δ : Type} {R : α → β → Prop} {S : γ → δ → Prop} {x : Except Error α}
  {y : Except Error β}

theorem ok_iff (h : Matched R x y) : (∃ a, x = .ok a) ↔ ∃ b, y = .ok b := by
  cases h with
  | error e => constructor <;> rintro ⟨_, h⟩ <;> cases h
  | @ok a b h => exact ⟨fun _ => ⟨b, rfl⟩, fun _ => ⟨a, rfl⟩⟩

theorem error_iff (h : Matched R x y) (e : Error) : x = .error e ↔ y = .error e := by
  cases h with
  | error e => rw [Except.error.injEq, Except.error.injEq]
  | ok h => constructor <;> intro h <;> cases h

theorem related (h : Matched R x y) {a : α} {b : β} (hx : x = .ok a) (hy : y = .ok b) : R a b := by
  subst hx hy
  cases h with
  | ok h => exact h

theorem discard (h : Matched R x y) : Matched (fun _ _ => True) (discard x) (discard y) := by
  cases h with
  | error e => exact .error e
  | ok h => exact .ok trivial

theorem bind {f : α → Except Error γ} {g : β → Except Error δ} (h : Matched R x y)
    (hfg : ∀ a b, R a b → Matched S (f a) (g b)) : Matched S (x >>= f) (y >>= g) := by
  cases h with
  | error e => exact .error e
  | ok h => exact hfg _ _ h

/-- Attempts that begin with the same step. -/
theorem bind_same (x : Except Error α) {f : α → Except Error γ} {g : α → Except Error δ}
    (hfg : ∀ a, x = .ok a → Matched S (f a) (g a)) : Matched S (x >>= f) (x >>= g) := by
  cases x with
  | error e => exact .error e
  | ok a => exact hfg a rfl

end Matched

theorem Json.Decode.isSome_optional {α : Type} {decode : Decoder α} {v : Json} {o : Option α}
    (hv : v ≠ .null) (h : optional decode v = .ok o) : o.isSome = true := by
  unfold optional at h
  split at h
  · exact absurd rfl hv
  · cases hdecode : decode v with
    | error e =>
      rw [hdecode] at h
      cases h
    | ok a =>
      rw [hdecode] at h
      cases h
      rfl

/-- A member under `key` sets what no member under another key changes. -/
theorem Json.Decode.record_sets {ρ : Type} {P : ρ → Prop} {name : String} (key : String)
    {fields : List (Field ρ)} {members : List (String × Json)} {start final : ρ}
    (hset : ∀ f ∈ fields, f.name = key → ∀ v, (key, v) ∈ members →
      ∀ r r', f.decode v r = .ok r' → P r')
    (hkeep : ∀ f ∈ fields, f.name ≠ key → ∀ v r r', P r → f.decode v r = .ok r' → P r')
    (hfield : ∃ f ∈ fields, f.name = key) (hstart : P start ∨ ∃ v, (key, v) ∈ members)
    (h : record name fields start (.object members) = .ok final) : P final := by
  induction members generalizing start with
  | nil =>
    cases h
    exact hstart.resolve_right (by simp)
  | cons member members ih =>
    obtain ⟨next, hnext, h⟩ := bind_eq_ok.mp h
    dsimp only at hnext
    -- every member under the key sets the property anew, every other one keeps it
    have hstep : P next ∨ ∃ v, (key, v) ∈ members := by
      by_cases hkey : member.1 = key
      · left
        split at hnext
        next field hfind =>
          have hname : field.name = key := by simpa [hkey] using List.find?_some hfind
          exact hset field (List.mem_of_find?_eq_some hfind) hname member.2
            (hkey ▸ List.mem_cons_self) start next hnext
        next hfind =>
          obtain ⟨field, hmem, hname⟩ := hfield
          have hne := List.find?_eq_none.mp hfind field hmem
          exact absurd (hname.trans hkey.symm) (by simpa using hne)
      · rcases hstart with hP | ⟨v, hv⟩
        · left
          split at hnext
          next field hfind =>
            have hname : field.name = member.1 := by simpa using List.find?_some hfind
            exact hkeep field (List.mem_of_find?_eq_some hfind) (hname ▸ hkey) member.2 start next
              hP hnext
          next =>
            cases hnext
            exact hP
        · right
          refine ⟨v, (List.mem_cons.mp hv).resolve_left fun he => hkey ?_⟩
          rw [← he]
    exact ih (fun f hf hname v hv => hset f hf hname v (List.mem_cons_of_mem _ hv)) hstep h

/-- A tape document that gives a blank and a limit, so that no tape has to lend it one. -/
def SelfContained (document : Json) : Prop :=
  ∃ members, document = .object members ∧
    (∃ blank, ("blank_symbol", blank) ∈ members) ∧
    (∀ blank, ("blank_symbol", blank) ∈ members → blank ≠ .null) ∧
    ∃ limit, ("history_size", limit) ∈ members

theorem TapeEntries.blank_decode {v : Json} {d : TapeEntries} (hv : SelfContained v)
    (h : decode v = .ok d) : d.blank.isSome = true := by
  obtain ⟨members, rfl, hblank, hnull, _⟩ := hv
  refine Json.Decode.record_sets (P := fun d => d.blank.isSome = true) "blank_symbol" ?_ ?_
    ⟨_, List.mem_cons_self, rfl⟩ (.inr hblank) h
  · intro field hmem hname v hv r r' hdecode
    simp only [List.mem_cons, List.not_mem_nil, or_false] at hmem
    rcases hmem with rfl | rfl | rfl | rfl
    · obtain ⟨blank, hblank, hdone⟩ := bind_eq_ok.mp hdecode
      cases hdone
      exact Json.Decode.isSome_optional (hnull v (by rw [← hname]; exact hv)) hblank
    all_goals simp at hname
  · intro field hmem hname v r r' hr hdecode
    simp only [List.mem_cons, List.not_mem_nil, or_false] at hmem
    rcases hmem with rfl | rfl | rfl | rfl
    · exact absurd rfl hname
    all_goals
      obtain ⟨x, hx, hdone⟩ := bind_eq_ok.mp hdecode
      cases hdone
      exact hr

/-- Only the blank of the tape that reads a document can be seen in the result. -/
theorem Tape.load_matched (v : Json) (t u : Tape) :
    Matched (fun t' u' => SelfContained v → t' = u') (t.load v) (u.load v) := by
  refine .bind_same _ fun d hd => ?_
  split
  next data cursor _ _ =>
    dsimp only
    split
    · exact .error _
    · refine .ok fun hv => ?_
      have hblank := TapeEntries.blank_decode hv (mapError_eq_ok.mp hd)
      obtain ⟨blank, hblank⟩ := Option.isSome_iff_exists.mp hblank
      rw [hblank]
      rfl
  next => exact .error _

theorem Journal.decodeLimit_matched (v : Json) (present other : Option Nat) :
    Matched (fun limit limit' => SelfContained v → limit = limit') (decodeLimit present v)
      (decodeLimit other v) := by
  unfold decodeLimit
  split
  next hnone =>
    refine .ok ?_
    rintro ⟨members, rfl, _, _, limit, hlimit⟩
    have hne := List.lookup_eq_none_iff.mp hnone _ hlimit
    simp at hne
  next => exact .ok fun _ => rfl
  next =>
    split
    · exact .ok fun _ => rfl
    · exact .error _
  next => exact .error _

/-- Whether a document can be read does not depend on the tape that reads it, and neither does
what is read if the document gives a blank and a limit. -/
theorem LoggedTape.load_matched (v : Json) (t u : LoggedTape) :
    Matched (fun t' u' => SelfContained v → t' = u') (t.load v) (u.load v) := by
  refine .bind_same _ fun frames _ => ?_
  refine .bind (Journal.decodeLimit_matched v _ _) fun limit limit' hlimit => ?_
  refine .bind (Tape.load_matched v _ _) fun tape tape' htape => ?_
  refine .ok fun hv => ?_
  rw [hlimit hv, htape hv]

theorem LoggedTape.selfContained_toJson (t : LoggedTape) : SelfContained t.toJson := by
  refine ⟨_, rfl, ⟨t.tape.blank.toJson, by simp⟩, ?_, ⟨t.journal.limitToJson, by simp⟩⟩
  intro blank hblank
  have hblank : blank = t.tape.blank.toJson := by simpa using hblank
  rw [hblank]
  exact Json.noConfusion

end TapeMachine
