import TapeMachine.Bundle.Reader
import TapeMachine.Proofs.Edit

/-!
What readers yield. A property of everything that a reader can give is found by following
the reader: through its steps, along the items of a list, and over the drafts of a record.
Main statement: in a bundle that has been read, every number of cells fits into 64 bits.
-/
namespace TapeMachine

namespace Json.Reader

/-- Whatever is read has the property. -/
def Yields {α : Type} (P : α → Prop) (reader : Reader α) : Prop :=
  ∀ cs a rest, reader cs = .ok (a, rest) → P a

namespace Yields

variable {α β : Type} {P : α → Prop} {Q : β → Prop}

theorem pure {a : α} (h : P a) : Yields P (Pure.pure a) := by
  intro cs b rest hr
  cases hr
  exact h

theorem throw (fault : Fault) : Yields P (MonadExcept.throw fault) := by
  intro cs a rest hr
  cases hr

theorem bind {reader : Reader β} {next : β → Reader α} (hreader : Yields Q reader)
    (hnext : ∀ b, Q b → Yields P (next b)) : Yields P (reader >>= next) := by
  intro cs a rest hr
  obtain ⟨⟨b, left⟩, hfirst, hr⟩ := bind_eq_ok.mp hr
  exact hnext b (hreader cs b left hfirst) left a rest hr

/-- A step of which nothing needs to be known. -/
theorem after {reader : Reader β} {next : β → Reader α} (hnext : ∀ b, Yields P (next b)) :
    Yields P (reader >>= next) :=
  bind (Q := fun _ => True) (fun _ _ _ _ => trivial) fun b _ => hnext b

theorem map {f : β → α} {reader : Reader β} (h : Yields (fun b => P (f b)) reader) :
    Yields P (f <$> reader) := by
  intro cs a rest hr
  obtain ⟨⟨b, left⟩, hfirst, hr⟩ := bind_eq_ok.mp hr
  cases hr
  exact h cs b _ hfirst

end Yields

variable {α δ : Type} {P : α → Prop}

/-- Nothing is read where something else was wanted. -/
theorem yields_refuse (wanted : Shape) : Yields P (refuse wanted) := by
  refine .after fun next => ?_
  split
  · exact .throw _
  · exact .throw _
  · exact .throw _
  · exact .after fun _ => .throw _

theorem yields_within (wanted : Shape) (least greatest : Int) :
    Yields (fun i => least ≤ i ∧ i ≤ greatest) (within wanted least greatest) := by
  refine .after fun next => ?_
  split
  · exact .throw _
  · split
    · refine .after fun n => ?_
      split
      · split
        next hi => exact .pure hi
        next => exact .throw _
      · exact .throw _
    · exact yields_refuse wanted

theorem yields_optional {reader : Reader α} (h : Yields P reader) :
    Yields (fun o => ∀ a, o = some a → P a) (optional reader) := by
  refine .after fun next => ?_
  split
  · refine .after fun _ => .after fun _ => .pure ?_
    intro a ha
    cases ha
  · refine h.bind fun a ha => .pure ?_
    intro b hb
    cases hb
    exact ha

theorem yields_listRest {item : Reader α} (h : Yields P item) (fuel : Nat) {read : List α}
    (hread : ∀ a ∈ read, P a) : Yields (fun xs => ∀ a ∈ xs, P a) (listRest item fuel read) := by
  induction fuel generalizing read with
  | zero => exact .throw _
  | succ fuel ih =>
    refine .after fun next => ?_
    split
    · exact .throw _
    · exact .after fun _ => .pure fun a ha => hread a (List.mem_reverse.mp ha)
    · refine .after fun _ => .after fun next => ?_
      split
      · exact .throw _
      · exact .throw _
      · exact h.bind fun x hx => ih (List.forall_mem_cons.mpr ⟨hx, hread⟩)
    · exact .throw _

theorem yields_items {item : Reader α} (h : Yields P item) :
    Yields (fun xs => ∀ a ∈ xs, P a) (items item) := by
  refine .after fun next => ?_
  split
  · exact .throw _
  · exact .after fun _ => .pure fun a ha => absurd ha List.not_mem_nil
  · refine h.bind fun x hx => .after fun _ => yields_listRest h _ ?_
    exact List.forall_mem_singleton.mpr hx

theorem yields_listOf {item : Nat → Reader α} (h : ∀ depth, Yields P (item depth)) (depth : Nat) :
    Yields (fun xs => ∀ a ∈ xs, P a) (listOf item depth) := by
  cases depth with
  | zero =>
    refine .after fun next => ?_
    split
    · exact .throw _
    · exact yields_refuse .list
  | succ depth =>
    refine .after fun next => ?_
    split
    · exact .after fun _ => yields_items (h depth)
    · exact yields_refuse .list

section record

variable {D : δ → Prop} {slots : List (Slot δ)}

/-- Reading a field keeps the property of drafts. -/
def Slot.Keeps (D : δ → Prop) (slot : Slot δ) : Prop :=
  ∀ depth draft, D draft → Yields D (slot.read depth draft)

theorem yields_slotMember (h : ∀ slot ∈ slots, slot.Keeps D) (depth : Nat) (key : String)
    {draft : δ} (hdraft : D draft) : Yields D (slotMember slots depth key draft) := by
  unfold slotMember
  split
  next slot hfind =>
    have hslot := h slot (List.mem_of_find?_eq_some hfind) depth draft hdraft
    split
    · exact .after fun _ => .after fun _ => hslot
    · exact .after fun _ => hslot
  next => exact .after fun _ => .after fun _ => .pure hdraft

theorem yields_keyed (h : ∀ slot ∈ slots, slot.Keeps D) (depth : Nat) {draft : δ}
    (hdraft : D draft) : Yields D (keyed (slotMember slots depth) draft) :=
  .after fun _ => .after fun key => yields_slotMember h depth key hdraft

theorem yields_membersRest (h : ∀ slot ∈ slots, slot.Keeps D) (depth fuel : Nat) {draft : δ}
    (hdraft : D draft) : Yields D (membersRest (slotMember slots depth) fuel draft) := by
  induction fuel generalizing draft with
  | zero => exact .throw _
  | succ fuel ih =>
    refine .after fun next => ?_
    split
    · exact .throw _
    · exact .after fun _ => .pure hdraft
    · refine .after fun _ => .after fun next => ?_
      split
      · exact .throw _
      · exact .throw _
      · exact (yields_keyed h depth hdraft).bind fun read hread => ih hread
      · exact .throw _
    · exact .throw _

theorem yields_members (h : ∀ slot ∈ slots, slot.Keeps D) (depth : Nat) {draft : δ}
    (hdraft : D draft) : Yields D (members (slotMember slots depth) draft) := by
  refine .after fun next => ?_
  split
  · exact .throw _
  · exact .after fun _ => .pure hdraft
  · exact (yields_keyed h depth hdraft).bind fun read hread =>
      .after fun _ => yields_membersRest h depth _ hread
  · exact .throw _

theorem yields_slotItems (h : ∀ slot ∈ slots, slot.Keeps D) (wanted : Shape) (depth n : Nat)
    {draft : δ} (hdraft : D draft) : Yields D (slotItems wanted depth n slots draft) := by
  induction slots generalizing n draft with
  | nil => exact .after fun _ => .pure hdraft
  | cons slot slots ih =>
    obtain ⟨hslot, hslots⟩ := List.forall_mem_cons.mp h
    refine .after fun another => ?_
    split
    · exact (hslot depth draft hdraft).bind fun next hnext => ih hslots (n + 1) hnext
    · split
      · exact ih hslots (n + 1) hdraft
      · exact .throw _

/-- What every field keeps of a draft and the end makes of it, a record has. -/
theorem yields_record {start : δ} {finish : δ → Except Fault α} (name : String)
    (hslots : ∀ slot ∈ slots, slot.Keeps D) (hstart : D start)
    (hfinish : ∀ draft a, D draft → finish draft = .ok a → P a) (depth : Nat) :
    Yields P (record name slots start finish depth) := by
  have hend (draft : δ) (hdraft : D draft) : Yields P (liftM (finish draft) : Reader α) := by
    intro cs a rest hr
    obtain ⟨b, hb, hr⟩ := bind_eq_ok.mp hr
    cases hr
    exact hfinish draft a hdraft hb
  cases depth with
  | zero =>
    refine .after fun next => ?_
    split
    · exact .throw _
    · exact .throw _
    · exact yields_refuse _
  | succ depth =>
    refine .after fun next => ?_
    split
    · exact .after fun _ => (yields_slotItems hslots _ depth 0 hstart).bind hend
    · exact .after fun _ => (yields_members hslots depth hstart).bind hend
    · exact yields_refuse _

end record

theorem required_eq_ok {field : String} {o : Option α} {a : α} (h : required field o = .ok a) :
    o = some a := by
  cases o with
  | none => cases h
  | some b =>
    cases h
    rfl

end Json.Reader

namespace TapeSetup

/-- The cells before zero can be counted in 64 bits. -/
def Countable (s : TapeSetup) : Prop := ∀ n, s.offset = some n → n ≤ greatestCount

theorem yields_countReader (depth : Nat) :
    Json.Reader.Yields (· ≤ greatestCount) (countReader depth) := by
  refine .map fun cs i rest hr => ?_
  have hi := Json.Reader.yields_within .count 0 greatestCount cs i rest hr
  omega

/-- Of the fields only the offset is a count, and it is read as one. -/
theorem yields_reader (depth : Nat) : Json.Reader.Yields Countable (reader depth) := by
  refine Json.Reader.yields_record
    (D := fun d => ∀ n, d.offset = some (some n) → n ≤ greatestCount) _ ?_ ?_ ?_ depth
  · intro slot hslot depth draft hdraft
    simp only [slots, List.mem_cons, List.not_mem_nil, or_false] at hslot
    rcases hslot with rfl | rfl | rfl | rfl
    · exact .after fun _ => .pure hdraft
    · refine (Json.Reader.yields_optional (yields_countReader depth)).bind fun offset hoffset =>
        .pure ?_
      intro n hn
      exact hoffset n (Option.some.inj hn)
    · exact .after fun _ => .pure hdraft
    · exact .after fun _ => .pure hdraft
  · intro n hn
    cases hn
  · intro draft s hdraft hfinish n hn
    obtain ⟨data, _, hs⟩ := bind_eq_ok.mp hfinish
    cases hs
    exact hdraft n (Option.join_eq_some_iff.mp hn)

end TapeSetup

namespace Testcase

theorem yields_inputReader (depth : Nat) :
    Json.Reader.Yields (fun input => input.1.Countable) (inputReader depth) := by
  refine Json.Reader.yields_record
    (D := fun d => ∀ tape, d.tape = some tape → tape.Countable) _ ?_ ?_ ?_ depth
  · intro slot hslot depth draft hdraft
    simp only [inputSlots, List.mem_cons, List.not_mem_nil, or_false] at hslot
    rcases hslot with rfl | rfl
    · refine (TapeSetup.yields_reader depth).bind fun tape htape => .pure ?_
      intro t ht
      cases ht
      exact htape
    · exact .after fun _ => .pure hdraft
  · intro tape ht
    cases ht
  · intro draft input hdraft hfinish
    obtain ⟨tape, htape, hfinish⟩ := bind_eq_ok.mp hfinish
    obtain ⟨state, _, hinput⟩ := bind_eq_ok.mp hfinish
    cases hinput
    exact hdraft tape (Json.Reader.required_eq_ok htape)

theorem yields_reader (depth : Nat) :
    Json.Reader.Yields (fun t => t.tape.Countable) (reader depth) := by
  refine Json.Reader.yields_record
    (D := fun d => ∀ input, d.input = some input → input.1.Countable) _ ?_ ?_ ?_ depth
  · intro slot hslot depth draft hdraft
    simp only [slots, List.mem_cons, List.not_mem_nil, or_false] at hslot
    rcases hslot with rfl | rfl | rfl
    · exact .after fun _ => .pure hdraft
    · refine (yields_inputReader depth).bind fun input hinput => .pure ?_
      intro given hgiven
      cases hgiven
      exact hinput
    · exact .after fun _ => .pure hdraft
  · intro input hinput
    cases hinput
  · intro draft t hdraft hfinish
    obtain ⟨name, _, hfinish⟩ := bind_eq_ok.mp hfinish
    obtain ⟨⟨tape, state⟩, hinput, hfinish⟩ := bind_eq_ok.mp hfinish
    obtain ⟨expected, _, ht⟩ := bind_eq_ok.mp hfinish
    cases ht
    exact hdraft (tape, state) (Json.Reader.required_eq_ok hinput)

end Testcase

namespace Bundle

/-- The tapes of a bundle, its own and those of its testcases, have their cells counted. -/
structure Countable (b : Bundle) : Prop where
  tape : b.tape.Countable
  testcases : ∀ t ∈ b.testcases, t.tape.Countable

theorem yields_reader (depth : Nat) : Json.Reader.Yields Countable (reader depth) := by
  refine Json.Reader.yields_record
    (D := fun d => (∀ tape, d.tape = some tape → tape.Countable) ∧
      ∀ testcases, d.testcases = some testcases → ∀ t ∈ testcases, t.tape.Countable) _ ?_ ?_ ?_
    depth
  · intro slot hslot depth draft hdraft
    simp only [slots, List.mem_cons, List.not_mem_nil, or_false] at hslot
    rcases hslot with rfl | rfl | rfl | rfl | rfl | rfl | rfl | rfl
    · exact .after fun _ => .pure hdraft
    · exact .after fun _ => .pure hdraft
    · exact .after fun _ => .pure hdraft
    · refine (TapeSetup.yields_reader depth).bind fun tape htape => .pure ⟨?_, hdraft.2⟩
      intro given hgiven
      cases hgiven
      exact htape
    · exact .after fun _ => .pure hdraft
    · exact .after fun _ => .pure hdraft
    · exact .after fun _ => .pure hdraft
    · refine (Json.Reader.yields_listOf Testcase.yields_reader depth).bind fun testcases hall =>
        .pure ⟨hdraft.1, ?_⟩
      intro given hgiven
      cases hgiven
      exact hall
  · refine ⟨fun tape ht => ?_, fun testcases ht => ?_⟩
    · cases ht
    · cases ht
  · intro draft b hdraft hfinish
    obtain ⟨title, _, hfinish⟩ := bind_eq_ok.mp hfinish
    obtain ⟨version, _, hfinish⟩ := bind_eq_ok.mp hfinish
    obtain ⟨tape, htape, hfinish⟩ := bind_eq_ok.mp hfinish
    obtain ⟨program, _, hfinish⟩ := bind_eq_ok.mp hfinish
    obtain ⟨state, _, hfinish⟩ := bind_eq_ok.mp hfinish
    obtain ⟨finals, _, hb⟩ := bind_eq_ok.mp hfinish
    cases hb
    refine ⟨hdraft.1 tape (Json.Reader.required_eq_ok htape), ?_⟩
    change ∀ t ∈ draft.testcases.getD [], t.tape.Countable
    cases ht : draft.testcases with
    | none => exact fun t hmem => absurd hmem List.not_mem_nil
    | some testcases => exact hdraft.2 testcases ht

/-- In a bundle that has been read and checked, every number of cells fits into 64 bits. -/
theorem countable_of_parse {text : String} {b : Bundle} (h : parse text = .ok b) :
    b.Countable := by
  obtain ⟨read, hread, h⟩ := bind_eq_ok.mp h
  obtain ⟨_, _, hb⟩ := bind_eq_ok.mp h
  cases hb
  obtain ⟨⟨a, rest⟩, hrun, hwhole⟩ := bind_eq_ok.mp (mapError_eq_ok.mp hread)
  dsimp only at hwhole
  split at hwhole
  · cases hwhole
    exact yields_reader Json.depthLimit _ _ _ hrun
  · cases hwhole

end Bundle

end TapeMachine
