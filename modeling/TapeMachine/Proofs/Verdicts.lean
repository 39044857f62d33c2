import Mathlib.Order.Bounds.Basic
import TapeMachine.Bundle.Verdict
import TapeMachine.Proofs.BundleDocument
import TapeMachine.Proofs.ReadBack
import TapeMachine.Proofs.Running
import TapeMachine.Proofs.TapeEquality

/-!
Verdicts on testcases. The machine is compared where its head has been, but what is expected
is said of the whole tape, which has no ends. Main statement: a verdict lists exactly the
expectations that the last state, the place of the head and the content of the whole tape do
not meet, and nothing else about the run has a part in it.
-/
namespace TapeMachine

namespace Text

/-- What is left of a list after members with `p` are cut off both of its ends. -/
structure CutTo (p : α → Bool) (xs ys : List α) : Prop where
  parts : ∃ before after, xs = before ++ (ys ++ after) ∧
    (∀ x ∈ before, p x = true) ∧ ∀ x ∈ after, p x = true
  first : ∀ y, ys.head? = some y → p y = false
  last : ∀ y, ys.getLast? = some y → p y = false

variable {α : Type} {p : α → Bool} {xs ys : List α}

theorem cutTo_dropEnds (p : α → Bool) (xs : List α) : CutTo p xs (dropEnds p xs) where
  parts := by
    have hfront := List.takeWhile_append_dropWhile (p := p) (l := xs)
    have hback := List.takeWhile_append_dropWhile (p := p) (l := (xs.dropWhile p).reverse)
    refine ⟨xs.takeWhile p, ((xs.dropWhile p).reverse.takeWhile p).reverse, ?_, ?_, ?_⟩
    · rw [dropEnds, ← List.reverse_append, hback, List.reverse_reverse, hfront]
    · exact fun x hx => List.mem_takeWhile_imp hx
    · exact fun x hx => List.mem_takeWhile_imp (List.mem_reverse.mp hx)
  first := head?_of_dropWhile (dropWhile_dropEnds p xs)
  last y hy := head?_of_dropWhile (reverse_dropEnds p xs) y (by rw [List.head?_reverse, hy])

/-- What is left is the same however it is cut. -/
theorem CutTo.dropEnds_eq (h : CutTo p xs ys) : dropEnds p xs = ys := by
  obtain ⟨before, after, rfl, hbefore, hafter⟩ := h.parts
  have hafter' : ∀ x ∈ after.reverse, p x = true := fun x hx => hafter x (List.mem_reverse.mp hx)
  have hlast : ys.reverse.dropWhile p = ys.reverse :=
    dropWhile_of_head? fun y hy => h.last y (by rw [← List.head?_reverse, hy])
  have hfirst : (ys ++ after).dropWhile p = ys ++ after ∨ ys = [] := by
    cases ys with
    | nil => exact .inr rfl
    | cons y ys => exact .inl (dropWhile_of_head? h.first)
  rw [dropEnds, List.dropWhile_append_of_pos hbefore]
  rcases hfirst with hfirst | rfl
  · rw [hfirst, List.reverse_append, List.dropWhile_append_of_pos hafter', hlast,
      List.reverse_reverse]
  · rw [List.nil_append, List.dropWhile_eq_nil_iff.mpr hafter]
    rfl

theorem dropEnds_eq_iff : dropEnds p xs = ys ↔ CutTo p xs ys := by
  constructor
  · rintro rfl
    exact cutTo_dropEnds p xs
  · exact CutTo.dropEnds_eq

end Text

section Bounds

variable {blank s : Symbol} {row before kept after : List Symbol}

theorem findIdx?_of_blank (h : ∀ s ∈ row, s = blank) : row.findIdx? (· != blank) = none := by
  rw [List.findIdx?_eq_none_iff]
  intro s hs
  simp [h s hs]

/-- A search passes over the blanks in front of the first symbol that is not one. -/
theorem findIdx?_append_of_blank (hbefore : ∀ s ∈ before, s = blank)
    (hfirst : row.head? = some s) (hs : s ≠ blank) :
    (before ++ row).findIdx? (· != blank) = some before.length := by
  obtain ⟨rest, rfl⟩ := List.head?_eq_some_iff.mp hfirst
  have hzero : (s :: rest).findIdx? (· != blank) = some 0 := by
    rw [List.findIdx?_cons, if_pos (by simpa using hs)]
  rw [List.findIdx?_append, findIdx?_of_blank hbefore, hzero]
  simp

/-- Without such a symbol both bounds are at the end of the row. -/
theorem bounds_of_blank (h : ∀ s ∈ row, s = blank) :
    contentStart blank row = row.length ∧ contentEnd blank row = row.length := by
  have hstart : contentStart blank row = row.length := by
    rw [contentStart, findIdx?_of_blank h, Option.getD_none]
  have hback : row.reverse.findIdx? (· != blank) = none :=
    findIdx?_of_blank fun s hs => h s (List.mem_reverse.mp hs)
  refine ⟨hstart, ?_⟩
  simp only [contentEnd, hback, hstart]

/-- The searches from the two sides find the bounds of the part between the blanks. -/
theorem bounds_of_parts (hbefore : ∀ s ∈ before, s = blank) (hafter : ∀ s ∈ after, s = blank)
    (hfirst : kept.head? = some s) (hs : s ≠ blank)
    (hlast : ∀ s, kept.getLast? = some s → s ≠ blank) :
    contentStart blank (before ++ (kept ++ after)) = before.length ∧
      contentEnd blank (before ++ (kept ++ after)) = before.length + kept.length := by
  have hfront : (kept ++ after).head? = some s := by rw [List.head?_append, hfirst, Option.some_or]
  refine ⟨by rw [contentStart, findIdx?_append_of_blank hbefore hfront hs, Option.getD_some], ?_⟩
  have hkept : kept ≠ [] := by
    rintro rfl
    cases hfirst
  have hback : (kept.reverse ++ before.reverse).head? = some (kept.getLast hkept) := by
    rw [List.head?_append, List.head?_reverse, List.getLast?_eq_some_getLast hkept, Option.some_or]
  have hafter' : ∀ s ∈ after.reverse, s = blank := fun s hs => hafter s (List.mem_reverse.mp hs)
  have hsearch : (before ++ (kept ++ after)).reverse.findIdx? (· != blank) = some after.length := by
    rw [List.reverse_append, List.reverse_append, List.append_assoc,
      findIdx?_append_of_blank hafter' hback (hlast _ (List.getLast?_eq_some_getLast hkept)),
      List.length_reverse]
  simp only [contentEnd, hsearch, List.length_append]
  omega

/-- The bounds are in order, and what stands between them is what is left when blanks are dropped
from both ends. -/
theorem trimBlanks_between (blank : Symbol) (row : List Symbol) :
    contentStart blank row ≤ contentEnd blank row ∧ contentEnd blank row ≤ row.length ∧
      trimBlanks blank row = Text.dropEnds (· == blank) row := by
  have hcut := Text.cutTo_dropEnds (· == blank) row
  generalize Text.dropEnds (· == blank) row = kept at hcut
  obtain ⟨⟨before, after, rfl, hbefore, hafter⟩, hfirst, hlast⟩ := hcut
  simp only [beq_iff_eq, beq_eq_false_iff_ne] at hbefore hafter hfirst hlast
  cases hhead : kept.head? with
  | none =>
    obtain rfl : kept = [] := List.head?_eq_none_iff.mp hhead
    have hall : ∀ s ∈ before ++ ([] ++ after), s = blank := by
      simpa [or_imp, forall_and] using ⟨hbefore, hafter⟩
    obtain ⟨hstart, hend⟩ := bounds_of_blank hall
    rw [trimBlanks, hstart, hend]
    exact ⟨Nat.le_refl _, Nat.le_refl _, by simp⟩
  | some s =>
    obtain ⟨hstart, hend⟩ := bounds_of_parts hbefore hafter hhead (hfirst s hhead) hlast
    rw [trimBlanks, hstart, hend]
    exact ⟨by omega, by simp, by simp⟩

theorem trimBlanks_eq_dropEnds (blank : Symbol) (row : List Symbol) :
    trimBlanks blank row = Text.dropEnds (· == blank) row :=
  (trimBlanks_between blank row).2.2

end Bounds

namespace Tape

variable {t u : Tape} {symbols : List Symbol}

/-- The positions of the whole tape that are not blank. -/
def NonBlank (t : Tape) : Set Int := { i | t.symbolAt i ≠ t.blank }

/-- The content of the whole tape: what is read from the leftmost to the rightmost position that
is not blank, and nothing if all are blank. -/
inductive IsContent (t : Tape) : List Symbol → Prop where
  | blank (h : ∀ i, t.symbolAt i = t.blank) : IsContent t []
  | between {a b : Int} (leftmost : IsLeast t.NonBlank a) (rightmost : IsGreatest t.NonBlank b) :
      IsContent t ((span a b).map t.symbolAt)

/-- The content is a matter of what is read alone. -/
theorem IsContent.congr (h : t.IsContent symbols) (hblank : u.blank = t.blank)
    (hcells : ∀ i, u.symbolAt i = t.symbolAt i) : u.IsContent symbols := by
  have hfun : u.symbolAt = t.symbolAt := funext hcells
  have hsame : u.NonBlank = t.NonBlank := by simp only [NonBlank, hfun, hblank]
  cases h with
  | blank hall => exact .blank fun i => by rw [hcells, hblank, hall]
  | between hleft hright =>
    rw [← hsame] at hleft hright
    rw [← hfun]
    exact .between hleft hright

theorem span_append {a b c : Int} (h : a ≤ b + 1) (h' : b ≤ c) :
    span a b ++ span (b + 1) c = span a c := by
  have hlength : (c - a + 1).toNat = (b - a + 1).toNat + (c - (b + 1) + 1).toNat := by omega
  rw [span, span, span, hlength, List.range_add, List.map_append, List.map_map]
  congr 1
  refine List.map_congr_left fun n _ => ?_
  simp only [Function.comp_apply]
  omega

/-- Outside of the visited range all positions are blank. -/
theorem Covered.mem_range (h : t.Covered) {i : Int} (hi : i ∈ t.NonBlank) :
    t.first ≤ i ∧ i ≤ t.last :=
  mem_span.mp (List.mem_of_mem_filter (h.mem_filled.mpr hi))

theorem head?_map_span {α : Type} (f : Int → α) {a b : Int} (h : a ≤ b) :
    ((span a b).map f).head? = some (f a) := by
  rw [List.head?_eq_getElem?, getElem?_map_span, if_pos (by omega)]
  exact congrArg (some ∘ f) (Int.add_zero a)

theorem getLast?_map_span {α : Type} (f : Int → α) {a b : Int} (h : a ≤ b) :
    ((span a b).map f).getLast? = some (f b) := by
  have hlast : a + (((b - a + 1).toNat - 1 : Nat) : Int) = b := by omega
  rw [List.getLast?_eq_getElem?, getElem?_map_span, List.length_map, length_span, hlast,
    if_pos (Int.le_refl b)]

theorem all_blank {a b : Int} (h : ∀ i, a ≤ i → i ≤ b → t.symbolAt i = t.blank) :
    ∀ s ∈ (span a b).map t.symbolAt, (s == t.blank) = true := by
  intro s hs
  obtain ⟨i, hi, rfl⟩ := List.mem_map.mp hs
  obtain ⟨hl, hu⟩ := mem_span.mp hi
  exact beq_iff_eq.mpr (h i hl hu)

/-- Whatever else has been visited around the content is blank. -/
theorem Covered.cutTo (h : t.Covered) (hcontent : t.IsContent symbols) :
    Text.CutTo (· == t.blank) t.reading symbols := by
  cases hcontent with
  | blank hall =>
    have hvisited := all_blank fun i (_ : t.first ≤ i) (_ : i ≤ t.last) => hall i
    exact ⟨⟨t.reading, [], by simp, hvisited, by simp⟩, by simp, by simp⟩
  | @between a b hleft hright =>
    have hab : a ≤ b := hleft.2 hright.1
    have ha := h.mem_range hleft.1
    have hb := h.mem_range hright.1
    have hbefore : ∀ i, t.first ≤ i → i ≤ a - 1 → t.symbolAt i = t.blank := by
      intro i _ hi
      refine Classical.byContradiction fun hne => ?_
      have hle := hleft.2 hne
      omega
    have hafter : ∀ i, b + 1 ≤ i → i ≤ t.last → t.symbolAt i = t.blank := by
      intro i hi _
      refine Classical.byContradiction fun hne => ?_
      have hle := hright.2 hne
      omega
    have hsplit : span t.first t.last =
        span t.first (a - 1) ++ (span a b ++ span (b + 1) t.last) := by
      rw [span_append (by omega) hb.2, ← span_append (a := t.first) (b := a - 1) (by omega)
        (by omega), Int.sub_add_cancel]
    refine ⟨⟨_, _, ?_, all_blank hbefore, all_blank hafter⟩, fun s hs => ?_, fun s hs => ?_⟩
    · rw [reading, hsplit, List.map_append, List.map_append]
    · rw [head?_map_span _ hab] at hs
      cases hs
      exact beq_false_of_ne hleft.1
    · rw [getLast?_map_span _ hab] at hs
      cases hs
      exact beq_false_of_ne hright.1

theorem Covered.exists_isContent (h : t.Covered) : ∃ symbols, t.IsContent symbols := by
  cases hleft : ((span t.first t.last).filter t.isFilled).head? with
  | none =>
    refine ⟨[], .blank fun i => Classical.byContradiction fun hne => ?_⟩
    have hmem := h.mem_filled.mpr hne
    rw [List.head?_eq_none_iff.mp hleft] at hmem
    cases hmem
  | some a =>
    cases hright : ((span t.first t.last).filter t.isFilled).getLast? with
    | none =>
      rw [List.getLast?_eq_none_iff.mp hright] at hleft
      cases hleft
    | some b =>
      have hleast : IsLeast t.NonBlank a :=
        ⟨h.mem_filled.mp (List.mem_of_head? hleft),
          fun i hi => head?_le t.filled_increasing hleft (h.mem_filled.mpr hi)⟩
      have hgreatest : IsGreatest t.NonBlank b :=
        ⟨h.mem_filled.mp (List.mem_of_getLast? hright),
          fun i hi => le_getLast? t.filled_increasing hright (h.mem_filled.mpr hi)⟩
      exact ⟨_, .between hleast hgreatest⟩

/-- Cutting the visited cells finds the content of the whole tape. -/
theorem Covered.isContent_iff (h : t.Covered) : t.IsContent symbols ↔ t.content = symbols := by
  have hcut : ∀ symbols, t.IsContent symbols → t.content = symbols := by
    intro symbols hcontent
    rw [content, trimBlanks_eq_dropEnds, snd_visited]
    exact (h.cutTo hcontent).dropEnds_eq
  constructor
  · exact hcut symbols
  · rintro rfl
    obtain ⟨symbols, hcontent⟩ := h.exists_isContent
    rwa [hcut symbols hcontent]

/-- Comparing what has been cut compares with the content of the whole tape. -/
theorem Covered.content_eq_iff (h : t.Covered) :
    t.content = trimBlanks t.blank symbols ↔
      ∃ wanted, Text.CutTo (· == t.blank) symbols wanted ∧ t.IsContent wanted := by
  rw [trimBlanks_eq_dropEnds]
  constructor
  · intro heq
    exact ⟨t.content, Text.dropEnds_eq_iff.mp heq.symm, h.isContent_iff.mpr rfl⟩
  · rintro ⟨wanted, hcut, hcontent⟩
    rw [h.isContent_iff.mp hcontent]
    exact hcut.dropEnds_eq.symm

/-- Tapes that hold the same have the same content, wherever their heads have been. -/
theorem content_congr (ht : t.Covered) (hu : u.Covered) {ignoreCursor : Bool}
    (h : Same true ignoreCursor t u) : u.content = t.content := by
  have hcontent : t.IsContent t.content := ht.isContent_iff.mpr rfl
  exact hu.isContent_iff.mp (hcontent.congr h.blank.symm fun i => (h.cells i).symm)

end Tape

/-- What machines are compared in. -/
inductive Aspect where
  | state | content | cursor
  deriving DecidableEq, Repr

def Failure.aspect : Failure → Aspect
  | .state _ _ => .state
  | .content _ _ => .content
  | .cursor _ _ => .cursor

namespace Expectation

/-- A machine is as expected in one aspect, if anything is expected of it. The tape is the whole
one, and blanks around the expected content are left aside. -/
def Met (e : Expectation) (m : Machine) : Aspect → Prop
  | .state => ∀ q, e.state = some q → m.state = q
  | .content => ∀ symbols, e.content = some symbols →
      ∃ wanted, Text.CutTo (· == m.tape.tape.blank) symbols wanted ∧ m.tape.tape.IsContent wanted
  | .cursor => ∀ i, e.cursor = some i → m.tape.tape.cursor.index = i

/-- The failure of what is expected, if something is and it does not hold. -/
def unmet {α : Type} (given : Option α) (holds : α → Prop) [DecidablePred holds]
    (failure : α → Failure) : List Failure :=
  match given with
  | some x => if holds x then [] else [failure x]
  | none => []

theorem unmet_cases {α : Type} (given : Option α) (holds : α → Prop) [DecidablePred holds]
    (failure : α → Failure) :
    (∀ x, given = some x → holds x) ∧ unmet given holds failure = [] ∨
      ∃ x, given = some x ∧ ¬holds x ∧ unmet given holds failure = [failure x] := by
  cases given with
  | none => exact .inl ⟨fun _ hx => (nomatch hx), rfl⟩
  | some x =>
    by_cases hx : holds x
    · refine .inl ⟨fun y hy => ?_, if_pos hx⟩
      cases hy
      exact hx
    · exact .inr ⟨x, rfl, hx, if_neg hx⟩

variable {e : Expectation} {m : Machine}

/-- The failures in one aspect. -/
def failuresIn (e : Expectation) (m : Machine) : Aspect → List Failure
  | .state => unmet e.state (m.state = ·) (.state · m.state)
  | .content =>
    let blank := m.tape.tape.blank
    unmet e.content (m.tape.tape.content = trimBlanks blank ·)
      fun symbols => .content (trimBlanks blank symbols) m.tape.tape.content
  | .cursor => unmet e.cursor (m.tape.tape.cursor.index = ·) (.cursor · m.tape.tape.cursor.index)

theorem failures_eq (e : Expectation) (m : Machine) :
    e.failures m = e.failuresIn m .state ++ e.failuresIn m .content ++ e.failuresIn m .cursor := by
  unfold failures failuresIn unmet
  cases e.state <;> cases e.content <;> cases e.cursor <;> rfl

/-- In every aspect there is one failure if the expectation is not met, and none otherwise. -/
theorem failuresIn_cases (h : m.tape.tape.Covered) (e : Expectation) (a : Aspect) :
    e.Met m a ∧ e.failuresIn m a = [] ∨
      ¬e.Met m a ∧ ∃ f, Failure.aspect f = a ∧ e.failuresIn m a = [f] := by
  cases a with
  | state =>
    obtain hmet | ⟨q, hq, hnot, hone⟩ := unmet_cases e.state (m.state = ·) (.state · m.state)
    · exact .inl hmet
    · exact .inr ⟨fun hmet => hnot (hmet q hq), _, rfl, hone⟩
  | content =>
    let blank := m.tape.tape.blank
    obtain ⟨hmet, hnone⟩ | ⟨symbols, hs, hnot, hone⟩ := unmet_cases e.content
      (m.tape.tape.content = trimBlanks blank ·)
      fun symbols => .content (trimBlanks blank symbols) m.tape.tape.content
    · exact .inl ⟨fun symbols hs => h.content_eq_iff.mp (hmet symbols hs), hnone⟩
    · exact .inr ⟨fun hmet => hnot (h.content_eq_iff.mpr (hmet symbols hs)), _, rfl, hone⟩
  | cursor =>
    obtain hmet | ⟨i, hi, hnot, hone⟩ := unmet_cases e.cursor (m.tape.tape.cursor.index = ·)
      (.cursor · m.tape.tape.cursor.index)
    · exact .inl hmet
    · exact .inr ⟨fun hmet => hnot (hmet i hi), _, rfl, hone⟩

theorem mem_aspects_failuresIn (h : m.tape.tape.Covered) (e : Expectation) {a b : Aspect} :
    b ∈ (e.failuresIn m a).map Failure.aspect ↔ b = a ∧ ¬e.Met m a := by
  obtain ⟨hmet, hnone⟩ | ⟨hnot, f, rfl, hone⟩ := failuresIn_cases h e a
  · simp [hnone, hmet]
  · simp [hone, hnot]

theorem mem_aspects_failures (h : m.tape.tape.Covered) (e : Expectation) (a : Aspect) :
    a ∈ (e.failures m).map Failure.aspect ↔ ¬e.Met m a := by
  rw [failures_eq, List.map_append, List.map_append, List.mem_append, List.mem_append,
    mem_aspects_failuresIn h, mem_aspects_failuresIn h, mem_aspects_failuresIn h]
  cases a <;> simp

/-- No aspect is told of twice. -/
theorem nodup_aspects_failures (h : m.tape.tape.Covered) (e : Expectation) :
    ((e.failures m).map Failure.aspect).Nodup := by
  have hpart (a : Aspect) : ((e.failuresIn m a).map Failure.aspect).Sublist [a] := by
    obtain ⟨_, hnone⟩ | ⟨_, f, rfl, hone⟩ := failuresIn_cases h e a
    · rw [hnone]
      exact List.nil_sublist _
    · rw [hone]
      exact .refl _
  have hall : ((e.failures m).map Failure.aspect).Sublist [.state, .content, .cursor] := by
    rw [failures_eq, List.map_append, List.map_append]
    exact ((hpart .state).append (hpart .content)).append (hpart .cursor)
  exact hall.nodup (by decide)

theorem failures_eq_nil_iff (h : m.tape.tape.Covered) (e : Expectation) :
    e.failures m = [] ↔ ∀ a, e.Met m a := by
  rw [← List.map_eq_nil_iff (f := Failure.aspect), List.eq_nil_iff_forall_not_mem]
  simp only [mem_aspects_failures h, Classical.not_not]

/-- What is found wrong depends on nothing but the state, the head and what is read. -/
theorem failures_congr {m n : Machine} (hm : m.tape.tape.Covered) (hn : n.tape.tape.Covered)
    (hstate : n.state = m.state) (htape : Tape.Same true false m.tape.tape n.tape.tape)
    (e : Expectation) : e.failures n = e.failures m := by
  simp only [failures, hstate, Tape.content_congr hm hn htape, htape.blank, htape.cursor rfl]

end Expectation

namespace Machine

/-- A run does not go beyond the cap. -/
theorem step_run_le (m : Machine) : m.run.2.step ≤ m.step + m.cap := by
  rw [run_snd, step_advance]
  exact Nat.add_le_add_left (m.length_advance_le m.cap) m.step

theorem covered_follow {m : Machine} (h : m.tape.tape.Covered) (i : Instruction) :
    (m.follow i).tape.tape.Covered := by
  change (HasHead.tape (HasHead.moveBy i.motion (m.tape.snapshot.write i.write))).Covered
  rw [Transparent.moveBy]
  exact Tape.coveredInvariant.moveBy i.motion (h.put m.tape.tape.cursor.index (some i.write))

theorem covered_run {m : Machine} (h : m.tape.tape.Covered) : m.run.2.tape.tape.Covered := by
  rw [run_snd]
  exact advance_preserves (P := fun m => m.tape.tape.Covered)
    (fun _ i _ _ hm => covered_follow hm i) m.cap h

end Machine

namespace Bundle

/-- A machine of a bundle is at its start, under the cap. -/
theorem start_of_machineOn {b : Bundle} {tape : TapeSetup} {state : State} {cap : Nat}
    {m : Machine} (h : b.machineOn tape state cap = .ok m) :
    m.tape.tape.Covered ∧ m.step = 0 ∧ m.cap = cap := by
  obtain ⟨rows, _, h⟩ := bind_eq_ok.mp h
  obtain ⟨built, hbuilt, h⟩ := bind_eq_ok.mp h
  obtain ⟨new, hnew, h⟩ := bind_eq_ok.mp h
  obtain ⟨finals, _, hnew⟩ := bind_eq_ok.mp hnew
  cases hnew
  cases h
  refine ⟨?_, rfl, rfl⟩
  change built.tape.Covered
  unfold TapeSetup.build at hbuilt
  dsimp only at hbuilt
  split at hbuilt
  next => cases hbuilt
  next hle =>
    cases hbuilt
    exact Tape.covered_ofCells _ _ (by simpa using hle)

theorem judge_eq_ok {b : Bundle} {cap : Nat} {t : Testcase} {v : Verdict}
    (h : b.judge cap t = .ok v) :
    ∃ start, b.machineOn t.tape t.state cap = .ok start ∧
      v = ⟨t.name, start.run.1, start.run.2.step, t.expected.failures start.run.2⟩ := by
  obtain ⟨start, hstart, h⟩ := bind_eq_ok.mp h
  cases h
  exact ⟨start, hstart, rfl⟩

end Bundle

/-- A verdict is about the machine at the end of its run, which is no longer than the cap. It is
passed exactly if all that is expected holds of the last state, the head and the content of the
whole tape, and lists one failure for each aspect in which it does not. A run that ends with the
same state, the same place of the head and the same symbols on the whole tape, of whatever program
from whatever tape, has the same failures. -/
theorem verdict_of_final_configuration {b : Bundle} {cap : Nat} {t : Testcase} {v : Verdict}
    (h : b.judge cap t = .ok v) :
    ∃ start, b.machineOn t.tape t.state cap = .ok start ∧
      let last := start.run.2
      v.halt = start.run.1 ∧ v.steps = last.step ∧ v.steps ≤ cap ∧
      (v.passed = true ↔ ∀ a, t.expected.Met last a) ∧
      (v.failures.map Failure.aspect).Nodup ∧
      (∀ a, a ∈ v.failures.map Failure.aspect ↔ ¬t.expected.Met last a) ∧
      ∀ b' cap' t' v' start', Bundle.judge b' cap' t' = .ok v' →
        b'.machineOn t'.tape t'.state cap' = .ok start' → t'.expected = t.expected →
        start'.run.2.state = last.state →
        Tape.Same true false last.tape.tape start'.run.2.tape.tape → v'.failures = v.failures := by
  obtain ⟨start, hstart, rfl⟩ := Bundle.judge_eq_ok h
  obtain ⟨hcovered, hzero, hcap⟩ := Bundle.start_of_machineOn hstart
  have hlast := Machine.covered_run hcovered
  have hsteps := start.step_run_le
  rw [hzero, hcap, Nat.zero_add] at hsteps
  refine ⟨start, hstart, rfl, rfl, hsteps, ?_, t.expected.nodup_aspects_failures hlast,
    t.expected.mem_aspects_failures hlast, ?_⟩
  · rw [Verdict.passed, List.isEmpty_iff]
    exact t.expected.failures_eq_nil_iff hlast
  · intro b' cap' t' v' start' h' hstart' hexpected hstate htape
    obtain ⟨_, hagain, rfl⟩ := Bundle.judge_eq_ok h'
    cases hstart'.symm.trans hagain
    have hlast' := Machine.covered_run (Bundle.start_of_machineOn hstart').1
    rw [hexpected]
    exact Expectation.failures_congr hlast hlast' hstate htape t.expected

namespace Stroke

/-- A bundle that crosses out strokes, with nothing to test yet. -/
def untested : Bundle where
  title := "strokes"
  version := "1.0"
  tape := { data := [] }
  program := program.toJson
  state := going
  finals := [ended]

/-- Two strokes are crossed out; the blanks around them do not matter. -/
def plain : Testcase where
  name := "plain"
  tape := { data := [.ofText "1", .ofText "1"] }
  state := going
  expected := {
    state := some ended
    content := some [.space, .ofText "x", .ofText "x", .ofText "!", .space]
    cursor := some 2 }

/-- The same among blanks that have been written. -/
def padded : Testcase :=
  { plain with
    name := "padded"
    tape := { offset := some 2, data := [.space, .space, .ofText "1", .ofText "1", .space, .space] } }

theorem rows_untested : untested.rows = .ok program.rows := by
  change (Program.decodeRows program.toJson).mapError _ = _
  rw [Program.decodeRows_toJson]
  rfl

end Stroke

theorem verdict_of_final_configuration_strokes :
    ∃ v v', Stroke.untested.judge 9 Stroke.plain = .ok v ∧
      Stroke.untested.judge 9 Stroke.padded = .ok v' ∧
      v.failures = [.cursor 2 1] ∧ v'.failures = v.failures ∧ v.steps ≤ 9 ∧
      ∃ start, Stroke.untested.machineOn Stroke.plain.tape Stroke.plain.state 9 = .ok start ∧
        Stroke.plain.expected.Met start.run.2 .content ∧
        ¬Stroke.plain.expected.Met start.run.2 .cursor := by
  have hv : Stroke.untested.judge 9 Stroke.plain =
      .ok ⟨"plain", .finalState, 3, [.cursor 2 1]⟩ := by
    rw [Bundle.judge, Bundle.machineOn, Stroke.rows_untested]
    rfl
  obtain ⟨v', hv'⟩ : ∃ v', Stroke.untested.judge 9 Stroke.padded = .ok v' := by
    rw [Bundle.judge, Bundle.machineOn, Stroke.rows_untested]
    exact ⟨_, rfl⟩
  obtain ⟨start, hstart, _, _, hsteps, _, _, haspects, hothers⟩ := verdict_of_final_configuration hv
  obtain ⟨start', hstart', _⟩ := verdict_of_final_configuration hv'
  have hcovered := Machine.covered_run (Bundle.start_of_machineOn hstart).1
  have hcovered' := Machine.covered_run (Bundle.start_of_machineOn hstart').1
  have hends : start'.run.2.state = start.run.2.state ∧
      start.run.2.tape.tape.equals start'.run.2.tape.tape true false = true := by
    rw [Bundle.machineOn, Stroke.rows_untested] at hstart hstart'
    cases hstart
    cases hstart'
    decide
  have hsame := (Tape.equals_iff_same hcovered hcovered' true false).mp hends.2
  refine ⟨_, v', hv, hv', rfl, hothers _ 9 _ v' start' hv' hstart' rfl hends.1 hsame, hsteps, start,
    hstart, ?_, (haspects .cursor).mp (by decide)⟩
  exact Classical.not_not.mp (mt (haspects .content).mpr (by decide))

end TapeMachine
