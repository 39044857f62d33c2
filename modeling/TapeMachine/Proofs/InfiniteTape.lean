import Mathlib.Data.List.Induction
import TapeMachine.Proofs.Layers
import TapeMachine.Proofs.Reachable

/-!
The array of a tape stands for cells without end. What a head has done is kept here as a
list of steps, and what a cell holds is said of that list alone: the last symbol written at
its position, if the tape has not been cleared since. Main statement: this is what the
stored cells show, wherever the array had to grow, and a document fills them as it says.
-/
namespace TapeMachine

/-- What a head does on its way, one thing at a time. -/
inductive HeadStep where
  | write (s : Symbol)
  | left (n : Nat)
  | right (n : Nat)
  | moveTo (p : Position)
  | readAt (p : Position)
  | clear
  deriving DecidableEq, Repr

namespace HeadStep

def edit : HeadStep → HeadEdit
  | .write s => .write s
  | .left n => .left n
  | .right n => .right n
  | .moveTo p => .moveTo p
  | .readAt p => .readAt p
  | .clear => .clear

/-- Where a head goes that is at `p`. -/
def goFrom (p : Position) : HeadStep → Position
  | .left n => p.advance (-cellCount n)
  | .right n => p.advance (cellCount n)
  | .moveTo q => q
  | .clear => .origin
  | .write _ | .readAt _ => p

end HeadStep

namespace HeadSteps

/-- Where a head that started at zero is after its steps. -/
def head (steps : List HeadStep) : Position := steps.foldl HeadStep.goFrom .origin

/-- The step with index `n` wrote `s` at `i`. -/
def Wrote (steps : List HeadStep) (n : Nat) (i : Int) (s : Symbol) : Prop :=
  steps[n]? = some (.write s) ∧ (head (steps.take n)).index = i

/-- The last symbol written at `i` was `s`, and the tape has not been cleared since. -/
def LastWrote (steps : List HeadStep) (i : Int) (s : Symbol) : Prop :=
  ∃ n, Wrote steps n i s ∧ ∀ m, n < m → steps[m]? ≠ some .clear ∧ ∀ s', ¬Wrote steps m i s'

/-- Whatever was written at `i` has been cleared since. -/
def Unwritten (steps : List HeadStep) (i : Int) : Prop :=
  ∀ n s, Wrote steps n i s → ∃ m, n < m ∧ steps[m]? = some .clear

variable (steps : List HeadStep) (step : HeadStep)

theorem head_concat : head (steps ++ [step]) = step.goFrom (head steps) := by
  simp [head]

/-- The step after all others writes where they have brought the head. -/
theorem wrote_length (i : Int) (s : Symbol) :
    Wrote (steps ++ [step]) steps.length i s ↔ step = .write s ∧ (head steps).index = i := by
  simp [Wrote]

theorem getElem?_concat {n : Nat} (h : n ≠ steps.length) : (steps ++ [step])[n]? = steps[n]? := by
  rcases Nat.lt_or_gt_of_ne h with hn | hn
  · exact List.getElem?_append_left hn
  · rw [List.getElem?_eq_none (by simp; omega), List.getElem?_eq_none (by omega)]

/-- It does not change what the others have done. -/
theorem wrote_concat {n : Nat} (h : n ≠ steps.length) (i : Int) (s : Symbol) :
    Wrote (steps ++ [step]) n i s ↔ Wrote steps n i s := by
  unfold Wrote
  rw [getElem?_concat steps step h]
  refine and_congr_right fun hn => ?_
  have hlt : n < steps.length := (List.getElem?_eq_some_iff.mp hn).1
  rw [List.take_append_of_le_length (Nat.le_of_lt hlt)]

variable {steps step}

theorem Wrote.lt_length {n : Nat} {i : Int} {s : Symbol} (h : Wrote steps n i s) :
    n < steps.length :=
  (List.getElem?_eq_some_iff.mp h.1).1

theorem lastWrote_concat {i : Int} {s : Symbol} :
    LastWrote (steps ++ [step]) i s ↔
      (step = .write s ∧ (head steps).index = i) ∨
        (LastWrote steps i s ∧ step ≠ .clear ∧
          ∀ s', ¬(step = .write s' ∧ (head steps).index = i)) := by
  constructor
  · rintro ⟨n, hwrote, hlater⟩
    by_cases hn : n = steps.length
    · left
      subst hn
      exact (wrote_length steps step i s).mp hwrote
    · right
      rw [wrote_concat steps step hn] at hwrote
      obtain ⟨hclear, hnone⟩ := hlater steps.length hwrote.lt_length
      refine ⟨⟨n, hwrote, fun m hm => ?_⟩, by simpa using hclear, fun s' => ?_⟩
      · by_cases hlen : m = steps.length
        · exact ⟨by simp [hlen], fun s' h => absurd h.lt_length (by omega)⟩
        · obtain ⟨hm₁, hm₂⟩ := hlater m hm
          rw [getElem?_concat steps step hlen] at hm₁
          exact ⟨hm₁, fun s' h => hm₂ s' ((wrote_concat steps step hlen i s').mpr h)⟩
      · rw [← wrote_length]
        exact hnone s'
  · rintro (hlast | ⟨⟨n, hwrote, hlater⟩, hclear, hnone⟩)
    · have hwrote := (wrote_length steps step i s).mpr hlast
      refine ⟨steps.length, hwrote, fun m hm => ⟨?_, fun s' h => ?_⟩⟩
      · simp [getElem?_concat steps step (Nat.ne_of_gt hm), Nat.le_of_lt hm]
      · exact absurd h.lt_length (by simp; omega)
    · have hn := hwrote.lt_length
      refine ⟨n, (wrote_concat steps step (by omega) i s).mpr hwrote, fun m hm => ?_⟩
      by_cases hlen : m = steps.length
      · subst hlen
        refine ⟨by simpa using hclear, fun s' => ?_⟩
        rw [wrote_length]
        exact hnone s'
      · rw [getElem?_concat steps step hlen]
        refine ⟨(hlater m hm).1, fun s' h => ?_⟩
        exact (hlater m hm).2 s' ((wrote_concat steps step hlen i s').mp h)

theorem unwritten_concat {i : Int} :
    Unwritten (steps ++ [step]) i ↔
      step = .clear ∨
        (Unwritten steps i ∧ ∀ s, ¬(step = .write s ∧ (head steps).index = i)) := by
  constructor
  · intro h
    by_cases hclear : step = .clear
    · exact .inl hclear
    · right
      -- what was cleared later was cleared before the last step
      have hearlier {n m : Nat} (hm : n < m) (hc : (steps ++ [step])[m]? = some .clear) :
          steps[m]? = some .clear := by
        by_cases hlen : m = steps.length
        · subst hlen
          exact absurd (by simpa using hc) hclear
        · rwa [getElem?_concat steps step hlen] at hc
      refine ⟨fun n s hwrote => ?_, fun s hs => ?_⟩
      · have hn := hwrote.lt_length
        obtain ⟨m, hm, hc⟩ := h n s ((wrote_concat steps step (by omega) i s).mpr hwrote)
        exact ⟨m, hm, hearlier hm hc⟩
      · obtain ⟨m, hm, hc⟩ := h _ s ((wrote_length steps step i s).mpr hs)
        have hlt := (List.getElem?_eq_some_iff.mp (hearlier hm hc)).1
        omega
  · rintro (hclear | ⟨h, hnone⟩) n s hwrote
    · by_cases hn : n = steps.length
      · subst hn
        rw [wrote_length, hclear] at hwrote
        cases hwrote.1
      · rw [wrote_concat steps step hn] at hwrote
        exact ⟨steps.length, hwrote.lt_length, by simp [hclear]⟩
    · by_cases hn : n = steps.length
      · subst hn
        exact absurd ((wrote_length steps step i s).mp hwrote) (hnone s)
      · rw [wrote_concat steps step hn] at hwrote
        obtain ⟨m, hm, hc⟩ := h n s hwrote
        have hlt := (List.getElem?_eq_some_iff.mp hc).1
        exact ⟨m, hm, by rw [getElem?_concat steps step (by omega)]; exact hc⟩

/-- The tape that the steps make of an empty one. -/
def tape (blank : Symbol) (steps : List HeadStep) : Tape :=
  HeadEdit.performAll (steps.map HeadStep.edit) (Tape.empty blank)

theorem tape_concat (blank : Symbol) (steps : List HeadStep) (step : HeadStep) :
    tape blank (steps ++ [step]) = step.edit.perform (tape blank steps) := by
  simp [tape, HeadEdit.performAll]

/-- One step moves the head as it is said of positions alone. -/
theorem cursor_perform (step : HeadStep) (t : Tape) :
    (step.edit.perform t).cursor = step.goFrom t.cursor := by
  cases step <;> rfl

/-- One step changes the cell under the head if it writes, and all cells if it clears. -/
theorem cell_perform (step : HeadStep) (t : Tape) (i : Int) :
    (step.edit.perform t).cell i =
      match step with
      | .write s => if i = t.cursor.index then some s else t.cell i
      | .clear => none
      | _ => t.cell i := by
  cases step with
  | write s => exact t.cell_put t.cursor.index i (some s)
  | clear => exact Tape.cell_empty t.blank i
  | left n => rfl
  | right n => rfl
  | moveTo p => rfl
  | readAt p => rfl

theorem cursor_tape (blank : Symbol) (steps : List HeadStep) :
    (tape blank steps).cursor = head steps := by
  induction steps using List.reverseRecOn with
  | nil => rfl
  | append_singleton steps step ih => rw [tape_concat, cursor_perform, ih, head_concat]

theorem blank_tape (blank : Symbol) (steps : List HeadStep) :
    (tape blank steps).blank = blank := by
  induction steps using List.reverseRecOn with
  | nil => rfl
  | append_singleton steps step ih =>
    rw [tape_concat]
    cases step <;> exact ih

/-- What a cell holds is what was written there last. -/
theorem cell_tape_eq_some (blank : Symbol) (steps : List HeadStep) (i : Int) (s : Symbol) :
    (tape blank steps).cell i = some s ↔ LastWrote steps i s := by
  induction steps using List.reverseRecOn with
  | nil => simp [tape, HeadEdit.performAll, LastWrote, Wrote]
  | append_singleton steps step ih =>
    rw [tape_concat, cell_perform, cursor_tape, lastWrote_concat, ← ih]
    cases step with
    | write s' =>
      dsimp only
      by_cases hi : i = (head steps).index
      · simp [hi]
      · simp [hi, Ne.symm hi]
    | _ => simp

theorem cell_tape_eq_none (blank : Symbol) (steps : List HeadStep) (i : Int) :
    (tape blank steps).cell i = none ↔ Unwritten steps i := by
  induction steps using List.reverseRecOn with
  | nil => simp [tape, HeadEdit.performAll, Unwritten, Wrote]
  | append_singleton steps step ih =>
    rw [tape_concat, cell_perform, cursor_tape, unwritten_concat, ← ih]
    cases step with
    | write s =>
      dsimp only
      by_cases hi : i = (head steps).index
      · simp [hi]
      · simp [hi, Ne.symm hi]
    | _ => simp

end HeadSteps

namespace Tape

/-- The entry with index `n` of a document's cells is the cell at `n` less the offset. -/
theorem cell_ofCells_of_getElem? (blank : Symbol) (offset : Nat) (cursor : Position)
    {data : List (Option Symbol)} {n : Nat} {c : Option Symbol} (h : data[n]? = some c) :
    (ofCells blank offset cursor data).cell (n - offset) = c := by
  have hn : (n : Int) - offset + offset = n := by omega
  rw [cell_ofCells, hn, if_pos (Int.natCast_nonneg n), Int.toNat_natCast, h]
  rfl

/-- Before its first and after its last entry nothing is written. -/
theorem cell_ofCells_of_outside (blank : Symbol) (offset : Nat) (cursor : Position)
    {data : List (Option Symbol)} {i : Int} (h : i + offset < 0 ∨ data.length ≤ i + offset) :
    (ofCells blank offset cursor data).cell i = none := by
  rw [cell_ofCells]
  split
  next hle =>
    rw [List.getElem?_eq_none (by omega)]
    rfl
  next => rfl

end Tape

/-- The array of cells is a tape without ends: storing a cell changes what is written at its
position and nothing else; after any steps of a head from an empty tape every cell holds the last
symbol written there since the tape was cleared, and none if there is none; and after a document
has been accepted every cell holds the entry of the document that stands at its position. -/
theorem storage_is_infinite_tape :
    (∀ (t : Tape) (i : Int) (c : Option Symbol),
      (t.put i c).cell i = c ∧ (∀ j, j ≠ i → (t.put i c).cell j = t.cell j) ∧
        (t.put i c).cursor = t.cursor ∧ (t.put i c).blank = t.blank) ∧
    (∀ (blank : Symbol) (steps : List HeadStep),
      let t := HeadEdit.performAll (steps.map HeadStep.edit) (Tape.empty blank)
      t.cursor = HeadSteps.head steps ∧ t.blank = blank ∧
        ∀ i, (∀ s, t.cell i = some s ↔ HeadSteps.LastWrote steps i s) ∧
          (t.cell i = none ↔ HeadSteps.Unwritten steps i)) ∧
    ∀ (t u : Tape) (document : Json), t.load document = .ok u →
      ∃ d data, TapeEntries.decode document = .ok d ∧ d.data = some data ∧
        ∀ i : Int, (∀ (n : Nat) c, i + d.offset = n → data[n]? = some c → u.cell i = c) ∧
          (i + d.offset < 0 ∨ data.length ≤ i + d.offset → u.cell i = none) := by
  refine ⟨fun t i c => ⟨?_, fun j hj => ?_, rfl, rfl⟩, fun blank steps => ?_, fun t u v h => ?_⟩
  · rw [Tape.cell_put, if_pos rfl]
  · rw [Tape.cell_put, if_neg hj]
  · exact ⟨HeadSteps.cursor_tape blank steps, HeadSteps.blank_tape blank steps, fun i =>
      ⟨HeadSteps.cell_tape_eq_some blank steps i, HeadSteps.cell_tape_eq_none blank steps i⟩⟩
  · obtain ⟨d, data, cursor, hd, hdata, _, _, rfl⟩ := Tape.load_eq_ok.mp h
    refine ⟨d, data, hd, hdata, fun i => ⟨fun n c hn hc => ?_, fun hi => ?_⟩⟩
    · have hi : i = n - d.offset := by omega
      rw [hi]
      exact Tape.cell_ofCells_of_getElem? _ d.offset cursor hc
    · exact Tape.cell_ofCells_of_outside _ d.offset cursor hi

/-- A document all of whose cells stand before zero. -/
def leftDocument : Json :=
  .object [("cursor", .int 0), ("data", .array [.string "1", .null]), ("offset", .int 2)]

theorem storage_is_infinite_tape_left :
    let u := settled default ((default : Tape).load leftDocument)
    (default : Tape).load leftDocument = .ok u ∧
      u.cell (-2) = some (.ofText "1") ∧ u.cell (-1) = none ∧ u.cell 0 = none := by
  intro u
  have hu : (default : Tape).load leftDocument = .ok u := rfl
  obtain ⟨d, data, hd, hdata, hcells⟩ := storage_is_infinite_tape.2.2 default u leftDocument hu
  have hentries : TapeEntries.decode leftDocument =
      .ok ⟨none, 2, some .origin, some [some (.ofText "1"), none]⟩ := rfl
  rw [hentries] at hd
  cases hd
  cases hdata
  exact ⟨hu, (hcells (-2)).1 0 _ rfl rfl, (hcells (-1)).1 1 _ rfl rfl,
    (hcells 0).2 (.inr (by decide))⟩

end TapeMachine
