import TapeMachine.Proofs.Visited

/-!
Symbols written in a row. Main statement: a tape that is filled with symbols has them from
zero on and nothing else, if there are positions for all of them.
-/
namespace TapeMachine.Tape

/-- What is at `i` if symbols stand in a row from `c` on. -/
def rowAt (symbols : List Symbol) (c i : Int) : Option Symbol :=
  if c ≤ i then symbols[(i - c).toNat]? else none

@[simp] theorem rowAt_nil (c i : Int) : rowAt [] c i = none := by
  simp [rowAt]

theorem rowAt_cons (s : Symbol) (symbols : List Symbol) (c i : Int) :
    rowAt (s :: symbols) c i = if i = c then some s else rowAt symbols (c + 1) i := by
  unfold rowAt
  by_cases hi : i = c
  · simp [hi]
  · by_cases hc : c ≤ i
    · have hindex : (i - c).toNat = (i - (c + 1)).toNat + 1 := by omega
      have hc' : c + 1 ≤ i := by omega
      simp [hi, hc, hc', hindex]
    · have hc' : ¬c + 1 ≤ i := by omega
      simp [hi, hc, hc']

theorem rowAt_of_lt (symbols : List Symbol) {c i : Int} (h : i < c) : rowAt symbols c i = none :=
  if_neg (Int.not_le.mpr h)

theorem cell_write (s : Symbol) (t : Tape) (i : Int) :
    (t.write s).cell i = if i = t.cursor.index then some s else t.cell i :=
  t.cell_put t.cursor.index i (some s)

theorem index_right_one (t : Tape) (h : t.cursor.index + 1 ≤ greatestIndex) :
    (t.right 1).cursor.index = t.cursor.index + 1 := by
  have hlower := t.cursor.lower
  exact clamp_of_mem (Int.le_trans hlower (Int.le_of_lt (Int.lt_succ _))) h

/-- Symbols that are written in a row stand from the place of the head on; other cells stay. -/
theorem cell_writeRow (symbols : List Symbol) (t : Tape)
    (h : t.cursor.index + symbols.length ≤ greatestIndex + 1) (i : Int) :
    (HasHead.writeRow symbols t).cell i = (rowAt symbols t.cursor.index i).or (t.cell i) := by
  induction symbols generalizing t with
  | nil => simp [HasHead.writeRow]
  | cons s rest ih =>
    rw [rowAt_cons]
    cases rest with
    | nil =>
      change (t.write s).cell i = _
      rw [cell_write]
      split <;> simp
    | cons s' rest =>
      simp only [List.length_cons, Int.natCast_add, Int.cast_ofNat_Int] at h ih
      have hright : ((t.write s).right 1).cursor.index = t.cursor.index + 1 :=
        index_right_one (t.write s) (by change t.cursor.index + 1 ≤ _; omega)
      change (HasHead.writeRow (s' :: rest) ((t.write s).right 1)).cell i = _
      rw [ih _ (by omega), hright]
      change (rowAt _ _ i).or ((t.write s).cell i) = _
      rw [cell_write]
      by_cases hi : i = t.cursor.index
      · rw [rowAt_of_lt _ (by omega)]
        simp [hi]
      · simp [hi]

theorem blank_writeRow (symbols : List Symbol) (t : Tape) :
    (HasHead.writeRow symbols t).blank = t.blank := by
  induction symbols generalizing t with
  | nil => rfl
  | cons s rest ih =>
    cases rest with
    | nil => rfl
    | cons s' rest => exact ih ((t.write s).right 1)

/-- The row that is written has been visited, and nothing beyond it. -/
theorem range_writeRow {symbols : List Symbol} (hne : symbols ≠ []) (t : Tape)
    (h : t.cursor.index + symbols.length ≤ greatestIndex + 1) :
    (HasHead.writeRow symbols t).first = min t.first t.cursor.index ∧
      (HasHead.writeRow symbols t).last = max t.last (t.cursor.index + symbols.length - 1) := by
  induction symbols generalizing t with
  | nil => exact absurd rfl hne
  | cons s rest ih =>
    cases rest with
    | nil =>
      change min t.first t.cursor.index = _ ∧ max t.last t.cursor.index = _
      simp
    | cons s' rest =>
      simp only [List.length_cons, Int.natCast_add, Int.cast_ofNat_Int] at h ih ⊢
      have hright : ((t.write s).right 1).cursor.index = t.cursor.index + 1 :=
        index_right_one (t.write s) (by change t.cursor.index + 1 ≤ _; omega)
      have hfirst : ((t.write s).right 1).first =
          min (min t.first t.cursor.index) ((t.write s).right 1).cursor.index := rfl
      have hlast : ((t.write s).right 1).last =
          max (max t.last t.cursor.index) ((t.write s).right 1).cursor.index := rfl
      have hrest := ih (List.cons_ne_nil s' rest) ((t.write s).right 1) (by omega)
      change (HasHead.writeRow (s' :: rest) ((t.write s).right 1)).first = _ ∧
        (HasHead.writeRow (s' :: rest) ((t.write s).right 1)).last = _
      omega

/-- A tape that is filled with symbols has them from zero on, and nothing else. -/
theorem cell_fill {symbols : List Symbol} (h : (symbols.length : Int) ≤ greatestIndex + 1)
    (cursor : Position) (t : Tape) (i : Int) :
    (HasHead.fill symbols cursor t).cell i = rowAt symbols 0 i := by
  change (HasHead.writeRow symbols t.clear).cell i = _
  have horigin : t.clear.cursor.index = 0 := rfl
  rw [cell_writeRow symbols t.clear (by rw [horigin]; omega), horigin]
  change (rowAt symbols 0 i).or ((empty t.blank).cell i) = _
  rw [cell_empty, Option.or_none]

theorem blank_fill (symbols : List Symbol) (cursor : Position) (t : Tape) :
    (HasHead.fill symbols cursor t).blank = t.blank :=
  blank_writeRow symbols t.clear

/-- The visited range of a filled tape is the row, if the head goes back to its beginning. -/
theorem range_fill {symbols : List Symbol} (hne : symbols ≠ [])
    (h : (symbols.length : Int) ≤ greatestIndex + 1) (t : Tape) :
    (HasHead.fill symbols .origin t).first = 0 ∧
      (HasHead.fill symbols .origin t).last = symbols.length - 1 := by
  have horigin : t.clear.cursor.index = 0 := rfl
  have hclear : t.clear.first = 0 ∧ t.clear.last = 0 := ⟨rfl, rfl⟩
  have hlength := List.length_pos_iff.mpr hne
  obtain ⟨hfirst, hlast⟩ := range_writeRow hne t.clear (by rw [horigin]; omega)
  change min (HasHead.writeRow symbols t.clear).first 0 = 0 ∧
    max (HasHead.writeRow symbols t.clear).last 0 = _
  omega

theorem covered_fill (symbols : List Symbol) (cursor : Position) (t : Tape) :
    (HasHead.fill symbols cursor t).Covered :=
  (coveredInvariant.writeRow symbols (covered_empty t.blank)).moveTo cursor

end TapeMachine.Tape
