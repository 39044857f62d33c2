import TapeMachine.Proofs.AnyLayer
import TapeMachine.Proofs.Visited

/-!
Equality of tapes without ends. It speaks of all positions, and so it is an equivalence by
its form. Main statement: comparing two tapes where either has been visited decides it, in
whatever layers the tapes are.
-/
namespace TapeMachine

namespace Tape

/-- Two tapes hold the same at `i`; if blanks are ignored, an unwritten cell holds the blank. -/
def HoldSame (ignoreBlanks : Bool) (t u : Tape) (i : Int) : Prop :=
  if ignoreBlanks then (t.cell i).getD t.blank = (u.cell i).getD u.blank else t.cell i = u.cell i

/-- Two tapes have the same blank, the same place of the head unless it is ignored, and hold the
same at every position. -/
structure Same (ignoreBlanks ignoreCursor : Bool) (t u : Tape) : Prop where
  blank : t.blank = u.blank
  cursor : ignoreCursor = false → t.cursor = u.cursor
  cells : ∀ i, HoldSame ignoreBlanks t u i

variable {ignoreBlanks ignoreCursor : Bool} {t u v : Tape} {i : Int}

theorem HoldSame.refl (t : Tape) (i : Int) : HoldSame ignoreBlanks t t i := by
  cases ignoreBlanks <;> simp [HoldSame]

theorem HoldSame.symm (h : HoldSame ignoreBlanks t u i) : HoldSame ignoreBlanks u t i := by
  cases ignoreBlanks with
  | false => exact Eq.symm h
  | true => exact Eq.symm h

theorem HoldSame.trans (h : HoldSame ignoreBlanks t u i) (h' : HoldSame ignoreBlanks u v i) :
    HoldSame ignoreBlanks t v i := by
  cases ignoreBlanks with
  | false => exact Eq.trans h h'
  | true => exact Eq.trans h h'

/-- Cells that are the same hold the same, blanks ignored or not. -/
theorem HoldSame.of_cell_eq (hblank : t.blank = u.blank) (h : t.cell i = u.cell i) :
    HoldSame ignoreBlanks t u i := by
  cases ignoreBlanks <;> simp [HoldSame, hblank, h]

theorem agreeAt_iff : agreeAt ignoreBlanks t u i = true ↔ HoldSame ignoreBlanks t u i := by
  cases ignoreBlanks <;> simp [agreeAt, HoldSame, symbolAt]

namespace Same

theorem refl (t : Tape) : Same ignoreBlanks ignoreCursor t t :=
  ⟨rfl, fun _ => rfl, HoldSame.refl t⟩

theorem symm (h : Same ignoreBlanks ignoreCursor t u) : Same ignoreBlanks ignoreCursor u t :=
  ⟨h.blank.symm, fun hc => (h.cursor hc).symm, fun i => (h.cells i).symm⟩

theorem trans (h : Same ignoreBlanks ignoreCursor t u) (h' : Same ignoreBlanks ignoreCursor u v) :
    Same ignoreBlanks ignoreCursor t v :=
  ⟨h.blank.trans h'.blank, fun hc => (h.cursor hc).trans (h'.cursor hc),
    fun i => (h.cells i).trans (h'.cells i)⟩

/-- Ignoring blanks makes no tapes differ. -/
theorem ignoringBlanks (h : Same false ignoreCursor t u) : Same true ignoreCursor t u :=
  ⟨h.blank, h.cursor, fun i => .of_cell_eq h.blank (h.cells i)⟩

end Same

/-- Where nothing has been written outside the visited ranges, comparing these decides. -/
theorem equals_iff_same (ht : t.Covered) (hu : u.Covered) (ignoreBlanks ignoreCursor : Bool) :
    t.equals u ignoreBlanks ignoreCursor = true ↔ Same ignoreBlanks ignoreCursor t u := by
  rw [equals_iff ht hu]
  constructor
  · rintro ⟨hblank, hcursor, hcells⟩
    refine ⟨hblank, fun hc => hcursor.resolve_left ?_, fun i => agreeAt_iff.mp (hcells i)⟩
    simp [hc]
  · intro h
    refine ⟨h.blank, ?_, fun i => agreeAt_iff.mpr (h.cells i)⟩
    cases ignoreCursor with
    | false => exact .inr (h.cursor rfl)
    | true => exact .inl rfl

/-- Tapes whose cells can be counted in 64 bits hold the same everywhere if they do at the positions
of 64 bits. -/
theorem holdSame_of_positions (ht : t.Attainable) (hu : u.Attainable)
    (hts : (t.cells.size : Int) ≤ greatestIndex) (hus : (u.cells.size : Int) ≤ greatestIndex)
    (hblank : t.blank = u.blank) (h : ∀ p : Position, HoldSame ignoreBlanks t u p.index) (i : Int) :
    HoldSame ignoreBlanks t u i := by
  by_cases hi : ∃ p : Position, p.index = i
  · obtain ⟨p, rfl⟩ := hi
    exact h p
  · have hout : ∀ p : Position, p.index ≠ i := fun p hp => hi ⟨p, hp⟩
    apply HoldSame.of_cell_eq hblank
    rw [ht.cell_eq_none hts hout, hu.cell_eq_none hus hout]

end Tape

/-- Comparing two reachable tapes, in whatever layers, tells whether they have the same blank, the
same place of the head unless it is ignored, and hold the same at every position; the positions of
64 bits are enough for tapes whose cells can be counted in them. So for all flags the comparison is
reflexive, symmetric and transitive, and tapes that are equal stay so if blanks are ignored. -/
theorem equals_decides_same {τ σ ρ : Type} [HasHead τ] [HasHead σ] [HasHead ρ] {a : τ} {b : σ}
    {c : ρ} (ha : HasHead.Reachable a) (hb : HasHead.Reachable b) (hc : HasHead.Reachable c)
    (ignoreBlanks ignoreCursor : Bool) :
    let t := HasHead.tape a
    let u := HasHead.tape b
    let v := HasHead.tape c
    (t.equals u ignoreBlanks ignoreCursor = true ↔
      t.blank = u.blank ∧ (ignoreCursor = false → t.cursor = u.cursor) ∧
        ∀ i, Tape.HoldSame ignoreBlanks t u i) ∧
    ((t.cells.size : Int) ≤ greatestIndex → (u.cells.size : Int) ≤ greatestIndex →
      (t.equals u ignoreBlanks ignoreCursor = true ↔
        t.blank = u.blank ∧ (ignoreCursor = false → t.cursor = u.cursor) ∧
          ∀ p : Position, Tape.HoldSame ignoreBlanks t u p.index)) ∧
    t.equals t ignoreBlanks ignoreCursor = true ∧
    (t.equals u ignoreBlanks ignoreCursor = true → u.equals t ignoreBlanks ignoreCursor = true) ∧
    (t.equals u ignoreBlanks ignoreCursor = true → u.equals v ignoreBlanks ignoreCursor = true →
      t.equals v ignoreBlanks ignoreCursor = true) ∧
    (t.equals u false ignoreCursor = true → t.equals u true ignoreCursor = true) := by
  intro t u v
  have ht : t.Attainable := ha.truthful.2
  have hu : u.Attainable := hb.truthful.2
  have hv : v.Attainable := hc.truthful.2
  have htu := Tape.equals_iff_same ht.covered hu.covered
  refine ⟨?_, fun hts hus => ?_, ?_, fun h => ?_, fun h h' => ?_, fun h => ?_⟩
  · rw [htu]
    exact ⟨fun h => ⟨h.blank, h.cursor, h.cells⟩, fun ⟨hb, hc, hcells⟩ => ⟨hb, hc, hcells⟩⟩
  · rw [htu]
    constructor
    · intro h
      exact ⟨h.blank, h.cursor, fun p => h.cells p.index⟩
    · rintro ⟨hblank, hcursor, hcells⟩
      exact ⟨hblank, hcursor, Tape.holdSame_of_positions ht hu hts hus hblank hcells⟩
  · exact (Tape.equals_iff_same ht.covered ht.covered _ _).mpr (.refl t)
  · exact (Tape.equals_iff_same hu.covered ht.covered _ _).mpr ((htu _ _).mp h).symm
  · have huv := (Tape.equals_iff_same hu.covered hv.covered _ _).mp h'
    exact (Tape.equals_iff_same ht.covered hv.covered _ _).mpr (((htu _ _).mp h).trans huv)
  · exact (htu _ _).mpr ((htu _ _).mp h).ignoringBlanks

/-- A tape in a layer with one blank written far from zero, and the head back at zero. -/
def farBlank : Layer Tape :=
  (HeadEdit.moveTo .origin).perform
    ((HeadEdit.write .space).perform ((HeadEdit.left 9).perform (Layer.mk (.empty .space))))

theorem equals_decides_same_farBlank :
    let empty := Tape.empty .space
    let logged := LoggedTape.recording empty none
    HasHead.Reachable farBlank ∧ HasHead.Reachable empty ∧ HasHead.Reachable logged ∧
    (HasHead.tape farBlank).equals empty true false = true ∧
    (HasHead.tape farBlank).equals logged.tape true false = true ∧
    (HasHead.tape farBlank).equals empty false false = false ∧
    ∀ i, Tape.HoldSame true (HasHead.tape farBlank) empty i := by
  intro empty logged
  have hempty : HasHead.Reachable empty := .empty .space
  have hlogged : HasHead.Reachable logged := .recording none hempty
  have hfar : HasHead.Reachable farBlank :=
    ((hempty.layer.step (.head (.left 9) _)).step (.head (.write .space) _)).step
      (.head (.moveTo .origin) _)
  have hequal : (HasHead.tape farBlank).equals empty true false = true := rfl
  obtain ⟨hiff, _, _, _, htrans, _⟩ := equals_decides_same hfar hempty hlogged true false
  exact ⟨hfar, hempty, hlogged, hequal, htrans hequal rfl, rfl, (hiff.mp hequal).2.2⟩

end TapeMachine
