import TapeMachine.Proofs.Running
import TapeMachine.Proofs.Trail
import TapeMachine.Proofs.Visited

/-!
Machines in lock step. A machine only sees what it reads: not where on the tape it is, not
where cells are stored, and not whether a blank has been written. Main statement: as long
as no move is stopped at the last positions, two machines that see the same around their
heads do the same transitions and go on seeing the same.
-/
namespace TapeMachine

namespace Position

theorem natAbs_advance (p : Position) (n : Int) :
    (p.advance n).index.natAbs ≤ p.index.natAbs + n.natAbs := by
  rw [advance_index]
  unfold clamp leastIndex greatestIndex
  omega

end Position

namespace Machine

theorem cursor_follow (m : Machine) (i : Instruction) :
    (m.follow i).tape.tape.cursor = m.tape.tape.cursor.advance i.motion.delta :=
  congrArg (fun s => s.view.cursor) (m.scene_follow i)

theorem blank_follow (m : Machine) (i : Instruction) :
    (m.follow i).tape.tape.blank = m.tape.tape.blank :=
  congrArg (fun s => s.view.blank) (m.scene_follow i)

/-- A transition changes what is read where the head was, and nowhere else. -/
theorem symbolAt_follow (m : Machine) (i : Instruction) (j : Int) :
    (m.follow i).tape.tape.symbolAt j =
      if j = m.tape.tape.cursor.index then i.write else m.tape.tape.symbolAt j := by
  have hcell : (m.follow i).tape.tape.cell j =
      if j = m.tape.tape.cursor.index then some i.write else m.tape.tape.cell j :=
    congrArg (fun s => s.view.cells j) (m.scene_follow i)
  rw [Tape.symbolAt, hcell, blank_follow]
  split <;> rfl

/-- The next move of the head, if there is one, is not stopped at the last positions. -/
def Free (m : Machine) : Prop :=
  m.finished = false → ∀ i, m.instruction? = some i →
    leastIndex ≤ m.tape.tape.cursor.index + i.motion.delta ∧
      m.tape.tape.cursor.index + i.motion.delta ≤ greatestIndex

/-- No move of the next `n` transitions is stopped at the last positions. -/
def FreeFor (n : Nat) (m : Machine) : Prop := ∀ k, k < n → (m.advance k).2.Free

theorem FreeFor.free {n : Nat} {m : Machine} (h : m.FreeFor (n + 1)) : m.Free :=
  h 0 n.succ_pos

theorem FreeFor.follow {n : Nat} {m : Machine} (h : m.FreeFor (n + 1)) {i : Instruction}
    (hf : m.atFinal = false) (hi : m.instruction? = some i) : (m.follow i).FreeFor n := by
  intro k hk
  have hnext := h (k + 1) (Nat.succ_lt_succ hk)
  rw [advance_succ k hf hi] at hnext
  exact hnext

/-- Where a move is not stopped, the head goes as far as the motion says. -/
theorem Free.cursor_follow {m : Machine} (h : m.Free) {i : Instruction} (hf : m.atFinal = false)
    (hi : m.instruction? = some i) :
    (m.follow i).tape.tape.cursor.index = m.tape.tape.cursor.index + i.motion.delta := by
  have hfin : m.finished = false := by simp [finished, atUndefined, hf, hi]
  have hbounds := h hfin i hi
  rw [Machine.cursor_follow, Position.advance_index]
  exact clamp_of_mem hbounds.1 hbounds.2

/-- Far from the last positions no move is stopped. -/
theorem freeFor_of_natAbs {n : Nat} {m : Machine}
    (h : (m.tape.tape.cursor.index.natAbs + n : Int) ≤ greatestIndex) : m.FreeFor n := by
  induction n generalizing m with
  | zero =>
    intro k hk
    cases hk
  | succ n ih =>
    intro k hk
    cases k with
    | zero =>
      intro _ i _
      have hd := i.motion.natAbs_delta
      change leastIndex ≤ m.tape.tape.cursor.index + i.motion.delta ∧
        m.tape.tape.cursor.index + i.motion.delta ≤ greatestIndex
      unfold leastIndex greatestIndex at *
      omega
    | succ k =>
      cases hfin : m.finished with
      | true =>
        rw [advance_of_finished (k + 1) hfin]
        intro hfin'
        rw [hfin] at hfin'
        cases hfin'
      | false =>
        obtain ⟨hf, i, hi⟩ := instruction_of_not_finished hfin
        rw [advance_succ k hf hi]
        have hd := i.motion.natAbs_delta
        have hcursor := m.tape.tape.cursor.natAbs_advance i.motion.delta
        rw [← Machine.cursor_follow] at hcursor
        exact ih (by omega) k (Nat.lt_of_succ_lt_succ hk)

end Machine

/-- Machines with the same program and final states, in the same state after as many steps, of
which the second sees at every position what the first sees `d` cells further left. Nothing is
said of what is stored or recorded. -/
structure Displaced (d : Int) (m n : Machine) : Prop where
  program : m.program = n.program
  finals : m.finals = n.finals
  state : m.state = n.state
  step : m.step = n.step
  cap : m.cap = n.cap
  blank : m.tape.tape.blank = n.tape.tape.blank
  cursor : n.tape.tape.cursor.index = m.tape.tape.cursor.index + d
  symbol : ∀ p : Position, n.tape.tape.symbolAt (p.index + d) = m.tape.tape.symbolAt p.index

namespace Displaced

variable {d : Int} {m n : Machine}

theorem read (h : Displaced d m n) : m.tape.tape.read = n.tape.tape.read := by
  rw [Tape.read, Tape.read, h.cursor, h.symbol]

theorem instruction? (h : Displaced d m n) : m.instruction? = n.instruction? := by
  simp only [Machine.instruction?, h.program, h.read, h.state]

theorem atFinal (h : Displaced d m n) : m.atFinal = n.atFinal := by
  simp only [Machine.atFinal, h.finals, h.state]

theorem atUndefined (h : Displaced d m n) : m.atUndefined = n.atUndefined :=
  congrArg Option.isNone h.instruction?

theorem finished (h : Displaced d m n) : m.finished = n.finished := by
  simp only [Machine.finished, h.atFinal, h.atUndefined]

/-- Both write the same at the same distance and move the same way. -/
theorem follow (h : Displaced d m n) (hm : m.Free) (hn : n.Free) {i : Instruction}
    (hf : m.atFinal = false) (hi : m.instruction? = some i) :
    Displaced d (m.follow i) (n.follow i) where
  program := h.program
  finals := h.finals
  state := rfl
  step := congrArg (· + 1) h.step
  cap := h.cap
  blank := by rw [m.blank_follow, n.blank_follow, h.blank]
  cursor := by
    rw [hm.cursor_follow hf hi,
      hn.cursor_follow (h.atFinal.symm.trans hf) (h.instruction?.symm.trans hi), h.cursor]
    omega
  symbol p := by
    have hplace : p.index + d = n.tape.tape.cursor.index ↔ p.index = m.tape.tape.cursor.index := by
      rw [h.cursor]
      omega
    simp only [m.symbolAt_follow, n.symbolAt_follow, hplace, h.symbol]

theorem perform (h : Displaced d m n) {i : Instruction}
    (hnext : Displaced d (m.follow i) (n.follow i)) : (m.perform i).1 = (n.perform i).1 := by
  simp only [Machine.perform, h.read, h.state, hnext.step, hnext.atUndefined, hnext.atFinal]

/-- Step by step both do the same. -/
theorem advance (h : Displaced d m n) {k : Nat} (hm : m.FreeFor k) (hn : n.FreeFor k) :
    (m.advance k).1 = (n.advance k).1 ∧ Displaced d (m.advance k).2 (n.advance k).2 := by
  obtain ⟨hresults, _, hlast, _⟩ := Machine.advance_relates
    (R := fun k m n => Displaced d m n ∧ m.FreeFor k ∧ n.FreeFor k)
    (fun _ _ _ ⟨h, _⟩ => ⟨h.atFinal, h.instruction?⟩)
    (fun k m n i ⟨h, hm, hn⟩ hf hi => by
      have hnext := h.follow hm.free hn.free hf hi
      exact ⟨h.perform hnext, hnext, hm.follow hf hi,
        hn.follow (h.atFinal.symm.trans hf) (h.instruction?.symm.trans hi)⟩) k ⟨h, hm, hn⟩
  exact ⟨hresults, hlast⟩

theorem forth (h : Displaced d m n) {k : Nat} (hm : m.FreeFor k) (hn : n.FreeFor k) :
    (m.forth k).1 = (n.forth k).1 ∧ Displaced d (m.forth k).2 (n.forth k).2 := by
  obtain ⟨hresults, hlast⟩ := h.advance hm hn
  rw [Machine.forth_snd, Machine.forth_snd]
  refine ⟨?_, hlast⟩
  simp only [Machine.forth, h.finished]
  split
  · rfl
  · exact congrArg some hresults

theorem halt (h : Displaced d m n) : m.halt = n.halt := by
  simp only [Machine.halt, h.atFinal, h.atUndefined]

theorem run (h : Displaced d m n) (hm : m.FreeFor m.cap) (hn : n.FreeFor n.cap) :
    m.run.1 = n.run.1 ∧ m.transitions = n.transitions ∧ Displaced d m.run.2 n.run.2 := by
  rw [← h.cap] at hn
  obtain ⟨hresults, hlast⟩ := h.advance hm hn
  have hrun : Displaced d m.run.2 n.run.2 := by
    rw [Machine.run_snd, Machine.run_snd, ← h.cap]
    exact hlast
  refine ⟨hrun.halt, ?_, hrun⟩
  rw [Machine.transitions_eq, Machine.transitions_eq, ← h.cap, hresults]

/-- Machines whose tapes compare equal up to written blanks see the same in the same places. -/
theorem of_equals (hm : m.Reachable) (hn : n.Reachable) (hprogram : m.program = n.program)
    (hfinals : m.finals = n.finals) (hstate : m.state = n.state) (hstep : m.step = n.step)
    (hcap : m.cap = n.cap) (htape : m.tape.tape.equals n.tape.tape true false = true) :
    Displaced 0 m n := by
  obtain ⟨hblank, hcursor, hcells⟩ :=
    (Tape.equals_iff hm.tape.attainable.covered hn.tape.attainable.covered true false).mp htape
  refine ⟨hprogram, hfinals, hstate, hstep, hcap, hblank, ?_, fun p => ?_⟩
  · rw [hcursor.resolve_left Bool.false_ne_true, Int.add_zero]
  · have hsame : (m.tape.tape.symbolAt p.index == n.tape.tape.symbolAt p.index) = true :=
      hcells p.index
    rw [Int.add_zero, eq_of_beq hsame]

end Displaced

/-- Two machines that see the same around their heads, however far apart and however stored, give
the same results and end a run in the same way after the same transitions, and still see the same
then, unless a move is stopped at the last positions. There is taken to be room for the cells of
both, though one that writes far away needs more. Reachable machines whose tapes compare equal up
to written blanks are such a pair. -/
theorem displaced_machines_in_lock_step :
    (∀ (d : Int) (m₁ m₂ : Machine), Displaced d m₁ m₂ →
      (∀ n, m₁.FreeFor n → m₂.FreeFor n →
        (m₁.forth n).1 = (m₂.forth n).1 ∧ Displaced d (m₁.forth n).2 (m₂.forth n).2) ∧
      (m₁.FreeFor m₁.cap → m₂.FreeFor m₂.cap →
        m₁.run.1 = m₂.run.1 ∧ m₁.run.2.step = m₂.run.2.step ∧ m₁.transitions = m₂.transitions ∧
          Displaced d m₁.run.2 m₂.run.2)) ∧
    ∀ m₁ m₂ : Machine, m₁.Reachable → m₂.Reachable → m₁.program = m₂.program →
      m₁.finals = m₂.finals → m₁.state = m₂.state → m₁.step = m₂.step → m₁.cap = m₂.cap →
      m₁.tape.tape.equals m₂.tape.tape true false = true → Displaced 0 m₁ m₂ := by
  refine ⟨fun d m₁ m₂ h => ⟨fun n h₁ h₂ => h.forth h₁ h₂, fun h₁ h₂ => ?_⟩, ?_⟩
  · obtain ⟨hhalt, htransitions, hlast⟩ := h.run h₁ h₂
    exact ⟨hhalt, hlast.step, htransitions, hlast⟩
  · intro m₁ m₂ hm hn hprogram hfinals hstate hstep hcap htape
    exact .of_equals hm hn hprogram hfinals hstate hstep hcap htape

namespace Stroke

/-- Three strokes five cells further right, with a blank written behind them. -/
def farTape : LoggedTape :=
  Edit.performAll [.head (.moveTo (.ofInt 8)), .head (.write .space), .head (.moveTo (.ofInt 5)),
    .head (.write (.ofText "1")), .head (.right 1), .head (.write (.ofText "1")), .head (.right 1),
    .head (.write (.ofText "1")), .head (.left 2)] (.recording (.empty .space) (some 1))

theorem reachable_farTape : farTape.Reachable :=
  (LoggedTape.Reachable.recording (some ⟨1, by decide⟩) (.empty .space)).performAll _

/-- Outside the visited ranges both tapes are blank, and within them they can be compared. -/
theorem symbolAt_farTape (i : Int) : farTape.tape.symbolAt (i + 5) = tape.tape.symbolAt i := by
  by_cases hi : -5 ≤ i ∧ i ≤ 3
  · have hrange : ∀ j ∈ Tape.span (-5) 3,
        farTape.tape.symbolAt (j + 5) = tape.tape.symbolAt j := by decide
    exact hrange i (Tape.mem_span.mpr hi)
  · have hfar : farTape.tape.first = 0 ∧ farTape.tape.last = 8 := by decide
    have hnear : tape.tape.first = 0 ∧ tape.tape.last = 2 := by decide
    have hblank : farTape.tape.blank = tape.tape.blank := by decide
    rw [Tape.symbolAt, Tape.symbolAt, hblank,
      reachable_farTape.attainable.covered.cell_eq_none (by omega),
      reachable_tape.attainable.covered.cell_eq_none (by omega)]

/-- The strokes in their place, with a blank written behind them. -/
def blankedTape : LoggedTape :=
  Edit.performAll [.head (.right 3), .head (.write .space), .head (.left 3)] tape

/-- The machine that crosses out the strokes of a tape, at its start. -/
def machineOn (t : LoggedTape) : Machine where
  program := program
  tape := t
  finals := .ofList [ended]
  initialState := going
  initialTape := t.toJson
  state := going
  past := []
  step := 0
  name := "machine"
  cap := 10000

theorem new_eq_machineOn (t : LoggedTape) :
    Machine.new program t [ended] going = .ok (machineOn t) :=
  rfl

theorem displaced_machineOn {d : Int} {t u : LoggedTape} (hblank : t.tape.blank = u.tape.blank)
    (hcursor : u.tape.cursor.index = t.tape.cursor.index + d)
    (hsymbol : ∀ i, u.tape.symbolAt (i + d) = t.tape.symbolAt i) :
    Displaced d (machineOn t) (machineOn u) :=
  ⟨rfl, rfl, rfl, rfl, rfl, hblank, hcursor, fun p => hsymbol p.index⟩

theorem freeFor_machineOn {t : LoggedTape} (h : t.tape.cursor.index.natAbs ≤ 10000) :
    (machineOn t).FreeFor (machineOn t).cap := by
  apply Machine.freeFor_of_natAbs
  change (t.tape.cursor.index.natAbs + 10000 : Int) ≤ greatestIndex
  unfold greatestIndex
  omega

end Stroke

theorem displaced_machines_in_lock_step_strokes :
    let m₁ := Stroke.machineOn Stroke.tape
    let m₂ := Stroke.machineOn Stroke.farTape
    let m₃ := { m₁ with tape := Stroke.blankedTape }
    Displaced 5 m₁ m₂ ∧ m₁.FreeFor m₁.cap ∧ m₂.FreeFor m₂.cap ∧
    m₁.run.1 = m₂.run.1 ∧ Displaced 5 m₁.run.2 m₂.run.2 ∧
    m₁.Reachable ∧ m₃.Reachable ∧ m₁.tape.tape.equals m₃.tape.tape false false = false ∧
    m₁.tape.tape.equals m₃.tape.tape true false = true ∧ Displaced 0 m₁ m₃ := by
  intro m₁ m₂ m₃
  have hdisplaced : Displaced 5 m₁ m₂ :=
    Stroke.displaced_machineOn (by decide) (by decide) Stroke.symbolAt_farTape
  have hfree₁ : m₁.FreeFor m₁.cap := Stroke.freeFor_machineOn (by decide)
  have hfree₂ : m₂.FreeFor m₂.cap := Stroke.freeFor_machineOn (by decide)
  have hm₁ : m₁.Reachable := .new Stroke.reachable_tape (Stroke.new_eq_machineOn _)
  have hm₃ : m₃.Reachable := hm₁.replaceTape (Stroke.reachable_tape.performAll _)
  have hwritten : Stroke.tape.tape.equals Stroke.blankedTape.tape false false = false := by decide
  have hequal : Stroke.tape.tape.equals Stroke.blankedTape.tape true false = true := by decide
  obtain ⟨hstep, hsame⟩ := displaced_machines_in_lock_step
  obtain ⟨hhalt, _, _, hlast⟩ := (hstep 5 m₁ m₂ hdisplaced).2 hfree₁ hfree₂
  exact ⟨hdisplaced, hfree₁, hfree₂, hhalt, hlast, hm₁, hm₃, hwritten, hequal,
    hsame m₁ m₃ hm₁ hm₃ rfl rfl rfl rfl rfl hequal⟩

end TapeMachine
