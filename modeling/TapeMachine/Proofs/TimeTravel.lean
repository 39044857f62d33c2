import TapeMachine.Proofs.Alignment
import TapeMachine.Proofs.Sets
import TapeMachine.Proofs.Textbook

/-!
Time travel agrees with the textbook. As long as the head keeps away from the last
positions, the scenes of a trail are the configurations of a computation that only goes
forward. Main statement: wherever commands have taken a machine, it stands exactly where
the computation stands after as many steps as the machine has counted.
-/
namespace TapeMachine

/-- A scene as the textbook sees it. -/
def Scene.config (s : Scene) : Config := ⟨s.state, s.view.cursor.index, s.view.cells⟩

def Machine.config (m : Machine) : Config := m.scene.config

/-- Away from the last positions a move is exact. -/
theorem Scene.config_follow (i : Instruction) {s : Scene}
    (h : (s.view.cursor.index.natAbs : Int) < greatestIndex) :
    (s.follow i).config = Textbook.follow i s.config := by
  apply Config.ext
  · rfl
  · have hd := i.motion.natAbs_delta
    change clamp (s.view.cursor.index + i.motion.delta) = s.view.cursor.index + i.motion.delta
    apply clamp_of_mem <;> unfold leastIndex greatestIndex at * <;> omega
  · rfl

/-- The scene at the end of a trail is where the computation from `c₀` stands after as many steps,
and it has come through the same states. -/
structure Follows (T : Textbook) (c₀ : Config) (s : Scene) (trail : List Scene) : Prop where
  blank : s.view.blank = T.blank
  near : s.view.cursor.index.natAbs ≤ c₀.cursor.natAbs + trail.length
  run : T.run trail.length c₀ = some s.config
  trace : (T.trace trail.length c₀).map Config.state = ((s :: trail).map Scene.state).reverse

/-- One more transition is one more step. -/
theorem Follows.step {T : Textbook} {c₀ : Config} {s : Scene} {trail : List Scene}
    (h : Follows T c₀ s trail) {i : Instruction} (hf : s.state ∉ T.finals)
    (hi : T.program.get? s.view.read s.state = some i)
    (hbound : (c₀.cursor.natAbs + trail.length : Int) < greatestIndex) :
    Follows T c₀ (s.follow i) (s :: trail) := by
  have hnear := h.near
  have hconfig : (s.follow i).config = Textbook.follow i s.config :=
    Scene.config_follow i (by omega)
  have hstep : T.step s.config = some (s.follow i).config := by
    have hread : ((s.config.cells s.config.cursor).getD T.blank) = s.view.read := by
      rw [← h.blank]
      rfl
    have hfinal : s.config.state ∉ T.finals := hf
    have hinstruction : T.program.get? s.view.read s.config.state = some i := hi
    rw [Textbook.step, if_neg hfinal, hread, hinstruction, hconfig]
    rfl
  constructor
  · exact h.blank
  · have hd := i.motion.natAbs_delta
    have hcursor : (s.follow i).view.cursor.index = s.view.cursor.index + i.motion.delta :=
      congrArg Config.cursor hconfig
    rw [hcursor, List.length_cons]
    omega
  · rw [List.length_cons, Textbook.run_succ_last, h.run]
    exact hstep
  · rw [List.length_cons, Textbook.trace_succ_last h.run hstep, List.map_append, h.trace]
    change _ = ((s.follow i).state :: (s :: trail).map Scene.state).reverse
    rw [List.reverse_cons]
    rfl

theorem Trail.follows {m : Machine} {finals : List State} (hfinals : m.finals = .ofList finals)
    {trail : List Scene} (h : Trail m trail) :
    ∀ s rest, trail = s :: rest →
      (m.config.cursor.natAbs + rest.length : Int) < greatestIndex →
      Follows ⟨m.program, finals, m.tape.tape.blank⟩ m.config s rest := by
  induction h with
  | start =>
    intro s rest he _
    cases he
    exact ⟨rfl, Nat.le_refl _, rfl, rfl⟩
  | @step s trail i _ hf hi ih =>
    intro s' rest he hbound
    cases he
    have hlast := ih s trail rfl (by rw [List.length_cons] at hbound; omega)
    have hmem : s.state ∉ finals := by
      rw [hfinals] at hf
      intro hmem
      rw [(SortedBy.contains_ofList finals s.state).mpr hmem] at hf
      cases hf
    exact hlast.step hmem hi (by rw [List.length_cons] at hbound; omega)

/-- No machine counts more steps than have been executed. -/
theorem Machine.step_after_le (commands : List Command) (m : Machine) :
    (m.after commands).step ≤ m.step + m.executed commands := by
  induction commands generalizing m with
  | nil => exact Nat.le_refl _
  | cons c commands ih =>
    have hrest := ih (m.obey c).2
    change ((m.obey c).2.after commands).step ≤
      m.step + (((m.obey c).2.step - m.step) + (m.obey c).2.executed commands)
    omega

/-- Whatever commands a new machine has been given, it stands where the textbook's machine stands
after as many steps as it counts, which does stand there, and has entered the same states. -/
theorem after_agrees_with_textbook (program : Program) (tape : LoggedTape) (finals : List State)
    (initial : State) (ht : tape.Reachable) (hf : finals ≠ []) :
    ∃ m₀, Machine.new program tape finals initial = .ok m₀ ∧
    ∀ commands : List Command,
      (tape.tape.cursor.index.natAbs + m₀.executed commands : Int) < greatestIndex →
      let T : Textbook := ⟨program, finals, tape.tape.blank⟩
      let start : Config := ⟨initial, tape.tape.cursor.index, tape.tape.cell⟩
      let m := m₀.after commands
      (∀ n, T.HaltsAfter n start → m.step ≤ n) ∧
      T.run m.step start = some ⟨m.state, m.tape.tape.cursor.index, m.tape.tape.cell⟩ ∧
      m.stateHistory = (T.trace m.step start).map Config.state := by
  obtain ⟨m₀, hnew, hfresh, rfl, hfinals, rfl, rfl⟩ := Machine.exists_new program initial ht hf
  refine ⟨m₀, hnew, fun commands hbound => ?_⟩
  obtain ⟨trail, h⟩ := (Aligned.start hfresh).after hfresh commands
  have hle := m₀.step_after_le commands
  have hstep := h.step
  have hfollows := h.came.follows hfinals _ _ rfl (by
    change (m₀.tape.tape.cursor.index.natAbs + trail.length : Int) < greatestIndex
    rw [hfresh.step] at hle
    omega)
  intro T start m
  have hrun : T.run m.step start = some m.config := by
    rw [hstep]
    exact hfollows.run
  refine ⟨fun n hn => Textbook.le_of_haltsAfter hrun hn, hrun, ?_⟩
  have hpast : (m.scene :: trail).map Scene.state = m.state :: m.past := by
    rw [List.map_cons, ← h.past]
    rfl
  rw [Machine.stateHistory, ← hpast, hstep]
  exact hfollows.trace.symm

theorem after_agrees_with_textbook_strokes :
    Stroke.tape.Reachable ∧ [Stroke.ended] ≠ [] ∧
    ∃ m₀, Machine.new Stroke.program Stroke.tape [Stroke.ended] Stroke.going = .ok m₀ ∧
      (Stroke.tape.tape.cursor.index.natAbs + m₀.executed Stroke.commands : Int) < greatestIndex ∧
      Textbook.run ⟨Stroke.program, [Stroke.ended], Stroke.tape.tape.blank⟩ 4
        ⟨Stroke.going, Stroke.tape.tape.cursor.index, Stroke.tape.tape.cell⟩ =
          some (m₀.after Stroke.commands).config := by
  obtain ⟨m₀, hnew, h⟩ := after_agrees_with_textbook Stroke.program Stroke.tape [Stroke.ended]
    Stroke.going Stroke.reachable_tape (List.cons_ne_nil _ _)
  cases hnew
  have hbound := h Stroke.commands (by decide)
  exact ⟨Stroke.reachable_tape, List.cons_ne_nil _ _, _, rfl, by decide, hbound.2.1⟩

end TapeMachine
