import TapeMachine.Proofs.Retreat

/-!
What every machine keeps to, however it was made or read and whatever was done to it since.
Main statement: its counter counts the states after the first, it has a final state, and
the document of its first tape can be read by the tape it has now. So it can always be
reset, and going back never takes from a counter at zero.
-/
namespace TapeMachine

namespace Machine

theorem length_stateHistory (m : Machine) : m.stateHistory.length = m.past.length + 1 := by
  rw [stateHistory, List.length_reverse, List.length_cons]

theorem getLast?_stateHistory (m : Machine) : m.stateHistory.getLast? = some m.state := by
  rw [stateHistory, List.reverse_cons, List.getLast?_concat]

/-- A machine whose first tape can be read goes back to its start. -/
theorem reset_of_load {m : Machine} {tape : LoggedTape} (h : m.tape.load m.initialTape = .ok tape) :
    m.reset = .ok { m with tape, state := m.initialState, past := [], step := 0 } := by
  simp only [reset, h, bind, Except.bind]
  rfl

end Machine

/-- The counter goes down with every step back. -/
theorem Retreat.step_add_length {m last : Machine} {results : List Transition}
    (h : Retreat m results last) (hm : m.Reachable) : last.step + results.length = m.step := by
  rw [← (h.reachable hm).storable.past, ← hm.storable.past]
  exact h.length_past

/-- Of every reachable machine: there is one more state in its history than its counter says, and
the last of them is the current one; it has a final state; its tape can read the document of the
first tape, so it can be reset; and wherever it gets to by going back, the counter has gone down by
the number of steps and is not at zero as long as there is a state to go back to. -/
theorem reachable_machine_coherent {m : Machine} (h : m.Reachable) :
    m.stateHistory.length = m.step + 1 ∧
    m.stateHistory.getLast? = some m.state ∧
    m.finals.toList ≠ [] ∧
    (∃ tape, m.tape.load m.initialTape = .ok tape) ∧
    (∃ m', m.reset = .ok m' ∧ m'.stateHistory = [m.initialState] ∧ m'.step = 0) ∧
    ∀ results last, Retreat m results last →
      last.step + results.length = m.step ∧ (last.past ≠ [] → 0 < last.step) := by
  have hstorable := h.storable
  obtain ⟨tape, htape⟩ := hstorable.initialTape m.tape
  refine ⟨?_, m.getLast?_stateHistory, hstorable.finals, ⟨tape, htape⟩,
    ⟨_, Machine.reset_of_load htape, rfl, rfl⟩, fun results last hretreat => ⟨?_, fun hpast => ?_⟩⟩
  · rw [m.length_stateHistory, hstorable.past]
  · exact hretreat.step_add_length h
  · rw [← (hretreat.reachable h).storable.past]
    exact List.length_pos_iff.mpr hpast

theorem reachable_machine_coherent_meddled :
    ∃ m₀, Machine.new Stroke.program Stroke.tape [Stroke.ended] Stroke.going = .ok m₀ ∧
      let m := (Stroke.meddled m₀).setInitialState Stroke.ended
      m.Reachable ∧ m.step = 2 ∧ m.stateHistory.length = 2 + 1 ∧
      (∃ m', m.reset = .ok m' ∧ m'.stateHistory = [Stroke.ended] ∧ m'.step = 0) ∧
      ∃ result before, m.backOne = .ok (result, before) ∧ before.step + 1 = 2 := by
  obtain ⟨m₀, hnew⟩ : ∃ m₀,
      Machine.new Stroke.program Stroke.tape [Stroke.ended] Stroke.going = .ok m₀ := ⟨_, rfl⟩
  have hm := Machine.Reachable.setInitialState Stroke.ended
    (Stroke.reachable_meddled (.new Stroke.reachable_tape hnew))
  obtain ⟨hlength, _, _, _, hreset, hback⟩ := reachable_machine_coherent hm
  cases hnew
  exact ⟨_, rfl, hm, rfl, hlength, hreset, _, _, rfl, (hback _ _ (.step rfl (.stay _))).1⟩

end TapeMachine
