import TapeMachine.Proofs.Command
import TapeMachine.Proofs.Sets

/-!
What is said of a program before it runs holds of all its runs. The search for states
follows every row from every state it has seen, and as many rounds as there are rows
leave nothing to find. Main statement: a machine is only ever in states that the search
has found, so a final state that is reported as lost is never entered and a row that is
reported as out of reach is never followed.
-/
namespace TapeMachine

open Std

namespace Program

variable {p : Program} {start q : State} {seen : SortedSet State}

/-- The states to which rows lead from `start`, one after the other. -/
inductive Leads (p : Program) (start : State) : State → Prop where
  | start : Leads p start start
  | row {r : Row} : r ∈ p.rows → Leads p start r.state → Leads p start r.instruction.next

/-- No row leads out of the set. -/
def Closed (p : Program) (seen : SortedSet State) : Prop :=
  ∀ r ∈ p.rows, seen.contains r.state = true → seen.contains r.instruction.next = true

/-- One round of the search. -/
def grow (p : Program) (seen : SortedSet State) : SortedSet State :=
  (p.successors seen).foldl .insert seen

theorem spread_succ (n : Nat) : p.spread (n + 1) seen = p.spread n (p.grow seen) := rfl

/-- A round adds the states to which rows lead, and nothing else. -/
theorem contains_grow (p : Program) (seen : SortedSet State) (q : State) :
    (p.grow seen).contains q = true ↔
      (∃ r ∈ p.rows, seen.contains r.state = true ∧ r.instruction.next = q) ∨
        seen.contains q = true := by
  rw [grow, SortedBy.contains_foldl_insert]
  simp [successors, and_assoc]

theorem contains_grow_of_contains (h : seen.contains q = true) : (p.grow seen).contains q = true :=
  (p.contains_grow seen q).mpr (.inr h)

theorem contains_spread_of_contains (n : Nat) (h : seen.contains q = true) :
    (p.spread n seen).contains q = true := by
  induction n generalizing seen with
  | zero => exact h
  | succ n ih => exact ih (contains_grow_of_contains h)

/-- The search finds no state to which no rows lead. -/
theorem leads_of_contains_spread (n : Nat) (hseen : ∀ q, seen.contains q = true → p.Leads start q)
    (h : (p.spread n seen).contains q = true) : p.Leads start q := by
  induction n generalizing seen with
  | zero => exact hseen q h
  | succ n ih =>
    refine ih (fun q hq => ?_) h
    rcases (p.contains_grow seen q).mp hq with ⟨r, hr, hstate, rfl⟩ | hq
    · exact .row hr (hseen r.state hstate)
    · exact hseen q hq

theorem Closed.grow (h : p.Closed seen) : p.Closed (p.grow seen) := by
  have hsame (q : State) (hq : (p.grow seen).contains q = true) : seen.contains q = true := by
    rcases (p.contains_grow seen q).mp hq with ⟨r, hr, hstate, rfl⟩ | hq
    · exact h r hr hstate
    · exact hq
  intro r hr hstate
  exact contains_grow_of_contains (h r hr (hsame r.state hstate))

theorem Closed.spread (h : p.Closed seen) (n : Nat) : p.Closed (p.spread n seen) := by
  induction n generalizing seen with
  | zero => exact h
  | succ n ih => exact ih h.grow

/-- A round that finds nothing new is the last one needed. -/
theorem closed_or_grows (p : Program) (seen : SortedSet State) :
    p.Closed seen ∨ seen.size < (p.grow seen).size := by
  by_cases h : p.Closed seen
  · exact .inl h
  · right
    simp only [Closed, Classical.not_forall, Bool.not_eq_true] at h
    obtain ⟨r, hr, hstate, hnext⟩ := h
    exact SortedBy.size_lt_size (fun _ => contains_grow_of_contains) hnext
      ((p.contains_grow seen _).mpr (.inl ⟨r, hr, hstate, rfl⟩))

/-- All that can ever be found. -/
def entries (p : Program) (start : State) : List State :=
  start :: p.rows.map fun r => r.instruction.next

theorem grow_subset_entries (h : ∀ q, seen.contains q = true → q ∈ p.entries start) :
    ∀ q, (p.grow seen).contains q = true → q ∈ p.entries start := by
  intro q hq
  rcases (p.contains_grow seen q).mp hq with ⟨r, hr, _, rfl⟩ | hq
  · exact List.mem_cons_of_mem _ (List.mem_map.mpr ⟨r, hr, rfl⟩)
  · exact h q hq

/-- With a round for every state that has not been found yet, the search is complete. -/
theorem closed_spread (n : Nat) (h : ∀ q, seen.contains q = true → q ∈ p.entries start)
    (hn : (p.entries start).length ≤ seen.size + n) : p.Closed (p.spread n seen) := by
  induction n generalizing seen with
  | zero =>
    -- all entries are found, there is none left by which another round could grow
    have hgrow := (p.grow seen).size_le_length (grow_subset_entries h)
    exact (p.closed_or_grows seen).resolve_right (by omega)
  | succ n ih =>
    rcases p.closed_or_grows seen with hclosed | hlarger
    · exact hclosed.spread (n + 1)
    · rw [spread_succ]
      exact ih (grow_subset_entries h) (by omega)

theorem closed_reachable (p : Program) (start : State) : p.Closed (p.reachable start) := by
  have hfirst (q : State) (hq : (SortedBy.ofList [start] : SortedSet State).contains q = true) :
      q ∈ p.entries start := by
    rw [List.mem_singleton.mp ((SortedBy.contains_ofList [start] q).mp hq)]
    exact List.mem_cons_self
  have hlength : (p.entries start).length = 1 + p.size := by
    simp [entries, size, rows, SortedBy.size, Nat.add_comm]
  exact closed_spread p.size hfirst (Nat.le_of_eq hlength)

theorem contains_reachable_start (p : Program) (start : State) :
    (p.reachable start).contains start = true :=
  contains_spread_of_contains _ ((SortedBy.contains_ofList [start] start).mpr List.mem_cons_self)

/-- The search finds exactly the states to which rows lead. -/
theorem contains_reachable_iff (p : Program) (start q : State) :
    (p.reachable start).contains q = true ↔ p.Leads start q := by
  constructor
  · refine leads_of_contains_spread p.size fun q hq => ?_
    rw [List.mem_singleton.mp ((SortedBy.contains_ofList [start] q).mp hq)]
    exact .start
  · intro h
    induction h with
    | start => exact p.contains_reachable_start start
    | row hr _ ih => exact p.closed_reachable start _ hr ih

/-- An instruction comes from a row for the state and the symbol. -/
theorem exists_row_of_get? {s : Symbol} {i : Instruction} (h : p.get? s q = some i) :
    ∃ r ∈ p.rows, r.state = q ∧ r.read = s ∧ r.instruction = i := by
  obtain ⟨r, hr, rfl⟩ := Option.map_eq_some_iff.mp h
  have hkey : r.key = (q, s) := LawfulEqOrd.eq_of_compare (by simpa using List.find?_some hr)
  exact ⟨r, List.mem_of_find?_eq_some hr, congrArg Prod.fst hkey, congrArg Prod.snd hkey, rfl⟩

/-- The flaw that is found says which states are out of reach. -/
theorem analyze_eq_error {finals : SortedSet State} {f : Finding}
    (h : p.analyze start finals = .error f) :
    f = .deadStart start ∨
    f = .finalsNeverEntered (finals.filter fun q => !(p.reachable start).contains q) ∨
    f = .unreachable (p.states.filter fun q => !(p.reachable start).contains q) := by
  unfold analyze at h
  dsimp only at h
  split at h
  · cases h
    exact .inl rfl
  · split at h
    · cases h
      exact .inr (.inl rfl)
    · split at h
      · cases h
        exact .inr (.inr rfl)
      · cases h

end Program

/-- A machine that has never left the states that its program can enter from its start. -/
structure Confined (p : Program) (start : State) (m : Machine) : Prop where
  program : m.program = p
  initialState : m.initialState = start
  states : ∀ q ∈ m.state :: m.past, (p.reachable start).contains q = true

namespace Confined

variable {p : Program} {start : State} {m m' : Machine}

theorem start_of_new {tape : LoggedTape} {finals : List State}
    (h : Machine.new p tape finals start = .ok m) : Confined p start m := by
  obtain ⟨set, _, h⟩ := bind_eq_ok.mp h
  cases h
  refine ⟨rfl, rfl, fun q hq => ?_⟩
  rw [List.mem_singleton.mp hq]
  exact p.contains_reachable_start start

/-- The next state of an instruction is found because its row is followed. -/
theorem follow (h : Confined p start m) {i : Instruction} (hi : m.instruction? = some i) :
    Confined p start (m.follow i) where
  program := h.program
  initialState := h.initialState
  states := by
    intro q hq
    rcases List.mem_cons.mp hq with rfl | hq
    -- the row is one of the program's own, and the set is closed under these
    · rw [Machine.instruction?, h.program] at hi
      obtain ⟨r, hr, hstate, _, rfl⟩ := Program.exists_row_of_get? hi
      refine p.closed_reachable start r hr ?_
      rw [hstate]
      exact h.states m.state List.mem_cons_self
    · exact h.states q hq

theorem backOne (h : Confined p start m) {result : Transition}
    (hm : m.backOne = .ok (result, m')) : Confined p start m' := by
  obtain ⟨q, past, hpast, rfl⟩ := Machine.eq_reverted_of_backOne hm
  refine ⟨h.program, h.initialState, fun q' hq' => h.states q' ?_⟩
  rw [hpast]
  exact List.mem_cons_of_mem _ hq'

theorem reset (h : Confined p start m) (hm : m.reset = .ok m') : Confined p start m' := by
  obtain ⟨tape, _, hm⟩ := bind_eq_ok.mp hm
  cases hm
  refine ⟨h.program, h.initialState, fun q hq => ?_⟩
  rw [List.mem_singleton.mp hq]
  change (p.reachable start).contains m.initialState = true
  rw [h.initialState]
  exact p.contains_reachable_start start

/-- Every command keeps a machine within the states that have been found. -/
theorem obey (h : Confined p start m) (c : Command) : Confined p start (m.obey c).2 := by
  refine Machine.obey_preserves (fun _ _ _ hi h => h.follow hi) (fun _ _ _ hone h => h.backOne hone)
    (fun _ _ hm h => h.reset hm) ?_ c h
  intro m limit h
  exact ⟨h.program, h.initialState, h.states⟩

theorem after (h : Confined p start m) (commands : List Command) :
    Confined p start (m.after commands) := by
  induction commands generalizing m with
  | nil => exact h
  | cons c commands ih => exact ih (h.obey c)

/-- Transitions start from states that have been found. -/
theorem oldState_advance (h : Confined p start m) (n : Nat) :
    ∀ r ∈ (m.advance n).1, (p.reachable start).contains r.oldState = true := by
  induction n generalizing m with
  | zero =>
    intro r hr
    cases hr
  | succ n ih =>
    cases hfin : m.finished with
    | true =>
      intro r hr
      rw [Machine.advance_of_finished (n + 1) hfin] at hr
      cases hr
    | false =>
      obtain ⟨hf, i, hi⟩ := Machine.instruction_of_not_finished hfin
      intro r hr
      rw [Machine.advance_succ n hf hi] at hr
      rcases List.mem_cons.mp hr with rfl | hr
      · exact h.states m.state List.mem_cons_self
      · exact ih (h.follow hi) r hr

end Confined

/-- Whatever commands a new machine has been given, on whatever tape: the search has found every
state of its history. So it is in no final state that is reported as never entered, and no
transition forward starts from a state that is reported as out of reach. -/
theorem analysis_holds_of_runs (program : Program) (tape : LoggedTape) (finals : List State)
    (initial : State) {m₀ : Machine} (h : Machine.new program tape finals initial = .ok m₀)
    (commands : List Command) :
    let m := m₀.after commands
    (∀ q ∈ m.stateHistory, q ∈ (program.reachable initial).toList) ∧
    (∀ lost, program.analyze initial (.ofList finals) = .error (.finalsNeverEntered lost) →
      m.state ∉ lost.toList) ∧
    ∀ lost, program.analyze initial (.ofList finals) = .error (.unreachable lost) →
      ∀ n results, (m.forth n).1 = some results → ∀ r ∈ results, r.oldState ∉ lost.toList := by
  intro m
  have hm : Confined program initial m := (Confined.start_of_new h).after commands
  have hlost {states : SortedSet State} {q : State}
      (hq : q ∈ (states.filter fun q => !(program.reachable initial).contains q).toList) :
      (program.reachable initial).contains q = false := by
    simpa using (List.mem_filter.mp hq).2
  refine ⟨fun q hq => ?_, fun lost hfound hq => ?_, fun lost hfound n results hr r hmem hq => ?_⟩
  · rw [← SortedBy.contains_iff_mem]
    exact hm.states q (List.mem_reverse.mp hq)
  · rcases Program.analyze_eq_error hfound with he | he | he <;> cases he
    have hstate := hm.states m.state List.mem_cons_self
    rw [hlost hq] at hstate
    cases hstate
  · rcases Program.analyze_eq_error hfound with he | he | he <;> cases he
    have hresults : (m.advance n).1 = results := by
      unfold Machine.forth at hr
      split at hr
      · cases hr
      · exact Option.some.inj hr
    rw [← hresults] at hmem
    have hold := hm.oldState_advance n r hmem
    rw [hlost hq] at hold
    cases hold

namespace Stroke

def stray : State := ⟨"stray", by decide, by decide⟩

/-- The program with a row for a state to which nothing leads. -/
def strayProgram : Program := program.insert ⟨.ofText "1", stray, .ofText "x", .left, ended⟩

end Stroke

theorem analysis_holds_of_runs_stray :
    (∃ m₀ lost,
      Machine.new Stroke.strayProgram Stroke.tape [Stroke.ended, Stroke.stray] Stroke.going =
        .ok m₀ ∧
      Stroke.strayProgram.analyze Stroke.going (.ofList [Stroke.ended, Stroke.stray]) =
        .error (.finalsNeverEntered lost) ∧
      Stroke.stray ∈ lost.toList ∧ (m₀.after Stroke.commands).state ∉ lost.toList) ∧
    ∃ m₀ lost results,
      Machine.new Stroke.strayProgram Stroke.tape [Stroke.ended] Stroke.going = .ok m₀ ∧
      Stroke.strayProgram.analyze Stroke.going (.ofList [Stroke.ended]) =
        .error (.unreachable lost) ∧
      Stroke.stray ∈ lost.toList ∧
      ((m₀.after [.forth 2, .back 1]).forth 3).1 = some results ∧
      ∀ r ∈ results, r.oldState ∉ lost.toList := by
  constructor
  · have hlost := (analysis_holds_of_runs Stroke.strayProgram Stroke.tape
      [Stroke.ended, Stroke.stray] Stroke.going rfl Stroke.commands).2.1 _ rfl
    exact ⟨_, _, rfl, rfl, by decide, hlost⟩
  · have hold := (analysis_holds_of_runs Stroke.strayProgram Stroke.tape [Stroke.ended]
      Stroke.going rfl [.forth 2, .back 1]).2.2 _ rfl 3 _ rfl
    exact ⟨_, _, _, rfl, rfl, by decide, rfl, hold⟩

end TapeMachine
