import TapeMachine.Proofs.Analysis
import TapeMachine.Proofs.TransitionTable

/-!
What the analysis of a program finds. States can also be searched one at a time, with a list
of those that are still to be visited. Main statement: that search ends, with the states that
rows lead to, and the analysis reports the first flaw there is with exactly the states that
have it.
-/
namespace TapeMachine

open Std

/-- A search under way: the states it has visited, and those it has yet to go to, which may have
been visited meanwhile. -/
structure Search where
  visited : SortedSet State
  pending : List State

namespace Search

def begin (start : State) : Search := ⟨.empty, [start]⟩

/-- The states to which rows lead from `q`, unless they have been visited. -/
def next (p : Program) (visited : SortedSet State) (q : State) : List State :=
  (p.rows.filter fun r => r.state = q && !visited.contains r.instruction.next).map
    fun r => r.instruction.next

/-- Goes to the first of the pending states, and puts those to which rows lead from there before
the others. -/
def step (p : Program) : Search → Search
  | ⟨visited, []⟩ => ⟨visited, []⟩
  | ⟨visited, q :: pending⟩ =>
    if visited.contains q then ⟨visited, pending⟩
    else ⟨visited.insert q, (next p (visited.insert q) q).reverse ++ pending⟩

def run (p : Program) : Nat → Search → Search
  | 0, s => s
  | n + 1, s => run p n (s.step p)

/-- How many steps can be left: one for each pending state, and one for each row that has not been
followed. -/
def work (p : Program) (s : Search) : Nat :=
  s.pending.length + p.rows.countP fun r => !s.visited.contains r.state

variable {p : Program} {start q : State} {s : Search} {visited : SortedSet State}

theorem step_of_visited (p : Program) (h : visited.contains q = true) (pending : List State) :
    step p ⟨visited, q :: pending⟩ = ⟨visited, pending⟩ :=
  if_pos h

theorem step_of_new (p : Program) (h : visited.contains q = false) (pending : List State) :
    step p ⟨visited, q :: pending⟩ =
      ⟨visited.insert q, (next p (visited.insert q) q).reverse ++ pending⟩ :=
  if_neg (by simp [h])

theorem step_of_nil (h : s.pending = []) : s.step p = s := by
  obtain ⟨visited, pending⟩ := s
  cases h
  rfl

theorem mem_next {q' : State} : q' ∈ next p visited q ↔
    ∃ r ∈ p.rows, r.state = q ∧ visited.contains r.instruction.next = false ∧
      r.instruction.next = q' := by
  simp [next, and_assoc]

/-- Members with one of two properties that exclude each other are counted once. -/
theorem countP_add_le {α : Type} {a b c : α → Bool} (ha : ∀ x, a x = true → c x = true)
    (hb : ∀ x, b x = true → c x = true) (hab : ∀ x, a x = true → b x = false) (xs : List α) :
    xs.countP a + xs.countP b ≤ xs.countP c := by
  induction xs with
  | nil => exact Nat.le_refl _
  | cons x xs ih =>
    have hx : ((if a x then 1 else 0) + if b x then 1 else 0) ≤ if c x then 1 else 0 := by
      cases hax : a x with
      | true => simp [hab x hax, ha x hax]
      | false =>
        cases hbx : b x with
        | true => simp [hb x hbx]
        | false => simp
    simp only [List.countP_cons]
    omega

/-- The rows that are followed from a state will not be followed again. -/
theorem length_next_add (p : Program) (hq : visited.contains q = false) :
    (next p (visited.insert q) q).length +
        p.rows.countP (fun r => !(visited.insert q).contains r.state) ≤
      p.rows.countP fun r => !visited.contains r.state := by
  rw [next, List.length_map, ← List.countP_eq_length_filter]
  have hinsert (r : Row) := SortedBy.contains_insert visited q r.state
  refine countP_add_le (fun r hr => ?_) (fun r hr => ?_) (fun r hr => ?_) p.rows
  · have hstate : r.state = q := by simp_all
    rw [hstate, hq]
    rfl
  · have hnot := hinsert r
    simp_all
  · have hstate : r.state = q := by simp_all
    simp [hstate, (SortedBy.contains_insert visited q q).mpr (.inl rfl)]

theorem work_step (p : Program) (h : s.pending ≠ []) : (s.step p).work p < s.work p := by
  obtain ⟨visited, pending⟩ := s
  cases pending with
  | nil => exact absurd rfl h
  | cons q pending =>
    cases hq : visited.contains q with
    | true => simp [step_of_visited p hq, work]
    | false =>
      have hnext := length_next_add p hq
      rw [step_of_new p hq]
      simp only [work, List.length_append, List.length_reverse, List.length_cons]
      omega

theorem run_of_nil (n : Nat) (h : s.pending = []) : run p n s = s := by
  induction n with
  | zero => rfl
  | succ n ih => rw [run, step_of_nil h, ih]

/-- The search ends: there is less work left after each step. -/
theorem pending_run (n : Nat) (h : s.work p ≤ n) : (run p n s).pending = [] := by
  induction n generalizing s with
  | zero =>
    have hlength : s.pending.length = 0 := by
      unfold work at h
      omega
    exact List.eq_nil_of_length_eq_zero hlength
  | succ n ih =>
    by_cases hs : s.pending = []
    · rw [run_of_nil (n + 1) hs]
      exact hs
    · have hwork := work_step p hs
      exact ih (by omega)

/-- The search has come across a state. -/
def Found (s : Search) (q : State) : Prop := s.visited.contains q = true ∨ q ∈ s.pending

/-- Only states to which rows lead have been found, the first one has been, and so have those to
which rows lead from visited states. -/
structure Sound (p : Program) (start : State) (s : Search) : Prop where
  leads : ∀ q, s.Found q → p.Leads start q
  start : s.Found start
  followed : ∀ r ∈ p.rows, s.visited.contains r.state = true → s.Found r.instruction.next

theorem sound_begin (p : Program) (start : State) : (begin start).Sound p start where
  leads q hq := by
    have hstart : q = start := by simpa [Found, begin, SortedBy.contains, SortedBy.find?,
      SortedBy.empty] using hq
    rw [hstart]
    exact .start
  start := .inr List.mem_cons_self
  followed r _ hr := by cases hr

/-- What has been found stays so: a state is no longer pending when it has been visited. -/
theorem Found.step (h : s.Found q) : (s.step p).Found q := by
  obtain ⟨visited, _ | ⟨q', pending⟩⟩ := s
  · exact h
  · cases hq' : visited.contains q' with
    | true =>
      rw [step_of_visited p hq']
      rcases h with h | h
      · exact .inl h
      · rcases List.mem_cons.mp h with rfl | h
        · exact .inl hq'
        · exact .inr h
    | false =>
      rw [step_of_new p hq']
      rcases h with h | h
      · exact .inl ((SortedBy.contains_insert _ _ _).mpr (.inr h))
      · rcases List.mem_cons.mp h with rfl | h
        · exact .inl ((SortedBy.contains_insert _ _ _).mpr (.inl rfl))
        · exact .inr (List.mem_append_right _ h)

theorem Sound.step (h : s.Sound p start) : (s.step p).Sound p start := by
  obtain ⟨visited, _ | ⟨q', pending⟩⟩ := s
  · exact h
  · cases hq' : visited.contains q' with
    | true =>
      refine ⟨fun q hq => ?_, h.start.step, fun r hr hstate => ?_⟩
      · rw [step_of_visited p hq'] at hq
        exact h.leads q (hq.imp_right (List.mem_cons_of_mem q'))
      · rw [step_of_visited p hq'] at hstate
        exact (h.followed r hr hstate).step
    | false =>
      have hleads : p.Leads start q' := h.leads q' (.inr List.mem_cons_self)
      refine ⟨fun q hq => ?_, h.start.step, fun r hr hstate => ?_⟩
      · rw [step_of_new p hq'] at hq
        rcases hq with hq | hq
        · rcases (SortedBy.contains_insert _ _ _).mp hq with rfl | hq
          · exact hleads
          · exact h.leads q (.inl hq)
        · rcases List.mem_append.mp hq with hq | hq
          · obtain ⟨r, hr, rfl, _, rfl⟩ := mem_next.mp (List.mem_reverse.mp hq)
            exact .row hr hleads
          · exact h.leads q (.inr (List.mem_cons_of_mem q' hq))
      · rw [step_of_new p hq'] at hstate
        rcases (SortedBy.contains_insert _ _ _).mp hstate with hstate | hstate
        · -- the rows of the new state are followed now, unless they lead to visited states
          rw [step_of_new p hq']
          cases hnext : (visited.insert q').contains r.instruction.next with
          | true => exact .inl hnext
          | false =>
            refine .inr (List.mem_append_left _ (List.mem_reverse.mpr (mem_next.mpr ?_)))
            exact ⟨r, hr, hstate.symm, hnext, rfl⟩
        · exact (h.followed r hr hstate).step

theorem Sound.run (h : s.Sound p start) (n : Nat) : (run p n s).Sound p start := by
  induction n generalizing s with
  | zero => exact h
  | succ n ih => exact ih h.step

/-- When nothing is pending, the states to which rows lead have been visited. -/
theorem Sound.visited_eq (h : s.Sound p start) (hend : s.pending = []) :
    s.visited = p.reachable start := by
  have hfound (q : State) : s.Found q ↔ s.visited.contains q = true := by simp [Found, hend]
  refine SortedBy.ext_mem fun q => ?_
  rw [← SortedBy.contains_iff_mem, ← SortedBy.contains_iff_mem, Program.contains_reachable_iff]
  constructor
  · exact fun hq => h.leads q (.inl hq)
  · intro hq
    induction hq with
    | start => exact (hfound _).mp h.start
    | row hr _ ih => exact (hfound _).mp (h.followed _ hr ih)

/-- One step for each row and one more are enough. -/
theorem run_begin (p : Program) (start : State) :
    run p (p.size + 1) (begin start) = ⟨p.reachable start, []⟩ := by
  have hwork : (begin start).work p ≤ p.size + 1 := by
    have hcount : p.rows.countP (fun r => !(begin start).visited.contains r.state) ≤ p.size :=
      List.countP_le_length
    unfold work
    simp only [begin, List.length_singleton] at *
    omega
  have hend := pending_run (p.size + 1) hwork
  have hvisited := ((sound_begin p start).run (p.size + 1)).visited_eq hend
  rw [← hvisited, ← hend]

end Search

namespace Program

/-- A state with a row. -/
def HasRow (p : Program) (q : State) : Prop := ∃ r ∈ p.rows, r.state = q

/-- A machine can do something in its first state, or need not do anything. -/
def Startable (p : Program) (start : State) (finals : SortedSet State) : Prop :=
  p.HasRow start ∨ start ∈ finals.toList

/-- The states that are listed are those with a property, by increasing names. -/
structure Lists (states : SortedSet State) (P : State → Prop) : Prop where
  members : ∀ q, q ∈ states.toList ↔ P q
  increasing : (states.toList.map State.name).Pairwise (· < ·)

variable {p : Program} {start : State} {finals states : SortedSet State} {P : State → Prop}

theorem lists_of_members (h : ∀ q, q ∈ states.toList ↔ P q) : Lists states P where
  members := h
  increasing := List.pairwise_map.mpr (states.increasing.imp State.compare_eq_lt.mp)

/-- There is one way to list the states with a property. -/
theorem Lists.unique {states' : SortedSet State} (h : Lists states P) (h' : Lists states' P) :
    states = states' :=
  SortedBy.ext_mem fun q => (h.members q).trans (h'.members q).symm

theorem Lists.nonempty_iff (h : Lists states P) : (!states.isEmpty) = true ↔ ∃ q, P q := by
  rw [SortedBy.isEmpty, Bool.not_eq_true', List.isEmpty_eq_false_iff_exists_mem]
  exact exists_congr h.members

/-- What is left of a list without the states that the search has found. -/
theorem lists_lost (p : Program) (start : State) (states : SortedSet State) :
    Lists (states.filter fun q => !(p.reachable start).contains q)
      fun q => q ∈ states.toList ∧ ¬p.Leads start q := by
  refine lists_of_members fun q => ?_
  rw [SortedBy.filter, List.mem_filter, ← contains_reachable_iff]
  simp

theorem not_startable_iff (p : Program) (start : State) (finals : SortedSet State) :
    (!p.states.contains start && !finals.contains start) = true ↔ ¬p.Startable start finals := by
  rw [Startable, HasRow, ← mem_states, ← SortedBy.contains_iff_mem, ← SortedBy.contains_iff_mem]
  simp

/-- What is to be said of a program: the first of its flaws, with all the states that have it. -/
inductive Finds (p : Program) (start : State) (finals : SortedSet State) :
    Except Finding Unit → Prop where
  | deadStart : ¬p.Startable start finals → Finds p start finals (.error (.deadStart start))
  | lostFinals {lost : SortedSet State} : p.Startable start finals →
      (∃ q ∈ finals.toList, ¬p.Leads start q) →
      Lists lost (fun q => q ∈ finals.toList ∧ ¬p.Leads start q) →
      Finds p start finals (.error (.finalsNeverEntered lost))
  | lostStates {lost : SortedSet State} : p.Startable start finals →
      (∀ q ∈ finals.toList, p.Leads start q) → (∃ q, p.HasRow q ∧ ¬p.Leads start q) →
      Lists lost (fun q => p.HasRow q ∧ ¬p.Leads start q) →
      Finds p start finals (.error (.unreachable lost))
  | nothing : p.Startable start finals → (∀ q ∈ finals.toList, p.Leads start q) →
      (∀ q, p.HasRow q → p.Leads start q) → Finds p start finals (.ok ())

theorem Finds.eq_analyze {result : Except Finding Unit} (h : p.Finds start finals result) :
    p.analyze start finals = result := by
  have hdead := p.not_startable_iff start finals
  have hfinals := p.lists_lost start finals
  have hstates := p.lists_lost start p.states
  simp only [mem_states] at hstates
  unfold analyze
  cases h with
  | deadStart hstart => rw [if_pos (hdead.mpr hstart)]
  | lostFinals hstart hlost hlists =>
    rw [if_neg (mt hdead.mp (not_not_intro hstart)), if_pos (hfinals.nonempty_iff.mpr hlost),
      hlists.unique hfinals]
  | lostStates hstart hleads hlost hlists =>
    have hnone : ¬∃ q, q ∈ finals.toList ∧ ¬p.Leads start q := fun ⟨q, hq, h⟩ => h (hleads q hq)
    rw [if_neg (mt hdead.mp (not_not_intro hstart)), if_neg (mt hfinals.nonempty_iff.mp hnone),
      if_pos (hstates.nonempty_iff.mpr hlost), hlists.unique hstates]
  | nothing hstart hleads hrows =>
    have hnone : ¬∃ q, q ∈ finals.toList ∧ ¬p.Leads start q := fun ⟨q, hq, h⟩ => h (hleads q hq)
    have hnone' : ¬∃ q, p.HasRow q ∧ ¬p.Leads start q := fun ⟨q, hq, h⟩ => h (hrows q hq)
    rw [if_neg (mt hdead.mp (not_not_intro hstart)), if_neg (mt hfinals.nonempty_iff.mp hnone),
      if_neg (mt hstates.nonempty_iff.mp hnone')]

theorem exists_finds (p : Program) (start : State) (finals : SortedSet State) :
    ∃ result, p.Finds start finals result := by
  have hlists := p.lists_lost start p.states
  simp only [mem_states] at hlists
  by_cases hstart : p.Startable start finals
  · by_cases hlost : ∃ q ∈ finals.toList, ¬p.Leads start q
    · exact ⟨_, .lostFinals hstart hlost (p.lists_lost start finals)⟩
    · have hleads : ∀ q ∈ finals.toList, p.Leads start q := fun q hq =>
        Classical.byContradiction fun h => hlost ⟨q, hq, h⟩
      by_cases hlost' : ∃ q, p.HasRow q ∧ ¬p.Leads start q
      · exact ⟨_, .lostStates hstart hleads hlost' hlists⟩
      · refine ⟨_, .nothing hstart hleads fun q hq => ?_⟩
        exact Classical.byContradiction fun h => hlost' ⟨q, hq, h⟩
  · exact ⟨_, .deadStart hstart⟩

theorem analyze_eq_iff {result : Except Finding Unit} :
    p.analyze start finals = result ↔ p.Finds start finals result := by
  refine ⟨fun h => ?_, Finds.eq_analyze⟩
  obtain ⟨found, hfound⟩ := p.exists_finds start finals
  rw [← h, hfound.eq_analyze]
  exact hfound

end Program

/-- The search for states finds exactly those to which rows lead from the first state, by zero or
more of them; going through them one by one it ends, with the same states, after no more steps than
there are rows and one. The analysis passes exactly if there is a row for the first state or it is
final, all final states are among those found, and so are all states with a row. Otherwise it
reports the first of these that fails, and lists all final states, or all states with a row, that
have not been found, by increasing names. -/
theorem analysis_is_exact (p : Program) (start : State) (finals : SortedSet State) :
    (∀ q, q ∈ (p.reachable start).toList ↔ p.Leads start q) ∧
    Search.run p (p.size + 1) (.begin start) = ⟨p.reachable start, []⟩ ∧
    (p.analyze start finals = .ok () ↔
      p.Startable start finals ∧ (∀ q ∈ finals.toList, p.Leads start q) ∧
        ∀ q, p.HasRow q → p.Leads start q) ∧
    ∀ result, p.analyze start finals = result ↔ p.Finds start finals result := by
  refine ⟨fun q => ?_, Search.run_begin p start, ?_, fun result => Program.analyze_eq_iff⟩
  · rw [← SortedBy.contains_iff_mem, Program.contains_reachable_iff]
  · rw [Program.analyze_eq_iff]
    constructor
    · intro h
      cases h with
      | nothing hstart hleads hrows => exact ⟨hstart, hleads, hrows⟩
    · rintro ⟨hstart, hleads, hrows⟩
      exact .nothing hstart hleads hrows

end TapeMachine
