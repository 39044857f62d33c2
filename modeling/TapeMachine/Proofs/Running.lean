import TapeMachine.CommandLine
import TapeMachine.Proofs.Room

/-!
Ways of running. A machine can be asked for many transitions at once, for as many in two
requests, for a run, or for single steps until its counter reaches a bound. Main
statement: as long as there is room for the results of the one request, all of these go
through the same transitions and end with the same machine, or stop for want of a cell.
-/
namespace TapeMachine

namespace Machine

/-- What one request does, two requests for as many transitions do. -/
theorem advance_add (a b : Nat) (m : Machine) :
    m.advance (a + b) =
      ((m.advance a).1 ++ ((m.advance a).2.advance b).1, ((m.advance a).2.advance b).2) := by
  induction a generalizing m with
  | zero =>
    rw [Nat.zero_add]
    rfl
  | succ a ih =>
    cases hfin : m.finished with
    | true => simp only [advance_of_finished _ hfin, List.nil_append]
    | false =>
      obtain ⟨hf, i, hi⟩ := instruction_of_not_finished hfin
      rw [Nat.succ_add, advance_succ (a + b) hf hi, advance_succ a hf hi, ih]
      rfl

/-- Asking a machine for more than it can do changes nothing. -/
theorem advance_of_le {n k : Nat} {m : Machine} (h : (m.advance n).2.finished = true)
    (hle : n ≤ k) : m.advance k = m.advance n := by
  obtain ⟨more, rfl⟩ := Nat.exists_eq_add_of_le hle
  rw [advance_add, advance_of_finished more h, List.append_nil]

theorem step_advance (n : Nat) (m : Machine) :
    (m.advance n).2.step = m.step + (m.advance n).1.length := by
  induction n generalizing m with
  | zero => rfl
  | succ n ih =>
    cases hfin : m.finished with
    | true =>
      rw [advance_of_finished (n + 1) hfin]
      rfl
    | false =>
      obtain ⟨hf, i, hi⟩ := instruction_of_not_finished hfin
      rw [advance_succ n hf hi, ih, List.length_cons]
      change m.step + 1 + _ = _
      omega

/-- A machine that could go on has done all that it was asked for. -/
theorem length_advance {n : Nat} {m : Machine} (h : (m.advance n).2.finished = false) :
    (m.advance n).1.length = n := by
  induction n generalizing m with
  | zero => rfl
  | succ n ih =>
    cases hfin : m.finished with
    | true =>
      rw [advance_of_finished (n + 1) hfin, hfin] at h
      cases h
    | false =>
      obtain ⟨hf, i, hi⟩ := instruction_of_not_finished hfin
      rw [advance_succ n hf hi] at h ⊢
      rw [List.length_cons, ih h]

theorem length_advance_le (n : Nat) (m : Machine) : (m.advance n).1.length ≤ n := by
  induction n generalizing m with
  | zero => exact Nat.le_refl 0
  | succ n ih =>
    cases hfin : m.finished with
    | true =>
      rw [advance_of_finished (n + 1) hfin]
      exact Nat.zero_le _
    | false =>
      obtain ⟨hf, i, hi⟩ := instruction_of_not_finished hfin
      rw [advance_succ n hf hi]
      exact Nat.succ_le_succ (ih (m.follow i))

/-- Only runs look at the cap. -/
theorem advance_cap (cap n : Nat) (m : Machine) :
    { m with cap }.advance n = ((m.advance n).1, { (m.advance n).2 with cap }) := by
  induction n generalizing m with
  | zero => rfl
  | succ n ih =>
    cases hfin : m.finished with
    | true =>
      have hfin' : { m with cap }.finished = true := hfin
      rw [advance_of_finished (n + 1) hfin, advance_of_finished (n + 1) hfin']
    | false =>
      obtain ⟨hf, i, hi⟩ := instruction_of_not_finished hfin
      have hf' : { m with cap }.atFinal = false := hf
      have hi' : { m with cap }.instruction? = some i := hi
      have hrest : ({ m with cap }.follow i).advance n = _ := ih (m.follow i)
      rw [advance_succ n hf hi, advance_succ n hf' hi', hrest]
      rfl

/-- The results of a request, of which there are none if the machine had finished. -/
theorem getD_forth (n : Nat) (m : Machine) : (m.forth n).1.getD [] = (m.advance n).1 := by
  cases hfin : m.finished with
  | true => rw [forth_of_finished n hfin, advance_of_finished n hfin, Option.getD_none]
  | false => rw [forth_of_not_finished n hfin, Option.getD_some]

theorem halt_eq_finalState {m : Machine} : m.halt = .finalState ↔ m.atFinal = true := by
  unfold halt
  cases m.atFinal <;> cases m.atUndefined <;> decide

theorem halt_eq_undefinedInstruction {m : Machine} :
    m.halt = .undefinedInstruction ↔ m.atFinal = false ∧ m.instruction? = none := by
  rw [← Option.isNone_iff_eq_none]
  change _ ↔ _ ∧ m.atUndefined = true
  unfold halt
  cases m.atFinal <;> cases m.atUndefined <;> decide

theorem halt_eq_iterationLimit {m : Machine} : m.halt = .iterationLimit ↔ m.finished = false := by
  unfold halt finished
  cases m.atFinal <;> cases m.atUndefined <;> decide

theorem run_fst (m : Machine) : m.run.1 = m.run.2.halt := rfl

/-- The transition that an event tells of. -/
def Event.result? : Event → Option Transition
  | .moved result => some result
  | .hadFinished _ _ => none

/-- The transitions that a machine goes through in a run. -/
def transitions (m : Machine) : List Transition :=
  (m.settleEvents m.cap).filterMap Event.result?

/-- The transitions of single steps are those of one request. -/
theorem filterMap_settleEvents (n : Nat) (m : Machine) :
    (m.settleEvents n).filterMap Event.result? = (m.advance n).1 := by
  induction n generalizing m with
  | zero => rfl
  | succ n ih =>
    cases hfin : m.finished with
    | true =>
      rw [advance_of_finished (n + 1) hfin]
      simp only [settleEvents, forthEvents, forth_of_finished 1 hfin]
      rfl
    | false =>
      obtain ⟨hf, i, hi⟩ := instruction_of_not_finished hfin
      rw [advance_succ n hf hi, ← ih]
      simp only [settleEvents, forthEvents, forth_one hf hi]
      rfl

theorem transitions_eq (m : Machine) : m.transitions = (m.advance m.cap).1 :=
  filterMap_settleEvents m.cap m

/-- A run that is not cut off goes through the same transitions under a higher cap. -/
theorem advance_higher_cap {m : Machine} (h : m.run.1 ≠ .iterationLimit) {cap : Nat}
    (hcap : m.cap ≤ cap) :
    { m with cap }.advance cap = ((m.advance m.cap).1, { (m.advance m.cap).2 with cap }) := by
  have hfin : (m.advance m.cap).2.finished = true := by
    rw [run_fst, ne_eq, halt_eq_iterationLimit, run_snd] at h
    simpa using h
  rw [advance_cap, advance_of_le hfin hcap]

end Machine

/-- Stepping while the counter is below `limit` does the transitions that are missing there, as far
as so many steps are allowed. -/
theorem CommandLine.walk_eq_advance (limit fuel : Nat) (m : Machine) :
    (walk limit fuel m).2.2 = (m.advance (min fuel (limit - m.step))).2 := by
  induction fuel generalizing m with
  | zero =>
    rw [Nat.zero_min]
    rfl
  | succ fuel ih =>
    by_cases hstep : m.step < limit
    · simp only [walk, if_pos hstep]
      cases hfin : m.finished with
      | true => rw [Machine.forth_of_finished 1 hfin, Machine.advance_of_finished _ hfin]
      | false =>
        obtain ⟨hf, i, hi⟩ := Machine.instruction_of_not_finished hfin
        have hmissing : min (fuel + 1) (limit - m.step) =
            min fuel (limit - (m.follow i).step) + 1 := by
          change _ = min fuel (limit - (m.step + 1)) + 1
          omega
        rw [Machine.forth_one hf hi, hmissing, Machine.advance_succ _ hf hi]
        exact ih (m.follow i)
    · have hnone : limit - m.step = 0 := by omega
      simp only [walk, if_neg hstep, hnone, Nat.min_zero]
      rfl

/-- The steps of `walk` in a room, without what is shown of them. -/
def CommandLine.walkIn (room : Room) (limit : Nat) : Nat → Machine → Except Shortage Machine
  | 0, m => .ok m
  | fuel + 1, m =>
    if m.step < limit then do
      match ← m.forthIn room 1 with
      | (none, last) => return last
      | (some _, next) => walkIn room limit fuel next
    else .ok m

theorem CommandLine.walkIn_eq (room : Room) (limit fuel : Nat) (m : Machine) :
    walkIn room limit fuel m =
      room.grant m (walk limit fuel m).2.2 (walk limit fuel m).2.2 := by
  induction fuel generalizing m with
  | zero => exact (room.grant_self m m).symm
  | succ fuel ih =>
    by_cases hstep : m.step < limit
    · have hlast : (walk limit (fuel + 1) m).2.2 =
          match m.forth 1 with
          | (none, last) => last
          | (some _, next) => (walk limit fuel next).2.2 := by
        simp only [walk, if_pos hstep]
        rcases m.forth 1 with ⟨_ | _, _⟩ <;> rfl
      rw [walkIn, if_pos hstep, hlast]
      refine Machine.forthIn_one_bind room ih fun m' => ?_
      rw [walk_eq_advance]
      exact Machine.stored_le_advance _ m'
    · simp only [walkIn, walk, if_neg hstep, Room.grant_self]

/-- A request for which there is room for the results, of which there are none if the machine had
finished before. -/
theorem Machine.forthIn_getD (room : Room) {m : Machine} {n : Nat}
    (h : m.finished = true ∨ n ≤ room.results) :
    (do let (results, last) ← m.forthIn room n
        return (results.getD [], last)) =
      room.grant m (m.forth n).2 ((m.forth n).1.getD [], (m.forth n).2) := by
  rw [forthIn_of_room room h]
  exact Room.grant_bind rfl

/-- In a room, two requests do what one request for as many transitions does. -/
theorem Machine.forthIn_add (room : Room) {m : Machine} {a b : Nat}
    (h : m.finished = true ∨ a + b ≤ room.results) :
    (do let (first, mid) ← m.forthIn room a
        let (second, last) ← mid.forthIn room b
        return (first.getD [] ++ second.getD [], last)) =
      (do let (both, last) ← m.forthIn room (a + b)
          return (both.getD [], last)) := by
  have hfirst : m.finished = true ∨ a ≤ room.results := h.imp_right (by omega)
  have hsecond : (m.forth a).2.finished = true ∨ b ≤ room.results := by
    rcases h with hfin | hroom
    · rw [forth_of_finished a hfin]
      exact .inl hfin
    · exact .inr (by omega)
  have hlast : ((m.forth a).2.forth b).2 = (m.forth (a + b)).2 := by
    rw [forth_snd, forth_snd, forth_snd, advance_add]
  have hresults : (m.forth a).1.getD [] ++ ((m.forth a).2.forth b).1.getD [] =
      (m.forth (a + b)).1.getD [] := by
    rw [getD_forth, getD_forth, getD_forth, forth_snd, advance_add]
  rw [forthIn_getD room h, forthIn_of_room room hfirst, ← hlast, ← hresults]
  refine Room.grant_trans (stored_le_forth a m) (stored_le_forth b _) ?_
  change ((m.forth a).2.forthIn room b >>= _) = _
  rw [forthIn_of_room room hsecond]
  exact Room.grant_bind rfl

/-- In a room, a run does what one request up to the cap does. -/
theorem Machine.runIn_eq_forthIn (room : Room) {m : Machine}
    (h : m.finished = true ∨ m.cap ≤ room.results) :
    (do let (_, last) ← m.runIn room
        return (m.transitions, last)) =
      (do let (results, last) ← m.forthIn room m.cap
          return (results.getD [], last)) := by
  have hlast : m.run.2 = (m.forth m.cap).2 := by rw [run_snd, forth_snd]
  have hresults : m.transitions = (m.forth m.cap).1.getD [] := by rw [transitions_eq, getD_forth]
  rw [runIn_eq, forthIn_getD room h, ← hlast, ← hresults]
  exact Room.grant_bind rfl

/-- Of every machine in a room. A request is answered exactly if there is room for its results, or
the machine had finished, and for its cells; a run exactly if there is room for its cells. If there
is room for the results of one request, then two requests for as many transitions do what it does,
and so does a run if it is a request up to the cap, or both ways stop. A run that is answered tells
whether the machine is in a final state, has no instruction or could go on, in which case it has
done as many transitions as the cap allows. If it does not end at the cap, any higher cap leads to
the same end through the same transitions. And stepping while the counter is below the cap, from
zero on, ends with the same machine as a run. -/
theorem ways_of_running_agree (room : Room) (m : Machine) :
    (∀ n, (∃ answer, m.forthIn room n = .ok answer) ↔
      (m.finished = true ∨ n ≤ room.results) ∧ ¬m.Outgrows room (m.forth n).2) ∧
    ((∃ answer, m.runIn room = .ok answer) ↔ ¬m.Outgrows room m.run.2) ∧
    (∀ a b, m.finished = true ∨ a + b ≤ room.results →
      (do let (first, mid) ← m.forthIn room a
          let (second, last) ← mid.forthIn room b
          return (first.getD [] ++ second.getD [], last)) =
        (do let (both, last) ← m.forthIn room (a + b)
            return (both.getD [], last))) ∧
    (m.finished = true ∨ m.cap ≤ room.results →
      (do let (_, last) ← m.runIn room
          return (m.transitions, last)) =
        (do let (results, last) ← m.forthIn room m.cap
            return (results.getD [], last))) ∧
    (∀ halt last, m.runIn room = .ok (halt, last) →
      (halt = .finalState ↔ last.atFinal = true) ∧
      (halt = .undefinedInstruction ↔ last.atFinal = false ∧ last.instruction? = none) ∧
      (halt = .iterationLimit ↔ last.finished = false) ∧
      (halt = .iterationLimit →
        m.transitions.length = m.cap ∧ last.step = m.step + m.cap) ∧
      (halt ≠ .iterationLimit → ∀ cap, m.cap ≤ cap →
        let m' := { m with cap }
        m'.runIn room = .ok (halt, { last with cap }) ∧ m'.transitions = m.transitions)) ∧
    (m.step = 0 → ∀ fuel, m.cap ≤ fuel →
      (CommandLine.walk m.cap fuel m).2.2 = m.run.2 ∧
      CommandLine.walkIn room m.cap fuel m =
        (do let (_, last) ← m.runIn room
            return last)) := by
  refine ⟨fun n => Machine.exists_forthIn_iff room n m, ?_, fun a b => Machine.forthIn_add room,
    Machine.runIn_eq_forthIn room, fun halt last hrun => ?_, fun hstep fuel hfuel => ?_⟩
  · simp [Machine.runIn_eq, Room.grant_eq_ok]
  · have hanswer := hrun
    rw [Machine.runIn_eq, Room.grant_eq_ok] at hanswer
    obtain ⟨hroom, hanswer⟩ := hanswer
    obtain rfl : last = m.run.2 := congrArg Prod.snd hanswer.symm
    obtain rfl : halt = m.run.2.halt := congrArg Prod.fst hanswer.symm
    refine ⟨Machine.halt_eq_finalState, Machine.halt_eq_undefinedInstruction,
      Machine.halt_eq_iterationLimit, fun hlimit => ?_, fun hhalt cap hcap => ?_⟩
    · rw [Machine.halt_eq_iterationLimit, Machine.run_snd] at hlimit
      have hlength := Machine.length_advance hlimit
      rw [Machine.transitions_eq, Machine.run_snd, Machine.step_advance, hlength]
      exact ⟨rfl, rfl⟩
    · have hsame := Machine.advance_higher_cap hhalt hcap
      intro m'
      have hlast : m'.run.2 = { m.run.2 with cap } := by
        rw [Machine.run_snd, Machine.run_snd, hsame]
      refine ⟨?_, by rw [Machine.transitions_eq, Machine.transitions_eq, hsame]⟩
      rw [Machine.runIn_eq, Room.grant_of_not_outgrows (by rw [hlast]; exact hroom)]
      refine congrArg Except.ok (Prod.ext ?_ hlast)
      rw [Machine.run_fst, hlast]
      rfl
  · have hwalk : (CommandLine.walk m.cap fuel m).2.2 = m.run.2 := by
      rw [CommandLine.walk_eq_advance, hstep, Nat.sub_zero, Nat.min_eq_right hfuel,
        Machine.run_snd]
    refine ⟨hwalk, ?_⟩
    rw [CommandLine.walkIn_eq, hwalk, Machine.runIn_eq]
    refine Eq.symm (Room.grant_bind ?_)
    rfl

/-- Three strokes take four transitions: with a cap of three the run is cut off, with a cap of four
it ends just in time, and so do four transitions in two requests. -/
theorem ways_of_running_agree_strokes :
    ∃ m₀, Machine.new Stroke.program Stroke.tape [Stroke.ended] Stroke.going = .ok m₀ ∧
      let short := { m₀ with cap := 3 }
      let enough := { m₀ with cap := 4 }
      (∃ last, short.runIn .greatest = .ok (.iterationLimit, last) ∧ last.step = 0 + 3) ∧
      1 + 3 ≤ Room.greatest.results ∧ enough.step = 0 ∧
      ∃ last, enough.runIn .greatest = .ok (.finalState, last) ∧
        { enough with cap := 9 }.runIn .greatest = .ok (.finalState, { last with cap := 9 }) ∧
        CommandLine.walkIn .greatest 4 4 enough = .ok last ∧
        (do let (first, mid) ← enough.forthIn .greatest 1
            let (second, last) ← mid.forthIn .greatest 3
            return (first.getD [] ++ second.getD [], last)) = .ok (enough.transitions, last) := by
  obtain ⟨m₀, hnew⟩ : ∃ m₀,
      Machine.new Stroke.program Stroke.tape [Stroke.ended] Stroke.going = .ok m₀ := ⟨_, rfl⟩
  have hzero : m₀.step = 0 := by
    cases hnew
    rfl
  have hthree : { m₀ with cap := 3 }.run.1 = .iterationLimit := by
    cases hnew
    decide
  have hfour : { m₀ with cap := 4 }.run.1 = .finalState := by
    cases hnew
    decide
  obtain ⟨_, hanswer, _, _, hends, _⟩ := ways_of_running_agree .greatest { m₀ with cap := 3 }
  obtain ⟨⟨halt, last⟩, hshort⟩ := hanswer.mpr (by cases hnew; decide)
  obtain ⟨_, hanswer', hsplit, hrequest, hends', hwalk⟩ :=
    ways_of_running_agree .greatest { m₀ with cap := 4 }
  obtain ⟨⟨halt', last'⟩, henough⟩ := hanswer'.mpr (by cases hnew; decide)
  obtain rfl : halt = .iterationLimit :=
    (congrArg Prod.fst (Machine.eq_run_of_runIn hshort)).trans hthree
  obtain rfl : halt' = .finalState :=
    (congrArg Prod.fst (Machine.eq_run_of_runIn henough)).trans hfour
  have hroom : 4 ≤ Room.greatest.results := by decide
  have hnine : 4 ≤ 9 := by decide
  obtain ⟨_, _, _, hcut, _⟩ := hends _ _ hshort
  obtain ⟨_, _, _, _, hhigher⟩ := hends' _ _ henough
  have hsteps : last.step = m₀.step + 3 := (hcut rfl).2
  have hwalked := (hwalk hzero 4 (Nat.le_refl 4)).2
  have hparts := (hsplit 1 3 (.inr hroom)).trans (hrequest (.inr hroom)).symm
  rw [henough] at hwalked hparts
  exact ⟨m₀, hnew, ⟨last, hshort, hsteps.trans (congrArg (· + 3) hzero)⟩, hroom, hzero, last',
    henough, (hhigher (by decide) 9 hnine).1, hwalked, hparts⟩

/-- One request can stop where two requests, or a run up to the same cap, come to an end: no room
holds as many results as can be asked for, and after the fourth transition none is needed. -/
theorem request_can_stop_where_run_ends :
    ∃ m₀, Machine.new Stroke.program Stroke.tape [Stroke.ended] Stroke.going = .ok m₀ ∧
      (∀ room, m₀.forthIn room greatestCount = .error .results) ∧
      ∃ results last, m₀.forthIn .greatest 4 = .ok (results, last) ∧
        last.forthIn .greatest (greatestCount - 4) = .ok (none, last) ∧
        { m₀ with cap := greatestCount }.runIn .greatest =
          .ok (.finalState, { last with cap := greatestCount }) := by
  obtain ⟨m₀, hnew⟩ : ∃ m₀,
      Machine.new Stroke.program Stroke.tape [Stroke.ended] Stroke.going = .ok m₀ := ⟨_, rfl⟩
  have hfin : m₀.finished = false := by
    cases hnew
    decide
  have hend : (m₀.advance 4).2.finished = true := by
    cases hnew
    decide
  have hfits : ¬m₀.Outgrows .greatest (m₀.advance 4).2 := by
    cases hnew
    decide
  have hfour : m₀.forthIn .greatest 4 = .ok (some (m₀.advance 4).1, (m₀.advance 4).2) := by
    rw [Machine.forthIn_of_room _ (.inr (by decide)), Machine.forth_of_not_finished 4 hfin,
      Room.grant_of_not_outgrows hfits]
  have hcap : 4 ≤ greatestCount := by decide
  have hrun : { m₀ with cap := greatestCount }.run.2 =
      { (m₀.advance 4).2 with cap := greatestCount } := by
    rw [Machine.run_snd, Machine.advance_cap, Machine.advance_of_le hend hcap]
  have hhalt : (m₀.advance 4).2.atFinal = true := by
    cases hnew
    decide
  refine ⟨m₀, hnew, fun room => ?_, _, _, hfour, Machine.forthIn_of_finished _ _ hend, ?_⟩
  · exact Machine.forthIn_beyond_room room hfin room.results_lt_greatestCount
  · rw [Machine.runIn_eq, Room.grant_of_not_outgrows (by rw [hrun]; exact hfits)]
    refine congrArg Except.ok (Prod.ext ?_ hrun)
    rw [Machine.run_fst, hrun, Machine.halt_eq_finalState]
    exact hhalt

end TapeMachine
