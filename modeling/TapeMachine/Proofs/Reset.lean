import TapeMachine.Proofs.Alike
import TapeMachine.Proofs.Alignment

/-!
Starting again. A machine keeps the document of the tape it was given last and reads it when
it is reset. Main statement: whatever a machine has done and whatever has been done to its
tape, resetting succeeds and gives it the document it would have if it had just been made
with the tape it was given last.
-/
namespace TapeMachine

/-- What can be done with a machine as it was made: commands, edits of its tape, and giving it
another tape. -/
inductive Action where
  | obey (c : Command)
  | edit (e : Edit)
  | setTape (t : { t : LoggedTape // t.Reachable })

namespace Action

/-- The tape that was given last, `t` being the one before all actions. -/
def latestTape (t : LoggedTape) : List Action → LoggedTape
  | [] => t
  | .obey _ :: actions => latestTape t actions
  | .edit _ :: actions => latestTape t actions
  | .setTape t' :: actions => latestTape t' actions

theorem reachable_latestTape {t : LoggedTape} (h : t.Reachable) (actions : List Action) :
    (latestTape t actions).Reachable := by
  induction actions generalizing t with
  | nil => exact h
  | cons a actions ih =>
    cases a with
    | obey c => exact ih h
    | edit e => exact ih h
    | setTape t' => exact ih t'.property

/-- Without another tape it stays the first. -/
theorem latestTape_eq {t : LoggedTape} {actions : List Action}
    (h : ∀ t', Action.setTape t' ∉ actions) : latestTape t actions = t := by
  induction actions with
  | nil => rfl
  | cons a actions ih =>
    have hrest := ih fun t' hmem => h t' (List.mem_cons_of_mem a hmem)
    cases a with
    | obey c => exact hrest
    | edit e => exact hrest
    | setTape t' => exact absurd List.mem_cons_self (h t')

end Action

namespace Machine

def act (m : Machine) : Action → Machine
  | .obey c => (m.obey c).2
  | .edit e => { m with tape := e.perform m.tape }
  | .setTape t => m.setTape t

/-- The machine after actions, one by one. -/
def actAll (actions : List Action) (m : Machine) : Machine := actions.foldl act m

/-- The machine at its start on the tape `t`. -/
def rewound (t : LoggedTape) (m : Machine) : Machine :=
  { m with tape := t, initialTape := t.toJson, state := m.initialState, past := [], step := 0 }

/-- Making a machine with another tape gives the same machine at its start on that tape. -/
theorem new_eq_rewound {program : Program} {tape : LoggedTape} {finals : List State}
    {initial : State} {m : Machine} (h : Machine.new program tape finals initial = .ok m)
    (t : LoggedTape) : Machine.new program t finals initial = .ok (m.rewound t) := by
  obtain ⟨set, hset, h⟩ := bind_eq_ok.mp h
  cases h
  simp only [Machine.new, hset, bind, Except.bind]
  rfl

/-- The document of the first tape is left alone, and so is all that a start depends on. -/
structure Rooted (start : LoggedTape → Machine) (t : LoggedTape) (m : Machine) : Prop where
  rewound : ∀ u, m.rewound u = start u
  initialTape : m.initialTape = t.toJson

namespace Rooted

variable {start : LoggedTape → Machine} {t : LoggedTape} {m : Machine}

/-- No command changes more than the tape, the states and the counter. -/
theorem obey (h : Rooted start t m) (c : Command) : Rooted start t (m.obey c).2 := by
  -- no field that `rewound` keeps is touched, so both facts carry over as they are
  refine obey_preserves (P := Rooted start t) ?_ ?_ ?_ ?_ c h
  · intro m i _ _ h
    exact ⟨h.rewound, h.initialTape⟩
  · intro m result before hone h
    obtain ⟨q, past, _, rfl⟩ := eq_reverted_of_backOne hone
    exact ⟨h.rewound, h.initialTape⟩
  · intro m m' hreset h
    obtain ⟨tape, _, hm'⟩ := bind_eq_ok.mp hreset
    cases hm'
    exact ⟨h.rewound, h.initialTape⟩
  · intro m limit h
    exact ⟨h.rewound, h.initialTape⟩

theorem actAll (h : Rooted start t m) (actions : List Action) :
    Rooted start (Action.latestTape t actions) (m.actAll actions) := by
  induction actions generalizing t m with
  | nil => exact h
  | cons a actions ih =>
    cases a with
    | obey c => exact ih (h.obey c)
    | edit e => exact ih ⟨h.rewound, h.initialTape⟩
    | setTape t' => exact ih ⟨h.rewound, rfl⟩

/-- Resetting leads to the start, where only the storage of the tape can differ. -/
theorem reset (h : Rooted start t m) (ht : t.Storable) :
    ∃ m', m.reset = .ok m' ∧ m'.Alike (start t) := by
  have hload : m.tape.load m.initialTape = .ok ⟨t.tape.restored, t.journal⟩ := by
    rw [h.initialTape]
    exact LoggedTape.load_toJson ht m.tape
  simp only [Machine.reset, hload, bind, Except.bind]
  refine ⟨_, rfl, ?_⟩
  rw [← h.rewound t]
  exact ⟨rfl, ⟨t.tape.view_restored, rfl⟩, rfl, rfl, h.initialTape, rfl, rfl, rfl, rfl⟩

end Rooted

end Machine

/-- A new machine can be reset after any actions. It then has the document of a machine made with
the tape that was given last, which is its own first document if no other tape was given; cells,
head and blank of the tape, its frames and its limit are those of that tape. -/
theorem reset_forgets_all (program : Program) (tape : LoggedTape) (finals : List State)
    (initial : State) (ht : tape.Reachable) (hf : finals ≠ []) :
    ∃ m₀, Machine.new program tape finals initial = .ok m₀ ∧
    ∀ actions : List Action,
      let t := Action.latestTape tape actions
      ∃ m₁ m', Machine.new program t finals initial = .ok m₁ ∧
        (m₀.actAll actions).reset = .ok m' ∧ m'.toJson = m₁.toJson ∧
        m'.tape.tape.view = t.tape.view ∧ m'.tape.journal = t.journal ∧
        ((∀ t', Action.setTape t' ∉ actions) → m'.toJson = m₀.toJson) := by
  obtain ⟨m₀, hnew, _⟩ := Machine.exists_new program initial ht hf
  have hfirst : m₀.rewound tape = m₀ :=
    Except.ok.inj ((Machine.new_eq_rewound hnew tape).symm.trans hnew)
  have hrooted : Machine.Rooted m₀.rewound tape m₀ :=
    ⟨fun _ => rfl, congrArg Machine.initialTape hfirst.symm⟩
  refine ⟨m₀, hnew, fun actions => ?_⟩
  intro t
  have hstorable : t.Storable := (Action.reachable_latestTape ht actions).storable
  obtain ⟨m', hreset, halike⟩ := (hrooted.actAll actions).reset hstorable
  refine ⟨m₀.rewound t, m', Machine.new_eq_rewound hnew t, hreset, halike.toJson,
    halike.tape.view, halike.tape.journal, fun hsame => ?_⟩
  rw [halike.toJson, Action.latestTape_eq hsame, hfirst]

/-- Two transitions, then another blank and another limit, frames that the machine did not leave,
and a run on what is left. -/
def Stroke.turmoil : List Action :=
  [.obey (.forth 2), .edit .undo,
    .edit (.head (.load (.object [("blank_symbol", .string "1"), ("cursor", .int (-2)),
      ("data", .array [.null, .string "x"]), ("history_size", .int 2)]))),
    .edit .snapshot, .edit (.head (.fill [.ofText "1"])), .obey (.back 3),
    .obey (.forth 3), .edit (.head (.right 7))]

/-- A tape with another blank and a limit. -/
def Stroke.spareTape : { t : LoggedTape // t.Reachable } :=
  ⟨.recording (.empty (.ofText "_")) (bound (some ⟨0, Nat.zero_le _⟩)), .recording _ (.empty _)⟩

theorem reset_forgets_all_turmoil :
    Stroke.tape.Reachable ∧ [Stroke.ended] ≠ [] ∧
    ∃ m₀, Machine.new Stroke.program Stroke.tape [Stroke.ended] Stroke.going = .ok m₀ ∧
      (m₀.actAll Stroke.turmoil).tape.tape.blank ≠ m₀.tape.tape.blank ∧
      (m₀.actAll Stroke.turmoil).tape.journal ≠ m₀.tape.journal ∧
      (∃ m', (m₀.actAll Stroke.turmoil).reset = .ok m' ∧ m'.toJson = m₀.toJson) ∧
      ∃ m₁ m', Machine.new Stroke.program Stroke.spareTape [Stroke.ended] Stroke.going = .ok m₁ ∧
        (m₀.actAll (.setTape Stroke.spareTape :: Stroke.turmoil)).reset = .ok m' ∧
        m'.toJson = m₁.toJson := by
  obtain ⟨m₀, hnew, h⟩ := reset_forgets_all Stroke.program Stroke.tape [Stroke.ended]
    Stroke.going Stroke.reachable_tape (List.cons_ne_nil _ _)
  obtain ⟨_, m', _, hreset, _, _, _, hsame⟩ := h Stroke.turmoil
  obtain ⟨m₁, n', hspare, hreset', hjson, _⟩ := h (.setTape Stroke.spareTape :: Stroke.turmoil)
  have hkept : ∀ t', Action.setTape t' ∉ Stroke.turmoil := by
    intro t' hmem
    simp [Stroke.turmoil] at hmem
  refine ⟨Stroke.reachable_tape, List.cons_ne_nil _ _, m₀, hnew, ?_, ?_, ⟨m', hreset, hsame hkept⟩,
    m₁, n', hspare, hreset', hjson⟩
  · cases hnew
    decide
  · cases hnew
    decide

end TapeMachine
