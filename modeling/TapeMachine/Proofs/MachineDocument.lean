import TapeMachine.Machine.Document
import TapeMachine.Proofs.Command
import TapeMachine.Proofs.Reachable
import TapeMachine.Proofs.Template

/-!
Documents of machines. The reachable machines are those that can be made or read and then
driven, edited and equipped anew. All of them can be written down, and the machine that
is read back has all their parts but for the storage of the tape and the cap on runs.
-/
namespace TapeMachine

namespace Machine

/-- The machines that can be made or read and then changed in any way. -/
inductive Reachable : Machine → Prop where
  | new {program : Program} {tape : LoggedTape} {finals : List State} {initial : State}
      {m : Machine} : tape.Reachable → Machine.new program tape finals initial = .ok m → Reachable m
  | ofJson {document : Json} {m : Machine} : Machine.ofJson document = .ok m → Reachable m
  | obey (c : Command) {m : Machine} : Reachable m → Reachable (m.obey c).2
  | editTape (e : Edit) {m : Machine} : Reachable m → Reachable { m with tape := e.perform m.tape }
  | replaceTape {tape : LoggedTape} {m : Machine} : tape.Reachable → Reachable m →
      Reachable { m with tape }
  | load {document : Json} {m m' : Machine} : Reachable m → m.load document = .ok m' → Reachable m'
  | setProgram (program : Program) {m : Machine} : Reachable m → Reachable { m with program }
  | setTape {tape : LoggedTape} {m : Machine} : tape.Reachable → Reachable m →
      Reachable (m.setTape tape)
  | setFinals {finals : List State} {m m' : Machine} : Reachable m → m.setFinals finals = .ok m' →
      Reachable m'
  | setInitialState (q : State) {m : Machine} : Reachable m → Reachable (m.setInitialState q)
  | setName (name : String) {m : Machine} : Reachable m → Reachable { m with name }
  | configure (settings : MachineSettings) {m : Machine} : Reachable m →
      Reachable (m.configure settings)

/-- Machines whose documents can be read back, if their steps can be counted. -/
structure Storable (m : Machine) : Prop where
  tape : m.tape.Storable
  finals : m.finals.toList ≠ []
  past : m.past.length = m.step
  initialTape : ∀ t : LoggedTape, ∃ u, t.load m.initialTape = .ok u

theorem Reachable.after {m : Machine} (h : m.Reachable) (commands : List Command) :
    (m.after commands).Reachable := by
  induction commands generalizing m with
  | nil => exact h
  | cons c commands ih => exact ih (.obey c h)

end Machine

namespace Machine

theorem finalSet_ne_nil {finals : List State} {set : SortedSet State}
    (h : finalSet finals = .ok set) : set.toList ≠ [] := by
  unfold finalSet at h
  split at h
  · cases h
  next hne =>
    cases h
    exact SortedBy.ofList_ne_nil (by simpa using hne)

theorem finalSet_toList {set : SortedSet State} (h : set.toList ≠ []) :
    finalSet set.toList = .ok set := by
  rw [finalSet, if_neg (by simpa using h), SortedBy.ofList_toList]

theorem storable_new {program : Program} {tape : LoggedTape} {finals : List State}
    {initial : State} {m : Machine} (ht : tape.Storable)
    (h : Machine.new program tape finals initial = .ok m) : m.Storable := by
  obtain ⟨set, hset, h⟩ := bind_eq_ok.mp h
  cases h
  exact ⟨ht, finalSet_ne_nil hset, rfl, fun t => ⟨_, LoggedTape.load_toJson ht t⟩⟩

theorem storable_default : (default : LoggedTape).Storable :=
  LoggedTape.storable_recording (Nat.zero_le _) none

end Machine

namespace MachineDocument

theorem decodeInitialTape_total {template tape : LoggedTape} {entry : Option Json} {v : Json}
    (ht : tape.Storable) (h : decodeInitialTape template tape entry = .ok v) (t : LoggedTape) :
    ∃ u, t.load v = .ok u := by
  cases entry with
  | none =>
    cases h
    exact ⟨_, LoggedTape.load_toJson ht t⟩
  | some w =>
    obtain ⟨_, hprobe, h⟩ := bind_eq_ok.mp h
    cases hload : template.load w with
    | error e =>
      rw [hload] at hprobe
      cases hprobe
    | ok u =>
      cases h
      exact (LoggedTape.load_matched v template t).ok_iff.mp ⟨u, hload⟩

theorem decodeStep_eq {entries step : Nat} {entry : Option Json}
    (h : decodeStep entries entry = .ok step) : step = entries - 1 := by
  unfold decodeStep at h
  split at h
  · cases h
    rfl
  · split at h
    · cases h
    · split at h
      next heq =>
        cases h
        exact heq
      next => cases h
  · cases h

/-- What has been read and checked when a document is accepted. -/
theorem checked_of_decode {template : LoggedTape} {document : Json} {d : MachineDocument}
    (h : decode template document = .ok d) :
    (∃ v, template.load v = .ok d.tape) ∧ (∃ names, Machine.finalSet names = .ok d.finals) ∧
      d.past.length = d.step ∧
      ∃ entry, decodeInitialTape template d.tape entry = .ok d.initialTape := by
  obtain ⟨historyEntry, _, h⟩ := bind_eq_ok.mp h
  obtain ⟨tapeEntry, _, h⟩ := bind_eq_ok.mp h
  obtain ⟨programEntry, _, h⟩ := bind_eq_ok.mp h
  obtain ⟨finalsEntry, _, h⟩ := bind_eq_ok.mp h
  obtain ⟨program, _, h⟩ := bind_eq_ok.mp h
  obtain ⟨tape, htape, h⟩ := bind_eq_ok.mp h
  obtain ⟨names, _, h⟩ := bind_eq_ok.mp h
  obtain ⟨finals, hfinals, h⟩ := bind_eq_ok.mp h
  obtain ⟨history, _, h⟩ := bind_eq_ok.mp h
  split at h
  next first rest state past hhistory hreverse =>
    obtain ⟨initialState, _, h⟩ := bind_eq_ok.mp h
    obtain ⟨initialTape, hinitial, h⟩ := bind_eq_ok.mp h
    obtain ⟨step, hstep, h⟩ := bind_eq_ok.mp h
    cases h
    have hlength := congrArg List.length hreverse
    refine ⟨⟨tapeEntry, htape⟩, ⟨names, hfinals⟩, ?_, ⟨_, hinitial⟩⟩
    change past.length = step
    rw [decodeStep_eq hstep]
    simp only [List.length_reverse, List.length_cons] at hlength ⊢
    omega
  next => cases h

theorem storable_of_decode {template : LoggedTape} {document : Json} {d : MachineDocument}
    (ht : template.Storable) (h : decode template document = .ok d) (name : String) (cap : Nat) :
    (Machine.ofDocument d name cap).Storable := by
  obtain ⟨⟨v, hv⟩, ⟨names, hnames⟩, hpast, ⟨entry, hentry⟩⟩ := checked_of_decode h
  have htape := ht.load hv
  exact ⟨htape, Machine.finalSet_ne_nil hnames, hpast, decodeInitialTape_total htape hentry⟩

end MachineDocument

namespace Machine.Storable

variable {m m' : Machine}

theorem follow (h : m.Storable) (i : Instruction) : (m.follow i).Storable where
  tape := LoggedTape.storableInvariant.moveBy i.motion
    (LoggedTape.storableInvariant.write i.write _ h.tape.snapshot)
  finals := h.finals
  past := congrArg (· + 1) h.past
  initialTape := h.initialTape

theorem backOne (h : m.Storable) {result : Transition}
    (hm : m.backOne = .ok (result, m')) : m'.Storable := by
  obtain ⟨q, past, hpast, rfl⟩ := eq_reverted_of_backOne hm
  have hlength := h.past
  rw [hpast, List.length_cons] at hlength
  constructor
  · exact h.tape.undone
  · exact h.finals
  · change past.length = m.step - 1
    omega
  · exact h.initialTape

theorem reset (h : m.Storable) (hm : m.reset = .ok m') : m'.Storable := by
  obtain ⟨tape, htape, hm⟩ := bind_eq_ok.mp hm
  cases hm
  exact ⟨h.tape.load htape, h.finals, rfl, h.initialTape⟩

theorem obey (h : m.Storable) (c : Command) : (m.obey c).2.Storable := by
  refine obey_preserves (fun _ i _ _ h => h.follow i) (fun _ _ _ hone h => h.backOne hone)
    (fun _ _ hm h => h.reset hm) ?_ c h
  intro m limit h
  exact ⟨h.tape.setLimit limit, h.finals, h.past, h.initialTape⟩

end Machine.Storable

/-- Every reachable machine can be written down and read back. -/
theorem Machine.Reachable.storable {m : Machine} (h : m.Reachable) : m.Storable := by
  induction h with
  | new ht hm => exact storable_new ht.storable hm
  | ofJson hm =>
    obtain ⟨d, hd, hm⟩ := bind_eq_ok.mp hm
    cases hm
    exact MachineDocument.storable_of_decode storable_default hd _ _
  | obey c _ ih => exact ih.obey c
  | editTape e _ ih => exact ⟨ih.tape.perform e, ih.finals, ih.past, ih.initialTape⟩
  | replaceTape ht _ ih => exact ⟨ht.storable, ih.finals, ih.past, ih.initialTape⟩
  | load _ hm ih =>
    obtain ⟨d, hd, hm⟩ := bind_eq_ok.mp hm
    cases hm
    exact MachineDocument.storable_of_decode ih.tape hd _ _
  | setProgram program _ ih => exact ⟨ih.tape, ih.finals, ih.past, ih.initialTape⟩
  | setTape ht _ ih =>
    exact ⟨ht.storable, ih.finals, ih.past, fun t => ⟨_, LoggedTape.load_toJson ht.storable t⟩⟩
  | setFinals _ hm ih =>
    obtain ⟨set, hset, hm⟩ := bind_eq_ok.mp hm
    cases hm
    exact ⟨ih.tape, finalSet_ne_nil hset, ih.past, ih.initialTape⟩
  | setInitialState q _ ih =>
    unfold Machine.setInitialState
    split
    next hzero => exact ⟨ih.tape, ih.finals, hzero.symm, ih.initialTape⟩
    next => exact ⟨ih.tape, ih.finals, ih.past, ih.initialTape⟩
  | setName name _ ih => exact ⟨ih.tape, ih.finals, ih.past, ih.initialTape⟩
  | configure settings _ ih => exact ⟨ih.tape, ih.finals, ih.past, ih.initialTape⟩

namespace MachineDocument

theorem decodeProgram_toJson (p : Program) : decodeProgram p.toJson = .ok p := by
  rw [decodeProgram, Program.decodeRows_toJson]
  exact congrArg Except.ok p.ofRows_rows

theorem decodeStates_list (states : List State) :
    decodeStates (Json.list State.toJson states) = .ok states := by
  rw [decodeStates, Json.Decode.list_list State.decode_toJson]
  rfl

theorem decodeInitialState_toJson (first q : State) :
    decodeInitialState first (some q.toJson) = .ok q := by
  rw [decodeInitialState, State.decode_toJson]
  rfl

theorem decodeInitialTape_of_load {template u : LoggedTape} (tape : LoggedTape) {v : Json}
    (h : template.load v = .ok u) : decodeInitialTape template tape (some v) = .ok v := by
  rw [decodeInitialTape, h]
  rfl

theorem decodeStep_nat {step : Nat} (h : step ≤ greatestCount) :
    decodeStep (step + 1) (some (.nat step)) = .ok step := by
  have hrange : ¬((step : Int) < 0 ∨ (greatestCount : Int) < step) := by omega
  change (if (step : Int) < 0 ∨ (greatestCount : Int) < step then _ else _) = _
  rw [if_neg hrange]
  exact if_pos rfl

end MachineDocument

namespace Machine

/-- The machine that is read back from a document. -/
def restored (m : Machine) : Machine :=
  { m with
    tape := ⟨m.tape.tape.restored, m.tape.journal⟩
    cap := ({} : MachineSettings).cap }

/-- A machine whose steps can be counted is read back from its document. -/
theorem ofJson_toJson {m : Machine} (h : m.Storable) (hstep : m.step ≤ greatestCount) :
    Machine.ofJson m.toJson = .ok m.restored := by
  have hreverse : m.stateHistory.reverse = m.state :: m.past := List.reverse_reverse _
  have hlength : m.stateHistory.length = m.step + 1 := by
    rw [← List.length_reverse, hreverse, List.length_cons, h.past]
  obtain ⟨first, rest, hhistory⟩ := List.exists_cons_of_length_eq_add_one hlength
  obtain ⟨_, hinitial⟩ := h.initialTape default
  have hcount : MachineDocument.decodeStep m.stateHistory.length (some (.nat m.step)) =
      .ok m.step := by
    rw [hlength, MachineDocument.decodeStep_nat hstep]
  rw [hhistory] at hreverse hcount
  -- The entries are looked up by their keys and decoded in turn; none of them can fail.
  have hdecode : MachineDocument.decode default m.toJson = .ok
      ⟨m.program, ⟨m.tape.tape.restored, m.tape.journal⟩, m.finals, m.initialState, m.initialTape,
        m.state, m.past, m.step, some m.name⟩ := by
    simp [MachineDocument.decode, MachineDocument.entry, toJson, Json.get?, List.lookup_cons, bind,
      Except.bind, pure, Except.pure, MachineDocument.decodeProgram_toJson,
      MachineDocument.decodeStates_list, MachineDocument.decodeInitialState_toJson,
      MachineDocument.decodeInitialTape_of_load _ hinitial, LoggedTape.load_toJson h.tape,
      finalSet_toList h.finals, hhistory, hreverse, hcount, -List.reverse_cons, -List.length_cons]
    rfl
  rw [ofJson, hdecode]
  rfl

end Machine

end TapeMachine
