import TapeMachine.Proofs.MachineDocument
import TapeMachine.Proofs.Yields

/-!
Bundles as machine documents. A bundle gives a program and states to start with, and a tape
with fewer entries than a tape document has. Main statement: the machine of a bundle is the
one that is read from the document with the same parts, and if there is none, both fail
with the same error.
-/
namespace TapeMachine

/-- The document of a tape to start with; what is not given has its usual value. -/
def TapeSetup.document (s : TapeSetup) : Json :=
  .object [
    ("blank_symbol", (s.blank.getD .space).toJson),
    ("cursor", (s.cursor.getD .origin).toJson),
    ("data", Json.list Symbol.toJson s.data),
    ("offset", .nat (s.offset.getD 0))]

/-- The machine document that a bundle stands for, on some tape and state. -/
def Bundle.document (b : Bundle) (tape : TapeSetup) (state : State) : Json :=
  .object [
    ("final_states", Json.list State.toJson b.finals),
    ("name", .string b.title),
    ("program", b.program),
    ("state_history", Json.list State.toJson [state]),
    ("tape", tape.document)]

namespace TapeSetup

theorem list_data (s : TapeSetup) :
    Json.list Symbol.toJson s.data = Json.list Operation.cellToJson (s.data.map some) := by
  rw [Json.list, Json.list, List.map_map]
  rfl

theorem Countable.count {s : TapeSetup} (h : s.Countable) :
    Json.Decode.count (.nat (s.offset.getD 0)) = .ok (s.offset.getD 0) := by
  apply Json.Decode.count_nat
  cases ho : s.offset with
  | none => exact Nat.zero_le _
  | some n => exact h n ho

theorem decode_document {s : TapeSetup} (h : s.Countable) :
    TapeEntries.decode s.document = .ok
      ⟨some (s.blank.getD .space), s.offset.getD 0, some (s.cursor.getD .origin),
        some (s.data.map some)⟩ := by
  simp [TapeEntries.decode, document, list_data, Json.Decode.record, TapeEntries.fields, bind,
    Except.bind, pure, Except.pure, h.count]

/-- Reading the document of a tape gives the tape that is built, or fails as building does. -/
theorem load_document {s : TapeSetup} (h : s.Countable) :
    (default : LoggedTape).load s.document = s.build := by
  have hframes : Journal.decodeFrames s.document = .ok [] := by
    simp [Journal.decodeFrames, document, Json.get?, List.lookup_cons]
  have hlimit (present : Option Nat) : Journal.decodeLimit present s.document = .ok present := by
    simp [Journal.decodeLimit, document, Json.get?, List.lookup_cons]
  have hentries : (TapeEntries.decode s.document).mapError Error.tapeDocument = _ :=
    mapError_eq_ok.mpr (decode_document h)
  rw [LoggedTape.load, Tape.load, hframes, hlimit, hentries, build]
  simp only [bind, Except.bind, List.length_map]
  by_cases hlarge : s.data.length < s.offset.getD 0
  · rw [if_pos hlarge, if_pos hlarge]
    rfl
  · rw [if_neg hlarge, if_neg hlarge]
    rfl

end TapeSetup

namespace Bundle

/-- What is read from the document of a bundle: the parts that are given, and for the others
those of a machine at its start. -/
theorem decode_document (b : Bundle) {tape : TapeSetup} (h : tape.Countable) (state : State) :
    MachineDocument.decode default (b.document tape state) = (do
      let rows ← b.rows
      let tape ← tape.build
      let finals ← Machine.finalSet b.finals
      return ⟨.ofRows rows, tape, finals, state, tape.toJson, state, [], 0, some b.title⟩) := by
  have hok {α β : Type} (a : α) (f : α → Except Error β) : Except.ok a >>= f = f a := rfl
  have hprogram : MachineDocument.decodeProgram b.program =
      b.rows >>= fun rows => .ok (.ofRows rows) := rfl
  -- the four entries that must be there are found by their keys, and of the optional ones only
  -- the name
  simp only [MachineDocument.decode, MachineDocument.entry, document, Json.get?,
    List.lookup_cons, List.lookup_nil, String.reduceBEq, hok, bind_assoc, hprogram,
    TapeSetup.load_document h, MachineDocument.decodeStates_list]
  rfl

/-- The program of a bundle with its tape and state is read from the document with these parts;
the cap on runs is no part of a document. -/
theorem machineOn_matched (b : Bundle) {tape : TapeSetup} (h : tape.Countable) (state : State)
    (cap : Nat) :
    Matched (fun m m' => m.toJson = m'.toJson ∧ m = { m' with cap }) (b.machineOn tape state cap)
      (Machine.ofJson (b.document tape state)) := by
  rw [Machine.ofJson, b.decode_document h state]
  simp only [machineOn, Machine.new, bind_assoc, pure_bind]
  refine .bind_same _ fun rows _ => ?_
  refine .bind_same _ fun built _ => ?_
  refine .bind_same _ fun finals _ => ?_
  exact .ok ⟨rfl, rfl⟩

end Bundle

/-- The machine of a bundle that has been read and the one of the document it stands for exist
both or fail with the same error. They have the same document and differ in their caps alone.
This is so on the tape of the bundle and on the tapes of its testcases. -/
theorem machine_is_read_from_document {text : String} {b : Bundle}
    (h : Bundle.parse text = .ok b) (cap : Nat) :
    Matched (fun m m' => m.toJson = m'.toJson ∧ m = { m' with cap }) (b.machine cap)
      (Machine.ofJson (b.document b.tape b.state)) ∧
    ∀ t ∈ b.testcases,
      Matched (fun m m' => m.toJson = m'.toJson ∧ m = { m' with cap })
        (b.machineOn t.tape t.state cap) (Machine.ofJson (b.document t.tape t.state)) := by
  have hb := Bundle.countable_of_parse h
  exact ⟨b.machineOn_matched hb.tape b.state cap,
    fun t ht => b.machineOn_matched (hb.testcases t ht) t.state cap⟩

namespace Stroke

/-- Every record is written as the list of its fields. -/
def bundleText : String :=
  "[\"one\",[],\"1.0\",[null,1,null,[\"1\"]],[[\"1\",\"go\",[\"x\",\"r\",\"end\"]]],\"go\",[\"end\"]," ++
    "[[\"off\",[[null,1,null,[]],\"go\"],[\"end\",null,null]]]]"

/-- One stroke, which stands before zero. -/
def setup : TapeSetup := { offset := some 1, data := [.ofText "1"] }

/-- A testcase that has no cells, but wants one of them before zero. -/
def missing : Testcase :=
  ⟨"off", { offset := some 1, data := [] }, going, { state := some ended }⟩

theorem exists_ok_of_any {ε α : Type} {x : Except ε α} {p : α → Bool}
    (h : x.toOption.any p = true) : ∃ a, x = .ok a ∧ p a = true := by
  cases x with
  | error e => cases h
  | ok a => exact ⟨a, rfl, h⟩

/-- What matters of the bundle that is read. -/
theorem exists_bundle :
    ∃ b rows, Bundle.parse bundleText = .ok b ∧ b.rows = .ok rows ∧ b.finals = [ended] ∧
      b.tape = setup ∧ b.testcases = [missing] := by
  obtain ⟨b, hb, hparts⟩ := exists_ok_of_any (x := Bundle.parse bundleText)
    (p := fun b => b.rows.toOption.any (fun _ => true) &&
      decide (b.finals = [ended] ∧ b.tape = setup ∧ b.testcases = [missing])) (by decide +kernel)
  obtain ⟨hrows, hparts⟩ := (Bool.and_eq_true _ _).mp hparts
  obtain ⟨rows, hrows, _⟩ := exists_ok_of_any hrows
  exact ⟨b, rows, hb, hrows, of_decide_eq_true hparts⟩

end Stroke

theorem machine_is_read_from_document_strokes :
    ∃ b, Bundle.parse Stroke.bundleText = .ok b ∧
      (∃ m m', b.machine 7 = .ok m ∧ Machine.ofJson (b.document b.tape b.state) = .ok m' ∧
        m.toJson = m'.toJson) ∧
      ∃ t ∈ b.testcases, b.machineOn t.tape t.state 7 = .error (.offsetTooLarge 1 0) ∧
        Machine.ofJson (b.document t.tape t.state) = .error (.offsetTooLarge 1 0) := by
  obtain ⟨b, rows, hb, hrows, hfinals, htape, htestcases⟩ := Stroke.exists_bundle
  obtain ⟨hown, hothers⟩ := machine_is_read_from_document hb 7
  obtain ⟨m, hm⟩ : ∃ m, b.machine 7 = .ok m := by
    rw [Bundle.machine, Bundle.machineOn, hrows, htape, hfinals]
    exact ⟨_, rfl⟩
  obtain ⟨m', hm'⟩ := hown.ok_iff.mp ⟨m, hm⟩
  have hmem : Stroke.missing ∈ b.testcases := by
    rw [htestcases]
    exact List.mem_singleton_self _
  have hfails : b.machineOn Stroke.missing.tape Stroke.missing.state 7 =
      .error (.offsetTooLarge 1 0) := by
    rw [Bundle.machineOn, hrows]
    rfl
  exact ⟨b, hb, ⟨m, m', hm, hm', (hown.related hm hm').1⟩, Stroke.missing, hmem, hfails,
    ((hothers _ hmem).error_iff _).mp hfails⟩

end TapeMachine
