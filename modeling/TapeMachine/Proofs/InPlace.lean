import TapeMachine.Proofs.MachineDocument

/-!
Reading a machine document in place. The tapes of the document are read by the tape that is
there already. Main statement: replacing a machine by a document fails just as making a
machine of the document does, and if the document gives a name and its tape gives a blank
and a limit, nothing of the old machine is left but its cap.
-/
namespace TapeMachine

namespace MachineDocument

/-- The parts of a document, read by two templates: the name is the one of the document, and all
parts are the same if the tape leaves nothing to the templates. -/
def ReadAlike (document : Json) (d d' : MachineDocument) : Prop :=
  d.name = decodeName (document.get? "name") ∧
    ∀ tape, document.get? "tape" = some tape → SelfContained tape → d' = d

theorem entry_eq_ok {document v : Json} {key : String} (h : entry document key = .ok v) :
    document.get? key = some v := by
  unfold entry at h
  split at h
  next hget =>
    cases h
    exact hget
  next => cases h

theorem decodeName_eq_some {v : Json} (h : v ≠ .null) :
    ∃ name, decodeName (some v) = some name := by
  cases v with
  | null => exact absurd rfl h
  | _ => exact ⟨_, rfl⟩

/-- The first tape is kept as it is written, so a template only decides whether it is read. -/
theorem decodeInitialTape_matched (template template' tape tape' : LoggedTape)
    (v : Option Json) :
    Matched (fun first first' => tape' = tape → first' = first)
      (decodeInitialTape template tape v) (decodeInitialTape template' tape' v) := by
  cases v with
  | none => exact .ok (congrArg LoggedTape.toJson)
  | some v =>
    exact .bind (LoggedTape.load_matched v template template').discard fun _ _ _ => .ok fun _ => rfl

/-- A template decides neither whether a document is read nor, if the tape of the document gives
blank and limit, what is read. -/
theorem decode_matched (template template' : LoggedTape) (document : Json) :
    Matched (ReadAlike document) (decode template document) (decode template' document) := by
  refine .bind_same _ fun historyEntry _ => ?_
  refine .bind_same _ fun tapeEntry htapeEntry => ?_
  refine .bind_same _ fun programEntry _ => ?_
  refine .bind_same _ fun finalsEntry _ => ?_
  refine .bind_same _ fun program _ => ?_
  refine .bind (LoggedTape.load_matched tapeEntry template template') fun tape tape' htape => ?_
  refine .bind_same _ fun names _ => ?_
  refine .bind_same _ fun finals _ => ?_
  refine .bind_same _ fun history _ => ?_
  split
  next first rest state past _ _ =>
    refine .bind_same _ fun initialState _ => ?_
    refine .bind (decodeInitialTape_matched template template' tape tape' _)
      fun initialTape initialTape' hinitial => ?_
    refine .bind_same _ fun step _ => ?_
    refine .ok ⟨rfl, fun v hv hself => ?_⟩
    obtain rfl : tapeEntry = v := Option.some.inj ((entry_eq_ok htapeEntry).symm.trans hv)
    have htape : tape' = tape := (htape hself).symm
    rw [htape, hinitial htape]
  next => exact .error _

end MachineDocument

theorem Machine.load_matched (m : Machine) (document : Json) :
    Matched (fun m₁ m₂ => ∀ tape name, document.get? "tape" = some tape → SelfContained tape →
        document.get? "name" = some name → name ≠ .null → m₂ = { m₁ with cap := m.cap })
      (ofJson document) (m.load document) := by
  refine .bind (MachineDocument.decode_matched default m.tape document) fun d d' h => ?_
  refine .ok fun tape name htape hself hname hnull => ?_
  obtain ⟨hd, hparts⟩ := h
  rw [hparts tape htape hself]
  obtain ⟨given, hgiven⟩ := MachineDocument.decodeName_eq_some hnull
  rw [hname, hgiven] at hd
  simp only [ofDocument, hd, Option.getD_some]

/-- Making a machine of a document and replacing a machine by it fail with the same error or
succeed both. If the document gives blank, limit and name, they give the same machine, but for
the cap that is no part of a document. -/
theorem load_agrees_with_ofJson (m : Machine) (document : Json) :
    ((∃ m₁, Machine.ofJson document = .ok m₁) ↔ ∃ m₂, m.load document = .ok m₂) ∧
    (∀ e, Machine.ofJson document = .error e ↔ m.load document = .error e) ∧
    ∀ m₁ m₂ tape name, Machine.ofJson document = .ok m₁ → m.load document = .ok m₂ →
      document.get? "tape" = some tape → SelfContained tape →
      document.get? "name" = some name → name ≠ .null →
      m₂.toJson = m₁.toJson ∧ m₂ = { m₁ with cap := m.cap } := by
  have hmatched := m.load_matched document
  refine ⟨hmatched.ok_iff, hmatched.error_iff, ?_⟩
  intro m₁ m₂ tape name h₁ h₂ htape hself hname hnull
  have heq := hmatched.related h₁ h₂ tape name htape hself hname hnull
  refine ⟨?_, heq⟩
  rw [heq]
  rfl

/-- A machine of another blank, limit and name, in the middle of something else. -/
def Stroke.other (m : Machine) : Machine :=
  { m with
    tape := .recording (.empty (.ofText "_")) (some 1), name := "other", state := ended,
    past := [going, ended], step := 2, program := .ofRows [], cap := 5 }

theorem load_agrees_with_ofJson_strokes :
    ∃ m₀ m₁ m₂, Machine.new Stroke.program Stroke.tape [Stroke.ended] Stroke.going = .ok m₀ ∧
      let document := (m₀.after Stroke.commands).toJson
      Machine.ofJson document = .ok m₁ ∧ (Stroke.other m₀).load document = .ok m₂ ∧
      m₁.tape.tape.blank ≠ (Stroke.other m₀).tape.tape.blank ∧
      m₁.tape.journal.limit ≠ (Stroke.other m₀).tape.journal.limit ∧
      m₁.name ≠ (Stroke.other m₀).name ∧ m₂.toJson = m₁.toJson ∧
      (Stroke.other m₀).load .null = .error (.missingKey "state_history") := by
  obtain ⟨m₀, hnew⟩ : ∃ m₀,
      Machine.new Stroke.program Stroke.tape [Stroke.ended] Stroke.going = .ok m₀ := ⟨_, rfl⟩
  have hstorable := ((Machine.Reachable.new Stroke.reachable_tape hnew).after
    Stroke.commands).storable
  have hcount : (m₀.after Stroke.commands).step ≤ greatestCount := by
    cases hnew
    decide
  have hmade := Machine.ofJson_toJson hstorable hcount
  have hagrees := load_agrees_with_ofJson (Stroke.other m₀) (m₀.after Stroke.commands).toJson
  obtain ⟨m₂, hloaded⟩ := hagrees.1.mp ⟨_, hmade⟩
  have hjson := hagrees.2.2 _ m₂ _ _ hmade hloaded rfl
    (LoggedTape.selfContained_toJson (m₀.after Stroke.commands).tape) rfl Json.noConfusion
  have hnull := ((load_agrees_with_ofJson (Stroke.other m₀) .null).2.1 _).mp rfl
  refine ⟨m₀, _, m₂, hnew, hmade, hloaded, ?_, ?_, ?_, hjson.1, hnull⟩
  · cases hnew
    decide
  · cases hnew
    decide
  · cases hnew
    decide

end TapeMachine
