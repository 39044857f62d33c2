import TapeMachine.Proofs.Codec
import TapeMachine.Proofs.Frames

/-!
The forms in which values are kept and written down. A text has no blanks at its ends once
it is the text of a symbol or the name of a state, and it is then its own normal form; an
operation is told from others by the length and the tag of its list. Main statement:
whatever has been accepted as a symbol, a state or a history is read back from its document
as the same.
-/
namespace TapeMachine

namespace Text

/-- Neither the first nor the last character is blank. -/
def Trimmed (s : String) : Prop :=
  (∀ c, s.toList.head? = some c → isBlank c = false) ∧
    ∀ c, s.toList.getLast? = some c → isBlank c = false

/-- Trimming keeps the texts with no blanks at their ends, and only those. -/
theorem trim_eq_self_iff {s : String} : trim s = s ↔ Trimmed s := by
  have hlist : trim s = s ↔ dropEnds isBlank s.toList = s.toList := by
    rw [← String.toList_inj, trim, String.toList_ofList]
  rw [hlist]
  constructor
  · intro h
    have hfront := dropWhile_dropEnds isBlank s.toList
    have hback := reverse_dropEnds isBlank s.toList
    rw [h] at hfront hback
    refine ⟨head?_of_dropWhile hfront, fun c hc => head?_of_dropWhile hback c ?_⟩
    rw [List.head?_reverse, hc]
  · rintro ⟨hfirst, hlast⟩
    have hback : s.toList.reverse.dropWhile isBlank = s.toList.reverse :=
      dropWhile_of_head? fun c hc => hlast c (by rw [← List.head?_reverse, hc])
    rw [dropEnds, dropWhile_of_head? hfirst, hback, List.reverse_reverse]

end Text

namespace Symbol

/-- The form of a symbol's text: one space, or a text with something at both of its ends. -/
def IsText (text : String) : Prop := text = " " ∨ text ≠ "" ∧ Text.Trimmed text

theorem normalize_eq_self_iff {text : String} : normalize text = text ↔ IsText text := by
  unfold normalize IsText
  constructor
  · intro h
    split at h
    next => exact .inl h.symm
    next hne =>
      rw [h] at hne
      exact .inr ⟨hne, Text.trim_eq_self_iff.mp h⟩
  · rintro (rfl | ⟨hne, htrimmed⟩)
    · rw [if_pos Text.trim_space]
    · rw [Text.trim_eq_self_iff.mpr htrimmed, if_neg hne]

theorem isText_text (s : Symbol) : IsText s.text :=
  normalize_eq_self_iff.mp s.normal

/-- A text is kept as it is exactly if it has the form of a symbol's text. -/
theorem text_ofText_iff {text : String} : (ofText text).text = text ↔ IsText text := by
  simp only [ofText]
  exact normalize_eq_self_iff

end Symbol

namespace State

/-- The form of a state's name: a text with something at both of its ends. -/
def IsName (name : String) : Prop := name ≠ "" ∧ Text.Trimmed name

theorem isName_name (q : State) : IsName q.name :=
  ⟨q.nonempty, Text.trim_eq_self_iff.mp q.trimmed⟩

/-- A text is kept as it is exactly if it has the form of a name. -/
theorem exists_ofText?_name_iff {name : String} :
    (∃ q, ofText? name = .ok q ∧ q.name = name) ↔ IsName name := by
  constructor
  · rintro ⟨q, -, rfl⟩
    exact q.isName_name
  · rintro ⟨hne, htrimmed⟩
    have hq := ofText?_name ⟨name, Text.trim_eq_self_iff.mpr htrimmed, hne⟩
    exact ⟨_, hq, rfl⟩

end State

namespace Operation

theorem cellOfJson?_of_ne_null {v : Json} (h : v ≠ .null) :
    cellOfJson? v = (Symbol.ofJson? v).toOption.map some := by
  unfold cellOfJson? Json.Decode.optional
  split
  · contradiction
  · rw [Symbol.decode, Json.Decode.converted]
    cases Symbol.ofJson? v <;> rfl

/-- Only `null` is a cell that nobody has written. -/
theorem cellOfJson?_eq_unwritten_iff {v : Json} : cellOfJson? v = some none ↔ v = .null := by
  constructor
  · intro h
    by_cases hv : v = .null
    · exact hv
    · rw [cellOfJson?_of_ne_null hv] at h
      obtain ⟨s, _, hs⟩ := Option.map_eq_some_iff.mp h
      cases hs
  · rintro rfl
    rfl

/-- All symbols can be in a cell, and nothing else can. -/
theorem cellOfJson?_eq_written_iff {v : Json} {s : Symbol} :
    cellOfJson? v = some (some s) ↔ Symbol.ofJson? v = .ok s := by
  by_cases hv : v = .null
  · subst hv
    constructor <;> intro h <;> cases h
  · rw [cellOfJson?_of_ne_null hv]
    cases Symbol.ofJson? v with
    | error e => constructor <;> intro h <;> cases h
    | ok s' => constructor <;> intro h <;> cases h <;> rfl

/-- How an operation is written down: a write as a list of three with a tag at its front, a move as
a list of one number. -/
inductive Form : Json → Operation → Prop where
  | write {a b : Json} {old new : Option Symbol} (hold : cellOfJson? a = some old)
      (hnew : cellOfJson? b = some new) : Form (.array [.string "w", a, b]) (.write old new)
  | move (d : Distance) : Form (.array [.int d.cells]) (.move d)

/-- Reading accepts the forms of operations and nothing else. -/
theorem ofJson?_eq_some_iff {v : Json} {op : Operation} : ofJson? v = some op ↔ Form v op := by
  constructor
  · intro h
    unfold ofJson? at h
    split at h
    next a b =>
      split at h
      next old new hold hnew =>
        cases h
        exact .write hold hnew
      next => cases h
    next i =>
      obtain ⟨d, hd, rfl⟩ := Option.map_eq_some_iff.mp h
      unfold Distance.ofInt? at hd
      split at hd
      next hi =>
        cases hd
        exact .move ⟨i, hi.1, hi.2⟩
      next => cases hd
    next => cases h
  · intro h
    cases h with
    | write hold hnew => simp only [ofJson?, hold, hnew]
    | move d => exact ofJson?_toJson (.move d)

end Operation

namespace Journal

/-- A journal without a limit has all frames that it is made of. -/
theorem frames_ofFrames {frames : List (List Operation)} (h : frames ≠ []) :
    (ofFrames none frames).frames = frames := by
  unfold ofFrames
  split
  next hnil => exact absurd (by simpa using hnil) h
  next current earlier hstack =>
    change ((current :: earlier).map List.reverse).reverse = frames
    rw [← hstack, reversed_twice]

end Journal

/-- Whatever is accepted as a symbol or a state is kept in its form, a text is kept as it is exactly
if it has that form, and the document of the value gives the value back. Any frames, unless there
are none, are read back from any document with their history. In it `null` alone stands for an
unwritten cell and whatever gives a symbol for a written one, and writes and moves have forms of
their own, besides which there are no others. -/
theorem accepted_values_survive_documents :
    (∀ raw : String, Symbol.IsText (Symbol.ofText raw).text ∧
      Symbol.decode (Symbol.ofText raw).toJson = .ok (Symbol.ofText raw)) ∧
    (∀ (v : Json) (s : Symbol), Symbol.ofJson? v = .ok s →
      Symbol.IsText s.text ∧ Symbol.decode s.toJson = .ok s) ∧
    (∀ text : String, (Symbol.ofText text).text = text ↔ Symbol.IsText text) ∧
    (∀ (raw : String) (q : State), State.ofText? raw = .ok q →
      State.IsName q.name ∧ State.decode q.toJson = .ok q) ∧
    (∀ (v : Json) (q : State), State.ofJson? v = .ok q →
      State.IsName q.name ∧ State.decode q.toJson = .ok q) ∧
    (∀ name : String, (∃ q, State.ofText? name = .ok q ∧ q.name = name) ↔ State.IsName name) ∧
    (∀ (frames : List (List Operation)) (document : Json), frames ≠ [] →
      document.get? "history" = some (Json.list (Json.list Operation.toJson) frames) →
      Journal.decodeFrames document = .ok frames ∧
        (Journal.ofFrames none frames).frames = frames) ∧
    (∀ v : Json, Operation.cellOfJson? v = some none ↔ v = .null) ∧
    (∀ (v : Json) (s : Symbol),
      Operation.cellOfJson? v = some (some s) ↔ Symbol.ofJson? v = .ok s) ∧
    ∀ (v : Json) (op : Operation), Operation.ofJson? v = some op ↔ Operation.Form v op := by
  refine ⟨fun raw => ?_, fun v s _ => ?_, fun text => Symbol.text_ofText_iff, fun raw q _ => ?_,
    fun v q _ => ?_, fun name => State.exists_ofText?_name_iff,
    fun frames document hne hget => ?_, fun v => Operation.cellOfJson?_eq_unwritten_iff,
    fun v s => Operation.cellOfJson?_eq_written_iff, fun v op => Operation.ofJson?_eq_some_iff⟩
  · exact ⟨(Symbol.ofText raw).isText_text, (Symbol.ofText raw).decode_toJson⟩
  · exact ⟨s.isText_text, s.decode_toJson⟩
  · exact ⟨q.isName_name, q.decode_toJson⟩
  · exact ⟨q.isName_name, q.decode_toJson⟩
  · exact ⟨Journal.decodeFrames_of_get? hget, Journal.frames_ofFrames hne⟩

/-- A frame that writes the blank where nothing has been written and goes left, and one that does
nothing. -/
def blankedFrames : List (List Operation) :=
  [[.write none (some .space), .move (.ofInt (-1))], []]

theorem accepted_values_survive_documents_blanked :
    (∃ s, Symbol.ofJson? (.string "\u3000a b\u00a0") = .ok s ∧ s.text = "a b" ∧
      Symbol.IsText s.text ∧ Symbol.decode s.toJson = .ok s) ∧
    (∃ q, State.ofJson? (.bool true) = .ok q ∧ q.name = "true" ∧
      State.IsName q.name ∧ State.decode q.toJson = .ok q) ∧
    Journal.decodeFrames
      (.object [("history", Json.list (Json.list Operation.toJson) blankedFrames)]) =
        .ok blankedFrames ∧
    (Journal.ofFrames none blankedFrames).frames = blankedFrames := by
  obtain ⟨-, hsymbol, -, -, hstate, -, hframes, -⟩ := accepted_values_survive_documents
  obtain ⟨s, hs⟩ : ∃ s, Symbol.ofJson? (.string "\u3000a b\u00a0") = .ok s := ⟨_, rfl⟩
  obtain ⟨q, hq⟩ : ∃ q, State.ofJson? (.bool true) = .ok q := ⟨_, rfl⟩
  have htext : s.text = "a b" := by
    cases hs
    decide
  have hname : q.name = "true" := by
    cases hq
    decide
  exact ⟨⟨s, hs, htext, hsymbol _ s hs⟩, ⟨q, hq, hname, hstate _ q hq⟩,
    hframes blankedFrames _ (List.cons_ne_nil _ _) rfl⟩

end TapeMachine
