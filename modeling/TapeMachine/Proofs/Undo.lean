import TapeMachine.Proofs.Edit

/-!
Taking back frame after frame. A chronicle notes what a tape shows whenever a frame is
opened; the tape itself does not know it. Main statement: undoing brings back what the
tape showed when the newest frame was opened, whatever was written, moved, taken back or
dropped by a limit in between, and it fails only when a single empty frame is left.
-/
namespace TapeMachine

theorem keep_front (limit : Option Nat) (xs : List α) : keep limit xs <+: xs := by
  cases limit with
  | none => exact List.prefix_refl xs
  | some n => exact List.take_prefix _ _

/-- A tape and what it showed when its frames were opened, the latest first. What belongs to
frames that a limit has dropped stays at the end, where nothing looks at it. -/
structure Chronicle where
  tape : LoggedTape
  opened : List View

namespace Chronicle

def start (t : Tape) (limit : Option Nat) : Chronicle := ⟨.recording t limit, [t.view]⟩

/-- A snapshot opens a frame, and so does an undo that removes the only one. -/
def openedAfter (c : Chronicle) : Edit → List View
  | .snapshot => c.tape.tape.view :: c.opened
  | .undo =>
    if c.tape.journal.frames = [[]] then c.opened
    else if c.tape.journal.frames.length = 1 then [(Edit.undo.perform c.tape).tape.view]
    else c.opened.tail
  | _ => c.opened

def perform (c : Chronicle) (e : Edit) : Chronicle := ⟨e.perform c.tape, c.openedAfter e⟩

end Chronicle

/-- Edits that the journal can take back: reads, writes, moves and those of the journal itself.
A move must not be too wide for the way back. -/
def Edit.Traced (t : LoggedTape) : Edit → Prop
  | .head (.write _) | .head (.left _) | .head (.right _) | .head (.readAt _) => True
  | .head (.moveTo p) => t.tape.cursor.Near p
  | .snapshot | .undo | .setLimit _ => True
  | _ => False

/-- Edits each of which is traced when its turn comes. -/
def AllTraced : List Edit → LoggedTape → Prop
  | [], _ => True
  | e :: edits, t => e.Traced t ∧ AllTraced edits (e.perform t)

/-- Taking back the frames one by one shows the views one by one. -/
inductive Linked : View → List Frame → List View → Prop where
  | nil (v : View) (opened : List View) : Linked v [] opened
  | cons (v : View) (frame : Frame) {frames : List Frame} {opened : List View} :
      Linked (v.retract frame) frames opened →
      Linked v (frame :: frames) (v.retract frame :: opened)

namespace Linked

variable {v w : View} {frame : Frame} {frames : List Frame} {opened : List View}

theorem head? (h : Linked v (frame :: frames) opened) :
    opened.head? = some (v.retract frame) := by
  cases h
  rfl

theorem tail (h : Linked v (frame :: frames) opened) :
    Linked (v.retract frame) frames opened.tail := by
  cases h with
  | cons _ _ h => exact h

/-- Dropping the oldest frames leaves the links between the others. -/
theorem front {kept : List Frame} (hk : kept <+: frames) (h : Linked v frames opened) :
    Linked v kept opened := by
  induction h generalizing kept with
  | nil v opened =>
    rw [List.prefix_nil.mp hk]
    exact nil v opened
  | cons v frame h ih =>
    cases kept with
    | nil => exact nil v _
    | cons first kept =>
      obtain ⟨rfl, hrest⟩ := List.cons_prefix_cons.mp hk
      exact cons v first (ih hrest)

/-- A recorded operation may change the view if its inverse changes it back. -/
theorem record {op : Operation} (hop : w.apply op.inverse = v)
    (h : Linked v (frame :: frames) opened) : Linked w ((op :: frame) :: frames) opened := by
  have hr : w.retract (op :: frame) = v.retract frame := by
    rw [View.retract_cons, hop]
  cases h with
  | cons _ _ h =>
    rw [← hr] at h ⊢
    exact cons w (op :: frame) h

end Linked

namespace Chronicle

/-- What a chronicle has noted is where its tape can get back to. -/
structure Faithful (c : Chronicle) : Prop where
  within : c.tape.journal.Within
  linked : Linked c.tape.tape.view c.tape.journal.stack c.opened

theorem faithful_start (t : Tape) (limit : Option Nat) : (start t limit).Faithful where
  within := Journal.within_single rfl
  linked := .cons t.view [] (.nil t.view [])

theorem Faithful.write {c : Chronicle} (h : c.Faithful) (s : Symbol) :
    Faithful ⟨c.tape.write s, c.opened⟩ where
  within := h.within.record _
  linked := by
    have hl := h.linked.record (View.apply_inverse_write c.tape.tape.view s)
    rw [← Tape.view_write] at hl
    exact hl

theorem Faithful.moveTo {c : Chronicle} (h : c.Faithful) {p : Position}
    (hp : c.tape.tape.cursor.Near p) : Faithful ⟨c.tape.moveTo p, c.opened⟩ where
  within := h.within.record _
  linked := h.linked.record (View.apply_inverse_move c.tape.tape.view p hp)

theorem Faithful.undo {c : Chronicle} (h : c.Faithful) : (c.perform .undo).Faithful := by
  by_cases hx : c.tape.journal.stack = [[]]
  · have hf := c.tape.journal.frames_eq_singleton_nil.mpr hx
    simpa only [perform, openedAfter, if_pos hf, Edit.perform_undo_of_exhausted hx] using h
  · have hf : c.tape.journal.frames ≠ [[]] :=
      fun he => hx (c.tape.journal.frames_eq_singleton_nil.mp he)
    simp only [perform, openedAfter, if_neg hf, Edit.perform_undo_of_not_exhausted hx]
    constructor
    · exact h.within.dropFrame
    · rw [LoggedTape.view_undone, LoggedTape.journal_undone, Journal.stack_dropFrame,
        Journal.length_frames]
      by_cases he : c.tape.journal.earlier = []
      · -- The log is empty now, and the frame that stands in for it is opened here.
        rw [if_pos he, if_pos (by simp [Journal.stack, he])]
        exact .cons _ [] (.nil _ [])
      · rw [if_neg he, if_neg (by simp [Journal.stack, he])]
        exact h.linked.tail

/-- One edit keeps a chronicle faithful. -/
theorem Faithful.perform {c : Chronicle} (h : c.Faithful) (e : Edit) (he : e.Traced c.tape) :
    (c.perform e).Faithful := by
  cases e with
  | head e =>
    cases e with
    | write s => exact h.write s
    | left n => exact h.moveTo (c.tape.tape.cursor.near_left n)
    | right n => exact h.moveTo (c.tape.tape.cursor.near_right n)
    | moveTo p => exact h.moveTo he
    | readAt p => exact ⟨h.within, h.linked⟩
    | moveBy motion => exact False.elim he
    | window p count => exact False.elim he
    | clear => exact False.elim he
    | fill symbols => exact False.elim he
    | loadText text => exact False.elim he
    | load document => exact False.elim he
  | snapshot =>
    constructor
    · exact Journal.within_openFrame _
    · change Linked _ c.tape.journal.openFrame.stack _
      rw [Journal.stack_openFrame]
      exact .front (keep_front _ _) (.cons c.tape.tape.view [] h.linked)
  | undo => exact h.undo
  | setLimit limit =>
    constructor
    · exact Journal.within_setLimit _ _
    · change Linked _ (c.tape.journal.setLimit (bound limit)).stack _
      rw [Journal.stack_setLimit]
      exact h.linked.front (keep_front _ _)

theorem Faithful.run {c : Chronicle} (h : c.Faithful) (edits : List Edit)
    (he : AllTraced edits c.tape) : (edits.foldl Chronicle.perform c).Faithful := by
  induction edits generalizing c with
  | nil => exact h
  | cons e edits ih => exact ih (h.perform e he.1) he.2

/-- The notes do not influence the tape. -/
theorem tape_run (edits : List Edit) (c : Chronicle) :
    (edits.foldl perform c).tape = Edit.performAll edits c.tape := by
  induction edits generalizing c with
  | nil => rfl
  | cons e edits ih => exact ih (c.perform e)

/-- Undoing succeeds unless a single empty frame is left, and then shows what was noted last. -/
theorem Faithful.head?_opened {c : Chronicle} (h : c.Faithful) {inverses : List Operation}
    {u : LoggedTape} (hu : c.tape.undo = .ok (inverses, u)) :
    c.opened.head? = some u.tape.view := by
  by_cases hx : c.tape.journal.stack = [[]]
  · rw [LoggedTape.undo_of_exhausted hx] at hu
    cases hu
  · rw [LoggedTape.undo_of_not_exhausted hx] at hu
    cases hu
    rw [LoggedTape.view_undone]
    exact h.linked.head?

end Chronicle

theorem LoggedTape.undo_fails_iff (t : LoggedTape) :
    (∃ e, t.undo = .error e) ↔ t.journal.frames = [[]] := by
  rw [Journal.frames_eq_singleton_nil]
  constructor
  · rintro ⟨e, he⟩
    apply Classical.byContradiction
    intro hx
    rw [undo_of_not_exhausted hx] at he
    cases he
  · intro hx
    exact ⟨.nothingToUndo, undo_of_exhausted hx⟩

/-- After any edits that the journal can take back: if undoing succeeds, the tape shows what it
showed when its newest frame was opened; undoing fails exactly if a single empty frame is left,
and changes nothing then; and there is a frame, but never more of them than the limit allows. -/
theorem undo_returns_to_opening (t : Tape) (limit : Option Count) (edits : List Edit)
    (h : AllTraced edits (.recording t (bound limit))) :
    let c := edits.foldl Chronicle.perform (.start t (bound limit))
    c.tape = Edit.performAll edits (.recording t (bound limit)) ∧
    (∀ inverses u, c.tape.undo = .ok (inverses, u) → c.opened.head? = some u.tape.view) ∧
    ((∃ e, c.tape.undo = .error e) ↔ c.tape.journal.frames = [[]]) ∧
    ((∃ e, c.tape.undo = .error e) → Edit.undo.perform c.tape = c.tape) ∧
    1 ≤ c.tape.journal.frames.length ∧
    ∀ n, c.tape.journal.limit = some n → c.tape.journal.frames.length ≤ max 1 n := by
  intro c
  have hc : c.Faithful := (Chronicle.faithful_start t (bound limit)).run edits h
  refine ⟨Chronicle.tape_run edits _, fun _ _ hu => hc.head?_opened hu,
    c.tape.undo_fails_iff, ?_, ?_, ?_⟩
  · intro he
    have hx := (c.tape.journal.frames_eq_singleton_nil).mp (c.tape.undo_fails_iff.mp he)
    exact Edit.perform_undo_of_exhausted hx
  · rw [Journal.length_frames, Journal.stack, List.length_cons]
    omega
  · intro n hn
    rw [Journal.length_frames, Nat.max_comm]
    exact hc.within n hn

theorem two_le_greatestCount : 2 ≤ greatestCount := by decide

/-- Of three frames a limit drops the oldest, the newest with the widest of moves is taken back,
and the one between is written on again. -/
def sampleEdits : List Edit :=
  [.head (.write (.ofText "a")), .snapshot, .head (.left 3), .head (.write (.ofText "b")),
    .snapshot, .head (.moveTo (.ofInt (greatestIndex - 3))),
    .setLimit (some ⟨2, two_le_greatestCount⟩), .undo, .head (.readAt (.ofInt 5)), .head (.write (.ofText "c"))]

theorem undo_returns_to_opening_sample :
    AllTraced sampleEdits (.recording (.empty .space) none) ∧
    ∃ inverses u,
      (Edit.performAll sampleEdits (.recording (.empty .space) none)).undo = .ok (inverses, u) ∧
      (sampleEdits.foldl Chronicle.perform (.start (.empty .space) none)).opened.head? =
        some u.tape.view := by
  have ht : AllTraced sampleEdits (.recording (.empty .space) none) := by
    simp only [sampleEdits, AllTraced, Edit.Traced, true_and, and_true]
    decide
  refine ⟨ht, _, _, rfl, ?_⟩
  exact (undo_returns_to_opening (.empty .space) none sampleEdits ht).2.1 _ _ rfl

end TapeMachine
