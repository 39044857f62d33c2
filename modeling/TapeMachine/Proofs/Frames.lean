import TapeMachine.Proofs.View

/-!
The journal as a stack of frames, the latest on top. Recording changes the top, opening
and dropping frames push and pop, and a limit keeps the upper part of the stack. The
stack is never empty: when its only frame is dropped, an empty one takes its place.
-/
namespace TapeMachine

/-- The front of a list as long as a limit allows, which is at least one. -/
def keep (limit : Option Nat) (xs : List α) : List α :=
  match limit with
  | none => xs
  | some n => xs.take (max n 1)

@[simp] theorem keep_some (n : Nat) (xs : List α) : keep (some n) xs = xs.take (max n 1) := rfl

/-- A limit never takes the first member, and treats the others alike whatever it is. -/
theorem keep_cons (limit : Option Nat) (x y : α) (xs : List α) :
    keep limit (x :: xs) = x :: (keep limit (y :: xs)).tail := by
  cases limit with
  | none => rfl
  | some n =>
    have hn : max n 1 = max n 1 - 1 + 1 := by omega
    rw [keep_some, keep_some, hn, List.take_succ_cons, List.take_succ_cons, List.tail_cons]

namespace Journal

/-- The frames, the latest first. -/
def stack (j : Journal) : List Frame := j.current :: j.earlier

theorem frames_eq (j : Journal) : j.frames = (j.stack.map List.reverse).reverse := rfl

@[simp] theorem length_frames (j : Journal) : j.frames.length = j.stack.length := by
  simp [frames_eq]

theorem frames_eq_singleton_nil (j : Journal) : j.frames = [[]] ↔ j.stack = [[]] := by
  rw [frames_eq, List.reverse_eq_iff, List.reverse_singleton, List.map_eq_singleton_iff]
  simp

theorem isExhausted_iff (j : Journal) : j.isExhausted = true ↔ j.stack = [[]] := by
  simp [isExhausted, stack]

@[simp] theorem stack_evict (j : Journal) : j.evict.stack = keep j.limit j.stack := by
  unfold evict
  cases hl : j.limit with
  | none => rfl
  | some n =>
    have hn : max n 1 = max n 1 - 1 + 1 := by omega
    simp only [keep_some, stack]
    split
    next h =>
      have hlength : (j.current :: j.earlier).length ≤ max n 1 := by
        rw [List.length_cons]
        omega
      rw [List.take_of_length_le hlength]
    next =>
      rw [hn, List.take_succ_cons]
      simp

@[simp] theorem limit_evict (j : Journal) : j.evict.limit = j.limit := by
  unfold evict
  cases hl : j.limit with
  | none => exact hl
  | some n =>
    dsimp only
    split
    · exact hl
    · rfl

@[simp] theorem stack_setLimit (limit : Option Nat) (j : Journal) :
    (j.setLimit limit).stack = keep limit j.stack := by
  simp [setLimit]; rfl

@[simp] theorem limit_setLimit (limit : Option Nat) (j : Journal) :
    (j.setLimit limit).limit = limit := by
  simp [setLimit]

@[simp] theorem stack_openFrame (j : Journal) :
    j.openFrame.stack = keep j.limit ([] :: j.stack) := by
  simp [openFrame]; rfl

theorem current_openFrame (j : Journal) : j.openFrame.current = [] := by
  have hs := j.stack_openFrame
  rw [keep_cons j.limit [] []] at hs
  exact (List.cons.inj hs).1

/-- A frame that is filled after it has been opened. -/
theorem stack_opened (j : Journal) (frame : Frame) :
    frame :: j.openFrame.earlier = keep j.limit (frame :: j.stack) := by
  rw [keep_cons j.limit frame [], ← stack_openFrame]
  rfl

@[simp] theorem limit_openFrame (j : Journal) : j.openFrame.limit = j.limit := by
  simp [openFrame]

@[simp] theorem limit_dropFrame (j : Journal) : j.dropFrame.limit = j.limit := by
  unfold dropFrame
  split <;> rfl

/-- Dropping the only frame leaves an empty one. -/
theorem stack_dropFrame (j : Journal) :
    j.dropFrame.stack = if j.earlier = [] then [[]] else j.earlier := by
  unfold dropFrame stack
  split
  next h => simp [h]
  next h => simp [h]

/-- No more frames than the limit allows. -/
def Within (j : Journal) : Prop := ∀ n, j.limit = some n → j.stack.length ≤ max n 1

theorem Within.keep_stack {j : Journal} (h : j.Within) : keep j.limit j.stack = j.stack := by
  cases hl : j.limit with
  | none => rfl
  | some n => exact List.take_of_length_le (h n hl)

theorem within_evict (j : Journal) : j.evict.Within := by
  intro n hn
  rw [limit_evict] at hn
  rw [stack_evict, hn, keep_some, List.length_take]
  omega

theorem within_setLimit (limit : Option Nat) (j : Journal) : (j.setLimit limit).Within :=
  within_evict _

theorem within_openFrame (j : Journal) : j.openFrame.Within :=
  within_evict _

theorem within_single {j : Journal} (h : j.earlier = []) : j.Within := by
  intro n _
  rw [stack, h, List.length_singleton]
  omega

theorem Within.record {j : Journal} (h : j.Within) (op : Operation) : (j.record op).Within := h

theorem Within.dropFrame {j : Journal} (h : j.Within) : j.dropFrame.Within := by
  intro n hn
  have hj := h n (by simpa using hn)
  rw [stack_dropFrame]
  split
  · rw [List.length_singleton]
    omega
  · rw [stack, List.length_cons] at hj
    omega

theorem within_ofFrames (limit : Option Nat) (frames : List (List Operation)) :
    (ofFrames limit frames).Within := by
  unfold ofFrames
  split
  · exact within_single rfl
  · exact within_evict _

/-- Frames and their operations come in the same order when both are turned round twice. -/
theorem reversed_twice (frames : List (List Operation)) :
    (((frames.map List.reverse).reverse).map List.reverse).reverse = frames := by
  have hid : List.reverse ∘ List.reverse = (id : Frame → Frame) := by
    funext frame
    exact List.reverse_reverse frame
  rw [← List.map_reverse, List.reverse_reverse, List.map_map, hid, List.map_id]

/-- Within its limit a journal is determined by its frames. -/
theorem ofFrames_frames {j : Journal} (h : j.Within) : ofFrames j.limit j.frames = j := by
  have hs : (j.frames.map List.reverse).reverse = j.current :: j.earlier :=
    reversed_twice j.stack
  have he : j.evict = j := by
    have hstack : j.evict.stack = j.stack := by rw [stack_evict, h.keep_stack]
    have hlimit := j.limit_evict
    cases hj : j.evict with
    | mk current earlier limit =>
      rw [hj] at hstack hlimit
      simp only [stack, List.cons.injEq] at hstack
      cases j
      simp_all
  unfold ofFrames
  rw [hs]
  exact he

end Journal

namespace LoggedTape

/-- The tape after its newest frame has been taken back. -/
def undone (t : LoggedTape) : LoggedTape :=
  ⟨t.journal.inverses.foldl apply t.tape, t.journal.dropFrame⟩

@[simp] theorem view_undone (t : LoggedTape) :
    t.undone.tape.view = t.tape.view.retract t.journal.current :=
  Tape.view_foldl_apply _ _

@[simp] theorem journal_undone (t : LoggedTape) : t.undone.journal = t.journal.dropFrame := rfl

theorem undo_of_exhausted {t : LoggedTape} (h : t.journal.stack = [[]]) :
    t.undo = .error .nothingToUndo := by
  rw [undo, if_pos (t.journal.isExhausted_iff.mpr h)]

theorem undo_of_not_exhausted {t : LoggedTape} (h : t.journal.stack ≠ [[]]) :
    t.undo = .ok (t.journal.inverses, t.undone) := by
  rw [undo, if_neg (fun he => h (t.journal.isExhausted_iff.mp he))]
  rfl

end LoggedTape

end TapeMachine
