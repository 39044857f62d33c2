import TapeMachine.Machine.Room
import TapeMachine.Proofs.Command

/-!
What machines answer in a room. Storage only grows while a machine goes on, so there is
room for all cells on the way exactly if the last machine does not outgrow the room. What
is answered is what the machine answers anyway, also after commands one by one.
-/
namespace TapeMachine

namespace Tape

/-- Putting a cell adds those that are missing. -/
theorem size_put (t : Tape) (i : Int) (v : Option Symbol) :
    (t.put i v).cells.size = t.cells.size + t.missing i := by
  change (if i + t.offset < 0 then _ else _ : Array (Option Symbol)).size = _
  unfold missing store
  split
  · rw [Array.size_append, Array.size_append, Array.size_replicate, Array.size_singleton]
    omega
  · split
    · rw [Array.size_set]
      omega
    · rw [Array.size_push, Array.size_append, Array.size_replicate]
      omega

theorem missing_eq_zero_iff {t : Tape} {i : Int} :
    t.missing i = 0 ↔ 0 ≤ i + t.offset ∧ i + t.offset < t.cells.size := by
  unfold missing
  split <;> omega

/-- A cell that has been put is there, and so is every cell that was there before. -/
theorem missing_put {t : Tape} {i j : Int} (v : Option Symbol) (h : j = i ∨ t.missing j = 0) :
    (t.put i v).missing j = 0 := by
  have hsize := t.size_put i v
  have hoffset : (t.put i v).offset = t.offset + (-(i + t.offset)).toNat := rfl
  rw [missing_eq_zero_iff] at h ⊢
  rw [hsize, hoffset, missing]
  split <;> omega

/-- Neither does an operation of a journal give up a cell. -/
theorem missing_foldl_apply (ops : List Operation) {t : Tape} {i : Int} (h : t.missing i = 0) :
    (ops.foldl LoggedTape.apply t).missing i = 0 := by
  induction ops generalizing t with
  | nil => exact h
  | cons op ops ih =>
    cases op with
    | write old new => exact ih (missing_put new (.inr h))
    | move d => exact ih h

theorem fits_iff {room : Room} {t : Tape} {i : Int} :
    t.fits room i = true ↔ t.missing i = 0 ∨ t.cells.size + t.missing i ≤ room.cells := by
  simp [fits]

end Tape

/-- A step back writes if there is a state to go back to and a frame with a write that is
recognised. -/
theorem Course.writesAt?_back_eq_some {m : Machine} {i : Int} :
    back.writesAt? m = some i ↔
      m.past ≠ [] ∧ (∃ r, Reversal.ofInverses m.tape.journal.inverses = .ok r) ∧
        restoredAt m.tape.tape.cursor m.tape.journal.current = some i := by
  simp only [back]
  cases m.past <;> cases Reversal.ofInverses m.tape.journal.inverses <;> simp

theorem Room.lacksCell_one (room : Room) (course : Course) (m : Machine) :
    room.lacksCell course 1 m = true ↔
      ∃ i, course.writesAt? m = some i ∧ m.tape.tape.fits room i = false := by
  unfold lacksCell
  cases course.writesAt? m <;> cases course.next? m <;> simp [lacksCell]

namespace Machine

/-- How many cells the tape of a machine stores. -/
def stored (m : Machine) : Nat := m.tape.tape.cells.size

/-- The way from `m` to `last` adds cells, and in the end there are more than there is room for. -/
def Outgrows (room : Room) (m last : Machine) : Prop :=
  m.stored < last.stored ∧ room.cells < last.stored

instance (room : Room) (m last : Machine) : Decidable (m.Outgrows room last) :=
  inferInstanceAs (Decidable (_ ∧ _))

variable {room : Room} {m mid last : Machine}

theorem not_outgrows_of_stored_eq (h : last.stored = m.stored) : ¬m.Outgrows room last := by
  rintro ⟨hlt, -⟩
  omega

/-- There is no room for a cell exactly if the machine that has stored it outgrows the room. -/
theorem fits_eq_false_iff {i : Int} (h : last.stored = m.stored + m.tape.tape.missing i) :
    m.tape.tape.fits room i = false ↔ m.Outgrows room last := by
  rw [← Bool.not_eq_true, Tape.fits_iff, Outgrows, h]
  change ¬(_ ∨ m.stored + _ ≤ _) ↔ _
  omega

/-- On a way that never gives up a cell, there is too little room for one of two parts if there is
too little for the whole. -/
theorem outgrows_iff_or (room : Room) (hmid : m.stored ≤ mid.stored)
    (hlast : mid.stored ≤ last.stored) :
    m.Outgrows room last ↔ m.Outgrows room mid ∨ mid.Outgrows room last := by
  unfold Outgrows
  omega

end Machine

/-- Answers with what has come out, unless the last machine outgrows the room. -/
def Room.grant {α : Type} (room : Room) (m last : Machine) (answer : α) : Except Shortage α :=
  if m.Outgrows room last then .error .cells else .ok answer

namespace Room

/-- No room holds as many results as can be asked for. -/
theorem results_lt_greatestCount (room : Room) : room.results < greatestCount := by
  have hfit := room.results_fit
  unfold resultBytes greatestPiece greatestIndex at hfit
  unfold greatestCount
  omega

variable {α : Type} {room : Room} {m mid last : Machine} {answer : α}

theorem grant_of_not_outgrows (h : ¬m.Outgrows room last) :
    room.grant m last answer = .ok answer :=
  if_neg h

@[simp] theorem grant_self (room : Room) (m : Machine) (answer : α) :
    room.grant m m answer = .ok answer :=
  grant_of_not_outgrows (Machine.not_outgrows_of_stored_eq rfl)

theorem grant_eq_ok {x : α} :
    room.grant m last answer = .ok x ↔ ¬m.Outgrows room last ∧ answer = x := by
  unfold grant
  split <;> simp_all

theorem grant_bind {β : Type} {next : α → Except Shortage β} {result : β}
    (h : next answer = .ok result) :
    (room.grant m last answer >>= next) = room.grant m last result := by
  unfold grant
  split
  · rfl
  · exact h

/-- A way can be gone in two parts. -/
theorem grant_trans {β : Type} {next : α → Except Shortage β} {result : β}
    (hmid : m.stored ≤ mid.stored) (hlast : mid.stored ≤ last.stored)
    (hnext : next answer = room.grant mid last result) :
    (room.grant m mid answer >>= next) = room.grant m last result := by
  have hor := Machine.outgrows_iff_or room hmid hlast
  by_cases hfirst : m.Outgrows room mid
  · rw [grant, grant, if_pos hfirst, if_pos (hor.mpr (.inl hfirst))]
    rfl
  · have hsame : m.Outgrows room last ↔ mid.Outgrows room last := by simp [hor, hfirst]
    rw [grant_of_not_outgrows hfirst]
    change next answer = _
    rw [hnext, grant, grant]
    simp only [hsame]

end Room

namespace Machine

variable (room : Room)

theorem stored_follow (m : Machine) (i : Instruction) :
    (m.follow i).stored = m.stored + m.tape.tape.missing m.tape.tape.cursor.index := by
  rw [stored, stored, ← m.tape.tape.size_put _ (some i.write)]
  change (HasHead.moveBy i.motion (m.tape.snapshot.write i.write)).tape.cells.size = _
  cases i.motion <;> rfl

/-- A transition stores the cell under the head and gives up none. -/
theorem missing_follow {m : Machine} {j : Int} (i : Instruction)
    (h : j = m.tape.tape.cursor.index ∨ m.tape.tape.missing j = 0) :
    (m.follow i).tape.tape.missing j = 0 := by
  have hput := Tape.missing_put (some i.write) h
  change (HasHead.moveBy i.motion (m.tape.snapshot.write i.write)).tape.missing j = 0
  cases i.motion <;> exact hput

theorem stored_le_advance (n : Nat) (m : Machine) : m.stored ≤ (m.advance n).2.stored :=
  advance_preserves (P := fun m' => m.stored ≤ m'.stored)
    (fun m' i _ _ h => by rw [stored_follow]; omega) n (Nat.le_refl _)

theorem stored_le_forth (n : Nat) (m : Machine) : m.stored ≤ (m.forth n).2.stored := by
  rw [forth_snd]
  exact stored_le_advance n m

theorem lacksCell_of_finished (n : Nat) {m : Machine} (h : m.finished = true) :
    room.lacksCell .forth n m = false := by
  cases n with
  | zero => rfl
  | succ n => simp [Room.lacksCell, Course.forth, h]

theorem lacksCell_succ (n : Nat) {m : Machine} {i : Instruction} (hf : m.atFinal = false)
    (hi : m.instruction? = some i) :
    room.lacksCell .forth (n + 1) m =
      (!m.tape.tape.fits room m.tape.tape.cursor.index ||
        room.lacksCell .forth n (m.follow i)) := by
  have hfin : m.finished = false := by simp [finished, atUndefined, hf, hi]
  have hnext : (m.advance 1).2 = m.follow i := by rw [advance_succ 0 hf hi]; rfl
  simp [Room.lacksCell, Course.forth, hfin, hnext]

/-- Going forward lacks a cell exactly if the last machine is too large. -/
theorem lacksCell_iff_outgrows (n : Nat) (m : Machine) :
    room.lacksCell .forth n m = true ↔ m.Outgrows room (m.advance n).2 := by
  induction n generalizing m with
  | zero => simp [Room.lacksCell, advance, not_outgrows_of_stored_eq]
  | succ n ih =>
    cases hfin : m.finished with
    | true =>
      rw [lacksCell_of_finished room (n + 1) hfin, advance_of_finished (n + 1) hfin]
      simp [not_outgrows_of_stored_eq]
    | false =>
      obtain ⟨hf, i, hi⟩ := instruction_of_not_finished hfin
      have hgrown := m.stored_follow i
      have hle : m.stored ≤ (m.follow i).stored := by omega
      rw [lacksCell_succ room n hf hi, advance_succ n hf hi, Bool.or_eq_true, Bool.not_eq_true',
        fits_eq_false_iff hgrown, ih, outgrows_iff_or room hle (stored_le_advance n _)]

theorem forthIn_of_finished (n : Nat) {m : Machine} (h : m.finished = true) :
    m.forthIn room n = .ok (none, m) := by
  rw [forthIn, if_pos h]

/-- A request for which there is room for the results. -/
theorem forthIn_of_room {n : Nat} {m : Machine} (h : m.finished = true ∨ n ≤ room.results) :
    m.forthIn room n = room.grant m (m.forth n).2 (m.forth n) := by
  cases hfin : m.finished with
  | true =>
    rw [forthIn_of_finished room n hfin, forth_of_finished n hfin, Room.grant_self]
  | false =>
    have hn : ¬room.results < n := by simpa [hfin] using h
    have hlacks := lacksCell_iff_outgrows room n m
    rw [forthIn, hfin, if_neg Bool.false_ne_true, Room.shortage?, if_neg hn, Room.grant, forth_snd]
    simp only [← hlacks]
    cases room.lacksCell .forth n m <;> rfl

/-- One for which there is none is not begun. -/
theorem forthIn_beyond_room {n : Nat} {m : Machine} (h : m.finished = false)
    (hn : room.results < n) : m.forthIn room n = .error .results := by
  rw [forthIn, h, if_neg Bool.false_ne_true, Room.shortage?, if_pos hn]

/-- A request is answered exactly if there is room for its results and for its cells. -/
theorem exists_forthIn_iff (n : Nat) (m : Machine) :
    (∃ answer, m.forthIn room n = .ok answer) ↔
      (m.finished = true ∨ n ≤ room.results) ∧ ¬m.Outgrows room (m.forth n).2 := by
  by_cases hroom : m.finished = true ∨ n ≤ room.results
  · simp [forthIn_of_room room hroom, Room.grant_eq_ok, hroom]
  · obtain ⟨hfin, hn⟩ : m.finished = false ∧ room.results < n := by simpa using hroom
    simp [forthIn_beyond_room room hfin hn, hroom]

theorem forthIn_one (m : Machine) :
    m.forthIn room 1 = room.grant m (m.forth 1).2 (m.forth 1) :=
  forthIn_of_room room (.inr room.results_pos)

/-- A single step and what comes next, which must not give up cells. There is always room for the
result of a single step. -/
theorem forthIn_one_bind {m : Machine} {nextIn : Machine → Except Shortage Machine}
    {next : Machine → Machine} (hnext : ∀ m, nextIn m = room.grant m (next m) (next m))
    (hstored : ∀ m, m.stored ≤ (next m).stored) :
    (do match ← m.forthIn room 1 with
        | (none, last) => return last
        | (some _, m') => nextIn m') =
      let last := match m.forth 1 with
        | (none, last) => last
        | (some _, m') => next m'
      room.grant m last last := by
  rw [forthIn_one]
  cases hfin : m.finished with
  | true =>
    simp only [forth_of_finished 1 hfin, Room.grant_self]
    rfl
  | false =>
    obtain ⟨hf, i, hi⟩ := instruction_of_not_finished hfin
    simp only [forth_one hf hi]
    refine Room.grant_trans ?_ (hstored (m.follow i)) (hnext (m.follow i))
    rw [stored_follow]
    omega

theorem settleIn_eq (n : Nat) (m : Machine) :
    m.settleIn room n = room.grant m (m.settle n) (m.settle n) := by
  induction n generalizing m with
  | zero => exact (room.grant_self m m).symm
  | succ n ih =>
    refine forthIn_one_bind room ih fun m' => ?_
    rw [settle_eq_advance]
    exact stored_le_advance n m'

theorem runIn_eq (m : Machine) : m.runIn room = room.grant m m.run.2 m.run := by
  rw [runIn, settleIn_eq]
  exact Room.grant_bind rfl

theorem backIn_of_room {n : Nat} {m : Machine} (hn : n ≤ room.results) :
    m.backIn room n =
      if room.lacksCell .back n m then .error .cells else .ok (m.back n) := by
  rw [backIn, Room.shortage?, if_neg (Nat.not_lt.mpr hn)]
  cases room.lacksCell .back n m <;> rfl

/-- Going back is not begun either if there is no room for the results. -/
theorem backIn_beyond_room {n : Nat} {m : Machine} (hn : room.results < n) :
    m.backIn room n = .error .results := by
  rw [backIn, Room.shortage?, if_pos hn]

variable {room}

theorem eq_forth_of_forthIn {n : Nat} {m : Machine} {answer : Option (List Transition) × Machine}
    (h : m.forthIn room n = .ok answer) : answer = m.forth n := by
  have hroom := ((exists_forthIn_iff room n m).mp ⟨answer, h⟩).1
  rw [forthIn_of_room room hroom] at h
  exact (Room.grant_eq_ok.mp h).2.symm

theorem eq_back_of_backIn {n : Nat} {m : Machine}
    {answer : Except Error (List Transition) × Machine} (h : m.backIn room n = .ok answer) :
    answer = m.back n := by
  unfold backIn at h
  split at h
  · cases h
  · cases h
    rfl

theorem eq_run_of_runIn {m : Machine} {answer : Halt × Machine} (h : m.runIn room = .ok answer) :
    answer = m.run := by
  rw [runIn_eq] at h
  exact (Room.grant_eq_ok.mp h).2.symm

/-- What a machine answers to a command in a room. -/
def obeyIn (room : Room) (m : Machine) : Command → Except Shortage (Answer × Machine)
  | .forth n => do
    let (results, last) ← m.forthIn room n
    return (.forth results, last)
  | .back n => do
    let (results, first) ← m.backIn room n
    return (.back results, first)
  | .run => do
    let (halt, last) ← m.runIn room
    return (.run halt, last)
  | .reset => .ok (m.obey .reset)
  | .setLimit limit => .ok (m.obey (.setLimit limit))

/-- The machine after commands in a room, one by one, if all are answered. -/
def afterIn (room : Room) : List Command → Machine → Except Shortage Machine
  | [], m => .ok m
  | c :: commands, m => do
    let (_, next) ← m.obeyIn room c
    afterIn room commands next

theorem eq_obey_of_obeyIn {c : Command} {m : Machine} {answer : Answer × Machine}
    (h : m.obeyIn room c = .ok answer) : answer = m.obey c := by
  cases c with
  | forth n =>
    obtain ⟨step, hstep, h⟩ := bind_eq_ok.mp h
    cases h
    rw [eq_forth_of_forthIn hstep]
    rfl
  | back n =>
    obtain ⟨step, hstep, h⟩ := bind_eq_ok.mp h
    cases h
    rw [eq_back_of_backIn hstep]
    rfl
  | run =>
    obtain ⟨step, hstep, h⟩ := bind_eq_ok.mp h
    cases h
    rw [eq_run_of_runIn hstep]
    rfl
  | reset =>
    cases h
    rfl
  | setLimit limit =>
    cases h
    rfl

/-- Commands that are answered in a room do what they do anyway. -/
theorem eq_after_of_afterIn {commands : List Command} {m last : Machine}
    (h : m.afterIn room commands = .ok last) : last = m.after commands := by
  induction commands generalizing m with
  | nil =>
    cases h
    rfl
  | cons c commands ih =>
    obtain ⟨⟨_, next⟩, hnext, h⟩ := bind_eq_ok.mp h
    obtain rfl : next = (m.obey c).2 := congrArg Prod.snd (eq_obey_of_obeyIn hnext)
    exact ih h

end Machine

end TapeMachine
