import TapeMachine.Machine.Update
import TapeMachine.Proofs.Command

/-!
Failures in place. Every update of a tape, a program or a machine does step by step what a
function does at once, and gets through all that can fail before its first change. Main
statement: an update that fails leaves all of the state as it was.
-/
namespace TapeMachine

namespace Update

variable {σ ρ α : Type}

/-- A failure leaves the state as it was. -/
def Atomic (u : Update σ α) : Prop := ∀ s e s', u.run s = .error e s' → s' = s

/-- A change that is made before a failure stays. -/
example : ¬(do set 1; throw .nothingToUndo : Update Nat Unit).Atomic :=
  fun h => absurd (h 0 _ _ rfl) (by decide)

/-- The update does what `f` does and cannot fail. -/
def Does (u : Update σ Unit) (f : σ → σ) : Prop := ∀ s, u.run s = .ok () (f s)

/-- What is there after an attempt at once: the new state, or an error and the old one. -/
def attempted (s : σ) : Except Error σ → EStateM.Result Error σ Unit
  | .ok s' => .ok () s'
  | .error e => .error e s

/-- The update does what `f` does at once, and has changed nothing where `f` fails. -/
def Performs (u : Update σ Unit) (f : σ → Except Error σ) : Prop :=
  ∀ s, u.run s = attempted s (f s)

/-- The update does what `f` does at once, and a failure leaves no trace of it. -/
structure Realizes (u : Update σ Unit) (f : σ → Except Error σ) : Prop where
  performs : u.Performs f
  atomic : u.Atomic

theorem atomic_of_run {u : Update σ α}
    (h : ∀ s, (∃ a s', u.run s = .ok a s') ∨ ∃ e, u.run s = .error e s) : u.Atomic := by
  intro s e s' herror
  obtain ⟨a, s₁, hok⟩ | ⟨e₁, hfailed⟩ := h s
  · rw [hok] at herror
    cases herror
  · rw [hfailed] at herror
    cases herror
    rfl

theorem Does.bind {u v : Update σ Unit} {f g : σ → σ} (hu : u.Does f) (hv : v.Does g) :
    (u >>= fun _ => v).Does fun s => g (f s) := by
  intro s
  rw [EStateM.run_bind, hu s]
  exact hv (f s)

theorem Does.performs {u : Update σ Unit} {f : σ → σ} (h : u.Does f) :
    u.Performs fun s => .ok (f s) := h

namespace Performs

variable {u v : Update σ Unit} {f f' : σ → Except Error σ} {g : σ → σ}

theorem realizes (h : u.Performs f) : u.Realizes f where
  performs := h
  atomic := by
    refine atomic_of_run fun s => ?_
    rw [h s]
    cases f s with
    | ok s' => exact .inl ⟨(), s', rfl⟩
    | error e => exact .inr ⟨e, rfl⟩

theorem throw (e : Error) : (throw e : Update σ Unit).Performs fun _ => .error e :=
  fun _ => rfl

/-- A check changes nothing, whether it is passed or not. -/
theorem check_bind (x : Except Error α) {next : α → Update σ Unit} {f : α → σ → Except Error σ}
    (h : ∀ a, (next a).Performs (f a)) : (check x >>= next).Performs fun s => x >>= (f · s) := by
  cases x with
  | error e => exact .throw e
  | ok a => exact h a

theorem ite (c : Prop) [Decidable c] (hu : u.Performs f) (hv : v.Performs f') :
    (if c then u else v).Performs fun s => if c then f s else f' s := by
  by_cases hc : c
  · simpa only [if_pos hc] using hu
  · simpa only [if_neg hc] using hv

/-- What comes after the last check cannot fail. -/
theorem bind_does (hu : u.Performs f) (hv : v.Does g) :
    (u >>= fun _ => v).Performs fun s => f s >>= fun s' => .ok (g s') := by
  intro s
  rw [EStateM.run_bind, hu s]
  dsimp only
  cases f s with
  | error e => rfl
  | ok s' => exact hv s'

/-- The present state may be looked at. -/
theorem get_bind {next : σ → Update σ Unit}
    (h : ∀ s, ∃ f', (next s).Performs f' ∧ f' s = f s) : (get >>= next).Performs f := by
  intro s
  obtain ⟨f', hnext, hf⟩ := h s
  rw [← hf]
  exact hnext s

/-- A part that is as before leaves the whole as before. -/
theorem onPart {u : Update ρ Unit} {f : ρ → Except Error ρ} {get : σ → ρ} {set : ρ → σ → σ}
    (hset : ∀ s, set (get s) s = s) (h : u.Performs f) :
    (u.onPart get set).Performs fun s => f (get s) >>= fun r => .ok (set r s) := by
  intro s
  have hu : u (get s) = attempted (get s) (f (get s)) := h (get s)
  rw [EStateM.run, Update.onPart, hu]
  dsimp only
  cases f (get s) with
  | error e => exact congrArg (EStateM.Result.error e) (hset s)
  | ok r => rfl

end Performs

end Update

namespace Tape

theorem accept_does (blank : Option Symbol) (offset : Nat) (cursor : Position)
    (data : List (Option Symbol)) :
    (accept blank offset cursor data).Does fun t =>
      ofCells (blank.getD t.blank) offset cursor data := by
  intro t
  unfold accept ofCells
  cases data with
  | nil => cases blank <;> rfl
  | cons cell data => cases blank <;> rfl

theorem replace_performs (v : Json) : (replace v).Performs (·.load v) := by
  refine .check_bind _ fun d => ?_
  obtain ⟨blank, offset, _ | cursor, _ | data⟩ := d
  · exact .throw _
  · exact .throw _
  · exact .throw _
  · exact .ite _ (.throw _) (accept_does blank offset cursor data).performs

end Tape

theorem Journal.setLimit_setFrames (limit : Option Nat) (frames : List (List Operation))
    (j : Journal) : (j.setFrames frames).setLimit limit = ofFrames limit frames := by
  unfold setFrames ofFrames
  cases (frames.map List.reverse).reverse with
  | nil =>
    cases limit with
    | none => rfl
    | some limit => exact if_pos (Nat.lt_of_lt_of_le Nat.zero_lt_one (Nat.le_max_right limit 1))
  | cons current earlier => rfl

namespace LoggedTape

theorem replace_performs (v : Json) : (replace v).Performs (·.load v) := by
  refine .check_bind _ fun frames => ?_
  refine .get_bind fun t => ?_
  refine ⟨_, .check_bind _ fun limit =>
    .bind_does (.onPart (fun _ => rfl) (Tape.replace_performs v))
      (.bind (fun _ => rfl) fun _ => rfl), ?_⟩
  have hlast (limit : Option Nat) (tape : Tape) :
      setLimit limit ⟨tape, t.journal.setFrames frames⟩ = ⟨tape, .ofFrames limit frames⟩ := by
    rw [setLimit, Journal.setLimit_setFrames]
  -- in place the journal is set in two steps, at once it is made anew
  simp only [bind_assoc, ← hlast]
  rfl

/-- The operations of a frame are taken back one by one. -/
theorem forM_apply_does (inverses : List Operation) :
    (inverses.forM fun op => modify fun t => { t with tape := apply t.tape op } :
      Update LoggedTape Unit).Does fun t => { t with tape := inverses.foldl apply t.tape } := by
  induction inverses with
  | nil => exact fun _ => rfl
  | cons op rest ih => exact .bind (fun _ => rfl) ih

theorem takeBack_run (t : LoggedTape) :
    takeBack.run t = match t.undo with
      | .ok (inverses, t') => .ok inverses t'
      | .error e => .error e t := by
  have hinverses := forM_apply_does t.journal.inverses ⟨t.tape, t.journal.dropFrame⟩
  unfold takeBack undo
  by_cases hexhausted : t.journal.isExhausted
  · simp [hexhausted]
  · simp only [EStateM.run_bind, EStateM.run_get, EStateM.run_modify, hexhausted,
      Bool.false_eq_true, ↓reduceIte]
    rw [hinverses]
    rfl

theorem takeBack_atomic : takeBack.Atomic := by
  refine Update.atomic_of_run fun t => ?_
  rw [takeBack_run]
  cases t.undo with
  | ok done => exact .inl ⟨done.1, done.2, rfl⟩
  | error e => exact .inr ⟨e, rfl⟩

end LoggedTape

namespace HasHead

variable {τ : Type} [HasHead τ]

theorem writeCell_does (s : Symbol) (index : Nat) :
    (writeCell s index : Update τ Unit).Does fun t =>
      write s (if 0 < index then right 1 t else t) := by
  cases index with
  | zero => exact fun _ => rfl
  | succ index => exact fun _ => rfl

/-- A row is written from left to right. -/
theorem forM_writeCell_does (s : Symbol) (rest : List Symbol) (index : Nat) :
    (((s :: rest).zipIdx index).forM fun (s, index) => writeCell s index : Update τ Unit).Does
      fun t => writeRow (s :: rest) (if 0 < index then right 1 t else t) := by
  -- only the first cell of all can have index zero, so the step to the right that a row makes
  -- after a cell is the one that the loop makes before the next
  induction rest generalizing s index with
  | nil => exact (writeCell_does s index).bind fun _ => rfl
  | cons s' rest ih => exact (writeCell_does s index).bind (ih s' (index + 1))

theorem replaceText_performs (text : String) :
    (replaceText text : Update τ Unit).Performs (loadText text) := by
  refine .check_bind _ fun parsed => ?_
  obtain ⟨cells, cursor⟩ := parsed
  have hrow : (cells.zipIdx.forM fun (s, index) => writeCell s index : Update τ Unit).Does
      (writeRow cells) := by
    cases cells with
    | nil => exact fun _ => rfl
    | cons s rest => exact forM_writeCell_does s rest 0
  have hclear : (modify clear : Update τ Unit).Does clear := fun _ => rfl
  exact (hclear.bind (hrow.bind fun _ => rfl)).performs

end HasHead

theorem Program.replace_performs (v : Json) :
    (Program.replace v).Performs fun _ => MachineDocument.decodeProgram v := by
  refine .check_bind _ fun rows => ?_
  exact fun _ => rfl

namespace Machine

theorem accept_does (d : MachineDocument) :
    (accept d).Does fun m => ofDocument d m.name m.cap := by
  intro m
  unfold accept ofDocument
  cases d.name with
  | none => rfl
  | some name => rfl

theorem replace_performs (document : Json) : (replace document).Performs (·.load document) := by
  refine .get_bind fun m => ?_
  exact ⟨_, .check_bind _ fun d => (accept_does d).performs, rfl⟩

theorem replaceFinals_performs (finals : List State) :
    (replaceFinals finals).Performs (·.setFinals finals) :=
  .check_bind _ fun _ _ => rfl

theorem restart_performs : restart.Performs reset := by
  refine .get_bind fun m => ?_
  refine ⟨_, .bind_does (.onPart (fun _ => rfl) (LoggedTape.replace_performs m.initialTape))
    (.bind (fun _ => rfl) fun _ => rfl), ?_⟩
  simp only [bind_assoc]
  rfl

end Machine

/-- Tapes of one sort are replaced in place as they are at once, by a document or by a text, and
a failure leaves them as they were. -/
structure ReplacedCleanly (τ : Type) [HasHead τ] [Replaceable τ] : Prop where
  document : ∀ v, (Replaceable.replace v : Update τ Unit).Realizes (HasHead.load v)
  text : ∀ text, (HasHead.replaceText text : Update τ Unit).Realizes (HasHead.loadText text)

namespace ReplacedCleanly

theorem tape : ReplacedCleanly Tape where
  document v := (Tape.replace_performs v).realizes
  text text := (HasHead.replaceText_performs text).realizes

theorem loggedTape : ReplacedCleanly LoggedTape where
  document v := (LoggedTape.replace_performs v).realizes
  text text := (HasHead.replaceText_performs text).realizes

/-- A layer hands the document on, and writes a text through what is inside. -/
theorem layer {τ : Type} [HasHead τ] [Replaceable τ] (h : ReplacedCleanly τ) :
    ReplacedCleanly (Layer τ) where
  document v := (Update.Performs.onPart (fun _ => rfl) (h.document v).performs).realizes
  text text := (HasHead.replaceText_performs text).realizes

end ReplacedCleanly

/-- Tapes of every layer that a document or a text replaces, a frame taken back, a program, a
machine and its final states replaced, and a machine that starts again: each is changed in place
as it is at once, and if that fails, every part is as it was. -/
theorem failure_leaves_no_trace :
    ReplacedCleanly Tape ∧ ReplacedCleanly LoggedTape ∧ ReplacedCleanly (Layer Tape) ∧
    ReplacedCleanly (Layer LoggedTape) ∧ ReplacedCleanly (Layer (Layer LoggedTape)) ∧
    (∀ (τ : Type) [HasHead τ] [Replaceable τ], ReplacedCleanly τ → ReplacedCleanly (Layer τ)) ∧
    (LoggedTape.takeBack.Atomic ∧ ∀ t, LoggedTape.takeBack.run t = match t.undo with
      | .ok (inverses, t') => .ok inverses t'
      | .error e => .error e t) ∧
    (∀ v, (Program.replace v).Realizes fun _ => MachineDocument.decodeProgram v) ∧
    (∀ document, (Machine.replace document).Realizes (·.load document)) ∧
    (∀ finals, (Machine.replaceFinals finals).Realizes (·.setFinals finals)) ∧
    Machine.restart.Realizes Machine.reset :=
  ⟨.tape, .loggedTape, .layer .tape, .layer .loggedTape, .layer (.layer .loggedTape),
    fun _ _ _ h => h.layer, ⟨LoggedTape.takeBack_atomic, LoggedTape.takeBack_run⟩,
    fun v => (Program.replace_performs v).realizes,
    fun document => (Machine.replace_performs document).realizes,
    fun finals => (Machine.replaceFinals_performs finals).realizes,
    Machine.restart_performs.realizes⟩

namespace Stroke

/-- A tape with a journal, a limit and a blank of its own, and fewer cells than stand before
zero. -/
def overrun : Json :=
  .object [("blank_symbol", .string "_"), ("cursor", .int 1), ("data", .array [.string "1"]),
    ("history", .array [.array [.array [.int 2]]]), ("history_size", .int 1), ("offset", .int 2)]

/-- A machine that has entered no state but the first, and says that it has done three steps. -/
def miscounted : Json :=
  .object [("final_states", .array [.string "end"]), ("name", .string "other"),
    ("program", .array []), ("state_history", .array [.string "end"]), ("step", .int 3),
    ("tape", .object [("cursor", .int 1), ("data", .array [])])]

end Stroke

theorem failure_leaves_no_trace_late :
    (Replaceable.replace Stroke.overrun : Update (Layer (Layer LoggedTape)) Unit).run
      ⟨⟨Stroke.tape⟩⟩ = .error (.offsetTooLarge 2 1) ⟨⟨Stroke.tape⟩⟩ ∧
    ∃ m, Machine.new Stroke.program Stroke.tape [Stroke.ended] Stroke.going = .ok m ∧
      (Machine.replace Stroke.miscounted).run m = .error (.stepMismatch 3 1) m ∧
      let lost := { m with initialTape := Stroke.overrun }
      Machine.restart.run lost = .error (.offsetTooLarge 2 1) lost := by
  obtain ⟨_, _, _, _, htape, _, _, _, hreplace, _, hrestart⟩ := failure_leaves_no_trace
  obtain ⟨t, ht⟩ : ∃ t, (Replaceable.replace Stroke.overrun :
      Update (Layer (Layer LoggedTape)) Unit).run ⟨⟨Stroke.tape⟩⟩ =
        .error (.offsetTooLarge 2 1) t := ⟨_, rfl⟩
  obtain ⟨m, hm⟩ : ∃ m,
      Machine.new Stroke.program Stroke.tape [Stroke.ended] Stroke.going = .ok m := ⟨_, rfl⟩
  obtain ⟨m₁, hm₁⟩ : ∃ m₁, (Machine.replace Stroke.miscounted).run m =
      .error (.stepMismatch 3 1) m₁ := ⟨_, rfl⟩
  obtain ⟨m₂, hm₂⟩ : ∃ m₂, Machine.restart.run { m with initialTape := Stroke.overrun } =
      .error (.offsetTooLarge 2 1) m₂ := ⟨_, rfl⟩
  refine ⟨?_, m, hm, ?_, ?_⟩
  · rw [ht, (htape.document _).atomic _ _ _ ht]
  · rw [hm₁, (hreplace _).atomic _ _ _ hm₁]
  · exact hm₂.trans (congrArg _ (hrestart.atomic _ _ _ hm₂))

end TapeMachine
