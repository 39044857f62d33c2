import TapeMachine.Proofs.Edit
import TapeMachine.Tape.Layer

/-!
Tapes with a head, whatever is around them. A journal and a layer do to the tape they show
what is asked of them, and everything else is made of such operations. Main statement: a
plain tape, one with a journal and one inside of layers answer every sequence of edits
alike and show the same after each of them.
-/
namespace TapeMachine

/-- The entries about a journal can be read, where a document has them. -/
def Journal.Legible (document : Json) : Prop :=
  (∃ frames, decodeFrames document = .ok frames) ∧
    ∀ present, ∃ limit, decodeLimit present document = .ok limit

/-- Whatever is done to such a tape is done to the tape it shows. -/
class Transparent (τ : Type) [HasHead τ] : Prop where
  visit : ∀ p (t : τ), HasHead.tape (HasHead.visit p t) = (HasHead.tape t).touch p.index
  write : ∀ s (t : τ), HasHead.tape (HasHead.write s t) = (HasHead.tape t).write s
  left : ∀ n (t : τ), HasHead.tape (HasHead.left n t) = (HasHead.tape t).left n
  right : ∀ n (t : τ), HasHead.tape (HasHead.right n t) = (HasHead.tape t).right n
  moveTo : ∀ p (t : τ), HasHead.tape (HasHead.moveTo p t) = (HasHead.tape t).moveTo p
  clear : ∀ t : τ, HasHead.tape (HasHead.clear t) = (HasHead.tape t).clear
  load : ∀ v (t : τ), Journal.Legible v →
    HasHead.tape <$> HasHead.load v t = (HasHead.tape t).load v

instance : Transparent Tape where
  visit _ _ := rfl
  write _ _ := rfl
  left _ _ := rfl
  right _ _ := rfl
  moveTo _ _ := rfl
  clear _ := rfl
  load v t _ := id_map (t.load v)

/-- Recording changes nothing, and moves by a count go to the position where the head of a plain
tape stops. -/
instance : Transparent LoggedTape where
  visit _ _ := rfl
  write _ _ := rfl
  left _ _ := rfl
  right _ _ := rfl
  moveTo _ _ := rfl
  clear _ := rfl
  load v t h := by
    obtain ⟨⟨frames, hframes⟩, hlimits⟩ := h
    obtain ⟨limit, hlimit⟩ := hlimits t.journal.limit
    change LoggedTape.tape <$> t.load v = t.tape.load v
    simp only [LoggedTape.load, hframes, hlimit, bind, Except.bind]
    cases t.tape.load v <;> rfl

instance (τ : Type) [HasHead τ] [Transparent τ] : Transparent (Layer τ) where
  visit p t := Transparent.visit p t.inner
  write s t := Transparent.write s t.inner
  left n t := Transparent.left n t.inner
  right n t := Transparent.right n t.inner
  moveTo p t := Transparent.moveTo p t.inner
  clear t := Transparent.clear t.inner
  load v t h := by
    rw [← show HasHead.tape t.inner = HasHead.tape t from rfl, ← Transparent.load v t.inner h]
    change HasHead.tape <$> Layer.mk <$> HasHead.load v t.inner = _
    cases HasHead.load v t.inner <;> rfl

/-- What a tape answers to an edit. -/
inductive Reply where
  | done
  | symbol (s : Symbol)
  | symbols (result : Except Error (List Symbol))
  | outcome (result : Except Error Unit)

namespace HeadEdit

/-- Edits that do not fail at the journal of a document. -/
def Legible : HeadEdit → Prop
  | .load document => Journal.Legible document
  | _ => True

variable {τ : Type} [HasHead τ]

def reply : HeadEdit → τ → Reply
  | .readAt p, t => .symbol (HasHead.readAt p t).1
  | .window p count, t => .symbols (Prod.fst <$> HasHead.window p count t)
  | .loadText text, t => .outcome (discard (HasHead.loadText text t))
  | .load document, t => .outcome (discard (HasHead.load document t))
  | _, _ => .done

/-- One edit after the other. -/
def performAll (edits : List HeadEdit) (t : τ) : τ := edits.foldl (fun t e => e.perform t) t

/-- The answers to edits, one by one. -/
def replies : List HeadEdit → τ → List Reply
  | [], _ => []
  | e :: edits, t => e.reply t :: replies edits (e.perform t)

end HeadEdit

namespace Transparent

variable {τ : Type} [HasHead τ] [Transparent τ]

theorem readAll (ps : List Position) (t : τ) :
    (HasHead.readAll ps t).1 = (HasHead.readAll ps (HasHead.tape t)).1 ∧
      HasHead.tape (HasHead.readAll ps t).2 = (HasHead.readAll ps (HasHead.tape t)).2 := by
  induction ps generalizing t with
  | nil => exact ⟨rfl, rfl⟩
  | cons p ps ih =>
    obtain ⟨hsymbols, htape⟩ := ih (HasHead.visit p t)
    rw [Transparent.visit] at hsymbols htape
    exact ⟨congrArg ((HasHead.tape t).symbolAt p.index :: ·) hsymbols, htape⟩

theorem writeRow (symbols : List Symbol) (t : τ) :
    HasHead.tape (HasHead.writeRow symbols t) = HasHead.writeRow symbols (HasHead.tape t) := by
  induction symbols generalizing t with
  | nil => rfl
  | cons s rest ih =>
    cases rest with
    | nil => exact Transparent.write s t
    | cons s' rest =>
      have htape := ih (HasHead.right 1 (HasHead.write s t))
      rw [Transparent.right, Transparent.write] at htape
      exact htape

theorem fill (symbols : List Symbol) (cursor : Position) (t : τ) :
    HasHead.tape (HasHead.fill symbols cursor t) =
      HasHead.fill symbols cursor (HasHead.tape t) := by
  rw [HasHead.fill, Transparent.moveTo, writeRow, Transparent.clear]
  rfl

theorem moveBy (motion : Motion) (t : τ) :
    HasHead.tape (HasHead.moveBy motion t) = HasHead.moveBy motion (HasHead.tape t) := by
  cases motion with
  | left => exact Transparent.left 1 t
  | right => exact Transparent.right 1 t
  | stop => rfl
  | halt => rfl

/-- An edit does to the shown tape what it would do to a plain one. -/
theorem perform {e : HeadEdit} (h : e.Legible) (t : τ) :
    HasHead.tape (e.perform t) = e.perform (HasHead.tape t) := by
  cases e with
  | write s => exact Transparent.write s t
  | left n => exact Transparent.left n t
  | right n => exact Transparent.right n t
  | moveTo p => exact Transparent.moveTo p t
  | moveBy motion => exact moveBy motion t
  | readAt p => exact Transparent.visit p t
  | window p count =>
    simp only [HeadEdit.perform, HasHead.window]
    split
    · rfl
    · exact (readAll _ t).2
  | clear => exact Transparent.clear t
  | fill symbols => exact fill symbols .origin t
  | loadText text =>
    simp only [HeadEdit.perform, HasHead.loadText]
    cases TapeText.parse text with
    | error fault => rfl
    | ok parsed => exact fill _ _ t
  | load document =>
    have hload : HasHead.tape <$> HasHead.load document t = _ := Transparent.load document t h
    change HasHead.tape (settled t (HasHead.load document t)) =
      settled (HasHead.tape t) ((HasHead.tape t).load document)
    rw [← hload]
    cases HasHead.load document t <;> rfl

/-- It is answered as by a plain tape. -/
theorem reply {e : HeadEdit} (h : e.Legible) (t : τ) : e.reply t = e.reply (HasHead.tape t) := by
  cases e with
  | window p count =>
    simp only [HeadEdit.reply, HasHead.window]
    split
    · rfl
    · exact congrArg (fun ss => Reply.symbols (.ok ss)) (readAll _ t).1
  | loadText text =>
    simp only [HeadEdit.reply, HasHead.loadText]
    cases TapeText.parse text <;> rfl
  | load document =>
    have hload : HasHead.tape <$> HasHead.load document t = _ := Transparent.load document t h
    change Reply.outcome (discard (HasHead.load document t)) =
      Reply.outcome (discard ((HasHead.tape t).load document))
    rw [← hload]
    cases HasHead.load document t <;> rfl
  | _ => rfl

/-- So it is for edits one after the other. -/
theorem performAll {edits : List HeadEdit} (h : ∀ e ∈ edits, e.Legible) (t : τ) :
    HeadEdit.replies edits t = HeadEdit.replies edits (HasHead.tape t) ∧
      HasHead.tape (HeadEdit.performAll edits t) =
        HeadEdit.performAll edits (HasHead.tape t) := by
  induction edits generalizing t with
  | nil => exact ⟨rfl, rfl⟩
  | cons e edits ih =>
    have he := h e List.mem_cons_self
    obtain ⟨hreplies, htape⟩ := ih (fun e hmem => h e (List.mem_cons_of_mem _ hmem)) (e.perform t)
    rw [perform he] at hreplies htape
    refine ⟨?_, htape⟩
    rw [HeadEdit.replies, reply he, hreplies]
    rfl

end Transparent

/-- Two tapes answer edits alike and show the same after them: the same cells, the same place of
the head, the same visited range and the same blank. -/
structure ShowAlike {τ σ : Type} [HasHead τ] [HasHead σ] (edits : List HeadEdit) (t : τ) (u : σ) :
    Prop where
  replies : HeadEdit.replies edits t = HeadEdit.replies edits u
  cell : ∀ i, (HasHead.tape (HeadEdit.performAll edits t)).cell i =
    (HasHead.tape (HeadEdit.performAll edits u)).cell i
  cursor : (HasHead.tape (HeadEdit.performAll edits t)).cursor =
    (HasHead.tape (HeadEdit.performAll edits u)).cursor
  first : (HasHead.tape (HeadEdit.performAll edits t)).first =
    (HasHead.tape (HeadEdit.performAll edits u)).first
  last : (HasHead.tape (HeadEdit.performAll edits t)).last =
    (HasHead.tape (HeadEdit.performAll edits u)).last
  blank : (HasHead.tape (HeadEdit.performAll edits t)).blank =
    (HasHead.tape (HeadEdit.performAll edits u)).blank

/-- A plain tape and one that shows it at the start show the same for ever. -/
theorem showAlike_of_tape_eq {τ : Type} [HasHead τ] [Transparent τ] {edits : List HeadEdit}
    (h : ∀ e ∈ edits, e.Legible) {t : Tape} {u : τ} (htu : HasHead.tape u = t) :
    ShowAlike edits t u := by
  obtain ⟨hreplies, htape⟩ := Transparent.performAll h u
  rw [htu] at hreplies htape
  have hsame : HasHead.tape (HeadEdit.performAll edits t) =
      HasHead.tape (HeadEdit.performAll edits u) := htape.symm
  exact ⟨hreplies.symm, fun i => by rw [hsame], by rw [hsame], by rw [hsame], by rw [hsame],
    by rw [hsame]⟩

/-- Empty tapes with the same blank, plain, with a journal of any limit, in a layer, or in two
layers: to every sequence of edits they give the same answers, and they show the same after it, if
the journals of documents among the edits can be read. -/
theorem layers_show_same_tape (blank : Symbol) (limit : Option Nat) (edits : List HeadEdit)
    (h : ∀ document, HeadEdit.load document ∈ edits → Journal.Legible document) :
    let plain := Tape.empty blank
    let logged := LoggedTape.empty blank limit
    ShowAlike edits plain logged ∧
    ShowAlike edits plain (Layer.mk plain) ∧
    ShowAlike edits plain (Layer.mk logged) ∧
    ShowAlike edits plain (Layer.mk (Layer.mk logged)) := by
  have hlegible : ∀ e ∈ edits, e.Legible := by
    intro e he
    cases e with
    | load document => exact h document he
    | _ => exact trivial
  exact ⟨showAlike_of_tape_eq hlegible rfl, showAlike_of_tape_eq hlegible rfl,
    showAlike_of_tape_eq hlegible rfl, showAlike_of_tape_eq hlegible rfl⟩

/-- A document that gives a journal of two frames and room for one. -/
def framedDocument : Json :=
  .object [("cursor", .int 1), ("data", .array [.string "1", .null, .string "0"]),
    ("history", .array [.array [.array [.string "w", .null, .string "1"]],
      .array [.array [.int 2]]]), ("history_size", .int 1), ("offset", .int 1)]

theorem layers_show_same_tape_framed :
    let edits : List HeadEdit :=
      [.right 18446744073709551615, .right 1, .readAt (.ofInt (-3)), .load framedDocument,
        .window (.ofInt 0) 2, .window (.ofInt 0) 3, .write (.ofText "x"), .loadText "1, **, *"]
    (∀ document, HeadEdit.load document ∈ edits → Journal.Legible document) ∧
    ShowAlike edits (Tape.empty .space)
      (Layer.mk (Layer.mk (LoggedTape.empty .space (some 0)))) := by
  intro edits
  have hframed : Journal.Legible framedDocument := ⟨⟨_, rfl⟩, fun _ => ⟨_, rfl⟩⟩
  have hlegible : ∀ document, HeadEdit.load document ∈ edits → Journal.Legible document := by
    intro document hmem
    have hdocument : document = framedDocument := by simpa [edits] using hmem
    exact hdocument ▸ hframed
  exact ⟨hlegible, (layers_show_same_tape .space (some 0) edits hlegible).2.2.2⟩

end TapeMachine
