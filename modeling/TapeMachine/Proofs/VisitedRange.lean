import TapeMachine.Proofs.AnyLayer
import TapeMachine.Proofs.Sets
import TapeMachine.Proofs.Visited

/-!
The visited range in any layers. Edits that do not put another tape in the place of the one
there was only widen it. Main statement: the range always holds the head and all that has
been written, so a walk over it meets every written cell once, from left to right, and
collects every symbol that is stored.
-/
namespace TapeMachine

/-- Edits that put another tape in the place of the one there was. -/
def HeadEdit.Replaces {τ : Type} [HasHead τ] : HeadEdit → τ → Prop
  | .clear, _ | .fill _, _ | .loadText _, _ => True
  | .load document, t => ∃ u, HasHead.load document t = .ok u
  | _, _ => False

def Edit.Replaces {τ : Type} [HasHead τ] : Edit → τ → Prop
  | .head e, t => e.Replaces t
  | .snapshot, _ | .undo, _ | .setLimit _, _ => False

section Replacing

variable {τ : Type} [HasHead τ] {t : τ}

/-- A document that is refused leaves the tape as it is. -/
theorem HeadEdit.perform_load_of_not_replaces {document : Json}
    (h : ¬(HeadEdit.load document).Replaces t) : (HeadEdit.load document).perform t = t := by
  simp only [perform]
  cases hload : HasHead.load document t with
  | error e => rfl
  | ok u => exact absurd ⟨u, hload⟩ h

theorem Edit.replaces_of_layer {e : Edit} (h : e.Replaces t) : e.Replaces (Layer.mk t) := by
  cases e with
  | head e =>
    cases e with
    | load document =>
      obtain ⟨u, hu⟩ := h
      exact ⟨⟨u⟩, Layer.load_eq_ok.mpr hu⟩
    | _ => exact h
  | _ => exact h

end Replacing

namespace Tape

/-- All that has been visited of `t` has been visited of `u`. -/
structure Widens (t u : Tape) : Prop where
  first : u.first ≤ t.first
  last : t.last ≤ u.last

variable {t u v : Tape}

theorem Widens.refl (t : Tape) : t.Widens t := ⟨Int.le_refl _, Int.le_refl _⟩

theorem Widens.trans (h : t.Widens u) (h' : u.Widens v) : t.Widens v :=
  ⟨Int.le_trans h'.first h.first, Int.le_trans h.last h'.last⟩

theorem widens_touch (t : Tape) (i : Int) : t.Widens (t.touch i) :=
  ⟨Int.min_le_left _ _, Int.le_max_left _ _⟩

theorem widens_put (t : Tape) (i : Int) (c : Option Symbol) : t.Widens (t.put i c) :=
  ⟨Int.min_le_left _ _, Int.le_max_left _ _⟩

theorem widens_moveTo (t : Tape) (p : Position) : t.Widens (t.moveTo p) :=
  ⟨Int.min_le_left _ _, Int.le_max_left _ _⟩

theorem widens_readAll (ps : List Position) (t : Tape) :
    t.Widens (HasHead.readAll ps t).2 := by
  induction ps generalizing t with
  | nil => exact .refl t
  | cons p ps ih => exact (t.widens_touch p.index).trans (ih _)

theorem widens_foldl_apply (ops : List Operation) (t : Tape) :
    t.Widens (ops.foldl LoggedTape.apply t) := by
  induction ops generalizing t with
  | nil => exact .refl t
  | cons op ops ih =>
    have hop : t.Widens (LoggedTape.apply t op) := by
      cases op with
      | write old new => exact t.widens_put _ new
      | move d => exact t.widens_moveTo _
    exact hop.trans (ih _)

theorem widens_perform {e : HeadEdit} (h : ¬e.Replaces t) : t.Widens (e.perform t) := by
  cases e with
  | write s => exact t.widens_put _ _
  | left n => exact t.widens_moveTo _
  | right n => exact t.widens_moveTo _
  | moveTo p => exact t.widens_moveTo p
  | moveBy motion =>
    cases motion with
    | left => exact t.widens_moveTo _
    | right => exact t.widens_moveTo _
    | stop => exact .refl t
    | halt => exact .refl t
  | readAt p => exact t.widens_touch p.index
  | window p count =>
    simp only [HeadEdit.perform, HasHead.window]
    split
    · exact .refl t
    · exact widens_readAll _ t
  | clear => exact absurd trivial h
  | fill symbols => exact absurd trivial h
  | loadText text => exact absurd trivial h
  | load document =>
    rw [HeadEdit.perform_load_of_not_replaces h]
    exact .refl t

theorem widens_undo (t : LoggedTape) : t.tape.Widens (Edit.undo.perform t).tape := by
  by_cases hx : t.journal.stack = [[]]
  · rw [Edit.perform_undo_of_exhausted hx]
    exact .refl _
  · rw [Edit.perform_undo_of_not_exhausted hx]
    exact widens_foldl_apply _ _

/-- What is read on the visited cells. -/
def reading (t : Tape) : List Symbol := (span t.first t.last).map t.symbolAt

theorem snd_visited : t.visited.map Prod.snd = t.reading := by
  simp [visited, reading, Function.comp_def]

/-- A walk over the visited range goes from left to right. -/
theorem visited_increasing (t : Tape) : (t.visited.map Prod.fst).Pairwise (· < ·) := by
  have hfst : t.visited.map Prod.fst = span t.first t.last := by
    simp [visited, Function.comp_def]
  rw [hfst]
  exact span_increasing t.first t.last

/-- It meets every written cell. -/
theorem Covered.mem_visited (h : t.Covered) {i : Int} {s : Symbol} (hs : t.cell i = some s) :
    (i, s) ∈ t.visited := by
  have hrange := h.written i (by rw [hs]; rfl)
  refine List.mem_map.mpr ⟨i, mem_span.mpr hrange, ?_⟩
  rw [symbolAt, hs]
  rfl

/-- It meets no cell twice. -/
theorem count_visited {i : Int} {s : Symbol} (h : (i, s) ∈ t.visited) :
    (t.visited.map Prod.fst).count i = 1 := by
  have hnodup : (t.visited.map Prod.fst).Nodup := t.visited_increasing.imp Int.ne_of_lt
  rw [hnodup.count, if_pos (List.mem_map.mpr ⟨(i, s), h, rfl⟩)]

theorem contains_alphabet {i : Int} {s : Symbol} (h : (i, s) ∈ t.visited) :
    t.alphabet.contains s = true :=
  (SortedBy.contains_ofList _ s).mpr (List.mem_map.mpr ⟨(i, s), h, rfl⟩)

end Tape

namespace HasHead

variable {τ : Type} [HasHead τ] {t u : τ}

theorem widens_perform [Truthful τ] {e : HeadEdit} (h : ¬e.Replaces t) :
    (tape t).Widens (tape (e.perform t)) := by
  cases e with
  | load document =>
    rw [HeadEdit.perform_load_of_not_replaces h]
    exact .refl _
  | _ =>
    rw [Transparent.perform]
    · exact Tape.widens_perform h
    · trivial

/-- In all layers an edit that replaces nothing widens the visited range. -/
theorem Step.widens {e : Edit} (hstep : Step e t u) (hτ : Truthful τ) (h : ¬e.Replaces t) :
    (tape t).Widens (tape u) := by
  induction hstep with
  | head e t => exact widens_perform h
  | journal e t =>
    cases e with
    | head e => exact widens_perform h
    | snapshot => exact .refl _
    | undo => exact Tape.widens_undo t
    | setLimit limit => exact .refl _
  | inside _ ih => exact ih hτ.ofLayer fun hinner => h (Edit.replaces_of_layer hinner)

end HasHead

/-- Of every reachable tape, in whatever layers: the head and all written cells are within the
visited range, and no more cells are stored before zero than in all; edits widen the range unless
they replace the tape; a walk over it goes from left to right and meets every written cell exactly
once; and the alphabet has every symbol that is stored. -/
theorem visited_range_covers {τ : Type} [HasHead τ] {t : τ} (h : HasHead.Reachable t) :
    let shown := HasHead.tape t
    (shown.first ≤ shown.cursor.index ∧ shown.cursor.index ≤ shown.last) ∧
    (∀ i s, shown.cell i = some s → shown.first ≤ i ∧ i ≤ shown.last) ∧
    shown.offset ≤ shown.cells.size ∧
    (∀ (e : Edit) (u : τ), HasHead.Step e t u → ¬e.Replaces t →
      (HasHead.tape u).first ≤ shown.first ∧ shown.last ≤ (HasHead.tape u).last) ∧
    (shown.visited.map Prod.fst).Pairwise (· < ·) ∧
    ∀ i s, shown.cell i = some s →
      (i, s) ∈ shown.visited ∧ (shown.visited.map Prod.fst).count i = 1 ∧
        shown.alphabet.contains s = true := by
  intro shown
  obtain ⟨htruthful, hattainable⟩ := h.truthful
  have hcovered : shown.Covered := hattainable.covered
  refine ⟨hcovered.head, fun i s hs => ?_, hattainable.offset_le_size, fun e u hstep he => ?_,
    shown.visited_increasing, fun i s hs => ?_⟩
  · exact hcovered.written i (by rw [hs]; rfl)
  · have hwidens := hstep.widens htruthful he
    exact ⟨hwidens.first, hwidens.last⟩
  · have hmem := hcovered.mem_visited hs
    exact ⟨hmem, Tape.count_visited hmem, Tape.contains_alphabet hmem⟩

/-- A tape in two layers that was filled and then written further left, which was taken back. -/
def retraced : Layer (Layer LoggedTape) :=
  let filled := (HeadEdit.fill [.ofText "a", .ofText "b"]).perform
    (Layer.mk (Layer.mk (LoggedTape.recording (.empty .space) none)))
  let written := (HeadEdit.write (.ofText "c")).perform
    ((HeadEdit.left 2).perform (Layer.mk (Layer.mk (Edit.snapshot.perform filled.inner.inner))))
  ⟨⟨Edit.undo.perform written.inner.inner⟩⟩

theorem reachable_retraced : HasHead.Reachable retraced := by
  have hstart := HasHead.Reachable.recording none (.empty .space)
  have hfilled := hstart.layer.layer.step (.head (.fill [.ofText "a", .ofText "b"]) _)
  have hopened := hfilled.step (.inside (.inside (.journal .snapshot _)))
  have hmoved := hopened.step (.head (.left 2) _)
  have hwritten := hmoved.step (.head (.write (.ofText "c")) _)
  exact hwritten.step (.inside (.inside (.journal .undo _)))

theorem visited_range_covers_retraced :
    let shown := HasHead.tape retraced
    let read := HasHead.tape ((HeadEdit.readAt (.ofInt 5)).perform retraced)
    HasHead.Reachable retraced ∧ shown.first = -2 ∧ shown.cell (-2) = none ∧
    shown.cell 1 = some (.ofText "b") ∧ (1, .ofText "b") ∈ shown.visited ∧
    shown.alphabet.contains (.ofText "b") = true ∧
    HasHead.Step (.head (.readAt (.ofInt 5))) retraced
      ((HeadEdit.readAt (.ofInt 5)).perform retraced) ∧
    read.first ≤ shown.first ∧ shown.last ≤ read.last := by
  intro shown read
  have hcell : shown.cell 1 = some (.ofText "b") := rfl
  obtain ⟨_, _, _, hwidens, _, hvisited⟩ := visited_range_covers reachable_retraced
  obtain ⟨hmem, _, halphabet⟩ := hvisited 1 _ hcell
  have hstep : HasHead.Step (.head (.readAt (.ofInt 5))) retraced
      ((HeadEdit.readAt (.ofInt 5)).perform retraced) := .head _ _
  exact ⟨reachable_retraced, rfl, rfl, hcell, hmem, halphabet, hstep, hwidens _ _ hstep id⟩

end TapeMachine
