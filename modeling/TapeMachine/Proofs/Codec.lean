import TapeMachine.Program.Document
import TapeMachine.Tape.Journal

/-!
Values survive the way into a document and back: symbols, states, motions, positions,
rows of a program, operations and journals. Lists and options of such values do too.
-/
namespace TapeMachine

namespace Json.Decode

theorem mapM_map_ok {ε : Type} {encode : α → Json} {decode : Json → Except ε α}
    (h : ∀ a, decode (encode a) = .ok a) (xs : List α) :
    (xs.map encode).mapM decode = .ok xs := by
  induction xs with
  | nil => rfl
  | cons x xs ih =>
    rw [List.map_cons, List.mapM_cons, h, ih]
    rfl

theorem list_list {encode : α → Json} {decode : Decoder α}
    (h : ∀ a, decode (encode a) = .ok a) (xs : List α) :
    list decode (Json.list encode xs) = .ok xs :=
  mapM_map_ok h xs

/-- A value whose document is not `null` is not taken for a missing one. -/
theorem optional_ofOption {encode : α → Json} {decode : Decoder α}
    (h : ∀ a, decode (encode a) = .ok a) (hn : ∀ a, encode a ≠ .null) (c : Option α) :
    optional decode (Json.ofOption encode c) = .ok c := by
  cases c with
  | none => rfl
  | some a =>
    change optional decode (encode a) = .ok (some a)
    unfold optional
    split
    next he => exact absurd he (hn a)
    next => rw [h]; rfl

theorem converted_of_ok {convert : Json → Except Rejection α} {v : Json} {a : α}
    (h : convert v = .ok a) : converted convert v = .ok a := by
  rw [converted, h]
  rfl

theorem within_int (wanted : Shape) {least greatest i : Int} (hl : least ≤ i) (hg : i ≤ greatest) :
    within wanted least greatest (.int i) = .ok i :=
  if_pos ⟨hl, hg⟩

theorem count_nat {n : Nat} (h : n ≤ greatestCount) : count (.nat n) = .ok n := by
  rw [count, within_int .count (Int.natCast_nonneg n) (Int.ofNat_le.mpr h)]
  rfl

end Json.Decode

namespace Symbol

theorem ofText_text (s : Symbol) : ofText s.text = s := by
  apply ext
  simp only [ofText, s.normal]

@[simp] theorem decode_toJson (s : Symbol) : decode s.toJson = .ok s := by
  apply Json.Decode.converted_of_ok
  simp only [ofJson?, toJson, Json.scalarText?, ofText_text]

@[simp] theorem optional_cellToJson (c : Option Symbol) :
    Json.Decode.optional decode (Operation.cellToJson c) = .ok c :=
  Json.Decode.optional_ofOption decode_toJson (fun _ => Json.noConfusion) c

@[simp] theorem optional_toJson (s : Symbol) :
    Json.Decode.optional decode s.toJson = .ok (some s) :=
  optional_cellToJson (some s)

@[simp] theorem optional_cells (data : List (Option Symbol)) :
    Json.Decode.optional (Json.Decode.list (Json.Decode.optional decode))
      (Json.list Operation.cellToJson data) = .ok (some data) :=
  Json.Decode.optional_ofOption (Json.Decode.list_list optional_cellToJson)
    (fun _ => Json.noConfusion) (some data)

end Symbol

namespace State

theorem ofText?_name (q : State) : ofText? q.name = .ok q := by
  have hne : Text.trim q.name ≠ "" := by
    rw [q.trimmed]
    exact q.nonempty
  rw [ofText?, dif_neg hne]
  exact congrArg Except.ok (ext q.trimmed)

@[simp] theorem decode_toJson (q : State) : decode q.toJson = .ok q := by
  apply Json.Decode.converted_of_ok
  simp only [ofJson?, toJson, Json.scalarText?, ofText?_name]

end State

namespace Motion

@[simp] theorem decode_toJson (m : Motion) : decode m.toJson = .ok m := by
  cases m <;> rfl

end Motion

namespace Instruction

@[simp] theorem decode_toJson (i : Instruction) : decode i.toJson = .ok i := by
  simp [decode, toJson, Json.Decode.triple, bind, Except.bind, pure, Except.pure]

end Instruction

namespace Row

@[simp] theorem decode_toJson (r : Row) : decode r.toJson = .ok r := by
  simp [decode, toJson, Json.Decode.triple, bind, Except.bind, pure, Except.pure]

end Row

namespace Position

@[simp] theorem decode_toJson (p : Position) : decode p.toJson = .ok p := by
  rw [decode, toJson, Json.Decode.within_int .integer p.lower p.upper]
  exact congrArg Except.ok (ext (clamp_of_mem p.lower p.upper))

@[simp] theorem optional_toJson (p : Position) :
    Json.Decode.optional decode p.toJson = .ok (some p) :=
  Json.Decode.optional_ofOption decode_toJson (fun _ => Json.noConfusion) (some p)

end Position

namespace Operation

theorem cellOfJson?_cellToJson (c : Option Symbol) : cellOfJson? (cellToJson c) = some c := by
  rw [cellOfJson?, Symbol.optional_cellToJson]
  rfl

theorem ofJson?_toJson (op : Operation) : ofJson? op.toJson = some op := by
  cases op with
  | write old new => simp [toJson, ofJson?, cellOfJson?_cellToJson]
  | move d =>
    have hd : Distance.ofInt? d.cells = some d := dif_pos ⟨d.lower, d.upper⟩
    simp [toJson, ofJson?, hd]

end Operation

namespace Journal

theorem decodeOperation_toJson (op : Operation) : decodeOperation op.toJson = .ok op := by
  rw [decodeOperation, Operation.ofJson?_toJson]

theorem decodeFrame_list (ops : List Operation) :
    decodeFrame (Json.list Operation.toJson ops) = .ok ops :=
  Json.Decode.mapM_map_ok decodeOperation_toJson ops

theorem decodeFrames_of_get? {document : Json} {frames : List (List Operation)}
    (h : document.get? "history" = some (Json.list (Json.list Operation.toJson) frames)) :
    decodeFrames document = .ok frames := by
  rw [decodeFrames, h]
  exact Json.Decode.mapM_map_ok decodeFrame_list frames

theorem decodeLimit_of_get? {document : Json} {j : Journal} (present : Option Nat)
    (h : document.get? "history_size" = some j.limitToJson)
    (hl : ∀ n, j.limit = some n → n ≤ greatestCount) :
    decodeLimit present document = .ok j.limit := by
  rw [decodeLimit, h, limitToJson]
  cases hj : j.limit with
  | none => rfl
  | some n =>
    have hn : (0 : Int) ≤ n ∧ (n : Int) ≤ greatestCount :=
      ⟨Int.natCast_nonneg n, Int.ofNat_le.mpr (hl n hj)⟩
    change (if (0 : Int) ≤ n ∧ (n : Int) ≤ greatestCount then _ else _) = _
    rw [if_pos hn]
    rfl

end Journal

open Std

/-- A member above all others goes to the end. -/
theorem placeBy_above [Ord κ] [OrientedOrd κ] {key : α → κ} {x : α} {xs : List α}
    (h : ∀ a ∈ xs, compare (key a) (key x) = .lt) : placeBy key x xs = xs ++ [x] := by
  induction xs with
  | nil => rfl
  | cons y ys ih =>
    have hy : compare (key x) (key y) = .gt :=
      OrientedCmp.gt_of_lt (h y List.mem_cons_self)
    have hys := ih fun a ha => h a (List.mem_cons_of_mem y ha)
    simp only [placeBy, hy, hys, List.cons_append]

theorem placeBy_ne_nil [Ord κ] (key : α → κ) (x : α) (xs : List α) :
    placeBy key x xs ≠ [] := by
  cases xs with
  | nil => exact List.cons_ne_nil x []
  | cons y ys =>
    unfold placeBy
    split <;> exact List.cons_ne_nil _ _

namespace SortedBy

variable {α κ : Type} [Ord κ] [TransOrd κ] {key : α → κ}

theorem foldl_insert (xs : List α) (s : SortedBy key) (h : Increasing key (s.toList ++ xs)) :
    (xs.foldl insert s).toList = s.toList ++ xs := by
  induction xs generalizing s with
  | nil => simp
  | cons x xs ih =>
    have hx : (s.insert x).toList = s.toList ++ [x] :=
      placeBy_above fun a ha => (List.pairwise_append.mp h).2.2 a ha x List.mem_cons_self
    have happ : (s.insert x).toList ++ xs = s.toList ++ (x :: xs) := by
      rw [hx, List.append_assoc, List.singleton_append]
    rw [List.foldl_cons, ih (s.insert x) (by rw [happ]; exact h), happ]

/-- A set is made of its own list again. -/
@[simp] theorem ofList_toList (s : SortedBy key) : ofList s.toList = s := by
  apply ext
  exact foldl_insert s.toList empty s.increasing

theorem foldl_insert_ne_nil (xs : List α) (s : SortedBy key) (h : s.toList ≠ []) :
    (xs.foldl insert s).toList ≠ [] := by
  induction xs generalizing s with
  | nil => exact h
  | cons x xs ih => exact ih _ (placeBy_ne_nil key x s.toList)

theorem ofList_ne_nil {xs : List α} (h : xs ≠ []) : (ofList xs : SortedBy key).toList ≠ [] := by
  obtain ⟨x, rest, rfl⟩ := List.exists_cons_of_ne_nil h
  exact foldl_insert_ne_nil rest (empty.insert x) (placeBy_ne_nil key x [])

end SortedBy

namespace Program

theorem decodeRows_toJson (p : Program) : decodeRows p.toJson = .ok p.rows :=
  Json.Decode.list_list Row.decode_toJson p.rows

theorem ofRows_rows (p : Program) : ofRows p.rows = p :=
  congrArg Program.mk p.rules.ofList_toList

end Program

end TapeMachine
