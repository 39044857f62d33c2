import Mathlib.Data.List.Forall2
import Mathlib.Data.List.Perm.Basic
import TapeMachine.Machine.Update
import TapeMachine.Proofs.Codec
import TapeMachine.Proofs.Command
import TapeMachine.Proofs.Maps
import TapeMachine.Proofs.Sets

/-!
Programs as maps from situations, a state and the symbol it reads, to instructions. What a
program gives for each situation determines it, however its rows are kept: in one list, or
state by state. Main statement: of several rows for a situation the last one stays, and
two programs are equal exactly if they give the same instructions.
-/
namespace TapeMachine

open Std

/-- Rows by the names of their states, and in one state by the symbols that are read. -/
def Row.Before (r r' : Row) : Prop :=
  r.state.name < r'.state.name ∨ r.state = r'.state ∧ r.read.text < r'.read.text

theorem Row.compare_key_eq_lt {r r' : Row} : compare r.key r'.key = .lt ↔ r.Before r' := by
  rw [Before, ← State.compare_eq_lt, ← Symbol.compare_eq_lt]
  exact lexOrd_eq_lt

theorem Row.key_eq_iff {r : Row} {s : Symbol} {q : State} :
    r.key = (q, s) ↔ r.read = s ∧ r.state = q := by
  rw [key, Prod.mk.injEq, and_comm]

namespace Program

variable {p p' : Program}

/-- What is found for a situation is the row of its instruction. -/
theorem find?_rules (p : Program) (s : Symbol) (q : State) :
    p.rules.find? (q, s) = (p.get? s q).map fun i => ⟨s, q, i⟩ := by
  rw [get?]
  cases hr : p.rules.find? (q, s) with
  | none => rfl
  | some r =>
    obtain ⟨read, state, instruction⟩ := r
    cases ((SortedBy.find?_eq_some_iff _).mp hr).2
    rfl

/-- The rows are the instructions that are given. -/
theorem mem_rows {r : Row} : r ∈ p.rows ↔ p.get? r.read r.state = some r.instruction := by
  change r ∈ p.rules.toList ↔ _
  rw [SortedBy.mem_toList_iff, Row.key, find?_rules, Option.map_eq_some_iff]
  constructor
  · rintro ⟨i, hi, he⟩
    rw [hi]
    exact congrArg (fun r => some r.instruction) he
  · intro h
    exact ⟨r.instruction, h, rfl⟩

/-- Programs that give the same instructions are the same. -/
theorem ext_get? (h : ∀ s q, p.get? s q = p'.get? s q) : p = p' := by
  have hrules : p.rules = p'.rules :=
    SortedBy.ext_find? fun (q, s) => by rw [find?_rules, find?_rules, h]
  cases p
  cases p'
  cases hrules
  rfl

theorem rows_before (p : Program) : p.rows.Pairwise Row.Before :=
  p.rules.increasing.imp Row.compare_key_eq_lt.mp

theorem get?_insert (p : Program) (r : Row) (s : Symbol) (q : State) :
    (p.insert r).get? s q =
      if r.read = s ∧ r.state = q then some r.instruction else p.get? s q := by
  have hfind : (p.insert r).rules.find? (q, s) =
      if r.key = (q, s) then some r else p.rules.find? (q, s) := SortedBy.find?_insert ..
  rw [get?, hfind]
  simp only [Row.key_eq_iff]
  split <;> rfl

/-- Of several rows for one situation the last gives the instruction. -/
theorem get?_ofRows (rows : List Row) (s : Symbol) (q : State) :
    (ofRows rows).get? s q =
      ((rows.filter fun r => r.read = s ∧ r.state = q).getLast?).map Row.instruction := by
  have hfind : (ofRows rows).rules.find? (q, s) =
      (rows.filter fun r => r.key = (q, s)).getLast? := SortedBy.find?_ofList rows (q, s)
  rw [get?, hfind]
  simp only [Row.key_eq_iff]

theorem mem_states {q : State} : q ∈ p.states.toList ↔ ∃ r ∈ p.rows, r.state = q := by
  rw [← SortedBy.contains_iff_mem, states, SortedBy.contains_ofList, List.mem_map]

theorem mem_states_iff_get? {q : State} : q ∈ p.states.toList ↔ ∃ s i, p.get? s q = some i := by
  rw [mem_states]
  constructor
  · rintro ⟨r, hr, rfl⟩
    exact ⟨r.read, r.instruction, mem_rows.mp hr⟩
  · rintro ⟨s, i, hi⟩
    exact ⟨⟨s, q, i⟩, mem_rows.mpr hi, rfl⟩

theorem size_ofRows (rows : List Row) :
    (ofRows rows).size = (rows.map fun r => (r.state, r.read)).dedup.length :=
  SortedBy.size_ofList rows

/-- Rows for different situations may come in any order. -/
theorem ofRows_perm {rows rows' : List Row} (h : rows.Perm rows')
    (hkeys : (rows.map Row.key).Nodup) : ofRows rows = ofRows rows' := by
  have hkeys' : (rows'.map Row.key).Nodup := (h.map Row.key).nodup_iff.mp hkeys
  have hperm : (ofRows rows).rows.Perm (ofRows rows').rows :=
    ((SortedBy.perm_ofList_iff rows).mpr hkeys).trans
      (h.trans ((SortedBy.perm_ofList_iff rows').mpr hkeys').symm)
  exact congrArg Program.mk (SortedBy.ext_mem fun r => hperm.mem_iff)

end Program

/-- A list is decoded if every item of it is. -/
theorem Json.Decode.mapM_eq_ok_iff {ε α : Type} {decode : Json → Except ε α} {items : List Json}
    {xs : List α} :
    items.mapM decode = .ok xs ↔ List.Forall₂ (fun v x => decode v = .ok x) items xs := by
  induction items generalizing xs with
  | nil =>
    rw [List.mapM_nil, List.forall₂_nil_left_iff]
    exact ⟨fun h => by cases h; rfl, fun h => by rw [h]; rfl⟩
  | cons v items ih =>
    rw [List.mapM_cons, List.forall₂_cons_left_iff, bind_eq_ok]
    constructor
    · rintro ⟨x, hx, hrest⟩
      obtain ⟨xs, hxs, hrest⟩ := bind_eq_ok.mp hrest
      cases hrest
      exact ⟨x, xs, hx, ih.mp hxs, rfl⟩
    · rintro ⟨x, xs, hx, hxs, rfl⟩
      exact ⟨x, hx, bind_eq_ok.mpr ⟨xs, ih.mpr hxs, rfl⟩⟩

namespace Program

theorem replace_of_decodeRows {v : Json} {rows : List Row} (h : decodeRows v = .ok rows)
    (p : Program) : (replace v).run p = .ok () (ofRows rows) := by
  rw [replace, h]
  rfl

/-- The items of a document may come in any order if they are rows for different situations. -/
theorem replace_perm {items items' : List Json} {rows : List Row} (h : items.Perm items')
    (hrows : decodeRows (.array items) = .ok rows) (hkeys : (rows.map Row.key).Nodup)
    (p : Program) : (replace (.array items')).run p = .ok () (ofRows rows) := by
  have hitems := Json.Decode.mapM_eq_ok_iff.mp hrows
  obtain ⟨rows', hitems', hperm⟩ := List.perm_comp_forall₂ h.symm hitems
  have hrows' : decodeRows (.array items') = .ok rows' := Json.Decode.mapM_eq_ok_iff.mpr hitems'
  rw [replace_of_decodeRows hrows', ofRows_perm hperm.symm hkeys]

end Program

/-- The instructions of one state, by the symbols that are read. -/
structure StateRules where
  state : State
  rules : SortedBy (Prod.fst : Symbol × Instruction → Symbol)

/-- A table that keeps the rows of every state by themselves. -/
structure GroupedTable where
  groups : SortedBy StateRules.state

namespace GroupedTable

def empty : GroupedTable := ⟨.empty⟩

def get? (t : GroupedTable) (s : Symbol) (q : State) : Option Instruction :=
  (t.groups.find? q).bind fun g => (g.rules.find? s).map Prod.snd

/-- The group of a state, an empty one if there is none yet. -/
def groupOf (t : GroupedTable) (q : State) : StateRules := (t.groups.find? q).getD ⟨q, .empty⟩

/-- Adds a row to the group of its state. -/
def insert (t : GroupedTable) (r : Row) : GroupedTable :=
  ⟨t.groups.insert ⟨r.state, (t.groupOf r.state).rules.insert (r.read, r.instruction)⟩⟩

def ofRows (rows : List Row) : GroupedTable := rows.foldl insert empty

def size (t : GroupedTable) : Nat := t.groups.toList.foldr (fun g n => g.rules.size + n) 0

def rows (t : GroupedTable) : List Row :=
  t.groups.toList.flatMap fun g => g.rules.toList.map fun x => ⟨x.1, g.state, x.2⟩

/-- The states that have a group. -/
def states (t : GroupedTable) : SortedSet State :=
  ⟨t.groups.toList.map StateRules.state, List.pairwise_map.mpr t.groups.increasing⟩

/-- No state has a group without rows. -/
def Full (t : GroupedTable) : Prop := ∀ g ∈ t.groups.toList, g.rules.toList ≠ []

variable {t t' : GroupedTable} {s : Symbol} {q : State} {i : Instruction}

theorem get?_group {g : StateRules} (h : g ∈ t.groups.toList) :
    t.get? s g.state = some i ↔ (s, i) ∈ g.rules.toList := by
  rw [get?, t.groups.mem_toList_iff.mp h, Option.bind_some, SortedBy.mem_toList_iff,
    Option.map_eq_some_iff]
  constructor
  · rintro ⟨x, hx, rfl⟩
    rw [hx, ← ((SortedBy.find?_eq_some_iff _).mp hx).2]
  · intro h
    exact ⟨(s, i), h, rfl⟩

theorem get?_eq_some_iff :
    t.get? s q = some i ↔ ∃ g ∈ t.groups.toList, g.state = q ∧ (s, i) ∈ g.rules.toList := by
  constructor
  · intro h
    obtain ⟨g, hg, _⟩ := Option.bind_eq_some_iff.mp h
    obtain ⟨hmem, rfl⟩ := (SortedBy.find?_eq_some_iff _).mp hg
    exact ⟨g, hmem, rfl, (get?_group hmem).mp h⟩
  · rintro ⟨g, hmem, rfl, h⟩
    exact (get?_group hmem).mpr h

theorem mem_rows {r : Row} : r ∈ t.rows ↔ t.get? r.read r.state = some r.instruction := by
  rw [get?_eq_some_iff, rows, List.mem_flatMap]
  refine exists_congr fun g => and_congr_right fun _ => ?_
  rw [List.mem_map]
  constructor
  · rintro ⟨x, hx, rfl⟩
    exact ⟨rfl, hx⟩
  · rintro ⟨hstate, h⟩
    exact ⟨_, h, by rw [hstate]⟩

theorem rows_increasing (t : GroupedTable) : Increasing Row.key t.rows := by
  refine List.pairwise_flatMap.mpr ⟨fun g _ => ?_, t.groups.increasing.imp ?_⟩
  · refine List.pairwise_map.mpr (g.rules.increasing.imp ?_)
    intro x y hxy
    exact lexOrd_eq_lt.mpr (.inr ⟨rfl, hxy⟩)
  · intro g g' hgg' r hr r' hr'
    obtain ⟨x, _, rfl⟩ := List.mem_map.mp hr
    obtain ⟨x', _, rfl⟩ := List.mem_map.mp hr'
    exact lexOrd_eq_lt.mpr (.inl hgg')

/-- The program with the rows of all groups. -/
def program (t : GroupedTable) : Program := ⟨⟨t.rows, t.rows_increasing⟩⟩

theorem get?_program (t : GroupedTable) (s : Symbol) (q : State) :
    t.program.get? s q = t.get? s q := by
  refine Option.ext fun i => ?_
  have hrow : (⟨s, q, i⟩ : Row) ∈ t.program.rows ↔ (⟨s, q, i⟩ : Row) ∈ t.rows := Iff.rfl
  rw [Program.mem_rows, mem_rows] at hrow
  exact hrow

theorem size_program (t : GroupedTable) : t.program.size = t.size := by
  change t.rows.length = t.size
  rw [rows, size]
  induction t.groups.toList with
  | nil => rfl
  | cons g groups ih => rw [List.flatMap_cons, List.length_append, ih, List.length_map]; rfl

theorem get?_groupOf (t : GroupedTable) (s : Symbol) (q : State) :
    t.get? s q = ((t.groupOf q).rules.find? s).map Prod.snd := by
  rw [get?, groupOf]
  cases t.groups.find? q with
  | none => rfl
  | some g => rfl

theorem get?_insert (t : GroupedTable) (r : Row) (s : Symbol) (q : State) :
    (t.insert r).get? s q =
      if r.read = s ∧ r.state = q then some r.instruction else t.get? s q := by
  by_cases hq : r.state = q
  · subst hq
    have hgroup : (t.insert r).groupOf r.state =
        ⟨r.state, (t.groupOf r.state).rules.insert (r.read, r.instruction)⟩ :=
      congrArg (Option.getD · _) (SortedBy.find?_insert_self t.groups ⟨r.state, _⟩)
    rw [get?_groupOf, hgroup, SortedBy.find?_insert, get?_groupOf]
    by_cases hs : r.read = s <;> simp [hs]
  · have hgroup : (t.insert r).groups.find? q = t.groups.find? q :=
      (SortedBy.find?_insert ..).trans (if_neg hq)
    rw [get?, hgroup]
    simp [hq, get?]

/-- Grouped tables are changed as programs are. -/
theorem program_insert (t : GroupedTable) (r : Row) :
    (t.insert r).program = t.program.insert r := by
  apply Program.ext_get?
  intro s q
  rw [get?_program, get?_insert, Program.get?_insert, get?_program]

theorem program_ofRows (rows : List Row) : (ofRows rows).program = Program.ofRows rows := by
  induction rows using List.reverseRecOn with
  | nil => rfl
  | append_singleton rows r ih =>
    have hprogram : Program.ofRows (rows ++ [r]) = (Program.ofRows rows).insert r :=
      congrArg Program.mk (SortedBy.ofList_concat rows r)
    have hgrouped : ofRows (rows ++ [r]) = (ofRows rows).insert r := List.foldl_append
    rw [hprogram, hgrouped, program_insert, ih]

/-- The tables that come about row by row. -/
inductive Reachable : GroupedTable → Prop where
  | empty : Reachable .empty
  | insert (r : Row) {t : GroupedTable} : Reachable t → Reachable (t.insert r)

theorem Reachable.full (h : t.Reachable) : t.Full := by
  induction h with
  | empty => exact fun g hg => by cases hg
  | insert r _ ih =>
    intro g hg
    rcases eq_or_mem_of_mem_placeBy hg with rfl | hg
    · exact placeBy_ne_nil _ _ _
    · exact ih g hg

theorem mem_groups_of_get?_eq (ht : t.Full) (h : ∀ s q, t.get? s q = t'.get? s q) {g : StateRules}
    (hg : g ∈ t.groups.toList) : g ∈ t'.groups.toList := by
  -- the group has a row, by which the other table has a group for the state as well
  obtain ⟨⟨s, i⟩, hrow⟩ := List.exists_mem_of_ne_nil _ (ht g hg)
  have hsome : t'.get? s g.state = some i := by rw [← h, get?_group hg]; exact hrow
  obtain ⟨g', hg', hstate, _⟩ := get?_eq_some_iff.mp hsome
  have hrules : g'.rules = g.rules := by
    refine SortedBy.ext_mem fun ⟨s, i⟩ => ?_
    rw [← get?_group hg', ← get?_group hg, hstate, h]
  obtain ⟨state, rules⟩ := g
  obtain ⟨state', rules'⟩ := g'
  cases hstate
  cases hrules
  exact hg'

/-- Tables without empty groups that give the same instructions are the same. -/
theorem ext_get? (ht : t.Full) (ht' : t'.Full) (h : ∀ s q, t.get? s q = t'.get? s q) : t = t' := by
  have hgroups : t.groups = t'.groups := SortedBy.ext_mem fun g =>
    ⟨mem_groups_of_get?_eq ht h, mem_groups_of_get?_eq ht' fun s q => (h s q).symm⟩
  cases t
  cases t'
  cases hgroups
  rfl

theorem states_program (ht : t.Full) : t.program.states = t.states := by
  refine SortedBy.ext_mem fun q => ?_
  rw [Program.mem_states_iff_get?, states, List.mem_map]
  constructor
  · rintro ⟨s, i, h⟩
    rw [get?_program] at h
    obtain ⟨g, hg, hstate, _⟩ := get?_eq_some_iff.mp h
    exact ⟨g, hg, hstate⟩
  · rintro ⟨g, hg, rfl⟩
    obtain ⟨⟨s, i⟩, hrow⟩ := List.exists_mem_of_ne_nil _ (ht g hg)
    exact ⟨s, i, by rw [get?_program, get?_group hg]; exact hrow⟩

end GroupedTable

/-- A program made of rows gives for every situation the instruction of the last row, has as many
rows as there are situations, and its states are those for which it gives an instruction. Every
program has its rows by increasing state and symbol, can be read back from its document into any
other one, and equals another exactly if both give the same instructions; so the items of a document
may be in any order if they are for different situations. All this holds as well of a table that
keeps the rows of each state by themselves, whatever rows it has been given: no state is left
without rows, and so equality of such tables is equality of their programs. -/
theorem program_keeps_last_rows :
    (∀ rows : List Row,
      let p := Program.ofRows rows
      (∀ s q, p.get? s q =
        ((rows.filter fun r => r.read = s ∧ r.state = q).getLast?).map Row.instruction) ∧
      p.size = (rows.map fun r => (r.state, r.read)).dedup.length ∧
      ∀ q, q ∈ p.states.toList ↔ ∃ s i, p.get? s q = some i) ∧
    (∀ p : Program, p.rows.Pairwise Row.Before ∧
      ∀ p', (Program.replace p.toJson).run p' = .ok () p) ∧
    (∀ p p' : Program, p = p' ↔ ∀ s q, p.get? s q = p'.get? s q) ∧
    (∀ (items items' : List Json) rows, items.Perm items' →
      Program.decodeRows (.array items) = .ok rows → (rows.map Row.key).Nodup →
      ∀ p, (Program.replace (.array items')).run p = .ok () (Program.ofRows rows)) ∧
    (∀ rows, (GroupedTable.ofRows rows).program = Program.ofRows rows) ∧
    ∀ t t' : GroupedTable, t.Reachable → t'.Reachable →
      (∀ s q, t.get? s q = t.program.get? s q) ∧ t.rows = t.program.rows ∧
      t.size = t.program.size ∧ t.states = t.program.states ∧
      (t = t' ↔ ∀ s q, t.get? s q = t'.get? s q) := by
  refine ⟨fun rows => ⟨Program.get?_ofRows rows, Program.size_ofRows rows,
      fun q => Program.mem_states_iff_get?⟩, fun p => ⟨p.rows_before, fun p' => ?_⟩, fun p p' => ?_,
    fun items items' rows h hrows hkeys p => Program.replace_perm h hrows hkeys p,
    GroupedTable.program_ofRows, fun t t' ht ht' => ?_⟩
  · rw [Program.replace_of_decodeRows p.decodeRows_toJson, p.ofRows_rows]
  · exact ⟨fun h s q => by rw [h], Program.ext_get?⟩
  · refine ⟨fun s q => (t.get?_program s q).symm, rfl, t.size_program.symm,
      (GroupedTable.states_program ht.full).symm, fun h s q => by rw [h], ?_⟩
    exact GroupedTable.ext_get? ht.full ht'.full

namespace Stroke

/-- The rows of the program with a second row for one of its situations. -/
def revisedRows : List Row :=
  [⟨.ofText "1", going, .ofText "x", .right, going⟩, ⟨.space, going, .ofText "!", .left, ended⟩,
    ⟨.ofText "1", going, .ofText "y", .stop, ended⟩]

end Stroke

theorem program_keeps_last_rows_revised :
    let revised := Program.ofRows Stroke.revisedRows
    let items := (Stroke.revisedRows.drop 1).map Row.toJson
    revised.get? (.ofText "1") Stroke.going = some ⟨.ofText "y", .stop, Stroke.ended⟩ ∧
    revised.size = 2 ∧
    items.Perm items.reverse ∧
    Program.decodeRows (.array items) = .ok (Stroke.revisedRows.drop 1) ∧
    (Program.replace (.array items.reverse)).run Stroke.program = .ok () revised ∧
    (GroupedTable.ofRows Stroke.revisedRows).Reachable ∧
    GroupedTable.ofRows Stroke.revisedRows = GroupedTable.ofRows (Stroke.revisedRows.drop 1) := by
  intro revised items
  obtain ⟨hrows, _, _, hperm, htables, hequal⟩ := program_keeps_last_rows
  have hdecode : Program.decodeRows (.array items) = .ok (Stroke.revisedRows.drop 1) := rfl
  have hitems : items.Perm items.reverse := (List.reverse_perm items).symm
  have hsame : Program.ofRows (Stroke.revisedRows.drop 1) = revised := by decide
  have hshort : (GroupedTable.ofRows (Stroke.revisedRows.drop 1)).Reachable :=
    .insert _ (.insert _ .empty)
  have htable : (GroupedTable.ofRows Stroke.revisedRows).Reachable :=
    .insert _ (.insert _ (.insert _ .empty))
  refine ⟨?_, ?_, hitems, hdecode, ?_, ?_, ?_⟩
  · rw [(hrows Stroke.revisedRows).1]
    decide
  · rw [(hrows Stroke.revisedRows).2.1]
    decide
  · rw [hperm items _ _ hitems hdecode (by decide), hsame]
  · exact htable
  · refine (hequal _ _ htable hshort).2.2.2.2.mpr fun s q => ?_
    rw [(hequal _ _ htable hshort).1, (hequal _ _ hshort htable).1, htables, htables, hsame]

end TapeMachine
