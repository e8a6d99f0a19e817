import Mathlib.Data.List.Sort
import Mathlib.Data.Prod.Lex
import Torpor.Lab.Database
import Torpor.Lib.BreadthFirst

/-!
# The Ancestors of an Action

`get_ancestors` follows the causes of an action backwards, through `caused_by` and through
`caused_by_list`, down to a depth. The causes may form any graph: an action may be named twice,
name one that does not exist or lie on a cycle. The result is exact on all of them.

## Main results

* `getAncestors_exact`: the actions reached within the depth, each once, with its distance, in
  the order of distance and id.
-/

namespace Torpor.Lab

open BreadthFirst

/-- The row of an action. -/
def selectAction (db : Database) (actionId : ActionId) : Option Action :=
  db.actions.find? (·.actionId = actionId)

/-- The ids that a row names, `caused_by` first. -/
def parents (row : Action) : List ActionId := row.causedBy.toList ++ row.causedByList.getD []

theorem actionId_of_selectAction {db : Database} {actionId : ActionId} {row : Action}
    (h : selectAction db actionId = some row) : row.actionId = actionId := by
  simpa using List.find?_some h

/-- The actions as a table of rows that name their causes. -/
def causes (db : Database) : Table ActionId Action where
  lookup := selectAction db
  next := parents
  support := db.actions.map (·.actionId)
  mem_support := fun _ row h =>
    List.mem_map.mpr ⟨row, List.mem_of_find?_eq_some h, actionId_of_selectAction h⟩

/-- A row of the result. -/
structure AncestorRow where
  row : Action
  depth : ℕ

/-- The sort key `(depth, action_id)`. -/
def AncestorRow.key (a : AncestorRow) : ℕ ×ₗ ActionId := toLex (a.depth, a.row.actionId)

/-- `get_ancestors`: a depth below zero is allowed, and gives nothing. -/
def getAncestors (db : Database) (actionId : ActionId) (maxDepth : ℤ) : List AncestorRow :=
  let visited := search (causes db) maxDepth [(actionId, 0)] []
  ((visited.filter (·.id ≠ actionId)).map fun v => ⟨v.row, v.depth⟩).mergeSort
    fun a b => a.key ≤ b.key

/-! ### What is visited -/

/-- A result is a visit of another action than the one asked for. -/
theorem mem_getAncestors {db : Database} {actionId : ActionId} {maxDepth : ℤ} {a : AncestorRow} :
    a ∈ getAncestors db actionId maxDepth ↔
      ∃ v ∈ search (causes db) maxDepth [(actionId, 0)] [],
        v.id ≠ actionId ∧ a = ⟨v.row, v.depth⟩ := by
  rw [getAncestors, List.mem_mergeSort, List.mem_map]
  constructor
  · rintro ⟨v, hv, rfl⟩
    obtain ⟨hvisited, hne⟩ := List.mem_filter.mp hv
    exact ⟨v, hvisited, of_decide_eq_true hne, rfl⟩
  · rintro ⟨v, hvisited, hne, rfl⟩
    exact ⟨v, List.mem_filter.mpr ⟨hvisited, decide_eq_true hne⟩, rfl⟩

/-- A visited id is that of its row. -/
theorem actionId_of_visit {db : Database} {actionId : ActionId} {maxDepth : ℤ}
    {v : Visit ActionId Action} (hv : v ∈ search (causes db) maxDepth [(actionId, 0)] []) :
    v.row.actionId = v.id :=
  actionId_of_selectAction (mem_search_iff.mp hv).1

theorem nodup_getAncestors (db : Database) (actionId : ActionId) (maxDepth : ℤ) :
    ((getAncestors db actionId maxDepth).map (·.row.actionId)).Nodup := by
  rw [getAncestors, ((List.mergeSort_perm _ _).map _).nodup_iff, List.map_map]
  have hids : ∀ v ∈ (search (causes db) maxDepth [(actionId, 0)] []).filter (·.id ≠ actionId),
      v.row.actionId = v.id := fun v hv => actionId_of_visit (List.mem_filter.mp hv).1
  change (List.map (fun v : Visit ActionId Action => v.row.actionId) _).Nodup
  rw [List.map_congr_left hids]
  exact (search_nodup (causes db) maxDepth actionId).sublist (List.filter_sublist.map _)

/-- The results are in the order of their keys, and no two have one key. -/
theorem pairwise_getAncestors (db : Database) (actionId : ActionId) (maxDepth : ℤ) :
    (getAncestors db actionId maxDepth).Pairwise fun a b => a.key < b.key := by
  have hsorted : (getAncestors db actionId maxDepth).Pairwise fun a b => a.key ≤ b.key := by
    refine (List.pairwise_mergeSort ?_ ?_ _).imp of_decide_eq_true
    · intro a b c hab hbc
      exact decide_eq_true ((of_decide_eq_true hab).trans (of_decide_eq_true hbc))
    · intro a b
      simpa using le_total a.key b.key
  have hnodup := List.pairwise_map.mp (nodup_getAncestors db actionId maxDepth)
  refine (hsorted.and hnodup).imp fun {a b} h => lt_of_le_of_ne h.1 fun heq => h.2 ?_
  exact (Prod.mk.inj (toLex.injective heq)).2

/-- The result is exact: it has the other actions that are reached through existing ones within the
depth, each once, with the length of a shortest way, in the order of depth and id. -/
theorem getAncestors_exact (db : Database) (actionId : ActionId) (maxDepth : ℤ) :
    (∀ id, (∃ a ∈ getAncestors db actionId maxDepth, a.row.actionId = id) ↔
      id ≠ actionId ∧ ∃ n : ℕ, 1 ≤ n ∧ n ≤ maxDepth ∧ Walk (causes db) actionId n id) ∧
    (∀ a ∈ getAncestors db actionId maxDepth, selectAction db a.row.actionId = some a.row ∧
      Distance (causes db) actionId a.row.actionId a.depth) ∧
    ((getAncestors db actionId maxDepth).map (·.row.actionId)).Nodup ∧
    (getAncestors db actionId maxDepth).Pairwise fun a b =>
      a.depth < b.depth ∨ a.depth = b.depth ∧ a.row.actionId < b.row.actionId := by
  refine ⟨fun id => ⟨?_, ?_⟩, fun a ha => ?_, nodup_getAncestors db actionId maxDepth, ?_⟩
  · rintro ⟨a, ha, rfl⟩
    obtain ⟨v, hv, hne, rfl⟩ := mem_getAncestors.mp ha
    obtain ⟨hrow, hlimit, hwalk, -⟩ := mem_search_iff.mp hv
    rw [actionId_of_visit hv]
    refine ⟨hne, v.depth, ?_, hlimit, hwalk⟩
    by_contra hpos
    rw [Nat.eq_zero_of_not_pos hpos] at hwalk
    exact hne hwalk.eq_start
  · rintro ⟨hne, n, -, hlimit, hwalk⟩
    obtain ⟨d, hle, hdistance⟩ := hwalk.exists_distance
    obtain ⟨row, hrow⟩ := hwalk.exists_row
    have hv := (@mem_search_iff _ _ _ maxDepth _ _ ⟨id, row, d⟩).mpr
      ⟨hrow, (Int.ofNat_le.mpr hle).trans hlimit, hdistance⟩
    exact ⟨_, mem_getAncestors.mpr ⟨_, hv, hne, rfl⟩, actionId_of_visit hv⟩
  · obtain ⟨v, hv, -, rfl⟩ := mem_getAncestors.mp ha
    obtain ⟨hrow, -, hdistance⟩ := mem_search_iff.mp hv
    rw [actionId_of_visit hv]
    exact ⟨hrow, hdistance⟩
  · refine (pairwise_getAncestors db actionId maxDepth).imp fun {a b} h => ?_
    exact Prod.Lex.toLex_lt_toLex.mp h

end Torpor.Lab
