import Mathlib.Data.List.Infix
import Mathlib.Data.List.Induction
import Mathlib.Logic.Relation
import Mathlib.Order.WellFounded

/-!
# Graphs That Grow by Appending Nodes

A list of nodes in the order in which they were appended. Every node has a name and lists the
names of its parents. In a closed list every parent is the name of a node further to the left,
so that edges lead strictly back in time: no parent is missing and there is no cycle.

## Main results

* `forall_split_concat`: what holds of every element and those before it, when a list grows.
* `closed_concat`: one more node keeps the list closed exactly if its parents are named.
* `Closed.wellFounded`: the parent relation of a closed list is well-founded.
* `reaches_concat`: what a new node reaches through one of its parents.
-/

namespace AppendGraph

variable {α ι : Type*} (name : α → ι) (parents : α → List ι)

/-- Every parent is the name of an earlier node. -/
def Closed (nodes : List α) : Prop :=
  ∀ before node after, nodes = before ++ node :: after →
    ∀ x ∈ parents node, x ∈ before.map name

/-- The first name is a parent of a node with the second one. -/
def ParentOf (nodes : List α) (x y : ι) : Prop :=
  ∃ node ∈ nodes, name node = y ∧ x ∈ parents node

/-- From a name along parents to the name of an ancestor, or to itself. -/
def Reaches (nodes : List α) : ι → ι → Prop :=
  Relation.ReflTransGen fun y x => ParentOf name parents nodes x y

variable {name parents}

/-! ### Closed lists -/

theorem closed_nil : Closed name parents [] := by
  rintro before node after h
  simp at h

theorem Closed.of_prefix {nodes nodes' : List α} (h : Closed name parents nodes')
    (hpre : nodes <+: nodes') : Closed name parents nodes := by
  obtain ⟨rest, rfl⟩ := hpre
  rintro before node after rfl
  exact h before node (after ++ rest) (by simp)

/-- What holds of every element and those before it, in a list with one more element. -/
theorem forall_split_concat {l : List α} {last : α} {P : List α → α → Prop} :
    (∀ before x after, l ++ [last] = before ++ x :: after → P before x) ↔
      (∀ before x after, l = before ++ x :: after → P before x) ∧ P l last := by
  constructor
  · intro h
    refine ⟨?_, h l last [] rfl⟩
    rintro before x after rfl
    exact h before x (after ++ [last]) (by simp)
  · rintro ⟨hl, hlast⟩ before x after heq
    induction after using List.reverseRecOn with
    | nil =>
        obtain ⟨rfl, hx⟩ := List.append_inj' heq rfl
        obtain rfl : last = x := by simpa using hx
        exact hlast
    | append_singleton after y _ =>
        rw [← List.cons_append, ← List.append_assoc] at heq
        exact hl before x after (List.append_inj' heq rfl).1

/-- A new node whose parents are all named keeps the list closed. -/
theorem closed_concat {nodes : List α} {node : α} :
    Closed name parents (nodes ++ [node]) ↔
      Closed name parents nodes ∧ ∀ x ∈ parents node, x ∈ nodes.map name :=
  forall_split_concat (P := fun before node => ∀ x ∈ parents node, x ∈ before.map name)

/-- Every parent in a closed list is the name of a node. -/
theorem Closed.mem_names {nodes : List α} (h : Closed name parents nodes) {node : α}
    (hnode : node ∈ nodes) {x : ι} (hx : x ∈ parents node) : x ∈ nodes.map name := by
  obtain ⟨before, after, rfl⟩ := List.append_of_mem hnode
  have hbefore := h before node after rfl x hx
  rw [List.map_append]
  exact List.mem_append_left _ hbefore

/-- A name is accessible once all names to its left are. -/
theorem Closed.acc_of_mem {nodes : List α} (h : Closed name parents nodes)
    (hinj : Function.Injective name) {before after : List α} (heq : nodes = before ++ after)
    {y : ι} (hy : y ∈ before.map name) : Acc (ParentOf name parents nodes) y := by
  induction before using List.reverseRecOn generalizing after y with
  | nil => cases hy
  | append_singleton before node ih =>
      rw [List.append_assoc] at heq
      rw [List.map_append, List.mem_append] at hy
      rcases hy with hy | hy
      · exact ih heq hy
      · obtain rfl : y = name node := by simpa using hy
        constructor
        rintro x ⟨node', hnode', hname, hx⟩
        obtain rfl : node' = node := hinj hname
        exact ih heq (h before node' after heq x hx)

/-- The parent relation of a closed list is well-founded. -/
theorem Closed.wellFounded {nodes : List α} (h : Closed name parents nodes)
    (hinj : Function.Injective name) : WellFounded (ParentOf name parents nodes) := by
  constructor
  intro y
  constructor
  rintro x ⟨node, hnode, -, hx⟩
  exact h.acc_of_mem hinj (List.append_nil nodes).symm (h.mem_names hnode hx)

/-! ### Ancestors -/

theorem ParentOf.mono {nodes nodes' : List α} (hsub : nodes ⊆ nodes') {x y : ι}
    (h : ParentOf name parents nodes x y) : ParentOf name parents nodes' x y := by
  obtain ⟨node, hnode, hname, hx⟩ := h
  exact ⟨node, hsub hnode, hname, hx⟩

theorem Reaches.mono {nodes nodes' : List α} (hsub : nodes ⊆ nodes') {x y : ι}
    (h : Reaches name parents nodes x y) : Reaches name parents nodes' x y := by
  induction h with
  | refl => exact .refl
  | tail _ hstep ih => exact ih.tail (hstep.mono hsub)

/-- A new node reaches what one of its parents reaches. -/
theorem reaches_concat {nodes : List α} {node : α} {x y : ι} (hx : x ∈ parents node)
    (h : Reaches name parents nodes x y) :
    Reaches name parents (nodes ++ [node]) (name node) y := by
  have hlast : node ∈ nodes ++ [node] := List.mem_append_right _ (List.mem_singleton_self _)
  have hparent : ParentOf name parents (nodes ++ [node]) x (name node) :=
    ⟨node, hlast, rfl, hx⟩
  exact Relation.ReflTransGen.head hparent (h.mono (List.subset_append_left _ _))

/-- A name that nobody cites is reached from itself only. -/
theorem not_reaches {nodes : List α} {x y : ι} (hcited : ∀ node ∈ nodes, y ∉ parents node)
    (hne : x ≠ y) : ¬ Reaches name parents nodes x y := by
  intro h
  rcases Relation.ReflTransGen.cases_tail h with rfl | ⟨z, -, node, hnode, -, hy⟩
  · exact hne rfl
  · exact hcited node hnode hy

end AppendGraph
