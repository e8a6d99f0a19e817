import Mathlib.Data.List.Lemmas
import Mathlib.Data.List.Nodup
import Mathlib.Data.Nat.Find
import Mathlib.Order.Basic
import Mathlib.Tactic.SplitIfs

/-!
# Breadth-First Search Over a Table

A table has a row for some ids, and a row names further ids, also ones that have no row. The
search takes the ids from a queue and tests whether it has visited one only then, so that an id
may stand in the queue more than once, with different depths. It ends on every table, cyclic or
not, and visits exactly what is reached within the limit, at the length of a shortest walk.

## Main results

* `mem_search_iff`: what the search visits, and with which depth.
* `search_nodup`: each id is visited once.
-/

namespace BreadthFirst

variable {α ρ : Type*}

/-- A table of rows; only the ids of a finite support have one. -/
structure Table (α ρ : Type*) where
  lookup : α → Option ρ
  next : ρ → List α
  support : List α
  mem_support : ∀ a row, lookup a = some row → a ∈ support

/-- What a row names, one level below the row. -/
def Table.children (t : Table α ρ) (row : ρ) (depth : ℕ) : List (α × ℕ) :=
  (t.next row).map fun b => (b, depth + 1)

/-- Walks through rows of the table, by their length. -/
inductive Walk (t : Table α ρ) (start : α) : ℕ → α → Prop
  | here {row : ρ} : t.lookup start = some row → Walk t start 0 start
  | step {n : ℕ} {a b : α} {row row' : ρ} : Walk t start n a → t.lookup a = some row →
      b ∈ t.next row → t.lookup b = some row' → Walk t start (n + 1) b

/-- The id is reached by a walk of this length and by no shorter one. -/
def Distance (t : Table α ρ) (start a : α) (n : ℕ) : Prop :=
  Walk t start n a ∧ ∀ m, Walk t start m a → n ≤ m

theorem Distance.unique {t : Table α ρ} {start a : α} {m n : ℕ} (hm : Distance t start a m)
    (hn : Distance t start a n) : m = n :=
  le_antisymm (hm.2 n hn.1) (hn.2 m hm.1)

/-- What is reached is reached by a shortest walk. -/
theorem Walk.exists_distance {t : Table α ρ} {start a : α} {n : ℕ} (h : Walk t start n a) :
    ∃ d ≤ n, Distance t start a d := by
  classical
  have hex : ∃ m, Walk t start m a := ⟨n, h⟩
  exact ⟨Nat.find hex, Nat.find_min' hex h, Nat.find_spec hex, fun m => Nat.find_min' hex⟩

/-- What is reached has a row. -/
theorem Walk.exists_row {t : Table α ρ} {start a : α} {n : ℕ} (h : Walk t start n a) :
    ∃ row, t.lookup a = some row := by
  cases h with
  | here hrow => exact ⟨_, hrow⟩
  | step _ _ _ hrow => exact ⟨_, hrow⟩

theorem Walk.eq_start {t : Table α ρ} {start a : α} (h : Walk t start 0 a) : a = start := by
  cases h
  rfl

/-- An id that was visited, with its row and its depth. -/
structure Visit (α ρ : Type*) where
  id : α
  row : ρ
  depth : ℕ

/-! ### The invariant of the search -/

/-- What holds whenever the search takes an id from the queue. -/
structure Searching (t : Table α ρ) (limit : ℤ) (start : α) (queue : List (α × ℕ))
    (visited : List (Visit α ρ)) : Prop where
  nodup : (visited.map (·.id)).Nodup
  visit : ∀ v ∈ visited,
    t.lookup v.id = some v.row ∧ v.depth ≤ limit ∧ Distance t start v.id v.depth
  ordered : queue.Pairwise fun p q => p.2 ≤ q.2
  window : ∀ p ∈ queue, ∀ q ∈ queue, q.2 ≤ p.2 + 1
  reached : ∀ p ∈ queue, ∀ row, t.lookup p.1 = some row → Walk t start p.2 p.1
  here : ∀ row, t.lookup start = some row → 0 ≤ limit →
    start ∈ visited.map (·.id) ∨ (start, 0) ∈ queue
  closed : ∀ v ∈ visited, ∀ b ∈ t.next v.row, ∀ row, t.lookup b = some row →
    (v.depth + 1 : ℕ) ≤ limit →
    b ∈ visited.map (·.id) ∨ ∃ depth ≤ v.depth + 1, (b, depth) ∈ queue

variable {t : Table α ρ} {limit : ℤ} {queue : List (α × ℕ)} {visited : List (Visit α ρ)}
  {a start : α} {depth : ℕ}

namespace Searching

/-- Before anything is visited. -/
theorem init (t : Table α ρ) (limit : ℤ) (start : α) : Searching t limit start [(start, 0)] [] where
  nodup := .nil
  visit := by simp
  ordered := List.pairwise_singleton _ _
  window := by simp
  reached := by
    intro p hp row hrow
    rw [List.mem_singleton.mp hp] at hrow ⊢
    exact .here hrow
  here := by simp
  closed := by simp

/-- What is reached within the limit was visited, or the queue has something no deeper. -/
theorem visited_of_walk (h : Searching t limit start queue visited) {n : ℕ} {b : α}
    (hwalk : Walk t start n b) (hlimit : n ≤ limit) :
    b ∈ visited.map (·.id) ∨ ∃ p ∈ queue, p.2 ≤ n := by
  induction hwalk with
  | here hrow =>
      refine (h.here _ hrow (by omega)).imp_right fun hmem => ⟨_, hmem, le_rfl⟩
  | @step n a b row row' hwalk hrow hb hrow' ih =>
      rcases ih (by omega) with ha | ⟨p, hp, hle⟩
      · obtain ⟨v, hv, rfl⟩ := List.mem_map.mp ha
        obtain ⟨hvrow, -, hdistance⟩ := h.visit v hv
        obtain rfl := Option.some.inj (hvrow.symm.trans hrow)
        have hdepth : v.depth ≤ n := hdistance.2 n hwalk
        rcases h.closed v hv b hb row' hrow' (by omega) with hvisited | ⟨depth, hle, hmem⟩
        · exact .inl hvisited
        · exact .inr ⟨_, hmem, by omega⟩
      · exact .inr ⟨p, hp, by omega⟩

/-- An id that is visited now is as deep as it is far away. -/
theorem distance_head (h : Searching t limit start ((a, depth) :: queue) visited)
    (hnew : a ∉ visited.map (·.id)) (hlimit : depth ≤ limit) {row : ρ}
    (hrow : t.lookup a = some row) : Distance t start a depth := by
  refine ⟨h.reached (a, depth) (by simp) row hrow, fun m hwalk => ?_⟩
  by_contra hlt
  rcases h.visited_of_walk hwalk (by omega) with hvisited | ⟨p, hp, hle⟩
  · exact hnew hvisited
  · have hdepth : depth ≤ p.2 := by
      rcases List.mem_cons.mp hp with rfl | hp
      · exact le_rfl
      · exact (List.pairwise_cons.mp h.ordered).1 p hp
    omega

/-- What is to be visited, and in the queue, was visited or is behind a head that is dropped. -/
theorem visited_or_mem_of_drop
    (hdrop : a ∈ visited.map (·.id) ∨ limit < depth ∨ t.lookup a = none) {b : α} {row : ρ}
    (hrow : t.lookup b = some row) {d : ℕ} (hlimit : d ≤ limit)
    (hmem : (b, d) ∈ (a, depth) :: queue) : b ∈ visited.map (·.id) ∨ (b, d) ∈ queue := by
  rcases List.mem_cons.mp hmem with heq | hmem
  · obtain ⟨rfl, rfl⟩ := Prod.mk.inj heq
    rcases hdrop with hvisited | hdeep | hnone
    · exact .inl hvisited
    · omega
    · rw [hrow] at hnone
      cases hnone
  · exact .inr hmem

/-- The head of the queue is dropped: it was visited, is too deep or has no row. -/
theorem drop (h : Searching t limit start ((a, depth) :: queue) visited)
    (hdrop : a ∈ visited.map (·.id) ∨ limit < depth ∨ t.lookup a = none) :
    Searching t limit start queue visited where
  nodup := h.nodup
  visit := h.visit
  ordered := (List.pairwise_cons.mp h.ordered).2
  window := fun p hp q hq => h.window p (.tail _ hp) q (.tail _ hq)
  reached := fun p hp => h.reached p (.tail _ hp)
  here := by
    intro row hrow hlimit
    rcases h.here row hrow hlimit with hvisited | hmem
    · exact .inl hvisited
    · exact visited_or_mem_of_drop hdrop hrow hlimit hmem
  closed := by
    intro v hv b hb row hrow hlimit
    rcases h.closed v hv b hb row hrow hlimit with hvisited | ⟨d, hle, hmem⟩
    · exact .inl hvisited
    · exact (visited_or_mem_of_drop hdrop hrow (by omega) hmem).imp_right fun hmem =>
        ⟨d, hle, hmem⟩

/-- The head of the queue is visited, and what its row names is queued. -/
theorem visitHead (h : Searching t limit start ((a, depth) :: queue) visited)
    (hnew : a ∉ visited.map (·.id)) (hlimit : depth ≤ limit) {row : ρ}
    (hrow : t.lookup a = some row) :
    Searching t limit start (queue ++ t.children row depth)
      (visited ++ [⟨a, row, depth⟩]) := by
  obtain ⟨hfirst, hordered⟩ := List.pairwise_cons.mp h.ordered
  have hwithin : ∀ p ∈ queue ++ t.children row depth,
      depth ≤ p.2 ∧ p.2 ≤ depth + 1 := by
    intro p hp
    rcases List.mem_append.mp hp with hp | hp
    · exact ⟨hfirst p hp, h.window (a, depth) (by simp) p (.tail _ hp)⟩
    · obtain ⟨b, -, rfl⟩ := List.mem_map.mp hp
      exact ⟨Nat.le_succ depth, le_rfl⟩
  have hids : (visited ++ [(⟨a, row, depth⟩ : Visit α ρ)]).map (·.id) =
      visited.map (·.id) ++ [a] := by
    rw [List.map_append, List.map_singleton]
  -- What was visited or queued is so still: the head is visited now.
  have hkept : ∀ {b : α} {d : ℕ}, (b, d) ∈ (a, depth) :: queue →
      b ∈ visited.map (·.id) ++ [a] ∨ (b, d) ∈ queue ++ t.children row depth := by
    intro b d hmem
    rcases List.mem_cons.mp hmem with heq | hmem
    · exact .inl (by simp [(Prod.mk.inj heq).1])
    · exact .inr (List.mem_append_left _ hmem)
  constructor
  case nodup =>
    rw [hids, ← List.concat_eq_append]
    exact h.nodup.concat hnew
  case visit =>
    intro v hv
    rcases List.mem_append.mp hv with hv | hv
    · exact h.visit v hv
    · rw [List.mem_singleton.mp hv]
      exact ⟨hrow, hlimit, h.distance_head hnew hlimit hrow⟩
  case ordered =>
    refine List.pairwise_append.mpr ⟨hordered, ?_, fun p hp q hq => ?_⟩
    · rw [Table.children, List.pairwise_map]
      exact List.pairwise_of_forall fun _ _ => le_rfl
    · obtain ⟨b, -, rfl⟩ := List.mem_map.mp hq
      exact (hwithin p (List.mem_append_left _ hp)).2
  case window =>
    intro p hp q hq
    have := hwithin p hp
    have := hwithin q hq
    omega
  case reached =>
    intro p hp row' hrow'
    rcases List.mem_append.mp hp with hp | hp
    · exact h.reached p (.tail _ hp) row' hrow'
    · obtain ⟨b, hb, rfl⟩ := List.mem_map.mp hp
      exact .step (h.reached (a, depth) (by simp) row hrow) hrow hb hrow'
  case here =>
    intro row' hrow' hpos
    rw [hids]
    rcases h.here row' hrow' hpos with hvisited | hmem
    · exact .inl (List.mem_append_left _ hvisited)
    · exact hkept hmem
  case closed =>
    intro v hv b hb row' hrow' hpos
    rw [hids]
    rcases List.mem_append.mp hv with hv | hv
    · rcases h.closed v hv b hb row' hrow' hpos with hvisited | ⟨d, hle, hmem⟩
      · exact .inl (List.mem_append_left _ hvisited)
      · exact (hkept hmem).imp_right fun hmem => ⟨d, hle, hmem⟩
    · obtain rfl := List.mem_singleton.mp hv
      exact .inr ⟨_, le_rfl, List.mem_append_right _ (List.mem_map_of_mem hb)⟩

end Searching

/-! ### The search -/

variable [DecidableEq α]

/-- The ids of the support that were not visited. -/
def unvisited (t : Table α ρ) (visited : List (Visit α ρ)) : ℕ :=
  (t.support.filter (· ∉ visited.map (·.id))).length

theorem unvisited_lt {t : Table α ρ} {visited : List (Visit α ρ)} {v : Visit α ρ}
    (hrow : t.lookup v.id = some v.row) (hnew : v.id ∉ visited.map (·.id)) :
    unvisited t (visited ++ [v]) < unvisited t visited := by
  have hfilter : t.support.filter (· ∉ (visited ++ [v]).map (·.id)) =
      (t.support.filter (· ∉ visited.map (·.id))).filter (· ≠ v.id) := by
    rw [List.filter_filter]
    refine List.filter_congr fun a _ => ?_
    rw [List.map_append, List.map_singleton]
    simp only [List.mem_append, List.mem_singleton, not_or, Bool.decide_and, ne_eq, Bool.and_comm]
  rw [unvisited, hfilter, unvisited, List.length_filter_lt_length_iff_exists]
  exact ⟨v.id, List.mem_filter.mpr ⟨t.mem_support _ _ hrow, by simpa using hnew⟩, by simp⟩

/-- Work the queue off. An id that was visited, is too deep or has no row is dropped; otherwise the
ids that its row names are queued one level deeper. -/
def search (t : Table α ρ) (limit : ℤ) (queue : List (α × ℕ)) (visited : List (Visit α ρ)) :
    List (Visit α ρ) :=
  match queue with
  | [] => visited
  | (a, depth) :: queue =>
      if a ∈ visited.map (·.id) ∨ limit < depth then search t limit queue visited
      else
        match hrow : t.lookup a with
        | none => search t limit queue visited
        | some row =>
            search t limit (queue ++ t.children row depth)
              (visited ++ [⟨a, row, depth⟩])
termination_by (unvisited t visited, queue.length)
decreasing_by
  · exact Prod.Lex.right _ (by simp)
  · exact Prod.Lex.right _ (by simp)
  · rename_i hkeep
    exact Prod.Lex.left _ _ (unvisited_lt hrow (not_or.mp hkeep).1)

/-! ### Equations -/

theorem search_nil : search t limit [] visited = visited := by rw [search]

theorem search_skip (h : a ∈ visited.map (·.id) ∨ limit < depth) :
    search t limit ((a, depth) :: queue) visited = search t limit queue visited := by
  rw [search, if_pos h]

theorem search_missing (h : t.lookup a = none) :
    search t limit ((a, depth) :: queue) visited = search t limit queue visited := by
  rw [search]
  split_ifs
  · rfl
  · split
    · rfl
    · rename_i hrow
      rw [h] at hrow
      cases hrow

theorem search_visit {row : ρ} (hkeep : ¬(a ∈ visited.map (·.id) ∨ limit < depth))
    (h : t.lookup a = some row) :
    search t limit ((a, depth) :: queue) visited =
      search t limit (queue ++ t.children row depth)
        (visited ++ [⟨a, row, depth⟩]) := by
  rw [search, if_neg hkeep]
  split
  · rename_i hrow
    rw [h] at hrow
    cases hrow
  · rename_i row' hrow
    obtain rfl := Option.some.inj (h.symm.trans hrow)
    rfl

/-! ### Runs -/

/-- Whatever the queue, the search keeps the invariant to its end. -/
theorem Searching.search (h : Searching t limit start queue visited) :
    Searching t limit start [] (BreadthFirst.search t limit queue visited) := by
  induction queue, visited using BreadthFirst.search.induct t limit with
  | case1 visited =>
      rw [search_nil]
      exact h
  | case2 visited a depth queue hskip ih =>
      rw [search_skip hskip]
      exact ih (h.drop (by tauto))
  | case3 visited a depth queue hkeep hnone ih =>
      rw [search_missing hnone]
      exact ih (h.drop (by tauto))
  | case4 visited a depth queue hkeep row hrow ih =>
      rw [search_visit hkeep hrow]
      obtain ⟨hnew, hlimit⟩ := not_or.mp hkeep
      exact ih (h.visitHead hnew (not_lt.mp hlimit) hrow)

/-! ### What the search visits -/

/-- The search visits what is reached within the limit, with its row and its distance. -/
theorem mem_search_iff {v : Visit α ρ} :
    v ∈ search t limit [(start, 0)] [] ↔
      t.lookup v.id = some v.row ∧ v.depth ≤ limit ∧ Distance t start v.id v.depth := by
  have hend := (Searching.init t limit start).search
  constructor
  · exact hend.visit v
  · rintro ⟨hrow, hlimit, hdistance⟩
    rcases hend.visited_of_walk hdistance.1 hlimit with hvisited | ⟨p, hp, -⟩
    · obtain ⟨w, hw, hid⟩ := List.mem_map.mp hvisited
      obtain ⟨hwrow, -, hwdistance⟩ := hend.visit w hw
      rw [hid] at hwrow hwdistance
      have hrows := Option.some.inj (hwrow.symm.trans hrow)
      have hdepths := hwdistance.unique hdistance
      obtain ⟨wid, wrow, wdepth⟩ := w
      obtain ⟨vid, vrow, vdepth⟩ := v
      simp only at hid hrows hdepths
      rwa [← hid, ← hrows, ← hdepths]
    · cases hp

/-- Each id is visited once. -/
theorem search_nodup (t : Table α ρ) (limit : ℤ) (start : α) :
    ((search t limit [(start, 0)] []).map (·.id)).Nodup :=
  (Searching.init t limit start).search.nodup

end BreadthFirst
