import Mathlib.Data.List.Range
import Mathlib.Data.Set.Function
import Torpor.Lib.Interleaving

/-!
# Scripts and Cuts

Each of several writers works through a script of its own, and a journal holds what they have
written, in the order of the writes. A cut keeps a beginning of the journal; of every script it
keeps a beginning too.

The elements of a script may refer back, each to the one before it, by a name. If names are not
shared, an element tells its place in its script and how the script begins.

## Main results

* `IsChain.inj`: equal elements of two chains have the same place, and the chains begin alike.
* `Interleaves.mem_take_iff`: an element that occurs once is in a cut exactly if the cut keeps
  more of its script than comes before it.
-/

namespace Script

variable {α δ κ ω : Type*}

/-! ### Chains -/

/-- Each element refers back to the one before it, and the first one to nothing. -/
structure IsChain (back : α → Option δ) (name : α → δ) (x : ℕ → α) : Prop where
  first : back (x 0) = none
  next : ∀ n, back (x (n + 1)) = some (name (x n))

theorem IsChain.inj {back : α → Option δ} {name : α → δ} {s : Set α} (hname : s.InjOn name)
    {x y : ℕ → α} (hx : IsChain back name x) (hy : IsChain back name y) {m n : ℕ}
    (hm : ∀ k < m, x k ∈ s) (hn : ∀ k < n, y k ∈ s) (h : x m = y n) : m = n ∧ x 0 = y 0 := by
  induction m generalizing n with
  | zero =>
      cases n with
      | zero => exact ⟨rfl, h⟩
      | succ n =>
          have hback := hx.first
          rw [h, hy.next n] at hback
          cases hback
  | succ m ih =>
      cases n with
      | zero =>
          have hback := hy.first
          rw [← h, hx.next m] at hback
          cases hback
      | succ n =>
          have hback := hx.next m
          rw [h, hy.next n, Option.some.injEq] at hback
          have hprev : x m = y n := (hname (hn n (by omega)) (hm m (by omega)) hback).symm
          obtain ⟨rfl, hzero⟩ :=
            ih (fun k hk => hm k (by omega)) (fun k hk => hn k (by omega)) hprev
          exact ⟨rfl, hzero⟩

/-! ### Interleaved scripts -/

section Interleaved

variable [DecidableEq κ]

/-- How much of its script a writer has written. -/
def written (k : κ) (js : List (κ × ω)) : ℕ := (Machine.part k js).length

/-- Every writer has written the beginning of its script. -/
def Interleaves (script : κ → ℕ → ω) (js : List (κ × ω)) : Prop :=
  ∀ k, Machine.part k js = (List.range (written k js)).map (script k)

@[simp] theorem written_nil (k : κ) : written k ([] : List (κ × ω)) = 0 := rfl

theorem written_concat (k j : κ) (w : ω) (js : List (κ × ω)) :
    written k (js ++ [(j, w)]) = written k js + if j = k then 1 else 0 := by
  rw [written, Machine.part_append, List.length_append]
  split_ifs with h
  · rw [h, Machine.part_cons_self]
    rfl
  · rw [Machine.part_cons_of_ne h]
    rfl

theorem written_take_le (k : κ) (i : ℕ) (js : List (κ × ω)) :
    written k (js.take i) ≤ written k js :=
  ((List.take_sublist i js).filterMap _).length_le

theorem written_take_mono (k : κ) {i j : ℕ} (h : i ≤ j) (js : List (κ × ω)) :
    written k (js.take i) ≤ written k (js.take j) :=
  ((List.take_sublist_take_left h).filterMap _).length_le

/-- What a writer has written is in its part. -/
theorem mem_part_iff {k : κ} {w : ω} {js : List (κ × ω)} :
    w ∈ Machine.part k js ↔ (k, w) ∈ js := by
  rw [Machine.part, List.mem_filterMap]
  constructor
  · rintro ⟨⟨j, v⟩, hmem, hv⟩
    split_ifs at hv with hj
    obtain rfl : j = k := hj
    obtain rfl : v = w := Option.some.inj hv
    exact hmem
  · intro hmem
    exact ⟨(k, w), hmem, if_pos rfl⟩

namespace Interleaves

variable {script : κ → ℕ → ω} {js : List (κ × ω)}

theorem nil : Interleaves script [] := fun _ => rfl

/-- A writer goes on with its script. -/
theorem concat (h : Interleaves script js) (k : κ) :
    Interleaves script (js ++ [(k, script k (written k js))]) := by
  intro j
  rw [written_concat, Machine.part_append, h j]
  split_ifs with hk
  · obtain rfl := hk
    rw [Machine.part_cons_self, Machine.part_nil, List.range_succ, List.map_append,
      List.map_singleton]
  · rw [Machine.part_cons_of_ne hk, Machine.part_nil, List.append_nil, Nat.add_zero]

/-- A cut keeps the beginning of every script. -/
theorem take (h : Interleaves script js) (i : ℕ) : Interleaves script (js.take i) := by
  intro k
  have hle := written_take_le k i js
  have hprefix : Machine.part k (js.take i) <+: Machine.part k js := by
    rw [← List.take_append_drop i js, Machine.part_append, List.take_append_drop]
    exact List.prefix_append _ _
  rw [h k] at hprefix
  have htake := List.prefix_iff_eq_take.mp hprefix
  rw [← List.map_take, List.take_range] at htake
  rw [written] at hle ⊢
  rw [Nat.min_eq_left hle] at htake
  exact htake

theorem mem_iff (h : Interleaves script js) {k : κ} {w : ω} :
    (k, w) ∈ js ↔ ∃ n < written k js, script k n = w := by
  rw [← mem_part_iff, h k, List.mem_map]
  simp only [List.mem_range]

/-- The elements of the scripts that are in a journal, whoever wrote them. -/
theorem mem_map_snd_iff (h : Interleaves script js) {w : ω} :
    w ∈ js.map Prod.snd ↔ ∃ k, ∃ n < written k js, script k n = w := by
  rw [List.mem_map]
  constructor
  · rintro ⟨⟨k, v⟩, hmem, rfl⟩
    exact ⟨k, h.mem_iff.mp hmem⟩
  · rintro ⟨k, hk⟩
    exact ⟨(k, w), h.mem_iff.mpr hk, rfl⟩

/-- An element that occurs once is in a cut exactly if the cut keeps more of its script than
comes before it. -/
theorem mem_take_iff (h : Interleaves script js) {k : κ} {n : ℕ}
    (honce : ∀ j, ∀ m < written j js, script j m = script k n → j = k ∧ m = n) (i : ℕ) :
    script k n ∈ (js.take i).map Prod.snd ↔ n < written k (js.take i) := by
  rw [(h.take i).mem_map_snd_iff]
  constructor
  · rintro ⟨j, m, hm, heq⟩
    obtain ⟨rfl, rfl⟩ := honce j m (hm.trans_le (written_take_le j i js)) heq
    exact hm
  · intro hn
    exact ⟨k, n, hn, rfl⟩

end Interleaves

end Interleaved

end Script
