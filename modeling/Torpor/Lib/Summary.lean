import Mathlib.Order.Bounds.Basic
import Mathlib.Tactic.Common

/-!
# Summaries of Bits

Bits in groups of `w`, and one bit for each group that tells whether all bits of the group are set.
The first bit that is not set lies in the first group that is not full.

## Main results

* `Summarises.isLeast`: the first clear bit of the first group that is not full is the first one.
* `Summarises.all_iff`: all groups are full exactly if all bits are set.
* `Summarises.update`: the summary after a change of one bit.
-/

namespace GroupSummary

/-- The bits `p` tell of each group of the bits `c` whether it is full. -/
def Summarises (w : ℕ) (p c : ℕ → Bool) : Prop :=
  ∀ g, p g = true ↔ ∀ j < w, c (w * g + j) = true

variable {w : ℕ} {p p' c c' : ℕ → Bool}

/-- A group that is not full has a clear bit. -/
theorem Summarises.exists_clear (h : Summarises w p c) {g : ℕ} (hg : p g = false) :
    ∃ j < w, c (w * g + j) = false := by
  by_contra hnone
  have hfull : p g = true := (h g).mpr fun j hj => by
    by_contra hclear
    exact hnone ⟨j, hj, by simpa using hclear⟩
  rw [hg] at hfull
  cases hfull

/-- The bits of the groups before the first one that is not full are set. -/
theorem Summarises.set_of_lt (h : Summarises w p c) {g i : ℕ} (hg : ∀ g' < g, p g' = true)
    (hi : i < w * g) : c i = true := by
  have hw : 0 < w := Nat.pos_of_ne_zero fun hzero => by
    rw [hzero, Nat.zero_mul] at hi
    omega
  have hfull := (h (i / w)).mp (hg _ (Nat.div_lt_of_lt_mul hi)) (i % w) (Nat.mod_lt i hw)
  rwa [Nat.div_add_mod] at hfull

/-- The first clear bit of the first group that is not full is the first clear bit. -/
theorem Summarises.isLeast (h : Summarises w p c) {g j : ℕ} (hg : IsLeast {g | p g = false} g)
    (hj : c (w * g + j) = false) (hfirst : ∀ j' < j, c (w * g + j') = true) :
    IsLeast {i | c i = false} (w * g + j) := by
  refine ⟨hj, fun i (hi : c i = false) => ?_⟩
  by_contra hlt
  have hset : c i = true := by
    rcases Nat.lt_or_ge i (w * g) with hbefore | hafter
    · refine h.set_of_lt (fun g' hg' => ?_) hbefore
      by_contra hclear
      have hle := hg.2 (show p g' = false by simpa using hclear)
      omega
    · have hset := hfirst (i - w * g) (by omega)
      rwa [Nat.add_sub_cancel' hafter] at hset
  rw [hi] at hset
  cases hset

/-- All groups are full exactly if all bits are set. -/
theorem Summarises.all_iff (h : Summarises w p c) (hw : 0 < w) :
    (∀ g, p g = true) ↔ ∀ i, c i = true := by
  constructor
  · intro hp i
    have hfull := (h (i / w)).mp (hp _) (i % w) (Nat.mod_lt i hw)
    rwa [Nat.div_add_mod] at hfull
  · exact fun hc g => (h g).mpr fun j _ => hc _

/-- All groups of which every bit lies behind a set tail are full. -/
theorem Summarises.tail (h : Summarises w p c) {n g : ℕ} (htail : ∀ i, n ≤ i → c i = true)
    (hg : n ≤ w * g) : p g = true :=
  (h g).mpr fun _ _ => htail _ (by omega)

/-- The summary after a change of one bit. -/
theorem Summarises.update (h : Summarises w p c) {i : ℕ} (hw : 0 < w)
    (hc : ∀ k ≠ i, c' k = c k) (hp : ∀ g ≠ i / w, p' g = p g)
    (hgroup : p' (i / w) = true ↔ ∀ j < w, c' (w * (i / w) + j) = true) : Summarises w p' c' := by
  intro g
  by_cases hg : g = i / w
  · rw [hg]
    exact hgroup
  · rw [hp g hg, h g]
    refine forall₂_congr fun j hj => ?_
    rw [hc]
    rintro rfl
    exact hg (by rw [Nat.mul_add_div hw, Nat.div_eq_of_lt hj, Nat.add_zero])

end GroupSummary
