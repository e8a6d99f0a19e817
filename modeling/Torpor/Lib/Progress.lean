import Torpor.Lib.Machine

/-!
# Machines That Come to an End

If every step of a machine lowers a measure, no run is longer than the measure of where it begins;
and if the machine is not stuck before its end, every run can be continued to one that ends.

## Main results

* `length_add_le`: a run is no longer than what it takes off the measure.
* `exists_run_to_end`: from every state that satisfies the invariant some run leads to the end.
-/

namespace Machine

variable {σ ι : Type*} {step : σ → ι → Option σ} {Inv : σ → Prop} {μ : σ → ℕ}

/-- A run is no longer than what it takes off the measure. -/
theorem length_add_le (hinv : ∀ s i s', Inv s → step s i = some s' → Inv s')
    (hless : ∀ s i s', Inv s → step s i = some s' → μ s' < μ s) {s t : σ} {is : List ι}
    (hs : Inv s) (hrun : run step s is = some t) : is.length + μ t ≤ μ s := by
  induction is generalizing s with
  | nil =>
      obtain rfl : s = t := by simpa using hrun
      exact Nat.le_of_eq (Nat.zero_add _)
  | cons i is ih =>
      obtain ⟨m, hm, hrest⟩ := run_cons_eq_some.mp hrun
      have hle := ih (hinv s i m hs hm) hrest
      have hlt := hless s i m hs hm
      rw [List.length_cons]
      omega

/-- From every state that satisfies the invariant some run leads to the end. -/
theorem exists_run_to_end {End : σ → Prop}
    (hinv : ∀ s i s', Inv s → step s i = some s' → Inv s')
    (hless : ∀ s i s', Inv s → step s i = some s' → μ s' < μ s)
    (hnext : ∀ s, Inv s → End s ∨ ∃ i s', step s i = some s') {s : σ} (hs : Inv s) :
    ∃ is t, run step s is = some t ∧ End t := by
  induction hn : μ s using Nat.strongRecOn generalizing s with
  | ind n ih =>
      rcases hnext s hs with hend | ⟨i, m, hm⟩
      · exact ⟨[], s, rfl, hend⟩
      · have hlt := hless s i m hs hm
        obtain ⟨is, t, hrun, hend⟩ := ih (μ m) (by omega) (hinv s i m hs hm) rfl
        exact ⟨i :: is, t, run_cons_eq_some.mpr ⟨m, hm, hrun⟩, hend⟩

end Machine
