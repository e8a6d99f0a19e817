import Mathlib.Data.List.Basic
import Mathlib.Logic.Function.Basic
import Torpor.Lib.Machine

/-!
# Interleavings of Independent Machines

A machine on `κ × ι` takes the steps of several components in any order. It decomposes into one
machine for each component if some relation between its state and the states of the components
is kept both ways: the whole takes an input of a component exactly if the component does, and
then the states are related again, the other components being where they were.

What such a machine does with a schedule then depends on no more than what each component is
given: two schedules with the same inputs for each component, in whatever order, can both be run
or not at all, and end in states that agree about everything that the components determine.

## Main results

* `Decomposes.of_run`, `Decomposes.run_of_parts`: the whole runs a schedule exactly if every
  component runs its part of it.
* `Decomposes.run_map_eq`: schedules with the same parts have the same outcome.
* `part_serial`: one component to the end and then the other is such a schedule.
-/

namespace Machine

variable {κ σ τ ι ω : Type*} [DecidableEq κ]

/-- The inputs of a component in a schedule. -/
def part (k : κ) (is : List (κ × ι)) : List ι :=
  is.filterMap fun i => if i.1 = k then some i.2 else none

@[simp] theorem part_nil (k : κ) : part k ([] : List (κ × ι)) = [] := rfl

@[simp] theorem part_cons_self (k : κ) (i : ι) (is : List (κ × ι)) :
    part k ((k, i) :: is) = i :: part k is := by
  simp [part]

@[simp] theorem part_cons_of_ne {k j : κ} (h : j ≠ k) (i : ι) (is : List (κ × ι)) :
    part k ((j, i) :: is) = part k is := by
  simp [part, h]

theorem part_append (k : κ) (is js : List (κ × ι)) :
    part k (is ++ js) = part k is ++ part k js :=
  List.filterMap_append

/-- A component alone has its own inputs, and no other. -/
theorem part_map (k j : κ) (is : List ι) :
    part k (is.map fun i => (j, i)) = if j = k then is else [] := by
  induction is with
  | nil => simp
  | cons i is ih =>
      obtain rfl | hne := eq_or_ne j k
      · simpa using ih
      · simpa [hne] using ih

/-- A component to the end and then the other: each has the inputs that it had. -/
theorem part_serial (is : List (Bool × ι)) (first k : Bool) :
    part k ((part first is).map (fun i => (first, i)) ++
      (part (!first) is).map fun i => (!first, i)) = part k is := by
  rw [part_append, part_map, part_map]
  cases first <;> cases k <;> simp

/-! ### Decomposition -/

/-- The machine `whole` and the machines `solo k` take the same inputs of each component, and
keep their states related. -/
def Decomposes (whole : σ → κ × ι → Option σ) (solo : κ → τ → ι → Option τ)
    (R : σ → (κ → τ) → Prop) : Prop :=
  ∀ s t k i, R s t →
    Option.Rel (fun s' t' => R s' (Function.update t k t')) (whole s (k, i)) (solo k (t k) i)

namespace Decomposes

variable {whole : σ → κ × ι → Option σ} {solo : κ → τ → ι → Option τ} {R : σ → (κ → τ) → Prop}

/-- A step of the whole is one of its component. -/
theorem of_step (hd : Decomposes whole solo R) {s s' : σ} {t : κ → τ} {k : κ} {i : ι}
    (hr : R s t) (h : whole s (k, i) = some s') :
    ∃ t', solo k (t k) i = some t' ∧ R s' (Function.update t k t') := by
  have hrel := hd s t k i hr
  rw [h] at hrel
  generalize solo k (t k) i = o at hrel
  cases hrel with
  | some hr' => exact ⟨_, rfl, hr'⟩

/-- A step of a component is one of the whole. -/
theorem step_of (hd : Decomposes whole solo R) {s : σ} {t : κ → τ} {k : κ} {i : ι} {t' : τ}
    (hr : R s t) (h : solo k (t k) i = some t') :
    ∃ s', whole s (k, i) = some s' ∧ R s' (Function.update t k t') := by
  have hrel := hd s t k i hr
  rw [h] at hrel
  generalize whole s (k, i) = o at hrel
  cases hrel with
  | some hr' => exact ⟨_, rfl, hr'⟩

/-- If the whole runs a schedule, every component runs its part. -/
theorem of_run (hd : Decomposes whole solo R) {s s' : σ} {t : κ → τ} {is : List (κ × ι)}
    (hr : R s t) (hrun : run whole s is = some s') :
    ∃ t' : κ → τ, (∀ k, run (solo k) (t k) (part k is) = some (t' k)) ∧ R s' t' := by
  induction is generalizing s t with
  | nil =>
      obtain rfl : s = s' := by simpa using hrun
      exact ⟨t, fun k => rfl, hr⟩
  | cons i is ih =>
      obtain ⟨j, i⟩ := i
      obtain ⟨m, hm, hrest⟩ := run_cons_eq_some.mp hrun
      obtain ⟨u, hu, hr'⟩ := hd.of_step hr hm
      obtain ⟨t', ht', hend⟩ := ih hr' hrest
      refine ⟨t', fun k => ?_, hend⟩
      have hk := ht' k
      obtain rfl | hne := eq_or_ne k j
      · rw [Function.update_self] at hk
        rw [part_cons_self]
        exact run_cons_eq_some.mpr ⟨u, hu, hk⟩
      · rw [Function.update_of_ne hne] at hk
        rwa [part_cons_of_ne hne.symm]

/-- If every component runs its part, the whole runs the schedule. -/
theorem run_of_parts (hd : Decomposes whole solo R) {s : σ} {t t' : κ → τ}
    {is : List (κ × ι)} (hr : R s t)
    (hruns : ∀ k, run (solo k) (t k) (part k is) = some (t' k)) :
    ∃ s', run whole s is = some s' ∧ R s' t' := by
  induction is generalizing s t with
  | nil =>
      obtain rfl : t = t' := funext fun k => by simpa using hruns k
      exact ⟨s, rfl, hr⟩
  | cons i is ih =>
      obtain ⟨j, i⟩ := i
      have hj := hruns j
      rw [part_cons_self] at hj
      obtain ⟨u, hu, hrest⟩ := run_cons_eq_some.mp hj
      obtain ⟨m, hm, hr'⟩ := hd.step_of hr hu
      have hparts : ∀ k, run (solo k) (Function.update t j u k) (part k is) = some (t' k) := by
        intro k
        obtain rfl | hne := eq_or_ne k j
        · rwa [Function.update_self]
        · have hk := hruns k
          rw [part_cons_of_ne hne.symm] at hk
          rwa [Function.update_of_ne hne]
      obtain ⟨s', hs', hend⟩ := ih hr' hparts
      exact ⟨s', run_cons_eq_some.mpr ⟨m, hm, hs'⟩, hend⟩

/-- **Independence rule.** Schedules that give every component the same inputs have the same
outcome, if the states of the components determine it. -/
theorem run_map_eq (hd : Decomposes whole solo R) {outcome : σ → ω}
    (hout : ∀ s s' t, R s t → R s' t → outcome s = outcome s') {s : σ} {t : κ → τ}
    (hr : R s t) {is js : List (κ × ι)} (hparts : ∀ k, part k is = part k js) :
    (run whole s is).map outcome = (run whole s js).map outcome := by
  have hsome : ∀ is js : List (κ × ι), (∀ k, part k is = part k js) → ∀ m,
      run whole s is = some m → ∃ n, run whole s js = some n ∧ outcome m = outcome n := by
    intro is js hparts m hm
    obtain ⟨t', hruns, hend⟩ := hd.of_run hr hm
    have hruns' : ∀ k, run (solo k) (t k) (part k js) = some (t' k) :=
      fun k => hparts k ▸ hruns k
    obtain ⟨n, hn, hend'⟩ := hd.run_of_parts hr hruns'
    exact ⟨n, hn, hout m n t' hend hend'⟩
  cases his : run whole s is with
  | some m =>
      obtain ⟨n, hn, heq⟩ := hsome is js hparts m his
      rw [hn, Option.map_some, Option.map_some, heq]
  | none =>
      cases hjs : run whole s js with
      | none => rfl
      | some n =>
          obtain ⟨m, hm, -⟩ := hsome js is (fun k => (hparts k).symm) n hjs
          rw [his] at hm
          cases hm

end Decomposes

end Machine
