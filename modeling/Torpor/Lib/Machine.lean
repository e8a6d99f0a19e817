import Mathlib.Data.Option.Basic
import Mathlib.Tactic.Common

/-!
# Partial Deterministic Machines

A machine is a partial step function `step : σ → ι → Option σ`: the environment offers an
input, and the machine either takes it or does not enable it. All nondeterminism of a
modelled system (the order of messages, the choices of an untrusted party, the readings of
a clock) is carried by the input list, so that a statement over every run is a statement
over every list of inputs.

## Main results

* `run_append_eq_some`: a run over a concatenation is a run over the parts.
* `run_invariant`: what every step preserves, every run preserves.
* `run_invariant_along`: the same for runs whose steps all meet a condition.
* `along_of_always`: a condition that the property forces holds along every run in which the
  property always holds.
* `always_iff_along`: a property holds in every state of a run exactly if a condition holds along
  it, when each step keeps the property exactly under the condition.
* `run_outputs_invariant`: the same for what a run has put out.
* `along_congr`: conditions that agree under an invariant hold along the same runs.
* `along_iff_at_step`: a condition holds along a run exactly if it holds at each of its steps.
-/

namespace Machine

variable {σ ι : Type*} (step : σ → ι → Option σ)

/-- Run a list of inputs; `none` as soon as an input is not enabled. -/
def run : σ → List ι → Option σ
  | s, [] => some s
  | s, i :: is => (step s i).bind fun s' => run s' is

/-- `Along P s is`: every step of the run of `is` from `s` meets `P`, a condition on the
state before the step and on its input. -/
def Along (P : σ → ι → Prop) : σ → List ι → Prop
  | _, [] => True
  | s, i :: is => P s i ∧ ∀ s', step s i = some s' → Along P s' is

variable {step}

/-- Along a given run, a decidable condition is decidable. -/
instance decidableAlong {P : σ → ι → Prop} [∀ s i, Decidable (P s i)] :
    ∀ s is, Decidable (Along step P s is)
  | _, [] => .isTrue trivial
  | s, i :: is =>
      match h : step s i with
      | none => decidable_of_iff (P s i)
          ⟨fun hp => ⟨hp, fun _ hs' => nomatch h.symm.trans hs'⟩, fun hp => hp.1⟩
      | some s' =>
          have := decidableAlong (P := P) s' is
          decidable_of_iff (P s i ∧ Along step P s' is)
            ⟨fun hp => ⟨hp.1, fun _ ht => Option.some.inj (h.symm.trans ht) ▸ hp.2⟩,
              fun hp => ⟨hp.1, hp.2 s' h⟩⟩

@[simp] theorem run_nil (s : σ) : run step s [] = some s := rfl

theorem run_cons_eq_some {s t : σ} {i : ι} {is : List ι} :
    run step s (i :: is) = some t ↔ ∃ s', step s i = some s' ∧ run step s' is = some t := by
  simp only [run, Option.bind_eq_some_iff]

theorem run_append_eq_some {s t : σ} {is js : List ι} :
    run step s (is ++ js) = some t ↔
      ∃ m, run step s is = some m ∧ run step m js = some t := by
  induction is generalizing s with
  | nil => simp
  | cons i is ih =>
      rw [List.cons_append, run_cons_eq_some]
      constructor
      · rintro ⟨s', hs', hrun⟩
        obtain ⟨m, hm, hjs⟩ := ih.mp hrun
        exact ⟨m, run_cons_eq_some.mpr ⟨s', hs', hm⟩, hjs⟩
      · rintro ⟨m, hm, hjs⟩
        obtain ⟨s', hs', hrun⟩ := run_cons_eq_some.mp hm
        exact ⟨s', hs', ih.mpr ⟨m, hrun, hjs⟩⟩

/-- **Invariant rule.** What every step preserves, every run preserves. -/
theorem run_invariant {Inv : σ → Prop}
    (hstep : ∀ s i s', Inv s → step s i = some s' → Inv s') {s t : σ} {is : List ι}
    (hs : Inv s) (hrun : run step s is = some t) : Inv t := by
  induction is generalizing s with
  | nil =>
      obtain rfl : s = t := by simpa using hrun
      exact hs
  | cons i is ih =>
      obtain ⟨s', hs', hrest⟩ := run_cons_eq_some.mp hrun
      exact ih (hstep s i s' hs hs') hrest

/-- **Conditional invariant rule.** What every step under a condition preserves, every run
along that condition preserves. -/
theorem run_invariant_along {Inv : σ → Prop} {P : σ → ι → Prop}
    (hstep : ∀ s i s', Inv s → P s i → step s i = some s' → Inv s') {s t : σ}
    {is : List ι} (hs : Inv s) (halong : Along step P s is)
    (hrun : run step s is = some t) : Inv t := by
  induction is generalizing s with
  | nil =>
      obtain rfl : s = t := by simpa using hrun
      exact hs
  | cons i is ih =>
      obtain ⟨s', hs', hrest⟩ := run_cons_eq_some.mp hrun
      exact ih (hstep s i s' hs halong.1 hs') (halong.2 s' hs') hrest

/-- **Converse rule.** If a property of the state after a step forces a condition on the step,
and the property holds in every state of a run, then the condition holds along the run. -/
theorem along_of_always {Inv Good : σ → Prop} {P : σ → ι → Prop}
    (hinv : ∀ s i s', Inv s → step s i = some s' → Inv s')
    (hforced : ∀ s i s', Inv s → step s i = some s' → Good s' → P s i)
    (hstuck : ∀ s i, step s i = none → P s i) {s : σ} {is : List ι} (hs : Inv s)
    (hgood : ∀ pre post t, is = pre ++ post → run step s pre = some t → Good t) :
    Along step P s is := by
  induction is generalizing s with
  | nil => trivial
  | cons i is ih =>
      constructor
      · cases hstep : step s i with
        | none => exact hstuck s i hstep
        | some s' =>
            have hs' : Good s' :=
              hgood [i] is s' rfl (run_cons_eq_some.mpr ⟨s', hstep, rfl⟩)
            exact hforced s i s' hs hstep hs'
      · intro s' hstep
        refine ih (hinv s i s' hs hstep) fun pre post t heq hrun => ?_
        exact hgood (i :: pre) post t (by rw [heq]; rfl)
          (run_cons_eq_some.mpr ⟨s', hstep, hrun⟩)

/-! ### Outputs -/

/-- What a run puts out: the outputs of its steps, in order. -/
def outputs {ω : Type*} (step : σ → ι → Option σ) (out : σ → ι → σ → List ω) :
    σ → List ι → List ω
  | _, [] => []
  | s, i :: is =>
      match step s i with
      | none => []
      | some s' => out s i s' ++ outputs step out s' is

theorem outputs_cons {ω : Type*} {out : σ → ι → σ → List ω} {s s' : σ} {i : ι} {is : List ι}
    (h : step s i = some s') :
    outputs step out s (i :: is) = out s i s' ++ outputs step out s' is := by
  simp only [outputs, h]

/-- **Invariant rule with outputs.** What every step under a condition preserves of the outputs
so far and the state, every run along that condition preserves. -/
theorem run_outputs_invariant {ω : Type*} {out : σ → ι → σ → List ω}
    {Inv : List ω → σ → Prop} {P : σ → ι → Prop}
    (hstep : ∀ os s i s', Inv os s → P s i → step s i = some s' → Inv (os ++ out s i s') s')
    {os : List ω} {s t : σ} {is : List ι} (hs : Inv os s) (halong : Along step P s is)
    (hrun : run step s is = some t) : Inv (os ++ outputs step out s is) t := by
  induction is generalizing os s with
  | nil =>
      obtain rfl : s = t := by simpa using hrun
      rwa [outputs, List.append_nil]
  | cons i is ih =>
      obtain ⟨s', hs', hrest⟩ := run_cons_eq_some.mp hrun
      rw [outputs_cons hs', ← List.append_assoc]
      exact ih (hstep os s i s' hs halong.1 hs') (halong.2 s' hs') hrest

/-- A condition that always holds does so along every run. -/
theorem along_of_forall {P : σ → ι → Prop} (h : ∀ s i, P s i) (s : σ) (is : List ι) :
    Along step P s is := by
  induction is generalizing s with
  | nil => trivial
  | cons i is ih => exact ⟨h s i, fun s' _ => ih s'⟩

/-- A condition that every input meets in every state holds along the run. -/
theorem along_of_mem {P : σ → ι → Prop} {is : List ι} (h : ∀ i ∈ is, ∀ s, P s i) (s : σ) :
    Along step P s is := by
  induction is generalizing s with
  | nil => trivial
  | cons i is ih =>
      refine ⟨h i List.mem_cons_self s, fun s' _ => ih (fun j hj => ?_) s'⟩
      exact h j (List.mem_cons_of_mem i hj)

/-- Two conditions that agree wherever an invariant holds, which steps under the first one keep,
hold along the same runs. -/
theorem along_congr {Inv : σ → Prop} {P Q : σ → ι → Prop}
    (hstep : ∀ s i s', Inv s → P s i → step s i = some s' → Inv s')
    (hiff : ∀ s i, Inv s → (P s i ↔ Q s i)) {s : σ} (hs : Inv s) (is : List ι) :
    Along step P s is ↔ Along step Q s is := by
  induction is generalizing s with
  | nil => exact Iff.rfl
  | cons i is ih =>
      constructor
      · rintro ⟨hp, hrest⟩
        refine ⟨(hiff s i hs).mp hp, fun s' hs' => ?_⟩
        exact (ih (hstep s i s' hs hp hs')).mp (hrest s' hs')
      · rintro ⟨hq, hrest⟩
        have hp := (hiff s i hs).mpr hq
        exact ⟨hp, fun s' hs' => (ih (hstep s i s' hs hp hs')).mpr (hrest s' hs')⟩

/-- Two conditions along a run hold together along it. -/
theorem Along.and {P Q : σ → ι → Prop} {s : σ} {is : List ι} (hp : Along step P s is)
    (hq : Along step Q s is) : Along step (fun s i => P s i ∧ Q s i) s is := by
  induction is generalizing s with
  | nil => trivial
  | cons i is ih =>
      exact ⟨⟨hp.1, hq.1⟩, fun s' hs' => ih (hp.2 s' hs') (hq.2 s' hs')⟩

/-- A condition along a concatenated run holds along its first part. -/
theorem Along.left {P : σ → ι → Prop} {s : σ} {is js : List ι}
    (h : Along step P s (is ++ js)) : Along step P s is := by
  induction is generalizing s with
  | nil => trivial
  | cons i is ih => exact ⟨h.1, fun s' hs' => ih (h.2 s' hs')⟩

/-- A condition along a concatenated run holds along its second part. -/
theorem Along.right {P : σ → ι → Prop} {s m : σ} {is js : List ι}
    (h : Along step P s (is ++ js)) (hm : run step s is = some m) :
    Along step P m js := by
  induction is generalizing s with
  | nil =>
      obtain rfl : s = m := by simpa using hm
      exact h
  | cons i is ih =>
      obtain ⟨s', hs', hrest⟩ := run_cons_eq_some.mp hm
      exact ih (h.2 s' hs') hrest

/-- A condition along a run holds at each step the run takes. -/
theorem Along.at_step {P : σ → ι → Prop} {s m : σ} {is js : List ι} {i : ι}
    (h : Along step P s (is ++ i :: js)) (hm : run step s is = some m) : P m i :=
  (h.right hm).1

/-- A condition holds along a run exactly if it holds at each of its steps. -/
theorem along_iff_at_step {P : σ → ι → Prop} {s : σ} {is : List ι} :
    Along step P s is ↔
      ∀ pre i post, is = pre ++ i :: post → ∀ m, run step s pre = some m → P m i := by
  constructor
  · rintro halong pre i post rfl m hm
    exact halong.at_step hm
  · intro hall
    induction is generalizing s with
    | nil => trivial
    | cons i is ih =>
        refine ⟨hall [] i is rfl s rfl, fun s' hs' => ih fun pre j post heq m hm => ?_⟩
        exact hall (i :: pre) j post (by rw [heq]; rfl) m (run_cons_eq_some.mpr ⟨s', hs', hm⟩)

/-- **Exactness rule.** If, from a state with a property, a step leads to one with it exactly
under a condition, then the property holds in every state of a run exactly if the condition holds
along the run. -/
theorem always_iff_along {Inv Good : σ → Prop} {P : σ → ι → Prop}
    (hinv : ∀ s i s', Inv s → step s i = some s' → Inv s')
    (hiff : ∀ s i s', Inv s → Good s → step s i = some s' → (Good s' ↔ P s i))
    (hstuck : ∀ s i, Inv s → step s i = none → P s i) {s : σ} (hs : Inv s) (hgood : Good s)
    (is : List ι) :
    (∀ pre post t, is = pre ++ post → run step s pre = some t → Good t) ↔
      Along step P s is := by
  constructor
  · induction is generalizing s with
    | nil => exact fun _ => trivial
    | cons i is ih =>
        intro hall
        have hnext : ∀ s', step s i = some s' → Good s' := fun s' hstep =>
          hall [i] is s' rfl (run_cons_eq_some.mpr ⟨s', hstep, rfl⟩)
        constructor
        · cases hstep : step s i with
          | none => exact hstuck s i hs hstep
          | some s' => exact (hiff s i s' hs hgood hstep).mp (hnext s' hstep)
        · intro s' hstep
          refine ih (hinv s i s' hs hstep) (hnext s' hstep) fun pre post t heq hrun => ?_
          exact hall (i :: pre) post t (by rw [heq]; rfl)
            (run_cons_eq_some.mpr ⟨s', hstep, hrun⟩)
  · rintro halong pre post t rfl hrun
    have hkept : ∀ s i s', Inv s ∧ Good s → P s i → step s i = some s' → Inv s' ∧ Good s' :=
      fun s i s' h hp hstep =>
        ⟨hinv s i s' h.1 hstep, (hiff s i s' h.1 h.2 hstep).mpr hp⟩
    exact (run_invariant_along hkept ⟨hs, hgood⟩ halong.left hrun).2

end Machine
