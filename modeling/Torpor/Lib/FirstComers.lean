import Mathlib.Data.List.Induction
import Mathlib.Tactic.Common

/-!
# The First Distinct Elements of a List

A bounded set that keeps what it is offered as long as it has room holds the first distinct
elements of what it was offered, in the order in which they came.

## Main results

* `firsts_concat`: one more offer, as the bounded set takes it.
* `mem_firsts_iff`: an element is among the first exactly if some offer of it was taken.
-/

namespace FirstComers

open List

variable {α : Type*} [DecidableEq α]

/-- The first `n` distinct elements. -/
def firsts (n : ℕ) (l : List α) : List α := l.eraseDups.take n

/-- The place `k` is the first one of an element that is among the first `n`. -/
def Introduces (n : ℕ) (l : List α) (k : ℕ) : Prop :=
  ∃ a, l[k]? = some a ∧ a ∉ l.take k ∧ (firsts n (l.take k)).length < n

instance (n : ℕ) (l : List α) (k : ℕ) : Decidable (Introduces n l k) :=
  match h : l[k]? with
  | none => .isFalse fun ⟨_, ha, _⟩ => nomatch h.symm.trans ha
  | some a =>
      decidable_of_iff (a ∉ l.take k ∧ (firsts n (l.take k)).length < n)
        ⟨fun hnew => ⟨a, h, hnew⟩, fun ⟨_, ha, hnew⟩ => Option.some.inj (h.symm.trans ha) ▸ hnew⟩

@[simp] theorem firsts_nil (n : ℕ) : firsts n ([] : List α) = [] := by simp [firsts]

theorem length_firsts_pos {n : ℕ} {l : List α} (hn : 0 < n) (hl : 0 < l.length) :
    0 < (firsts n l).length := by
  cases l with
  | nil => cases hl
  | cons a l =>
      rw [firsts, eraseDups_cons, length_take, length_cons]
      omega

/-- Below the bound nothing is left out. -/
theorem firsts_eq_eraseDups {n : ℕ} {l : List α} (h : (firsts n l).length < n) :
    firsts n l = l.eraseDups := by
  rw [firsts, length_take] at h
  exact take_of_length_le (by omega)

theorem mem_firsts_of_lt {n : ℕ} {l : List α} {a : α} (h : (firsts n l).length < n) :
    a ∈ firsts n l ↔ a ∈ l := by
  rw [firsts_eq_eraseDups h, mem_eraseDups]

/-- One more offer is taken if it is new and there is room. -/
theorem firsts_concat (n : ℕ) (l : List α) (a : α) :
    firsts n (l ++ [a]) =
      if a ∉ firsts n l ∧ (firsts n l).length < n then firsts n l ++ [a] else firsts n l := by
  rw [firsts, eraseDups_append]
  split_ifs with h
  · obtain ⟨hnew, hroom⟩ := h
    have hkept : [a].removeAll l = [a] := by
      simp [removeAll, (mem_firsts_of_lt hroom).not.mp hnew]
    rw [hkept, eraseDups_cons, filter_nil, eraseDups_nil, ← firsts_eq_eraseDups hroom]
    exact take_of_length_le (by rw [length_append, length_singleton]; omega)
  · by_cases hroom : (firsts n l).length < n
    · have hknown : a ∈ l := (mem_firsts_of_lt hroom).mp (by by_contra hnew; exact h ⟨hnew, hroom⟩)
      have hgone : [a].removeAll l = [] := by simp [removeAll, hknown]
      rw [hgone, eraseDups_nil, append_nil, firsts]
    · have hfull : n ≤ l.eraseDups.length := by
        rw [firsts, length_take] at hroom
        omega
      exact take_append_of_le_length hfull

/-- What comes later does not change what a place introduces. -/
theorem introduces_append {n : ℕ} {l l' : List α} {k : ℕ} (hk : k < l.length) :
    Introduces n (l ++ l') k ↔ Introduces n l k := by
  rw [Introduces, Introduces, getElem?_append_left hk, take_append_of_le_length (Nat.le_of_lt hk)]

theorem introduces_length_iff {n : ℕ} {l : List α} {a : α} :
    Introduces n (l ++ [a]) l.length ↔ a ∉ firsts n l ∧ (firsts n l).length < n := by
  rw [Introduces, take_left]
  constructor
  · rintro ⟨b, hb, hnew, hroom⟩
    obtain rfl : a = b := by simpa using hb
    exact ⟨(mem_firsts_of_lt hroom).not.mpr hnew, hroom⟩
  · rintro ⟨hnew, hroom⟩
    exact ⟨a, by simp, (mem_firsts_of_lt hroom).not.mp hnew, hroom⟩

theorem mem_firsts_iff {n : ℕ} {l : List α} {a : α} :
    a ∈ firsts n l ↔ ∃ k, l[k]? = some a ∧ Introduces n l k := by
  induction l using List.reverseRecOn with
  | nil => simp [Introduces]
  | append_singleton l b ih =>
      have hlast : (∃ k, (l ++ [b])[k]? = some a ∧ Introduces n (l ++ [b]) k) ↔
          a ∈ firsts n l ∨ a = b ∧ b ∉ firsts n l ∧ (firsts n l).length < n := by
        rw [ih]
        constructor
        · rintro ⟨k, hk, hintro⟩
          obtain hlt | rfl | hgt := Nat.lt_trichotomy k l.length
          · rw [getElem?_append_left hlt] at hk
            exact .inl ⟨k, hk, (introduces_append hlt).mp hintro⟩
          · have hab : b = a := by simpa using hk
            exact .inr ⟨hab.symm, introduces_length_iff.mp hintro⟩
          · have hnone : (l ++ [b])[k]? = none :=
              getElem?_eq_none (by rw [length_append, length_singleton]; omega)
            rw [hnone] at hk
            cases hk
        · rintro (⟨k, hk, hintro⟩ | ⟨rfl, hintro⟩)
          · have hlt : k < l.length := (List.getElem?_eq_some_iff.mp hk).1
            exact ⟨k, by rw [getElem?_append_left hlt, hk], (introduces_append hlt).mpr hintro⟩
          · exact ⟨l.length, by simp, introduces_length_iff.mpr hintro⟩
      rw [hlast, firsts_concat]
      split_ifs with htaken
      · simp [htaken]
      · simp [htaken]

end FirstComers
