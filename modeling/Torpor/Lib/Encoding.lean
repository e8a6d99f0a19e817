import Mathlib.Data.List.Basic
import Mathlib.Tactic.Common

/-!
# Prefix-Injective Encodings

An encoder into lists is prefix-injective when an encoded value is recovered from any list
it starts, together with the rest of that list. Such encoders compose by concatenation,
which is what an injective serialisation of nested records needs.

## Main results

* `PrefixInj.injective`: a prefix-injective encoder is injective.
* `PrefixInj.append`: two encoders over the fields of a record compose.
* `prefixInj_single`, `PrefixInj.option`, `PrefixInj.list`: the encoders of numbers,
  options and lists.
-/

namespace Encoding

variable {α β γ τ : Type*}

/-- The encoded value and the rest of the list are both determined. -/
def PrefixInj (enc : α → List τ) : Prop :=
  ∀ a b s t, enc a ++ s = enc b ++ t → a = b ∧ s = t

/-- A prefix-injective encoder is injective. -/
theorem PrefixInj.injective {enc : α → List τ} (h : PrefixInj enc) :
    Function.Injective enc := by
  intro a b hab
  exact (h a b [] [] (by rw [hab])).1

/-- Encode through an injective view of the value. -/
theorem PrefixInj.comp {enc : β → List τ} (h : PrefixInj enc) {f : α → β}
    (hf : Function.Injective f) : PrefixInj fun a => enc (f a) := by
  intro a b s t hab
  obtain ⟨hfab, hst⟩ := h _ _ _ _ hab
  exact ⟨hf hfab, hst⟩

/-- The fields of a pair are encoded one after the other. -/
theorem PrefixInj.append {encA : α → List τ} {encB : β → List τ} (hA : PrefixInj encA)
    (hB : PrefixInj encB) : PrefixInj fun p : α × β => encA p.1 ++ encB p.2 := by
  rintro ⟨a, b⟩ ⟨a', b'⟩ s t h
  simp only [List.append_assoc] at h
  obtain ⟨rfl, hrest⟩ := hA _ _ _ _ h
  obtain ⟨rfl, rfl⟩ := hB _ _ _ _ hrest
  exact ⟨rfl, rfl⟩

/-- One symbol encodes itself. -/
theorem prefixInj_single : PrefixInj fun a : τ => [a] := by
  intro a b s t h
  simpa using h

/-- An optional value: a tag, then the value if there is one. -/
def encodeOption (enc : α → List ℕ) : Option α → List ℕ
  | none => [0]
  | some a => 1 :: enc a

theorem PrefixInj.option {enc : α → List ℕ} (h : PrefixInj enc) :
    PrefixInj (encodeOption enc) := by
  rintro (_ | a) (_ | b) s t hab
  · simpa [encodeOption] using hab
  · simp [encodeOption] at hab
  · simp [encodeOption] at hab
  · simp only [encodeOption, List.cons_append, List.cons.injEq, true_and] at hab
    obtain ⟨rfl, rfl⟩ := h _ _ _ _ hab
    exact ⟨rfl, rfl⟩

/-- A list: its length, then its elements. -/
def encodeList (enc : α → List ℕ) (l : List α) : List ℕ :=
  l.length :: l.flatMap enc

theorem PrefixInj.list {enc : α → List ℕ} (h : PrefixInj enc) :
    PrefixInj (encodeList enc) := by
  -- the lengths agree by the head, so the two element lists are walked together
  have walk : ∀ (l l' : List α) (s t : List ℕ), l.length = l'.length →
      l.flatMap enc ++ s = l'.flatMap enc ++ t → l = l' ∧ s = t := by
    intro l
    induction l with
    | nil =>
        intro l' s t hlen hst
        obtain rfl : l' = [] := List.eq_nil_of_length_eq_zero hlen.symm
        exact ⟨rfl, by simpa using hst⟩
    | cons a l ih =>
        intro l' s t hlen hst
        obtain ⟨b, l', rfl⟩ : ∃ b l'', l' = b :: l'' :=
          List.exists_cons_of_length_eq_add_one hlen.symm
        simp only [List.flatMap_cons, List.append_assoc] at hst
        obtain ⟨rfl, hrest⟩ := h _ _ _ _ hst
        obtain ⟨rfl, rfl⟩ := ih l' s t (by simpa using hlen) hrest
        exact ⟨rfl, rfl⟩
  intro l l' s t hab
  simp only [encodeList, List.cons_append, List.cons.injEq] at hab
  exact walk l l' s t hab.1 hab.2

end Encoding
