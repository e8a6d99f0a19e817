import Mathlib.Data.List.Basic
import Torpor.Lib.Utf8

/-!
# Bytes as Hexadecimal Digits

A byte is written as two digits, the high half first, in lower case. A digit is read in either
case.

## Main results

* `value_digit`: a digit reads as the number that it was written for.
* `value_asciiByte`: what has a number is a digit in either case, and the number is that of the
  digit in lower case.
* `exists_encode`: a text of so many pairs of lower-case digits is what some bytes are written as.
-/

namespace Hex

open Utf8 (asciiByte)

/-- A number below 16 as a digit. -/
def digit (n : ℕ) : Char := if n < 10 then Char.ofNat (0x30 + n) else Char.ofNat (0x61 + (n - 10))

/-- The number of a digit, given as a byte. -/
def value (b : UInt8) : Option ℕ :=
  if 0x30 ≤ b ∧ b ≤ 0x39 then some (b.toNat - 0x30)
  else if 0x61 ≤ b ∧ b ≤ 0x66 then some (b.toNat - 0x61 + 10)
  else if 0x41 ≤ b ∧ b ≤ 0x46 then some (b.toNat - 0x41 + 10)
  else none

/-- Bytes as digits. -/
def encode (bs : List UInt8) : List Char :=
  bs.flatMap fun b => [digit (b.toNat / 16), digit (b.toNat % 16)]

/-- A digit in lower case. -/
def IsLower (c : Char) : Prop := ∃ n < 16, digit n = c

instance : DecidablePred IsLower := fun _ => inferInstanceAs (Decidable (∃ n < 16, _))

/-- The byte of a digit. -/
def digitByte (n : ℕ) : UInt8 := (digit n).val.toUInt8

theorem encode_digit {n : ℕ} (h : n < 16) : Utf8.encode [digit n] = [digitByte n] := by
  have hall : ∀ n < 16, Utf8.encode [digit n] = [digitByte n] := by decide
  exact hall n h

/-- A digit reads as the number that it was written for. -/
theorem value_digit {n : ℕ} (h : n < 16) : value (digitByte n) = some n := by
  have hall : ∀ n < 16, value (digitByte n) = some n := by decide
  exact hall n h

theorem encode_cons (b : UInt8) (bs : List UInt8) :
    encode (b :: bs) = digit (b.toNat / 16) :: digit (b.toNat % 16) :: encode bs := rfl

theorem length_encode (bs : List UInt8) : (encode bs).length = 2 * bs.length := by
  induction bs with
  | nil => rfl
  | cons b bs ih =>
      rw [encode_cons, List.length_cons, List.length_cons, List.length_cons, ih]
      omega

theorem isLower_encode {bs : List UInt8} {c : Char} (h : c ∈ encode bs) : IsLower c := by
  obtain ⟨b, -, hc⟩ := List.mem_flatMap.mp h
  have hb : b.toNat < 256 := b.toNat_lt
  rcases List.mem_cons.mp hc with rfl | hc
  · exact ⟨_, by omega, rfl⟩
  · rw [List.mem_singleton.mp hc]
    exact ⟨_, by omega, rfl⟩

/-- The bytes of what a byte is written as. -/
theorem utf8_encode_cons (b : UInt8) (bs : List UInt8) :
    Utf8.encode (encode (b :: bs)) =
      digitByte (b.toNat / 16) :: digitByte (b.toNat % 16) :: Utf8.encode (encode bs) := by
  have hb : b.toNat < 256 := b.toNat_lt
  have hhigh := encode_digit (n := b.toNat / 16) (by omega)
  have hlow := encode_digit (n := b.toNat % 16) (by omega)
  simp only [Utf8.encode, List.flatMap_cons, List.flatMap_nil, List.append_nil] at hhigh hlow ⊢
  rw [encode_cons, List.flatMap_cons, List.flatMap_cons, hhigh, hlow]
  rfl

theorem length_utf8_encode (bs : List UInt8) :
    (Utf8.encode (encode bs)).length = 2 * bs.length := by
  induction bs with
  | nil => rfl
  | cons b bs ih =>
      rw [utf8_encode_cons, List.length_cons, List.length_cons, List.length_cons, ih]
      omega

/-- A text of so many pairs of digits in lower case is what some bytes are written as. -/
theorem exists_encode {k : ℕ} {s : List Char} (hlength : s.length = 2 * k)
    (hlower : ∀ c ∈ s, IsLower c) : ∃ bs : List UInt8, bs.length = k ∧ encode bs = s := by
  induction k generalizing s with
  | zero =>
      obtain rfl := List.eq_nil_of_length_eq_zero (hlength.trans (Nat.mul_zero 2))
      exact ⟨[], rfl, rfl⟩
  | succ k ih =>
      match s with
      | c :: d :: s =>
          rw [List.length_cons, List.length_cons] at hlength
          obtain ⟨m, hm, rfl⟩ := hlower c (by simp)
          obtain ⟨n, hn, rfl⟩ := hlower d (by simp)
          obtain ⟨bs, hbs, rfl⟩ := ih (s := s) (by omega) fun c hc => hlower c (by simp [hc])
          have hbyte : (UInt8.ofNat (16 * m + n)).toNat = 16 * m + n := by
            rw [UInt8.toNat_ofNat']
            omega
          refine ⟨UInt8.ofNat (16 * m + n) :: bs, by rw [List.length_cons, hbs], ?_⟩
          rw [encode_cons, hbyte]
          congr 3 <;> omega
      | [] => simp at hlength
      | [_] =>
          rw [List.length_singleton] at hlength
          omega

/-! ### Digits in either case -/

/-- A digit in either case. -/
def IsDigit (c : Char) : Prop := IsLower c.toLower

instance : DecidablePred IsDigit := fun c => inferInstanceAs (Decidable (IsLower c.toLower))

set_option maxRecDepth 4000 in
/-- A digit has a number, and the number is written as the digit in lower case. -/
theorem value_asciiByte {c : Char} (hascii : c.toNat < 128) :
    ((value (asciiByte c)).isSome ↔ IsDigit c) ∧
      ∀ v ∈ value (asciiByte c), v < 16 ∧ digit v = c.toLower := by
  have hall : ∀ n < 128, ((value (asciiByte (Char.ofNat n))).isSome ↔ IsDigit (Char.ofNat n)) ∧
      ∀ v ∈ value (asciiByte (Char.ofNat n)), v < 16 ∧ digit v = (Char.ofNat n).toLower := by
    decide
  have hc := hall c.toNat hascii
  rwa [Char.ofNat_toNat] at hc

theorem asciiByte_eq_plus {c : Char} (hascii : c.toNat < 128) : asciiByte c = 0x2B ↔ c = '+' := by
  have hall : ∀ n < 128, asciiByte (Char.ofNat n) = 0x2B ↔ Char.ofNat n = '+' := by decide
  have hc := hall c.toNat hascii
  rwa [Char.ofNat_toNat] at hc

theorem not_isDigit_plus : ¬IsDigit '+' := by decide

theorem lt_of_isDigit {c : Char} (h : IsDigit c) : c.toNat < 128 := by
  obtain ⟨n, hn, hdigit⟩ := h
  have hall : ∀ n < 16, (digit n).toNat < 128 := by decide
  have hlower := hall n hn
  rw [hdigit] at hlower
  delta Char.toLower at hlower
  split_ifs at hlower with hupper
  · have := hupper.2
    simp only [UInt32.le_iff_toNat_le] at this
    exact lt_of_le_of_lt this (by decide)
  · exact hlower

theorem lt_of_value {b : UInt8} (h : (value b).isSome) : b.toNat < 128 := by
  simp only [value, UInt8.le_iff_toNat_le, UInt8.reduceToNat] at h
  split_ifs at h
  · omega
  · omega
  · omega
  · cases h

end Hex
