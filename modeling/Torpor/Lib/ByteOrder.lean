import Mathlib.Data.List.Lex
import Mathlib.Order.Lattice
import Mathlib.Tactic.Common

/-!
# The Order of Byte Strings

Byte strings in the order of an ordered key-value store: byte by byte, a proper start of a
string before the string. A key that joins fields of fixed width compares field by field.

## Main results

* `append_lt_append_iff`: how two joined strings compare.
* `append_lt_iff`: how a joined string compares with one as long as its first part.
-/

namespace ByteOrder

scoped instance linearOrderUInt8 : LinearOrder UInt8 where
  le_refl := UInt8.le_refl
  le_trans _ _ _ := UInt8.le_trans
  le_antisymm _ _ := UInt8.le_antisymm
  le_total := UInt8.le_total
  lt_iff_le_not_ge a b := by
    rw [UInt8.le_iff_toNat_le, UInt8.le_iff_toNat_le, UInt8.lt_iff_toNat_lt]
    omega
  toDecidableLE := inferInstance

variable {α : Type*} [LinearOrder α]

/-- Joined strings compare by their first parts, and by their second parts when these agree. -/
theorem append_lt_append_iff {a a' : List α} (h : a.length = a'.length) (b b' : List α) :
    a ++ b < a' ++ b' ↔ a < a' ∨ (a = a' ∧ b < b') := by
  induction a generalizing a' with
  | nil =>
      obtain rfl : a' = [] := List.eq_nil_of_length_eq_zero h.symm
      simp
  | cons x a ih =>
      obtain ⟨y, a', rfl⟩ := List.exists_cons_of_length_eq_add_one h.symm
      have hlen : a.length = a'.length := by simpa using h
      rw [List.cons_append, List.cons_append, List.cons_lt_cons_iff, List.cons_lt_cons_iff,
        ih hlen, List.cons.injEq]
      tauto

/-- A joined string is below a string as long as its first part when that part is. -/
theorem append_lt_iff {a a' : List α} (h : a.length = a'.length) (b : List α) :
    a ++ b < a' ↔ a < a' := by
  have happend := append_lt_append_iff h b []
  rw [List.append_nil] at happend
  rw [happend]
  simp

end ByteOrder
