import Mathlib.Data.List.Basic
import Mathlib.Data.List.Range
import Mathlib.Tactic.Common
import Mathlib.Tactic.Ring

/-!
# Lists in Blocks of one Length

A list may be kept in blocks of one length, and part of it overwritten. Blocks are read and
written whole, so that what is smaller is overwritten in a copy of the blocks that it touches.

## Main results

* `getElem?_overwrite`: what is at a place after an overwrite.
* `overwrite_overwrite_slice`: to overwrite part of a slice and put the slice back is to overwrite
  that part.
* `flatten_slice`, `flatten_overwrite`: reading and writing blocks is reading and writing the list.
* `getElem?_flatten`: a place of the list is a place of one of its blocks.
-/

namespace Blocks

variable {α : Type*}

/-- The elements from `i` on, `n` of them. -/
def slice (l : List α) (i n : ℕ) : List α := (l.drop i).take n

/-- The list with `d` in the place of what is at `i`. -/
def overwrite (l : List α) (i : ℕ) (d : List α) : List α :=
  l.take i ++ d ++ l.drop (i + d.length)

section List

variable {l d : List α} {i j k n : ℕ}

theorem length_slice (h : i + n ≤ l.length) : (slice l i n).length = n := by
  rw [slice, List.length_take, List.length_drop]
  omega

theorem getElem?_slice (hk : k < n) : (slice l i n)[k]? = l[i + k]? := by
  rw [slice, List.getElem?_take_of_lt hk, List.getElem?_drop]

theorem slice_slice (h : j + k ≤ n) : slice (slice l i n) j k = slice l (i + j) k := by
  rw [slice, slice, slice, List.drop_take, List.take_take, List.drop_drop,
    Nat.min_eq_left (by omega)]

theorem length_overwrite (h : i + d.length ≤ l.length) : (overwrite l i d).length = l.length := by
  rw [overwrite, List.length_append, List.length_append, List.length_take, List.length_drop]
  omega

/-- What is at a place after an overwrite. -/
theorem getElem?_overwrite (h : i + d.length ≤ l.length) (k : ℕ) :
    (overwrite l i d)[k]? = if i ≤ k ∧ k < i + d.length then d[k - i]? else l[k]? := by
  have htake : (l.take i).length = i := by
    rw [List.length_take]
    omega
  rw [overwrite, List.append_assoc]
  obtain hlt | hle := Nat.lt_or_ge k i
  · rw [List.getElem?_append_left (by omega), List.getElem?_take_of_lt hlt, if_neg (by omega)]
  · rw [List.getElem?_append_right (by omega), htake]
    obtain hin | hout := Nat.lt_or_ge k (i + d.length)
    · rw [List.getElem?_append_left (by omega), if_pos ⟨hle, hin⟩]
    · rw [List.getElem?_append_right (by omega), List.getElem?_drop, if_neg (by omega)]
      congr 1
      omega

/-- To overwrite with nothing changes nothing. -/
theorem overwrite_nil (l : List α) (i : ℕ) : overwrite l i [] = l := by
  rw [overwrite, List.append_nil, List.length_nil, Nat.add_zero, List.take_append_drop]

theorem overwrite_all (h : d.length = l.length) : overwrite l 0 d = d := by
  rw [overwrite, Nat.zero_add, h, List.drop_length, List.append_nil, List.take_zero,
    List.nil_append]

theorem set_eq_overwrite (h : i < l.length) (a : α) : l.set i a = overwrite l i [a] := by
  rw [List.set_eq_take_append_cons_drop, if_pos h, overwrite, List.append_assoc]
  rfl

/-- Two overwrites, one behind the other, are one. -/
theorem overwrite_append {e : List α} (h : i + d.length + e.length ≤ l.length) :
    overwrite (overwrite l i d) (i + d.length) e = overwrite l i (d ++ e) := by
  have hd : i + d.length ≤ l.length := by omega
  have hlength := length_overwrite hd
  refine List.ext_getElem? fun k => ?_
  rw [getElem?_overwrite (by omega), getElem?_overwrite hd,
    getElem?_overwrite (by rw [List.length_append]; omega), List.length_append]
  by_cases hfirst : i ≤ k ∧ k < i + d.length
  · rw [if_neg (by omega), if_pos hfirst, if_pos (by omega),
      List.getElem?_append_left (by omega)]
  · by_cases hsecond : i + d.length ≤ k ∧ k < i + d.length + e.length
    · rw [if_pos hsecond, if_pos (by omega), List.getElem?_append_right (by omega)]
      congr 1
      omega
    · rw [if_neg hsecond, if_neg hfirst, if_neg (by omega)]

/-- An overwrite of two lists joined, from a place in the first one on, is one of each. -/
theorem overwrite_append_split {r : List α} (hi : i ≤ l.length)
    (h : i + d.length ≤ l.length + r.length) :
    overwrite (l ++ r) i d =
      overwrite l i (d.take (l.length - i)) ++ overwrite r 0 (d.drop (l.length - i)) := by
  have htake : (d.take (l.length - i)).length = min (l.length - i) d.length := List.length_take
  have hdrop : (d.drop (l.length - i)).length = d.length - (l.length - i) := List.length_drop
  have hleft : (overwrite l i (d.take (l.length - i))).length = l.length :=
    length_overwrite (by omega)
  refine List.ext_getElem? fun k => ?_
  rw [getElem?_overwrite (by rw [List.length_append]; exact h)]
  obtain hlt | hle := Nat.lt_or_ge k l.length
  · rw [List.getElem?_append_left hlt, List.getElem?_append_left (by omega),
      getElem?_overwrite (by omega)]
    by_cases hin : i ≤ k ∧ k < i + d.length
    · rw [if_pos hin, if_pos (by omega), List.getElem?_take_of_lt (by omega)]
    · rw [if_neg hin, if_neg (by omega)]
  · rw [List.getElem?_append_right hle, List.getElem?_append_right (by omega), hleft,
      getElem?_overwrite (by omega)]
    by_cases hin : i ≤ k ∧ k < i + d.length
    · rw [if_pos hin, if_pos (by omega), List.getElem?_drop]
      congr 1
      omega
    · rw [if_neg hin, if_neg (by omega)]

/-- To overwrite part of a slice and put the slice back is to overwrite that part. -/
theorem overwrite_overwrite_slice (h : i + n ≤ l.length) (hd : j + d.length ≤ n) :
    overwrite l i (overwrite (slice l i n) j d) = overwrite l (i + j) d := by
  have hslice := length_slice h
  have hpart : (overwrite (slice l i n) j d).length = n := by
    rw [length_overwrite (by omega), hslice]
  refine List.ext_getElem? fun k => ?_
  rw [getElem?_overwrite (by omega), getElem?_overwrite (l := l) (by omega), hpart]
  by_cases hin : i ≤ k ∧ k < i + n
  · rw [if_pos hin, getElem?_overwrite (by omega)]
    by_cases hpart : j ≤ k - i ∧ k - i < j + d.length
    · rw [if_pos hpart, if_pos (by omega), Nat.sub_sub]
    · rw [if_neg hpart, if_neg (by omega), getElem?_slice (by omega)]
      congr 1
      omega
  · rw [if_neg hin, if_neg (by omega)]

end List

/-! ### Blocks -/

section Blocks

variable {bs : List (List α)} {k m n : ℕ}

theorem length_flatten (h : ∀ b ∈ bs, b.length = k) : bs.flatten.length = bs.length * k := by
  induction bs with
  | nil => rw [List.flatten_nil, List.length_nil, List.length_nil, Nat.zero_mul]
  | cons b bs ih =>
      rw [List.flatten_cons, List.length_append, h b List.mem_cons_self,
        ih fun c hc => h c (List.mem_cons_of_mem b hc), List.length_cons]
      ring

theorem flatten_drop (h : ∀ b ∈ bs, b.length = k) (n : ℕ) :
    (bs.drop n).flatten = bs.flatten.drop (n * k) := by
  induction bs generalizing n with
  | nil => simp
  | cons b bs ih =>
      have hb : b.length = k := h b List.mem_cons_self
      cases n with
      | zero => simp
      | succ n =>
          have hsplit : (n + 1) * k = b.length + n * k := by
            rw [hb]
            ring
          rw [List.drop_succ_cons, ih (fun c hc => h c (List.mem_cons_of_mem b hc)),
            List.flatten_cons, hsplit, List.drop_length_add_append]

theorem flatten_take (h : ∀ b ∈ bs, b.length = k) (n : ℕ) :
    (bs.take n).flatten = bs.flatten.take (n * k) := by
  induction bs generalizing n with
  | nil => simp
  | cons b bs ih =>
      have hb : b.length = k := h b List.mem_cons_self
      cases n with
      | zero => simp
      | succ n =>
          have hsplit : (n + 1) * k = b.length + n * k := by
            rw [hb]
            ring
          rw [List.take_succ_cons, List.flatten_cons,
            ih (fun c hc => h c (List.mem_cons_of_mem b hc)), List.flatten_cons, hsplit,
            List.take_length_add_append]

/-- A place of the list is a place of one of its blocks. -/
theorem getElem?_flatten (h : ∀ b ∈ bs, b.length = k) (m : ℕ) {j : ℕ} (hj : j < k) :
    bs.flatten[m * k + j]? = bs[m]?.bind fun b => b[j]? := by
  induction bs generalizing m with
  | nil => rfl
  | cons b bs ih =>
      have hb : b.length = k := h b List.mem_cons_self
      cases m with
      | zero =>
          rw [List.flatten_cons, Nat.zero_mul, Nat.zero_add, List.getElem?_append_left (by omega)]
          rfl
      | succ m =>
          have hplace : (m + 1) * k + j = b.length + (m * k + j) := by
            rw [hb]
            ring
          rw [List.flatten_cons, hplace, List.getElem?_append_right (Nat.le_add_right _ _),
            Nat.add_sub_cancel_left, ih fun c hc => h c (List.mem_cons_of_mem b hc)]
          rfl

/-- Reading blocks is reading the list. -/
theorem flatten_slice (h : ∀ b ∈ bs, b.length = k) (m n : ℕ) :
    (slice bs m n).flatten = slice bs.flatten (m * k) (n * k) := by
  have hdrop : ∀ b ∈ bs.drop m, b.length = k := fun b hb => h b (List.mem_of_mem_drop hb)
  rw [slice, flatten_take hdrop, flatten_drop h, slice]

/-- Writing blocks is writing the list. -/
theorem flatten_overwrite {ds : List (List α)} (h : ∀ b ∈ bs, b.length = k)
    (hds : ∀ b ∈ ds, b.length = k) (m : ℕ) :
    (overwrite bs m ds).flatten = overwrite bs.flatten (m * k) ds.flatten := by
  rw [overwrite, List.flatten_append, List.flatten_append, flatten_take h, flatten_drop h,
    overwrite, length_flatten hds, Nat.add_mul]

/-- A list cut into `n` blocks of length `k`. -/
def chunks (k n : ℕ) (l : List α) : List (List α) :=
  (List.range n).map fun i => slice l (i * k) k

theorem length_chunks (k n : ℕ) (l : List α) : (chunks k n l).length = n := by
  rw [chunks, List.length_map, List.length_range]

theorem length_of_mem_chunks {l : List α} (h : n * k ≤ l.length) {b : List α}
    (hb : b ∈ chunks k n l) : b.length = k := by
  obtain ⟨i, hi, rfl⟩ := List.mem_map.mp hb
  have hle : (i + 1) * k ≤ n * k := Nat.mul_le_mul_right k (List.mem_range.mp hi)
  rw [Nat.add_mul, Nat.one_mul] at hle
  exact length_slice (by omega)

theorem flatten_chunks (k n : ℕ) (l : List α) : (chunks k n l).flatten = l.take (n * k) := by
  induction n with
  | zero => simp [chunks]
  | succ n ih =>
      have hsplit : (n + 1) * k = n * k + k := by ring
      rw [chunks, List.range_succ, List.map_append, List.flatten_append, ← chunks, ih, hsplit,
        List.take_add, List.map_singleton, List.flatten_singleton, slice]

theorem mem_overwrite {ds : List (List α)} {b : List α} (hb : b ∈ overwrite bs m ds) :
    b ∈ bs ∨ b ∈ ds := by
  simp only [overwrite, List.mem_append] at hb
  obtain (hb | hb) | hb := hb
  · exact .inl (List.mem_of_mem_take hb)
  · exact .inr hb
  · exact .inl (List.mem_of_mem_drop hb)

end Blocks

end Blocks
