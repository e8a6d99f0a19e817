import Mathlib.Data.Nat.Bitwise
import Mathlib.Tactic.Ring
import Torpor.Records
import Torpor.Redb.BuddyAllocator

/-!
# Page Numbers

A page is named by its region, by its index among the pages of its order, and by its order. The
three numbers are packed into eight bytes, and they tell where the page is in the file.

## Main results

* `PageNumber.fromLeBytes_toLeBytes`: a page number is recovered from its bytes, if its page ends
  within `2 ^ 20` pages.
-/

namespace Torpor.Redb

/-- `MAX_PAGE_INDEX`. -/
def maxPageIndex : ℕ := 0x000FFFFF

/-- `PageNumber`. -/
structure PageNumber where
  region : ℕ
  pageIndex : ℕ
  pageOrder : ℕ
deriving DecidableEq

namespace PageNumber

/-- `new`. -/
def new (region pageIndex pageOrder : ℕ) : Option PageNumber :=
  if region ≤ 0x000FFFFF ∧ pageIndex ≤ maxPageIndex ∧ pageOrder ≤ maxMaxPageOrder then
    some ⟨region, pageIndex, pageOrder⟩
  else none

/-- `to_le_bytes`. -/
def toLeBytes (p : PageNumber) : List UInt8 :=
  leBytes 8 (0x000FFFFF &&& p.pageIndex ||| (0x000FFFFF &&& p.region) <<< 20 |||
    (0b00011111 &&& p.pageOrder) <<< 59)

/-- `from_le_bytes`. -/
def fromLeBytes (bytes : List UInt8) : PageNumber :=
  let temp := bytes.foldr (fun b n => n * 256 + b.toNat) 0
  let order := temp >>> 59
  ⟨temp >>> 20 &&& 0x000FFFFF, temp &&& 0x000FFFFF >>> order, order⟩

/-- `page_size_bytes`. -/
def pageSizeBytes (p : PageNumber) (pageSize : ℕ) : ℕ := 2 ^ p.pageOrder * pageSize

/-- `address_range`: the start and the end. -/
def addressRange (p : PageNumber) (dataSectionOffset regionSize regionPagesStart pageSize : ℕ) :
    Option (ℕ × ℕ) :=
  let regionalStart := regionPagesStart + p.pageIndex * p.pageSizeBytes pageSize
  if regionalStart < regionSize then
    let start := dataSectionOffset + p.region * regionSize + regionalStart
    some (start, start + p.pageSizeBytes pageSize)
  else none

/-- The packed number has the three numbers side by side. -/
theorem packed_eq {i r o : ℕ} (hi : i < 2 ^ 20) (hr : r < 2 ^ 20) (ho : o < 2 ^ 5) :
    0x000FFFFF &&& i ||| (0x000FFFFF &&& r) <<< 20 ||| (0b00011111 &&& o) <<< 59 =
      i + 2 ^ 20 * r + 2 ^ 59 * o := by
  have hmask : ∀ {k n : ℕ}, n < 2 ^ k → (2 ^ k - 1) &&& n = n := fun {k n} hn => by
    rw [Nat.and_comm, Nat.and_two_pow_sub_one_eq_mod, Nat.mod_eq_of_lt hn]
  rw [show (0x000FFFFF : ℕ) = 2 ^ 20 - 1 from rfl, show (0b00011111 : ℕ) = 2 ^ 5 - 1 from rfl,
    hmask hi, hmask hr, hmask ho, Nat.shiftLeft_eq, Nat.shiftLeft_eq, Nat.mul_comm r,
    Nat.mul_comm o, Nat.or_comm i, ← Nat.two_pow_add_eq_or_of_lt hi,
    Nat.or_comm (2 ^ 20 * r + i), ← Nat.two_pow_add_eq_or_of_lt (by omega)]
  omega

/-- **Round trip.** A page number is recovered from its bytes. -/
theorem fromLeBytes_toLeBytes {p : PageNumber} (hr : p.region < 2 ^ 20)
    (ho : p.pageOrder ≤ maxMaxPageOrder) (hi : (p.pageIndex + 1) * 2 ^ p.pageOrder ≤ 2 ^ 20) :
    fromLeBytes p.toLeBytes = p := by
  obtain ⟨r, i, o⟩ := p
  dsimp only at hr ho hi
  rw [maxMaxPageOrder] at ho
  have hpow : 2 ^ 20 = 2 ^ (20 - o) * 2 ^ o := by rw [← Nat.pow_add, Nat.sub_add_cancel ho]
  have hindex : i < 2 ^ (20 - o) := by
    rw [hpow] at hi
    exact Nat.le_of_mul_le_mul_right hi (Nat.two_pow_pos o)
  have hi' : i < 2 ^ 20 := hindex.trans_le (Nat.pow_le_pow_right (by omega) (Nat.sub_le _ _))
  rw [fromLeBytes, toLeBytes, foldr_leBytes]
  dsimp only
  rw [packed_eq hi' hr (by omega), Nat.mod_eq_of_lt (by omega)]
  have horder : (i + 2 ^ 20 * r + 2 ^ 59 * o) >>> 59 = o := by
    rw [Nat.shiftRight_eq_div_pow]
    omega
  have hregion : (i + 2 ^ 20 * r + 2 ^ 59 * o) >>> 20 &&& 0x000FFFFF = r := by
    rw [Nat.shiftRight_eq_div_pow, show (0x000FFFFF : ℕ) = 2 ^ 20 - 1 from rfl,
      Nat.and_two_pow_sub_one_eq_mod]
    omega
  have hmask : 0x000FFFFF >>> o = 2 ^ (20 - o) - 1 := by
    have hpos := Nat.two_pow_pos o
    have hdiv := Nat.mul_sub_div 0 (2 ^ o) (2 ^ (20 - o)) (by
      rw [Nat.mul_comm, ← hpow]
      omega)
    rw [Nat.mul_comm, ← hpow, Nat.zero_div] at hdiv
    rw [Nat.shiftRight_eq_div_pow]
    exact hdiv
  have hdvd : 2 ^ (20 - o) ∣ 2 ^ 20 * r + 2 ^ 59 * o :=
    Nat.dvd_add ((Nat.pow_dvd_pow 2 (Nat.sub_le _ _)).mul_right _)
      ((Nat.pow_dvd_pow 2 (by omega)).mul_right _)
  obtain ⟨k, hk⟩ := hdvd
  rw [horder, hregion, hmask, Nat.and_two_pow_sub_one_eq_mod, Nat.add_assoc, hk,
    Nat.add_mul_mod_self_left, Nat.mod_eq_of_lt hindex]

end PageNumber

end Torpor.Redb
