import Mathlib.Data.List.Sort
import Mathlib.Tactic.Common

/-!
# Sorted Indexes

An ordered set of keys, kept as a strictly increasing list: what a range scan over the keys
of an ordered key-value store returns, and what an insertion does to positions in it.

## Main results

* `sorted_insertKey`, `mem_insertKey`: insertion keeps the order and adds one key.
* `take_insertKey`: a key above the first `n` keys leaves them in place.
* `filter_insertKey`: restricting the index to some of its keys commutes with insertion.
* `insertKey_map`: a renaming that keeps the order commutes with insertion.
* `dropWhile_eq_filter`, `takeWhile_eq_filter`: seeking and scanning while a condition
  holds that cannot come back is filtering.
-/

namespace SortedIndex

variable {κ : Type*} [LinearOrder κ]

/-- The keys in strictly increasing order. -/
abbrev Sorted (l : List κ) : Prop := l.Pairwise (· < ·)

/-- Insert a key at its place, unless it is there already. -/
def insertKey (k : κ) (l : List κ) : List κ :=
  if k ∈ l then l else l.orderedInsert (· ≤ ·) k

theorem insertKey_of_mem {k : κ} {l : List κ} (h : k ∈ l) : insertKey k l = l :=
  if_pos h

@[simp] theorem mem_insertKey {k x : κ} {l : List κ} :
    x ∈ insertKey k l ↔ x = k ∨ x ∈ l := by
  unfold insertKey
  split_ifs with h
  · exact ⟨.inr, by rintro (rfl | hx) <;> assumption⟩
  · exact List.mem_orderedInsert _

/-- When every key is above `k`, none is below. -/
theorem filter_of_forall_lt {k : κ} {l : List κ} (h : ∀ x ∈ l, k < x) :
    l.filter (· < k) = [] ∧ l.filter (k < ·) = l := by
  refine ⟨List.filter_eq_nil_iff.mpr fun x hx => ?_, List.filter_eq_self.mpr fun x hx => ?_⟩
  · simpa using (h x hx).le
  · simpa using h x hx

/-- A key below the head of a sorted list is below all of it. -/
theorem Sorted.forall_lt {k a : κ} {l : List κ} (hs : Sorted (a :: l)) (h : k < a) :
    ∀ x ∈ a :: l, k < x := by
  intro x hx
  rcases List.mem_cons.mp hx with rfl | hx
  · exact h
  · exact h.trans ((List.pairwise_cons.mp hs).1 x hx)

/-- A new key goes between the keys below it and the keys above it. -/
theorem insertKey_eq_append {k : κ} {l : List κ} (hs : Sorted l) (h : k ∉ l) :
    insertKey k l = l.filter (· < k) ++ k :: l.filter (k < ·) := by
  rw [insertKey, if_neg h]
  induction l with
  | nil => rfl
  | cons a l ih =>
      have hl := (List.pairwise_cons.mp hs).2
      have hka : k ≠ a := fun heq => h (heq ▸ List.mem_cons_self)
      have hkl : k ∉ l := fun hm => h (List.mem_cons_of_mem a hm)
      rcases lt_or_gt_of_ne hka with hlt | hgt
      · rw [List.orderedInsert_cons_of_le _ _ hlt.le]
        obtain ⟨hbelow, habove⟩ := filter_of_forall_lt (hs.forall_lt hlt)
        rw [hbelow, habove, List.nil_append]
      · rw [List.orderedInsert_of_not_le _ _ (not_le.mpr hgt), ih hl hkl]
        simp [hgt, not_lt.mpr hgt.le]

/-- A key above all others goes to the end. -/
theorem insertKey_of_forall_lt {k : κ} {l : List κ} (h : ∀ x ∈ l, x < k) :
    insertKey k l = l ++ [k] := by
  have hk : k ∉ l := fun hmem => lt_irrefl k (h k hmem)
  rw [insertKey, if_neg hk]
  clear hk
  induction l with
  | nil => rfl
  | cons a l ih =>
      have hak : ¬ k ≤ a := not_le.mpr (h a List.mem_cons_self)
      have hl : ∀ x ∈ l, x < k := fun x hx => h x (List.mem_cons_of_mem a hx)
      rw [List.orderedInsert_of_not_le _ _ hak, ih hl, List.cons_append]

/-- Insertion keeps the keys in strictly increasing order. -/
theorem sorted_insertKey {k : κ} {l : List κ} (hs : Sorted l) : Sorted (insertKey k l) := by
  by_cases h : k ∈ l
  · rwa [insertKey_of_mem h]
  · rw [insertKey_eq_append hs h]
    refine List.pairwise_append.mpr ⟨hs.filter _, ?_, ?_⟩
    · exact List.pairwise_cons.mpr ⟨fun x hx => by simpa using (List.mem_filter.mp hx).2,
        hs.filter _⟩
    · intro a ha b hb
      have hak : a < k := by simpa using (List.mem_filter.mp ha).2
      rcases List.mem_cons.mp hb with rfl | hb
      · exact hak
      · exact hak.trans (by simpa using (List.mem_filter.mp hb).2)

/-- A key above the first `n` keys leaves them in place. -/
theorem take_insertKey {k : κ} {l : List κ} {n : ℕ} (hn : n ≤ l.length)
    (h : ∀ x ∈ l.take n, x < k) : (insertKey k l).take n = l.take n := by
  by_cases hk : k ∈ l
  · rw [insertKey_of_mem hk]
  · rw [insertKey, if_neg hk]
    clear hk
    induction l generalizing n with
    | nil =>
        obtain rfl : n = 0 := by simpa using hn
        rfl
    | cons a l ih =>
        cases n with
        | zero => rfl
        | succ n =>
            have hak : a < k := h a (by simp)
            rw [List.orderedInsert_of_not_le _ _ (not_le.mpr hak), List.take_succ_cons,
              List.take_succ_cons, ih (by simpa using hn)]
            intro x hx
            exact h x (by simp [hx])

/-- A new key makes the index one longer. -/
theorem length_insertKey {k : κ} {l : List κ} (h : k ∉ l) :
    (insertKey k l).length = l.length + 1 := by
  rw [insertKey, if_neg h, List.orderedInsert_length]

/-- Without the key `k`, the keys below and above it are all of them. -/
theorem filter_append_filter {k : κ} {l : List κ} (hs : Sorted l) (hk : k ∉ l) :
    l.filter (· < k) ++ l.filter (k < ·) = l := by
  induction l with
  | nil => rfl
  | cons a l ih =>
      have hka : k ≠ a := fun heq => hk (heq ▸ List.mem_cons_self)
      have hkl : k ∉ l := fun h => hk (List.mem_cons_of_mem a h)
      rcases lt_or_gt_of_ne hka with hlt | hgt
      · obtain ⟨hbelow, habove⟩ := filter_of_forall_lt (hs.forall_lt hlt)
        rw [hbelow, habove, List.nil_append]
      · simpa [hgt, not_lt.mpr hgt.le] using ih (List.pairwise_cons.mp hs).2 hkl

/-- Restricting the index to the keys that satisfy `p` commutes with insertion. -/
theorem filter_insertKey {p : κ → Bool} {k : κ} {l : List κ} (hs : Sorted l) :
    (insertKey k l).filter p = if p k then insertKey k (l.filter p) else l.filter p := by
  by_cases hk : k ∈ l
  · rw [insertKey_of_mem hk]
    split_ifs with hp
    · rw [insertKey_of_mem (List.mem_filter.mpr ⟨hk, hp⟩)]
    · rfl
  · have hkf : k ∉ l.filter p := fun hm => hk (List.mem_filter.mp hm).1
    have hcomm : ∀ q : κ → Bool, (l.filter q).filter p = (l.filter p).filter q := by
      intro q
      rw [List.filter_filter, List.filter_filter]
      exact List.filter_congr fun x _ => Bool.and_comm _ _
    rw [insertKey_eq_append hs hk, List.filter_append, hcomm]
    split_ifs with hp
    · rw [insertKey_eq_append (hs.filter p) hkf, List.filter_cons_of_pos hp, hcomm]
    · rw [List.filter_cons_of_neg hp, hcomm]
      exact filter_append_filter (hs.filter p) hkf

/-- Keys that are renamed without changing their order are inserted at the same place. -/
theorem insertKey_map {ι : Type*} [LinearOrder ι] {f : κ → ι} {k : κ} {l : List κ}
    (hs : Sorted l) (hf : ∀ a ∈ insertKey k l, ∀ b ∈ insertKey k l, a < b → f a < f b) :
    insertKey (f k) (l.map f) = (insertKey k l).map f := by
  have hsub : ∀ x ∈ l, x ∈ insertKey k l := fun x hx => mem_insertKey.mpr (.inr hx)
  have hmap : ∀ l' : List κ, Sorted l' → (∀ x ∈ l', x ∈ insertKey k l) →
      Sorted (l'.map f) := by
    intro l' hs' hmem
    refine List.pairwise_map.mpr (hs'.imp_of_mem fun ha hb hlt => ?_)
    exact hf _ (hmem _ ha) _ (hmem _ hb) hlt
  have hleft : Sorted (insertKey (f k) (l.map f)) := sorted_insertKey (hmap l hs hsub)
  have hright : Sorted ((insertKey k l).map f) :=
    hmap _ (sorted_insertKey hs) fun x hx => hx
  refine hleft.eq_of_mem_iff hright fun x => ?_
  simp only [mem_insertKey, List.mem_map]
  constructor
  · rintro (rfl | ⟨y, hy, rfl⟩)
    · exact ⟨k, .inl rfl, rfl⟩
    · exact ⟨y, .inr hy, rfl⟩
  · rintro ⟨y, rfl | hy, rfl⟩
    · exact .inl rfl
    · exact .inr ⟨y, hy, rfl⟩

/-- Seeking past the keys that satisfy a condition which, once false, stays false. -/
theorem dropWhile_eq_filter {p : κ → Bool} {l : List κ} (hs : Sorted l)
    (hp : ∀ a ∈ l, ∀ b ∈ l, a < b → p b → p a) :
    l.dropWhile p = l.filter fun k => !p k := by
  induction l with
  | nil => rfl
  | cons a l ih =>
      obtain ⟨ha, hl⟩ := List.pairwise_cons.mp hs
      have hp' : ∀ x ∈ l, ∀ y ∈ l, x < y → p y → p x := fun x hx y hy =>
        hp x (List.mem_cons_of_mem a hx) y (List.mem_cons_of_mem a hy)
      by_cases hpa : p a
      · rw [List.dropWhile_cons_of_pos hpa, ih hl hp', List.filter_cons_of_neg (by simp [hpa])]
      · rw [List.dropWhile_cons_of_neg hpa, eq_comm, List.filter_eq_self]
        intro x hx
        rcases List.mem_cons.mp hx with rfl | hx
        · simpa using hpa
        · have : ¬ p x := fun hpx =>
            hpa (hp a List.mem_cons_self x (List.mem_cons_of_mem a hx) (ha x hx) hpx)
          simpa using this

/-- Two conditions that agree on the keys seek to the same place, and scan the same. -/
theorem dropWhile_congr {κ : Type*} {p q : κ → Bool} {l : List κ} (h : ∀ x ∈ l, p x = q x) :
    l.dropWhile p = l.dropWhile q := by
  induction l with
  | nil => rfl
  | cons a l ih =>
      rw [List.dropWhile_cons, List.dropWhile_cons, h a List.mem_cons_self,
        ih fun x hx => h x (List.mem_cons_of_mem a hx)]

theorem takeWhile_congr {κ : Type*} {p q : κ → Bool} {l : List κ} (h : ∀ x ∈ l, p x = q x) :
    l.takeWhile p = l.takeWhile q := by
  induction l with
  | nil => rfl
  | cons a l ih =>
      rw [List.takeWhile_cons, List.takeWhile_cons, h a List.mem_cons_self,
        ih fun x hx => h x (List.mem_cons_of_mem a hx)]

/-- Scanning while such a condition holds. -/
theorem takeWhile_eq_filter {p : κ → Bool} {l : List κ} (hs : Sorted l)
    (hp : ∀ a ∈ l, ∀ b ∈ l, a < b → p b → p a) : l.takeWhile p = l.filter p := by
  induction l with
  | nil => rfl
  | cons a l ih =>
      obtain ⟨ha, hl⟩ := List.pairwise_cons.mp hs
      have hp' : ∀ x ∈ l, ∀ y ∈ l, x < y → p y → p x := fun x hx y hy =>
        hp x (List.mem_cons_of_mem a hx) y (List.mem_cons_of_mem a hy)
      by_cases hpa : p a
      · rw [List.takeWhile_cons_of_pos hpa, List.filter_cons_of_pos hpa, ih hl hp']
      · rw [List.takeWhile_cons_of_neg hpa, eq_comm, List.filter_eq_nil_iff]
        intro x hx hpx
        rcases List.mem_cons.mp hx with rfl | hx
        · exact hpa hpx
        · exact hpa (hp a List.mem_cons_self x (List.mem_cons_of_mem a hx) (ha x hx) hpx)

end SortedIndex
