import Mathlib.Algebra.BigOperators.Group.Finset.Basic
import Mathlib.Data.Nat.Bitwise
import Mathlib.Data.Set.Card
import Mathlib.Order.CompletePartialOrder
import Mathlib.Order.Interval.Finset.Nat
import Mathlib.Tactic.Ring

/-!
# Buddies

Pages are numbered; the block of order `o` and index `i` has the `2 ^ o` pages from `i * 2 ^ o` on,
and consists of two blocks of the order below, which are buddies. A free index holds blocks of the
orders up to a highest one, no page in two of them, and never two buddies below the highest order.

## Main results

* `Inv.erase`, `Inv.insert`: taking a block out of a free index, or putting one into it.
* `Inv.exists_of_subset`: a block of free pages lies in a block of the free index.
* `Inv.iff_maximal`: the free index holds the maximal blocks of free pages.
* `Inv.sum_eq`: counting the pages by the blocks of the free index.
* `Parted.insert`, `Parted.erase`, `Parted.sum_eq`: pages that are free or in one of the blocks that
  were taken.
-/

namespace Buddy

/-- The pages of a block. -/
def block (o i : ℕ) : Set ℕ := {p | p / 2 ^ o = i}

section Blocks

variable {o o' i j p : ℕ}

theorem mem_block : p ∈ block o i ↔ i * 2 ^ o ≤ p ∧ p < (i + 1) * 2 ^ o := by
  have hpos : 0 < 2 ^ o := Nat.two_pow_pos o
  rw [block, Set.mem_ofPred_eq, Nat.div_eq_iff hpos]
  rw [Nat.add_mul]
  omega

theorem mem_block_div : p ∈ block o (p / 2 ^ o) := rfl

/-- The first page of a block. -/
theorem first_mem (o i : ℕ) : i * 2 ^ o ∈ block o i := Nat.mul_div_cancel i (Nat.two_pow_pos o)

/-- A block is in the one block of a higher order that has one of its pages. -/
theorem block_subset (ho : o ≤ o') (hp : p ∈ block o i) (hp' : p ∈ block o' j) :
    block o i ⊆ block o' j := by
  intro q hq
  obtain ⟨k, rfl⟩ := Nat.exists_eq_add_of_le ho
  rw [block, Set.mem_ofPred_eq] at hp hp' hq ⊢
  rw [Nat.pow_add, ← Nat.div_div_eq_div_mul] at hp' ⊢
  rw [hq, ← hp, hp']

theorem block_subset_div (i : ℕ) (ho : o ≤ o') : block o i ⊆ block o' (i / 2 ^ (o' - o)) := by
  refine block_subset ho (first_mem o i) ?_
  obtain ⟨k, rfl⟩ := Nat.exists_eq_add_of_le ho
  rw [block, Set.mem_ofPred_eq, Nat.pow_add, ← Nat.div_div_eq_div_mul,
    Nat.mul_div_cancel i (Nat.two_pow_pos o), Nat.add_sub_cancel_left]

/-- Two blocks of an order that have a page in common are the same. -/
theorem eq_of_mem (hp : p ∈ block o i) (hp' : p ∈ block o j) : i = j := hp.symm.trans hp'

theorem disjoint_block (h : i ≠ j) : Disjoint (block o i) (block o j) :=
  Set.disjoint_left.mpr fun _ hp hp' => h (eq_of_mem hp hp')

/-- A block consists of two buddies. -/
theorem block_succ (o i : ℕ) : block (o + 1) i = block o (2 * i) ∪ block o (2 * i + 1) := by
  ext p
  rw [Set.mem_union, mem_block, mem_block, mem_block, Nat.pow_succ]
  have h₀ : i * (2 ^ o * 2) = 2 * i * 2 ^ o := by ring
  have h₁ : (i + 1) * (2 ^ o * 2) = (2 * i + 1 + 1) * 2 ^ o := by ring
  have h₂ : (2 * i + 1) * 2 ^ o = 2 * i * 2 ^ o + 2 ^ o := by ring
  have h₃ : (2 * i + 1 + 1) * 2 ^ o = 2 * i * 2 ^ o + 2 ^ o + 2 ^ o := by ring
  rw [h₀, h₁, h₂, h₃]
  omega

theorem xor_one_cases (i : ℕ) :
    i = 2 * (i / 2) ∧ i ^^^ 1 = 2 * (i / 2) + 1 ∨ i = 2 * (i / 2) + 1 ∧ i ^^^ 1 = 2 * (i / 2) := by
  rcases Nat.even_or_odd i with heven | hodd
  · have hxor := Nat.xor_one_of_even heven
    obtain ⟨j, rfl⟩ := heven
    omega
  · have hxor := Nat.xor_one_of_odd hodd
    obtain ⟨j, rfl⟩ := hodd
    omega

theorem xor_one_xor_one (i : ℕ) : (i ^^^ 1) ^^^ 1 = i := Nat.xor_xor_cancel_right i 1

/-- A block and its buddy make the block above. -/
theorem block_half (o i : ℕ) : block (o + 1) (i / 2) = block o i ∪ block o (i ^^^ 1) := by
  rw [block_succ]
  rcases xor_one_cases i with ⟨hi, hbuddy⟩ | ⟨hi, hbuddy⟩
  · rw [hbuddy, ← hi]
  · rw [hbuddy, ← hi, Set.union_comm]

theorem disjoint_buddy (o i : ℕ) : Disjoint (block o i) (block o (i ^^^ 1)) := by
  refine disjoint_block fun heq => ?_
  rcases xor_one_cases i with ⟨hi, hbuddy⟩ | ⟨hi, hbuddy⟩ <;> omega

theorem block_subset_half (o i : ℕ) : block o i ⊆ block (o + 1) (i / 2) := by
  have h := block_subset_div i (show o ≤ o + 1 by omega)
  rwa [Nat.add_sub_cancel_left, Nat.pow_one] at h

end Blocks

/-- The free pages of a free index. -/
def pages (F : ℕ → ℕ → Prop) : Set ℕ := {p | ∃ o, F o (p / 2 ^ o)}

/-- A free index of pages below `n`, with blocks of the orders up to `m`. -/
structure Inv (m n : ℕ) (F : ℕ → ℕ → Prop) : Prop where
  order_le : ∀ {o i}, F o i → o ≤ m
  bounded : ∀ {o i}, F o i → (i + 1) * 2 ^ o ≤ n
  exclusive : ∀ {o o' p}, F o (p / 2 ^ o) → F o' (p / 2 ^ o') → o = o'
  merged : ∀ {o i}, o < m → F o (2 * i) → F o (2 * i + 1) → False

variable {m n o i : ℕ} {F F' : ℕ → ℕ → Prop}

theorem mem_pages_of_mem {p : ℕ} (hF : F o i) (hp : p ∈ block o i) : p ∈ pages F :=
  ⟨o, by rwa [show p / 2 ^ o = i from hp]⟩

theorem block_subset_pages (hF : F o i) : block o i ⊆ pages F := fun _ => mem_pages_of_mem hF

theorem Inv.lt_of_mem (h : Inv m n F) {p : ℕ} (hp : p ∈ pages F) : p < n := by
  obtain ⟨o, ho⟩ := hp
  have hbound := h.bounded ho
  have hlt : p < (p / 2 ^ o + 1) * 2 ^ o := (mem_block.mp mem_block_div).2
  omega

theorem Inv.le_of_subset (h : Inv m n F) (hsub : block o i ⊆ pages F) : (i + 1) * 2 ^ o ≤ n := by
  have hpos := Nat.two_pow_pos o
  have hlt := h.lt_of_mem (hsub (mem_block.mpr (show i * 2 ^ o ≤ (i + 1) * 2 ^ o - 1 ∧
    (i + 1) * 2 ^ o - 1 < (i + 1) * 2 ^ o by rw [Nat.add_mul]; omega)))
  rw [Nat.add_mul] at hlt ⊢
  omega

/-- The blocks of a free index that have a page in common are the same. -/
theorem Inv.eq_of_mem (h : Inv m n F) {o' i' p : ℕ} (hF : F o i) (hF' : F o' i')
    (hp : p ∈ block o i) (hp' : p ∈ block o' i') : o = o' ∧ i = i' := by
  have ho : o = o' := h.exclusive (p := p) (by rwa [show p / 2 ^ o = i from hp])
    (by rwa [show p / 2 ^ o' = i' from hp'])
  subst ho
  exact ⟨rfl, Buddy.eq_of_mem hp hp'⟩

/-- What is left of a free index without one of its blocks. -/
theorem Inv.erase (h : Inv m n F) (hF : F o i)
    (hF' : ∀ o' i', F' o' i' ↔ F o' i' ∧ (o', i') ≠ (o, i)) :
    Inv m n F' ∧ pages F' = pages F \ block o i := by
  refine ⟨⟨fun h' => h.order_le ((hF' _ _).mp h').1, fun h' => h.bounded ((hF' _ _).mp h').1,
    fun h₁ h₂ => h.exclusive ((hF' _ _).mp h₁).1 ((hF' _ _).mp h₂).1,
    fun ho h₁ h₂ => h.merged ho ((hF' _ _).mp h₁).1 ((hF' _ _).mp h₂).1⟩, ?_⟩
  ext p
  constructor
  · rintro ⟨o', ho'⟩
    obtain ⟨hp, hne⟩ := (hF' _ _).mp ho'
    refine ⟨⟨o', hp⟩, fun hmem => hne ?_⟩
    obtain ⟨rfl, hi⟩ := h.eq_of_mem hp hF mem_block_div hmem
    rw [hi]
  · rintro ⟨⟨o', hp⟩, hnot⟩
    refine ⟨o', (hF' _ _).mpr ⟨hp, fun heq => hnot ?_⟩⟩
    obtain ⟨rfl, rfl⟩ := Prod.mk.inj heq
    exact mem_block_div

/-- A free index with a further block, of pages that were not free. -/
theorem Inv.insert (h : Inv m n F) (ho : o ≤ m) (hi : (i + 1) * 2 ^ o ≤ n)
    (hnew : Disjoint (block o i) (pages F)) (hbuddy : o < m → ¬ F o (i ^^^ 1))
    (hF' : ∀ o' i', F' o' i' ↔ F o' i' ∨ (o', i') = (o, i)) :
    Inv m n F' ∧ pages F' = pages F ∪ block o i := by
  have hapart : ∀ {o' p}, F o' (p / 2 ^ o') → p / 2 ^ o ≠ i := fun hp hmem =>
    Set.disjoint_left.mp hnew hmem ⟨_, hp⟩
  constructor
  · constructor
    · intro o' i' h'
      rcases (hF' _ _).mp h' with h' | heq
      · exact h.order_le h'
      · obtain ⟨rfl, -⟩ := Prod.mk.inj heq
        exact ho
    · intro o' i' h'
      rcases (hF' _ _).mp h' with h' | heq
      · exact h.bounded h'
      · obtain ⟨rfl, rfl⟩ := Prod.mk.inj heq
        exact hi
    · intro o₁ o₂ p h₁ h₂
      rcases (hF' _ _).mp h₁ with h₁ | heq₁ <;> rcases (hF' _ _).mp h₂ with h₂ | heq₂
      · exact h.exclusive h₁ h₂
      · obtain ⟨rfl, hmem⟩ := Prod.mk.inj heq₂
        exact absurd hmem (hapart h₁)
      · obtain ⟨rfl, hmem⟩ := Prod.mk.inj heq₁
        exact absurd hmem (hapart h₂)
      · exact (Prod.mk.inj heq₁).1.trans (Prod.mk.inj heq₂).1.symm
    · intro o' j ho' h₁ h₂
      have hxor : (2 * j) ^^^ 1 = 2 * j + 1 ∧ (2 * j + 1) ^^^ 1 = 2 * j := by
        constructor
        · rw [Nat.xor_one_of_even ⟨j, by omega⟩]
        · rw [Nat.xor_one_of_odd ⟨j, rfl⟩, Nat.add_sub_cancel]
      rcases (hF' _ _).mp h₁ with h₁ | heq₁ <;> rcases (hF' _ _).mp h₂ with h₂ | heq₂
      · exact h.merged ho' h₁ h₂
      · obtain ⟨rfl, rfl⟩ := Prod.mk.inj heq₂
        rw [hxor.2] at hbuddy
        exact hbuddy ho' h₁
      · obtain ⟨rfl, rfl⟩ := Prod.mk.inj heq₁
        rw [hxor.1] at hbuddy
        exact hbuddy ho' h₂
      · have heq := (Prod.mk.inj heq₁).2.trans (Prod.mk.inj heq₂).2.symm
        omega
  · ext p
    constructor
    · rintro ⟨o', ho'⟩
      rcases (hF' _ _).mp ho' with hp | heq
      · exact .inl ⟨o', hp⟩
      · obtain ⟨rfl, hmem⟩ := Prod.mk.inj heq
        exact .inr hmem
    · rintro (⟨o', hp⟩ | hmem)
      · exact ⟨o', (hF' _ _).mpr (.inl hp)⟩
      · refine ⟨o, (hF' _ _).mpr (.inr ?_)⟩
        rw [show p / 2 ^ o = i from hmem]

/-- A block of free pages lies in a block of the free index. -/
theorem Inv.exists_of_subset (h : Inv m n F) (ho : o ≤ m) (hsub : block o i ⊆ pages F) :
    ∃ k, F (o + k) (i / 2 ^ k) := by
  induction o generalizing i with
  | zero =>
      obtain ⟨k, hk⟩ := hsub (first_mem 0 i)
      rw [Nat.pow_zero, Nat.mul_one] at hk
      exact ⟨k, by rwa [Nat.zero_add]⟩
  | succ o ih =>
      rw [block_succ, Set.union_subset_iff] at hsub
      obtain ⟨k₀, h₀⟩ := ih (by omega) hsub.1
      obtain ⟨k₁, h₁⟩ := ih (by omega) hsub.2
      have hhalf : ∀ k, 2 * i / 2 ^ (k + 1) = i / 2 ^ k ∧
          (2 * i + 1) / 2 ^ (k + 1) = i / 2 ^ k := by
        intro k
        rw [Nat.pow_succ', ← Nat.div_div_eq_div_mul, ← Nat.div_div_eq_div_mul]
        exact ⟨by congr 1; omega, by congr 1; omega⟩
      rcases k₀ with _ | k₀
      · rcases k₁ with _ | k₁
        · rw [Nat.pow_zero, Nat.div_one, Nat.add_zero] at h₀ h₁
          exact (h.merged (by omega) h₀ h₁).elim
        · rw [(hhalf k₁).2] at h₁
          exact ⟨k₁, by rwa [Nat.add_right_comm]⟩
      · rw [(hhalf k₀).1] at h₀
        exact ⟨k₀, by rwa [Nat.add_right_comm]⟩

/-- The free index holds the maximal blocks of free pages. -/
theorem Inv.iff_maximal (h : Inv m n F) :
    F o i ↔ o ≤ m ∧ block o i ⊆ pages F ∧ (o < m → ¬ block (o + 1) (i / 2) ⊆ pages F) := by
  constructor
  · intro hF
    refine ⟨h.order_le hF, block_subset_pages hF, fun ho hsub => ?_⟩
    obtain ⟨k, hk⟩ := h.exists_of_subset (Nat.succ_le_of_lt ho) hsub
    have hmem : i * 2 ^ o ∈ block (o + 1 + k) (i / 2 / 2 ^ k) := by
      rw [Nat.div_div_eq_div_mul, ← Nat.pow_succ', Nat.succ_eq_add_one, Nat.add_assoc,
        Nat.add_comm 1 k]
      have hsubset := block_subset_div i (show o ≤ o + (k + 1) by omega)
      rw [Nat.add_sub_cancel_left] at hsubset
      exact hsubset (first_mem o i)
    have heq := (h.eq_of_mem hF hk (first_mem o i) hmem).1
    omega
  · rintro ⟨ho, hsub, hmax⟩
    obtain ⟨k, hk⟩ := h.exists_of_subset ho hsub
    rcases k with _ | k
    · rwa [Nat.pow_zero, Nat.div_one] at hk
    · have hm := h.order_le hk
      refine absurd ?_ (hmax (by omega))
      refine Set.Subset.trans ?_ (block_subset_pages hk)
      have hsubset := block_subset_div (i / 2) (show o + 1 ≤ o + (k + 1) by omega)
      rwa [show o + (k + 1) - (o + 1) = k by omega, Nat.div_div_eq_div_mul, ← Nat.pow_succ']
        at hsubset

/-- The pages that are free, counted by the blocks of the free index. -/
theorem Inv.sum_eq (h : Inv m n F) :
    ∑ o ∈ Finset.range (m + 1), {i | F o i}.ncard * 2 ^ o = (pages F).ncard := by
  classical
  have hpages : pages F = ↑((Finset.range n).filter fun p => p ∈ pages F) := by
    ext p
    rw [Finset.coe_filter, Set.mem_ofPred_eq, Finset.mem_range]
    exact ⟨fun hp => ⟨h.lt_of_mem hp, hp⟩, fun hp => hp.2⟩
  have hindex : ∀ o, {i | F o i} = ↑((Finset.range n).filter fun i => F o i) := by
    intro o
    ext i
    rw [Finset.coe_filter, Set.mem_ofPred_eq, Set.mem_ofPred_eq, Finset.mem_range]
    refine ⟨fun hi => ⟨?_, hi⟩, fun hi => hi.2⟩
    have hbound := h.bounded hi
    have hle : (i + 1) * 1 ≤ (i + 1) * 2 ^ o := Nat.mul_le_mul_left _ (Nat.two_pow_pos o)
    omega
  -- Each page belongs to one order, and in an order to the block that it lies in.
  have hsplit : (Finset.range n).filter (fun p => p ∈ pages F) =
      (Finset.range (m + 1)).biUnion fun o =>
        ((Finset.range n).filter fun i => F o i).biUnion fun i =>
          Finset.Ico (i * 2 ^ o) ((i + 1) * 2 ^ o) := by
    ext p
    simp only [Finset.mem_filter, Finset.mem_range, Finset.mem_biUnion, Finset.mem_Ico, ← mem_block]
    constructor
    · rintro ⟨hp, o, ho⟩
      have hle := h.order_le ho
      refine ⟨o, by omega, p / 2 ^ o, ⟨?_, ho⟩, mem_block_div⟩
      exact Nat.lt_of_le_of_lt (Nat.div_le_self _ _) hp
    · rintro ⟨o, -, i, ⟨-, hF⟩, hp⟩
      have hmem := mem_pages_of_mem hF hp
      exact ⟨h.lt_of_mem hmem, hmem⟩
  rw [hpages, Set.ncard_coe_finset, hsplit, Finset.card_biUnion]
  · refine Finset.sum_congr rfl fun o _ => ?_
    rw [hindex o, Set.ncard_coe_finset, Finset.card_biUnion]
    · refine (Finset.sum_const_nat fun i _ => ?_).symm
      rw [Nat.card_Ico, Nat.add_mul, Nat.one_mul, Nat.add_sub_cancel_left]
    · intro i _ j _ hne
      refine Finset.disjoint_left.mpr fun p hp hp' => hne ?_
      exact Buddy.eq_of_mem (mem_block.mpr (Finset.mem_Ico.mp hp))
        (mem_block.mpr (Finset.mem_Ico.mp hp'))
  · intro o _ o' _ hne
    refine Finset.disjoint_left.mpr fun p hp hp' => ?_
    simp only [Finset.mem_biUnion, Finset.mem_filter, Finset.mem_Ico, ← mem_block] at hp hp'
    obtain ⟨i, ⟨-, hF⟩, hi⟩ := hp
    obtain ⟨i', ⟨-, hF'⟩, hi'⟩ := hp'
    exact hne (h.eq_of_mem hF hF' hi hi').1

/-! ### Blocks that were taken -/

/-- Of the pages below `n`, each is free or in one of the taken blocks, of which each is given by
its index and its order. -/
structure Parted (n : ℕ) (free : Set ℕ) (taken : Set (ℕ × ℕ)) : Prop where
  apart : ∀ x ∈ taken, ∀ y ∈ taken, x ≠ y → Disjoint (block x.2 x.1) (block y.2 y.1)
  bounded : ∀ x ∈ taken, (x.1 + 1) * 2 ^ x.2 ≤ n
  free_iff : ∀ p, p ∈ free ↔ p < n ∧ ∀ x ∈ taken, p ∉ block x.2 x.1

section Parted

variable {free : Set ℕ} {taken : Set (ℕ × ℕ)}

theorem parted_empty (n : ℕ) : Parted n {p | p < n} ∅ :=
  ⟨fun x hx => absurd hx (Set.notMem_empty x), fun x hx => absurd hx (Set.notMem_empty x),
    fun _ => ⟨fun hp => ⟨hp, fun x hx => absurd hx (Set.notMem_empty x)⟩, fun hp => hp.1⟩⟩

/-- The pages of a taken block are not free. -/
theorem Parted.disjoint (h : Parted n free taken) (hmem : (i, o) ∈ taken) :
    Disjoint (block o i) free :=
  Set.disjoint_left.mpr fun p hp hfree => ((h.free_iff p).mp hfree).2 (i, o) hmem hp

/-- A block is free exactly if it is among the pages and meets no taken block. -/
theorem Parted.subset_iff (h : Parted n free taken) :
    block o i ⊆ free ↔
      (i + 1) * 2 ^ o ≤ n ∧ ∀ x ∈ taken, Disjoint (block o i) (block x.2 x.1) := by
  have hpos := Nat.two_pow_pos o
  constructor
  · intro hsub
    refine ⟨?_, fun x hx => Set.disjoint_left.mpr fun p hp hp' =>
      ((h.free_iff p).mp (hsub hp)).2 x hx hp'⟩
    have hlt := ((h.free_iff _).mp (hsub (mem_block.mpr (show i * 2 ^ o ≤ (i + 1) * 2 ^ o - 1 ∧
      (i + 1) * 2 ^ o - 1 < (i + 1) * 2 ^ o by rw [Nat.add_mul]; omega)))).1
    rw [Nat.add_mul] at hlt ⊢
    omega
  · rintro ⟨hle, hapart⟩ p hp
    refine (h.free_iff p).mpr ⟨?_, fun x hx => Set.disjoint_left.mp (hapart x hx) hp⟩
    have hlt := (mem_block.mp hp).2
    omega

/-- Taking a free block. -/
theorem Parted.insert (h : Parted n free taken) (hsub : block o i ⊆ free) :
    (i, o) ∉ taken ∧ Parted n (free \ block o i) (insert (i, o) taken) := by
  obtain ⟨hle, hapart⟩ := h.subset_iff.mp hsub
  refine ⟨fun hmem => ?_, fun x hx y hy hne => ?_, fun x hx => ?_, fun p => ?_⟩
  · exact Set.disjoint_left.mp (hapart _ hmem) (first_mem o i) (first_mem o i)
  · rcases Set.mem_insert_iff.mp hx with rfl | hx <;> rcases Set.mem_insert_iff.mp hy with rfl | hy
    · exact absurd rfl hne
    · exact hapart y hy
    · exact (hapart x hx).symm
    · exact h.apart x hx y hy hne
  · rcases Set.mem_insert_iff.mp hx with rfl | hx
    · exact hle
    · exact h.bounded x hx
  · rw [Set.mem_sdiff, h.free_iff]
    constructor
    · rintro ⟨⟨hp, hall⟩, hnot⟩
      refine ⟨hp, fun x hx => ?_⟩
      rcases Set.mem_insert_iff.mp hx with rfl | hx
      · exact hnot
      · exact hall x hx
    · rintro ⟨hp, hall⟩
      exact ⟨⟨hp, fun x hx => hall x (Set.mem_insert_of_mem _ hx)⟩,
        hall _ (Set.mem_insert _ _)⟩

/-- Giving a taken block back. -/
theorem Parted.erase (h : Parted n free taken) (hmem : (i, o) ∈ taken) :
    Parted n (free ∪ block o i) (taken \ {(i, o)}) := by
  refine ⟨fun x hx y hy => h.apart x hx.1 y hy.1, fun x hx => h.bounded x hx.1, fun p => ?_⟩
  rw [Set.mem_union, h.free_iff]
  constructor
  · rintro (⟨hp, hall⟩ | hp)
    · exact ⟨hp, fun x hx => hall x hx.1⟩
    · refine ⟨?_, fun x hx => ?_⟩
      · have hlt := (mem_block.mp hp).2
        have hle : (i + 1) * 2 ^ o ≤ n := h.bounded _ hmem
        omega
      · exact Set.disjoint_left.mp (h.apart _ hmem x hx.1 fun heq => hx.2 heq.symm) hp
  · rintro ⟨hp, hall⟩
    by_cases hp' : p ∈ block o i
    · exact .inr hp'
    · refine .inl ⟨hp, fun x hx => ?_⟩
      by_cases heq : x = (i, o)
      · rwa [heq]
      · exact hall x ⟨hx, heq⟩

/-- Further pages are free. -/
theorem Parted.grow (h : Parted n free taken) (hle : n ≤ m) :
    Parted m (free ∪ {p | n ≤ p ∧ p < m}) taken := by
  refine ⟨h.apart, fun x hx => (h.bounded x hx).trans hle, fun p => ?_⟩
  rw [Set.mem_union, h.free_iff]
  constructor
  · rintro (⟨hp, hall⟩ | ⟨hge, hlt⟩)
    · exact ⟨hp.trans_le hle, hall⟩
    · refine ⟨hlt, fun x hx hp => ?_⟩
      have hbound := h.bounded x hx
      have hlast := (mem_block.mp hp).2
      omega
  · rintro ⟨hp, hall⟩
    by_cases hlt : p < n
    · exact .inl ⟨hlt, hall⟩
    · exact .inr ⟨Nat.not_lt.mp hlt, hp⟩

/-- The pages at the end are free exactly if all taken blocks are before them. -/
theorem Parted.tail_iff (h : Parted n free taken) :
    (∀ p, m ≤ p → p < n → p ∈ free) ↔ ∀ x ∈ taken, (x.1 + 1) * 2 ^ x.2 ≤ m := by
  constructor
  · intro htail x hx
    have hpos := Nat.two_pow_pos x.2
    have hbound := h.bounded x hx
    by_contra hgt
    have hlast : (x.1 + 1) * 2 ^ x.2 - 1 ∈ block x.2 x.1 := by
      rw [mem_block, Nat.add_mul]
      omega
    exact ((h.free_iff _).mp (htail _ (by omega) (by omega))).2 x hx hlast
  · intro hbefore p hge hlt
    refine (h.free_iff p).mpr ⟨hlt, fun x hx hp => ?_⟩
    have hbound := hbefore x hx
    have hlast := (mem_block.mp hp).2
    omega

/-- Free pages at the end are given up. -/
theorem Parted.shrink (h : Parted n free taken) (hle : m ≤ n)
    (hbefore : ∀ x ∈ taken, (x.1 + 1) * 2 ^ x.2 ≤ m) : Parted m {p ∈ free | p < m} taken := by
  refine ⟨h.apart, hbefore, fun p => ?_⟩
  rw [Set.mem_ofPred_eq, h.free_iff]
  constructor
  · rintro ⟨⟨-, hall⟩, hp⟩
    exact ⟨hp, hall⟩
  · rintro ⟨hp, hall⟩
    exact ⟨⟨hp.trans_le hle, hall⟩, hp⟩

/-- The pages that are not free, counted by the taken blocks. -/
theorem Parted.sum_eq {taken : Finset (ℕ × ℕ)} (h : Parted n free ↑taken) :
    {p | p < n ∧ p ∉ free}.ncard = ∑ x ∈ taken, 2 ^ x.2 := by
  have hpages : {p | p < n ∧ p ∉ free} =
      ↑(taken.biUnion fun x => Finset.Ico (x.1 * 2 ^ x.2) ((x.1 + 1) * 2 ^ x.2)) := by
    ext p
    simp only [Set.mem_ofPred_eq, h.free_iff, Finset.coe_biUnion, Finset.coe_Ico, Set.mem_iUnion,
      Set.mem_Ico, ← mem_block, Finset.mem_coe, exists_prop]
    constructor
    · rintro ⟨hp, hnot⟩
      by_contra hnone
      exact hnot ⟨hp, fun x hx hmem => hnone ⟨x, hx, hmem⟩⟩
    · rintro ⟨x, hx, hp⟩
      have hbound := h.bounded x hx
      have hlast := (mem_block.mp hp).2
      exact ⟨by omega, fun hfree => hfree.2 x hx hp⟩
  rw [hpages, Set.ncard_coe_finset, Finset.card_biUnion]
  · refine Finset.sum_congr rfl fun x _ => ?_
    rw [Nat.card_Ico, Nat.add_mul, Nat.one_mul, Nat.add_sub_cancel_left]
  · intro x hx y hy hne
    refine Finset.disjoint_left.mpr fun p hp hp' => ?_
    exact Set.disjoint_left.mp (h.apart x hx y hy hne) (mem_block.mpr (Finset.mem_Ico.mp hp))
      (mem_block.mpr (Finset.mem_Ico.mp hp'))

end Parted

end Buddy
