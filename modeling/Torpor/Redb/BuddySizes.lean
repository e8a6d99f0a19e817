import Mathlib.Tactic.Linarith
import Torpor.Redb.BuddyAllocator

/-!
# New and Resized Buddy Allocators

A range of pages is cut into blocks: first up to a page that is aligned to the highest order, then
in blocks of that order, then in smaller ones. A new allocator frees the blocks of all its pages, a
growing one those of its new pages, and a shrinking one takes those of the pages that it loses.

## Main results

* `forBlocks_spec`: what every block preserves, the cutting of a range preserves.
* `new_spec`: all pages of a new allocator are free.
* `WellFormed.grow_spec`, `WellFormed.shrink_spec`: the free pages after a change of the size.
* `WellFormed.countFreePages_eq`, `WellFormed.trailingFreePages_spec`: the counts are right.
-/

namespace Torpor.Redb

open Buddy

theorem trailingZeros_dvd (n : ℕ) : 2 ^ trailingZeros n ∣ n := by
  refine Nat.dvd_of_mod_eq_zero (Nat.eq_of_testBit_eq fun j => ?_)
  rw [Nat.testBit_mod_two_pow, Nat.zero_testBit]
  by_cases hj : j < trailingZeros n
  · have hbit := BitVec.getLsbD_false_of_lt_ctz hj
    rw [BitVec.getLsbD_ofNat] at hbit
    have hle : trailingZeros n ≤ 32 := by
      have h : (BitVec.ofNat 32 n).ctz ≤ 32#32 := by
        rw [BitVec.ctz_eq_reverse_clz]
        exact BitVec.clz_le
      exact BitVec.le_def.mp h
    rw [decide_eq_true (by omega : j < 32), Bool.true_and] at hbit
    rw [hbit, Bool.and_false]
  · rw [decide_eq_false hj, Bool.false_and]

namespace BuddyAllocator

/-! ### Cutting a range into blocks -/

section Yields

variable {α β : Type} {F : Prop} {r : Option α} {Q Q' : α → Prop} {R : β → Prop}

/-- What a computation yields; it panics only under `F`. -/
def Yields (F : Prop) (r : Option α) (Q : α → Prop) : Prop :=
  (r = none → F) ∧ ∀ a, r = some a → Q a

theorem yields_some {a : α} (h : Q a) : Yields F (some a) Q :=
  ⟨fun heq => (by cases heq), fun _ heq => Option.some.inj heq ▸ h⟩

theorem Yields.bind {f : α → Option β} (h : Yields F r Q) (hf : ∀ a, Q a → Yields F (f a) R) :
    Yields F (r.bind f) R := by
  cases r with
  | none => exact ⟨fun _ => h.1 rfl, fun b hb => by cases hb⟩
  | some a => exact hf a (h.2 a rfl)

theorem Yields.imp (h : Yields F r Q) (himp : ∀ a, Q a → Q' a) : Yields F r Q' :=
  ⟨h.1, fun a ha => himp a (h.2 a ha)⟩

theorem yields_false : Yields False r Q ↔ ∃ a, r = some a ∧ Q a := by
  constructor
  · rintro ⟨hnone, hsome⟩
    obtain ⟨a, ha⟩ := Option.ne_none_iff_exists'.mp hnone
    exact ⟨a, ha, hsome a ha⟩
  · rintro ⟨a, rfl, ha⟩
    exact yields_some ha

end Yields

section Loops

variable {α : Type} {act : ℕ → ℕ → α → Option α} {first last top : ℕ} {P : ℕ → α → Prop}
  {F : Prop}

theorem fillOrder_spec {o : ℕ} (hsmall : last + 2 ^ o < 2 ^ 32)
    (hact : ∀ i a, first ≤ i * 2 ^ o → (i + 1) * 2 ^ o ≤ last → P (i * 2 ^ o) a →
      Yields F (act i o a) (P ((i + 1) * 2 ^ o)))
    {rounds p : ℕ} {a : α} (hrounds : last < p + rounds) (hfirst : first ≤ p) (hp : p ≤ last)
    (haligned : p + 2 ^ o ≤ last → 2 ^ o ∣ p) (ha : P p a) :
    Yields F (fillOrder act last o rounds p a) fun (p', a') =>
      P p' a' ∧ p ≤ p' ∧ p' ≤ last ∧ last < p' + 2 ^ o ∧ (p' = p ∨ 2 ^ o ∣ p') := by
  have hpos := Nat.two_pow_pos o
  induction rounds generalizing p a with
  | zero => omega
  | succ rounds ih =>
      rw [fillOrder, addU32, if_pos (by omega)]
      simp only [Option.bind_eq_bind, Option.bind_some]
      split_ifs with hfits
      · obtain ⟨i, rfl⟩ := haligned hfits
        rw [Nat.mul_comm] at *
        have hnext : i * 2 ^ o + 2 ^ o = (i + 1) * 2 ^ o := by rw [Nat.add_mul, Nat.one_mul]
        rw [Nat.mul_div_cancel i hpos, hnext]
        refine (hact i a hfirst (by omega) ha).bind fun a₁ hP => ?_
        refine (ih (p := (i + 1) * 2 ^ o) (by omega) (by omega) (by omega)
          (fun _ => Dvd.intro_left _ rfl) hP).imp ?_
        rintro ⟨p', a'⟩ ⟨hP', hle, hlast, hend, hdvd⟩
        refine ⟨hP', by omega, hlast, hend, .inr ?_⟩
        rcases hdvd with rfl | hdvd
        · exact Dvd.intro_left _ rfl
        · exact hdvd
      · exact yields_some ⟨ha, le_rfl, hp, by omega, .inl rfl⟩

/-- What every block preserves, the blocks of descending orders preserve. Below the highest order,
less than two blocks are left. -/
theorem fillDown_spec {o : ℕ} (hsmall : last + 2 ^ top < 2 ^ 32)
    (hact : ∀ o i a, o ≤ top → (o < top → last < i * 2 ^ o + 2 ^ (o + 1)) → first ≤ i * 2 ^ o →
      (i + 1) * 2 ^ o ≤ last → P (i * 2 ^ o) a → Yields F (act i o a) (P ((i + 1) * 2 ^ o)))
    (ho : o ≤ top) {p : ℕ} {a : α} (hfirst : first ≤ p) (hp : p ≤ last)
    (hrest : o < top → last < p + 2 ^ (o + 1))
    (haligned : ∀ k ≤ o, p + 2 ^ k ≤ last → 2 ^ k ∣ p) (ha : P p a) :
    Yields F (fillDown act last (o + 1) p a) fun (p', a') => p' = last ∧ P last a' := by
  have hpow : 2 ^ o ≤ 2 ^ top := Nat.pow_le_pow_right (by omega) ho
  induction o generalizing p a with
  | zero =>
      rw [fillDown]
      refine (fillOrder_spec (by omega)
        (fun i a hi => hact 0 i a ho (fun hlt => by have := hrest hlt; omega) (by omega))
        (by omega) (le_refl p) hp (haligned 0 le_rfl) ha).bind ?_
      rintro ⟨p', a'⟩ ⟨hP, -, hlast, hend, -⟩
      rw [Nat.pow_zero] at hend
      obtain rfl : p' = last := by omega
      exact yields_some ⟨rfl, hP⟩
  | succ o ih =>
      rw [fillDown]
      refine (fillOrder_spec (by omega)
        (fun i a hi => hact (o + 1) i a ho (fun hlt => by have := hrest hlt; omega) (by omega))
        (by omega) (le_refl p) hp (haligned (o + 1) le_rfl) ha).bind ?_
      rintro ⟨p', a'⟩ ⟨hP, hle, hlast, hend, hdvd⟩
      refine ih (by omega) (by omega) hlast (fun _ => hend) (fun k hk hfits => ?_) hP
        ((Nat.pow_le_pow_right (by omega) (Nat.le_succ o)).trans hpow)
      rcases hdvd with rfl | hdvd
      · exact haligned k (by omega) hfits
      · exact (Nat.pow_dvd_pow 2 (by omega)).trans hdvd

theorem align_spec (hsmall : last + 2 ^ top < 2 ^ 32)
    (hact : ∀ o i a, o ≤ top → first ≤ i * 2 ^ o → (i + 1) * 2 ^ o ≤ last → P (i * 2 ^ o) a →
      Yields F (act i o a) (P ((i + 1) * 2 ^ o)))
    {rounds p : ℕ} {a : α} (hrounds : last ≤ p + rounds) (hfirst : first ≤ p) (hp : p ≤ last)
    (ha : P p a) :
    Yields F (align act last top rounds p a) fun (p', a') =>
      P p' a' ∧ p ≤ p' ∧ p' ≤ last ∧ ∀ k ≤ top, p' + 2 ^ k ≤ last → 2 ^ k ∣ p' := by
  induction rounds generalizing p a with
  | zero =>
      refine yields_some ⟨ha, le_rfl, hp, fun k _ hfits => ?_⟩
      have hpos := Nat.two_pow_pos k
      omega
  | succ rounds ih =>
      have hdvd := trailingZeros_dvd p
      -- Where the loop ends, no block of an order that does not divide the page fits.
      have hstop : (p < last → trailingZeros p < top → last < p + 2 ^ trailingZeros p) →
          ∀ k ≤ top, p + 2 ^ k ≤ last → 2 ^ k ∣ p := by
        intro hcond k hk hfits
        have hpos := Nat.two_pow_pos k
        refine (Nat.pow_dvd_pow 2 ?_).trans hdvd
        by_contra hgt
        have hlt : 2 ^ trailingZeros p < 2 ^ k := Nat.pow_lt_pow_right (by omega) (by omega)
        have hover := hcond (by omega) (by omega)
        omega
      rw [align]
      split_ifs with hcond
      · obtain ⟨-, horder⟩ := hcond
        have hpow : 2 ^ trailingZeros p ≤ 2 ^ top :=
          Nat.pow_le_pow_right (by omega) (Nat.le_of_lt horder)
        rw [addU32, if_pos (by omega)]
        simp only [Option.bind_eq_bind, Option.bind_some]
        split_ifs with hfits
        · set o := trailingZeros p
          have hpos := Nat.two_pow_pos o
          have hstart := Nat.div_mul_cancel hdvd
          have hnext : (p / 2 ^ o + 1) * 2 ^ o = p + 2 ^ o := by
            rw [Nat.add_mul, hstart, Nat.one_mul]
          refine (hact o (p / 2 ^ o) a (Nat.le_of_lt horder) (by omega) (by omega)
            (by rwa [hstart])).bind fun a₁ hP => ?_
          rw [hnext] at hP
          refine (ih (p := p + 2 ^ o) (by omega) (by omega) hfits hP).imp ?_
          rintro ⟨p', a'⟩ ⟨hP', hle, hlast', haligned⟩
          exact ⟨hP', by omega, hlast', haligned⟩
        · exact yields_some ⟨ha, le_rfl, hp, hstop fun _ _ => by omega⟩
      · exact yields_some ⟨ha, le_rfl, hp, hstop fun hlt ho => absurd ⟨hlt, ho⟩ hcond⟩

/-- **Cutting a range into blocks.** What every block preserves, the whole range preserves. -/
theorem forBlocks_spec (hsmall : last + 2 ^ top < 2 ^ 32)
    (hact : ∀ o i a, o ≤ top → first ≤ i * 2 ^ o → (i + 1) * 2 ^ o ≤ last → P (i * 2 ^ o) a →
      Yields F (act i o a) (P ((i + 1) * 2 ^ o)))
    (hle : first ≤ last) {a : α} (ha : P first a) :
    Yields F (forBlocks act last top first a) (P last) := by
  refine (align_spec hsmall hact (by omega) le_rfl hle ha).bind ?_
  rintro ⟨p, a₁⟩ ⟨hP, hfirst, hp, haligned⟩
  refine (fillDown_spec (o := top) hsmall
    (fun o i a ho _ => hact o i a ho) le_rfl hfirst hp (fun hlt => absurd hlt (Nat.lt_irrefl _))
    haligned hP).bind ?_
  rintro ⟨p', a₂⟩ ⟨rfl, hP'⟩
  dsimp only
  rw [if_pos rfl]
  exact yields_some hP'

end Loops

/-! ### New allocators -/

theorem newFree_getElem? {orders pages capacity o : ℕ} (ho : o < orders) :
    (newFree orders pages capacity)[o]? =
      some (.newPadded (pages / 2 ^ o) (pages / 2 ^ o) (capacity / 2 ^ o)) := by
  induction orders generalizing pages capacity o with
  | zero => omega
  | succ orders ih =>
      rw [newFree]
      rcases o with _ | o
      · rw [List.getElem?_cons_zero, Nat.pow_zero, Nat.div_one, Nat.div_one]
      · rw [List.getElem?_cons_succ, ih (by omega), nextHigherOrder, nextHigherOrder,
          Nat.div_div_eq_div_mul, Nat.div_div_eq_div_mul, ← Nat.pow_succ']

theorem length_newFree (orders pages capacity : ℕ) :
    (newFree orders pages capacity).length = orders := by
  induction orders generalizing pages capacity with
  | zero => rfl
  | succ orders ih => rw [newFree, List.length_cons, ih]

/-- Before its pages are marked, a new allocator has none that is free. -/
theorem valid_newFree {n cap : ℕ} (maxOrder : ℕ) (hle : n ≤ cap) :
    Valid cap n ⟨newFree (maxOrder + 1) n cap, n, maxOrder⟩ ∧
      ∀ o i, ¬ Holds ⟨newFree (maxOrder + 1) n cap, n, maxOrder⟩ o i := by
  have hlevels : ∀ {o b}, (newFree (maxOrder + 1) n cap)[o]? = some b →
      b = BtreeBitmap.newPadded (n / 2 ^ o) (n / 2 ^ o) (cap / 2 ^ o) := fun {o b} hb => by
    obtain ⟨hlt, -⟩ := List.getElem?_eq_some_iff.mp hb
    rw [length_newFree] at hlt
    rw [newFree_getElem? hlt] at hb
    exact (Option.some.inj hb).symm
  have hnone : ∀ o i, ¬ Holds ⟨newFree (maxOrder + 1) n cap, n, maxOrder⟩ o i := by
    rintro o i ⟨b, hb, hclear⟩
    rw [hlevels hb, (BtreeBitmap.newPadded_spec le_rfl _).2.2.2 i] at hclear
    cases hclear
  refine ⟨⟨⟨length_newFree _ _ _, fun {o b} hb => ?_, hle⟩, ?_⟩, hnone⟩
  · obtain ⟨hwell, hlen, hheight, -⟩ := BtreeBitmap.newPadded_spec (le_refl (n / 2 ^ o))
      (cap / 2 ^ o)
    rw [hlevels hb]
    exact ⟨hwell, hlen, hheight⟩
  · exact ⟨fun h => absurd h (hnone _ _), fun h => absurd h (hnone _ _),
      fun h => absurd h (hnone _ _), fun _ h => absurd h (hnone _ _)⟩

/-- **A new allocator.** All its pages are free. -/
theorem new_spec {n cap : ℕ} (hcap : 0 < cap) (hle : n ≤ cap)
    (hsmall : cap + 2 ^ min maxMaxPageOrder cap.log2 < 2 ^ 32) :
    ∃ a, new n cap = some a ∧ a.WellFormed cap ∧ a.len = n ∧
      a.maxOrder = min maxMaxPageOrder cap.log2 ∧ a.freePages = {p | p < n} := by
  set maxOrder := min maxMaxPageOrder cap.log2
  set a₀ : BuddyAllocator := ⟨newFree (maxOrder + 1) n cap, n, maxOrder⟩ with ha₀
  obtain ⟨hvalid, hnone⟩ := valid_newFree maxOrder hle
  -- A free block below the highest order leaves no room for a second one behind it.
  let P : ℕ → BuddyAllocator → Prop := fun p a =>
    Result cap n a₀ a {q | q < p} ∧ ∀ o i, a.Holds o i → o < maxOrder → n < i * 2 ^ o + 2 ^ (o + 1)
  have hstart : P 0 a₀ := by
    refine ⟨⟨hvalid, rfl, rfl, ?_⟩, fun o i h => absurd h (hnone o i)⟩
    ext p
    exact iff_of_false (fun ⟨o, ho⟩ => hnone _ _ ho) (Nat.not_lt_zero p)
  have hfilled : Yields False
      (fillDown (fun page order a => a.modifyOrder order (·.clear page)) n (maxOrder + 1) 0 a₀)
      fun r => r.1 = n ∧ P n r.2 := by
    refine fillDown_spec (by omega) (fun o i a ho hrest _ hfits hP => ?_) (le_refl maxOrder)
      (Nat.zero_le 0) (Nat.zero_le n) (fun hlt => absurd hlt (Nat.lt_irrefl _))
      (fun k _ _ => Nat.dvd_zero _) hstart
    obtain ⟨hresult, hroom⟩ := hP
    have hmax := hresult.maxOrder
    have hnew : Disjoint (block o i) a.freePages := by
      rw [hresult.pages]
      exact Set.disjoint_left.mpr fun p hp (hp' : p < i * 2 ^ o) =>
        absurd (mem_block.mp hp).1 (Nat.not_le.mpr hp')
    obtain ⟨a', ha', hresult', hholds'⟩ := hresult.valid.put_holds (by rw [hmax]; exact ho) hfits
      hnew (by
        intro hlt hbuddy
        rw [hmax] at hlt
        have hroom' := hroom o _ hbuddy hlt
        rcases xor_one_cases i with ⟨h₁, h₂⟩ | ⟨h₁, h₂⟩
        · have hmem : (i ^^^ 1) * 2 ^ o ∈ a.freePages := mem_pages_of_mem hbuddy (first_mem _ _)
          rw [hresult.pages] at hmem
          have hlt' : (i ^^^ 1) * 2 ^ o < i * 2 ^ o := hmem
          have hle' : i * 2 ^ o ≤ (i ^^^ 1) * 2 ^ o := Nat.mul_le_mul_right _ (by omega)
          omega
        · have heq : (i + 1) * 2 ^ o = (i ^^^ 1) * 2 ^ o + 2 ^ (o + 1) := by
            rw [show i + 1 = (i ^^^ 1) + 2 by omega, Nat.add_mul, Nat.pow_succ']
          omega)
    refine yields_false.mpr
      ⟨a', ha', (hresult.trans hresult').congr ?_, fun o' i' hholds hlt => ?_⟩
    · rw [hresult.pages]
      ext p
      have hmem := mem_block (o := o) (i := i) (p := p)
      have hle' : i * 2 ^ o ≤ (i + 1) * 2 ^ o := Nat.mul_le_mul_right _ (by omega)
      rw [Set.mem_union, hmem, Set.mem_ofPred_eq, Set.mem_ofPred_eq]
      omega
    · rcases (hholds' o' i').mp hholds with hheld | heq
      · exact hroom o' i' hheld hlt
      · obtain ⟨rfl, rfl⟩ := Prod.mk.inj heq
        exact hrest hlt
  obtain ⟨⟨p, a⟩, hfill, hp, ⟨hvalid', hlen, hmax, hpages⟩, -⟩ := yields_false.mp hfilled
  refine ⟨a, ?_, by rwa [WellFormed, hlen], hlen, hmax, hpages⟩
  rw [new, calculateUsableOrder, if_neg (by omega)]
  change (fillDown _ n (maxOrder + 1) 0 a₀).bind _ = _
  rw [hfill]
  exact if_pos hp

/-! ### Changes of the size -/

variable {cap n : ℕ} {a a' : BuddyAllocator}

theorem resizeFree_spec (free : List BtreeBitmap) {m : ℕ}
    (hfree : ∀ {o b}, free[o]? = some b → b.WellFormed ∧ m / 2 ^ o ≤ 64 ^ b.height ∧
      ∀ i, m / 2 ^ o ≤ i → b.bit i = true) :
    ∃ free', resizeFree free m = some free' ∧ free'.length = free.length ∧
      ∀ {o b'}, free'[o]? = some b' → ∃ b, free[o]? = some b ∧ b'.WellFormed ∧
        b'.len = m / 2 ^ o ∧ b'.height = b.height ∧ ∀ i, b'.bit i = b.bit i := by
  induction free generalizing m with
  | nil => exact ⟨[], rfl, rfl, fun hb => (by cases hb)⟩
  | cons b free ih =>
      have hhalf : ∀ o, m / 2 / 2 ^ o = m / 2 ^ (o + 1) := fun o => by
        rw [Nat.div_div_eq_div_mul, Nat.pow_succ']
      obtain ⟨hwell, hheight, htail⟩ := hfree (o := 0) rfl
      rw [Nat.pow_zero, Nat.div_one] at hheight htail
      obtain ⟨b', hb', hwell', hlen', hheight', hbits'⟩ := hwell.resize htail hheight
      obtain ⟨free', hfree', hlength, hlevels⟩ := ih (m := m / 2) fun {o c} hc => by
        rw [hhalf]
        exact hfree (o := o + 1) hc
      refine ⟨b' :: free', ?_, by rw [List.length_cons, List.length_cons, hlength], ?_⟩
      · rw [resizeFree, hb', nextHigherOrder]
        simp only [Option.bind_eq_bind, Option.bind_some, hfree']
      · intro o c hc
        rcases o with _ | o
        · obtain rfl := Option.some.inj hc
          exact ⟨b, rfl, hwell', by rw [hlen', Nat.pow_zero, Nat.div_one], hheight', hbits'⟩
        · rw [← hhalf]
          exact hlevels hc

/-- An allocator with room for `m` pages: its free pages are the same, if they are below `m`. -/
theorem Valid.resizeFree (h : Valid cap n a) {m : ℕ} (hle : m ≤ cap)
    (hpages : ∀ p ∈ a.freePages, p < m) :
    ∃ free, BuddyAllocator.resizeFree a.free m = some free ∧
      Valid cap m ⟨free, a.len, a.maxOrder⟩ ∧
        freePages ⟨free, a.len, a.maxOrder⟩ = a.freePages := by
  have hbelow : ∀ {o i}, a.Holds o i → (i + 1) * 2 ^ o ≤ m := fun {o i} hholds => by
    have hpos := Nat.two_pow_pos o
    have hlt := hpages _ (mem_pages_of_mem hholds (mem_block.mpr
      (show i * 2 ^ o ≤ (i + 1) * 2 ^ o - 1 ∧ (i + 1) * 2 ^ o - 1 < (i + 1) * 2 ^ o by
        rw [Nat.add_mul]; omega)))
    rw [Nat.add_mul] at hlt ⊢
    omega
  obtain ⟨free, hfree, hlength, hlevels⟩ := resizeFree_spec a.free (m := m)
    fun {o b} hb => by
      obtain ⟨hwell, -, hheight⟩ := h.levels hb
      refine ⟨hwell, (Nat.div_le_div_right hle).trans hheight, fun i hi => ?_⟩
      by_contra hclear
      have hholds := hbelow ((holds_iff hb).mpr (by simpa using hclear))
      have hlt := lt_len_iff.mpr hholds
      omega
  have hholds : ∀ o i, Holds ⟨free, a.len, a.maxOrder⟩ o i ↔ a.Holds o i := by
    intro o i
    by_cases ho : o < a.free.length
    · obtain ⟨b', hb'⟩ : ∃ b', free[o]? = some b' :=
        ⟨_, List.getElem?_eq_getElem (by omega)⟩
      obtain ⟨b, hb, -, -, -, hbits⟩ := hlevels hb'
      rw [holds_iff (a := ⟨free, a.len, a.maxOrder⟩) hb', holds_iff hb, hbits]
    · refine iff_of_false ?_ ?_
      · rintro ⟨b', hb', -⟩
        obtain ⟨b, hb, -⟩ := hlevels hb'
        exact ho (List.getElem?_eq_some_iff.mp hb).1
      · rintro ⟨b, hb, -⟩
        exact ho (List.getElem?_eq_some_iff.mp hb).1
  have hsame : Holds ⟨free, a.len, a.maxOrder⟩ = a.Holds := by
    funext o i
    exact propext (hholds o i)
  refine ⟨free, hfree, ⟨⟨hlength.trans h.length, fun {o b'} hb' => ?_, hle⟩, ?_⟩, ?_⟩
  · obtain ⟨b, hb, hwell, hlen, hheight, -⟩ := hlevels hb'
    exact ⟨hwell, hlen, by rw [hheight]; exact (h.levels hb).2.2⟩
  · rw [hsame]
    exact ⟨h.inv.order_le, hbelow, h.inv.exclusive, h.inv.merged⟩
  · rw [freePages, hsame, freePages]

/-- **Growing.** The new pages are free as well. -/
theorem WellFormed.grow_spec (h : a.WellFormed cap) (hpos : 0 < a.len) {m : ℕ} (hlt : a.len < m)
    (hcap : m ≤ cap) (hsmall : cap + 2 ^ a.maxOrder < 2 ^ 32) :
    ∃ a', a.resize m = some a' ∧ a'.WellFormed cap ∧ a'.len = m ∧ a'.maxOrder = a.maxOrder ∧
      a'.freePages = a.freePages ∪ {p | a.len ≤ p ∧ p < m} := by
  obtain ⟨free, hfree, hvalid, hpages⟩ := Valid.resizeFree h hcap fun p hp =>
    (h.inv.lt_of_mem hp).trans hlt
  let P : ℕ → BuddyAllocator → Prop := fun p b =>
    Result cap m ⟨free, a.len, a.maxOrder⟩ b (a.freePages ∪ {q | a.len ≤ q ∧ q < p})
  have hstart : P a.len ⟨free, a.len, a.maxOrder⟩ := by
    refine ⟨hvalid, rfl, rfl, ?_⟩
    rw [hpages]
    ext p
    rw [Set.mem_union, Set.mem_ofPred_eq, or_iff_left (by omega)]
  have hgrown : Yields False (forBlocks freeInner m a.maxOrder a.len ⟨free, a.len, a.maxOrder⟩)
      (P m) := by
    refine forBlocks_spec (by omega) (fun o i b ho hfirst hlast hP => ?_) (Nat.le_of_lt hlt) hstart
    have hle : i * 2 ^ o ≤ (i + 1) * 2 ^ o := Nat.mul_le_mul_right _ (by omega)
    obtain ⟨b', hb', hresult⟩ := hP.valid.freeInner_spec (by rw [hP.maxOrder]; exact ho) hlast (by
      rw [hP.pages]
      refine Set.disjoint_left.mpr fun p hp hp' => ?_
      rw [mem_block] at hp
      rcases hp' with hp' | hp'
      · have hbelow := h.inv.lt_of_mem hp'
        omega
      · rw [Set.mem_ofPred_eq] at hp'
        omega)
    refine yields_false.mpr ⟨b', hb', (hP.trans hresult).congr ?_⟩
    rw [hP.pages]
    ext p
    simp only [Set.mem_union, Set.mem_ofPred_eq, mem_block]
    rw [or_assoc]
    refine or_congr_right ?_
    omega
  obtain ⟨b, hloop, hvalid', hlen, hmax, hpages'⟩ := yields_false.mp hgrown
  refine ⟨{ b with len := m }, ?_, ⟨⟨hvalid'.length, hvalid'.levels, hcap⟩, hvalid'.inv⟩, rfl,
    hmax, hpages'⟩
  rw [resize, if_pos hlt, if_neg (by omega)]
  simp only [Option.bind_eq_bind, Option.bind_some, hfree, hloop]

/-- The loop of a shrinking allocator takes the pages behind the new size; it panics if one of them
is not free. -/
theorem WellFormed.forBlocks_shrink (h : a.WellFormed cap) {m : ℕ} (hle : m ≤ a.len)
    (hsmall : cap + 2 ^ a.maxOrder < 2 ^ 32) :
    Yields (¬ ∀ p, m ≤ p → p < a.len → p ∈ a.freePages)
      (forBlocks recordAllocInner a.len a.maxOrder m a) fun b =>
        (∀ p, m ≤ p → p < a.len → p ∈ a.freePages) ∧
          Result cap a.len a b (a.freePages \ {q | m ≤ q ∧ q < a.len}) := by
  let P : ℕ → BuddyAllocator → Prop := fun p b =>
    (∀ q, m ≤ q → q < p → q ∈ a.freePages) ∧
      Result cap a.len a b (a.freePages \ {q | m ≤ q ∧ q < p})
  have hstart : P m a := by
    refine ⟨fun q hq hlt => absurd hq (Nat.not_le.mpr hlt), h, rfl, rfl, ?_⟩
    ext p
    rw [Set.mem_sdiff, Set.mem_ofPred_eq, and_iff_left (by omega)]
  refine forBlocks_spec (P := P) (by have := h.le_cap; omega) ?_ hle hstart
  rintro o i b ho hfirst hlast ⟨hbelow, hresult⟩
  by_cases hfree : block o i ⊆ b.freePages
  · obtain ⟨b', hb', hresult'⟩ := hresult.valid.recordAllocInnerLoop_spec rfl
      (by rw [hresult.maxOrder]; exact ho) hfree
    rw [recordAllocInner, hb']
    refine yields_some ⟨fun q hq hlt => ?_, (hresult.trans hresult').congr ?_⟩
    · by_cases hq' : q < i * 2 ^ o
      · exact hbelow q hq hq'
      · have hmem := hfree (mem_block.mpr ⟨Nat.not_lt.mp hq', hlt⟩)
        rw [hresult.pages] at hmem
        exact hmem.1
    · rw [hresult.pages]
      ext p
      have hstep : i * 2 ^ o ≤ (i + 1) * 2 ^ o := Nat.mul_le_mul_right _ (by omega)
      simp only [Set.mem_sdiff, Set.mem_ofPred_eq, mem_block, and_assoc]
      refine and_congr_right fun _ => ?_
      omega
  · rw [recordAllocInner, hresult.valid.recordAllocInnerLoop_none rfl hfree]
    refine ⟨fun _ htail => hfree fun p hp => ?_, fun b' hb' => by cases hb'⟩
    rw [mem_block] at hp
    rw [hresult.pages, Set.mem_sdiff, Set.mem_ofPred_eq]
    exact ⟨htail p (by omega) (by omega), by omega⟩

/-- **Shrinking.** It gives up the pages behind the new size, which must be free. -/
theorem WellFormed.shrink_spec (h : a.WellFormed cap) {m : ℕ} (hle : m ≤ a.len)
    (hsmall : cap + 2 ^ a.maxOrder < 2 ^ 32) :
    ((∀ p, m ≤ p → p < a.len → p ∈ a.freePages) → ∃ a', a.resize m = some a' ∧
      a'.WellFormed cap ∧ a'.len = m ∧ a'.maxOrder = a.maxOrder ∧
        a'.freePages = {p ∈ a.freePages | p < m}) ∧
    ((¬ ∀ p, m ≤ p → p < a.len → p ∈ a.freePages) → a.resize m = none) := by
  obtain ⟨hnone, hsome⟩ := h.forBlocks_shrink hle hsmall
  rw [resize, if_neg (Nat.not_lt.mpr hle)]
  rcases hloop : forBlocks recordAllocInner a.len a.maxOrder m a with _ | b
  · exact ⟨fun htail => absurd htail (hnone hloop), fun _ => rfl⟩
  obtain ⟨htail, hvalid, hlen, hmax, hpages⟩ := hsome b hloop
  refine ⟨fun _ => ?_, fun hnot => absurd htail hnot⟩
  have hbelow : ∀ p ∈ b.freePages, p < m := fun p hp => by
    have hlt := hvalid.inv.lt_of_mem hp
    rw [hpages, Set.mem_sdiff, Set.mem_ofPred_eq] at hp
    omega
  obtain ⟨free, hfree, hvalid', hpages'⟩ := hvalid.resizeFree (hle.trans h.le_cap) hbelow
  refine ⟨{ b with free, len := m }, ?_, ⟨⟨hvalid'.length, hvalid'.levels, hvalid'.le_cap⟩,
    hvalid'.inv⟩, rfl, hmax, ?_⟩
  · simp only [Option.bind_eq_bind, Option.bind_some, hfree]
  · refine Eq.trans (b := b.freePages) hpages' ?_
    rw [hpages]
    ext p
    have hlt : p ∈ a.freePages → p < a.len := fun hp => h.inv.lt_of_mem hp
    simp only [Set.mem_sdiff, Set.mem_ofPred_eq]
    refine and_congr_right fun hp => ?_
    have := hlt hp
    omega

/-! ### Counts -/

/-- `count_free_pages` counts the free pages. -/
theorem Valid.countFreePages_eq (h : Valid cap n a) : a.countFreePages = a.freePages.ncard := by
  have hcount : ∀ o ∈ List.range (a.maxOrder + 1),
      ((a.free[o]?).map BtreeBitmap.countUnset).getD 0 * 2 ^ o =
        {i | a.Holds o i}.ncard * 2 ^ o := by
    intro o ho
    obtain ⟨b, hb⟩ := h.exists_free (Nat.le_of_lt_succ (List.mem_range.mp ho))
    rw [hb, Option.map_some, Option.getD_some, b.countUnset_eq]
    simp only [holds_iff hb]
  rw [countFreePages, List.map_congr_left hcount]
  exact h.inv.sum_eq

/-- `count_allocated_pages` counts the pages that are not free. -/
theorem WellFormed.countAllocatedPages_eq (h : a.WellFormed cap) :
    a.countAllocatedPages = {p | p < a.len ∧ p ∉ a.freePages}.ncard := by
  have hpages : {p | p < a.len ∧ p ∉ a.freePages} = {p | p < a.len} \ a.freePages := rfl
  have hall : {p | p < a.len}.ncard = a.len := by
    rw [show {p | p < a.len} = ↑(Finset.range a.len) by ext p; simp, Set.ncard_coe_finset,
      Finset.card_range]
  have hsub : a.freePages ⊆ {p | p < a.len} := fun p hp => h.inv.lt_of_mem hp
  rw [countAllocatedPages, h.countFreePages_eq, hpages,
    Set.ncard_sdiff hsub ((Set.finite_lt_nat _).subset hsub), hall]

theorem find?_reverse_range {p : ℕ → Bool} {m : ℕ} :
    ((List.range m).reverse.find? p = none → ∀ k < m, p k = false) ∧
      ∀ k, (List.range m).reverse.find? p = some k → IsGreatest {k | k < m ∧ p k = true} k := by
  induction m with
  | zero => exact ⟨fun _ k hk => absurd hk (Nat.not_lt_zero k), fun k hk => by cases hk⟩
  | succ m ih =>
      rw [List.range_succ, List.reverse_append, List.reverse_singleton, List.singleton_append]
      rcases hp : p m with _ | _
      · rw [List.find?_cons_of_neg (by simp [hp])]
        refine ⟨fun hnone k hk => ?_, fun k hk => ?_⟩
        · rcases Nat.lt_succ_iff_lt_or_eq.mp hk with hlt | rfl
          · exact ih.1 hnone k hlt
          · exact hp
        · obtain ⟨⟨hlt, hk'⟩, hup⟩ := ih.2 k hk
          refine ⟨⟨Nat.lt_succ_of_lt hlt, hk'⟩, ?_⟩
          rintro j ⟨hj, hpj⟩
          rcases Nat.lt_succ_iff_lt_or_eq.mp hj with hj' | rfl
          · exact hup ⟨hj', hpj⟩
          · rw [hp] at hpj
            cases hpj
      · rw [List.find?_cons_of_pos hp]
        refine ⟨fun hnone => (by cases hnone), fun k hk => ?_⟩
        obtain rfl := Option.some.inj hk
        exact ⟨⟨Nat.lt_succ_self _, hp⟩, fun j hj => Nat.le_of_lt_succ hj.1⟩

/-- `highest_free_order`: the highest order of which a block is free. -/
theorem Valid.highestFreeOrder_spec (h : Valid cap n a) :
    (a.highestFreeOrder = none → a.freePages = ∅) ∧
      ∀ o, a.highestFreeOrder = some o →
        IsGreatest {o | o ≤ a.maxOrder ∧ ∃ i, block o i ⊆ a.freePages} o := by
  have hunset : ∀ o, (a.free[o]?).any BtreeBitmap.hasUnset = true ↔ ∃ i, a.Holds o i := by
    intro o
    rcases hb : a.free[o]? with _ | b
    · refine iff_of_false (by rintro ⟨⟩) ?_
      rintro ⟨i, b, hb', -⟩
      rw [hb] at hb'
      cases hb'
    · rw [Option.any_some, BtreeBitmap.hasUnset_iff]
      simp only [holds_iff hb]
  obtain ⟨hnone, hsome⟩ := find?_reverse_range (m := a.maxOrder + 1)
    (p := fun o => (a.free[o]?).any BtreeBitmap.hasUnset)
  constructor
  · intro heq
    refine Set.eq_empty_of_forall_notMem fun p hp => ?_
    obtain ⟨o, ho⟩ := hp
    have hfalse := hnone heq o (Nat.lt_succ_of_le (h.inv.order_le ho))
    rw [(hunset o).mpr ⟨_, ho⟩] at hfalse
    cases hfalse
  · intro o heq
    obtain ⟨⟨hlt, ho⟩, hup⟩ := hsome o heq
    obtain ⟨i, hi⟩ := (hunset o).mp ho
    refine ⟨⟨Nat.le_of_lt_succ hlt, i, block_subset_pages hi⟩, ?_⟩
    rintro o' ⟨ho', i', hi'⟩
    obtain ⟨k, hk⟩ := h.inv.exists_of_subset ho' hi'
    have hle := hup ⟨Nat.lt_succ_of_le (h.inv.order_le hk), (hunset _).mpr ⟨_, hk⟩⟩
    exact (Nat.le_add_right o' k).trans hle

theorem Valid.findFreeOrderLoop_spec (h : Valid cap n a) {free : List BtreeBitmap} {k : ℕ}
    (hfree : a.free.drop k = free) (p : ℕ) :
    ∃ r, findFreeOrderLoop free k (p / 2 ^ k) = some r ∧
      (r = none → ∀ o, k ≤ o → ¬ a.Holds o (p / 2 ^ o)) ∧
      ∀ o, r = some o → a.Holds o (p / 2 ^ o) := by
  induction free generalizing k with
  | nil =>
      refine ⟨none, rfl, fun _ o ho hholds => ?_, fun o heq => by cases heq⟩
      have hle := h.inv.order_le hholds
      have hlength := h.length
      have hdrop := List.drop_eq_nil_iff.mp hfree
      omega
  | cons b free ih =>
      have hb : a.free[k]? = some b := by
        rw [← Nat.add_zero k, ← List.getElem?_drop, hfree, List.getElem?_cons_zero]
      obtain ⟨value, htaken, hholds⟩ := h.taken_eq hb (p / 2 ^ k)
      rw [findFreeOrderLoop, htaken]
      simp only [Option.bind_eq_bind, Option.bind_some]
      cases value with
      | true =>
          obtain ⟨r, hr, hnone, hsome⟩ := ih (k := k + 1) (by rw [← List.tail_drop, hfree]; rfl)
          rw [Nat.pow_succ, ← Nat.div_div_eq_div_mul] at hr
          refine ⟨r, hr, fun heq o ho => ?_, hsome⟩
          rcases Nat.eq_or_lt_of_le ho with rfl | hlt
          · exact fun hheld => by cases hholds.mpr hheld
          · exact hnone heq o hlt
      | false =>
          refine ⟨some k, rfl, fun heq => (by cases heq), fun o heq => ?_⟩
          obtain rfl := Option.some.inj heq
          exact hholds.mp rfl

/-- `find_free_order`: the order at which a page is free. -/
theorem Valid.findFreeOrder_spec (h : Valid cap n a) (p : ℕ) :
    ∃ r, a.findFreeOrder p = some r ∧ (r = none → p ∉ a.freePages) ∧
      ∀ o, r = some o → a.Holds o (p / 2 ^ o) := by
  obtain ⟨r, hr, hnone, hsome⟩ := h.findFreeOrderLoop_spec (k := 0) List.drop_zero p
  rw [Nat.pow_zero, Nat.div_one] at hr
  refine ⟨r, hr, ?_, hsome⟩
  rintro heq ⟨o, ho⟩
  exact hnone heq o (Nat.zero_le o) ho

/-- The pages counted so far are free, and the next page ends a block. -/
structure Trailing (a : BuddyAllocator) (nextPage freePages : ℕ) : Prop where
  sum : nextPage + 1 + freePages = a.len
  free : ∀ p, nextPage < p → p < a.len → p ∈ a.freePages
  ends : nextPage + 1 = a.len ∨ ∃ o i, a.Holds o i ∧ nextPage + 1 = i * 2 ^ o

theorem WellFormed.trailingFreePagesLoop_spec (h : a.WellFormed cap) {rounds p k : ℕ}
    (hrounds : p < rounds) (ht : Trailing a p k) :
    ∃ k', trailingFreePagesLoop a rounds p k = some k' ∧ k' ≤ a.len ∧
      (∀ q, a.len - k' ≤ q → q < a.len → q ∈ a.freePages) ∧
      (k' < a.len → a.len - k' - 1 ∉ a.freePages) := by
  induction rounds generalizing p k with
  | zero => omega
  | succ rounds ih =>
      have hsum := ht.sum
      obtain ⟨r, hr, hnone, hsome⟩ := h.findFreeOrder_spec p
      rw [trailingFreePagesLoop, hr]
      simp only [Option.bind_eq_bind, Option.bind_some]
      rcases r with _ | o
      · refine ⟨k, rfl, by omega, fun q hq => ht.free q (by omega), fun _ => ?_⟩
        rw [show a.len - k - 1 = p by omega]
        exact hnone rfl
      · have hholds := hsome o rfl
        have hpos := Nat.two_pow_pos o
        have hmem : p ∈ block o (p / 2 ^ o) := mem_block_div
        have hbound := h.inv.bounded hholds
        have hrange := mem_block.mp hmem
        -- The next page is the last one of its block: the page behind it is in no block with it.
        have hlast : p + 1 = (p / 2 ^ o + 1) * 2 ^ o := by
          by_contra hne
          have hinner : p + 1 ∈ block o (p / 2 ^ o) := mem_block.mpr (by omega)
          rcases ht.ends with hend | ⟨o', i', hholds', hstart⟩
          · omega
          · have hsame := h.inv.eq_of_mem hholds hholds' hinner
              (by rw [hstart]; exact first_mem o' i')
            obtain ⟨rfl, hi⟩ := hsame
            rw [hi] at hrange
            omega
        rw [Nat.add_mul, Nat.one_mul] at hlast
        have hfree : ∀ q, p / 2 ^ o * 2 ^ o ≤ q → q < a.len → q ∈ a.freePages := by
          intro q hq hlt
          by_cases hp : p < q
          · exact ht.free q hp hlt
          · exact mem_pages_of_mem hholds (mem_block.mpr (by rw [Nat.add_mul]; omega))
        dsimp only
        split_ifs with hsmall
        · have hzero : p / 2 ^ o = 0 := Nat.div_eq_of_lt hsmall
          rw [hzero, Nat.zero_mul] at hlast hfree
          exact ⟨k + 2 ^ o, rfl, by omega, fun q _ => hfree q (Nat.zero_le q), fun hlt => by omega⟩
        · refine ih (by omega) ⟨by omega, fun q hq => hfree q (by omega), .inr ⟨o, p / 2 ^ o, ?_⟩⟩
          exact ⟨hholds, by omega⟩

/-- **Trailing free pages.** All of them are counted, and no others. -/
theorem WellFormed.trailingFreePages_spec (h : a.WellFormed cap) (hpos : 0 < a.len) :
    ∃ k, a.trailingFreePages = some k ∧
      IsGreatest {k | k ≤ a.len ∧ ∀ p, a.len - k ≤ p → p < a.len → p ∈ a.freePages} k := by
  obtain ⟨k, hk, hle, hfree, hnot⟩ := h.trailingFreePagesLoop_spec (k := 0)
    (show a.len - 1 < a.len by omega)
    ⟨by omega, fun p hp hlt => by omega, .inl (by omega)⟩
  refine ⟨k, ?_, ⟨hle, hfree⟩, ?_⟩
  · rw [trailingFreePages, if_neg (by omega), hk]
  · rintro k' ⟨hle', hfree'⟩
    by_contra hlt
    exact hnot (by omega) (hfree' _ (by omega) (by omega))

end BuddyAllocator

end Torpor.Redb
