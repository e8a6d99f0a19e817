import Torpor.Lib.Buddy
import Torpor.Redb.Bitmap

/-!
# The Buddy Allocator

The allocator of a region: for each order a bitmap in which a clear bit is a free block. A page is
free at one order only, and buddies are merged. A function returns `none` where the source panics,
as its debug build does.

## Main results

* `WellFormed.alloc_spec`, `WellFormed.allocLowest_spec`: an allocation takes a block of free pages;
  it fails only if there is none, and `alloc_lowest` takes the lowest.
* `WellFormed.free_spec`, `WellFormed.recordAlloc_spec`, `WellFormed.resize_spec`: what the other
  operations make of the free pages.
-/

namespace Torpor.Redb

open Buddy

/-- `MAX_MAX_PAGE_ORDER`. -/
def maxMaxPageOrder : ℕ := 20

/-- `calculate_usable_order`. -/
def calculateUsableOrder (pages : ℕ) : Option ℕ :=
  if pages = 0 then none else some (min maxMaxPageOrder pages.log2)

/-- `next_higher_order`. -/
def nextHigherOrder (pageNumber : ℕ) : ℕ := pageNumber / 2

/-- `buddy_page`. -/
def buddyPage (pageNumber : ℕ) : ℕ := pageNumber ^^^ 1

/-- `u32::trailing_zeros`. -/
def trailingZeros (n : ℕ) : ℕ := (BitVec.ofNat 32 n).ctz.toNat

/-- The addition of two `u32`, which panics on overflow. -/
def addU32 (x y : ℕ) : Option ℕ := if x + y < 2 ^ 32 then some (x + y) else none

/-- `BuddyAllocator`. -/
structure BuddyAllocator where
  free : List BtreeBitmap
  len : ℕ
  maxOrder : ℕ

namespace BuddyAllocator

/-! ### Loops over the blocks of a range of pages -/

section Loops

variable {α : Type} (act : ℕ → ℕ → α → Option α) (last : ℕ)

/-- Blocks of one order, as long as they fit. -/
def fillOrder (order : ℕ) : ℕ → ℕ → α → Option (ℕ × α)
  | 0, processed, a => some (processed, a)
  | rounds + 1, processed, a => do
      let next ← addU32 processed (2 ^ order)
      if next ≤ last then do
        let a ← act (processed / 2 ^ order) order a
        fillOrder order rounds next a
      else some (processed, a)

/-- Blocks of all orders below the given one, starting with the highest. -/
def fillDown : ℕ → ℕ → α → Option (ℕ × α)
  | 0, processed, a => some (processed, a)
  | order + 1, processed, a => do
      let (processed, a) ← fillOrder act last order (last - processed + 1) processed a
      fillDown order processed a

/-- Blocks up to one that is aligned to the highest order possible. -/
def align (maxOrder : ℕ) : ℕ → ℕ → α → Option (ℕ × α)
  | 0, processed, a => some (processed, a)
  | rounds + 1, processed, a =>
      let order := trailingZeros processed
      if processed < last ∧ order < maxOrder then do
        let next ← addU32 processed (2 ^ order)
        if next ≤ last then do
          let a ← act (processed / 2 ^ order) order a
          align maxOrder rounds next a
        else some (processed, a)
      else some (processed, a)

/-- Blocks of the pages from `first` on, up to the last. -/
def forBlocks (maxOrder first : ℕ) (a : α) : Option α := do
  let (processed, a) ← align act last maxOrder (last - first) first a
  let (processed, a) ← fillDown act last (maxOrder + 1) processed a
  if processed = last then some a else none

end Loops

/-! ### The allocator -/

/-- `get_order_free_mut`, and what is done to the bitmap. -/
def modifyOrder (a : BuddyAllocator) (order : ℕ) (f : BtreeBitmap → Option BtreeBitmap) :
    Option BuddyAllocator := do
  let allocator ← a.free[order]?
  let allocator ← f allocator
  some { a with free := a.free.set order allocator }

/-- The bitmaps of `new`. -/
def newFree : ℕ → ℕ → ℕ → List BtreeBitmap
  | 0, _, _ => []
  | orders + 1, pages, capacity =>
      .newPadded pages pages capacity ::
        newFree orders (nextHigherOrder pages) (nextHigherOrder capacity)

/-- `new`. -/
def new (numPages maxPageCapacity : ℕ) : Option BuddyAllocator := do
  let maxOrder ← calculateUsableOrder maxPageCapacity
  let a : BuddyAllocator := ⟨newFree (maxOrder + 1) numPages maxPageCapacity, numPages, maxOrder⟩
  let (accountedPages, a) ← fillDown (fun page order a => a.modifyOrder order (·.clear page))
    numPages (maxOrder + 1) 0 a
  if accountedPages = numPages then some a else none

/-- `highest_free_order`. -/
def highestFreeOrder (a : BuddyAllocator) : Option ℕ :=
  (List.range (a.maxOrder + 1)).reverse.find? fun order =>
    (a.free[order]?).any BtreeBitmap.hasUnset

/-- `count_free_pages`. -/
def countFreePages (a : BuddyAllocator) : ℕ :=
  ((List.range (a.maxOrder + 1)).map fun order =>
    ((a.free[order]?).map BtreeBitmap.countUnset).getD 0 * 2 ^ order).sum

/-- `count_allocated_pages`. -/
def countAllocatedPages (a : BuddyAllocator) : ℕ := a.len - a.countFreePages

/-- A page is beyond the bitmap, or not free in it. -/
def taken (allocator : BtreeBitmap) (page : ℕ) : Option Bool :=
  if page < allocator.len then allocator.get page else some true

/-- The loop of `find_free_order`. -/
def findFreeOrderLoop : List BtreeBitmap → ℕ → ℕ → Option (Option ℕ)
  | [], _, _ => some none
  | allocator :: free, order, page => do
      if ← taken allocator page then findFreeOrderLoop free (order + 1) (nextHigherOrder page)
      else some (some order)

/-- `find_free_order`. -/
def findFreeOrder (a : BuddyAllocator) (page : ℕ) : Option (Option ℕ) :=
  findFreeOrderLoop a.free 0 page

/-- The loop of `trailing_free_pages`. -/
def trailingFreePagesLoop (a : BuddyAllocator) : ℕ → ℕ → ℕ → Option ℕ
  | 0, _, freePages => some freePages
  | rounds + 1, nextPage, freePages => do
      match ← a.findFreeOrder nextPage with
      | none => some freePages
      | some order =>
          let orderSize := 2 ^ order
          if nextPage < orderSize then some (freePages + orderSize)
          else trailingFreePagesLoop a rounds (nextPage - orderSize) (freePages + orderSize)

/-- `trailing_free_pages`. -/
def trailingFreePages (a : BuddyAllocator) : Option ℕ :=
  if a.len = 0 then none else trailingFreePagesLoop a a.len (a.len - 1) 0

/-- The blocks of `alloc_inner` and `alloc_lowest`: the upper page is split, its second half is
free. -/
def split (a : BuddyAllocator) (upperPage order : ℕ) : Option (ℕ × BuddyAllocator) := do
  let free1 := upperPage * 2
  let free2 := upperPage * 2 + 1
  let allocator ← a.free[order]?
  let taken1 ← allocator.get free1
  let taken2 ← allocator.get free2
  if taken1 && taken2 then
    let a ← a.modifyOrder order (·.clear free2)
    some (free1, a)
  else none

/-- `alloc_inner`, for as many rounds as there are orders left. -/
def allocInnerLoop (a : BuddyAllocator) : ℕ → ℕ → Option (Option (ℕ × BuddyAllocator))
  | 0, _ => some none
  | rounds + 1, order => do
      let allocator ← a.free[order]?
      match ← allocator.alloc with
      | some (x, allocator) => some (some (x, { a with free := a.free.set order allocator }))
      | none =>
          match ← allocInnerLoop a rounds (order + 1) with
          | none => some none
          | some (upperPage, a) => (a.split upperPage order).map some

/-- `alloc_inner`. -/
def allocInner (a : BuddyAllocator) (order : ℕ) : Option (Option (ℕ × BuddyAllocator)) :=
  a.allocInnerLoop (a.maxOrder + 1 - order) order

/-- `alloc`. -/
def alloc (a : BuddyAllocator) (order : ℕ) : Option (Option (ℕ × BuddyAllocator)) :=
  a.allocInner order

/-- `record_alloc_inner`, for as many rounds as there are orders left. -/
def recordAllocInnerLoop : ℕ → ℕ → ℕ → BuddyAllocator → Option BuddyAllocator
  | 0, _, _, _ => none
  | rounds + 1, pageNumber, order, a => do
      let allocator ← a.free[order]?
      if ← allocator.get pageNumber then
        let upperPage := nextHigherOrder pageNumber
        let a ← recordAllocInnerLoop rounds upperPage (order + 1) a
        let free1 := upperPage * 2
        let free2 := upperPage * 2 + 1
        if free1 = pageNumber then a.modifyOrder order (·.clear free2)
        else a.modifyOrder order (·.clear free1)
      else a.modifyOrder order (·.set pageNumber)

/-- `record_alloc_inner`. -/
def recordAllocInner (pageNumber order : ℕ) (a : BuddyAllocator) : Option BuddyAllocator :=
  recordAllocInnerLoop (a.maxOrder + 1 - order) pageNumber order a

/-- `record_alloc`. -/
def recordAlloc (a : BuddyAllocator) (pageNumber order : ℕ) : Option BuddyAllocator :=
  if order ≤ a.maxOrder then recordAllocInner pageNumber order a else none

/-- `free_inner`, for as many rounds as there are orders above. -/
def freeInnerLoop : ℕ → ℕ → ℕ → BuddyAllocator → Option BuddyAllocator
  | 0, pageNumber, order, a => a.modifyOrder order (·.clear pageNumber)
  | rounds + 1, pageNumber, order, a => do
      let allocator ← a.free[order]?
      let buddy := buddyPage pageNumber
      if ← taken allocator buddy then a.modifyOrder order (·.clear pageNumber)
      else
        let a ← a.modifyOrder order (·.set buddy)
        freeInnerLoop rounds (nextHigherOrder pageNumber) (order + 1) a

/-- `free_inner`. -/
def freeInner (pageNumber order : ℕ) (a : BuddyAllocator) : Option BuddyAllocator :=
  freeInnerLoop (a.maxOrder - order) pageNumber order a

/-- `free`. -/
def freePage (a : BuddyAllocator) (pageNumber order : ℕ) : Option BuddyAllocator := do
  let allocator ← a.free[order]?
  if ← allocator.get pageNumber then freeInner pageNumber order a else none

/-- The bitmaps of `resize`. -/
def resizeFree : List BtreeBitmap → ℕ → Option (List BtreeBitmap)
  | [], _ => some []
  | order :: free, pagesForOrder => do
      let order ← order.resize pagesForOrder true
      let free ← resizeFree free (nextHigherOrder pagesForOrder)
      some (order :: free)

/-- `resize`. In an allocator without pages, the first block to be freed would be of order 32. -/
def resize (a : BuddyAllocator) (newSize : ℕ) : Option BuddyAllocator :=
  if a.len < newSize then
    if a.len = 0 then none
    else do
      let free ← resizeFree a.free newSize
      let b ← forBlocks freeInner newSize a.maxOrder a.len { a with free }
      some { b with len := newSize }
  else do
    let b ← forBlocks recordAllocInner a.len a.maxOrder newSize a
    let free ← resizeFree b.free newSize
    some { b with free, len := newSize }

/-- The search of `alloc_lowest` over the orders from the given one on: `best` is the best page and
its order. -/
def lowestLoop : ℕ → ℕ → ℕ → ℕ → ℕ × ℕ → BuddyAllocator →
    Option (ℕ × (ℕ × ℕ) × BuddyAllocator)
  | 0, _, _, bestIndexAtOrder, best, a => some (bestIndexAtOrder, best, a)
  | rounds + 1, i, multiplier, bestIndexAtOrder, best, a => do
      match ← a.allocInner i with
      | none => lowestLoop rounds (i + 1) (multiplier * 2) bestIndexAtOrder best a
      | some (index, a) =>
          let indexAtOrder := index * multiplier
          if indexAtOrder < bestIndexAtOrder then
            let a ← freeInner best.1 best.2 a
            lowestLoop rounds (i + 1) (multiplier * 2) indexAtOrder (index, i) a
          else
            let a ← freeInner index i a
            lowestLoop rounds (i + 1) (multiplier * 2) bestIndexAtOrder best a

/-- The splitting of `alloc_lowest`, down to the requested order. -/
def splitDown : ℕ → ℕ → ℕ → BuddyAllocator → Option (ℕ × BuddyAllocator)
  | 0, _, page, a => some (page, a)
  | levels + 1, order, page, a => do
      let (page, a) ← a.split page (order + levels)
      splitDown levels order page a

/-- `alloc_lowest`. -/
def allocLowest (a : BuddyAllocator) (order : ℕ) : Option (Option (ℕ × BuddyAllocator)) := do
  match ← a.allocInner order with
  | none => some none
  | some (page, a) =>
      let (bestIndexAtOrder, best, a) ←
        lowestLoop (a.maxOrder - order) (order + 1) 2 page (page, order) a
      let (page, a) ← splitDown (best.2 - order) order best.1 a
      if page = bestIndexAtOrder then some (some (page, a)) else none

/-! ### The free index -/

/-- A block is in the free index. -/
def Holds (a : BuddyAllocator) (order i : ℕ) : Prop :=
  ∃ b, a.free[order]? = some b ∧ b.bit i = false

/-- The free pages. -/
def freePages (a : BuddyAllocator) : Set ℕ := pages a.Holds

/-- The bitmaps of an allocator of `n` pages that can grow to `cap`. -/
structure Sound (cap n : ℕ) (a : BuddyAllocator) : Prop where
  length : a.free.length = a.maxOrder + 1
  levels : ∀ {order b}, a.free[order]? = some b →
    b.WellFormed ∧ b.len = n / 2 ^ order ∧ cap / 2 ^ order ≤ 64 ^ b.height
  le_cap : n ≤ cap

/-- An allocator of `n` pages. -/
structure Valid (cap n : ℕ) (a : BuddyAllocator) : Prop extends Sound cap n a where
  inv : Inv a.maxOrder n a.Holds

/-- An allocator as it is between two operations. -/
def WellFormed (cap : ℕ) (a : BuddyAllocator) : Prop := Valid cap a.len a

/-- What an operation makes of an allocator: its free pages are `P`. -/
structure Result (cap n : ℕ) (a a' : BuddyAllocator) (P : Set ℕ) : Prop where
  valid : Valid cap n a'
  len : a'.len = a.len
  maxOrder : a'.maxOrder = a.maxOrder
  pages : a'.freePages = P

variable {cap n : ℕ} {a a' : BuddyAllocator} {o i : ℕ}

theorem Sound.exists_free (h : Sound cap n a) (ho : o ≤ a.maxOrder) :
    ∃ b, a.free[o]? = some b :=
  ⟨_, List.getElem?_eq_getElem (by have := h.length; omega)⟩

/-- A block is among the pages exactly if its index is one of the bitmap of its order. -/
theorem lt_len_iff : i < n / 2 ^ o ↔ (i + 1) * 2 ^ o ≤ n :=
  Nat.le_div_iff_mul_le (Nat.two_pow_pos o)

theorem holds_iff {b : BtreeBitmap} (hb : a.free[o]? = some b) :
    a.Holds o i ↔ b.bit i = false := by
  constructor
  · rintro ⟨b', hb', hclear⟩
    obtain rfl := Option.some.inj (hb.symm.trans hb')
    exact hclear
  · exact fun hclear => ⟨b, hb, hclear⟩

/-- The bitmap of an order tells which blocks are not in the free index. -/
theorem Sound.get_eq (h : Sound cap n a) (ho : o ≤ a.maxOrder) (hi : (i + 1) * 2 ^ o ≤ n) :
    ∃ b taken, a.free[o]? = some b ∧ b.get i = some taken ∧ (taken = false ↔ a.Holds o i) := by
  obtain ⟨b, hb⟩ := h.exists_free ho
  obtain ⟨hwell, hlen, -⟩ := h.levels hb
  exact ⟨b, _, hb, hwell.get (by rw [hlen]; exact lt_len_iff.mpr hi), (holds_iff hb).symm⟩

/-- The free index after a change of one bit. -/
theorem Sound.step (h : Sound cap n a) {b b' : BtreeBitmap} (hb : a.free[o]? = some b)
    {value : Bool} (hstep : BtreeBitmap.Stepped b b' i value) :
    Sound cap n { a with free := a.free.set o b' } ∧
      ∀ o' i', Holds { a with free := a.free.set o b' } o' i' ↔
        if (o', i') = (o, i) then value = false else a.Holds o' i' := by
  obtain ⟨hlt, -⟩ := List.getElem?_eq_some_iff.mp hb
  obtain ⟨hwell, hlen, hheight⟩ := h.levels hb
  refine ⟨⟨by rw [List.length_set, h.length], fun {order c} hc => ?_, h.le_cap⟩, fun o' i' => ?_⟩
  · rw [List.getElem?_set] at hc
    split_ifs at hc with heq
    · obtain rfl := Option.some.inj hc
      subst heq
      exact ⟨hstep.wellFormed, hstep.len.trans hlen, by rw [hstep.height]; exact hheight⟩
    · exact h.levels hc
  · by_cases ho : o' = o
    · subst ho
      rw [holds_iff (List.getElem?_set_self hlt), holds_iff hb]
      split_ifs with heq
      · rw [(Prod.mk.inj heq).2, hstep.self]
      · rw [hstep.other i' fun hi => heq (by rw [hi])]
    · rw [if_neg fun heq => ho (Prod.mk.inj heq).1]
      simp only [Holds, List.getElem?_set_ne (Ne.symm ho)]

/-- Taking a block out of the free index. -/
theorem Valid.step_take (h : Valid cap n a) {b b' : BtreeBitmap} (hb : a.free[o]? = some b)
    (hholds : a.Holds o i) (hstep : BtreeBitmap.Stepped b b' i true) :
    Result cap n a { a with free := a.free.set o b' } (a.freePages \ block o i) := by
  obtain ⟨hsound, hholds'⟩ := h.toSound.step hb hstep
  obtain ⟨hinv, hpages⟩ := h.inv.erase hholds
    (show ∀ o' i', Holds { a with free := a.free.set o b' } o' i' ↔
        a.Holds o' i' ∧ (o', i') ≠ (o, i) from fun o' i' => by
      rw [hholds' o' i']
      split_ifs with heq
      · exact iff_of_false (by decide) fun hne => hne.2 heq
      · exact (and_iff_left heq).symm)
  exact ⟨⟨hsound, hinv⟩, rfl, rfl, hpages⟩

theorem Valid.take (h : Valid cap n a) (hholds : a.Holds o i) :
    ∃ a', a.modifyOrder o (·.set i) = some a' ∧
      Result cap n a a' (a.freePages \ block o i) := by
  obtain ⟨b, hb, -⟩ := id hholds
  obtain ⟨hwell, hlen, -⟩ := h.levels hb
  obtain ⟨b', hb', hstep⟩ := hwell.set (i := i) (by
    rw [hlen]
    exact lt_len_iff.mpr (h.inv.bounded hholds))
  refine ⟨_, ?_, h.step_take hb hholds hstep⟩
  rw [modifyOrder, hb]
  simp only [Option.bind_eq_bind, Option.bind_some, hb']

/-- Putting a block into the free index. -/
theorem Valid.put_holds (h : Valid cap n a) (ho : o ≤ a.maxOrder) (hi : (i + 1) * 2 ^ o ≤ n)
    (hnew : Disjoint (block o i) a.freePages) (hbuddy : o < a.maxOrder → ¬ a.Holds o (i ^^^ 1)) :
    ∃ a', a.modifyOrder o (·.clear i) = some a' ∧
      Result cap n a a' (a.freePages ∪ block o i) ∧
      ∀ o' i', a'.Holds o' i' ↔ a.Holds o' i' ∨ (o', i') = (o, i) := by
  obtain ⟨b, hb⟩ := h.exists_free ho
  obtain ⟨hwell, hlen, -⟩ := h.levels hb
  obtain ⟨b', hb', hstep⟩ := hwell.clear (i := i) (by
    rw [hlen]
    exact lt_len_iff.mpr hi)
  obtain ⟨hsound, hholds⟩ := h.toSound.step hb hstep
  have hholds' : ∀ o' i', Holds { a with free := a.free.set o b' } o' i' ↔
      a.Holds o' i' ∨ (o', i') = (o, i) := fun o' i' => by
    rw [hholds o' i']
    split_ifs with heq
    · exact iff_of_true rfl (.inr heq)
    · exact (or_iff_left heq).symm
  obtain ⟨hinv, hpages⟩ := h.inv.insert ho hi hnew hbuddy hholds'
  refine ⟨_, ?_, ⟨⟨hsound, hinv⟩, rfl, rfl, hpages⟩, hholds'⟩
  rw [modifyOrder, hb]
  simp only [Option.bind_eq_bind, Option.bind_some, hb']

theorem Valid.put (h : Valid cap n a) (ho : o ≤ a.maxOrder) (hi : (i + 1) * 2 ^ o ≤ n)
    (hnew : Disjoint (block o i) a.freePages) (hbuddy : o < a.maxOrder → ¬ a.Holds o (i ^^^ 1)) :
    ∃ a', a.modifyOrder o (·.clear i) = some a' ∧
      Result cap n a a' (a.freePages ∪ block o i) := by
  obtain ⟨a', ha', hresult, -⟩ := h.put_holds ho hi hnew hbuddy
  exact ⟨a', ha', hresult⟩

/-- A block of which some page is not free, is not in the free index. -/
theorem not_holds_of_disjoint (hnew : Disjoint (block o i) a.freePages) : ¬ a.Holds o i :=
  fun hholds => Set.disjoint_left.mp hnew (first_mem o i) (mem_pages_of_mem hholds (first_mem o i))

/-- A page of an upper block that has just been taken is split: its first half is taken, and its
second half is free. -/
theorem Valid.split_spec (h : Valid cap n a) {u : ℕ} (ho : o < a.maxOrder)
    (hu : (u + 1) * 2 ^ (o + 1) ≤ n) (hnew : Disjoint (block (o + 1) u) a.freePages) :
    ∃ a', a.split u o = some (u * 2, a') ∧
      Result cap n a a' (a.freePages ∪ block o (u * 2 + 1)) := by
  rw [block_succ, Set.disjoint_union_left, Nat.mul_comm 2 u] at hnew
  have hsecond : (u * 2 + 1 + 1) * 2 ^ o ≤ n := by
    rw [Nat.pow_succ, show (u + 1) * (2 ^ o * 2) = (u * 2 + 1 + 1) * 2 ^ o by ring] at hu
    exact hu
  have hfirst : (u * 2 + 1) * 2 ^ o ≤ n := by
    refine le_trans (Nat.mul_le_mul_right _ ?_) hsecond
    omega
  obtain ⟨b, taken1, hb, hget1, htaken1⟩ := h.get_eq (Nat.le_of_lt ho) hfirst
  obtain ⟨b', taken2, hb', hget2, htaken2⟩ := h.get_eq (Nat.le_of_lt ho) hsecond
  obtain rfl := Option.some.inj (hb.symm.trans hb')
  have hnot1 := not_holds_of_disjoint hnew.1
  have hnot2 := not_holds_of_disjoint hnew.2
  obtain rfl : taken1 = true := by simpa using mt htaken1.mp hnot1
  obtain rfl : taken2 = true := by simpa using mt htaken2.mp hnot2
  obtain ⟨a', ha', hresult⟩ := h.put (Nat.le_of_lt ho) hsecond hnew.2 (by
    intro _
    rw [Nat.xor_one_of_odd ⟨u, by omega⟩, Nat.add_sub_cancel]
    exact hnot1)
  refine ⟨a', ?_, hresult⟩
  rw [split, hb]
  simp only [Option.bind_eq_bind, Option.bind_some, hget1, hget2, Bool.and_self, if_true, ha']

theorem Result.trans {a'' : BuddyAllocator} {P P' : Set ℕ} (h : Result cap n a a' P)
    (h' : Result cap n a' a'' P') : Result cap n a a'' P' :=
  ⟨h'.valid, h'.len.trans h.len, h'.maxOrder.trans h.maxOrder, h'.pages⟩

theorem Result.congr {P P' : Set ℕ} (h : Result cap n a a' P) (hP : P = P') :
    Result cap n a a' P' := hP ▸ h

/-! ### Allocations -/

/-- The page that `alloc_inner` picks: it begins the first block of the lowest order that has
one. -/
def Picks (a : BuddyAllocator) (order page : ℕ) : Prop :=
  ∃ k j, page = j * 2 ^ k ∧ IsLeast {j | a.Holds (order + k) j} j ∧
    ∀ k' < k, ∀ j, ¬ a.Holds (order + k') j

/-- What an allocation does. -/
structure Allocated (cap n : ℕ) (a : BuddyAllocator) (order page : ℕ) (a' : BuddyAllocator) :
    Prop where
  free : block order page ⊆ a.freePages
  result : Result cap n a a' (a.freePages \ block order page)

theorem Valid.allocInnerLoop_spec (h : Valid cap n a) {rounds : ℕ}
    (hrounds : rounds = a.maxOrder + 1 - o) :
    ∃ r, a.allocInnerLoop rounds o = some r ∧
      (r = none → ∀ k i, ¬ a.Holds (o + k) i) ∧
      ∀ u a', r = some (u, a') → Allocated cap n a o u a' ∧ a.Picks o u := by
  induction rounds generalizing o with
  | zero =>
      refine ⟨none, rfl, fun _ k i hholds => ?_, fun u a' heq => by cases heq⟩
      have hle := h.inv.order_le hholds
      omega
  | succ rounds ih =>
      obtain ⟨b, hb⟩ := h.exists_free (o := o) (by omega)
      obtain ⟨hwell, hlen, -⟩ := h.levels hb
      obtain ⟨r, hr, hnone, hsome⟩ := hwell.alloc
      rw [allocInnerLoop, hb]
      simp only [Option.bind_eq_bind, Option.bind_some, hr]
      rcases r with _ | ⟨e, b'⟩
      · have hempty : ∀ i, ¬ a.Holds o i := fun i hholds => by
          rw [holds_iff hb, hnone rfl i] at hholds
          cases hholds
        obtain ⟨r', hr', hnone', hsome'⟩ := ih (o := o + 1) (by omega)
        simp only [hr', Option.bind_some]
        rcases r' with _ | ⟨u, a₁⟩
        · refine ⟨none, rfl, fun _ k i => ?_, fun u a' heq => by cases heq⟩
          rcases k with _ | k
          · exact hempty i
          · rw [show o + (k + 1) = o + 1 + k by omega]
            exact hnone' rfl k i
        · obtain ⟨⟨hfree, hresult⟩, k, j, hu, hleast, hbelow⟩ := hsome' u a₁ rfl
          have horder := h.inv.order_le hleast.1
          have hbound := h.inv.le_of_subset hfree
          have hmax := hresult.maxOrder
          obtain ⟨a₂, ha₂, hresult₂⟩ := hresult.valid.split_spec (o := o) (u := u) (by omega) hbound
            (by rw [hresult.pages]; exact Set.disjoint_sdiff_right)
          rw [block_succ, Nat.mul_comm 2 u] at hfree hresult
          refine ⟨some (u * 2, a₂), by simp only [ha₂, Option.map_some], fun heq => (by cases heq),
            fun u' a' heq => ?_⟩
          obtain ⟨rfl, rfl⟩ := Prod.mk.inj (Option.some.inj heq)
          refine ⟨⟨Set.subset_union_left.trans hfree, (hresult.trans hresult₂).congr ?_⟩,
            k + 1, j, ?_, ?_, fun k' hk' => ?_⟩
          · rw [hresult.pages]
            have hapart := disjoint_block (o := o) (i := u * 2) (j := u * 2 + 1) (by omega)
            ext p
            have hmem : p ∈ block o (u * 2 + 1) → p ∈ a.freePages := fun hp => hfree (.inr hp)
            have hnot : p ∈ block o (u * 2 + 1) → p ∉ block o (u * 2) := fun hp hp' =>
              Set.disjoint_left.mp hapart hp' hp
            simp only [Set.mem_union, Set.mem_sdiff]
            tauto
          · rw [hu, Nat.pow_succ, Nat.mul_assoc]
          · rwa [show o + (k + 1) = o + 1 + k by omega]
          · rcases k' with _ | k'
            · exact hempty
            · rw [show o + (k' + 1) = o + 1 + k' by omega]
              exact hbelow k' (by omega)
      · obtain ⟨hleast, hstep⟩ := hsome e b' rfl
        have hholds : a.Holds o e := (holds_iff hb).mpr hleast.1
        refine ⟨_, rfl, fun heq => (by cases heq), fun u a' heq => ?_⟩
        obtain ⟨rfl, rfl⟩ := Prod.mk.inj (Option.some.inj heq)
        refine ⟨⟨block_subset_pages hholds, h.step_take hb hholds hstep⟩,
          0, e, by rw [Nat.pow_zero, Nat.mul_one], ?_, fun k' hk' => absurd hk' (Nat.not_lt_zero _)⟩
        simpa only [Nat.add_zero, holds_iff hb] using hleast

/-- **Allocation.** It takes a block of free pages; it fails only where the order is too high or
no block of the order is free. -/
theorem Valid.allocInner_spec (h : Valid cap n a) (o : ℕ) :
    ∃ r, a.allocInner o = some r ∧
      (r = none ↔ a.maxOrder < o ∨ ∀ i, ¬ block o i ⊆ a.freePages) ∧
      ∀ u a', r = some (u, a') → Allocated cap n a o u a' ∧ a.Picks o u := by
  obtain ⟨r, hr, hnone, hsome⟩ := h.allocInnerLoop_spec (o := o) rfl
  refine ⟨r, hr, ⟨fun heq => ?_, fun hno => ?_⟩, hsome⟩
  · by_contra hcontra
    rw [not_or, not_forall] at hcontra
    obtain ⟨ho, i, hi⟩ := hcontra
    obtain ⟨k, hk⟩ := h.inv.exists_of_subset (Nat.not_lt.mp ho) (not_not.mp hi)
    exact hnone heq k _ hk
  · by_contra hne
    obtain ⟨⟨u, a'⟩, heq⟩ := Option.ne_none_iff_exists'.mp hne
    obtain ⟨hallocated, k, j, -, hleast, -⟩ := hsome u a' heq
    have horder := h.inv.order_le hleast.1
    rcases hno with hmax | hno
    · omega
    · exact hno u hallocated.free

/-! ### Releases -/

theorem Valid.taken_eq (h : Valid cap n a) {b : BtreeBitmap} (hb : a.free[o]? = some b) (i : ℕ) :
    ∃ value, taken b i = some value ∧ (value = false ↔ a.Holds o i) := by
  obtain ⟨hwell, hlen, -⟩ := h.levels hb
  rw [taken]
  split_ifs with hin
  · exact ⟨_, hwell.get hin, (holds_iff hb).symm⟩
  · refine ⟨true, rfl, iff_of_false (by decide) fun hholds => ?_⟩
    have hbound := lt_len_iff.mpr (h.inv.bounded hholds)
    omega

theorem Valid.freeInnerLoop_spec (h : Valid cap n a) {rounds : ℕ}
    (hrounds : rounds = a.maxOrder - o) (ho : o ≤ a.maxOrder) (hi : (i + 1) * 2 ^ o ≤ n)
    (hnew : Disjoint (block o i) a.freePages) :
    ∃ a', freeInnerLoop rounds i o a = some a' ∧
      Result cap n a a' (a.freePages ∪ block o i) := by
  induction rounds generalizing a o i with
  | zero => exact h.put ho hi hnew fun hlt => absurd hlt (by omega)
  | succ rounds ih =>
      obtain ⟨b, hb⟩ := h.exists_free ho
      obtain ⟨hwell, hlen, -⟩ := h.levels hb
      obtain ⟨value, htaken, hholds⟩ := h.taken_eq hb (i ^^^ 1)
      rw [freeInnerLoop, hb]
      simp only [Option.bind_eq_bind, Option.bind_some, buddyPage, htaken]
      cases value with
      | true => exact h.put ho hi hnew fun _ hbuddy => by cases hholds.mpr hbuddy
      | false =>
          have hbuddy := hholds.mp rfl
          obtain ⟨a₁, ha₁, hresult⟩ := h.take hbuddy
          have hmax := hresult.maxOrder
          have hbound := h.inv.bounded hbuddy
          have hapart := disjoint_buddy o i
          have hsub : block o (i ^^^ 1) ⊆ a.freePages := block_subset_pages hbuddy
          obtain ⟨a₂, ha₂, hresult₂⟩ := ih hresult.valid (o := o + 1) (i := i / 2) (by omega)
            (by omega)
            (by
              have hparent : (i / 2 + 1) * 2 ^ (o + 1) = (2 * (i / 2) + 1 + 1) * 2 ^ o := by ring
              rw [hparent]
              rcases xor_one_cases i with ⟨h₁, h₂⟩ | ⟨h₁, h₂⟩
              · rwa [h₂] at hbound
              · rwa [h₁] at hi)
            (by
              rw [hresult.pages, block_half, Set.disjoint_union_left]
              exact ⟨hnew.mono_right Set.sdiff_subset, Set.disjoint_sdiff_right⟩)
          refine ⟨a₂, ?_, (hresult.trans hresult₂).congr ?_⟩
          · simp only [Bool.false_eq_true, if_false, ha₁, Option.bind_some, nextHigherOrder, ha₂]
          · rw [hresult.pages, block_half]
            ext p
            have hmem : p ∈ block o (i ^^^ 1) → p ∈ a.freePages := fun hp => hsub hp
            simp only [Set.mem_union, Set.mem_sdiff]
            tauto

/-- **Release.** The pages of a block that were not free are free. -/
theorem Valid.freeInner_spec (h : Valid cap n a) (ho : o ≤ a.maxOrder) (hi : (i + 1) * 2 ^ o ≤ n)
    (hnew : Disjoint (block o i) a.freePages) :
    ∃ a', freeInner i o a = some a' ∧ Result cap n a a' (a.freePages ∪ block o i) :=
  h.freeInnerLoop_spec rfl ho hi hnew

/-! ### Recorded allocations -/

theorem Valid.recordAllocInnerLoop_spec (h : Valid cap n a) {rounds : ℕ}
    (hrounds : rounds = a.maxOrder + 1 - o) (ho : o ≤ a.maxOrder)
    (hsub : block o i ⊆ a.freePages) :
    ∃ a', recordAllocInnerLoop rounds i o a = some a' ∧
      Result cap n a a' (a.freePages \ block o i) := by
  induction rounds generalizing o i with
  | zero => omega
  | succ rounds ih =>
      have hbound := h.inv.le_of_subset hsub
      obtain ⟨b, taken, hb, hget, hholds⟩ := h.get_eq ho hbound
      rw [recordAllocInnerLoop, hb]
      simp only [Option.bind_eq_bind, Option.bind_some, hget]
      cases taken with
      | false => exact h.take (hholds.mp rfl)
      | true =>
          have hnot : ¬ a.Holds o i := fun hheld => by cases hholds.mpr hheld
          obtain ⟨k, hk⟩ := h.inv.exists_of_subset ho hsub
          obtain ⟨k, rfl⟩ : ∃ k', k = k' + 1 := Nat.exists_eq_succ_of_ne_zero fun hzero => by
            rw [hzero, Nat.pow_zero, Nat.div_one] at hk
            exact hnot hk
          have horder := h.inv.order_le hk
          have hupper : block (o + 1) (i / 2) ⊆ a.freePages := by
            refine (block_subset (by omega) (block_subset_half o i (first_mem o i)) ?_).trans
              (block_subset_pages hk)
            have hsubset := block_subset_div i (show o ≤ o + (k + 1) by omega)
            rw [Nat.add_sub_cancel_left] at hsubset
            exact hsubset (first_mem o i)
          obtain ⟨a₁, ha₁, hresult⟩ := ih (o := o + 1) (i := i / 2) (by omega) (by omega) hupper
          have hmax := hresult.maxOrder
          rw [block_half, Set.union_subset_iff] at hupper
          have hpages := hresult.pages
          rw [block_half] at hpages
          have hapart := disjoint_buddy o i
          obtain ⟨a₂, ha₂, hresult₂⟩ := hresult.valid.put (o := o) (i := i ^^^ 1) (by omega)
            (h.inv.le_of_subset hupper.2)
            (by
              rw [hpages]
              exact Set.disjoint_sdiff_right.mono_left Set.subset_union_right)
            (by
              intro _
              rw [xor_one_xor_one]
              refine not_holds_of_disjoint ?_
              rw [hpages]
              exact Set.disjoint_sdiff_right.mono_left Set.subset_union_left)
          refine ⟨a₂, ?_, (hresult.trans hresult₂).congr ?_⟩
          · have hupper' : nextHigherOrder i = i / 2 := rfl
            simp only [if_true, hupper', ha₁, Option.bind_some]
            rcases xor_one_cases i with ⟨h₁, h₂⟩ | ⟨h₁, h₂⟩
            · have hfirst : nextHigherOrder i * 2 = i := by omega
              exact (if_pos hfirst).trans (by rw [show i / 2 * 2 + 1 = i ^^^ 1 by omega, ha₂])
            · have hsecond : nextHigherOrder i * 2 ≠ i := by omega
              exact (if_neg hsecond).trans (by rw [show i / 2 * 2 = i ^^^ 1 by omega, ha₂])
          · rw [hpages]
            ext p
            have hmem : p ∈ block o (i ^^^ 1) → p ∈ a.freePages := fun hp => hupper.2 hp
            have hnot' : p ∈ block o (i ^^^ 1) → p ∉ block o i := fun hp hp' =>
              Set.disjoint_left.mp hapart hp' hp
            simp only [Set.mem_union, Set.mem_sdiff]
            tauto

/-- A block of which some page is not free cannot be recorded: the splitting runs out of orders. -/
theorem Valid.recordAllocInnerLoop_none (h : Valid cap n a) {rounds : ℕ}
    (hrounds : rounds = a.maxOrder + 1 - o) (hnot : ¬ block o i ⊆ a.freePages) :
    recordAllocInnerLoop rounds i o a = none := by
  induction rounds generalizing o i with
  | zero => rfl
  | succ rounds ih =>
      obtain ⟨b, hb⟩ := h.exists_free (o := o) (by omega)
      obtain ⟨hwell, hlen, -⟩ := h.levels hb
      rw [recordAllocInnerLoop, hb]
      simp only [Option.bind_eq_bind, Option.bind_some]
      by_cases hi : i < b.len
      · have htaken : b.bit i = true := by
          by_contra hclear
          exact hnot (block_subset_pages ((holds_iff hb).mpr (by simpa using hclear)))
        rw [hwell.get hi, htaken]
        simp only [Option.bind_some, if_true, nextHigherOrder,
          ih (o := o + 1) (i := i / 2) (by omega) fun hsub =>
            hnot ((block_subset_half o i).trans hsub)]
        rfl
      · rw [BtreeBitmap.get, U64GroupedBitmap.get, if_neg (show ¬ i < b.leaf.len from hi)]
        rfl

/-- **Recording.** A block is recorded exactly if its pages are free. -/
theorem Valid.recordAlloc_spec (h : Valid cap n a) (i o : ℕ) :
    (o ≤ a.maxOrder ∧ block o i ⊆ a.freePages → ∃ a', a.recordAlloc i o = some a' ∧
      Result cap n a a' (a.freePages \ block o i)) ∧
    (¬ (o ≤ a.maxOrder ∧ block o i ⊆ a.freePages) → a.recordAlloc i o = none) := by
  constructor
  · rintro ⟨ho, hsub⟩
    rw [recordAlloc, if_pos ho]
    exact h.recordAllocInnerLoop_spec rfl ho hsub
  · intro hnot
    rw [recordAlloc]
    split_ifs with ho
    · exact h.recordAllocInnerLoop_none rfl fun hsub => hnot ⟨ho, hsub⟩
    · rfl

/-- **Release by the user.** -/
theorem Valid.freePage_spec (h : Valid cap n a) (ho : o ≤ a.maxOrder) (hi : (i + 1) * 2 ^ o ≤ n)
    (hnew : Disjoint (block o i) a.freePages) :
    ∃ a', a.freePage i o = some a' ∧ Result cap n a a' (a.freePages ∪ block o i) := by
  obtain ⟨b, value, hb, hget, hholds⟩ := h.get_eq ho hi
  obtain rfl : value = true := by simpa using mt hholds.mp (not_holds_of_disjoint hnew)
  obtain ⟨a', ha', hresult⟩ := h.freeInner_spec ho hi hnew
  refine ⟨a', ?_, hresult⟩
  rw [freePage, hb]
  simp only [Option.bind_eq_bind, Option.bind_some, hget, if_true, ha']

/-! ### The lowest allocation -/

/-- The search of `alloc_lowest` has gone through the orders below `i`: the best page is taken, it
begins a free block, and no free block of these orders begins before it. -/
structure Lowest (cap n : ℕ) (a : BuddyAllocator) (order i bestIndexAtOrder : ℕ) (best : ℕ × ℕ)
    (s : BuddyAllocator) : Prop where
  le_order : order ≤ best.2
  index : bestIndexAtOrder = best.1 * 2 ^ (best.2 - order)
  allocated : Allocated cap n a best.2 best.1 s
  origin : ∃ k j, a.Holds (best.2 + k) j ∧ best.1 = j * 2 ^ k
  least : ∀ k j, order ≤ k → k < i → a.Holds k j → best.1 * 2 ^ best.2 ≤ j * 2 ^ k

section Lowest

variable {order bestIndexAtOrder u : ℕ} {best : ℕ × ℕ} {s s' : BuddyAllocator}

theorem Lowest.first (hallocated : Allocated cap n a order u s)
    (hpicks : a.Picks order u) : Lowest cap n a order (order + 1) u (u, order) s := by
  obtain ⟨k, j, hu, hleast, hbelow⟩ := hpicks
  refine ⟨le_rfl, by rw [Nat.sub_self, Nat.pow_zero, Nat.mul_one], hallocated,
    ⟨k, j, hleast.1, hu⟩, fun k' j' hle hlt hholds => ?_⟩
  obtain rfl : k' = order := by omega
  rcases k with _ | k
  · rw [Nat.pow_zero, Nat.mul_one] at hu
    rw [hu]
    exact Nat.mul_le_mul_right _ (hleast.2 (by rwa [Nat.add_zero] at *))
  · exact absurd hholds (hbelow 0 (Nat.succ_pos k) j')

/-- A free block that meets the best page begins with it. -/
theorem Lowest.start_eq (h : Valid cap n a) (hl : Lowest cap n a order i bestIndexAtOrder best s)
    {k j p : ℕ} (hholds : a.Holds k j) (hp : p ∈ block k j) (hbest : p ∈ block best.2 best.1) :
    best.1 * 2 ^ best.2 = j * 2 ^ k := by
  obtain ⟨k', j', horigin, heq⟩ := hl.origin
  have hmem : best.1 * 2 ^ best.2 ∈ block (best.2 + k') j' := by
    rw [heq, Nat.mul_assoc, ← Nat.pow_add, Nat.add_comm k']
    exact first_mem _ _
  have hsub := block_subset (by omega) (first_mem best.2 best.1) hmem
  obtain ⟨rfl, rfl⟩ := h.inv.eq_of_mem hholds horigin hp (hsub hbest)
  rw [heq, Nat.mul_assoc, ← Nat.pow_add, Nat.add_comm k']

/-- A free block begins with the best page, or it is free beside it. -/
theorem Lowest.holds_cases (h : Valid cap n a)
    (hl : Lowest cap n a order i bestIndexAtOrder best s) {k j : ℕ} (hholds : a.Holds k j) :
    best.1 * 2 ^ best.2 = j * 2 ^ k ∨ s.Holds k j := by
  by_cases hmeets : ∃ p, p ∈ block k j ∧ p ∈ block best.2 best.1
  · obtain ⟨p, hp, hbest⟩ := hmeets
    exact .inl (hl.start_eq h hholds hp hbest)
  · have hresult := hl.allocated.result
    have hmaximal := h.inv.iff_maximal.mp hholds
    refine .inr (hresult.valid.inv.iff_maximal.mpr ⟨?_, ?_, fun hlt hsub => ?_⟩)
    · rw [hresult.maxOrder]
      exact hmaximal.1
    · refine fun p hp => ?_
      rw [show pages s.Holds = s.freePages from rfl, hresult.pages]
      exact ⟨hmaximal.2.1 hp, fun hbest => hmeets ⟨p, hp, hbest⟩⟩
    · rw [hresult.maxOrder] at hlt
      rw [show pages s.Holds = s.freePages from rfl, hresult.pages] at hsub
      exact hmaximal.2.2 hlt (hsub.trans Set.sdiff_subset)

/-- What is picked beside the best page: no free block of its order begins before both. -/
theorem Lowest.start_le (h : Valid cap n a) (hl : Lowest cap n a order i bestIndexAtOrder best s)
    (hpicks : s.Picks i u) {j : ℕ} (hholds : a.Holds i j) :
    best.1 * 2 ^ best.2 = j * 2 ^ i ∨ u * 2 ^ i ≤ j * 2 ^ i := by
  refine (hl.holds_cases h hholds).imp_right fun hheld => ?_
  obtain ⟨k, j₀, hu, hleast, hbelow⟩ := hpicks
  rcases k with _ | k
  · rw [Nat.pow_zero, Nat.mul_one] at hu
    rw [hu]
    exact Nat.mul_le_mul_right _ (hleast.2 hheld)
  · exact absurd hheld (hbelow 0 (Nat.succ_pos k) j)

/-- What is picked beside the best page and before it begins a free block. -/
theorem Lowest.origin_of_lt (h : Valid cap n a)
    (hl : Lowest cap n a order i bestIndexAtOrder best s) (hpicks : s.Picks i u)
    (hlt : u * 2 ^ i < best.1 * 2 ^ best.2) : ∃ k j, a.Holds (i + k) j ∧ u = j * 2 ^ k := by
  obtain ⟨k, j, hu, hleast, -⟩ := hpicks
  have hresult := hl.allocated.result
  have hheld : s.Holds (i + k) j := hleast.1
  have hmaximal := hresult.valid.inv.iff_maximal.mp hheld
  rw [show pages s.Holds = s.freePages from rfl, hresult.pages, hresult.maxOrder] at hmaximal
  obtain ⟨k', hk'⟩ := h.inv.exists_of_subset hmaximal.1 (hmaximal.2.1.trans Set.sdiff_subset)
  rcases k' with _ | k'
  · rw [Nat.pow_zero, Nat.div_one, Nat.add_zero] at hk'
    exact ⟨k, j, hk', hu⟩
  -- The free block is larger than what is left of it: it meets the best page, and begins with it.
  exfalso
  have horder := h.inv.order_le hk'
  have hparent : block (i + k + 1) (j / 2) ⊆ block (i + k + (k' + 1)) (j / 2 ^ (k' + 1)) := by
    have hsub := block_subset_div (j / 2) (show i + k + 1 ≤ i + k + (k' + 1) by omega)
    rwa [show i + k + (k' + 1) - (i + k + 1) = k' by omega, Nat.div_div_eq_div_mul,
      ← Nat.pow_succ'] at hsub
  obtain ⟨p, hp, hbest⟩ : ∃ p, p ∈ block (i + k + 1) (j / 2) ∧ p ∈ block best.2 best.1 := by
    by_contra hnone
    refine hmaximal.2.2 (by omega) fun p hp => ⟨?_, fun hbest => hnone ⟨p, hp, hbest⟩⟩
    exact block_subset_pages hk' (hparent hp)
  have hstart := hl.start_eq h hk' (hparent hp) hbest
  have hle : j / 2 ^ (k' + 1) * 2 ^ (i + k + (k' + 1)) ≤ u * 2 ^ i := by
    calc j / 2 ^ (k' + 1) * 2 ^ (i + k + (k' + 1))
        = j / 2 ^ (k' + 1) * 2 ^ (k' + 1) * 2 ^ (i + k) := by
          rw [Nat.pow_add 2 (i + k), Nat.mul_assoc, Nat.mul_comm (2 ^ (i + k))]
      _ ≤ j * 2 ^ (i + k) := Nat.mul_le_mul_right _ (Nat.div_mul_le_self _ _)
      _ = u * 2 ^ i := by rw [hu, Nat.mul_assoc, ← Nat.pow_add, Nat.add_comm k]
  omega

theorem Lowest.lt_iff (hl : Lowest cap n a order i bestIndexAtOrder best s) (hi : order ≤ i) :
    u * 2 ^ (i - order) < bestIndexAtOrder ↔ u * 2 ^ i < best.1 * 2 ^ best.2 := by
  have hpow : ∀ k, order ≤ k → 2 ^ k = 2 ^ (k - order) * 2 ^ order := fun k hk => by
    rw [← Nat.pow_add, Nat.sub_add_cancel hk]
  rw [hl.index, hpow i hi, hpow best.2 hl.le_order, ← Nat.mul_assoc, ← Nat.mul_assoc]
  exact (Nat.mul_lt_mul_right (Nat.two_pow_pos order)).symm

theorem Lowest.loop_spec (h : Valid cap n a) {rounds multiplier : ℕ} (hi : order < i)
    (hrounds : rounds = a.maxOrder + 1 - i) (hmultiplier : multiplier = 2 ^ (i - order))
    (hl : Lowest cap n a order i bestIndexAtOrder best s) :
    ∃ index best' s', lowestLoop rounds i multiplier bestIndexAtOrder best s =
        some (index, best', s') ∧
      Lowest cap n a order (i + rounds) index best' s' := by
  induction rounds generalizing i multiplier bestIndexAtOrder best s with
  | zero => exact ⟨_, _, _, rfl, hl⟩
  | succ rounds ih =>
      have hresult := hl.allocated.result
      have hmax := hresult.maxOrder
      have hfree := hl.allocated.free
      have hbound := h.inv.le_of_subset hfree
      have horder : best.2 ≤ a.maxOrder := by
        obtain ⟨k, j, horigin, -⟩ := hl.origin
        have hle := h.inv.order_le horigin
        omega
      have hmul : multiplier * 2 = 2 ^ (i + 1 - order) := by
        rw [hmultiplier, ← Nat.pow_succ, Nat.succ_sub (Nat.le_of_lt hi)]
      obtain ⟨r, hr, hnone, hsome⟩ := hresult.valid.allocInner_spec i
      rw [lowestLoop]
      simp only [Option.bind_eq_bind, hr, Option.bind_some]
      rcases r with _ | ⟨u, s₁⟩
      · have hl' : Lowest cap n a order (i + 1) bestIndexAtOrder best s := by
          refine ⟨hl.le_order, hl.index, hl.allocated, hl.origin, fun k j hle hlt hholds => ?_⟩
          rcases Nat.lt_or_ge k i with hlt' | hge
          · exact hl.least k j hle hlt' hholds
          obtain rfl : k = i := by omega
          rcases hl.holds_cases h hholds with heq | hheld
          · exact heq.le
          · rcases hnone.mp rfl with hhigh | hnone
            · omega
            · exact absurd (block_subset_pages hheld) (hnone j)
        obtain ⟨index, best', s', hloop, hl''⟩ := ih (by omega) (by omega) hmul hl'
        exact ⟨index, best', s', hloop, by rwa [show i + (rounds + 1) = i + 1 + rounds by omega]⟩
      · obtain ⟨⟨hfree₁, hresult₁⟩, hpicks⟩ := hsome u s₁ rfl
        have hmax₁ := hresult₁.maxOrder
        have hpages₁ := hresult₁.pages
        have hbound₁ := hresult.valid.inv.le_of_subset hfree₁
        rw [hresult.pages] at hpages₁ hfree₁
        have hlt := hl.lt_iff (u := u) (Nat.le_of_lt hi)
        rw [← hmultiplier] at hlt
        dsimp only
        split_ifs with hbetter
        · have hstart := hlt.mp hbetter
          obtain ⟨s₂, hs₂, hresult₂⟩ := hresult₁.valid.freeInner_spec (o := best.2) (i := best.1)
            (by omega) hbound (by
              rw [hpages₁]
              exact Set.disjoint_left.mpr fun p hp hp' => hp'.1.2 hp)
          have hpages₂ : (a.freePages \ block best.2 best.1) \ block i u ∪ block best.2 best.1 =
              a.freePages \ block i u := by
            ext p
            have hmem : p ∈ block best.2 best.1 → p ∈ a.freePages := fun hp => hfree hp
            have hnot : p ∈ block i u → p ∉ block best.2 best.1 := fun hp => (hfree₁ hp).2
            simp only [Set.mem_union, Set.mem_sdiff]
            tauto
          have hresult₂' : Result cap n a s₂ (a.freePages \ block i u) :=
            ((hresult.trans hresult₁).trans hresult₂).congr (by rw [hpages₁, hpages₂])
          have hl' : Lowest cap n a order (i + 1) (u * multiplier) (u, i) s₂ := by
            refine ⟨Nat.le_of_lt hi, by rw [hmultiplier],
              ⟨hfree₁.trans Set.sdiff_subset, hresult₂'⟩, hl.origin_of_lt h hpicks hstart,
              fun k j hle hlt' hholds => ?_⟩
            rcases Nat.lt_or_ge k i with hlt'' | hge
            · have hleast := hl.least k j hle hlt'' hholds
              dsimp only
              omega
            obtain rfl : k = i := by omega
            rcases hl.start_le h hpicks hholds with heq | hle'
            · dsimp only
              omega
            · exact hle'
          obtain ⟨index, best', s', hloop, hl''⟩ := ih (by omega) (by omega) hmul hl'
          refine ⟨index, best', s', ?_, by rwa [show i + (rounds + 1) = i + 1 + rounds by omega]⟩
          simp only [hs₂, Option.bind_some, hloop]
        · have hstart := mt hlt.mpr hbetter
          obtain ⟨s₂, hs₂, hresult₂⟩ := hresult₁.valid.freeInner_spec (o := i) (i := u)
            (by omega) hbound₁ (by
              rw [hpages₁]
              exact Set.disjoint_sdiff_right)
          have hresult₂' : Result cap n a s₂ (a.freePages \ block best.2 best.1) :=
            ((hresult.trans hresult₁).trans hresult₂).congr (by
              rw [hpages₁, Set.sdiff_union_of_subset hfree₁])
          have hl' : Lowest cap n a order (i + 1) bestIndexAtOrder best s₂ := by
            refine ⟨hl.le_order, hl.index, ⟨hfree, hresult₂'⟩, hl.origin,
              fun k j hle hlt' hholds => ?_⟩
            rcases Nat.lt_or_ge k i with hlt'' | hge
            · exact hl.least k j hle hlt'' hholds
            obtain rfl : k = i := by omega
            rcases hl.start_le h hpicks hholds with heq | hle'
            · exact heq.le
            · omega
          obtain ⟨index, best', s', hloop, hl''⟩ := ih (by omega) (by omega) hmul hl'
          refine ⟨index, best', s', ?_, by rwa [show i + (rounds + 1) = i + 1 + rounds by omega]⟩
          simp only [hs₂, Option.bind_some, hloop]

end Lowest

theorem Valid.splitDown_spec (h : Valid cap n a) (levels : ℕ) {u : ℕ} (ho : o + levels ≤ a.maxOrder)
    (hu : (u + 1) * 2 ^ (o + levels) ≤ n) (hnew : Disjoint (block (o + levels) u) a.freePages) :
    ∃ a', splitDown levels o u a = some (u * 2 ^ levels, a') ∧
      Result cap n a a'
        (a.freePages ∪ block (o + levels) u \ block o (u * 2 ^ levels)) := by
  induction levels generalizing a u with
  | zero =>
      refine ⟨a, by rw [splitDown, Nat.pow_zero, Nat.mul_one], h, rfl, rfl, ?_⟩
      rw [Nat.pow_zero, Nat.mul_one, Nat.add_zero, Set.sdiff_self, Set.union_empty]
  | succ levels ih =>
      obtain ⟨a₁, ha₁, hresult⟩ := h.split_spec (o := o + levels) (by omega) hu hnew
      have hmax := hresult.maxOrder
      have hblock := block_succ (o + levels) u
      rw [Nat.mul_comm 2 u, Nat.add_assoc] at hblock
      have hapart := disjoint_block (o := o + levels) (i := u * 2) (j := u * 2 + 1) (by omega)
      have hinner : block o (u * 2 * 2 ^ levels) ⊆ block (o + levels) (u * 2) := by
        have hsub := block_subset_div (u * 2 * 2 ^ levels) (show o ≤ o + levels by omega)
        rwa [Nat.add_sub_cancel_left, Nat.mul_div_cancel _ (Nat.two_pow_pos levels)] at hsub
      rw [hblock, Set.disjoint_union_left] at hnew
      obtain ⟨a₂, ha₂, hresult₂⟩ := ih hresult.valid (u := u * 2) (by omega)
        (by
          refine le_trans ?_ hu
          rw [← Nat.add_assoc, Nat.pow_succ,
            show (u + 1) * (2 ^ (o + levels) * 2) = (u * 2 + 1 + 1) * 2 ^ (o + levels) by ring]
          exact Nat.mul_le_mul_right _ (by omega))
        (by
          rw [hresult.pages, Set.disjoint_union_right]
          exact ⟨hnew.1, hapart⟩)
      refine ⟨a₂, ?_, (hresult.trans hresult₂).congr ?_⟩
      · rw [splitDown, ha₁]
        simp only [Option.bind_eq_bind, Option.bind_some, ha₂, Nat.pow_succ', Nat.mul_assoc]
      · rw [hresult.pages, hblock, Nat.pow_succ', ← Nat.mul_assoc]
        ext p
        have hmem : p ∈ block o (u * 2 * 2 ^ levels) → p ∈ block (o + levels) (u * 2) :=
          fun hp => hinner hp
        have hnot : p ∈ block (o + levels) (u * 2) → p ∉ block (o + levels) (u * 2 + 1) :=
          fun hp hp' => Set.disjoint_left.mp hapart hp hp'
        simp only [Set.mem_union, Set.mem_sdiff]
        tauto

/-- **The lowest allocation.** It takes the lowest block of free pages, whatever the order that it
comes from; it fails only where the order is too high or no block of the order is free. -/
theorem Valid.allocLowest_spec (h : Valid cap n a) (o : ℕ) :
    ∃ r, a.allocLowest o = some r ∧
      (r = none ↔ a.maxOrder < o ∨ ∀ i, ¬ block o i ⊆ a.freePages) ∧
      ∀ u a', r = some (u, a') →
        Allocated cap n a o u a' ∧ IsLeast {i | block o i ⊆ a.freePages} u := by
  obtain ⟨r, hr, hnone, hsome⟩ := h.allocInner_spec o
  rw [allocLowest, hr]
  rcases r with _ | ⟨page, a₁⟩
  · exact ⟨none, rfl, hnone, fun u a' heq => by cases heq⟩
  obtain ⟨hallocated, hpicks⟩ := hsome page a₁ rfl
  have ho : ¬ a.maxOrder < o := fun hhigh => by cases hnone.mpr (.inl hhigh)
  obtain ⟨index, best, a₂, hloop, hl⟩ := (Lowest.first hallocated hpicks).loop_spec h
    (by omega) (show a.maxOrder - o = a.maxOrder + 1 - (o + 1) by omega)
    (show 2 = 2 ^ (o + 1 - o) by rw [Nat.add_sub_cancel_left, Nat.pow_one])
  have hle := hl.le_order
  have hresult := hl.allocated.result
  have hmax := hresult.maxOrder
  have hfree := hl.allocated.free
  have horder : best.2 ≤ a.maxOrder := by
    obtain ⟨k, j, horigin, -⟩ := hl.origin
    have hle' := h.inv.order_le horigin
    omega
  have hlevels : o + (best.2 - o) = best.2 := by omega
  obtain ⟨a₃, ha₃, hresult₃⟩ := hresult.valid.splitDown_spec (best.2 - o) (o := o)
    (u := best.1) (by omega) (by rw [hlevels]; exact h.inv.le_of_subset hfree) (by
      rw [hlevels, hresult.pages]
      exact Set.disjoint_sdiff_right)
  have hinner : block o (best.1 * 2 ^ (best.2 - o)) ⊆ block best.2 best.1 := by
    have hsub := block_subset_div (best.1 * 2 ^ (best.2 - o)) hle
    rwa [Nat.mul_div_cancel _ (Nat.two_pow_pos _)] at hsub
  refine ⟨some (index, a₃), ?_, iff_of_false (fun heq => by cases heq) (fun hno => ?_),
    fun u a' heq => ?_⟩
  · simp only [Option.bind_eq_bind, Option.bind_some, hallocated.result.maxOrder, hloop, ha₃,
      ← hl.index, if_true]
  · cases hnone.mpr hno
  · obtain ⟨rfl, rfl⟩ := Prod.mk.inj (Option.some.inj heq)
    rw [hlevels, hresult.pages, ← hl.index] at hresult₃
    rw [← hl.index] at hinner
    refine ⟨⟨hinner.trans hfree, (hresult.trans hresult₃).congr ?_⟩, hinner.trans hfree,
      fun i hi => ?_⟩
    · ext p
      have hmem : p ∈ block best.2 best.1 → p ∈ a.freePages := fun hp => hfree hp
      have hmem' : p ∈ block o index → p ∈ block best.2 best.1 := fun hp => hinner hp
      simp only [Set.mem_union, Set.mem_sdiff]
      tauto
    · obtain ⟨k, hk⟩ := h.inv.exists_of_subset (Nat.not_lt.mp ho) hi
      have horder' := h.inv.order_le hk
      have hleast := hl.least (o + k) _ (by omega) (by omega) hk
      have hstart : best.1 * 2 ^ best.2 = index * 2 ^ o := by
        rw [hl.index, Nat.mul_assoc, ← Nat.pow_add, Nat.sub_add_cancel hle]
      have hfloor : i / 2 ^ k * 2 ^ (o + k) ≤ i * 2 ^ o := by
        rw [Nat.pow_add, Nat.mul_comm (2 ^ o), ← Nat.mul_assoc]
        exact Nat.mul_le_mul_right _ (Nat.div_mul_le_self _ _)
      rw [hstart] at hleast
      exact Nat.le_of_mul_le_mul_right (hleast.trans hfloor) (Nat.two_pow_pos o)

end BuddyAllocator

end Torpor.Redb
