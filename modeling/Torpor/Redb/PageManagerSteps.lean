import Torpor.Redb.PageManager

/-!
# The Steps of the Page Manager

What each operation of the page manager does to the pages. The allocators have exactly the recorded
pages taken; the search for a page ends, and after the database has grown it finds one.

## Main results

* `Placed.allocateHelperRetry_spec`: the search ends, and returns a page that was free.
* `Placed.grow_spec`: a region with a free page of the order is marked after the database has grown.
* `Placed.tryShrink_spec`: a database that shrinks keeps all recorded pages.
-/

namespace Torpor.Redb

open Buddy

namespace PageManager

/-! ### The pages of a region -/

/-- The pages that are taken of a region, each with its order. -/
def onRegion (pages : Finset PageNumber) (r : ℕ) : Finset (ℕ × ℕ) :=
  (pages.filter fun p => p.region = r).image fun p => (p.pageIndex, p.pageOrder)

theorem mem_onRegion {pages : Finset PageNumber} {r i o : ℕ} :
    (i, o) ∈ onRegion pages r ↔ (⟨r, i, o⟩ : PageNumber) ∈ pages := by
  rw [onRegion, Finset.mem_image]
  constructor
  · rintro ⟨⟨r', i', o'⟩, hmem, heq⟩
    obtain ⟨hp, rfl⟩ := Finset.mem_filter.mp hmem
    obtain ⟨rfl, rfl⟩ := Prod.mk.inj heq
    exact hp
  · exact fun hp => ⟨⟨r, i, o⟩, Finset.mem_filter.mpr ⟨hp, rfl⟩, rfl⟩

theorem onRegion_empty : onRegion ∅ = fun _ => ∅ := by
  funext r
  rw [onRegion, Finset.filter_empty, Finset.image_empty]

theorem onRegion_insert (pages : Finset PageNumber) (p : PageNumber) :
    onRegion (insert p pages) = Function.update (onRegion pages) p.region
      (insert (p.pageIndex, p.pageOrder) (onRegion pages p.region)) := by
  obtain ⟨r, i, o⟩ := p
  funext r'
  ext ⟨i', o'⟩
  rw [mem_onRegion, Finset.mem_insert]
  by_cases hr : r' = r
  · subst hr
    rw [Function.update_self, Finset.mem_insert, mem_onRegion]
    simp only [PageNumber.mk.injEq, true_and, Prod.mk.injEq]
  · rw [Function.update_of_ne hr, mem_onRegion]
    simp only [PageNumber.mk.injEq, hr, false_and, false_or]

theorem onRegion_erase (pages : Finset PageNumber) (p : PageNumber) :
    onRegion (pages.erase p) = Function.update (onRegion pages) p.region
      ((onRegion pages p.region).erase (p.pageIndex, p.pageOrder)) := by
  obtain ⟨r, i, o⟩ := p
  funext r'
  ext ⟨i', o'⟩
  rw [mem_onRegion, Finset.mem_erase]
  by_cases hr : r' = r
  · subst hr
    rw [Function.update_self, Finset.mem_erase, mem_onRegion]
    simp only [ne_eq, PageNumber.mk.injEq, true_and, Prod.mk.injEq]
  · rw [Function.update_of_ne hr, mem_onRegion]
    simp only [ne_eq, PageNumber.mk.injEq, hr, false_and, not_false_iff, true_and]

/-! ### Allocation and release in the allocators -/

section Allocators

variable {K : ℕ} {pages : List ℕ} {taken : ℕ → Finset (ℕ × ℕ)} {a : Allocators} {o : ℕ}
  {lowest : Bool}

theorem allocateIn_spec {region : BuddyAllocator} {s : Finset (ℕ × ℕ)}
    (h : Client.Owned (2 ^ K) K ⟨region, s⟩) (o : ℕ) (lowest : Bool) :
    ∃ res, allocateIn region o lowest = some res ∧
      (res = none ↔ K < o ∨ ∀ i, ¬ Client.Available ⟨region, s⟩ o i) ∧
      ∀ u region', res = some (u, region') → Client.Available ⟨region, s⟩ o u ∧
        region'.len = region.len ∧ Client.Owned (2 ^ K) K ⟨region', insert (u, o) s⟩ := by
  cases lowest with
  | true =>
      obtain ⟨res, hres, hnone, hsome⟩ := h.allocLowest_least o
      refine ⟨res, hres, hnone, fun u region' heq => ?_⟩
      obtain ⟨hleast, hlen, howned⟩ := hsome u region' heq
      exact ⟨hleast.1, hlen, howned⟩
  | false => exact h.alloc_none_iff o

/-- A region that has no page of the order. -/
def Exhausted (K o : ℕ) (taken : ℕ → Finset (ℕ × ℕ)) (a : Allocators) (r : ℕ) : Prop :=
  ∀ allocator, a.regionAllocators[r]? = some allocator →
    K < o ∨ ∀ i, ¬ Client.Available ⟨allocator, taken r⟩ o i

/-- **The search.** It ends. It returns a page that was free; without one, no region that was marked
had such a page. -/
theorem allocateRetry_spec (hK : K ≤ maxMaxPageOrder) (h : Allocators.Sound K pages taken a)
    (hpages : pages.length ≤ maxRegions) (hle : ∀ p ∈ pages, p ≤ 2 ^ K) (ho : o ≤ maxMaxPageOrder)
    {rounds : ℕ} (hrounds : {r | a.regionTracker.MayBeFree o r}.ncard < rounds) :
    ∃ res a', allocateRetry o lowest rounds a = some (res, a') ∧
      (res = none → Allocators.Sound K pages taken a' ∧
        ∀ r, a.regionTracker.MayBeFree o r → Exhausted K o taken a r) ∧
      ∀ p, res = some p → p.pageOrder = o ∧ o ≤ K ∧ p.region < pages.length ∧
        (p.pageIndex, o) ∉ taken p.region ∧
        Allocators.Sound K pages (Function.update taken p.region
          (insert (p.pageIndex, o) (taken p.region))) a' := by
  induction rounds generalizing a with
  | zero => omega
  | succ rounds ih =>
      obtain ⟨T, ht, hT⟩ := h.tracker
      obtain ⟨found, hfound, hnone, hsome⟩ := ht.findFree ho
      rw [allocateRetry]
      simp only [Option.bind_eq_bind, hfound, Option.bind_some]
      rcases found with _ | r
      · exact ⟨none, a, rfl, fun _ => ⟨h, fun r hfree => absurd hfree (hnone rfl r)⟩,
          fun p heq => by cases heq⟩
      have hmarked := hsome r rfl
      have hr := h.below hmarked
      obtain ⟨q, hq⟩ : ∃ q, pages[r]? = some q := ⟨_, List.getElem?_eq_getElem hr⟩
      obtain ⟨region, hregion, hlen⟩ := h.exists_allocator hq
      have howned := h.owned hregion
      obtain ⟨res, hres, hiff, hpage⟩ := allocateIn_spec howned o lowest
      simp only [hregion, Option.bind_some, hres]
      rcases res with _ | ⟨u, region'⟩
      · -- The region is full: it is not tried again.
        obtain ⟨t, hfull, hsound, hmarks⟩ := ht.markFull ho (r := r) (by omega)
        have h' := h.withTracker hsound hT fun {o' r'} hfree => h.below ((hmarks o' r').mp hfree).1
        have hfinite : {r | a.regionTracker.MayBeFree o r}.Finite :=
          (Set.finite_lt_nat pages.length).subset fun r' hr' => h.below hr'
        have hless : {r' | t.MayBeFree o r'}.ncard < rounds := by
          refine Nat.lt_of_lt_of_le (Set.ncard_lt_ncard ?_ hfinite) (Nat.le_of_lt_succ hrounds)
          refine ⟨fun r' hr' => ((hmarks o r').mp hr').1, fun hsub => ?_⟩
          exact ((hmarks o r).mp (hsub hmarked)).2 ⟨rfl, le_rfl⟩
        obtain ⟨res', a', hloop, hnone', hsome'⟩ := ih h' hless
        refine ⟨res', a', by simp only [hfull, Option.bind_some, hloop], fun heq => ?_, hsome'⟩
        obtain ⟨hsound', hexhausted⟩ := hnone' heq
        refine ⟨hsound', fun r' hr' => ?_⟩
        by_cases hsame : r' = r
        · intro allocator hallocator
          rw [hsame] at hallocator ⊢
          obtain rfl := Option.some.inj (hregion.symm.trans hallocator)
          exact hiff.mp rfl
        · exact hexhausted r' ((hmarks o r').mpr ⟨hr', fun hcond => hsame hcond.1⟩)
      · obtain ⟨havailable, hlen', howned'⟩ := hpage u region' rfl
        have hoK : o ≤ K := by
          by_contra hhigh
          have hnone' := hiff.mpr (.inl (Nat.not_le.mp hhigh))
          cases hnone'
        have hbound : (u + 1) * 2 ^ o ≤ region.len := havailable.1
        have hu : u ≤ maxPageIndex := by
          have hqle := hle q (List.mem_of_getElem? hq)
          have hpow : 2 ^ K ≤ 2 ^ 20 := Nat.pow_le_pow_right (by omega) hK
          have hmul : (u + 1) * 1 ≤ (u + 1) * 2 ^ o := Nat.mul_le_mul_left _ (Nat.two_pow_pos o)
          rw [maxPageIndex]
          omega
        have hnew : PageNumber.new r u o = some ⟨r, u, o⟩ :=
          if_pos ⟨by rw [maxRegions] at hpages; omega, hu, ho⟩
        have hset := h.set (r := r) region'
          (Function.update taken r (insert (u, o) (taken r)))
          (by rwa [Function.update_self]) fun r' hne => Function.update_of_ne hne _ _
        rw [hlen', hlen] at hset
        obtain ⟨hlt, hget⟩ := List.getElem?_eq_some_iff.mp hq
        rw [← hget, List.set_getElem_self hlt] at hset
        refine ⟨some ⟨r, u, o⟩, ⟨a.regionTracker, a.regionAllocators.set r region'⟩,
          by simp only [hnew, Option.bind_some], fun heq => (by cases heq), fun p heq => ?_⟩
        obtain rfl := Option.some.inj heq
        refine ⟨rfl, hoK, hr, fun hmem => ?_, hset⟩
        exact Set.disjoint_left.mp (havailable.2 (u, o) hmem) (first_mem o u) (first_mem o u)

theorem allocateHelperRetry_spec (hK : K ≤ maxMaxPageOrder) (h : Allocators.Sound K pages taken a)
    (hpages : pages.length ≤ maxRegions) (hle : ∀ p ∈ pages, p ≤ 2 ^ K)
    (ho : o ≤ maxMaxPageOrder) (lowest : Bool) :
    ∃ res a', allocateHelperRetry o lowest a = some (res, a') ∧
      (res = none → Allocators.Sound K pages taken a' ∧
        ∀ r, a.regionTracker.MayBeFree o r → Exhausted K o taken a r) ∧
      ∀ p, res = some p → p.pageOrder = o ∧ o ≤ K ∧ p.region < pages.length ∧
        (p.pageIndex, o) ∉ taken p.region ∧
        Allocators.Sound K pages (Function.update taken p.region
          (insert (p.pageIndex, o) (taken p.region))) a' := by
  refine allocateRetry_spec hK h hpages hle ho ?_
  have hsub : {r | a.regionTracker.MayBeFree o r} ⊆ ↑(Finset.range pages.length) := fun r hr =>
    Finset.mem_coe.mpr (Finset.mem_range.mpr (h.below hr))
  have hcard := Set.ncard_le_ncard hsub (Finset.finite_toSet _)
  rw [Set.ncard_coe_finset, Finset.card_range] at hcard
  rw [h.length]
  omega

/-- The release of a page. -/
theorem freeIn_spec (h : Allocators.Sound K pages taken a) (hK : K ≤ maxMaxPageOrder)
    {p : PageNumber} (hr : p.region < pages.length)
    (hmem : (p.pageIndex, p.pageOrder) ∈ taken p.region) :
    ∃ a', freeIn a p = some a' ∧ Allocators.Sound K pages (Function.update taken p.region
      ((taken p.region).erase (p.pageIndex, p.pageOrder))) a' := by
  obtain ⟨T, ht, hT⟩ := h.tracker
  obtain ⟨q, hq⟩ : ∃ q, pages[p.region]? = some q := ⟨_, List.getElem?_eq_getElem hr⟩
  obtain ⟨region, hregion, hlen⟩ := h.exists_allocator hq
  have howned := h.owned hregion
  obtain ⟨region', hfree, hlen', howned'⟩ := howned.free_spec hmem
  have ho : p.pageOrder ≤ K := howned.orders _ hmem
  obtain ⟨t, hmark, hsound, hmarks⟩ := ht.markFree (o := p.pageOrder) (r := p.region) (by omega)
    (by omega)
  have hset := (h.withTracker hsound hT fun {o' r'} hfree' => by
    rcases (hmarks o' r').mp hfree' with hfree' | hnew
    · exact h.below hfree'
    · omega).set (r := p.region) region'
      (Function.update taken p.region ((taken p.region).erase (p.pageIndex, p.pageOrder)))
      (by rwa [Function.update_self]) fun r' hne => Function.update_of_ne hne _ _
  rw [hlen', show Client.allocator ⟨region, taken p.region⟩ = region from rfl, hlen] at hset
  obtain ⟨hlt, hget⟩ := List.getElem?_eq_some_iff.mp hq
  rw [← hget, List.set_getElem_self hlt] at hset
  have hfree' : region.freePage p.pageIndex p.pageOrder = some region' := hfree
  refine ⟨_, ?_, hset⟩
  rw [freeIn, hregion]
  simp only [Option.bind_eq_bind, Option.bind_some, hfree', hmark]

end Allocators

/-! ### The recorded pages -/

/-- The allocators of a layout have exactly the recorded pages taken. -/
structure Placed (K : ℕ) (F : RegionLayout) (l : DatabaseLayout) (pages : Finset PageNumber)
    (a : Allocators) : Prop where
  wellFormed : l.WellFormed
  full : l.fullRegionLayout = F
  capacity : F.numPages = 2 ^ K
  order_le : K ≤ maxMaxPageOrder
  regions : l.numRegions ≤ maxRegions
  sound : a.Sound K l.regionPages (onRegion pages)
  placed : ∀ p ∈ pages, p.region < l.numRegions

section Placed

variable {K : ℕ} {F : RegionLayout} {l : DatabaseLayout} {pages : Finset PageNumber}
  {a : Allocators} {o : ℕ}

theorem Placed.capacity_eq (h : Placed K F l pages a) : l.fullRegionLayout.numPages = 2 ^ K := by
  rw [h.full, h.capacity]

/-- The allocators of a layout of which no page is allocated. -/
theorem exists_placed (hl : l.WellFormed) (hfull : l.fullRegionLayout = F)
    (hcapacity : F.numPages = 2 ^ K) (hK : K ≤ maxMaxPageOrder)
    (hmax : l.numRegions ≤ maxRegions) :
    ∃ a, Allocators.new l = some a ∧ Placed K F l ∅ a := by
  obtain ⟨a, ha, hsound⟩ := Allocators.new_spec hl (by rw [hfull, hcapacity]) hK
  exact ⟨a, ha, hl, hfull, hcapacity, hK, hmax, by rwa [onRegion_empty],
    fun p hp => absurd hp (Finset.notMem_empty p)⟩

/-- A recorded page is one of the pages of its region. -/
theorem Placed.exists_regionPages (h : Placed K F l pages a) {p : PageNumber} (hp : p ∈ pages) :
    ∃ q, l.regionPages[p.region]? = some q ∧ p.pageOrder ≤ K ∧
      (p.pageIndex + 1) * 2 ^ p.pageOrder ≤ q := by
  have hlt := h.placed p hp
  rw [← DatabaseLayout.length_regionPages] at hlt
  obtain ⟨allocator, hallocator, hlen⟩ := h.sound.exists_allocator (List.getElem?_eq_getElem hlt)
  have howned := h.sound.owned hallocator
  have hmem : (p.pageIndex, p.pageOrder) ∈ onRegion pages p.region := mem_onRegion.mpr hp
  refine ⟨_, List.getElem?_eq_getElem hlt, howned.orders _ hmem, ?_⟩
  have hbound := howned.parted.bounded _ hmem
  rwa [← hlen]

/-- Two pages do not overlap. -/
def Apart (p q : PageNumber) : Prop :=
  p.region = q.region → Disjoint (block p.pageOrder p.pageIndex) (block q.pageOrder q.pageIndex)

theorem Apart.symm {p q : PageNumber} (h : Apart p q) : Apart q p := fun heq => (h heq.symm).symm

/-- Recorded pages do not overlap. -/
theorem Placed.apart (h : Placed K F l pages a) {p q : PageNumber} (hp : p ∈ pages) (hq : q ∈ pages)
    (hne : p ≠ q) : Apart p q := fun heq => by
  have hr := h.placed p hp
  rw [← DatabaseLayout.length_regionPages, ← h.sound.length] at hr
  have howned := h.sound.owned (List.getElem?_eq_getElem hr)
  refine howned.parted.apart _ (mem_onRegion.mpr hp) _ (mem_onRegion.mpr (by rw [heq]; exact hq))
    fun hsame => hne ?_
  obtain ⟨hindex, horder⟩ := Prod.mk.inj hsame
  obtain ⟨r, i, o⟩ := p
  obtain ⟨r', i', o'⟩ := q
  exact PageNumber.mk.injEq .. ▸ ⟨heq, hindex, horder⟩

/-- No region that the layout does not have has recorded pages. -/
theorem Placed.onRegion_eq_empty (h : Placed K F l pages a) {r : ℕ} (hr : l.numRegions ≤ r) :
    onRegion pages r = ∅ := by
  refine Finset.eq_empty_of_forall_notMem fun x hx => ?_
  have hlt := h.placed _ (mem_onRegion.mp (show (x.1, x.2) ∈ onRegion pages r from hx))
  dsimp only at hlt
  omega

theorem Placed.add (h : Placed K F l pages a) {a' : Allocators} {p : PageNumber}
    (hr : p.region < l.numRegions)
    (hsound : a'.Sound K l.regionPages (Function.update (onRegion pages) p.region
      (insert (p.pageIndex, p.pageOrder) (onRegion pages p.region)))) :
    Placed K F l (insert p pages) a' := by
  refine ⟨h.wellFormed, h.full, h.capacity, h.order_le, h.regions, ?_, fun q hq => ?_⟩
  · rwa [onRegion_insert]
  · rcases Finset.mem_insert.mp hq with rfl | hq
    · exact hr
    · exact h.placed q hq

theorem Placed.remove (h : Placed K F l pages a) {a' : Allocators} {p : PageNumber}
    (hsound : a'.Sound K l.regionPages (Function.update (onRegion pages) p.region
      ((onRegion pages p.region).erase (p.pageIndex, p.pageOrder)))) :
    Placed K F l (pages.erase p) a' := by
  refine ⟨h.wellFormed, h.full, h.capacity, h.order_le, h.regions, ?_, fun q hq => ?_⟩
  · rwa [onRegion_erase]
  · exact h.placed q (Finset.mem_of_mem_erase hq)

/-- **The search.** It ends, and returns a page that was not recorded; without one, no region that
was marked had such a page. -/
theorem Placed.allocateHelperRetry_spec (h : Placed K F l pages a) (ho : o ≤ maxMaxPageOrder)
    (lowest : Bool) :
    ∃ res a', allocateHelperRetry o lowest a = some (res, a') ∧
      (res = none → Placed K F l pages a' ∧
        ∀ r, a.regionTracker.MayBeFree o r → Exhausted K o (onRegion pages) a r) ∧
      ∀ p, res = some p → p ∉ pages ∧ p.pageOrder = o ∧ Placed K F l (insert p pages) a' := by
  have hlength := DatabaseLayout.length_regionPages l
  have hregions := h.regions
  obtain ⟨res, a', hres, hnone, hsome⟩ := PageManager.allocateHelperRetry_spec h.order_le h.sound
    (by omega) (fun p hp => by
      obtain ⟨r, hr⟩ := List.getElem?_of_mem hp
      rw [← h.capacity_eq]
      exact (h.wellFormed.regionPages_bounds hr).2.1) ho lowest
  refine ⟨res, a', hres, fun heq => ?_, fun p heq => ?_⟩
  · obtain ⟨hsound, hexhausted⟩ := hnone heq
    exact ⟨⟨h.wellFormed, h.full, h.capacity, h.order_le, h.regions, hsound, h.placed⟩,
      hexhausted⟩
  · obtain ⟨rfl, -, hr, hfresh, hsound⟩ := hsome p heq
    exact ⟨fun hp => hfresh (mem_onRegion.mpr hp), rfl, h.add (by omega) hsound⟩

/-- **Growing.** The recorded pages stay, and a region with a free page of the order is marked. -/
theorem Placed.grow_spec {s : PageManager} (h : Placed K F s.layout s.allocatedPages s.allocators)
    (ho : o ≤ K) (hmax : s.layout.numRegions + 2 ≤ maxRegions) (resized : Bool) :
    ∃ s', s.grow o resized = some (resized, s') ∧
      (resized = false → s' = { s with needsRecovery := true }) ∧
      (resized = true → ∃ l' a' n, s' = { s with layout := l', allocators := a', fileLen := n } ∧
        Placed K F l' s.allocatedPages a' ∧ l'.len = some n ∧
        (∃ m, s.layout.len = some m ∧ m ≤ n) ∧
        ∃ r, a'.regionTracker.MayBeFree o r ∧
          ¬ Exhausted K o (onRegion s.allocatedPages) a' r) := by
  have hK := h.order_le
  have hcapacity := h.capacity_eq
  obtain ⟨size, l', hsize, hcalculate, hgrowth⟩ := exists_growth h.wellFormed hcapacity hK ho hmax
  obtain ⟨hwell', hfull', ⟨hmore, hfew⟩, hlast, r, p, j, hp, hroom, hold, hnew⟩ := hgrowth
  obtain ⟨n, n', hn, hn', hle⟩ := len_le h.wellFormed hwell' hfull' hmore hlast
  obtain ⟨a', ha', hsound', -, hserved⟩ := h.sound.resizeTo_grow h.wellFormed hwell' hcapacity
    (by rw [hfull', hcapacity]) hK (by omega) (fun r hr => h.onRegion_eq_empty hr) hmore hlast
  have hgrow : s.grow o resized = if resized = true then
      some (true, { s with layout := l', allocators := a', fileLen := n' })
      else some (false, { s with needsRecovery := true }) := by
    rw [grow, hsize]
    simp only [Option.bind_eq_bind, Option.bind_some, hcalculate, hn, hn', ha']
    rw [if_neg (Nat.not_lt.mpr hle)]
  cases resized with
  | false => exact ⟨_, hgrow, fun _ => rfl, fun heq => by cases heq⟩
  | true =>
      refine ⟨_, hgrow, fun heq => (by cases heq),
        fun _ => ⟨l', a', n', rfl, ?_, hn', ⟨n, hn, hle⟩, r, ?_⟩⟩
      · exact ⟨hwell', hfull'.trans h.full, h.capacity, hK, by omega, hsound',
          fun q hq => (h.placed q hq).trans_le hmore⟩
      · -- The new block meets no recorded page, so that the region is marked.
        obtain ⟨allocator, hallocator, hlen⟩ := hsound'.exists_allocator hp
        have howned := hsound'.owned hallocator
        have havailable : Client.Available ⟨allocator, onRegion s.allocatedPages r⟩ o j := by
          refine ⟨by rw [show Client.allocator ⟨allocator, onRegion s.allocatedPages r⟩ = allocator
            from rfl, hlen]; exact hroom, fun x hx => ?_⟩
          obtain ⟨q, hq, -, hbound⟩ := h.exists_regionPages (mem_onRegion.mp
            (show (x.1, x.2) ∈ onRegion s.allocatedPages r from hx))
          have hstart := hold q hq
          refine Set.disjoint_left.mpr fun y hy hy' => ?_
          have hlow := (mem_block.mp hy).1
          have hhigh := (mem_block.mp hy').2
          dsimp only at hbound
          omega
        have hlt := (List.getElem?_eq_some_iff.mp hp).1
        rw [DatabaseLayout.length_regionPages] at hlt
        refine ⟨hserved r hlt hnew hallocator o ho ⟨j, howned.available_iff.mp havailable⟩,
          fun hexhausted => ?_⟩
        rcases hexhausted allocator hallocator with hhigh | hnone
        · omega
        · exact hnone j havailable

/-- The release of a recorded page. -/
theorem Placed.freeHelper_spec {s : PageManager}
    (h : Placed K F s.layout s.allocatedPages s.allocators) {p : PageNumber}
    (hp : p ∈ s.allocatedPages) :
    ∃ a', s.freeHelper p =
        some { s with allocators := a', allocatedPages := s.allocatedPages.erase p } ∧
      Placed K F s.layout (s.allocatedPages.erase p) a' := by
  have hr := h.placed p hp
  rw [← DatabaseLayout.length_regionPages] at hr
  obtain ⟨a', ha', hsound⟩ := freeIn_spec h.sound h.order_le hr (mem_onRegion.mpr hp)
  refine ⟨a', ?_, h.remove hsound⟩
  rw [freeHelper, if_pos hp]
  simp only [Option.bind_eq_bind, ha', Option.bind_some]

/-- The release of several recorded pages. -/
theorem Placed.freeAll_spec {freed : List PageNumber} {s : PageManager}
    (h : Placed K F s.layout s.allocatedPages s.allocators) (hnodup : freed.Nodup)
    (hsub : ∀ p ∈ freed, p ∈ s.allocatedPages) :
    ∃ a', freeAll freed s =
        some { s with allocators := a', allocatedPages := s.allocatedPages \ freed.toFinset } ∧
      Placed K F s.layout (s.allocatedPages \ freed.toFinset) a' := by
  induction freed generalizing s with
  | nil =>
      rw [List.toFinset_nil, Finset.sdiff_empty]
      exact ⟨s.allocators, rfl, h⟩
  | cons p freed ih =>
      obtain ⟨hfresh, hnodup'⟩ := List.nodup_cons.mp hnodup
      obtain ⟨a₁, ha₁, h₁⟩ := h.freeHelper_spec (hsub p List.mem_cons_self)
      obtain ⟨a', ha', h'⟩ := ih (s := { s with
          allocators := a₁
          allocatedPages := s.allocatedPages.erase p }) h₁ hnodup' fun q hq =>
        Finset.mem_erase.mpr ⟨fun heq => hfresh (heq ▸ hq), hsub q (List.mem_cons_of_mem _ hq)⟩
      have hpages : s.allocatedPages \ (p :: freed).toFinset =
          s.allocatedPages.erase p \ freed.toFinset := by
        rw [List.toFinset_cons, Finset.erase_sdiff_comm, Finset.sdiff_insert]
      rw [hpages]
      refine ⟨a', ?_, h'⟩
      rw [freeAll, ha₁]
      exact ha'

/-- A layout without the last pages, none of which is recorded. -/
theorem Placed.reduce_spec (h : Placed K F l pages a) {last pagesLess : ℕ}
    (hlast : l.regionPages[l.numRegions - 1]? = some last) (hle : pagesLess ≤ last)
    (hmore : pagesLess < last ∨ 1 < l.numRegions)
    (hfree : ∀ x ∈ onRegion pages (l.numRegions - 1), (x.1 + 1) * 2 ^ x.2 ≤ last - pagesLess) :
    ∃ l' a' n n', l.reduceLastRegion pagesLess = some l' ∧ a.resizeTo l' = some a' ∧
      l.len = some n ∧ l'.len = some n' ∧ n' ≤ n ∧ Placed K F l' pages a' := by
  have hcapacity := h.capacity_eq
  have hpos := h.wellFormed.numRegions_pos
  obtain ⟨l', hreduce, hwell', hfull', hpages'⟩ :=
    h.wellFormed.reduceLastRegion_spec hlast hle hmore
  have hlength' := DatabaseLayout.length_regionPages l'
  have hregions' : l'.numRegions ≤ l.numRegions ∧
      (l'.numRegions = l.numRegions → (Allocators.lastRegion l').numPages = last - pagesLess) := by
    have hlast' := Allocators.regionPages_last hwell'
    rw [← hlength', hpages', List.length_append, List.length_replicate]
    split_ifs with hall
    · rw [List.length_nil]
      exact ⟨by omega, fun heq => by omega⟩
    · rw [List.length_singleton]
      refine ⟨by omega, fun heq => ?_⟩
      have hregions : l'.numRegions = l.numRegions := by
        rw [← hlength', hpages', if_neg hall, List.length_append, List.length_replicate,
          List.length_singleton, heq]
      rw [hregions, hpages', if_neg hall, List.getElem?_append_right
        (by rw [List.length_replicate]), List.length_replicate, Nat.sub_self] at hlast'
      exact (Option.some.inj hlast').symm
  have hlastEq : (Allocators.lastRegion l).numPages = last :=
    Option.some.inj ((Allocators.regionPages_last h.wellFormed).symm.trans hlast)
  have hshorter : l'.numRegions = l.numRegions →
      (Allocators.lastRegion l').numPages ≤ (Allocators.lastRegion l).numPages := fun heq => by
    have hless := hregions'.2 heq
    omega
  -- The recorded pages of all regions are left.
  have hfit : ∀ r, ∀ x ∈ onRegion pages r,
      ∃ p, l'.regionPages[r]? = some p ∧ (x.1 + 1) * 2 ^ x.2 ≤ p := fun r x hx => by
    have hmem : (⟨r, x.1, x.2⟩ : PageNumber) ∈ pages := mem_onRegion.mp hx
    have hr := h.placed _ hmem
    obtain ⟨q, hq, -, hbound⟩ := h.exists_regionPages hmem
    dsimp only at hr hq hbound
    rw [hpages']
    by_cases hinner : r < l.numRegions - 1
    · refine ⟨l.fullRegionLayout.numPages, ?_,
        hbound.trans (h.wellFormed.regionPages_bounds hq).2.1⟩
      rw [List.getElem?_append_left (by rwa [List.length_replicate]),
        List.getElem?_replicate_of_lt hinner]
    · obtain rfl : r = l.numRegions - 1 := by omega
      have hbound' := hfree x hx
      have hsome : 0 < (x.1 + 1) * 2 ^ x.2 := Nat.mul_pos (Nat.succ_pos _) (Nat.two_pow_pos _)
      rw [if_neg (by omega)]
      refine ⟨last - pagesLess, ?_, hbound'⟩
      rw [List.getElem?_append_right (by rw [List.length_replicate]), List.length_replicate,
        Nat.sub_self, List.getElem?_cons_zero]
  obtain ⟨a', ha', hsound'⟩ := h.sound.resizeTo_shrink h.wellFormed hwell' hcapacity
    (by rw [hfull', hcapacity]) h.order_le hregions'.1 hshorter hfit
  obtain ⟨n', n, hn', hn, hlen⟩ := len_le hwell' h.wellFormed hfull'.symm hregions'.1 hshorter
  refine ⟨l', a', n, n', hreduce, ha', hn, hn', hlen, hwell', hfull'.trans h.full, h.capacity,
    h.order_le, hregions'.1.trans h.regions, hsound', fun p hp => ?_⟩
  obtain ⟨q, hq, -⟩ := hfit p.region _ (mem_onRegion.mpr hp)
  rw [← hlength']
  exact (List.getElem?_eq_some_iff.mp hq).1

/-- **Shrinking.** The recorded pages stay. -/
theorem Placed.tryShrink_spec {s : PageManager}
    (h : Placed K F s.layout s.allocatedPages s.allocators) (force : Bool) :
    ∃ shrunk s', s.tryShrink force = some (shrunk, s') ∧ (shrunk = false → s' = s) ∧
      (shrunk = true → ∃ l' a' n n', s' = { s with layout := l', allocators := a' } ∧
        s.layout.len = some n ∧ l'.len = some n' ∧ n' ≤ n ∧
        Placed K F l' s.allocatedPages a') := by
  have hlast := Allocators.regionPages_last h.wellFormed
  obtain ⟨last, hallocator, hlen⟩ := h.sound.exists_allocator hlast
  have howned := h.sound.owned hallocator
  have hpos : 0 < last.len := by
    rw [hlen]
    exact (h.wellFormed.regionPages_bounds hlast).1
  obtain ⟨k, hk, ⟨hle, hfree⟩, -⟩ := howned.wellFormed.trailingFreePages_spec hpos
  have hk' : last.trailingFreePages = some k := hk
  rw [tryShrink, hallocator]
  simp only [Option.bind_eq_bind, Option.bind_some, hk']
  by_cases hfew : k = 0 ∨ (k < last.len / 2 ∧ force = false)
  · rw [if_pos hfew]
    exact ⟨false, s, rfl, fun _ => rfl, fun heq => by cases heq⟩
  · rw [if_neg hfew]
    generalize hby : (if 1 < s.layout.numRegions ∧ k = last.len then k
      else if force = true then min (last.len - 1) k else k / 2) = pagesLess
    have hless : pagesLess ≤ k ∧ (pagesLess < last.len ∨ 1 < s.layout.numRegions) := by
      have hkle : k ≤ last.len := hle
      split_ifs at hby <;> omega
    have hbound : ∀ x ∈ onRegion s.allocatedPages (s.layout.numRegions - 1),
        (x.1 + 1) * 2 ^ x.2 ≤ last.len - pagesLess :=
      (howned.parted.tail_iff (m := last.len - pagesLess)).mp fun p hge hlt =>
        hfree p (by dsimp only; omega) hlt
    rw [hlen] at hbound
    obtain ⟨l', a', n, n', hreduce, ha', hn, hn', hnle, hplaced⟩ := h.reduce_spec hlast
      (by rw [← hlen]; exact hless.1.trans hle) (by rw [← hlen]; exact hless.2) hbound
    refine ⟨true, { s with layout := l', allocators := a' }, ?_, fun heq => (by cases heq),
      fun _ => ⟨l', a', n, n', rfl, hn, hn', hnle, hplaced⟩⟩
    simp only [hreduce, ha', hn, hn', Option.bind_some]
    rw [if_neg (Nat.not_lt.mpr hnle)]

end Placed

end PageManager

end Torpor.Redb
