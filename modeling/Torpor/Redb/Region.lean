import Torpor.Redb.BuddyClient
import Torpor.Redb.Layout

/-!
# The Regions of a Database

Each region has a buddy allocator. A tracker tells, for each order, which regions may have a free
page of it; it is optimistic, so that such a region can turn out to have none.

## Main results

* `RegionTracker.Sound.markFree`, `RegionTracker.Sound.markFull`: what the marks become.
* `Allocators.new_spec`, `Allocators.Sound.resizeTo_grow`, `Allocators.Sound.resizeTo_shrink`: the
  allocators have the pages of the layout, and what was taken stays taken. A region that has grown
  is marked for every order of which it has a free page.
-/

namespace Torpor.Redb

/-- `INITIAL_REGIONS`. -/
def initialRegions : ℕ := 1000

/-- `MAX_REGIONS`. -/
def maxRegions : ℕ := 0x100000

/-! ### The tracker -/

/-- `RegionTracker`. -/
structure RegionTracker where
  orderTrackers : List BtreeBitmap

/-- A loop over the trackers, each with its order. -/
def updateAll (f : ℕ → BtreeBitmap → Option BtreeBitmap) :
    ℕ → List BtreeBitmap → Option (List BtreeBitmap)
  | _, [] => some []
  | i, b :: bs => do
      let b ← f i b
      let bs ← updateAll f (i + 1) bs
      some (b :: bs)

namespace RegionTracker

/-- `new`. -/
def new (regions orders : ℕ) : RegionTracker :=
  ⟨List.replicate orders (.newPadded regions regions maxRegions)⟩

/-- `find_free`. -/
def findFree (t : RegionTracker) (order : ℕ) : Option (Option ℕ) := do
  let tracker ← t.orderTrackers[order]?
  tracker.findFirstUnset

/-- `mark_free`. -/
def markFree (t : RegionTracker) (order region : ℕ) : Option RegionTracker :=
  if order < t.orderTrackers.length then
    (updateAll (fun i b => if i ≤ order then b.clear region else some b) 0 t.orderTrackers).map
      RegionTracker.mk
  else none

/-- `mark_full`. -/
def markFull (t : RegionTracker) (order region : ℕ) : Option RegionTracker :=
  if order < t.orderTrackers.length then
    (updateAll (fun i b => if order ≤ i then b.set region else some b) 0 t.orderTrackers).map
      RegionTracker.mk
  else none

/-- `resize`. -/
def resize (t : RegionTracker) (newCapacity : ℕ) : Option RegionTracker :=
  (updateAll (fun _ b => b.resize newCapacity true) 0 t.orderTrackers).map RegionTracker.mk

/-- `len`. -/
def len (t : RegionTracker) : Option ℕ := (t.orderTrackers[0]?).map BtreeBitmap.len

/-- A region is marked as one that may have a free page of the order. -/
def MayBeFree (t : RegionTracker) (order region : ℕ) : Prop :=
  ∃ b, t.orderTrackers[order]? = some b ∧ b.bit region = false

/-- A tracker of `T` regions. -/
structure Sound (T : ℕ) (t : RegionTracker) : Prop where
  length : t.orderTrackers.length = maxMaxPageOrder + 1
  levels : ∀ {o : ℕ} {b : BtreeBitmap}, t.orderTrackers[o]? = some b →
    b.WellFormed ∧ b.len = T ∧ maxRegions ≤ 64 ^ b.height

theorem updateAll_spec {f : ℕ → BtreeBitmap → Option BtreeBitmap}
    {Q : ℕ → BtreeBitmap → BtreeBitmap → Prop} (bs : List BtreeBitmap) {k : ℕ}
    (hf : ∀ i b, bs[i]? = some b → ∃ b', f (k + i) b = some b' ∧ Q (k + i) b b') :
    ∃ bs', updateAll f k bs = some bs' ∧ bs'.length = bs.length ∧
      ∀ i b', bs'[i]? = some b' → ∃ b, bs[i]? = some b ∧ Q (k + i) b b' := by
  induction bs generalizing k with
  | nil => exact ⟨[], rfl, rfl, fun i b' hb' => by cases hb'⟩
  | cons b bs ih =>
      obtain ⟨b', hb', hQ⟩ := hf 0 b rfl
      obtain ⟨bs', hbs', hlength, hall⟩ := ih (k := k + 1) fun i c hc => by
        rw [Nat.add_right_comm, Nat.add_assoc]
        exact hf (i + 1) c hc
      refine ⟨b' :: bs', ?_, by rw [List.length_cons, List.length_cons, hlength], fun i c hc => ?_⟩
      · rw [updateAll, show f k b = some b' from hb']
        simp only [Option.bind_eq_bind, Option.bind_some, hbs']
      · rcases i with _ | i
        · obtain rfl := Option.some.inj hc
          exact ⟨b, rfl, hQ⟩
        · obtain ⟨d, hd, hQ'⟩ := hall i c hc
          refine ⟨d, hd, ?_⟩
          rwa [Nat.add_right_comm, Nat.add_assoc] at hQ'

variable {T : ℕ} {t : RegionTracker} {o r : ℕ}

theorem Sound.exists_tracker (h : Sound T t) (ho : o ≤ maxMaxPageOrder) :
    ∃ b, t.orderTrackers[o]? = some b :=
  ⟨_, List.getElem?_eq_getElem (by have := h.length; omega)⟩

theorem mayBeFree_iff {b : BtreeBitmap} (hb : t.orderTrackers[o]? = some b) :
    t.MayBeFree o r ↔ b.bit r = false := by
  constructor
  · rintro ⟨b', hb', hclear⟩
    obtain rfl := Option.some.inj (hb.symm.trans hb')
    exact hclear
  · exact fun hclear => ⟨b, hb, hclear⟩

theorem Sound.order_le (h : Sound T t) (hfree : t.MayBeFree o r) : o ≤ maxMaxPageOrder := by
  obtain ⟨b, hb, -⟩ := hfree
  have hlt := (List.getElem?_eq_some_iff.mp hb).1
  rw [h.length] at hlt
  omega

/-- The marks after a loop that changes one bit in some of the orders. -/
theorem Sound.update (h : Sound T t) (f : ℕ → BtreeBitmap → Option BtreeBitmap) (value : Bool)
    (on : ℕ → Prop) [DecidablePred on] (hr : r < T)
    (hf : ∀ i b, b.WellFormed → r < b.len → on i →
      ∃ b', f i b = some b' ∧ BtreeBitmap.Stepped b b' r value)
    (hskip : ∀ i b, ¬ on i → f i b = some b) :
    ∃ t', (updateAll f 0 t.orderTrackers).map RegionTracker.mk = some t' ∧ Sound T t' ∧
      ∀ o' r', t'.MayBeFree o' r' ↔
        if r' = r ∧ on o' then o' ≤ maxMaxPageOrder ∧ value = false else t.MayBeFree o' r' := by
  obtain ⟨bs, hbs, hlength, hall⟩ := updateAll_spec t.orderTrackers (k := 0) (f := f)
    (Q := fun i b b' => if on i then BtreeBitmap.Stepped b b' r value else b' = b)
    fun i b hb => by
      obtain ⟨hwell, hlen, -⟩ := h.levels hb
      rw [Nat.zero_add]
      split_ifs with hon
      · exact hf i b hwell (by omega) hon
      · exact ⟨b, hskip i b hon, rfl⟩
  simp only [Nat.zero_add] at hall
  refine ⟨⟨bs⟩, by rw [hbs]; rfl, ⟨hlength.trans h.length, fun {o' b'} hb' => ?_⟩, fun o' r' => ?_⟩
  · obtain ⟨b, hb, hQ⟩ := hall o' b' hb'
    obtain ⟨hwell, hlen, hheight⟩ := h.levels hb
    split_ifs at hQ with hon
    · exact ⟨hQ.wellFormed, hQ.len.trans hlen, by rw [hQ.height]; exact hheight⟩
    · rw [hQ]
      exact ⟨hwell, hlen, hheight⟩
  · rcases hb' : bs[o']? with _ | b'
    · have hge := List.getElem?_eq_none_iff.mp hb'
      rw [hlength, h.length] at hge
      have hnot : ¬ t.MayBeFree o' r' := fun hfree => by
        have hle := h.order_le hfree
        omega
      have hnot' : ¬ MayBeFree ⟨bs⟩ o' r' := by
        rintro ⟨c, hc, -⟩
        rw [hb'] at hc
        cases hc
      split_ifs
      · exact iff_of_false hnot' fun hcond => by omega
      · exact iff_of_false hnot' hnot
    · obtain ⟨b, hb, hQ⟩ := hall o' b' hb'
      have hle : o' ≤ maxMaxPageOrder := by
        have hlt := (List.getElem?_eq_some_iff.mp hb).1
        rw [h.length] at hlt
        omega
      rw [mayBeFree_iff (t := ⟨bs⟩) hb', mayBeFree_iff hb]
      by_cases hon : on o'
      · rw [if_pos hon] at hQ
        split_ifs with hcond
        · rw [hcond.1, hQ.self, and_iff_right hle]
        · rw [hQ.other r' fun heq => hcond ⟨heq, hon⟩]
      · rw [if_neg hon] at hQ
        rw [if_neg fun hcond => hon hcond.2, hQ]

/-- Marking a region as one with a free page of the order, and so of all lower ones. -/
theorem Sound.markFree (h : Sound T t) (ho : o ≤ maxMaxPageOrder) (hr : r < T) :
    ∃ t', t.markFree o r = some t' ∧ Sound T t' ∧
      ∀ o' r', t'.MayBeFree o' r' ↔ t.MayBeFree o' r' ∨ (r' = r ∧ o' ≤ o) := by
  obtain ⟨t', ht', hsound, hmarks⟩ := h.update
    (fun i b => if i ≤ o then b.clear r else some b) false (fun i => i ≤ o) hr
    (fun i b hwell hlt hon => by
      rw [if_pos hon]
      exact hwell.clear hlt) fun i b hon => if_neg hon
  refine ⟨t', by rw [RegionTracker.markFree, if_pos (by have := h.length; omega), ht'], hsound,
    fun o' r' => ?_⟩
  rw [hmarks]
  split_ifs with hcond
  · exact iff_of_true ⟨by omega, rfl⟩ (.inr hcond)
  · exact (or_iff_left hcond).symm

/-- Marking a region as one without a free page of the order, and so of all higher ones. -/
theorem Sound.markFull (h : Sound T t) (ho : o ≤ maxMaxPageOrder) (hr : r < T) :
    ∃ t', t.markFull o r = some t' ∧ Sound T t' ∧
      ∀ o' r', t'.MayBeFree o' r' ↔ t.MayBeFree o' r' ∧ ¬ (r' = r ∧ o ≤ o') := by
  obtain ⟨t', ht', hsound, hmarks⟩ := h.update
    (fun i b => if o ≤ i then b.set r else some b) true (fun i => o ≤ i) hr
    (fun i b hwell hlt hon => by
      rw [if_pos hon]
      exact hwell.set hlt) fun i b hon => if_neg hon
  refine ⟨t', by rw [RegionTracker.markFull, if_pos (by have := h.length; omega), ht'], hsound,
    fun o' r' => ?_⟩
  rw [hmarks]
  split_ifs with hcond
  · exact iff_of_false (fun hfalse => by cases hfalse.2) fun hand => hand.2 hcond
  · exact (and_iff_left hcond).symm

theorem Sound.findFree (h : Sound T t) (ho : o ≤ maxMaxPageOrder) :
    ∃ found, t.findFree o = some found ∧ (found = none → ∀ r, ¬ t.MayBeFree o r) ∧
      ∀ r, found = some r → t.MayBeFree o r := by
  obtain ⟨b, hb⟩ := h.exists_tracker ho
  obtain ⟨found, hfound, hnone, hsome⟩ := (h.levels hb).1.findFirstUnset
  refine ⟨found, ?_, fun heq r hfree => ?_, fun r heq => (mayBeFree_iff hb).mpr (hsome r heq).1⟩
  · rw [RegionTracker.findFree, hb]
    exact hfound
  · rw [mayBeFree_iff hb, hnone heq r] at hfree
    cases hfree

/-- A tracker of more regions has the same marks. -/
theorem Sound.resize (h : Sound T t) {T' : ℕ} (hle : T ≤ T') (hmax : T' ≤ maxRegions) :
    ∃ t', t.resize T' = some t' ∧ Sound T' t' ∧
      ∀ o r, t'.MayBeFree o r ↔ t.MayBeFree o r := by
  obtain ⟨bs, hbs, hlength, hall⟩ := updateAll_spec t.orderTrackers (k := 0)
    (f := fun _ b => b.resize T' true)
    (Q := fun _ b b' => b'.WellFormed ∧ b'.len = T' ∧ b'.height = b.height ∧
      ∀ k, b'.bit k = b.bit k)
    fun i b hb => by
      obtain ⟨hwell, hlen, hheight⟩ := h.levels hb
      exact hwell.resize (fun k hk => hwell.padding (by omega)) (hmax.trans hheight)
  refine ⟨⟨bs⟩, by rw [RegionTracker.resize, hbs]; rfl,
    ⟨hlength.trans h.length, fun {o' b'} hb' => ?_⟩, fun o r => ?_⟩
  · obtain ⟨b, hb, hwell, hlen, hheight, -⟩ := hall o' b' hb'
    exact ⟨hwell, hlen, by rw [hheight]; exact (h.levels hb).2.2⟩
  · rcases hb' : bs[o]? with _ | b'
    · have hge := List.getElem?_eq_none_iff.mp hb'
      rw [hlength] at hge
      refine iff_of_false ?_ ?_
      · rintro ⟨b, hb, -⟩
        rw [show RegionTracker.orderTrackers ⟨bs⟩ = bs from rfl, hb'] at hb
        cases hb
      · rintro ⟨b, hb, -⟩
        have hlt := (List.getElem?_eq_some_iff.mp hb).1
        omega
    · obtain ⟨b, hb, -, -, -, hbits⟩ := hall o b' hb'
      rw [mayBeFree_iff (t := ⟨bs⟩) hb', mayBeFree_iff hb, hbits]

theorem Sound.len_eq (h : Sound T t) : t.len = some T := by
  obtain ⟨b, hb⟩ := h.exists_tracker (Nat.zero_le _)
  rw [RegionTracker.len, hb, Option.map_some, (h.levels hb).2.1]

/-- A new tracker has no marks. -/
theorem sound_new (T : ℕ) :
    Sound T (new T (maxMaxPageOrder + 1)) ∧
      ∀ o r, ¬ (new T (maxMaxPageOrder + 1)).MayBeFree o r := by
  have hlevel : ∀ {o : ℕ} {b : BtreeBitmap},
      (new T (maxMaxPageOrder + 1)).orderTrackers[o]? = some b →
        b = BtreeBitmap.newPadded T T maxRegions := fun hb =>
    List.eq_of_mem_replicate (List.mem_of_getElem? hb)
  obtain ⟨hwell, hlen, hheight, hbits⟩ := BtreeBitmap.newPadded_spec (le_refl T) maxRegions
  refine ⟨⟨List.length_replicate, fun {o b} hb => ?_⟩, ?_⟩
  · rw [hlevel hb]
    exact ⟨hwell, hlen, hheight⟩
  · rintro o r ⟨b, hb, hclear⟩
    rw [hlevel hb, hbits] at hclear
    cases hclear

end RegionTracker

/-! ### The allocators -/

/-- `Allocators`. -/
structure Allocators where
  regionTracker : RegionTracker
  regionAllocators : List BuddyAllocator

namespace Allocators

/-- The loop of `new`. -/
def newLoop (layout : DatabaseLayout) : ℕ → ℕ → Allocators → Option Allocators
  | 0, _, a => some a
  | rounds + 1, i, a => do
      let regionLayout ← layout.regionLayout i
      let allocator ← BuddyAllocator.new regionLayout.numPages layout.fullRegionLayout.numPages
      let tracker ← a.regionTracker.markFree allocator.maxOrder i
      newLoop layout rounds (i + 1) ⟨tracker, a.regionAllocators ++ [allocator]⟩

/-- `new`. -/
def new (layout : DatabaseLayout) : Option Allocators :=
  let initial := max initialRegions layout.numRegions
  newLoop layout layout.numRegions 0 ⟨.new initial (maxMaxPageOrder + 1), []⟩

/-- The last region of a layout. -/
def lastRegion (layout : DatabaseLayout) : RegionLayout :=
  layout.trailingPartialRegion.getD layout.fullRegionLayout

/-- How the pages of the new layout compare with those of the allocators, in `resize_to`. -/
def compareTo (a : Allocators) (layout : DatabaseLayout) : Option Ordering :=
  match compare layout.numRegions a.regionAllocators.length with
  | .eq => do
      let allocator ← a.regionAllocators.getLast?
      some (compare (lastRegion layout).numPages allocator.len)
  | o => some o

/-- Marking the regions that are removed. -/
def markRemoved : ℕ → ℕ → RegionTracker → Option RegionTracker
  | 0, _, t => some t
  | rounds + 1, i, t => do
      let t ← t.markFull 0 i
      markRemoved rounds (i + 1) t

/-- The shrinking of `resize_to`. -/
def shrinkTo (a : Allocators) (layout : DatabaseLayout) : Option Allocators := do
  let regions := layout.numRegions
  let tracker ← markRemoved (a.regionAllocators.length - regions) regions a.regionTracker
  let allocators := a.regionAllocators.take regions
  let allocator ← allocators.getLast?
  if (lastRegion layout).numPages < allocator.len then do
    let allocator ← allocator.resize (lastRegion layout).numPages
    some ⟨tracker, allocators.set (allocators.length - 1) allocator⟩
  else some ⟨tracker, allocators⟩

/-- The growing of one region: of an old one, or a new one. -/
def growRegion (layout : DatabaseLayout) (oldNumRegions i : ℕ) (a : Allocators) :
    Option Allocators := do
  let newRegion ← layout.regionLayout i
  if i < oldNumRegions then do
    let allocator ← a.regionAllocators[i]?
    if newRegion.numPages < allocator.len then none
    else if newRegion.numPages = allocator.len then some a
    else do
      let allocator ← allocator.resize newRegion.numPages
      let highestFree ← allocator.highestFreeOrder
      let tracker ← a.regionTracker.markFree highestFree i
      some ⟨tracker, a.regionAllocators.set i allocator⟩
  else do
    let allocator ← BuddyAllocator.new newRegion.numPages layout.fullRegionLayout.numPages
    let highestFree ← allocator.highestFreeOrder
    let len ← a.regionTracker.len
    let tracker ← (if len ≤ i then a.regionTracker.resize (i + 1) else some a.regionTracker)
    let tracker ← tracker.markFree highestFree i
    some ⟨tracker, a.regionAllocators ++ [allocator]⟩

/-- The growing of `resize_to`. -/
def growTo (layout : DatabaseLayout) (oldNumRegions : ℕ) :
    ℕ → ℕ → Allocators → Option Allocators
  | 0, _, a => some a
  | rounds + 1, i, a => do
      let a ← growRegion layout oldNumRegions i a
      growTo layout oldNumRegions rounds (i + 1) a

/-- `resize_to`. -/
def resizeTo (a : Allocators) (layout : DatabaseLayout) : Option Allocators := do
  match ← a.compareTo layout with
  | .lt => a.shrinkTo layout
  | .eq => some a
  | .gt => growTo layout a.regionAllocators.length layout.numRegions 0 a

/-- The allocators of regions of the given numbers of pages, of which some are taken. -/
structure Sound (K : ℕ) (pages : List ℕ) (taken : ℕ → Finset (ℕ × ℕ)) (a : Allocators) :
    Prop where
  tracker : ∃ T, a.regionTracker.Sound T ∧ pages.length ≤ T
  below : ∀ {o r}, a.regionTracker.MayBeFree o r → r < pages.length
  lens : a.regionAllocators.map BuddyAllocator.len = pages
  owned : ∀ {r allocator}, a.regionAllocators[r]? = some allocator →
    Client.Owned (2 ^ K) K ⟨allocator, taken r⟩

section Sound

variable {K : ℕ} {pages : List ℕ} {taken : ℕ → Finset (ℕ × ℕ)} {a : Allocators} {r : ℕ}

theorem Sound.length (h : Sound K pages taken a) : a.regionAllocators.length = pages.length := by
  rw [← h.lens, List.length_map]

theorem Sound.exists_allocator (h : Sound K pages taken a) {p : ℕ} (hp : pages[r]? = some p) :
    ∃ allocator, a.regionAllocators[r]? = some allocator ∧ allocator.len = p := by
  rw [← h.lens, List.getElem?_map] at hp
  obtain ⟨allocator, hallocator, hlen⟩ := Option.map_eq_some_iff.mp hp
  exact ⟨allocator, hallocator, hlen⟩

theorem highestOrder_two_pow (hK : K ≤ maxMaxPageOrder) : Client.highestOrder (2 ^ K) = K := by
  rw [Client.highestOrder, Nat.log2_two_pow, Nat.min_eq_right hK]

theorem small_two_pow (hK : K ≤ maxMaxPageOrder) : 2 ^ K + 2 ^ K < 2 ^ 32 := by
  have hpow : 2 ^ K ≤ 2 ^ maxMaxPageOrder := Nat.pow_le_pow_right (by omega) hK
  rw [maxMaxPageOrder] at hpow
  omega

/-- Nothing is taken of the new allocator of a region. -/
theorem owned_new (hK : K ≤ maxMaxPageOrder) {p : ℕ} (hp : p ≤ 2 ^ K) :
    ∃ allocator, BuddyAllocator.new p (2 ^ K) = some allocator ∧ allocator.len = p ∧
      Client.Owned (2 ^ K) K ⟨allocator, ∅⟩ := by
  have hpos := Nat.two_pow_pos K
  have hsmall := small_two_pow hK
  obtain ⟨allocator, hnew, -, hlen, -⟩ := BuddyAllocator.new_spec hpos hp
    (by
      have heq := highestOrder_two_pow hK
      rw [Client.highestOrder] at heq
      rwa [heq])
  have howned := Client.owned_new hpos hp (by omega) hnew
  rw [highestOrder_two_pow hK] at howned
  exact ⟨allocator, hnew, hlen, howned⟩

/-- With other marks. -/
theorem Sound.withTracker (h : Sound K pages taken a) {T : ℕ} {t : RegionTracker}
    (ht : t.Sound T) (hT : pages.length ≤ T)
    (hbelow : ∀ {o r}, t.MayBeFree o r → r < pages.length) :
    Sound K pages taken ⟨t, a.regionAllocators⟩ :=
  ⟨⟨T, ht, hT⟩, hbelow, h.lens, h.owned⟩

/-- With another allocator for one region. -/
theorem Sound.set (h : Sound K pages taken a) (allocator : BuddyAllocator)
    (taken' : ℕ → Finset (ℕ × ℕ)) (howned : Client.Owned (2 ^ K) K ⟨allocator, taken' r⟩)
    (hothers : ∀ r' ≠ r, taken' r' = taken r') :
    Sound K (pages.set r allocator.len) taken'
      ⟨a.regionTracker, a.regionAllocators.set r allocator⟩ := by
  refine ⟨?_, fun hfree => ?_, ?_, fun {r' allocator'} hr' => ?_⟩
  · rw [List.length_set]
    exact h.tracker
  · rw [List.length_set]
    exact h.below hfree
  · rw [← h.lens, List.map_set]
  · rw [List.getElem?_set] at hr'
    split_ifs at hr' with heq hlt
    · obtain rfl := Option.some.inj hr'
      rwa [← heq]
    · rw [hothers r' (Ne.symm heq)]
      exact h.owned hr'

/-- With the allocator of a further region. -/
theorem Sound.push (h : Sound K pages taken a) (allocator : BuddyAllocator) {T : ℕ}
    {t : RegionTracker} (ht : t.Sound T) (hT : pages.length < T)
    (hbelow : ∀ {o r}, t.MayBeFree o r → r ≤ pages.length)
    (howned : Client.Owned (2 ^ K) K ⟨allocator, taken pages.length⟩) :
    Sound K (pages ++ [allocator.len]) taken ⟨t, a.regionAllocators ++ [allocator]⟩ := by
  have hlength := h.length
  refine ⟨⟨T, ht, ?_⟩, fun hfree => ?_, ?_, fun {r' allocator'} hr' => ?_⟩
  · rw [List.length_append, List.length_singleton]
    omega
  · have hle := hbelow hfree
    rw [List.length_append, List.length_singleton]
    omega
  · rw [List.map_append, h.lens]
    rfl
  · dsimp only at hr'
    rcases Nat.lt_trichotomy r' a.regionAllocators.length with hlt | rfl | hgt
    · rw [List.getElem?_append_left hlt] at hr'
      exact h.owned hr'
    · rw [List.getElem?_append_right le_rfl, Nat.sub_self, List.getElem?_cons_zero] at hr'
      obtain rfl := Option.some.inj hr'
      rwa [hlength]
    · rw [List.getElem?_eq_none (by
        rw [List.length_append, List.length_singleton]
        omega)] at hr'
      cases hr'

end Sound

section Layouts

variable {K : ℕ} {taken : ℕ → Finset (ℕ × ℕ)} {a : Allocators} {l l' : DatabaseLayout}

/-- New allocators: nothing is taken. -/
theorem newLoop_spec (hl : l.WellFormed) (hfull : l.fullRegionLayout.numPages = 2 ^ K)
    (hK : K ≤ maxMaxPageOrder) {rounds i T : ℕ} (hi : i + rounds = l.numRegions)
    (ht : a.regionTracker.Sound T) (hT : l.numRegions ≤ T)
    (h : Sound K (l.regionPages.take i) (fun _ => ∅) a) :
    ∃ a', newLoop l rounds i a = some a' ∧ Sound K l.regionPages (fun _ => ∅) a' := by
  have hlength := DatabaseLayout.length_regionPages l
  induction rounds generalizing i a with
  | zero =>
      rw [List.take_of_length_le (by omega)] at h
      exact ⟨a, rfl, h⟩
  | succ rounds ih =>
      obtain ⟨p, hp⟩ : ∃ p, l.regionPages[i]? = some p :=
        ⟨_, List.getElem?_eq_getElem (by omega)⟩
      have hbounds := hl.regionPages_bounds hp
      rw [hfull] at hbounds
      obtain ⟨allocator, hnew, hlen, howned⟩ := owned_new hK hbounds.2.1
      have hmax : allocator.maxOrder = K := howned.maxOrder
      obtain ⟨t, ht', hsound, hmarks⟩ := ht.markFree (o := allocator.maxOrder) (r := i)
        (by omega) (by omega)
      have htake : (l.regionPages.take i).length = i := by
        rw [List.length_take]
        omega
      have hpush := h.push allocator hsound (by omega) (fun {o r} hfree => by
        rcases (hmarks o r).mp hfree with hfree | hnew
        · exact Nat.le_of_lt (h.below hfree)
        · omega) howned
      rw [hlen, show l.regionPages.take i ++ [p] = l.regionPages.take (i + 1) by
        rw [List.take_add_one, hp]; rfl] at hpush
      obtain ⟨a', ha', h'⟩ := ih (by omega) hsound hpush
      refine ⟨a', ?_, h'⟩
      rw [newLoop, hl.regionLayout_eq hp, hfull]
      simp only [Option.bind_eq_bind, Option.bind_some, hnew, ht', ha']

theorem new_spec (hl : l.WellFormed) (hfull : l.fullRegionLayout.numPages = 2 ^ K)
    (hK : K ≤ maxMaxPageOrder) :
    ∃ a, new l = some a ∧ Sound K l.regionPages (fun _ => ∅) a := by
  obtain ⟨hsound, hmarks⟩ := RegionTracker.sound_new (max initialRegions l.numRegions)
  refine newLoop_spec hl hfull hK (Nat.zero_add _) hsound (Nat.le_max_right _ _)
    ⟨⟨_, hsound, Nat.zero_le _⟩, fun hfree => absurd hfree (hmarks _ _), rfl, ?_⟩
  intro r allocator hr
  cases hr

/-- A region is marked for each order of which it has a free page. -/
def Served (K : ℕ) (a : Allocators) (r : ℕ) : Prop :=
  ∀ {allocator}, a.regionAllocators[r]? = some allocator → ∀ o ≤ K,
    (∃ j, Buddy.block o j ⊆ allocator.freePages) → a.regionTracker.MayBeFree o r

/-- A region whose allocator has just been marked with its highest free order. -/
theorem exists_highestFree {allocator : BuddyAllocator} {s : Finset (ℕ × ℕ)}
    (h : Client.Owned (2 ^ K) K ⟨allocator, s⟩) (hfree : ∃ p, p ∈ allocator.freePages) :
    ∃ o, allocator.highestFreeOrder = some o ∧ o ≤ K ∧
      ∀ o' ≤ K, (∃ j, Buddy.block o' j ⊆ allocator.freePages) → o' ≤ o := by
  obtain ⟨hnone, hsome⟩ := BuddyAllocator.Valid.highestFreeOrder_spec h.wellFormed
  have hmax : allocator.maxOrder = K := h.maxOrder
  rcases ho : allocator.highestFreeOrder with _ | o
  · obtain ⟨p, hp⟩ := hfree
    rw [hnone ho] at hp
    exact absurd hp (Set.notMem_empty p)
  · obtain ⟨⟨hle, -⟩, hup⟩ := hsome o ho
    rw [hmax] at hle hup
    exact ⟨o, rfl, hle, fun o' ho' hfree' => hup ⟨ho', hfree'⟩⟩

/-- **Growing one region.** -/
theorem growRegion_spec (hl' : l'.WellFormed) (hfull : l'.fullRegionLayout.numPages = 2 ^ K)
    (hK : K ≤ maxMaxPageOrder) (hmax : l'.numRegions ≤ maxRegions) {old : List ℕ}
    (hpos : ∀ p ∈ old, 0 < p) (htaken : ∀ r, old.length ≤ r → taken r = ∅) {i p : ℕ}
    (hp : l'.regionPages[i]? = some p) (hle : ∀ q, old[i]? = some q → q ≤ p)
    (h : Sound K (l'.regionPages.take i ++ old.drop i) taken a) :
    ∃ a', growRegion l' old.length i a = some a' ∧
      Sound K (l'.regionPages.take (i + 1) ++ old.drop (i + 1)) taken a' ∧
      (∀ o r, a.regionTracker.MayBeFree o r → a'.regionTracker.MayBeFree o r) ∧
      (∀ r, r < i → a'.regionAllocators[r]? = a.regionAllocators[r]?) ∧
      (l'.regionPages[i]? ≠ old[i]? → Served K a' i) := by
  have hlength := DatabaseLayout.length_regionPages l'
  have hi := (List.getElem?_eq_some_iff.mp hp).1
  have hbounds := hl'.regionPages_bounds hp
  rw [hfull] at hbounds
  have htake : (l'.regionPages.take i).length = i := by
    rw [List.length_take]
    omega
  have hnext : l'.regionPages.take (i + 1) = l'.regionPages.take i ++ [p] := by
    rw [List.take_add_one, hp]
    rfl
  obtain ⟨T, ht, hT⟩ := h.tracker
  rw [growRegion, hl'.regionLayout_eq hp]
  simp only [Option.bind_eq_bind, Option.bind_some, hfull]
  rcases Nat.lt_or_ge i old.length with hlt | hge
  · -- An old region.
    obtain ⟨q, hq⟩ : ∃ q, old[i]? = some q := ⟨_, List.getElem?_eq_getElem hlt⟩
    have hqp := hle q hq
    have hdrop : old.drop i = q :: old.drop (i + 1) := by
      obtain ⟨hlt', hget⟩ := List.getElem?_eq_some_iff.mp hq
      rw [List.drop_eq_getElem_cons hlt', hget]
    have hpages : (l'.regionPages.take i ++ old.drop i)[i]? = some q := by
      rw [hdrop, List.getElem?_append_right (by omega), htake, Nat.sub_self,
        List.getElem?_cons_zero]
    have hset : (l'.regionPages.take i ++ old.drop i).set i p =
        l'.regionPages.take (i + 1) ++ old.drop (i + 1) := by
      rw [hdrop, List.set_append_right _ _ (by omega), htake, Nat.sub_self, List.set_cons_zero,
        hnext, List.append_assoc, List.singleton_append]
    obtain ⟨allocator, hallocator, hlen⟩ := h.exists_allocator hpages
    have howned := h.owned hallocator
    rw [if_pos hlt, hallocator]
    simp only [Option.bind_some, hlen]
    rw [if_neg (by omega)]
    by_cases heq : p = q
    · subst heq
      rw [if_pos rfl]
      refine ⟨a, rfl, ?_, fun o r hfree => hfree, fun r _ => rfl, fun hne => ?_⟩
      · obtain ⟨hlt', hget⟩ := List.getElem?_eq_some_iff.mp hpages
        rw [← hset, ← hget, List.set_getElem_self hlt']
        exact h
      · exact absurd (hp.trans hq.symm) hne
    · rw [if_neg heq]
      have hqpos := hpos q (List.mem_of_getElem? hq)
      obtain ⟨allocator', hresize, hlen', howned'⟩ :=
        (howned.resize_spec (small_two_pow hK) hbounds.2.1).1 ⟨fun _ => by
          rw [show Client.allocator ⟨allocator, taken i⟩ = allocator from rfl, hlen]
          exact hqpos, fun x hx => by
          have hbound := howned.parted.bounded x hx
          rw [show Client.allocator ⟨allocator, taken i⟩ = allocator from rfl, hlen] at hbound
          omega⟩
      have hfree : q ∈ allocator'.freePages := by
        refine (howned'.parted.free_iff q).mpr ⟨?_, fun x hx hmem => ?_⟩
        · rw [show Client.allocator ⟨allocator', taken i⟩ = allocator' from rfl, hlen']
          omega
        · have hbound := howned.parted.bounded x hx
          rw [show Client.allocator ⟨allocator, taken i⟩ = allocator from rfl, hlen] at hbound
          have hlast := (Buddy.mem_block.mp hmem).2
          omega
      obtain ⟨o, ho, hoK, hgreatest⟩ := exists_highestFree howned' ⟨q, hfree⟩
      have hiT : i < T := by
        have hlt' := (List.getElem?_eq_some_iff.mp hpages).1
        omega
      obtain ⟨t, hmark, hsound, hmarks⟩ := ht.markFree (o := o) (r := i) (by omega) hiT
      have hset' := (h.withTracker hsound hT fun {o' r} hfree' => by
        rcases (hmarks o' r).mp hfree' with hfree' | hnew
        · exact h.below hfree'
        · have hlt' := (List.getElem?_eq_some_iff.mp hpages).1
          omega).set (r := i) _ taken howned' fun _ _ => rfl
      rw [hlen', hset] at hset'
      refine ⟨⟨t, a.regionAllocators.set i allocator'⟩, ?_, hset',
        fun o' r hfree' => (hmarks o' r).mpr (.inl hfree'), fun r hr => ?_, fun _ => ?_⟩
      · have hresize' : allocator.resize p = some allocator' := hresize
        simp only [hresize', Option.bind_some, ho, hmark]
      · exact List.getElem?_set_ne (by omega)
      · intro allocator'' hallocator'' o' ho' hfree'
        have hself := List.getElem?_set_self (a := allocator')
          (List.getElem?_eq_some_iff.mp hallocator).1
        obtain rfl := Option.some.inj (hself.symm.trans hallocator'')
        exact (hmarks o' i).mpr (.inr ⟨rfl, hgreatest o' ho' hfree'⟩)
  · -- A new region.
    have hnil : old.drop i = [] := List.drop_eq_nil_of_le hge
    have hnil' : old.drop (i + 1) = [] := List.drop_eq_nil_of_le (by omega)
    rw [hnil, List.append_nil] at h hT
    rw [hnil', List.append_nil, if_neg (by omega)]
    obtain ⟨allocator, hnew, hlen, howned⟩ := owned_new hK hbounds.2.1
    have hfree : 0 ∈ allocator.freePages := (howned.parted.free_iff 0).mpr
      ⟨by rw [show Client.allocator ⟨allocator, ∅⟩ = allocator from rfl, hlen]; exact hbounds.1,
        fun x hx => absurd hx (Finset.notMem_empty x)⟩
    obtain ⟨o, ho, hoK, hgreatest⟩ := exists_highestFree howned ⟨0, hfree⟩
    rw [← htaken i hge] at howned
    obtain ⟨t, T', hresize, hsound, hT', hsame⟩ : ∃ t T',
        (if T ≤ i then a.regionTracker.resize (i + 1) else some a.regionTracker) = some t ∧
          t.Sound T' ∧ i < T' ∧
          ∀ o r, t.MayBeFree o r ↔ a.regionTracker.MayBeFree o r := by
      split_ifs with hcond
      · obtain ⟨t, ht', hsound, hsame⟩ := ht.resize (show T ≤ i + 1 by omega) (by omega)
        exact ⟨t, i + 1, ht', hsound, Nat.lt_succ_self i, hsame⟩
      · exact ⟨_, T, rfl, ht, by omega, fun _ _ => Iff.rfl⟩
    obtain ⟨t', hmark, hsound', hmarks⟩ := hsound.markFree (o := o) (r := i) (by omega) hT'
    have hpush := h.push allocator hsound' (by omega) (fun {o' r} hfree' => by
      rcases (hmarks o' r).mp hfree' with hfree' | hnew
      · exact Nat.le_of_lt (h.below ((hsame o' r).mp hfree'))
      · omega) (by rwa [htake])
    rw [hlen, ← hnext] at hpush
    have hregions : a.regionAllocators.length = i := h.length.trans htake
    refine ⟨_, ?_, hpush, fun o' r hfree' => (hmarks o' r).mpr (.inl ((hsame o' r).mpr hfree')),
      fun r hr => ?_, fun _ => ?_⟩
    · simp only [hnew, Option.bind_some, ho, ht.len_eq, hresize, hmark]
    · exact List.getElem?_append_left (by omega)
    · intro allocator'' hallocator'' o' ho' hfree'
      dsimp only at hallocator''
      rw [List.getElem?_append_right (by omega), hregions, Nat.sub_self,
        List.getElem?_cons_zero] at hallocator''
      obtain rfl := Option.some.inj hallocator''
      exact (hmarks o' i).mpr (.inr ⟨rfl, hgreatest o' ho' hfree'⟩)

/-- The regions of the new layout are served, as far as they have grown. -/
theorem growTo_spec (hl' : l'.WellFormed) (hfull : l'.fullRegionLayout.numPages = 2 ^ K)
    (hK : K ≤ maxMaxPageOrder) (hmax : l'.numRegions ≤ maxRegions) {old : List ℕ}
    (hpos : ∀ p ∈ old, 0 < p) (htaken : ∀ r, old.length ≤ r → taken r = ∅)
    (hlength : old.length ≤ l'.numRegions)
    (hle : ∀ r p q : ℕ, l'.regionPages[r]? = some p → old[r]? = some q → q ≤ p) {rounds i : ℕ}
    (hi : i + rounds = l'.numRegions) (h : Sound K (l'.regionPages.take i ++ old.drop i) taken a)
    (hserved : ∀ r < i, l'.regionPages[r]? ≠ old[r]? → Served K a r) :
    ∃ a', growTo l' old.length rounds i a = some a' ∧ Sound K l'.regionPages taken a' ∧
      (∀ o r, a.regionTracker.MayBeFree o r → a'.regionTracker.MayBeFree o r) ∧
      ∀ r < l'.numRegions, l'.regionPages[r]? ≠ old[r]? → Served K a' r := by
  have hlength' := DatabaseLayout.length_regionPages l'
  induction rounds generalizing i a with
  | zero =>
      obtain rfl : i = l'.numRegions := by omega
      rw [List.take_of_length_le (by omega), List.drop_eq_nil_of_le hlength, List.append_nil] at h
      exact ⟨a, rfl, h, fun o r hfree => hfree, hserved⟩
  | succ rounds ih =>
      obtain ⟨p, hp⟩ : ∃ p, l'.regionPages[i]? = some p :=
        ⟨_, List.getElem?_eq_getElem (by omega)⟩
      obtain ⟨a₁, ha₁, h₁, hmarks₁, hsame₁, hserved₁⟩ := growRegion_spec hl' hfull hK hmax hpos
        htaken hp (fun q hq => hle i p q hp hq) h
      obtain ⟨a', ha', h', hmarks', hserved'⟩ := ih (by omega) h₁ fun r hr hne => by
        rcases Nat.lt_succ_iff_lt_or_eq.mp hr with hlt | rfl
        · intro allocator hallocator o ho hfree
          rw [hsame₁ r hlt] at hallocator
          exact hmarks₁ o r (hserved r hlt hne hallocator o ho hfree)
        · exact hserved₁ hne
      refine ⟨a', ?_, h', fun o r hfree => hmarks' o r (hmarks₁ o r hfree), hserved'⟩
      rw [growTo, ha₁]
      exact ha'

/-- The last region of a layout is the one that its name says. -/
theorem regionPages_last (hl : l.WellFormed) :
    l.regionPages[l.numRegions - 1]? = some (lastRegion l).numPages := by
  have hpos := hl.numRegions_pos
  rw [lastRegion]
  rw [DatabaseLayout.numRegions] at hpos ⊢
  rw [DatabaseLayout.regionPages]
  rcases htrailing : l.trailingPartialRegion with _ | t
  · rw [htrailing] at hpos
    change (List.replicate _ _ ++ [])[l.numFullRegions - 1]? = _
    rw [List.append_nil, List.getElem?_replicate_of_lt (by
      rw [if_neg (by decide)] at hpos
      omega)]
    rfl
  · rw [if_pos Option.isSome_some, Nat.add_sub_cancel,
      List.getElem?_append_right (by rw [List.length_replicate]), List.length_replicate,
      Nat.sub_self]
    rfl

/-- How the layouts compare, as `resize_to` finds it. -/
theorem Sound.compareTo_eq (h : Sound K l.regionPages taken a) (hl : l.WellFormed)
    (l' : DatabaseLayout) :
    a.compareTo l' = some (if l'.numRegions < l.numRegions then .lt
      else if l.numRegions < l'.numRegions then .gt
      else compare (lastRegion l').numPages (lastRegion l).numPages) := by
  have hlength : a.regionAllocators.length = l.numRegions := by
    rw [h.length, DatabaseLayout.length_regionPages]
  have hpos := hl.numRegions_pos
  rw [compareTo, hlength]
  rcases Nat.lt_trichotomy l'.numRegions l.numRegions with hlt | heq | hgt
  · rw [compare_lt_iff_lt.mpr hlt, if_pos hlt]
  · obtain ⟨allocator, hallocator, hlen⟩ := h.exists_allocator (regionPages_last hl)
    rw [compare_eq_iff_eq.mpr heq, if_neg (by omega), if_neg (by omega),
      List.getLast?_eq_getElem?, hlength, hallocator, ← hlen]
    rfl
  · rw [compare_gt_iff_gt.mpr hgt, if_neg (by omega), if_pos hgt]

/-- The same regions. -/
theorem regionPages_congr (hl : l.WellFormed) (hl' : l'.WellFormed)
    (hfull : l'.fullRegionLayout.numPages = l.fullRegionLayout.numPages)
    (hregions : l'.numRegions = l.numRegions)
    (hlast : (lastRegion l').numPages = (lastRegion l).numPages) :
    l'.regionPages = l.regionPages := by
  rw [hl.regionPages_eq (regionPages_last hl), hl'.regionPages_eq (regionPages_last hl'), hfull,
    hregions, hlast]

/-- **Growing.** What was taken stays taken, and the regions that have grown are served. -/
theorem Sound.resizeTo_grow (h : Sound K l.regionPages taken a) (hl : l.WellFormed)
    (hl' : l'.WellFormed) (hfull : l.fullRegionLayout.numPages = 2 ^ K)
    (hfull' : l'.fullRegionLayout.numPages = 2 ^ K) (hK : K ≤ maxMaxPageOrder)
    (hmax : l'.numRegions ≤ maxRegions) (htaken : ∀ r, l.numRegions ≤ r → taken r = ∅)
    (hregions : l.numRegions ≤ l'.numRegions)
    (hlast : l.numRegions = l'.numRegions → (lastRegion l).numPages ≤ (lastRegion l').numPages) :
    ∃ a', a.resizeTo l' = some a' ∧ Sound K l'.regionPages taken a' ∧
      (∀ o r, a.regionTracker.MayBeFree o r → a'.regionTracker.MayBeFree o r) ∧
      ∀ r < l'.numRegions, l'.regionPages[r]? ≠ l.regionPages[r]? → Served K a' r := by
  have hlength := DatabaseLayout.length_regionPages l
  have hgrow : ∃ a', growTo l' a.regionAllocators.length l'.numRegions 0 a = some a' ∧
      Sound K l'.regionPages taken a' ∧
      (∀ o r, a.regionTracker.MayBeFree o r → a'.regionTracker.MayBeFree o r) ∧
      ∀ r < l'.numRegions, l'.regionPages[r]? ≠ l.regionPages[r]? → Served K a' r := by
    rw [h.length]
    refine growTo_spec hl' hfull' hK hmax (fun p hp => ?_) (by rwa [hlength]) (by rwa [hlength])
      (fun r p q hp hq => ?_) (Nat.zero_add _) (by rwa [List.take_zero, List.drop_zero]) (by omega)
    · obtain ⟨r, hr⟩ := List.getElem?_of_mem hp
      exact (hl.regionPages_bounds hr).1
    · have hbounds := hl.regionPages_bounds hq
      have hbounds' := hl'.regionPages_bounds hp
      rw [hfull'] at hbounds'
      rw [hfull] at hbounds
      by_cases hr : r + 1 < l'.numRegions
      · rw [hbounds'.2.2 hr]
        exact hbounds.2.1
      · have hlt := (List.getElem?_eq_some_iff.mp hp).1
        have hlt' := (List.getElem?_eq_some_iff.mp hq).1
        rw [DatabaseLayout.length_regionPages] at hlt hlt'
        have heq : l.numRegions = l'.numRegions := by omega
        obtain rfl : r = l.numRegions - 1 := by omega
        rw [regionPages_last hl] at hq
        rw [heq, regionPages_last hl'] at hp
        rw [← Option.some.inj hp, ← Option.some.inj hq]
        exact hlast heq
  rw [resizeTo, h.compareTo_eq hl]
  simp only [Option.bind_eq_bind, Option.bind_some]
  rw [if_neg (by omega)]
  rcases Nat.lt_or_ge l.numRegions l'.numRegions with hlt | hge
  · rw [if_pos hlt]
    exact hgrow
  · rw [if_neg (by omega)]
    have heq : l.numRegions = l'.numRegions := by omega
    rcases Nat.lt_or_eq_of_le (hlast heq) with hlt | hsame
    · rw [compare_gt_iff_gt.mpr hlt]
      exact hgrow
    · rw [compare_eq_iff_eq.mpr hsame.symm]
      have hpages := regionPages_congr hl hl' (hfull'.trans hfull.symm) heq.symm hsame.symm
      refine ⟨a, rfl, by rwa [hpages], fun o r hfree => hfree, fun r _ hne => ?_⟩
      rw [hpages] at hne
      exact absurd rfl hne

theorem markRemoved_spec {t : RegionTracker} {T rounds i : ℕ} (ht : t.Sound T)
    (hT : i + rounds ≤ T) :
    ∃ t', markRemoved rounds i t = some t' ∧ t'.Sound T ∧
      ∀ o r, t'.MayBeFree o r ↔ t.MayBeFree o r ∧ ¬ (i ≤ r ∧ r < i + rounds) := by
  induction rounds generalizing i t with
  | zero => exact ⟨t, rfl, ht, fun o r => (and_iff_left (by omega)).symm⟩
  | succ rounds ih =>
      obtain ⟨t₁, ht₁, hsound₁, hmarks₁⟩ := ht.markFull (o := 0) (r := i) (Nat.zero_le _) (by omega)
      obtain ⟨t', ht', hsound', hmarks'⟩ := ih hsound₁ (i := i + 1) (by omega)
      refine ⟨t', ?_, hsound', fun o r => ?_⟩
      · rw [markRemoved, ht₁]
        exact ht'
      · rw [hmarks', hmarks₁, and_assoc]
        refine and_congr_right fun _ => ?_
        omega

/-- **Shrinking.** What was taken stays taken; all of it must be among the pages that are left. -/
theorem Sound.resizeTo_shrink (h : Sound K l.regionPages taken a) (hl : l.WellFormed)
    (hl' : l'.WellFormed) (hfull : l.fullRegionLayout.numPages = 2 ^ K)
    (hfull' : l'.fullRegionLayout.numPages = 2 ^ K) (hK : K ≤ maxMaxPageOrder)
    (hregions : l'.numRegions ≤ l.numRegions)
    (hlast : l'.numRegions = l.numRegions → (lastRegion l').numPages ≤ (lastRegion l).numPages)
    (hfit : ∀ r, ∀ x ∈ taken r, ∃ p, l'.regionPages[r]? = some p ∧ (x.1 + 1) * 2 ^ x.2 ≤ p) :
    ∃ a', a.resizeTo l' = some a' ∧ Sound K l'.regionPages taken a' := by
  have hlength := DatabaseLayout.length_regionPages l
  have hlength' := DatabaseLayout.length_regionPages l'
  have hpos' := hl'.numRegions_pos
  have hshrink : ∃ a', a.shrinkTo l' = some a' ∧ Sound K l'.regionPages taken a' := by
    obtain ⟨T, ht, hT⟩ := h.tracker
    have hregions' : a.regionAllocators.length = l.numRegions := h.length.trans hlength
    obtain ⟨t, hmarked, hsound, hmarks⟩ := markRemoved_spec ht
      (show l'.numRegions + (a.regionAllocators.length - l'.numRegions) ≤ T by omega)
    obtain ⟨q, hq⟩ : ∃ q, l.regionPages[l'.numRegions - 1]? = some q :=
      ⟨_, List.getElem?_eq_getElem (by omega)⟩
    have hq' : (l.regionPages.take l'.numRegions)[l'.numRegions - 1]? = some q := by
      rw [List.getElem?_take_of_lt (by omega), hq]
    have hqle : (lastRegion l').numPages ≤ q := by
      have hbounds := hl.regionPages_bounds hq
      have hbounds' := hl'.regionPages_bounds (regionPages_last hl')
      by_cases heq : l'.numRegions = l.numRegions
      · rw [heq, regionPages_last hl] at hq
        rw [← Option.some.inj hq]
        exact hlast heq
      · rw [hbounds.2.2 (by omega), hfull, ← hfull']
        exact hbounds'.2.1
    have hrest : Sound K (l.regionPages.take l'.numRegions) taken
        ⟨t, a.regionAllocators.take l'.numRegions⟩ := by
      refine ⟨⟨T, hsound, ?_⟩, fun {o r} hfree => ?_, ?_, fun {r allocator} hr => ?_⟩
      · rw [List.length_take]
        omega
      · obtain ⟨hfree', hkept⟩ := (hmarks o r).mp hfree
        have hlt := h.below hfree'
        rw [List.length_take]
        omega
      · rw [List.map_take, h.lens]
      · rw [List.getElem?_take] at hr
        split_ifs at hr
        exact h.owned hr
    obtain ⟨allocator, hallocator, hlen⟩ := hrest.exists_allocator hq'
    have howned := hrest.owned hallocator
    have hpages : (l.regionPages.take l'.numRegions).set (l'.numRegions - 1)
        (lastRegion l').numPages = l'.regionPages := by
      refine List.ext_getElem? fun r => ?_
      rw [List.getElem?_set, List.getElem?_take]
      rcases Nat.lt_trichotomy r (l'.numRegions - 1) with hlt | rfl | hgt
      · obtain ⟨p, hp⟩ : ∃ p, l.regionPages[r]? = some p :=
          ⟨_, List.getElem?_eq_getElem (by omega)⟩
        obtain ⟨p', hp'⟩ : ∃ p', l'.regionPages[r]? = some p' :=
          ⟨_, List.getElem?_eq_getElem (by omega)⟩
        rw [if_neg (by omega), if_pos (by omega), hp, hp',
          (hl.regionPages_bounds hp).2.2 (by omega), hfull,
          (hl'.regionPages_bounds hp').2.2 (by omega), hfull']
      · rw [if_pos rfl, if_pos (List.getElem?_eq_some_iff.mp hq').1, regionPages_last hl']
      · rw [if_neg (by omega), if_neg (by omega), List.getElem?_eq_none (by omega)]
    have hlast' : (a.regionAllocators.take l'.numRegions).getLast? = some allocator := by
      rw [List.getLast?_eq_getElem?, List.length_take, Nat.min_eq_left (by omega)]
      exact hallocator
    rw [shrinkTo]
    simp only [Option.bind_eq_bind, hmarked, Option.bind_some, hlast', hlen]
    split_ifs with hlt
    · obtain ⟨allocator', hresize, hlen', howned'⟩ :=
        (howned.resize_spec (small_two_pow hK) (k := (lastRegion l').numPages) (by
          have hbounds' := hl'.regionPages_bounds (regionPages_last hl')
          rw [hfull'] at hbounds'
          exact hbounds'.2.1)).1 ⟨fun hgrow => by
            rw [show Client.allocator ⟨allocator, taken (l'.numRegions - 1)⟩ = allocator from rfl,
              hlen] at hgrow
            omega, fun x hx => by
            obtain ⟨p, hp, hle⟩ := hfit _ x hx
            rw [regionPages_last hl'] at hp
            rwa [Option.some.inj hp]⟩
      have hset := hrest.set _ taken howned' fun _ _ => rfl
      rw [hlen', hpages] at hset
      have hresize' : allocator.resize (lastRegion l').numPages = some allocator' := hresize
      refine ⟨_, ?_, hset⟩
      rw [hresize', Option.bind_some, List.length_take, Nat.min_eq_left (by omega)]
    · obtain rfl : q = (lastRegion l').numPages := by omega
      refine ⟨_, rfl, ?_⟩
      obtain ⟨hlt', hget⟩ := List.getElem?_eq_some_iff.mp hq'
      rw [← hpages]
      conv in List.set _ _ _ => rw [← hget]
      rw [List.set_getElem_self hlt']
      exact hrest
  rw [resizeTo, h.compareTo_eq hl]
  simp only [Option.bind_eq_bind, Option.bind_some]
  rcases Nat.lt_or_ge l'.numRegions l.numRegions with hlt | hge
  · rw [if_pos hlt]
    exact hshrink
  · have heq : l'.numRegions = l.numRegions := by omega
    rw [if_neg (by omega), if_neg (by omega)]
    rcases Nat.lt_or_eq_of_le (hlast heq) with hlt | hsame
    · rw [compare_lt_iff_lt.mpr hlt]
      exact hshrink
    · rw [compare_eq_iff_eq.mpr hsame]
      refine ⟨a, rfl, ?_⟩
      rwa [regionPages_congr hl hl' (hfull'.trans hfull.symm) heq hsame]

end Layouts

end Allocators

end Torpor.Redb
