import Mathlib.Data.Finset.Image
import Torpor.Redb.PageNumber
import Torpor.Redb.Region

/-!
# The Page Manager

The pages of a database file: they are allocated, released, kept by a commit or given back by a
rollback, while the file grows and shrinks by whole and partial regions. As in a debug build, the
allocated pages are recorded, and the manager panics if one is allocated or released twice. Whether
the file can be resized and written is up to the environment.

## Main results

* `exists_growth`: a database that grows gets a region with a free page of the requested order.
-/

namespace Torpor.Redb

/-- `ShrinkPolicy`. -/
inductive ShrinkPolicy
  | default
  | maximum
  | never
deriving DecidableEq

/-- `ceil_log2`. -/
def ceilLog2 (x : ℕ) : ℕ :=
  if 2 ^ x.log2 = x then x.log2 else if x = 0 then 0 else x.log2 + 1

/-- What `TransactionalMemory` knows of the pages, and the length of the file. -/
structure PageManager where
  layout : DatabaseLayout
  allocators : Allocators
  allocatedPages : Finset PageNumber
  allocatedSinceCommit : Finset PageNumber
  unpersisted : Finset PageNumber
  fileLen : ℕ
  needsRecovery : Bool

namespace PageManager

/-- `new`, for a layout of which the file has the length. -/
def new (layout : DatabaseLayout) : Option PageManager := do
  let allocators ← Allocators.new layout
  let len ← layout.len
  some ⟨layout, allocators, ∅, ∅, ∅, len, false⟩

/-- The allocation in one region, in `allocate_helper_retry`. -/
def allocateIn (region : BuddyAllocator) (order : ℕ) (lowest : Bool) :
    Option (Option (ℕ × BuddyAllocator)) :=
  if lowest then region.allocLowest order else region.alloc order

/-- `allocate_helper_retry`, for as many rounds as are given. -/
def allocateRetry (order : ℕ) (lowest : Bool) :
    ℕ → Allocators → Option (Option PageNumber × Allocators)
  | 0, _ => none
  | rounds + 1, a => do
      match ← a.regionTracker.findFree order with
      | none => some (none, a)
      | some candidate =>
          let region ← a.regionAllocators[candidate]?
          match ← allocateIn region order lowest with
          | some (page, region) =>
              let p ← PageNumber.new candidate page order
              some (some p, ⟨a.regionTracker, a.regionAllocators.set candidate region⟩)
          | none =>
              let tracker ← a.regionTracker.markFull order candidate
              allocateRetry order lowest rounds ⟨tracker, a.regionAllocators⟩

/-- `allocate_helper_retry`: each round without a result marks a further region as full. -/
def allocateHelperRetry (order : ℕ) (lowest : Bool) (a : Allocators) :
    Option (Option PageNumber × Allocators) :=
  allocateRetry order lowest (a.regionAllocators.length + 1) a

/-- The size of `grow`. -/
def nextDesiredSize (layout : DatabaseLayout) (order : ℕ) : Option ℕ :=
  let requiredGrowth := 2 ^ order * layout.fullRegionLayout.pageSize
  let maxRegionSize := layout.fullRegionLayout.numPages * layout.fullRegionLayout.pageSize
  if 0 < layout.numFullRegions then
    match layout.trailingPartialRegion with
    | some trailing =>
        if maxRegionSize < trailing.usableBytes then none
        else if 2 * requiredGrowth < maxRegionSize - trailing.usableBytes then
          some (layout.usableBytes + (maxRegionSize - trailing.usableBytes))
        else some (layout.usableBytes + 2 * maxRegionSize - trailing.usableBytes)
    | none => some (layout.usableBytes + maxRegionSize)
  else some (max (layout.usableBytes * 2) (layout.usableBytes + requiredGrowth * 2))

/-- `grow`, with whether the file can be resized: whether it succeeds. -/
def grow (s : PageManager) (order : ℕ) (resized : Bool) : Option (Bool × PageManager) := do
  let full := s.layout.fullRegionLayout
  let size ← nextDesiredSize s.layout order
  let layout ← DatabaseLayout.calculate size full.numPages full.headerPages full.pageSize
  let newLen ← layout.len
  let len ← s.layout.len
  if newLen < len then none
  else if resized then do
    let allocators ← s.allocators.resizeTo layout
    some (true, { s with layout, allocators, fileLen := newLen })
  else some (false, { s with needsRecovery := true })

/-- What `allocate_helper` records of a page. -/
def record (s : PageManager) (p : PageNumber) : Option (Option PageNumber × PageManager) :=
  if p ∈ s.allocatedPages then none
  else some (some p, { s with
    allocatedPages := insert p s.allocatedPages
    allocatedSinceCommit := insert p s.allocatedSinceCommit })

/-- The order of the pages for an allocation. -/
def requiredOrder (s : PageManager) (allocationSize : ℕ) : ℕ :=
  let pageSize := s.layout.fullRegionLayout.pageSize
  ceilLog2 ((allocationSize + pageSize - 1) / pageSize)

/-- `allocate_helper`, up to the buffer of the page: there is no page if the file cannot be
resized. -/
def allocate (s : PageManager) (allocationSize : ℕ) (lowest resized : Bool) :
    Option (Option PageNumber × PageManager) := do
  let order := s.requiredOrder allocationSize
  let (page, allocators) ← allocateHelperRetry order lowest s.allocators
  match page with
  | some p => record { s with allocators } p
  | none =>
      let (ok, s) ← grow { s with allocators } order resized
      if ok then do
        let (page, allocators) ← allocateHelperRetry order lowest s.allocators
        let p ← page
        record { s with allocators } p
      else some (none, s)

/-- The release in the region, and the mark. -/
def freeIn (a : Allocators) (p : PageNumber) : Option Allocators := do
  let region ← a.regionAllocators[p.region]?
  let region ← region.freePage p.pageIndex p.pageOrder
  let tracker ← a.regionTracker.markFree p.pageOrder p.region
  some ⟨tracker, a.regionAllocators.set p.region region⟩

/-- `free_helper`, and the releases of a rollback. -/
def freeHelper (s : PageManager) (p : PageNumber) : Option PageManager :=
  if p ∈ s.allocatedPages then do
    let allocators ← freeIn s.allocators p
    some { s with allocators, allocatedPages := s.allocatedPages.erase p }
  else none

/-- `free`. -/
def free (s : PageManager) (p : PageNumber) : Option PageManager :=
  freeHelper { s with allocatedSinceCommit := s.allocatedSinceCommit.erase p } p

/-- `free_if_uncommitted`: whether the page was released. -/
def freeIfUncommitted (s : PageManager) (p : PageNumber) : Option (Bool × PageManager) :=
  if p ∈ s.allocatedSinceCommit then
    (freeHelper { s with allocatedSinceCommit := s.allocatedSinceCommit.erase p } p).map (true, ·)
  else some (false, s)

/-- `free_if_unpersisted`: whether the page was released. -/
def freeIfUnpersisted (s : PageManager) (p : PageNumber) : Option (Bool × PageManager) :=
  if p ∈ s.unpersisted then
    (freeHelper { s with unpersisted := s.unpersisted.erase p } p).map (true, ·)
  else some (false, s)

/-- `try_shrink`: whether the layout has changed. -/
def tryShrink (s : PageManager) (force : Bool) : Option (Bool × PageManager) := do
  let last ← s.allocators.regionAllocators[s.layout.numRegions - 1]?
  let trailingFree ← last.trailingFreePages
  if trailingFree = 0 ∨ (trailingFree < last.len / 2 ∧ force = false) then some (false, s)
  else do
    let reduceBy := if 1 < s.layout.numRegions ∧ trailingFree = last.len then trailingFree
      else if force then min (last.len - 1) trailingFree
      else trailingFree / 2
    let layout ← s.layout.reduceLastRegion reduceBy
    let allocators ← s.allocators.resizeTo layout
    let newLen ← layout.len
    let len ← s.layout.len
    if len < newLen then none else some (true, { s with layout, allocators })

/-- The shrinking of a commit, according to the policy. -/
def shrinkBy (s : PageManager) : ShrinkPolicy → Option (Bool × PageManager)
  | .never => some (false, s)
  | .maximum => tryShrink s true
  | .default => tryShrink s false

/-- `commit`, with whether the header can be written and the file be resized. -/
def commit (s : PageManager) (policy : ShrinkPolicy) (written resized : Bool) :
    Option PageManager :=
  if s.needsRecovery then none
  else do
    let (shrunk, s) ← shrinkBy s policy
    if written = false ∨ (shrunk = true ∧ resized = false) then
      some { s with needsRecovery := true }
    else do
      let len ← s.layout.len
      some { s with
        allocatedSinceCommit := ∅
        unpersisted := ∅
        fileLen := if shrunk then len else s.fileLen }

/-- `non_durable_commit`. -/
def nonDurableCommit (s : PageManager) : Option PageManager :=
  if s.needsRecovery then none
  else some { s with
    unpersisted := s.unpersisted ∪ s.allocatedSinceCommit
    allocatedSinceCommit := ∅ }

/-- The releases of a rollback. -/
def freeAll : List PageNumber → PageManager → Option PageManager
  | [], s => some s
  | p :: pages, s => do
      let s ← freeHelper s p
      freeAll pages s

/-- `rollback_uncommitted_writes`: the set gives its pages in some order. -/
def rollback (s : PageManager) (pages : List PageNumber) : Option PageManager :=
  if s.needsRecovery then none
  else if pages.Nodup ∧ pages.toFinset = s.allocatedSinceCommit then
    (freeAll pages s).map fun s => { s with allocatedSinceCommit := ∅ }
  else none

/-- `count_allocated_pages`. -/
def countAllocatedPages (s : PageManager) : ℕ :=
  (s.allocators.regionAllocators.map BuddyAllocator.countAllocatedPages).sum

/-- `count_free_pages`. -/
def countFreePages (s : PageManager) : ℕ :=
  (s.allocators.regionAllocators.map BuddyAllocator.countFreePages).sum

/-- Where a page is in the file. -/
def addressRange (s : PageManager) (p : PageNumber) : Option (ℕ × ℕ) :=
  let full := s.layout.fullRegionLayout
  p.addressRange full.pageSize full.len (full.headerPages * full.pageSize) full.pageSize

/-! ### Growing -/

section Growth

variable {K : ℕ} {l : DatabaseLayout}

/-- A layout of full regions. -/
theorem exists_calculate_full (hl : l.WellFormed) (hfull : l.fullRegionLayout.numPages = 2 ^ K)
    (hK : K ≤ maxMaxPageOrder) {k : ℕ} (hk : 2 ≤ k) (hk32 : k < 2 ^ 32) :
    ∃ l', DatabaseLayout.calculate (k * 2 ^ K * l.fullRegionLayout.pageSize) (2 ^ K)
        l.fullRegionLayout.headerPages l.fullRegionLayout.pageSize = some l' ∧ l'.WellFormed ∧
      l'.fullRegionLayout = l.fullRegionLayout ∧ l'.regionPages = List.replicate k (2 ^ K) := by
  have hpos := Nat.two_pow_pos K
  have hsmall := Allocators.small_two_pow hK
  have hdiv : k * 2 ^ K / 2 ^ K = k := Nat.mul_div_cancel k hpos
  obtain ⟨l', hl', hwell, hfull', hpages⟩ := DatabaseLayout.calculate_spec
    (D := k * 2 ^ K) (N := 2 ^ K) l.fullRegionLayout.headerPages
    (Nat.mul_pos (by omega) hpos) hpos hl.pageSize_pos (by omega) (by rw [hdiv]; exact hk32)
  have hgt : ¬ k * 2 ^ K ≤ 2 ^ K := by
    have hmul : 2 * 2 ^ K ≤ k * 2 ^ K := Nat.mul_le_mul_right _ hk
    omega
  rw [if_neg hgt, hdiv, Nat.mul_mod_left, if_pos rfl, List.append_nil] at hpages
  refine ⟨l', hl', hwell, ?_, hpages⟩
  rw [hfull', ← hfull]

/-- A layout that a database grows to: there is a region with a block of the order that the database
did not have before. -/
structure Growth (o : ℕ) (l l' : DatabaseLayout) : Prop where
  wellFormed : l'.WellFormed
  full : l'.fullRegionLayout = l.fullRegionLayout
  regions : l.numRegions ≤ l'.numRegions ∧ l'.numRegions ≤ l.numRegions + 2
  last : l.numRegions = l'.numRegions →
    (Allocators.lastRegion l).numPages ≤ (Allocators.lastRegion l').numPages
  room : ∃ r p j : ℕ, l'.regionPages[r]? = some p ∧ (j + 1) * 2 ^ o ≤ p ∧
    (∀ q : ℕ, l.regionPages[r]? = some q → q ≤ j * 2 ^ o) ∧ l'.regionPages[r]? ≠ l.regionPages[r]?

/-- The last block of a full region. -/
theorem last_block {o : ℕ} (ho : o ≤ K) :
    (2 ^ (K - o) - 1 + 1) * 2 ^ o = 2 ^ K ∧ (2 ^ (K - o) - 1) * 2 ^ o = 2 ^ K - 2 ^ o := by
  have hpow : 2 ^ (K - o) * 2 ^ o = 2 ^ K := by rw [← Nat.pow_add, Nat.sub_add_cancel ho]
  have hpos := Nat.two_pow_pos (K - o)
  rw [Nat.sub_add_cancel hpos, Nat.sub_mul, hpow, Nat.one_mul]
  exact ⟨rfl, rfl⟩

/-- A database with full regions grows by full regions. -/
theorem exists_growth_full {full : RegionLayout} {f : ℕ} {trailing : Option RegionLayout}
    (hl : DatabaseLayout.WellFormed ⟨full, f, trailing⟩) (hfull : full.numPages = 2 ^ K)
    (hK : K ≤ maxMaxPageOrder) {o : ℕ} (ho : o ≤ K) (hf : 0 < f)
    (hmax : DatabaseLayout.numRegions ⟨full, f, trailing⟩ + 2 ≤ maxRegions) :
    ∃ size l', nextDesiredSize ⟨full, f, trailing⟩ o = some size ∧
      DatabaseLayout.calculate size full.numPages full.headerPages full.pageSize = some l' ∧
      Growth o ⟨full, f, trailing⟩ l' := by
  have hpow : 2 ^ o ≤ 2 ^ K := Nat.pow_le_pow_right (by omega) ho
  have husable := hl.usableBytes_eq
  have hps := hl.pageSize_pos
  dsimp only at husable hps
  rw [maxRegions] at hmax
  have hcalculate : ∀ {k}, 2 ≤ k → k < 2 ^ 32 → ∃ l', DatabaseLayout.calculate
      (k * 2 ^ K * full.pageSize) (2 ^ K) full.headerPages full.pageSize = some l' ∧
      l'.WellFormed ∧ l'.fullRegionLayout = full ∧ l'.regionPages = List.replicate k (2 ^ K) :=
    fun {k} hk hk32 => exists_calculate_full hl hfull hK hk hk32
  have hregions : ∀ {l' : DatabaseLayout} {k}, l'.regionPages = List.replicate k (2 ^ K) →
      l'.numRegions = k := fun {l' k} hpages => by
    rw [← DatabaseLayout.length_regionPages, hpages, List.length_replicate]
  rw [nextDesiredSize, if_pos hf, hfull]
  rcases trailing with _ | t
  · -- All regions are full: one more.
    have hpages : DatabaseLayout.regionPages ⟨full, f, none⟩ = List.replicate f (2 ^ K) := by
      rw [← hfull]
      exact List.append_nil _
    rw [hpages, List.sum_replicate_nat] at husable
    change f + 2 ≤ _ at hmax
    obtain ⟨l', hl', hwell, hfull', hpages'⟩ := hcalculate (k := f + 1) (by omega) (by omega)
    refine ⟨_, l', rfl, ?_, hwell, hfull', ?_, fun heq => ?_, f, 2 ^ K, 0, ?_, by omega, ?_, ?_⟩
    · rw [husable, ← Nat.add_mul, ← Nat.succ_mul]
      exact hl'
    · rw [hregions hpages', hregions hpages]
      omega
    · rw [hregions hpages', hregions hpages] at heq
      omega
    · rw [hpages', List.getElem?_replicate_of_lt (by omega)]
    · intro q hq
      rw [hpages, List.getElem?_eq_none (by rw [List.length_replicate])] at hq
      cases hq
    · rw [hpages, hpages', List.getElem?_replicate_of_lt (by omega),
        List.getElem?_eq_none (by rw [List.length_replicate])]
      exact Option.some_ne_none _
  · obtain ⟨htpos, htle, -, hsize⟩ := hl.trailing rfl
    dsimp only at htle hsize
    rw [hfull] at htle
    have hpages : DatabaseLayout.regionPages ⟨full, f, some t⟩ =
        List.replicate f (2 ^ K) ++ [t.numPages] := by
      rw [← hfull]
      rfl
    have htrailing : t.usableBytes = t.numPages * full.pageSize := by
      rw [RegionLayout.usableBytes, hsize, Nat.mul_comm]
    rw [hpages, List.sum_append, List.sum_replicate_nat, List.sum_singleton] at husable
    change f + 1 + 2 ≤ _ at hmax
    have hmul : t.numPages * full.pageSize ≤ 2 ^ K * full.pageSize := Nat.mul_le_mul_right _ htle
    have hlast : (DatabaseLayout.regionPages ⟨full, f, some t⟩)[f]? = some t.numPages := by
      rw [hpages, List.getElem?_append_right (by rw [List.length_replicate]),
        List.length_replicate, Nat.sub_self, List.getElem?_cons_zero]
    dsimp only
    rw [htrailing, if_neg (Nat.not_lt.mpr hmul), husable]
    split_ifs with hroom
    · -- The trailing region is filled out.
      have hroom' : 2 * 2 ^ o < 2 ^ K - t.numPages := by
        rw [← Nat.sub_mul, ← Nat.mul_assoc] at hroom
        exact Nat.lt_of_mul_lt_mul_right hroom
      obtain ⟨l', hl', hwell, hfull', hpages'⟩ := hcalculate (k := f + 1) (by omega) (by omega)
      have hnew : l'.regionPages[f]? = some (2 ^ K) := by
        rw [hpages', List.getElem?_replicate_of_lt (by omega)]
      obtain ⟨hblock, hstart⟩ := last_block ho
      refine ⟨_, l', rfl, ?_, hwell, hfull', ?_, fun _ => ?_, f, 2 ^ K, 2 ^ (K - o) - 1, hnew,
        hblock.le, ?_, ?_⟩
      · rw [show (f * 2 ^ K + t.numPages) * full.pageSize + (2 ^ K * full.pageSize -
          t.numPages * full.pageSize) = (f + 1) * 2 ^ K * full.pageSize by
            rw [Nat.add_mul, Nat.add_assoc, Nat.add_sub_cancel' hmul, ← Nat.add_mul,
              ← Nat.succ_mul]]
        exact hl'
      · rw [hregions hpages']
        exact ⟨le_rfl, Nat.le_add_right _ 2⟩
      · have hlast' := Allocators.regionPages_last hwell
        rw [hregions hpages', Nat.add_sub_cancel, hnew] at hlast'
        rw [← Option.some.inj hlast']
        exact htle
      · intro q hq
        obtain rfl := Option.some.inj (hlast.symm.trans hq)
        omega
      · rw [hnew, hlast]
        intro heq
        have := Option.some.inj heq
        omega
    · -- The trailing region is filled out, and one more.
      obtain ⟨l', hl', hwell, hfull', hpages'⟩ := hcalculate (k := f + 2) (by omega) (by omega)
      have hnew : l'.regionPages[f + 1]? = some (2 ^ K) := by
        rw [hpages', List.getElem?_replicate_of_lt (by omega)]
      have hnone : (DatabaseLayout.regionPages ⟨full, f, some t⟩)[f + 1]? = none := by
        rw [hpages]
        exact List.getElem?_eq_none (by
          rw [List.length_append, List.length_replicate, List.length_singleton])
      refine ⟨_, l', rfl, ?_, hwell, hfull', ?_, fun heq => ?_, f + 1, 2 ^ K, 0, hnew, by omega,
        ?_, ?_⟩
      · rw [show (f * 2 ^ K + t.numPages) * full.pageSize + 2 * (2 ^ K * full.pageSize) -
          t.numPages * full.pageSize = (f + 2) * 2 ^ K * full.pageSize by
            rw [Nat.add_mul, Nat.add_right_comm, Nat.add_sub_cancel, Nat.add_mul, Nat.add_mul,
              Nat.mul_assoc 2]]
        exact hl'
      · rw [hregions hpages']
        exact ⟨Nat.le_succ (f + 1), Nat.le_succ (f + 2)⟩
      · rw [hregions hpages'] at heq
        change f + 1 = f + 2 at heq
        omega
      · intro q hq
        rw [hnone] at hq
        cases hq
      · rw [hnew, hnone]
        exact Option.some_ne_none _

/-- A database that is one partial region doubles, or it grows by twice the pages that are
required. -/
theorem exists_growth_partial {full t : RegionLayout}
    (hl : DatabaseLayout.WellFormed ⟨full, 0, some t⟩) (hfull : full.numPages = 2 ^ K)
    (hK : K ≤ maxMaxPageOrder) {o : ℕ} (ho : o ≤ K) :
    ∃ size l', nextDesiredSize ⟨full, 0, some t⟩ o = some size ∧
      DatabaseLayout.calculate size full.numPages full.headerPages full.pageSize = some l' ∧
      Growth o ⟨full, 0, some t⟩ l' := by
  have hpow : 2 ^ o ≤ 2 ^ K := Nat.pow_le_pow_right (by omega) ho
  have hopos := Nat.two_pow_pos o
  have hsmall := Allocators.small_two_pow hK
  have husable := hl.usableBytes_eq
  have hps := hl.pageSize_pos
  obtain ⟨htpos, htle, -, hsize⟩ := hl.trailing rfl
  dsimp only at husable hps htle
  rw [hfull] at htle
  have hpages : DatabaseLayout.regionPages ⟨full, 0, some t⟩ = [t.numPages] := rfl
  rw [hpages, List.sum_singleton] at husable
  set D := max (2 * t.numPages) (t.numPages + 2 * 2 ^ o) with hD
  have hDle : D ≤ 3 * 2 ^ K := by omega
  have hdiv : D / 2 ^ K ≤ 3 := by
    rw [← Nat.lt_succ_iff, Nat.div_lt_iff_lt_mul (Nat.two_pow_pos K)]
    omega
  obtain ⟨l', hl', hwell, hfull', hpages'⟩ := DatabaseLayout.calculate_spec (D := D) (N := 2 ^ K)
    full.headerPages (by omega) (Nat.two_pow_pos K) hps (by omega) (by omega)
  have hlast := Allocators.regionPages_last hwell
  have hlength := DatabaseLayout.length_regionPages l'
  have hfull'' : l'.fullRegionLayout = full := by rw [hfull', ← hfull]
  refine ⟨D * full.pageSize, l', ?_, by rwa [hfull], ?_⟩
  · rw [nextDesiredSize, if_neg (Nat.lt_irrefl 0), husable, hD, ← Nat.mul_max_mul_right,
      Nat.mul_comm (t.numPages * full.pageSize), ← Nat.mul_assoc, Nat.add_mul,
      Nat.mul_comm (2 ^ o * full.pageSize), ← Nat.mul_assoc]
  by_cases hle : D ≤ 2 ^ K
  · -- The one region grows.
    rw [if_pos hle] at hpages'
    have hregions : l'.numRegions = 1 := by rw [← hlength, hpages']; rfl
    have hnew : l'.regionPages[0]? = some D := by rw [hpages']; rfl
    have hround := Nat.div_add_mod (t.numPages + 2 ^ o - 1) (2 ^ o)
    have hmod := Nat.mod_lt (t.numPages + 2 ^ o - 1) hopos
    rw [Nat.mul_comm] at hround
    refine ⟨hwell, hfull'', ?_, fun _ => ?_, 0, D, (t.numPages + 2 ^ o - 1) / 2 ^ o, hnew, ?_,
      fun q hq => ?_, ?_⟩
    · rw [hregions]
      exact ⟨le_rfl, Nat.le_add_right 1 2⟩
    · rw [hregions, hnew] at hlast
      rw [← Option.some.inj hlast]
      change t.numPages ≤ D
      omega
    · rw [Nat.add_mul, Nat.one_mul]
      omega
    · obtain rfl := Option.some.inj hq
      omega
    · rw [hnew, hpages, List.getElem?_cons_zero]
      intro heq
      have := Option.some.inj heq
      omega
  · rw [if_neg hle] at hpages'
    have hfirst : 0 < D / 2 ^ K := Nat.div_pos (by omega) (Nat.two_pow_pos K)
    have hrest := Nat.div_add_mod D (2 ^ K)
    have hrest' := Nat.mod_lt D (Nat.two_pow_pos K)
    have hregions : 2 ≤ l'.numRegions ∧ l'.numRegions ≤ 3 := by
      rw [← hlength, hpages', List.length_append, List.length_replicate]
      split_ifs with hzero
      · rw [List.length_nil]
        rw [hzero] at hrest
        refine ⟨?_, by omega⟩
        by_contra hlt
        rw [show D / 2 ^ K = 1 by omega] at hrest
        omega
      · rw [List.length_singleton]
        refine ⟨by omega, ?_⟩
        by_contra hgt
        rw [show D / 2 ^ K = 3 by omega] at hrest
        omega
    refine ⟨hwell, hfull'', ⟨Nat.le_of_lt hregions.1, hregions.2⟩, fun heq => ?_, ?_⟩
    · rw [← heq] at hregions
      exact absurd hregions.1 (by change ¬ 2 ≤ 1; omega)
    by_cases hroom : 2 ^ o ≤ 2 ^ K - t.numPages
    · -- There is room behind the old pages of the first region.
      have hnew : l'.regionPages[0]? = some (2 ^ K) := by
        rw [hpages', List.getElem?_append_left (by rwa [List.length_replicate]),
          List.getElem?_replicate_of_lt hfirst]
      obtain ⟨hblock, hstart⟩ := last_block ho
      refine ⟨0, 2 ^ K, 2 ^ (K - o) - 1, hnew, hblock.le, fun q hq => ?_, ?_⟩
      · obtain rfl := Option.some.inj hq
        omega
      · rw [hnew, hpages, List.getElem?_cons_zero]
        intro heq
        have := Option.some.inj heq
        omega
    · -- There is room in the second region.
      have hnone : (DatabaseLayout.regionPages ⟨full, 0, some t⟩)[1]? = none := rfl
      obtain ⟨p, hp, hple⟩ : ∃ p, l'.regionPages[1]? = some p ∧ 2 ^ o ≤ p := by
        rw [hpages']
        by_cases hmore : 1 < D / 2 ^ K
        · exact ⟨2 ^ K, by
            rw [List.getElem?_append_left (by rwa [List.length_replicate]),
              List.getElem?_replicate_of_lt hmore], hpow⟩
        · have hone : D / 2 ^ K = 1 := by omega
          rw [hone] at hrest ⊢
          rw [if_neg (by omega)]
          exact ⟨D % 2 ^ K, rfl, by omega⟩
      refine ⟨1, p, 0, hp, by omega, fun q hq => ?_, ?_⟩
      · rw [hnone] at hq
        cases hq
      · rw [hp, hnone]
        exact Option.some_ne_none _

/-- **Growing.** A database grows to a layout with a new block of the requested order. -/
theorem exists_growth (hl : l.WellFormed) (hfull : l.fullRegionLayout.numPages = 2 ^ K)
    (hK : K ≤ maxMaxPageOrder) {o : ℕ} (ho : o ≤ K) (hmax : l.numRegions + 2 ≤ maxRegions) :
    ∃ size l', nextDesiredSize l o = some size ∧
      DatabaseLayout.calculate size l.fullRegionLayout.numPages l.fullRegionLayout.headerPages
        l.fullRegionLayout.pageSize = some l' ∧
      Growth o l l' := by
  obtain ⟨full, f, trailing⟩ := l
  rcases Nat.eq_zero_or_pos f with rfl | hf
  · rcases trailing with _ | t
    · exact absurd hl.numRegions_pos (Nat.lt_irrefl 0)
    · exact exists_growth_partial hl hfull hK ho
  · exact exists_growth_full hl hfull hK ho hf hmax

/-- The length of a layout with at least as many pages. -/
theorem len_le {l' : DatabaseLayout} (hl : l.WellFormed) (hl' : l'.WellFormed)
    (hfull : l'.fullRegionLayout = l.fullRegionLayout) (hregions : l.numRegions ≤ l'.numRegions)
    (hlast : l.numRegions = l'.numRegions →
      (Allocators.lastRegion l).numPages ≤ (Allocators.lastRegion l').numPages) :
    ∃ n n', l.len = some n ∧ l'.len = some n' ∧ n ≤ n' := by
  have hpos := hl.numRegions_pos
  have hlen := hl.len_eq (Allocators.regionPages_last hl)
  have hlen' := hl'.len_eq (Allocators.regionPages_last hl')
  rw [hfull] at hlen'
  refine ⟨_, _, hlen, hlen', ?_⟩
  have hbounds := hl.regionPages_bounds (Allocators.regionPages_last hl)
  have hF : l.fullRegionLayout.len =
      (l.fullRegionLayout.headerPages + l.fullRegionLayout.numPages) *
        l.fullRegionLayout.pageSize := by
    rw [RegionLayout.len, RegionLayout.usableBytes]
    ring
  rcases Nat.lt_or_eq_of_le hregions with hlt | heq
  · have hmul : (l.numRegions - 1 + 1) * l.fullRegionLayout.len ≤
        (l'.numRegions - 1) * l.fullRegionLayout.len := Nat.mul_le_mul_right _ (by omega)
    have hpages : (l.fullRegionLayout.headerPages + (Allocators.lastRegion l).numPages) *
        l.fullRegionLayout.pageSize ≤ l.fullRegionLayout.len := by
      rw [hF]
      exact Nat.mul_le_mul_right _ (Nat.add_le_add_left hbounds.2.1 _)
    rw [Nat.succ_mul] at hmul
    omega
  · have hpages : (l.fullRegionLayout.headerPages + (Allocators.lastRegion l).numPages) *
        l.fullRegionLayout.pageSize ≤
        (l.fullRegionLayout.headerPages + (Allocators.lastRegion l').numPages) *
          l.fullRegionLayout.pageSize :=
      Nat.mul_le_mul_right _ (Nat.add_le_add_left (hlast heq) _)
    rw [← heq]
    omega

end Growth

end PageManager

end Torpor.Redb
