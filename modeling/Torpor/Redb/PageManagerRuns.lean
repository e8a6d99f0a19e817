import Torpor.Lib.Machine
import Torpor.Redb.PageManagerSteps

/-!
# Runs of the Page Manager

A database allocates, releases, commits and rolls back in any order. Its callers release only pages
that they have, and they ask for no page that is larger than a region; before a commit has failed,
they commit and roll back.

## Main results

* `Inv.perform`: what the manager knows stays right, and no request that is allowed panics.
* `run_pages`: in every run the pages are apart in the file and behind its header, and are counted.
* `run_allocate`: in every run an allocation is served, with a page that is large enough and was
  not allocated before, if the file can be resized.
* `run_rollback`: a rollback takes back what a transaction has allocated, and nothing else.
-/

namespace Torpor.Redb

open Buddy

namespace PageManager

/-- What a database asks of the page manager. -/
inductive Request
  | allocate (allocationSize : ℕ) (lowest resized : Bool)
  | free (page : PageNumber)
  | freeIfUncommitted (page : PageNumber)
  | freeIfUnpersisted (page : PageNumber)
  | commit (policy : ShrinkPolicy) (written resized : Bool)
  | nonDurableCommit
  | rollback (pages : List PageNumber)

/-- What the callers see to: a page fits in a region, and the file has room for two more regions; a
page that is released is allocated, and is one of a former commit where it is released as such;
after a failed commit there is no further one. -/
def Allowed (s : PageManager) : Request → Prop
  | .allocate size _ _ => 2 ^ s.requiredOrder size ≤ s.layout.fullRegionLayout.numPages ∧
      s.layout.numRegions + 2 ≤ maxRegions
  | .free p => p ∈ s.allocatedPages
  | .freeIfUncommitted _ => True
  | .freeIfUnpersisted p =>
      p ∈ s.unpersisted → p ∈ s.allocatedPages ∧ p ∉ s.allocatedSinceCommit
  | .commit _ _ _ => s.needsRecovery = false
  | .nonDurableCommit => s.needsRecovery = false
  | .rollback pages =>
      s.needsRecovery = false ∧ pages.Nodup ∧ pages.toFinset = s.allocatedSinceCommit

instance (s : PageManager) : DecidablePred s.Allowed := fun r => by
  cases r <;> unfold Allowed <;> infer_instance

/-- What the manager makes of a request. -/
def perform (s : PageManager) : Request → Option PageManager
  | .allocate size lowest resized => (s.allocate size lowest resized).map Prod.snd
  | .free p => s.free p
  | .freeIfUncommitted p => (s.freeIfUncommitted p).map Prod.snd
  | .freeIfUnpersisted p => (s.freeIfUnpersisted p).map Prod.snd
  | .commit policy written resized => s.commit policy written resized
  | .nonDurableCommit => s.nonDurableCommit
  | .rollback pages => s.rollback pages

/-- One request, if it is allowed. -/
def step (s : PageManager) (r : Request) : Option PageManager :=
  if s.Allowed r then s.perform r else none

/-- What the manager knows is right: of the pages, of those since the last commit, and of the
length of the file, which is that of a layout. -/
structure Inv (K : ℕ) (F : RegionLayout) (s : PageManager) : Prop where
  placed : Placed K F s.layout s.allocatedPages s.allocators
  since : s.allocatedSinceCommit ⊆ s.allocatedPages
  file : ∃ l : DatabaseLayout, l.WellFormed ∧ l.fullRegionLayout = F ∧ l.numRegions ≤ maxRegions ∧
    l.len = some s.fileLen
  fits : ∃ n, s.layout.len = some n ∧ n ≤ s.fileLen ∧ (s.needsRecovery = false → n = s.fileLen)

/-! ### Steps -/

theorem le_two_pow_ceilLog2 (x : ℕ) : x ≤ 2 ^ ceilLog2 x := by
  rw [ceilLog2]
  split_ifs with hpow hzero
  · exact hpow.ge
  · omega
  · exact (Nat.lt_log2_self (n := x)).le

section Steps

variable {K : ℕ} {F : RegionLayout} {s : PageManager}

/-- **Allocation.** A page that was not allocated, of the required order, if the file can be
resized. -/
theorem Inv.allocate_spec (h : Inv K F s) {size : ℕ} (ho : s.requiredOrder size ≤ K)
    (hmax : s.layout.numRegions + 2 ≤ maxRegions) (lowest resized : Bool) :
    ∃ res s', s.allocate size lowest resized = some (res, s') ∧ Inv K F s' ∧
      (res = none → resized = false ∧ s'.needsRecovery = true ∧
        s'.allocatedPages = s.allocatedPages ∧
        s'.allocatedSinceCommit = s.allocatedSinceCommit) ∧
      (∀ p, res = some p → p ∉ s.allocatedPages ∧ p.pageOrder = s.requiredOrder size ∧
        s'.allocatedPages = insert p s.allocatedPages ∧
        s'.allocatedSinceCommit = insert p s.allocatedSinceCommit) ∧
      (s.layout.len = some s.fileLen → s'.layout.len = some s'.fileLen ∧
        s.fileLen ≤ s'.fileLen) := by
  have hK := h.placed.order_le
  set o := s.requiredOrder size with hdef
  obtain ⟨res, a, hres, hnone, hsome⟩ :=
    h.placed.allocateHelperRetry_spec (o := o) (ho.trans hK) lowest
  rw [allocate, ← hdef, hres]
  simp only [Option.bind_eq_bind, Option.bind_some]
  rcases res with _ | p
  · -- No region has a page of the order: the database grows.
    obtain ⟨hplaced, -⟩ := hnone rfl
    obtain ⟨s₁, hgrow, hfailed, hgrown⟩ := Placed.grow_spec
      (s := { s with allocators := a }) hplaced ho hmax resized
    dsimp only
    rw [hgrow]
    simp only [Option.bind_some]
    cases resized with
    | false =>
        obtain rfl := hfailed rfl
        obtain ⟨n, hn, hle, -⟩ := h.fits
        exact ⟨none, _, rfl, ⟨hplaced, h.since, h.file, n, hn, hle, fun heq => by cases heq⟩,
          fun _ => ⟨rfl, rfl, rfl, rfl⟩, fun p heq => (by cases heq),
          fun hexact => ⟨hexact, le_rfl⟩⟩
    | true =>
        obtain ⟨l', a', n, rfl, hplaced', hn, ⟨m, hm, hle⟩, r, hfree, hnot⟩ := hgrown rfl
        obtain ⟨res', a'', hres', hnone', hsome'⟩ :=
          hplaced'.allocateHelperRetry_spec (o := o) (ho.trans hK) lowest
        rw [if_pos rfl]
        dsimp only
        rw [hres']
        simp only [Option.bind_some]
        rcases res' with _ | p
        · exact absurd ((hnone' rfl).2 r hfree) hnot
        · obtain ⟨hfresh, horder, hplaced''⟩ := hsome' p rfl
          refine ⟨some p, { s with
              layout := l'
              allocators := a''
              allocatedPages := insert p s.allocatedPages
              allocatedSinceCommit := insert p s.allocatedSinceCommit
              fileLen := n }, ?_,
            ⟨hplaced'', Finset.insert_subset_insert p h.since,
              ⟨l', hplaced'.wellFormed, hplaced'.full, hplaced'.regions, hn⟩,
              n, hn, le_rfl, fun _ => rfl⟩, fun heq => (by cases heq), fun q heq => ?_,
            fun hexact => ⟨hn, ?_⟩⟩
          · rw [Option.bind_some, record, if_neg hfresh]
          · obtain rfl := Option.some.inj heq
            exact ⟨hfresh, horder, rfl, rfl⟩
          · obtain rfl := Option.some.inj (hm.symm.trans hexact)
            exact hle
  · obtain ⟨hfresh, horder, hplaced⟩ := hsome p rfl
    refine ⟨some p, { s with
        allocators := a
        allocatedPages := insert p s.allocatedPages
        allocatedSinceCommit := insert p s.allocatedSinceCommit }, ?_,
      ⟨hplaced, Finset.insert_subset_insert p h.since, h.file, h.fits⟩, fun heq => (by cases heq),
      fun q heq => ?_, fun hexact => ⟨hexact, le_rfl⟩⟩
    · dsimp only
      rw [record, if_neg hfresh]
    · obtain rfl := Option.some.inj heq
      exact ⟨hfresh, horder, rfl, rfl⟩

/-- The layout and the length of the file are as before. -/
def SameFile (s s' : PageManager) : Prop := s'.layout = s.layout ∧ s'.fileLen = s.fileLen

/-- The release of an allocated page that was not allocated since the commit. -/
theorem Inv.free_kept (h : Inv K F s) {p : PageNumber} (hp : p ∈ s.allocatedPages)
    (hsince : p ∉ s.allocatedSinceCommit) :
    ∃ a', s.freeHelper p =
        some { s with allocators := a', allocatedPages := s.allocatedPages.erase p } ∧
      Inv K F { s with allocators := a', allocatedPages := s.allocatedPages.erase p } := by
  obtain ⟨a', ha', hplaced⟩ := h.placed.freeHelper_spec hp
  exact ⟨a', ha', hplaced, Finset.subset_erase.mpr ⟨h.since, hsince⟩, h.file, h.fits⟩

/-- **Release.** -/
theorem Inv.free_spec (h : Inv K F s) {p : PageNumber} (hp : p ∈ s.allocatedPages) :
    ∃ s', s.free p = some s' ∧ Inv K F s' ∧ SameFile s s' ∧
      s'.allocatedPages = s.allocatedPages.erase p ∧
      s'.allocatedSinceCommit = s.allocatedSinceCommit.erase p := by
  have h' : Inv K F { s with allocatedSinceCommit := s.allocatedSinceCommit.erase p } :=
    ⟨h.placed, (Finset.erase_subset p _).trans h.since, h.file, h.fits⟩
  obtain ⟨a', ha', hinv⟩ := h'.free_kept hp (Finset.notMem_erase p _)
  exact ⟨_, ha', hinv, ⟨rfl, rfl⟩, rfl, rfl⟩

theorem Inv.freeIfUncommitted_spec (h : Inv K F s) (p : PageNumber) :
    ∃ freed s', s.freeIfUncommitted p = some (freed, s') ∧ Inv K F s' ∧ SameFile s s' ∧
      (p ∉ s.allocatedSinceCommit → s' = s) ∧
      (p ∈ s.allocatedSinceCommit → s'.allocatedPages = s.allocatedPages.erase p ∧
        s'.allocatedSinceCommit = s.allocatedSinceCommit.erase p) := by
  rw [freeIfUncommitted]
  split_ifs with hp
  · obtain ⟨s', hs', hinv, hfile, hpages, hsince⟩ := h.free_spec (h.since hp)
    rw [free] at hs'
    exact ⟨true, s', by rw [hs']; rfl, hinv, hfile, fun hnot => absurd hp hnot,
      fun _ => ⟨hpages, hsince⟩⟩
  · exact ⟨false, s, rfl, h, ⟨rfl, rfl⟩, fun _ => rfl, fun hmem => absurd hmem hp⟩

theorem Inv.freeIfUnpersisted_spec (h : Inv K F s) {p : PageNumber}
    (hp : p ∈ s.unpersisted → p ∈ s.allocatedPages ∧ p ∉ s.allocatedSinceCommit) :
    ∃ freed s', s.freeIfUnpersisted p = some (freed, s') ∧ Inv K F s' ∧ SameFile s s' := by
  rw [freeIfUnpersisted]
  split_ifs with hmem
  · have h' : Inv K F { s with unpersisted := s.unpersisted.erase p } :=
      ⟨h.placed, h.since, h.file, h.fits⟩
    obtain ⟨a', ha', hinv⟩ := h'.free_kept (hp hmem).1 (hp hmem).2
    exact ⟨true, _, by rw [ha']; rfl, hinv, rfl, rfl⟩
  · exact ⟨false, s, rfl, h, rfl, rfl⟩

/-- The layout may be shorter than the file while a commit is under way. -/
theorem Inv.shrinkBy_spec (h : Inv K F s) (policy : ShrinkPolicy) :
    ∃ shrunk s', s.shrinkBy policy = some (shrunk, s') ∧ (shrunk = false → s' = s) ∧
      (shrunk = true → ∃ l' a' n, s' = { s with layout := l', allocators := a' } ∧
        l'.len = some n ∧ n ≤ s.fileLen ∧ Placed K F l' s.allocatedPages a') := by
  have hshrink : ∀ force, ∃ shrunk s', s.tryShrink force = some (shrunk, s') ∧
      (shrunk = false → s' = s) ∧
      (shrunk = true → ∃ l' a' n, s' = { s with layout := l', allocators := a' } ∧
        l'.len = some n ∧ n ≤ s.fileLen ∧ Placed K F l' s.allocatedPages a') := fun force => by
    obtain ⟨shrunk, s', hs', hkept, hshrunk⟩ := h.placed.tryShrink_spec force
    refine ⟨shrunk, s', hs', hkept, fun heq => ?_⟩
    obtain ⟨l', a', n, n', rfl, hn, hn', hle, hplaced⟩ := hshrunk heq
    obtain ⟨m, hm, hmle, -⟩ := h.fits
    obtain rfl := Option.some.inj (hn.symm.trans hm)
    exact ⟨l', a', n', rfl, hn', hle.trans hmle, hplaced⟩
  cases policy with
  | default => exact hshrink false
  | maximum => exact hshrink true
  | never => exact ⟨false, s, rfl, fun _ => rfl, fun heq => by cases heq⟩

/-- **Commit.** -/
theorem Inv.commit_spec (h : Inv K F s) (hok : s.needsRecovery = false) (policy : ShrinkPolicy)
    (written resized : Bool) :
    ∃ s', s.commit policy written resized = some s' ∧ Inv K F s' ∧
      s'.allocatedPages = s.allocatedPages := by
  obtain ⟨n, hn, hnle, hneq⟩ := h.fits
  obtain ⟨shrunk, s₁, hs₁, hkept, hshrunk⟩ := h.shrinkBy_spec policy
  rw [commit, if_neg (by rw [hok]; decide), hs₁]
  simp only [Option.bind_eq_bind, Option.bind_some]
  by_cases hfailed : written = false ∨ (shrunk = true ∧ resized = false)
  · rw [if_pos hfailed]
    cases shrunk with
    | false =>
        obtain rfl := hkept rfl
        exact ⟨_, rfl, ⟨h.placed, h.since, h.file, n, hn, hnle, fun heq => (by cases heq)⟩, rfl⟩
    | true =>
        obtain ⟨l', a', n', rfl, hn', hle, hplaced⟩ := hshrunk rfl
        exact ⟨_, rfl, ⟨hplaced, h.since, h.file, n', hn', hle, fun heq => (by cases heq)⟩, rfl⟩
  · rw [if_neg hfailed]
    cases shrunk with
    | false =>
        obtain rfl := hkept rfl
        refine ⟨{ s₁ with allocatedSinceCommit := ∅, unpersisted := ∅ }, ?_,
          ⟨h.placed, Finset.empty_subset _, h.file, n, hn, hnle, hneq⟩, rfl⟩
        rw [hn]
        rfl
    | true =>
        obtain ⟨l', a', n', rfl, hn', hle, hplaced⟩ := hshrunk rfl
        refine ⟨{ s with
            layout := l'
            allocators := a'
            allocatedSinceCommit := ∅
            unpersisted := ∅
            fileLen := n' }, ?_, ⟨hplaced, Finset.empty_subset _,
          ⟨l', hplaced.wellFormed, hplaced.full, hplaced.regions, hn'⟩, n', hn', le_rfl,
          fun _ => rfl⟩, rfl⟩
        rw [hn']
        rfl

/-- **Rollback.** -/
theorem Inv.rollback_spec (h : Inv K F s) (hok : s.needsRecovery = false) {pages : List PageNumber}
    (hnodup : pages.Nodup) (hpages : pages.toFinset = s.allocatedSinceCommit) :
    ∃ s', s.rollback pages = some s' ∧ Inv K F s' ∧ SameFile s s' ∧
      s'.allocatedPages = s.allocatedPages \ s.allocatedSinceCommit := by
  obtain ⟨a', ha', hplaced⟩ := h.placed.freeAll_spec hnodup fun p hp =>
    h.since (by rw [← hpages]; exact List.mem_toFinset.mpr hp)
  rw [rollback, if_neg (by rw [hok]; decide), if_pos ⟨hnodup, hpages⟩, ha']
  exact ⟨_, rfl, ⟨hplaced, Finset.empty_subset _, h.file, h.fits⟩, ⟨rfl, rfl⟩, by rw [hpages]⟩

/-- **Step.** What the manager knows stays right, and no request that is allowed panics. -/
theorem Inv.perform (h : Inv K F s) {r : Request} (hr : s.Allowed r) :
    ∃ s', s.perform r = some s' ∧ Inv K F s' := by
  cases r with
  | allocate size lowest resized =>
      obtain ⟨hfits, hmax⟩ := hr
      rw [h.placed.capacity_eq, Nat.pow_le_pow_iff_right (by omega)] at hfits
      obtain ⟨res, s', hs', hinv, -⟩ := h.allocate_spec hfits hmax lowest resized
      exact ⟨s', by rw [PageManager.perform, hs']; rfl, hinv⟩
  | free p =>
      obtain ⟨s', hs', hinv, -⟩ := h.free_spec hr
      exact ⟨s', hs', hinv⟩
  | freeIfUncommitted p =>
      obtain ⟨freed, s', hs', hinv, -⟩ := h.freeIfUncommitted_spec p
      exact ⟨s', by rw [PageManager.perform, hs']; rfl, hinv⟩
  | freeIfUnpersisted p =>
      obtain ⟨freed, s', hs', hinv, -⟩ := h.freeIfUnpersisted_spec hr
      exact ⟨s', by rw [PageManager.perform, hs']; rfl, hinv⟩
  | commit policy written resized =>
      obtain ⟨s', hs', hinv, -⟩ := h.commit_spec hr policy written resized
      exact ⟨s', hs', hinv⟩
  | nonDurableCommit =>
      refine ⟨_, by rw [PageManager.perform, nonDurableCommit, if_neg (by rw [hr]; decide)], ?_⟩
      exact ⟨h.placed, Finset.empty_subset _, h.file, h.fits⟩
  | rollback pages =>
      obtain ⟨hok, hnodup, hpages⟩ := hr
      obtain ⟨s', hs', hinv, -⟩ := h.rollback_spec hok hnodup hpages
      exact ⟨s', hs', hinv⟩

end Steps

/-! ### Where the pages are -/

section Places

variable {K : ℕ} {F : RegionLayout} {s : PageManager} {l : DatabaseLayout}
  {pages : Finset PageNumber} {a : Allocators}

/-- Where the bytes of a page start. -/
def start (F : RegionLayout) (p : PageNumber) : ℕ :=
  F.pageSize + p.region * F.len +
    (F.headerPages + p.pageIndex * 2 ^ p.pageOrder) * F.pageSize

theorem len_eq (F : RegionLayout) : F.len = (F.headerPages + F.numPages) * F.pageSize := by
  rw [RegionLayout.len, RegionLayout.usableBytes, Nat.mul_comm F.pageSize, Nat.add_mul]

/-- The place of a page in the file: behind the header, and before the end of its region. -/
theorem Placed.addressRange_spec (h : Placed K F s.layout pages a) {p : PageNumber}
    (hp : p ∈ pages) :
    s.addressRange p = some (start F p, start F p + p.pageSizeBytes F.pageSize) ∧
      F.pageSize ≤ start F p ∧ start F p < start F p + p.pageSizeBytes F.pageSize ∧
      (∀ n, s.layout.len = some n → start F p + p.pageSizeBytes F.pageSize ≤ n) ∧
      start F p + p.pageSizeBytes F.pageSize ≤ F.pageSize + (p.region + 1) * F.len ∧
      F.pageSize + p.region * F.len ≤ start F p := by
  obtain ⟨q, hq, -, hbound⟩ := h.exists_regionPages hp
  have hlt := h.placed p hp
  have hps := h.wellFormed.pageSize_pos
  obtain ⟨-, hqN, hqfull⟩ := h.wellFormed.regionPages_bounds hq
  rw [h.full] at hps hqN hqfull
  have hlen := len_eq F
  have hpow := Nat.two_pow_pos p.pageOrder
  have hsize : p.pageSizeBytes F.pageSize = 2 ^ p.pageOrder * F.pageSize := rfl
  rw [Nat.succ_mul] at hbound
  have hend : (F.headerPages + p.pageIndex * 2 ^ p.pageOrder) * F.pageSize +
      2 ^ p.pageOrder * F.pageSize ≤ (F.headerPages + q) * F.pageSize := by
    rw [← Nat.add_mul]
    exact Nat.mul_le_mul_right _ (by omega)
  have hregion : (F.headerPages + q) * F.pageSize ≤ F.len := by
    rw [hlen]
    exact Nat.mul_le_mul_right _ (by omega)
  have hpos : 0 < 2 ^ p.pageOrder * F.pageSize := Nat.mul_pos hpow hps
  have hnext : (p.region + 1) * F.len = p.region * F.len + F.len := Nat.succ_mul _ _
  refine ⟨?_, by rw [start]; omega, by omega, fun n hn => ?_, by rw [start]; omega,
    by rw [start]; omega⟩
  · have hoffset : F.headerPages * F.pageSize + p.pageIndex * p.pageSizeBytes F.pageSize =
        (F.headerPages + p.pageIndex * 2 ^ p.pageOrder) * F.pageSize := by
      rw [hsize, Nat.add_mul, Nat.mul_assoc]
    rw [addressRange, h.full, PageNumber.addressRange]
    dsimp only
    rw [hoffset, if_pos (by omega), start]
  · rw [h.wellFormed.len_eq (Allocators.regionPages_last h.wellFormed), h.full] at hn
    obtain rfl := Option.some.inj hn
    rw [start, hsize]
    rcases Nat.lt_or_ge (p.region + 1) s.layout.numRegions with hinner | hlast
    · have hmul : (p.region + 1) * F.len ≤ (s.layout.numRegions - 1) * F.len :=
        Nat.mul_le_mul_right _ (by omega)
      omega
    · have hregions : s.layout.numRegions - 1 = p.region := by omega
      have hlastq := Allocators.regionPages_last h.wellFormed
      rw [hregions] at hlastq
      obtain rfl := Option.some.inj (hlastq.symm.trans hq)
      rw [hregions]
      omega

/-- Blocks that do not overlap follow one another. -/
theorem ordered_of_disjoint {o i o' i' : ℕ} (h : Disjoint (block o i) (block o' i')) :
    (i + 1) * 2 ^ o ≤ i' * 2 ^ o' ∨ (i' + 1) * 2 ^ o' ≤ i * 2 ^ o := by
  by_contra hnot
  have hpos := Nat.two_pow_pos o
  have hpos' := Nat.two_pow_pos o'
  have hnext : (i + 1) * 2 ^ o = i * 2 ^ o + 2 ^ o := Nat.succ_mul _ _
  have hnext' : (i' + 1) * 2 ^ o' = i' * 2 ^ o' + 2 ^ o' := Nat.succ_mul _ _
  have hmem : max (i * 2 ^ o) (i' * 2 ^ o') ∈ block o i := mem_block.mpr ⟨by omega, by omega⟩
  have hmem' : max (i * 2 ^ o) (i' * 2 ^ o') ∈ block o' i' := mem_block.mpr ⟨by omega, by omega⟩
  exact Set.disjoint_left.mp h hmem hmem'

/-- Two recorded pages follow one another in the file. -/
theorem Placed.ordered (h : Placed K F s.layout pages a) {p q : PageNumber} (hp : p ∈ pages)
    (hq : q ∈ pages) (hne : p ≠ q) :
    start F p + p.pageSizeBytes F.pageSize ≤ start F q ∨
      start F q + q.pageSizeBytes F.pageSize ≤ start F p := by
  have hside : ∀ {p q : PageNumber}, p ∈ pages → q ∈ pages → p.region < q.region →
      start F p + p.pageSizeBytes F.pageSize ≤ start F q := fun {p q} hp hq hlt => by
    obtain ⟨-, -, -, -, hend, -⟩ := h.addressRange_spec hp
    obtain ⟨-, -, -, -, -, hstart⟩ := h.addressRange_spec hq
    have hmul : (p.region + 1) * F.len ≤ q.region * F.len := Nat.mul_le_mul_right _ hlt
    omega
  rcases Nat.lt_trichotomy p.region q.region with hlt | heq | hgt
  · exact .inl (hside hp hq hlt)
  · have hbytes : ∀ {p q : PageNumber}, p.region = q.region →
        (p.pageIndex + 1) * 2 ^ p.pageOrder ≤ q.pageIndex * 2 ^ q.pageOrder →
        start F p + p.pageSizeBytes F.pageSize ≤ start F q := fun {p q} heq hle => by
      have hmul : (F.headerPages + p.pageIndex * 2 ^ p.pageOrder) * F.pageSize +
          2 ^ p.pageOrder * F.pageSize ≤
          (F.headerPages + q.pageIndex * 2 ^ q.pageOrder) * F.pageSize := by
        rw [← Nat.add_mul]
        rw [Nat.succ_mul] at hle
        exact Nat.mul_le_mul_right _ (by omega)
      rw [start, start, heq, PageNumber.pageSizeBytes]
      omega
    exact (ordered_of_disjoint (h.apart hp hq hne heq)).imp (hbytes heq) (hbytes heq.symm)
  · exact .inr (hside hq hp hgt)

/-- A recorded page is recovered from its bytes. -/
theorem Placed.fromLeBytes_toLeBytes (h : Placed K F s.layout pages a) {p : PageNumber}
    (hp : p ∈ pages) : PageNumber.fromLeBytes p.toLeBytes = p := by
  obtain ⟨q, hq, ho, hbound⟩ := h.exists_regionPages hp
  have hK := h.order_le
  have hlt := h.placed p hp
  have hregions := h.regions
  have hqle := (h.wellFormed.regionPages_bounds hq).2.1
  have hpow : 2 ^ K ≤ 2 ^ 20 := Nat.pow_le_pow_right (by omega) hK
  rw [h.capacity_eq] at hqle
  rw [maxRegions] at hregions
  exact PageNumber.fromLeBytes_toLeBytes (by omega) (ho.trans hK)
    (hbound.trans (hqle.trans hpow))

end Places

/-! ### Runs -/

section Runs

variable {K : ℕ} {layout : DatabaseLayout} {s₀ s t : PageManager} {rs : List Request}

/-- Nothing is allocated of a new database. -/
theorem inv_new (hl : layout.WellFormed) (hfull : layout.fullRegionLayout.numPages = 2 ^ K)
    (hK : K ≤ maxMaxPageOrder) (hmax : layout.numRegions ≤ maxRegions)
    (hnew : PageManager.new layout = some s₀) : Inv K layout.fullRegionLayout s₀ := by
  obtain ⟨a, ha, hplaced⟩ := exists_placed hl rfl hfull hK hmax
  obtain ⟨n, -, hn, -⟩ := len_le hl hl rfl le_rfl fun _ => le_rfl
  rw [PageManager.new, ha, hn] at hnew
  obtain rfl := Option.some.inj hnew
  exact ⟨hplaced, Finset.empty_subset _, ⟨layout, hl, rfl, hmax, hn⟩, n, hn, le_rfl, fun _ => rfl⟩

theorem Inv.step {F : RegionLayout} (h : Inv K F s) {r : Request} (hstep : s.step r = some t) :
    Inv K F t := by
  rw [PageManager.step] at hstep
  split_ifs at hstep with hallowed
  obtain ⟨t', ht', hinv⟩ := h.perform hallowed
  obtain rfl := Option.some.inj (hstep.symm.trans ht')
  exact hinv

/-- **Run.** What the manager knows is right after every run. -/
theorem run_inv (hl : layout.WellFormed) (hfull : layout.fullRegionLayout.numPages = 2 ^ K)
    (hK : K ≤ maxMaxPageOrder) (hmax : layout.numRegions ≤ maxRegions)
    (hnew : PageManager.new layout = some s₀) (hrun : Machine.run step s₀ rs = some t) :
    Inv K layout.fullRegionLayout t :=
  Machine.run_invariant (fun _ _ _ h hstep => h.step hstep) (inv_new hl hfull hK hmax hnew) hrun

/-- What a region counts. -/
theorem sum_map_eq {α : Type} {f : α → ℕ} {g : ℕ → ℕ} {as : List α}
    (h : ∀ (r : ℕ) a, as[r]? = some a → f a = g r) :
    (as.map f).sum = ∑ r ∈ Finset.range as.length, g r := by
  induction as using List.reverseRecOn with
  | nil => rfl
  | append_singleton as a ih =>
      have hlast := h as.length a (by
        rw [List.getElem?_append_right le_rfl, Nat.sub_self, List.getElem?_cons_zero])
      rw [List.map_append, List.sum_append, List.map_singleton, List.sum_singleton, hlast,
        List.length_append, List.length_singleton, Finset.sum_range_succ, ih fun r b hb => ?_]
      have hlt := (List.getElem?_eq_some_iff.mp hb).1
      exact h r b (by rw [List.getElem?_append_left hlt, hb])

/-- The counts of the pages. -/
theorem Placed.countPages {F : RegionLayout}
    (h : Placed K F s.layout s.allocatedPages s.allocators) :
    s.countAllocatedPages = ∑ p ∈ s.allocatedPages, 2 ^ p.pageOrder ∧
      s.countFreePages + s.countAllocatedPages = s.layout.regionPages.sum := by
  have hlength := h.sound.length
  rw [DatabaseLayout.length_regionPages] at hlength
  constructor
  · have hregion : ∀ (r : ℕ) a, s.allocators.regionAllocators[r]? = some a →
        a.countAllocatedPages = ∑ x ∈ onRegion s.allocatedPages r, 2 ^ x.2 := fun r a ha =>
      (h.sound.owned ha).countPages.1
    rw [countAllocatedPages, sum_map_eq hregion, hlength,
      ← Finset.sum_fiberwise_of_maps_to (g := PageNumber.region)
        fun p hp => Finset.mem_range.mpr (h.placed p hp)]
    refine Finset.sum_congr rfl fun r _ => ?_
    rw [onRegion, Finset.sum_image fun p hp q hq heq => ?_]
    obtain ⟨-, hpr⟩ := Finset.mem_filter.mp hp
    obtain ⟨-, hqr⟩ := Finset.mem_filter.mp hq
    obtain ⟨hindex, horder⟩ := Prod.mk.inj heq
    obtain ⟨r₁, i₁, o₁⟩ := p
    obtain ⟨r₂, i₂, o₂⟩ := q
    exact PageNumber.mk.injEq .. ▸ ⟨hpr.trans hqr.symm, hindex, horder⟩
  · rw [countFreePages, countAllocatedPages, ← h.sound.lens, ← List.sum_map_add]
    congr 1
    refine List.map_congr_left fun a ha => ?_
    obtain ⟨r, hr⟩ := List.getElem?_of_mem ha
    obtain ⟨hcount, hsum⟩ := (h.sound.owned hr).countPages
    dsimp only at hcount hsum
    rw [hcount, hsum]

/-- One region of five pages, of eight that it can have. -/
def smallLayout : DatabaseLayout := ⟨⟨8, 0, 1024⟩, 0, some ⟨5, 0, 1024⟩⟩

theorem smallLayout_wellFormed : smallLayout.WellFormed := by
  refine ⟨by decide, by decide, by decide, fun {r} hr => ?_⟩
  obtain rfl := Option.some.inj hr
  exact ⟨by decide, by decide, rfl, rfl⟩

/-- Two pages of a transaction that commits. -/
def committed : List Request :=
  [.allocate 2048 false true, .allocate 1000 true true, .commit .default true true]

/-- Pages of the next transaction, for one of which the file grows. -/
def uncommitted : List Request := [.allocate 4096 false true, .allocate 500 false true]

theorem exists_committed : ∃ s₀ t u, PageManager.new smallLayout = some s₀ ∧
    Machine.run step s₀ committed = some t ∧ t.allocatedSinceCommit = ∅ ∧
    t.needsRecovery = false ∧ Machine.run step t uncommitted = some u ∧
    u.needsRecovery = false ∧ t.fileLen < u.fileLen ∧
    u.Allowed (.allocate 3000 true false) := by
  have h : ((PageManager.new smallLayout).bind fun s₀ =>
      (Machine.run step s₀ committed).bind fun t => (Machine.run step t uncommitted).map fun u =>
        (t, u)).any (fun r => decide (r.1.allocatedSinceCommit = ∅ ∧ r.1.needsRecovery = false ∧
          r.2.needsRecovery = false ∧ r.1.fileLen < r.2.fileLen ∧
          r.2.Allowed (.allocate 3000 true false))) = true := by decide +kernel
  rw [Option.any_eq_true] at h
  obtain ⟨r, hr, hdecided⟩ := h
  obtain ⟨s₀, hs₀, hruns⟩ := Option.bind_eq_some_iff.mp hr
  obtain ⟨t, ht, hmap⟩ := Option.bind_eq_some_iff.mp hruns
  obtain ⟨u, hu, rfl⟩ := Option.map_eq_some_iff.mp hmap
  obtain ⟨hsince, hok, hok', hgrown, hallowed⟩ := of_decide_eq_true hdecided
  exact ⟨s₀, t, u, hs₀, ht, hsince, hok, hu, hok', hgrown, hallowed⟩

/-- **Pages.** In every run the allocated pages lie behind the header page and within the file, no
two of them overlap, each is recovered from its bytes, and they are counted. -/
theorem run_pages (hl : layout.WellFormed) (hfull : layout.fullRegionLayout.numPages = 2 ^ K)
    (hK : K ≤ maxMaxPageOrder) (hmax : layout.numRegions ≤ maxRegions)
    (hnew : PageManager.new layout = some s₀) (hrun : Machine.run step s₀ rs = some t) :
    (∃ n, t.layout.len = some n ∧ n ≤ t.fileLen ∧ ∀ p ∈ t.allocatedPages,
      PageNumber.fromLeBytes p.toLeBytes = p ∧ ∃ first last, t.addressRange p = some (first, last) ∧
        t.layout.fullRegionLayout.pageSize ≤ first ∧ first < last ∧ last ≤ n ∧
        ∀ q ∈ t.allocatedPages, q ≠ p → ∀ first' last',
          t.addressRange q = some (first', last') → last ≤ first' ∨ last' ≤ first) ∧
    t.countAllocatedPages = ∑ p ∈ t.allocatedPages, 2 ^ p.pageOrder ∧
    t.countFreePages + t.countAllocatedPages = t.layout.regionPages.sum := by
  have h := run_inv hl hfull hK hmax hnew hrun
  obtain ⟨n, hn, hle, -⟩ := h.fits
  refine ⟨⟨n, hn, hle, fun p hp => ⟨h.placed.fromLeBytes_toLeBytes hp,
    start layout.fullRegionLayout p,
    start layout.fullRegionLayout p + p.pageSizeBytes layout.fullRegionLayout.pageSize, ?_⟩⟩,
    h.placed.countPages⟩
  obtain ⟨hrange, hheader, hpos, hend, -⟩ := h.placed.addressRange_spec hp
  rw [h.placed.full]
  refine ⟨hrange, hheader, hpos, hend n hn, fun q hq hne first' last' hrange' => ?_⟩
  obtain ⟨hq', -⟩ := h.placed.addressRange_spec hq
  obtain ⟨rfl, rfl⟩ := Prod.mk.inj (Option.some.inj (hq'.symm.trans hrange'))
  exact h.placed.ordered hp hq (Ne.symm hne)

theorem run_pages_committed : ∃ s₀ t, PageManager.new smallLayout = some s₀ ∧
    Machine.run step s₀ committed = some t ∧
    (∃ n, t.layout.len = some n ∧ n ≤ t.fileLen ∧ ∀ p ∈ t.allocatedPages,
      PageNumber.fromLeBytes p.toLeBytes = p ∧ ∃ first last, t.addressRange p = some (first, last) ∧
        t.layout.fullRegionLayout.pageSize ≤ first ∧ first < last ∧ last ≤ n ∧
        ∀ q ∈ t.allocatedPages, q ≠ p → ∀ first' last',
          t.addressRange q = some (first', last') → last ≤ first' ∨ last' ≤ first) ∧
    t.countAllocatedPages = ∑ p ∈ t.allocatedPages, 2 ^ p.pageOrder ∧
    t.countFreePages + t.countAllocatedPages = t.layout.regionPages.sum := by
  obtain ⟨s₀, t, u, hs₀, ht, -⟩ := exists_committed
  exact ⟨s₀, t, hs₀, ht,
    run_pages (K := 3) smallLayout_wellFormed rfl (by decide) (by decide) hs₀ ht⟩

/-- A page of the required order has room for what is allocated. -/
theorem le_pageSizeBytes (hps : 0 < s.layout.fullRegionLayout.pageSize) (size : ℕ) :
    size ≤ 2 ^ s.requiredOrder size * s.layout.fullRegionLayout.pageSize := by
  rw [requiredOrder]
  generalize s.layout.fullRegionLayout.pageSize = ps at *
  have hdiv := Nat.div_add_mod (size + ps - 1) ps
  have hmod := Nat.mod_lt (size + ps - 1) hps
  have hmul := Nat.mul_le_mul_right ps (le_two_pow_ceilLog2 ((size + ps - 1) / ps))
  rw [Nat.mul_comm] at hdiv
  omega

/-- **Service.** In every state that a run reaches no request that is allowed panics. An allocation
returns a page that has room and was not allocated, unless the file cannot be resized. -/
theorem run_serves (hl : layout.WellFormed) (hfull : layout.fullRegionLayout.numPages = 2 ^ K)
    (hK : K ≤ maxMaxPageOrder) (hmax : layout.numRegions ≤ maxRegions)
    (hnew : PageManager.new layout = some s₀) (hrun : Machine.run step s₀ rs = some t) :
    (∀ r, t.Allowed r → t.perform r ≠ none) ∧
    ∀ size lowest resized, t.Allowed (.allocate size lowest resized) →
      ∃ res t', t.allocate size lowest resized = some (res, t') ∧
        (res = none → resized = false ∧ t'.allocatedPages = t.allocatedPages) ∧
        ∀ p, res = some p → p ∉ t.allocatedPages ∧
          size ≤ p.pageSizeBytes t.layout.fullRegionLayout.pageSize ∧
          t'.allocatedPages = insert p t.allocatedPages := by
  have h := run_inv hl hfull hK hmax hnew hrun
  refine ⟨fun r hr => ?_, fun size lowest resized hallowed => ?_⟩
  · obtain ⟨t', ht', -⟩ := h.perform hr
    rw [ht']
    exact Option.some_ne_none t'
  · obtain ⟨hfits, hregions⟩ := hallowed
    rw [h.placed.capacity_eq, Nat.pow_le_pow_iff_right (by omega)] at hfits
    obtain ⟨res, t', ht', -, hnone, hsome, -⟩ := h.allocate_spec hfits hregions lowest resized
    refine ⟨res, t', ht', fun heq => ?_, fun p heq => ?_⟩
    · obtain ⟨hresized, -, hpages, -⟩ := hnone heq
      exact ⟨hresized, hpages⟩
    · obtain ⟨hfresh, horder, hpages, -⟩ := hsome p heq
      refine ⟨hfresh, ?_, hpages⟩
      rw [PageNumber.pageSizeBytes, horder]
      exact le_pageSizeBytes h.placed.wellFormed.pageSize_pos size

theorem run_serves_committed : ∃ s₀ t, PageManager.new smallLayout = some s₀ ∧
    Machine.run step s₀ committed = some t ∧
    (∀ r, t.Allowed r → t.perform r ≠ none) ∧
    ∀ size lowest resized, t.Allowed (.allocate size lowest resized) →
      ∃ res t', t.allocate size lowest resized = some (res, t') ∧
        (res = none → resized = false ∧ t'.allocatedPages = t.allocatedPages) ∧
        ∀ p, res = some p → p ∉ t.allocatedPages ∧
          size ≤ p.pageSizeBytes t.layout.fullRegionLayout.pageSize ∧
          t'.allocatedPages = insert p t.allocatedPages := by
  obtain ⟨s₀, t, u, hs₀, ht, -⟩ := exists_committed
  exact ⟨s₀, t, hs₀, ht,
    run_serves (K := 3) smallLayout_wellFormed rfl (by decide) (by decide) hs₀ ht⟩

/-- What a transaction asks for before it commits or rolls back. -/
def Transactional (s : PageManager) : Request → Prop
  | .allocate _ _ _ => True
  | .freeIfUncommitted _ => True
  | .free p => p ∈ s.allocatedSinceCommit
  | _ => False

/-- A transaction leaves the pages as they are that it has not allocated. -/
theorem Inv.step_transactional {F : RegionLayout} (h : Inv K F s) {r : Request}
    (hr : s.Transactional r) (hstep : s.step r = some t) :
    t.allocatedPages \ t.allocatedSinceCommit = s.allocatedPages \ s.allocatedSinceCommit := by
  rw [PageManager.step] at hstep
  split_ifs at hstep with hallowed
  have herase : ∀ {p}, p ∈ s.allocatedSinceCommit →
      s.allocatedPages.erase p \ s.allocatedSinceCommit.erase p =
        s.allocatedPages \ s.allocatedSinceCommit := fun {p} hp => by
    ext q
    simp only [Finset.mem_sdiff, Finset.mem_erase]
    by_cases heq : q = p
    · simp only [heq, hp, ne_eq, not_true, false_and, and_false]
    · simp only [heq, ne_eq, not_false_iff, true_and]
  cases r with
  | allocate size lowest resized =>
      obtain ⟨hfits, hmax⟩ := hallowed
      rw [h.placed.capacity_eq, Nat.pow_le_pow_iff_right (by omega)] at hfits
      obtain ⟨res, s', hs', -, hnone, hsome, -⟩ := h.allocate_spec hfits hmax lowest resized
      rw [PageManager.perform, hs'] at hstep
      obtain rfl := Option.some.inj hstep
      rcases res with _ | p
      · obtain ⟨-, -, hpages, hsince⟩ := hnone rfl
        rw [hpages, hsince]
      · obtain ⟨hfresh, -, hpages, hsince⟩ := hsome p rfl
        rw [hpages, hsince, Finset.insert_sdiff_insert, Finset.sdiff_insert_of_notMem hfresh]
  | freeIfUncommitted p =>
      obtain ⟨freed, s', hs', -, -, hkept, hfreed⟩ := h.freeIfUncommitted_spec p
      rw [PageManager.perform, hs'] at hstep
      obtain rfl := Option.some.inj hstep
      by_cases hp : p ∈ s.allocatedSinceCommit
      · obtain ⟨hpages, hsince⟩ := hfreed hp
        rw [hpages, hsince, herase hp]
      · rw [hkept hp]
  | free p =>
      obtain ⟨s', hs', -, -, hpages, hsince⟩ := h.free_spec hallowed
      obtain rfl := Option.some.inj (hstep.symm.trans hs')
      rw [hpages, hsince, herase hr]
  | freeIfUnpersisted p => exact hr.elim
  | commit policy written resized => exact hr.elim
  | nonDurableCommit => exact hr.elim
  | rollback pages => exact hr.elim

/-- **Rollback.** After a transaction has made any allocations and releases of its own, a rollback
leaves just the pages allocated that were so before the transaction. -/
theorem run_rollback (hl : layout.WellFormed) (hfull : layout.fullRegionLayout.numPages = 2 ^ K)
    (hK : K ≤ maxMaxPageOrder) (hmax : layout.numRegions ≤ maxRegions)
    (hnew : PageManager.new layout = some s₀) (hrun : Machine.run step s₀ rs = some t)
    (hsince : t.allocatedSinceCommit = ∅) {us : List Request} {u : PageManager}
    (hrun' : Machine.run step t us = some u) (halong : Machine.Along step Transactional t us)
    {pages : List PageNumber} (hallowed : u.Allowed (.rollback pages)) :
    ∃ u', u.rollback pages = some u' ∧ u'.allocatedPages = t.allocatedPages := by
  have h := run_inv hl hfull hK hmax hnew hrun
  obtain ⟨hinv, hkept⟩ : Inv K layout.fullRegionLayout u ∧
      u.allocatedPages \ u.allocatedSinceCommit = t.allocatedPages \ t.allocatedSinceCommit :=
    Machine.run_invariant_along (t := u)
      (fun s r s' (hs : Inv K layout.fullRegionLayout s ∧
          s.allocatedPages \ s.allocatedSinceCommit =
            t.allocatedPages \ t.allocatedSinceCommit) hr hstep =>
        And.intro (hs.1.step hstep) ((hs.1.step_transactional hr hstep).trans hs.2))
      (And.intro h rfl) halong hrun'
  obtain ⟨hok, hnodup, hpages⟩ := hallowed
  obtain ⟨u', hu', -, -, hpages'⟩ := hinv.rollback_spec hok hnodup hpages
  refine ⟨u', hu', ?_⟩
  rw [hpages', hkept, hsince, Finset.sdiff_empty]

theorem run_rollback_uncommitted : ∃ s₀ t u, PageManager.new smallLayout = some s₀ ∧
    Machine.run step s₀ committed = some t ∧ Machine.run step t uncommitted = some u ∧
    ∃ u', u.rollback u.allocatedSinceCommit.toList = some u' ∧
      u'.allocatedPages = t.allocatedPages := by
  obtain ⟨s₀, t, u, hs₀, ht, hsince, -, hu, hok, -⟩ := exists_committed
  exact ⟨s₀, t, u, hs₀, ht, hu, run_rollback (K := 3) smallLayout_wellFormed rfl (by decide)
    (by decide) hs₀ ht hsince hu ⟨trivial, fun _ _ => ⟨trivial, fun _ _ => trivial⟩⟩
    ⟨hok, Finset.nodup_toList _, Finset.toList_toFinset _⟩⟩

end Runs

end PageManager

end Torpor.Redb
