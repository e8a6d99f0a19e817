import Torpor.Redb.PageManagerRuns

/-!
# Recovery of the Page Manager

After a crash the layout is calculated from the length of the file, and the allocators are made
anew: each page that the repair visits is marked as allocated. The pages that are still needed are
those of the last commit; the file may have grown since, and the header may have an older layout.

## Main results

* `Placed.markAll_spec`: pages that are apart can be marked, in any order.
* `reopen_spec`: the file is opened with a layout of its own length.
* `run_recover`: after a crash in any transaction, a repair that visits pages of the last commit has
  just these allocated, each where it was, and the manager works on.
-/

namespace Torpor.Redb

open Buddy

namespace PageManager

/-- The layout that `new` gives the header. -/
def reopenLayout (header : DatabaseLayout) (needsRecovery : Bool) (fileLen : ℕ) :
    Option DatabaseLayout :=
  if needsRecovery then
    let full := header.fullRegionLayout
    DatabaseLayout.recalculate fileLen full.headerPages full.numPages full.pageSize
  else some header

/-- `new`, for a file that has been open before: `header` is the layout in its header, which also
tells whether the file was closed. -/
def reopen (header : DatabaseLayout) (recoveryRequired : Bool) (fileLen : ℕ) :
    Option PageManager := do
  let headerLen ← header.len
  if fileLen < headerLen then none
  else do
    let needsRecovery := recoveryRequired || decide (headerLen ≠ fileLen)
    let layout ← reopenLayout header needsRecovery fileLen
    let len ← layout.len
    if len = fileLen then do
      let allocators ← Allocators.new layout
      some ⟨layout, allocators, ∅, ∅, ∅, fileLen, needsRecovery⟩
    else none

/-- `begin_repair`. -/
def beginRepair (s : PageManager) : Option PageManager := do
  let allocators ← Allocators.new s.layout
  some { s with allocators, allocatedPages := ∅ }

/-- `mark_page_allocated`. -/
def markPageAllocated (s : PageManager) (p : PageNumber) : Option PageManager := do
  let region ← s.allocators.regionAllocators[p.region]?
  let region ← region.recordAlloc p.pageIndex p.pageOrder
  if p ∈ s.allocatedPages then none
  else some { s with
    allocators := ⟨s.allocators.regionTracker, s.allocators.regionAllocators.set p.region region⟩
    allocatedPages := insert p s.allocatedPages }

/-- The marks of a repair. -/
def markAll : List PageNumber → PageManager → Option PageManager
  | [], s => some s
  | p :: pages, s => do
      let s ← s.markPageAllocated p
      markAll pages s

/-- `end_repair`, with whether the header can be written. -/
def endRepair (s : PageManager) (written : Bool) : PageManager :=
  if written then { s with needsRecovery := false } else s

/-- The repair of `do_repair`, with the pages that it visits. -/
def repair (s : PageManager) (pages : List PageNumber) (written : Bool) : Option PageManager := do
  let s ← s.beginRepair
  let s ← markAll pages s
  some (s.endRepair written)

section Marks

variable {K : ℕ} {F : RegionLayout} {l : DatabaseLayout} {pages : Finset PageNumber}
  {a : Allocators}

/-- A page that is apart from the recorded ones can be marked. -/
theorem Placed.markPageAllocated_spec {s : PageManager}
    (h : Placed K F s.layout s.allocatedPages s.allocators) {p : PageNumber} {q : ℕ}
    (hq : s.layout.regionPages[p.region]? = some q) (ho : p.pageOrder ≤ K)
    (hfits : (p.pageIndex + 1) * 2 ^ p.pageOrder ≤ q)
    (hapart : ∀ p' ∈ s.allocatedPages, Apart p p') :
    ∃ a', s.markPageAllocated p =
        some { s with allocators := a', allocatedPages := insert p s.allocatedPages } ∧
      Placed K F s.layout (insert p s.allocatedPages) a' := by
  obtain ⟨hlt, hget⟩ := List.getElem?_eq_some_iff.mp hq
  obtain ⟨region, hregion, hlen⟩ := h.sound.exists_allocator hq
  have howned := h.sound.owned hregion
  have hroom : (p.pageIndex + 1) * 2 ^ p.pageOrder ≤ region.len := by rwa [hlen]
  have hfresh : p ∉ s.allocatedPages := fun hmem =>
    Set.disjoint_left.mp (hapart p hmem rfl) (first_mem _ _) (first_mem _ _)
  obtain ⟨region', hrecord, hlen', howned'⟩ := (howned.recordAlloc_spec p.pageIndex p.pageOrder).1
    ⟨ho, hroom, fun x hx => hapart _ (mem_onRegion.mp
      (show (x.1, x.2) ∈ onRegion s.allocatedPages p.region from hx)) rfl⟩
  have hrecord' : region.recordAlloc p.pageIndex p.pageOrder = some region' := hrecord
  have hset := h.sound.set (r := p.region) region'
    (Function.update (onRegion s.allocatedPages) p.region
      (insert (p.pageIndex, p.pageOrder) (onRegion s.allocatedPages p.region)))
    (by rwa [Function.update_self]) fun r' hne => Function.update_of_ne hne _ _
  rw [hlen', show Client.allocator ⟨region, onRegion s.allocatedPages p.region⟩ = region from rfl,
    hlen, ← hget, List.set_getElem_self hlt] at hset
  refine ⟨⟨s.allocators.regionTracker, s.allocators.regionAllocators.set p.region region'⟩, ?_,
    h.add (by rwa [DatabaseLayout.length_regionPages] at hlt) hset⟩
  rw [markPageAllocated, hregion]
  simp only [Option.bind_eq_bind, Option.bind_some, hrecord']
  rw [if_neg hfresh]

/-- **Marks.** Pages that are apart, from each other and from the recorded ones, can be marked. -/
theorem Placed.markAll_spec {kept : List PageNumber} {s : PageManager}
    (h : Placed K F s.layout s.allocatedPages s.allocators)
    (hfits : ∀ p ∈ kept, ∃ q, s.layout.regionPages[p.region]? = some q ∧ p.pageOrder ≤ K ∧
      (p.pageIndex + 1) * 2 ^ p.pageOrder ≤ q)
    (hkept : kept.Pairwise Apart) (hapart : ∀ p ∈ kept, ∀ q ∈ s.allocatedPages, Apart p q) :
    ∃ a', markAll kept s =
        some { s with allocators := a', allocatedPages := s.allocatedPages ∪ kept.toFinset } ∧
      Placed K F s.layout (s.allocatedPages ∪ kept.toFinset) a' := by
  induction kept generalizing s with
  | nil =>
      rw [List.toFinset_nil, Finset.union_empty]
      exact ⟨s.allocators, rfl, h⟩
  | cons p kept ih =>
      obtain ⟨hfirst, hrest⟩ := List.pairwise_cons.mp hkept
      obtain ⟨q, hq, ho, hbound⟩ := hfits p List.mem_cons_self
      obtain ⟨a₁, ha₁, h₁⟩ := h.markPageAllocated_spec hq ho hbound (hapart p List.mem_cons_self)
      obtain ⟨a', ha', h'⟩ := ih (s := { s with
          allocators := a₁
          allocatedPages := insert p s.allocatedPages }) h₁
        (fun p' hp' => hfits p' (List.mem_cons_of_mem _ hp')) hrest fun p' hp' q hq => by
          rcases Finset.mem_insert.mp hq with rfl | hq
          · exact (hfirst p' hp').symm
          · exact hapart p' (List.mem_cons_of_mem _ hp') q hq
      have hpages : s.allocatedPages ∪ (p :: kept).toFinset =
          insert p s.allocatedPages ∪ kept.toFinset := by
        rw [List.toFinset_cons, Finset.union_insert, Finset.insert_union]
      rw [hpages]
      refine ⟨a', ?_, h'⟩
      rw [markAll, ha₁]
      exact ha'

end Marks

section Recover

variable {K : ℕ} {F : RegionLayout} {s t : PageManager}

/-- The file is opened with a layout of its own length, be it that of the header or not. -/
theorem reopen_spec {header l : DatabaseLayout} {n fileLen : ℕ} (hheader : header.WellFormed)
    (hfull : header.fullRegionLayout = F) (hcapacity : F.numPages = 2 ^ K)
    (hK : K ≤ maxMaxPageOrder) (hsize : F.len ≤ 2 ^ 32) (hn : header.len = some n)
    (hle : n ≤ fileLen) (hl : l.WellFormed) (hfull' : l.fullRegionLayout = F)
    (hmax : l.numRegions ≤ maxRegions) (hlen : l.len = some fileLen) (recoveryRequired : Bool) :
    ∃ s, reopen header recoveryRequired fileLen = some s ∧ Inv K F s ∧
      s.layout.len = some fileLen ∧ s.fileLen = fileLen ∧ s.allocatedSinceCommit = ∅ := by
  -- Either layout is well formed and has the length of the file.
  have hlayout : ∃ l',
      reopenLayout header (recoveryRequired || decide (n ≠ fileLen)) fileLen = some l' ∧
      l'.WellFormed ∧ l'.fullRegionLayout = F ∧ l'.numRegions ≤ maxRegions ∧
      l'.len = some fileLen := by
    rw [reopenLayout, hfull]
    split_ifs with hneeds
    · obtain ⟨n', l', hn', hrecalculate, hl', hfull'', hpages⟩ :=
        hl.exists_recalculate (by rwa [hfull']) (hmax.trans_lt (by decide))
      obtain rfl := Option.some.inj (hn'.symm.trans hlen)
      obtain ⟨hregions, hlen'⟩ := hl.len_congr hl' hfull'' hpages
      rw [hfull'] at hrecalculate hfull''
      exact ⟨l', hrecalculate, hl', hfull'', by rwa [hregions], hlen'.trans hlen⟩
    · obtain rfl : n = fileLen := by
        by_contra hne
        exact hneeds (by rw [decide_eq_true hne, Bool.or_true])
      obtain ⟨p, hp⟩ := hheader.exists_last
      obtain ⟨p', hp', -⟩ :=
        hheader.exists_regionPages hl (hfull'.trans hfull.symm) hn hlen le_rfl hp
      have hlt := (List.getElem?_eq_some_iff.mp hp').1
      rw [DatabaseLayout.length_regionPages] at hlt
      exact ⟨header, rfl, hheader, hfull, by omega, hn⟩
  obtain ⟨l', hl', hwell, hfull'', hmax', hlen'⟩ := hlayout
  obtain ⟨a, ha, hplaced⟩ := exists_placed hwell hfull'' hcapacity hK hmax'
  rw [reopen, hn]
  simp only [Option.bind_eq_bind, Option.bind_some]
  rw [if_neg (Nat.not_lt.mpr hle), hl']
  simp only [Option.bind_some, hlen', if_true, ha]
  exact ⟨_, rfl, ⟨hplaced, Finset.empty_subset _, ⟨l', hwell, hfull'', hmax', hlen'⟩, fileLen,
    hlen', le_rfl, fun _ => rfl⟩, hlen', rfl, rfl⟩

/-- **Repair.** Just the visited pages are allocated. -/
theorem Inv.repair_spec (h : Inv K F s) (hsince : s.allocatedSinceCommit = ∅)
    (kept : List PageNumber)
    (hfits : ∀ p ∈ kept, ∃ q, s.layout.regionPages[p.region]? = some q ∧ p.pageOrder ≤ K ∧
      (p.pageIndex + 1) * 2 ^ p.pageOrder ≤ q)
    (hkept : kept.Pairwise Apart) (written : Bool) (hlen : s.layout.len = some s.fileLen) :
    ∃ u, s.repair kept written = some u ∧ Inv K F u ∧ u.layout = s.layout ∧
      u.allocatedPages = kept.toFinset ∧ (written = true → u.needsRecovery = false) := by
  obtain ⟨a, ha, hplaced⟩ := exists_placed h.placed.wellFormed h.placed.full h.placed.capacity
    h.placed.order_le h.placed.regions
  obtain ⟨a', ha', hplaced'⟩ := Placed.markAll_spec
    (s := { s with allocators := a, allocatedPages := ∅ }) hplaced hfits hkept
    fun p _ q hq => absurd hq (Finset.notMem_empty q)
  dsimp only at ha' hplaced'
  rw [Finset.empty_union] at ha' hplaced'
  rw [repair, beginRepair, ha]
  simp only [Option.bind_eq_bind, Option.bind_some, ha']
  refine ⟨_, rfl, ?_⟩
  cases written with
  | true =>
      exact ⟨⟨hplaced', by rw [endRepair, if_pos rfl, hsince]; exact Finset.empty_subset _, h.file,
        s.fileLen, hlen, le_rfl, fun _ => rfl⟩, rfl, rfl, fun _ => rfl⟩
  | false =>
      exact ⟨⟨hplaced', by rw [endRepair, if_neg (by decide), hsince]; exact Finset.empty_subset _,
        h.file, s.fileLen, hlen, le_rfl, fun _ => rfl⟩, rfl, rfl, fun heq => by cases heq⟩

/-- Any request but a durable commit. -/
def NotDurable : Request → Prop
  | .commit _ _ _ => False
  | _ => True

theorem SameFile.grown (h : SameFile s t) (hlen : s.layout.len = some s.fileLen) :
    t.layout.len = some t.fileLen ∧ s.fileLen ≤ t.fileLen := by
  obtain ⟨hlayout, hfile⟩ := h
  rw [hlayout, hfile]
  exact ⟨hlen, le_rfl⟩

/-- Only a durable commit shrinks the file. -/
theorem Inv.step_notDurable (h : Inv K F s) (hlen : s.layout.len = some s.fileLen) {r : Request}
    (hr : NotDurable r) (hstep : s.step r = some t) :
    t.layout.len = some t.fileLen ∧ s.fileLen ≤ t.fileLen := by
  rw [PageManager.step] at hstep
  split_ifs at hstep with hallowed
  cases r with
  | allocate size lowest resized =>
      obtain ⟨hfits, hmax⟩ := hallowed
      rw [h.placed.capacity_eq, Nat.pow_le_pow_iff_right (by omega)] at hfits
      obtain ⟨res, s', hs', -, -, -, hgrown⟩ := h.allocate_spec hfits hmax lowest resized
      rw [PageManager.perform, hs'] at hstep
      obtain rfl := Option.some.inj hstep
      exact hgrown hlen
  | free p =>
      obtain ⟨s', hs', -, hfile, -⟩ := h.free_spec hallowed
      obtain rfl := Option.some.inj (hstep.symm.trans hs')
      exact hfile.grown hlen
  | freeIfUncommitted p =>
      obtain ⟨freed, s', hs', -, hfile, -⟩ := h.freeIfUncommitted_spec p
      rw [PageManager.perform, hs'] at hstep
      obtain rfl := Option.some.inj hstep
      exact hfile.grown hlen
  | freeIfUnpersisted p =>
      obtain ⟨freed, s', hs', -, hfile⟩ := h.freeIfUnpersisted_spec hallowed
      rw [PageManager.perform, hs'] at hstep
      obtain rfl := Option.some.inj hstep
      exact hfile.grown hlen
  | commit policy written resized => exact hr.elim
  | nonDurableCommit =>
      rw [PageManager.perform, nonDurableCommit, if_neg (by rw [hallowed]; decide)] at hstep
      obtain rfl := Option.some.inj hstep
      exact ⟨hlen, le_rfl⟩
  | rollback pages =>
      obtain ⟨hok, hnodup, hpages⟩ := hallowed
      obtain ⟨s', hs', -, hfile, -⟩ := h.rollback_spec hok hnodup hpages
      obtain rfl := Option.some.inj (hstep.symm.trans hs')
      exact hfile.grown hlen

theorem Inv.run_notDurable (h : Inv K F s) (hlen : s.layout.len = some s.fileLen)
    {us : List Request} (hus : ∀ r ∈ us, NotDurable r)
    (hrun : Machine.run PageManager.step s us = some t) :
    Inv K F t ∧ t.layout.len = some t.fileLen ∧ s.fileLen ≤ t.fileLen := by
  induction us generalizing s with
  | nil =>
      rw [Machine.run_nil] at hrun
      obtain rfl := Option.some.inj hrun
      exact ⟨h, hlen, le_rfl⟩
  | cons r us ih =>
      obtain ⟨s', hs', hrun'⟩ := Machine.run_cons_eq_some.mp hrun
      obtain ⟨hlen', hle⟩ := h.step_notDurable hlen (hus r List.mem_cons_self) hs'
      obtain ⟨ht, hlent, hle'⟩ :=
        ih (h.step hs') hlen' (fun r' hr' => hus r' (List.mem_cons_of_mem _ hr')) hrun'
      exact ⟨ht, hlent, hle.trans hle'⟩

/-- **Recovery.** After a crash in any state up to the next durable commit, with a header that has
the layout of a file that was not longer, a repair that visits pages of the last commit has just
these allocated, each where it was. -/
theorem run_recover {layout header : DatabaseLayout} {s₀ m : PageManager} {rs us : List Request}
    {n : ℕ} {kept : List PageNumber} (hl : layout.WellFormed)
    (hfull : layout.fullRegionLayout.numPages = 2 ^ K) (hK : K ≤ maxMaxPageOrder)
    (hmax : layout.numRegions ≤ maxRegions) (hsize : layout.fullRegionLayout.len ≤ 2 ^ 32)
    (hnew : PageManager.new layout = some s₀) (hrun : Machine.run step s₀ rs = some m)
    (hok : m.needsRecovery = false) (hrun' : Machine.run step m us = some t)
    (hus : ∀ r ∈ us, NotDurable r) (hheader : header.WellFormed)
    (hheader' : header.fullRegionLayout = layout.fullRegionLayout) (hn : header.len = some n)
    (hle : n ≤ t.fileLen) (hnodup : kept.Nodup) (hkept : ∀ p ∈ kept, p ∈ m.allocatedPages)
    (recoveryRequired written : Bool) :
    ∃ s u, reopen header recoveryRequired t.fileLen = some s ∧ s.repair kept written = some u ∧
      Inv K layout.fullRegionLayout u ∧ u.allocatedPages = kept.toFinset ∧
      (written = true → u.needsRecovery = false) ∧
      ∀ p ∈ kept, u.addressRange p = m.addressRange p := by
  have h := run_inv hl hfull hK hmax hnew hrun
  obtain ⟨_, hlen, -, hexact⟩ := h.fits
  rw [hexact hok] at hlen
  obtain ⟨ht, hlen', hgrown⟩ := h.run_notDurable hlen hus hrun'
  obtain ⟨s, hs, hinv, hlens, hfile, hsince⟩ := reopen_spec hheader hheader' hfull hK hsize hn hle
    ht.placed.wellFormed ht.placed.full ht.placed.regions hlen' recoveryRequired
  obtain ⟨u, hu, hinv', -, hpages, hwritten⟩ := hinv.repair_spec hsince kept
    (fun p hp => by
      obtain ⟨q, hq, ho, hbound⟩ := h.placed.exists_regionPages (hkept p hp)
      obtain ⟨q', hq', hqle⟩ := h.placed.wellFormed.exists_regionPages hinv.placed.wellFormed
        (hinv.placed.full.trans h.placed.full.symm) hlen hlens hgrown hq
      exact ⟨q', hq', ho, hbound.trans hqle⟩)
    (hnodup.imp_of_mem fun hp hq hne => h.placed.apart (hkept _ hp) (hkept _ hq) hne) written
    (by rw [hlens, hfile])
  refine ⟨s, u, hs, hu, hinv', hpages, hwritten, fun p hp => ?_⟩
  rw [(h.placed.addressRange_spec (hkept p hp)).1, (hinv'.placed.addressRange_spec
    (by rw [hpages]; exact List.mem_toFinset.mpr hp)).1]

/-- A crash in the second transaction, for which the file has grown; the header is the one of the
first. -/
theorem run_recover_uncommitted : ∃ s₀ m t, PageManager.new smallLayout = some s₀ ∧
    Machine.run step s₀ committed = some m ∧ Machine.run step m uncommitted = some t ∧
    ∃ s u, reopen m.layout true t.fileLen = some s ∧
      s.repair m.allocatedPages.toList true = some u ∧
      Inv 3 smallLayout.fullRegionLayout u ∧
      u.allocatedPages = m.allocatedPages.toList.toFinset ∧
      (true = true → u.needsRecovery = false) ∧
      ∀ p ∈ m.allocatedPages.toList, u.addressRange p = m.addressRange p := by
  obtain ⟨s₀, m, t, hs₀, hm, -, hok, ht, -, hgrown, -⟩ := exists_committed
  have h : Inv 3 smallLayout.fullRegionLayout m :=
    run_inv smallLayout_wellFormed rfl (by decide) (by decide) hs₀ hm
  have hus : ∀ r ∈ uncommitted, NotDurable r :=
    List.forall_mem_cons.mpr ⟨trivial, List.forall_mem_cons.mpr ⟨trivial, fun r hr => by cases hr⟩⟩
  obtain ⟨n, hn, hle, -⟩ := h.fits
  exact ⟨s₀, m, t, hs₀, hm, ht, run_recover smallLayout_wellFormed rfl (by decide) (by decide)
    (by decide) hs₀ hm hok ht hus h.placed.wellFormed h.placed.full hn
    (hle.trans hgrown.le) (Finset.nodup_toList _) (fun p hp => Finset.mem_toList.mp hp) true true⟩

end Recover

end PageManager

end Torpor.Redb
