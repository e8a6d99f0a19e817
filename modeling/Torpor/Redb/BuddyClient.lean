import Torpor.Lib.Machine
import Torpor.Redb.BuddySizes

/-!
# A Client of a Buddy Allocator

A client that allocates, records and releases pages of one region and changes its size, in any
order. It gives back only pages that it has, and it never asks for more pages than the allocator
can have.

## Main results

* `Client.Owned.step`: a request keeps the client's view right; which requests panic.
* `Client.run_parted`: in every run each page is free or in exactly one of the pages that the client
  has.
* `Client.run_requests`: which requests fail, and what the lowest allocation picks.
* `Client.run_sizes`: the sizes that the allocator can have.
-/

namespace Torpor.Redb

open Buddy

/-- An allocator, and the pages that its client has, each with its order. -/
structure Client where
  allocator : BuddyAllocator
  pages : Finset (ℕ × ℕ)

namespace Client

/-- What the client asks for. -/
inductive Request
  | alloc (order : ℕ)
  | allocLowest (order : ℕ)
  | recordAlloc (pageNumber order : ℕ)
  | free (pageNumber order : ℕ)
  | resize (newSize : ℕ)

/-- The client has the page that an allocation returned, if it did. -/
def take (s : Client) (order : ℕ) : Option (ℕ × BuddyAllocator) → Client
  | none => s
  | some (page, a) => ⟨a, insert (page, order) s.pages⟩

/-- One request; `none` where the allocator panics, or the client does not ask for it. -/
def step (cap : ℕ) (s : Client) : Request → Option Client
  | .alloc order => (s.allocator.alloc order).map (s.take order)
  | .allocLowest order => (s.allocator.allocLowest order).map (s.take order)
  | .recordAlloc page order => do
      let a ← s.allocator.recordAlloc page order
      some ⟨a, insert (page, order) s.pages⟩
  | .free page order =>
      if (page, order) ∈ s.pages then do
        let a ← s.allocator.freePage page order
        some ⟨a, s.pages.erase (page, order)⟩
      else none
  | .resize newSize =>
      if newSize ≤ cap then do
        let a ← s.allocator.resize newSize
        some ⟨a, s.pages⟩
      else none

/-- The client's view of the allocator is right. -/
structure Owned (cap m : ℕ) (s : Client) : Prop where
  wellFormed : s.allocator.WellFormed cap
  maxOrder : s.allocator.maxOrder = m
  orders : ∀ x ∈ s.pages, x.2 ≤ m
  parted : Parted s.allocator.len s.allocator.freePages ↑s.pages

section Steps

variable {cap m : ℕ} {s : Client} {o i : ℕ}

theorem Owned.taken (h : Owned cap m s) {a : BuddyAllocator} (ho : o ≤ m)
    (hsub : block o i ⊆ s.allocator.freePages)
    (hresult : BuddyAllocator.Result cap s.allocator.len s.allocator a
      (s.allocator.freePages \ block o i)) :
    Owned cap m ⟨a, insert (i, o) s.pages⟩ := by
  have hlen := hresult.len
  refine ⟨?_, hresult.maxOrder.trans h.maxOrder, fun x hx => ?_, ?_⟩
  · rw [BuddyAllocator.WellFormed, hlen]
    exact hresult.valid
  · rcases Finset.mem_insert.mp hx with rfl | hx
    · exact ho
    · exact h.orders x hx
  · rw [hlen, hresult.pages, Finset.coe_insert]
    exact (h.parted.insert hsub).2

theorem Owned.given (h : Owned cap m s) {a : BuddyAllocator} (hmem : (i, o) ∈ s.pages)
    (hresult : BuddyAllocator.Result cap s.allocator.len s.allocator a
      (s.allocator.freePages ∪ block o i)) :
    Owned cap m ⟨a, s.pages.erase (i, o)⟩ := by
  have hlen := hresult.len
  refine ⟨?_, hresult.maxOrder.trans h.maxOrder, fun x hx => ?_, ?_⟩
  · rw [BuddyAllocator.WellFormed, hlen]
    exact hresult.valid
  · exact h.orders x (Finset.mem_of_mem_erase hx)
  · rw [hlen, hresult.pages, Finset.coe_erase]
    exact h.parted.erase hmem

/-- Whether a request for an allocation succeeds: a block of the order meets no page of the
client. -/
def Available (s : Client) (order i : ℕ) : Prop :=
  (i + 1) * 2 ^ order ≤ s.allocator.len ∧
    ∀ x ∈ s.pages, Disjoint (block order i) (block x.2 x.1)

theorem Owned.available_iff (h : Owned cap m s) :
    s.Available o i ↔ block o i ⊆ s.allocator.freePages := h.parted.subset_iff.symm

/-- **Allocation.** It never panics, and fails only if the order is too high or every block of the
order meets a page of the client. -/
theorem Owned.alloc_none_iff (h : Owned cap m s) (o : ℕ) :
    ∃ r, s.allocator.alloc o = some r ∧ (r = none ↔ m < o ∨ ∀ i, ¬ s.Available o i) ∧
      ∀ u a, r = some (u, a) → s.Available o u ∧ a.len = s.allocator.len ∧
        Owned cap m ⟨a, insert (u, o) s.pages⟩ := by
  obtain ⟨r, hr, hnone, hsome⟩ := h.wellFormed.allocInner_spec o
  have hiff : r = none ↔ m < o ∨ ∀ i, ¬ s.Available o i := by
    rw [hnone, h.maxOrder]
    simp only [h.available_iff]
  refine ⟨r, hr, hiff, fun u a heq => ?_⟩
  obtain ⟨⟨hsub, hresult⟩, -⟩ := hsome u a heq
  have ho : o ≤ m := by
    by_contra hhigh
    rw [hiff.mpr (.inl (by omega))] at heq
    cases heq
  exact ⟨h.available_iff.mpr hsub, hresult.len, h.taken ho hsub hresult⟩

/-- **The lowest allocation.** It fails where an allocation does, and else takes the lowest of the
blocks that meet no page of the client. -/
theorem Owned.allocLowest_least (h : Owned cap m s) (o : ℕ) :
    ∃ r, s.allocator.allocLowest o = some r ∧ (r = none ↔ m < o ∨ ∀ i, ¬ s.Available o i) ∧
      ∀ u a, r = some (u, a) → IsLeast {i | s.Available o i} u ∧ a.len = s.allocator.len ∧
        Owned cap m ⟨a, insert (u, o) s.pages⟩ := by
  obtain ⟨r, hr, hnone, hsome⟩ := h.wellFormed.allocLowest_spec o
  have hiff : r = none ↔ m < o ∨ ∀ i, ¬ s.Available o i := by
    rw [hnone, h.maxOrder]
    simp only [h.available_iff]
  refine ⟨r, hr, hiff, fun u a heq => ?_⟩
  obtain ⟨⟨hsub, hresult⟩, hleast⟩ := hsome u a heq
  have ho : o ≤ m := by
    by_contra hhigh
    rw [hiff.mpr (.inl (by omega))] at heq
    cases heq
  simp only [h.available_iff]
  exact ⟨hleast, hresult.len, h.taken ho hsub hresult⟩

/-- **Recorded allocations.** They panic unless the block meets no page of the client. -/
theorem Owned.recordAlloc_spec (h : Owned cap m s) (i o : ℕ) :
    (o ≤ m ∧ s.Available o i → ∃ a, s.allocator.recordAlloc i o = some a ∧
      a.len = s.allocator.len ∧ Owned cap m ⟨a, insert (i, o) s.pages⟩) ∧
    (¬ (o ≤ m ∧ s.Available o i) → s.allocator.recordAlloc i o = none) := by
  obtain ⟨hsome, hnone⟩ := BuddyAllocator.Valid.recordAlloc_spec h.wellFormed i o
  rw [h.maxOrder] at hsome hnone
  rw [h.available_iff]
  refine ⟨fun hcond => ?_, hnone⟩
  obtain ⟨a, ha, hresult⟩ := hsome hcond
  exact ⟨a, ha, hresult.len, h.taken hcond.1 hcond.2 hresult⟩

theorem Owned.free_spec (h : Owned cap m s) (hmem : (i, o) ∈ s.pages) :
    ∃ a, s.allocator.freePage i o = some a ∧ a.len = s.allocator.len ∧
      Owned cap m ⟨a, s.pages.erase (i, o)⟩ := by
  obtain ⟨a, ha, hresult⟩ := BuddyAllocator.Valid.freePage_spec h.wellFormed
    (by rw [h.maxOrder]; exact h.orders _ hmem) (h.parted.bounded _ hmem)
    (h.parted.disjoint hmem)
  exact ⟨a, ha, hresult.len, h.given hmem hresult⟩

/-- A size that the allocator can have: all pages of the client are below it, and an allocator
without pages does not grow. -/
def Resizable (s : Client) (newSize : ℕ) : Prop :=
  (s.allocator.len < newSize → 0 < s.allocator.len) ∧
    ∀ x ∈ s.pages, (x.1 + 1) * 2 ^ x.2 ≤ newSize

/-- **Changes of the size.** They panic unless the new size leaves room for the pages of the
client. -/
theorem Owned.resize_spec (h : Owned cap m s) (hsmall : cap + 2 ^ m < 2 ^ 32) {k : ℕ}
    (hk : k ≤ cap) :
    (s.Resizable k → ∃ a, s.allocator.resize k = some a ∧ a.len = k ∧
      Owned cap m ⟨a, s.pages⟩) ∧
    (¬ s.Resizable k → s.allocator.resize k = none) := by
  have hsmall' : cap + 2 ^ s.allocator.maxOrder < 2 ^ 32 := by rwa [h.maxOrder]
  rcases Nat.lt_or_ge s.allocator.len k with hlt | hge
  · have hresizable : s.Resizable k ↔ 0 < s.allocator.len := by
      refine ⟨fun hr => hr.1 hlt, fun hpos => ⟨fun _ => hpos, fun x hx => ?_⟩⟩
      exact (h.parted.bounded x hx).trans (Nat.le_of_lt hlt)
    rw [hresizable]
    constructor
    · intro hpos
      obtain ⟨a, ha, hwell, hlen, hmax, hpages⟩ := h.wellFormed.grow_spec hpos hlt hk hsmall'
      refine ⟨a, ha, hlen, hwell, hmax.trans h.maxOrder, h.orders, ?_⟩
      rw [hlen, hpages]
      exact h.parted.grow (Nat.le_of_lt hlt)
    · intro hzero
      rw [BuddyAllocator.resize, if_pos hlt, if_pos (by omega)]
  · have hresizable : s.Resizable k ↔ ∀ x ∈ s.pages, (x.1 + 1) * 2 ^ x.2 ≤ k :=
      and_iff_right fun hlt => by omega
    have htail := h.parted.tail_iff (m := k)
    obtain ⟨hsome, hnone⟩ := h.wellFormed.shrink_spec hge hsmall'
    rw [hresizable]
    refine ⟨fun hbefore => ?_, fun hnot => hnone (mt htail.mp hnot)⟩
    obtain ⟨a, ha, hwell, hlen, hmax, hpages⟩ := hsome (htail.mpr hbefore)
    refine ⟨a, ha, hlen, hwell, hmax.trans h.maxOrder, h.orders, ?_⟩
    rw [hlen, hpages]
    exact h.parted.shrink hge hbefore

/-- The counts of the allocator. -/
theorem Owned.countPages (h : Owned cap m s) :
    s.allocator.countAllocatedPages = ∑ x ∈ s.pages, 2 ^ x.2 ∧
      s.allocator.countFreePages + ∑ x ∈ s.pages, 2 ^ x.2 = s.allocator.len := by
  have hcount := h.wellFormed.countAllocatedPages_eq.trans h.parted.sum_eq
  refine ⟨hcount, ?_⟩
  have hfree : s.allocator.countFreePages ≤ s.allocator.len := by
    rw [BuddyAllocator.Valid.countFreePages_eq h.wellFormed]
    have hsub : s.allocator.freePages ⊆ ↑(Finset.range s.allocator.len) := fun p hp =>
      Finset.mem_coe.mpr (Finset.mem_range.mpr (((h.parted.free_iff p).mp hp).1))
    calc s.allocator.freePages.ncard
        ≤ (↑(Finset.range s.allocator.len) : Set ℕ).ncard :=
          Set.ncard_le_ncard hsub (Finset.finite_toSet _)
      _ = s.allocator.len := by rw [Set.ncard_coe_finset, Finset.card_range]
  rw [BuddyAllocator.countAllocatedPages] at hcount
  omega

/-- The requests that do not panic. -/
def Enabled (cap m : ℕ) (s : Client) : Request → Prop
  | .alloc _ => True
  | .allocLowest _ => True
  | .recordAlloc page order => order ≤ m ∧ s.Available order page
  | .free page order => (page, order) ∈ s.pages
  | .resize newSize => newSize ≤ cap ∧ s.Resizable newSize

/-- **Step.** A request keeps the client's view right; it panics exactly if it is not enabled. -/
theorem Owned.step (h : Owned cap m s) (hsmall : cap + 2 ^ m < 2 ^ 32) (r : Request) :
    (s.Enabled cap m r → ∃ s', s.step cap r = some s' ∧ Owned cap m s') ∧
      (¬ s.Enabled cap m r → s.step cap r = none) := by
  have htake : ∀ {o : ℕ} {f : Option (Option (ℕ × BuddyAllocator))} {r}, f = some r →
      (∀ u a, r = some (u, a) → Owned cap m ⟨a, insert (u, o) s.pages⟩) →
        ∃ s', f.map (s.take o) = some s' ∧ Owned cap m s' := by
    rintro o f r rfl hsome
    rcases r with _ | ⟨u, a⟩
    · exact ⟨s, rfl, h⟩
    · exact ⟨_, rfl, hsome u a rfl⟩
  cases r with
  | alloc o =>
      obtain ⟨r, hr, -, hsome⟩ := h.alloc_none_iff o
      exact ⟨fun _ => htake hr fun u a heq => (hsome u a heq).2.2, fun hnot => absurd trivial hnot⟩
  | allocLowest o =>
      obtain ⟨r, hr, -, hsome⟩ := h.allocLowest_least o
      exact ⟨fun _ => htake hr fun u a heq => (hsome u a heq).2.2, fun hnot => absurd trivial hnot⟩
  | recordAlloc i o =>
      obtain ⟨hsome, hnone⟩ := h.recordAlloc_spec i o
      simp only [Client.step, Option.bind_eq_bind]
      refine ⟨fun henabled => ?_, fun hnot => by rw [hnone hnot]; rfl⟩
      obtain ⟨a, ha, -, howned⟩ := hsome henabled
      exact ⟨_, by rw [ha]; rfl, howned⟩
  | free i o =>
      simp only [Client.step]
      refine ⟨fun hmem => ?_, fun hnot => if_neg hnot⟩
      obtain ⟨a, ha, -, howned⟩ := h.free_spec hmem
      exact ⟨_, by rw [if_pos (show (i, o) ∈ s.pages from hmem), ha]; rfl, howned⟩
  | resize k =>
      simp only [Client.step]
      constructor
      · rintro ⟨hk, hresizable⟩
        obtain ⟨a, ha, -, howned⟩ := (h.resize_spec hsmall hk).1 hresizable
        exact ⟨_, by rw [if_pos hk, ha]; rfl, howned⟩
      · intro hnot
        split_ifs with hk
        · rw [(h.resize_spec hsmall hk).2 fun hresizable => hnot ⟨hk, hresizable⟩]
          rfl
        · rfl

end Steps

/-! ### Runs -/

/-- The highest order of an allocator of the given capacity. -/
def highestOrder (cap : ℕ) : ℕ := min maxMaxPageOrder cap.log2

theorem small_of_le {cap : ℕ} (hcap : cap ≤ 2 ^ 31) : cap + 2 ^ highestOrder cap < 2 ^ 32 := by
  have hpow : 2 ^ highestOrder cap ≤ 2 ^ 20 := Nat.pow_le_pow_right (by omega) (Nat.min_le_left _ _)
  omega

/-- The client of a new allocator has no pages. -/
theorem owned_new {n cap : ℕ} (hpos : 0 < cap) (hle : n ≤ cap) (hcap : cap ≤ 2 ^ 31)
    {a : BuddyAllocator} (ha : BuddyAllocator.new n cap = some a) :
    Owned cap (highestOrder cap) ⟨a, ∅⟩ := by
  obtain ⟨a', ha', hwell, hlen, hmax, hpages⟩ :=
    BuddyAllocator.new_spec hpos hle (small_of_le hcap)
  obtain rfl := Option.some.inj (ha.symm.trans ha')
  refine ⟨hwell, hmax, fun x hx => absurd hx (Finset.notMem_empty x), ?_⟩
  rw [hlen, hpages, Finset.coe_empty]
  exact parted_empty n

variable {n cap : ℕ} {a : BuddyAllocator} {rs : List Request} {t : Client}

/-- **Run.** The client's view is right after every run. -/
theorem run_owned (hpos : 0 < cap) (hle : n ≤ cap) (hcap : cap ≤ 2 ^ 31)
    (ha : BuddyAllocator.new n cap = some a)
    (hrun : Machine.run (step cap) ⟨a, ∅⟩ rs = some t) : Owned cap (highestOrder cap) t := by
  refine Machine.run_invariant (fun s r s' h hstep => ?_) (owned_new hpos hle hcap ha) hrun
  by_cases henabled : s.Enabled cap (highestOrder cap) r
  · obtain ⟨s'', hs'', howned⟩ := (h.step (small_of_le hcap) r).1 henabled
    obtain rfl := Option.some.inj (hstep.symm.trans hs'')
    exact howned
  · rw [(h.step (small_of_le hcap) r).2 henabled] at hstep
    cases hstep

/-- An allocator of five pages that takes and gives back a block, grows, and allocates the lowest
page. -/
def reuse : List Request := [.alloc 1, .alloc 0, .free 0 1, .resize 8, .allocLowest 0]

theorem exists_reuse : ∃ a t, BuddyAllocator.new 5 8 = some a ∧
    Machine.run (step 8) ⟨a, ∅⟩ reuse = some t ∧ 0 < t.allocator.len := by
  have h : ((BuddyAllocator.new 5 8).bind fun a => Machine.run (step 8) ⟨a, ∅⟩ reuse).any
      (fun t => decide (0 < t.allocator.len)) = true := by decide +kernel
  rw [Option.any_eq_true] at h
  obtain ⟨t, ht, hlen⟩ := h
  obtain ⟨a, ha, hrun⟩ := Option.bind_eq_some_iff.mp ht
  exact ⟨a, t, ha, hrun, of_decide_eq_true hlen⟩

/-- **Every page once.** In every run each page is free or in exactly one of the pages that the
client has, no two of which overlap, and the allocator counts them. -/
theorem run_parted (hpos : 0 < cap) (hle : n ≤ cap) (hcap : cap ≤ 2 ^ 31)
    (ha : BuddyAllocator.new n cap = some a)
    (hrun : Machine.run (step cap) ⟨a, ∅⟩ rs = some t) :
    Parted t.allocator.len t.allocator.freePages ↑t.pages ∧
      t.allocator.countAllocatedPages = ∑ x ∈ t.pages, 2 ^ x.2 ∧
      t.allocator.countFreePages + ∑ x ∈ t.pages, 2 ^ x.2 = t.allocator.len := by
  have h := run_owned hpos hle hcap ha hrun
  exact ⟨h.parted, h.countPages⟩

theorem run_parted_reuse : ∃ a t, BuddyAllocator.new 5 8 = some a ∧
    Machine.run (step 8) ⟨a, ∅⟩ reuse = some t ∧
    Parted t.allocator.len t.allocator.freePages ↑t.pages ∧
      t.allocator.countAllocatedPages = ∑ x ∈ t.pages, 2 ^ x.2 ∧
      t.allocator.countFreePages + ∑ x ∈ t.pages, 2 ^ x.2 = t.allocator.len := by
  obtain ⟨a, t, ha, hrun, -⟩ := exists_reuse
  exact ⟨a, t, ha, hrun, run_parted (by omega) (by omega) (by omega) ha hrun⟩

/-- **Requests.** In every state that a run reaches, an allocation fails exactly if the order is too
high or each block of the order meets a page of the client, and the lowest allocation takes the
lowest block that meets none. No request panics but the recording of a block that is not free. -/
theorem run_requests (hpos : 0 < cap) (hle : n ≤ cap) (hcap : cap ≤ 2 ^ 31)
    (ha : BuddyAllocator.new n cap = some a)
    (hrun : Machine.run (step cap) ⟨a, ∅⟩ rs = some t) (o : ℕ) :
    (∃ r, t.allocator.alloc o = some r ∧
      (r = none ↔ highestOrder cap < o ∨ ∀ i, ¬ t.Available o i) ∧
      ∀ u a', r = some (u, a') → t.Available o u) ∧
    (∃ r, t.allocator.allocLowest o = some r ∧
      (r = none ↔ highestOrder cap < o ∨ ∀ i, ¬ t.Available o i) ∧
      ∀ u a', r = some (u, a') → IsLeast {i | t.Available o i} u) ∧
    (∀ i, t.allocator.recordAlloc i o ≠ none ↔ o ≤ highestOrder cap ∧ t.Available o i) ∧
    ∀ i, (i, o) ∈ t.pages → t.allocator.freePage i o ≠ none := by
  have h := run_owned hpos hle hcap ha hrun
  obtain ⟨r, hr, hiff, hsome⟩ := h.alloc_none_iff o
  obtain ⟨r', hr', hiff', hsome'⟩ := h.allocLowest_least o
  refine ⟨⟨r, hr, hiff, fun u a' heq => (hsome u a' heq).1⟩,
    ⟨r', hr', hiff', fun u a' heq => (hsome' u a' heq).1⟩, fun i => ?_, fun i hmem => ?_⟩
  · obtain ⟨hrecorded, hpanics⟩ := h.recordAlloc_spec i o
    refine ⟨fun hne => by_contra fun hnot => hne (hpanics hnot), fun hcond => ?_⟩
    obtain ⟨a', ha', -⟩ := hrecorded hcond
    rw [ha']
    exact Option.some_ne_none a'
  · obtain ⟨a', ha', -⟩ := h.free_spec hmem
    rw [ha']
    exact Option.some_ne_none a'

theorem run_requests_reuse : ∃ a t, BuddyAllocator.new 5 8 = some a ∧
    Machine.run (step 8) ⟨a, ∅⟩ reuse = some t ∧
    (∃ r, t.allocator.alloc 1 = some r ∧
      (r = none ↔ highestOrder 8 < 1 ∨ ∀ i, ¬ t.Available 1 i) ∧
      ∀ u a', r = some (u, a') → t.Available 1 u) ∧
    (∃ r, t.allocator.allocLowest 1 = some r ∧
      (r = none ↔ highestOrder 8 < 1 ∨ ∀ i, ¬ t.Available 1 i) ∧
      ∀ u a', r = some (u, a') → IsLeast {i | t.Available 1 i} u) ∧
    (∀ i, t.allocator.recordAlloc i 1 ≠ none ↔ 1 ≤ highestOrder 8 ∧ t.Available 1 i) ∧
    ∀ i, (i, 1) ∈ t.pages → t.allocator.freePage i 1 ≠ none := by
  obtain ⟨a, t, ha, hrun, -⟩ := exists_reuse
  exact ⟨a, t, ha, hrun, run_requests (by omega) (by omega) (by omega) ha hrun 1⟩

/-- **Sizes.** In every state that a run reaches, with pages, `trailing_free_pages` tells by how
much the allocator can shrink: exactly by that many pages and by fewer, and it grows up to its
capacity. -/
theorem run_sizes (hpos : 0 < cap) (hle : n ≤ cap) (hcap : cap ≤ 2 ^ 31)
    (ha : BuddyAllocator.new n cap = some a)
    (hrun : Machine.run (step cap) ⟨a, ∅⟩ rs = some t) (hlen : 0 < t.allocator.len) :
    ∃ k, t.allocator.trailingFreePages = some k ∧
      ∀ newSize ≤ cap, t.allocator.resize newSize ≠ none ↔ t.allocator.len ≤ newSize + k := by
  have h := run_owned hpos hle hcap ha hrun
  obtain ⟨k, hk, ⟨hle', hfree⟩, hgreatest⟩ := h.wellFormed.trailingFreePages_spec hlen
  refine ⟨k, hk, fun newSize hsize => ?_⟩
  obtain ⟨hsome, hnone⟩ := h.resize_spec (small_of_le hcap) hsize
  have hresizable : t.Resizable newSize ↔ t.allocator.len ≤ newSize + k := by
    rw [Resizable, and_iff_right fun _ => hlen]
    refine h.parted.tail_iff.symm.trans ⟨fun htail => ?_, fun hsum p hge hlt => ?_⟩
    · by_contra hgt
      have hup : t.allocator.len - newSize ≤ k :=
        hgreatest ⟨Nat.sub_le _ _, fun p hge hlt => htail p (by omega) hlt⟩
      omega
    · exact hfree p (by omega) hlt
  rw [← hresizable]
  refine ⟨fun hne => by_contra fun hnot => hne (hnone hnot), fun hr => ?_⟩
  obtain ⟨a', ha', -⟩ := hsome hr
  rw [ha']
  exact Option.some_ne_none a'

theorem run_sizes_reuse : ∃ a t, BuddyAllocator.new 5 8 = some a ∧
    Machine.run (step 8) ⟨a, ∅⟩ reuse = some t ∧
    ∃ k, t.allocator.trailingFreePages = some k ∧
      ∀ newSize ≤ 8, t.allocator.resize newSize ≠ none ↔ t.allocator.len ≤ newSize + k := by
  obtain ⟨a, t, ha, hrun, hlen⟩ := exists_reuse
  exact ⟨a, t, ha, hrun, run_sizes (by omega) (by omega) (by omega) ha hrun hlen⟩

end Client

end Torpor.Redb
