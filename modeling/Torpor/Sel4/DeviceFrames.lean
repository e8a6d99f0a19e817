import Mathlib.Algebra.Group.Nat.Defs
import Mathlib.Data.List.Basic
import Mathlib.Logic.Function.Basic
import Mathlib.Tactic.Common
import Torpor.Lib.Assoc

/-!
# Frames at a Physical Address

`allocate_device_frames` takes the first device untyped that covers a range of physical addresses,
fills what lies before the range with smaller untypeds (`trim_untyped`), and makes the frames from
what is left. The kernel has no argument for an address: it allocates at the watermark of the
untyped, rounded up to the size of the object. So the fillers have to be aligned by themselves. They
are deleted on the way, each one after the next one was made, as an untyped without children starts
again at its base.

The kernel is a parameter, `Kernel`, with what is documented of it in `Kernel.Documented`. Addresses
are numbers below `2 ^ 64`. The sums of the test for the range wrap around; the position of the loop
does not pass its target. A panic is `none`.

## Main results

* `trimLoop_watermark`: the loop leaves the watermark at the target.
* `allocateDeviceFrames_at`: the frames are at the addresses asked for.
-/

namespace Torpor.DeviceFrames

/-! ### The kernel -/

/-- `ObjectBlueprint`, as far as the allocator of device frames uses it. -/
inductive ObjectBlueprint
  | untyped (sizeBits : ℕ)
  | smallPage
  deriving DecidableEq, Repr

/-- The size of an object in bytes. -/
def ObjectBlueprint.size : ObjectBlueprint → ℕ
  | .untyped sizeBits => 2 ^ sizeBits
  | .smallPage => 4096

/-- An object that was made from an untyped: the index of the untyped in the list of the boot
information, the kind and the physical address. -/
structure Object where
  untyped : ℕ
  blueprint : ObjectBlueprint
  paddr : ℕ
  deriving DecidableEq, Repr

/-- `UntypedDesc`: an untyped is aligned to its size, and it ends below the top of the address
space. -/
structure UntypedDesc where
  paddr : ℕ
  sizeBits : ℕ
  isDevice : Bool
  aligned : 2 ^ sizeBits ∣ paddr
  inSpace : paddr + 2 ^ sizeBits < 2 ^ 64

/-- The address that an untyped ends at. -/
def UntypedDesc.limit (d : UntypedDesc) : ℕ := d.paddr + 2 ^ d.sizeBits

/-- A device untyped has the pages of a range. -/
structure UntypedDesc.Covers (d : UntypedDesc) (target n : ℕ) : Prop where
  isDevice : d.isDevice = true
  le : d.paddr ≤ target
  limit : target + n * 4096 ≤ d.limit

/-- The least multiple of `size` from `addr` on. -/
def alignUp (addr size : ℕ) : ℕ := (addr + (size - 1)) / size * size

/-- The invocations of the kernel, on states of any kind, and what can be told of a state: the
object in a slot of the CNode, and the watermark of an untyped. An error is `none`. -/
structure Kernel (σ : Type) where
  slots : σ → ℕ → Option Object
  watermark : σ → ℕ → ℕ
  untypedRetype : σ → (ut : ℕ) → ObjectBlueprint → (slot count : ℕ) → Option σ
  delete : σ → ℕ → σ
  move : σ → (dst src : ℕ) → Option σ

namespace Kernel

variable {σ : Type}

/-- A slot has an object that was made from the untyped. -/
def HasChildren (K : Kernel σ) (s : σ) (ut : ℕ) : Prop :=
  ∃ i o, K.slots s i = some o ∧ o.untyped = ut

/-- What is documented of the kernel. An untyped gives its objects one after the other, from its
watermark on, rounded up to their size; without children it starts again. -/
structure Documented (K : Kernel σ) (untypedList : List UntypedDesc) : Prop where
  retype : ∀ (s : σ) (ut : ℕ) (d : UntypedDesc) (bp : ObjectBlueprint) (slot count : ℕ),
    untypedList[ut]? = some d → (∀ i < count, K.slots s (slot + i) = none) →
    alignUp (K.watermark s ut) bp.size + count * bp.size ≤ d.limit →
    ∃ s', K.untypedRetype s ut bp slot count = some s' ∧
      K.watermark s' ut = alignUp (K.watermark s ut) bp.size + count * bp.size ∧
      (∀ i < count, K.slots s' (slot + i) =
        some ⟨ut, bp, alignUp (K.watermark s ut) bp.size + i * bp.size⟩) ∧
      ∀ j, (∀ i < count, j ≠ slot + i) → K.slots s' j = K.slots s j
  delete_slots : ∀ (s : σ) (slot : ℕ),
    K.slots (K.delete s slot) = Function.update (K.slots s) slot none
  delete_keeps : ∀ (s : σ) (slot ut : ℕ), K.HasChildren (K.delete s slot) ut →
    K.watermark (K.delete s slot) ut = K.watermark s ut
  delete_resets : ∀ (s : σ) (slot ut : ℕ) (d : UntypedDesc), untypedList[ut]? = some d →
    K.HasChildren s ut → ¬K.HasChildren (K.delete s slot) ut →
    K.watermark (K.delete s slot) ut = d.paddr
  move : ∀ (s : σ) (dst src : ℕ) (o : Object), K.slots s dst = none → K.slots s src = some o →
    ∃ s', K.move s dst src = some s' ∧ K.watermark s' = K.watermark s ∧
      K.slots s' = Function.update (Function.update (K.slots s) src none) dst (some o)

end Kernel

/-! ### The allocator -/

/-- `ObjectAllocator`, less the untyped of the kernel: the range `empty_slots`. -/
structure ObjectAllocator where
  start : ℕ
  stop : ℕ
  deriving DecidableEq, Repr

namespace ObjectAllocator

/-- `next_slot`. -/
def nextSlot (a : ObjectAllocator) : Option (ℕ × ObjectAllocator) :=
  if a.start < a.stop then some (a.start, { a with start := a.start + 1 }) else none

/-- The loop of `next_slots_batch`. -/
def skipSlots : ℕ → ObjectAllocator → Option ObjectAllocator
  | 0, a => some a
  | n + 1, a => do
      let (_, a) ← a.nextSlot
      skipSlots n a

/-- `next_slots_batch`. -/
def nextSlotsBatch (a : ObjectAllocator) (n : ℕ) : Option (ℕ × ObjectAllocator) := do
  let (base, a) ← a.nextSlot
  let a ← skipSlots (n - 1) a
  some (base, a)

variable {σ : Type}

/-- The loop of `trim_untyped`. -/
def trimLoop (K : Kernel σ) (ut slotA slotB target cur : ℕ) (s : σ) : Option σ :=
  if cur < target then do
    let sizeBits := Nat.log2 (target - cur)
    let s ← K.untypedRetype s ut (.untyped sizeBits) slotB 1
    let s := K.delete s slotA
    let s ← K.move s slotA slotB
    trimLoop K ut slotA slotB target (cur + 2 ^ sizeBits) s
  else some s
termination_by target - cur
decreasing_by
  have := Nat.two_pow_pos (Nat.log2 (target - cur))
  omega

/-- `trim_untyped`. -/
def trimUntyped (K : Kernel σ) (ut utPaddr target : ℕ) (a : ObjectAllocator) (s : σ) :
    Option (ObjectAllocator × σ) := do
  let (slotA, a) ← a.nextSlot
  let (slotB, a) ← a.nextSlot
  let s ← trimLoop K ut slotA slotB target utPaddr s
  some (a, s)

/-- The test of `allocate_device_frames` on an untyped. -/
def covering (target n : ℕ) (d : UntypedDesc) : Bool :=
  d.isDevice && decide (d.paddr ≤ target) &&
    decide ((target + n * 4096) % 2 ^ 64 ≤ (d.paddr + 2 ^ d.sizeBits) % 2 ^ 64)

/-- `allocate_device_frames`: the slots of the frames. -/
def allocateDeviceFrames (K : Kernel σ) (untypedList : List UntypedDesc) (target n : ℕ)
    (a : ObjectAllocator) (s : σ) : Option (List ℕ × ObjectAllocator × σ) := do
  let ut ← untypedList.findIdx? (covering target n)
  let d ← untypedList[ut]?
  let (a, s) ← (if d.paddr < target then trimUntyped K ut d.paddr target a s else some (a, s))
  let (base, a) ← a.nextSlotsBatch n
  let s ← K.untypedRetype s ut .smallPage base n
  some ((List.range n).map (base + ·), a, s)

end ObjectAllocator

/-! ### Gaps -/

theorem alignUp_of_dvd {addr size : ℕ} (hsize : 0 < size) (h : size ∣ addr) :
    alignUp addr size = addr := by
  obtain ⟨m, rfl⟩ := h
  rw [alignUp, Nat.mul_add_div hsize, Nat.div_eq_of_lt (by omega), Nat.add_zero, Nat.mul_comm]

/-- Every power of two that fits between `cur` and `target` is one that `cur` is aligned to. -/
def Fillable (cur target : ℕ) : Prop := ∀ e, 2 ^ e ≤ target - cur → 2 ^ e ∣ cur

/-- It is so at the start of a block that is aligned to its size, for a target inside. -/
theorem UntypedDesc.fillable (d : UntypedDesc) {target : ℕ} (h : target < d.limit) :
    Fillable d.paddr target := by
  intro e he
  rw [UntypedDesc.limit] at h
  have hpos := Nat.two_pow_pos e
  have hlt : 2 ^ e < 2 ^ d.sizeBits := by omega
  have hle : e ≤ d.sizeBits := Nat.le_of_lt ((Nat.pow_lt_pow_iff_right Nat.one_lt_two).mp hlt)
  exact Nat.dvd_trans (Nat.pow_dvd_pow 2 hle) d.aligned

/-- What is left behind the largest power of two that fits is less than this one, which the position
stays aligned to. -/
theorem Fillable.step {cur target : ℕ} (h : Fillable cur target) (hlt : cur < target) :
    Fillable (cur + 2 ^ Nat.log2 (target - cur)) target := by
  have hfits : 2 ^ Nat.log2 (target - cur) ≤ target - cur := Nat.log2_self_le (by omega)
  have hleft : target - cur < 2 ^ (Nat.log2 (target - cur) + 1) := Nat.lt_log2_self
  intro e he
  rw [Nat.pow_succ] at hleft
  have hsmaller : 2 ^ e < 2 ^ Nat.log2 (target - cur) := by omega
  have hle := Nat.le_of_lt ((Nat.pow_lt_pow_iff_right Nat.one_lt_two).mp hsmaller)
  have hdvd : 2 ^ e ∣ 2 ^ Nat.log2 (target - cur) := Nat.pow_dvd_pow 2 hle
  exact Nat.dvd_add (Nat.dvd_trans hdvd (h _ hfits)) hdvd

/-! ### The loop -/

namespace ObjectAllocator

variable {σ : Type} {K : Kernel σ} {untypedList : List UntypedDesc} {ut : ℕ} {d : UntypedDesc}

/-- What holds before each round of the loop. -/
structure Trimming (K : Kernel σ) (ut slotB target cur : ℕ) (s : σ) : Prop where
  le : cur ≤ target
  watermark : K.watermark s ut = cur
  fillable : Fillable cur target
  slotB : K.slots s slotB = none

/-- A round makes the next filler at the watermark, and it is there while the last one is
deleted. -/
theorem Trimming.step (hK : K.Documented untypedList) (hut : untypedList[ut]? = some d)
    {slotA slotB target cur : ℕ} (hne : slotA ≠ slotB) (hlimit : target ≤ d.limit) {s : σ}
    (h : Trimming K ut slotB target cur s) (hlt : cur < target) :
    ∃ s₁ s₂, K.untypedRetype s ut (.untyped (Nat.log2 (target - cur))) slotB 1 = some s₁ ∧
      K.move (K.delete s₁ slotA) slotA slotB = some s₂ ∧
      Trimming K ut slotB target (cur + 2 ^ Nat.log2 (target - cur)) s₂ ∧
      ∀ j, j ≠ slotA → j ≠ slotB → K.slots s₂ j = K.slots s j := by
  generalize hbits : Nat.log2 (target - cur) = sizeBits
  have hfits : 2 ^ sizeBits ≤ target - cur := hbits ▸ Nat.log2_self_le (by omega)
  have hstart : alignUp (K.watermark s ut) (2 ^ sizeBits) = cur := by
    rw [h.watermark, alignUp_of_dvd (Nat.two_pow_pos _) (h.fillable _ hfits)]
  obtain ⟨s₁, hretype, hwatermark, hmade, hothers⟩ :=
    hK.retype s ut d (.untyped sizeBits) slotB 1 hut
      (fun i hi => by rw [Nat.lt_one_iff.mp hi]; exact h.slotB)
      (by rw [ObjectBlueprint.size, hstart]; omega)
  rw [ObjectBlueprint.size, hstart, Nat.one_mul] at hwatermark
  have hfiller : K.slots s₁ slotB = some ⟨ut, .untyped sizeBits, cur⟩ := by
    have h₀ := hmade 0 Nat.zero_lt_one
    rwa [Nat.zero_mul, Nat.add_zero, Nat.add_zero, ObjectBlueprint.size, hstart] at h₀
  have hslots := hK.delete_slots s₁ slotA
  have hkept : K.slots (K.delete s₁ slotA) slotB = some ⟨ut, .untyped sizeBits, cur⟩ := by
    rw [hslots, Function.update_of_ne hne.symm, hfiller]
  have hchild : K.HasChildren (K.delete s₁ slotA) ut := ⟨slotB, _, hkept, rfl⟩
  obtain ⟨s₂, hmove, hmoved, hplaces⟩ := hK.move (K.delete s₁ slotA) slotA slotB ⟨ut, _, cur⟩
    (by rw [hslots, Function.update_self]) hkept
  refine ⟨s₁, s₂, hretype, hmove, ⟨by omega, ?_, hbits ▸ h.fillable.step hlt, ?_⟩, ?_⟩
  · rw [hmoved, hK.delete_keeps s₁ slotA ut hchild, hwatermark]
  · rw [hplaces, Function.update_of_ne hne.symm, Function.update_self]
  · intro j hA hB
    rw [hplaces, Function.update_of_ne hA, Function.update_of_ne hB, hslots,
      Function.update_of_ne hA]
    refine hothers j fun i hi => ?_
    rw [Nat.lt_one_iff.mp hi]
    exact hB

/-- The loop ends with the watermark at the target. -/
theorem trimLoop_watermark (hK : K.Documented untypedList) (hut : untypedList[ut]? = some d)
    {slotA slotB target : ℕ} (hne : slotA ≠ slotB) (hlimit : target ≤ d.limit) {cur : ℕ} {s : σ}
    (h : Trimming K ut slotB target cur s) :
    ∃ s', trimLoop K ut slotA slotB target cur s = some s' ∧ K.watermark s' ut = target ∧
      ∀ j, j ≠ slotA → j ≠ slotB → K.slots s' j = K.slots s j := by
  induction hgap : target - cur using Nat.strong_induction_on generalizing cur s with
  | _ gap ih =>
    rw [trimLoop]
    by_cases hlt : cur < target
    · obtain ⟨s₁, s₂, hretype, hmove, hstep, hframe⟩ := h.step hK hut hne hlimit hlt
      have hpos := Nat.two_pow_pos (Nat.log2 (target - cur))
      obtain ⟨s', hrest, hwatermark, hothers⟩ := ih _ (by omega) hstep rfl
      refine ⟨s', ?_, hwatermark, fun j hA hB => (hothers j hA hB).trans (hframe j hA hB)⟩
      simp only [if_pos hlt, hretype, hmove, hrest, Option.bind_eq_bind, Option.bind_some]
    · rw [if_neg hlt]
      exact ⟨s, rfl, h.watermark.trans (Nat.le_antisymm h.le (Nat.le_of_not_lt hlt)),
        fun j _ _ => rfl⟩

/-! ### The slots -/

theorem skipSlots_eq (n : ℕ) (a : ObjectAllocator) (h : a.start + n ≤ a.stop) :
    skipSlots n a = some { a with start := a.start + n } := by
  induction n generalizing a with
  | zero => rfl
  | succ n ih =>
      have hnext : a.nextSlot = some (a.start, { a with start := a.start + 1 }) :=
        if_pos (by omega)
      have hlow : a.start + 1 + n ≤ a.stop := by omega
      simp only [skipSlots, hnext, Option.bind_eq_bind, Option.bind_some]
      rw [ih { a with start := a.start + 1 } hlow, Nat.add_assoc, Nat.add_comm 1]

theorem nextSlotsBatch_eq {n : ℕ} {a : ObjectAllocator} (hn : 1 ≤ n) (h : a.start + n ≤ a.stop) :
    a.nextSlotsBatch n = some (a.start, { a with start := a.start + n }) := by
  have hnext : a.nextSlot = some (a.start, { a with start := a.start + 1 }) :=
    if_pos (by omega)
  have hlow : a.start + 1 + (n - 1) ≤ a.stop := by omega
  simp only [nextSlotsBatch, hnext, Option.bind_eq_bind, Option.bind_some]
  rw [skipSlots_eq (n - 1) { a with start := a.start + 1 } hlow,
    show a.start + 1 + (n - 1) = a.start + n by omega]
  rfl

/-! ### The frames -/

/-- The sums of the test wrap around only behind the top of the address space. -/
theorem covering_iff {target n : ℕ} (h : target + n * 4096 < 2 ^ 64) (d : UntypedDesc) :
    covering target n d = true ↔ d.Covers target n := by
  have hlimit := d.inSpace
  rw [covering, Nat.mod_eq_of_lt h, Nat.mod_eq_of_lt hlimit, Bool.and_eq_true, Bool.and_eq_true,
    decide_eq_true_iff, decide_eq_true_iff]
  exact ⟨fun ⟨⟨hdevice, hle⟩, hend⟩ => ⟨hdevice, hle, hend⟩,
    fun hcovers => ⟨⟨hcovers.isDevice, hcovers.le⟩, hcovers.limit⟩⟩

/-- The first untyped that covers the range is found. -/
theorem findIdx?_covering {target n : ℕ} (hut : untypedList[ut]? = some d)
    (hcovers : d.Covers target n)
    (hfirst : ∀ j < ut, ∀ e, untypedList[j]? = some e → ¬e.Covers target n) :
    untypedList.findIdx? (covering target n) = some ut := by
  have hspace : target + n * 4096 < 2 ^ 64 := Nat.lt_of_le_of_lt hcovers.limit d.inSpace
  obtain ⟨hlt, rfl⟩ := List.getElem?_eq_some_iff.mp hut
  rw [List.findIdx?_eq_some_iff_getElem]
  refine ⟨hlt, (covering_iff hspace _).mpr hcovers, fun j hj hfound => ?_⟩
  exact hfirst j hj _ (List.getElem?_eq_getElem (by omega)) ((covering_iff hspace _).mp hfound)

/-- The trimming takes two slots, and it leaves the watermark at the target. -/
theorem trimUntyped_watermark (hK : K.Documented untypedList) (hut : untypedList[ut]? = some d)
    {target : ℕ} (hle : d.paddr ≤ target) (hlimit : target < d.limit) {s : σ}
    (hfresh : K.watermark s ut = d.paddr) {a : ObjectAllocator} (hslots : a.start + 2 ≤ a.stop)
    (hempty : ∀ j, a.start ≤ j → j < a.stop → K.slots s j = none) :
    ∃ s', trimUntyped K ut d.paddr target a s = some ({ a with start := a.start + 2 }, s') ∧
      K.watermark s' ut = target ∧ ∀ j, a.start + 2 ≤ j → K.slots s' j = K.slots s j := by
  have hfirst : a.nextSlot = some (a.start, { a with start := a.start + 1 }) := if_pos (by omega)
  have hsecond : ObjectAllocator.nextSlot { a with start := a.start + 1 } =
      some (a.start + 1, { a with start := a.start + 2 }) := if_pos (by simp only; omega)
  have hstart : Trimming K ut (a.start + 1) target d.paddr s :=
    ⟨hle, hfresh, d.fillable hlimit, hempty _ (by omega) (by omega)⟩
  obtain ⟨s', hloop, hwatermark, hothers⟩ := trimLoop_watermark hK hut
    (Nat.ne_of_lt (Nat.lt_succ_self a.start)) (Nat.le_of_lt hlimit) hstart
  refine ⟨s', ?_, hwatermark, fun j hj => hothers j (by omega) (by omega)⟩
  simp only [trimUntyped, hfirst, hsecond, hloop, Option.bind_eq_bind, Option.bind_some]

/-- The watermark is at the target before the frames are made, trimmed or not. -/
theorem atTarget (hK : K.Documented untypedList) (hut : untypedList[ut]? = some d)
    {target : ℕ} (hle : d.paddr ≤ target) (hlimit : target < d.limit) {s : σ}
    (hfresh : K.watermark s ut = d.paddr) {a : ObjectAllocator}
    (hslots : a.start + (if d.paddr < target then 2 else 0) ≤ a.stop)
    (hempty : ∀ j, a.start ≤ j → j < a.stop → K.slots s j = none) :
    ∃ a' s', (if d.paddr < target then trimUntyped K ut d.paddr target a s else some (a, s)) =
        some (a', s') ∧
      a'.start = a.start + (if d.paddr < target then 2 else 0) ∧ a'.stop = a.stop ∧
      K.watermark s' ut = target ∧ ∀ j, a'.start ≤ j → K.slots s' j = K.slots s j := by
  by_cases hlt : d.paddr < target
  · rw [if_pos hlt] at hslots
    simp only [if_pos hlt]
    obtain ⟨s', htrim, hwatermark, hothers⟩ :=
      trimUntyped_watermark hK hut hle hlimit hfresh hslots hempty
    exact ⟨_, s', htrim, rfl, rfl, hwatermark, hothers⟩
  · simp only [if_neg hlt]
    have hbase : d.paddr = target := Nat.le_antisymm hle (Nat.le_of_not_lt hlt)
    exact ⟨a, s, rfl, rfl, rfl, hfresh.trans hbase, fun _ _ => rfl⟩

/-- From a watermark at the target, the frames are at the target and behind it. -/
theorem untypedRetype_frames (hK : K.Documented untypedList) (hut : untypedList[ut]? = some d)
    {target n base : ℕ} (hpage : 4096 ∣ target) (hlimit : target + n * 4096 ≤ d.limit) {s : σ}
    (hwatermark : K.watermark s ut = target) (hempty : ∀ i < n, K.slots s (base + i) = none) :
    ∃ s', K.untypedRetype s ut .smallPage base n = some s' ∧
      ∀ i < n, K.slots s' (base + i) = some ⟨ut, .smallPage, target + i * 4096⟩ := by
  have hstart : alignUp (K.watermark s ut) 4096 = target := by
    rw [hwatermark, alignUp_of_dvd (by decide) hpage]
  obtain ⟨s', hretype, -, hmade, -⟩ := hK.retype s ut d .smallPage base n hut hempty
    (by rw [ObjectBlueprint.size, hstart]; exact hlimit)
  rw [ObjectBlueprint.size, hstart] at hmade
  exact ⟨s', hretype, hmade⟩

/-- The frames of a range that a device untyped covers: the loop of `trim_untyped` ends with the
watermark at the target, and the frames are those of the range. The first untyped that covers the
range must not be retyped before, that is, its watermark is at its base; the slots that are taken
must be there, and empty. -/
theorem allocateDeviceFrames_at (hK : K.Documented untypedList) {target n : ℕ}
    (hpage : 4096 ∣ target) (hn : 1 ≤ n) (hut : untypedList[ut]? = some d)
    (hcovers : d.Covers target n)
    (hfirst : ∀ j < ut, ∀ e, untypedList[j]? = some e → ¬e.Covers target n)
    {s : σ} (hfresh : K.watermark s ut = d.paddr) {a : ObjectAllocator}
    (hslots : a.start + (if d.paddr < target then 2 else 0) + n ≤ a.stop)
    (hempty : ∀ j, a.start ≤ j → j < a.stop → K.slots s j = none) :
    (d.paddr < target → ∃ a' s', trimUntyped K ut d.paddr target a s = some (a', s') ∧
      K.watermark s' ut = target) ∧
    ∃ frames a' s', allocateDeviceFrames K untypedList target n a s = some (frames, a', s') ∧
      frames.length = n ∧ ∀ i < n, ∃ slot, frames[i]? = some slot ∧
        K.slots s' slot = some ⟨ut, .smallPage, target + i * 4096⟩ := by
  have hlimit := hcovers.limit
  obtain ⟨a₁, s₁, hready, hstart, hstop, hwatermark, hothers⟩ :=
    atTarget hK hut hcovers.le (by omega) hfresh (by omega) hempty
  have hfind := findIdx?_covering hut hcovers hfirst
  have hbatch : a₁.nextSlotsBatch n = some (a₁.start, { a₁ with start := a₁.start + n }) :=
    nextSlotsBatch_eq hn (by omega)
  have hfree : ∀ i < n, K.slots s₁ (a₁.start + i) = none := fun i hi =>
    (hothers _ (by omega)).trans (hempty _ (by omega) (by omega))
  obtain ⟨s₂, hretype, hmade⟩ := untypedRetype_frames hK hut hpage hlimit hwatermark hfree
  constructor
  · intro hlt
    rw [if_pos hlt] at hready
    exact ⟨a₁, s₁, hready, hwatermark⟩
  · refine ⟨(List.range n).map (a₁.start + ·), { a₁ with start := a₁.start + n }, s₂, ?_, ?_, ?_⟩
    · simp only [allocateDeviceFrames, hfind, hut, hready, hbatch, hretype, Option.bind_eq_bind,
        Option.bind_some]
    · rw [List.length_map, List.length_range]
    · intro i hi
      refine ⟨a₁.start + i, ?_, hmade i hi⟩
      rw [List.getElem?_map, List.getElem?_range hi, Option.map_some]

end ObjectAllocator

/-! ### A kernel -/

/-- The state of a kernel that keeps the objects of the CNode in a finite map. -/
structure Table where
  objects : AList fun _ : ℕ => Object
  marks : ℕ → ℕ

namespace Table

/-- The objects that one retype makes, in slots that follow each other. -/
def place (m : AList fun _ : ℕ => Object) (slot : ℕ) (made : ℕ → Object) :
    ℕ → AList fun _ : ℕ => Object
  | 0 => m
  | count + 1 => (place m slot made count).insert (slot + count) (made count)

/-- An object of the map was made from the untyped. -/
def Parent (m : AList fun _ : ℕ => Object) (ut : ℕ) : Prop := ∃ e ∈ m.entries, e.2.untyped = ut

instance (m : AList fun _ : ℕ => Object) (ut : ℕ) : Decidable (Parent m ut) :=
  inferInstanceAs (Decidable (∃ e ∈ m.entries, e.2.untyped = ut))

/-- The state with `count` more objects of the untyped, from the address `start` on. -/
def retyped (s : Table) (ut : ℕ) (bp : ObjectBlueprint) (slot count start : ℕ) : Table where
  objects := place s.objects slot (fun i => ⟨ut, bp, start + i * bp.size⟩) count
  marks := Function.update s.marks ut (start + count * bp.size)

/-- `untyped_retype`. -/
def untypedRetype (untypedList : List UntypedDesc) (s : Table) (ut : ℕ) (bp : ObjectBlueprint)
    (slot count : ℕ) : Option Table :=
  untypedList[ut]?.bind fun d =>
    let start := alignUp (s.marks ut) bp.size
    if (∀ i < count, s.objects.lookup (slot + i) = none) ∧ start + count * bp.size ≤ d.limit then
      some (retyped s ut bp slot count start)
    else none

/-- `delete`: an untyped that loses its last child starts again. -/
def delete (untypedList : List UntypedDesc) (s : Table) (slot : ℕ) : Table :=
  let objects := s.objects.erase slot
  ⟨objects, fun ut =>
    if Parent s.objects ut ∧ ¬Parent objects ut then untypedList[ut]?.elim 0 UntypedDesc.paddr
    else s.marks ut⟩

/-- `move_`. -/
def move (s : Table) (dst src : ℕ) : Option Table :=
  if s.objects.lookup dst = none then
    (s.objects.lookup src).map fun o => { s with objects := (s.objects.erase src).insert dst o }
  else none

/-- The invocations on the tables. -/
def kernel (untypedList : List UntypedDesc) : Kernel Table where
  slots s i := s.objects.lookup i
  watermark s := s.marks
  untypedRetype := untypedRetype untypedList
  delete := delete untypedList
  move := move

theorem lookup_place (m : AList fun _ : ℕ => Object) (slot : ℕ) (made : ℕ → Object) {count i : ℕ}
    (h : i < count) : (place m slot made count).lookup (slot + i) = some (made i) := by
  induction count with
  | zero => omega
  | succ count ih =>
      rw [place, AList.lookup_insert_ite]
      split_ifs with heq
      · rw [show i = count by omega]
      · exact ih (by omega)

theorem lookup_place_of_ne (m : AList fun _ : ℕ => Object) (slot : ℕ) (made : ℕ → Object)
    {count j : ℕ} (h : ∀ i < count, j ≠ slot + i) :
    (place m slot made count).lookup j = m.lookup j := by
  induction count with
  | zero => rfl
  | succ count ih =>
      rw [place, AList.lookup_insert_ite, if_neg (h count (Nat.lt_succ_self count))]
      exact ih fun i hi => h i (Nat.lt_succ_of_lt hi)

theorem hasChildren_iff (untypedList : List UntypedDesc) (s : Table) (ut : ℕ) :
    (kernel untypedList).HasChildren s ut ↔ Parent s.objects ut := by
  constructor
  · rintro ⟨i, o, hslot, hut⟩
    exact ⟨⟨i, o⟩, AList.mem_lookup_iff.mp hslot, hut⟩
  · rintro ⟨⟨i, o⟩, hmem, hut⟩
    exact ⟨i, o, AList.mem_lookup_iff.mpr hmem, hut⟩

/-- The tables do what is documented. -/
theorem kernel_documented (untypedList : List UntypedDesc) :
    (kernel untypedList).Documented untypedList where
  retype := by
    intro s ut d bp slot count hut hempty hlimit
    refine ⟨retyped s ut bp slot count (alignUp (s.marks ut) bp.size), ?_, ?_, fun i hi => ?_,
      fun j hj => ?_⟩
    · simp only [kernel, untypedRetype, hut, Option.bind_some]
      exact if_pos ⟨hempty, hlimit⟩
    · exact Function.update_self _ _ _
    · exact lookup_place _ slot (fun i => ⟨ut, bp, _ + i * bp.size⟩) hi
    · exact lookup_place_of_ne _ slot _ hj
  delete_slots := by
    intro s slot
    funext i
    simp only [kernel, delete, AList.lookup_erase_ite, Function.update_apply]
  delete_keeps := by
    intro s slot ut h
    rw [hasChildren_iff] at h
    exact if_neg fun hlost => hlost.2 h
  delete_resets := by
    intro s slot ut d hut hbefore hafter
    rw [hasChildren_iff] at hbefore hafter
    refine (if_pos ⟨hbefore, hafter⟩).trans ?_
    rw [hut]
    rfl
  move := by
    intro s dst src o hdst hsrc
    refine ⟨{ s with objects := (s.objects.erase src).insert dst o }, ?_, rfl, ?_⟩
    · refine (if_pos hdst).trans ?_
      rw [show s.objects.lookup src = some o from hsrc]
      rfl
    · funext i
      simp only [kernel, AList.lookup_insert_ite, AList.lookup_erase_ite, Function.update_apply]

end Table

namespace ObjectAllocator

/-- The untypeds of a board: memory, and the device untyped of its virtio window. -/
def boardUntypeds : List UntypedDesc :=
  [⟨0x40000000, 30, false, by decide, by decide⟩, ⟨0x0a000000, 25, true, by decide, by decide⟩]

/-- At the start no untyped has children. -/
def boardStart : Table where
  objects := ∅
  marks ut := boardUntypeds[ut]?.elim 0 UntypedDesc.paddr

theorem allocateDeviceFrames_at_virtio :
    (∃ a' s', trimUntyped (Table.kernel boardUntypeds) 1 0x0a000000 0x0a003000 ⟨100, 200⟩
      boardStart = some (a', s') ∧ s'.marks 1 = 0x0a003000) ∧
    ∃ frames a' s', allocateDeviceFrames (Table.kernel boardUntypeds) boardUntypeds 0x0a003000 2
        ⟨100, 200⟩ boardStart = some (frames, a', s') ∧
      frames.length = 2 ∧ ∀ i < 2, ∃ slot, frames[i]? = some slot ∧
        s'.objects.lookup slot = some ⟨1, .smallPage, 0x0a003000 + i * 4096⟩ := by
  have hfirst : ∀ j < 1, ∀ e, boardUntypeds[j]? = some e → ¬e.Covers 0x0a003000 2 := by
    intro j hj e he hcovers
    obtain rfl : j = 0 := by omega
    obtain rfl := Option.some.inj he
    exact absurd hcovers.isDevice (by decide)
  have hempty : ∀ j, (Table.kernel boardUntypeds).slots boardStart j = none := fun j =>
    show boardStart.objects.lookup j = none from @AList.lookup_empty ℕ (fun _ => Object) _ j
  have h := @allocateDeviceFrames_at Table (Table.kernel boardUntypeds) boardUntypeds 1 _
    (Table.kernel_documented boardUntypeds) 0x0a003000 2 (by decide) (by decide) rfl
    ⟨rfl, by decide, by decide⟩ hfirst boardStart rfl ⟨100, 200⟩ (by decide)
    (fun j _ _ => hempty j)
  exact ⟨h.1 (by decide), h.2⟩

end ObjectAllocator

end Torpor.DeviceFrames
