import Torpor.Sel4.BlockStorage

/-!
# The Length Contract of redb

redb asks two things of its storage: that a read beyond the length is an error, and that the places
which `set_len` adds hold zeros. `BlockStorage` checks a read against its device only, and `set_len`
clears nothing.

## Main results

* `read_error_iff`: the reads that are an error.
* `honours_iff`: a run honours the contract exactly if each read in it stays within the length or
  is refused by the device, and each `set_len` finds zeros at the places that it adds.
* `newReopen_honours`: a storage opened again, whose length is never set, honours it.
-/

namespace Torpor

open Blocks

/-- The arguments are 64-bit numbers and slices. -/
def StorageOp.Typed : StorageOp → Prop
  | .setLen len => len < 2 ^ 64
  | .write offset data => offset < 2 ^ 64 ∧ data.length < 2 ^ 63
  | .read offset len => offset < 2 ^ 64 ∧ len < 2 ^ 63

namespace BlockStorage

/-- The place was added by a `set_len` of the calls, and no write to it has succeeded since. -/
def NewPlace (s₀ : BlockStorage) (calls : List StorageOp) (k : ℕ) : Prop :=
  ∃ before len after s, calls = before ++ .setLen len :: after ∧
    Machine.run step s₀ before = some s ∧ s.logicalLen ≤ k ∧ k < len ∧ len ≤ s.capacityBytes ∧
    ∀ offset data, .write offset data ∈ after → offset + data.length ≤ s.capacityBytes →
      k < offset ∨ offset + data.length ≤ k

/-- What redb asks of its storage. -/
structure Honours (s₀ : BlockStorage) (calls : List StorageOp) : Prop where
  /-- A read that ends beyond the length is an error. -/
  beyond : ∀ pre offset len post, calls = pre ++ .read offset len :: post →
    ∀ s, Machine.run step s₀ pre = some s → s.logicalLen < offset + len →
      ∃ e, s.read offset len = some (.error e)
  /-- A new place reads as zero. -/
  zero : ∀ pre post, calls = pre ++ post → ∀ s, Machine.run step s₀ pre = some s →
    ∀ k < s.logicalLen, NewPlace s₀ pre k → s.read k 1 = some (.ok [0])

/-- The calls that keep the contract: a read within the length, or one that the device refuses,
and a `set_len` that finds zeros at the places that it adds. -/
def Keeps (s : BlockStorage) : StorageOp → Prop
  | .setLen len => len ≤ s.capacityBytes →
      ∀ k, s.logicalLen ≤ k → k < len → s.blk.bytes[k]? = some 0
  | .write _ _ => True
  | .read offset len => offset + len ≤ s.logicalLen ∨
      0 < len ∧ s.capacityBytes < offset + len ∧ span offset len * 512 < 2 ^ 63

/-! ### Calls -/

variable {s s' s₀ : BlockStorage} {offset len k : ℕ} {data : List UInt8}

theorem length_bytes (s : BlockStorage) : s.blk.bytes.length = s.capacityBytes :=
  s.blk.length_bytes

theorem span_direct (h : direct offset len) : span offset len * 512 = len := by
  simp only [direct, Bool.and_eq_true, decide_eq_true_eq] at h
  rw [span]
  omega

/-- A transfer goes beyond the device if the sectors that it touches do. -/
theorem beyond_iff (hlen : 0 < len) :
    s.blk.capacity < offset / 512 + span offset len ↔ s.capacityBytes < offset + len := by
  rw [span, capacityBytes]
  omega

/-- **The reads that are an error** are those that the device refuses. -/
theorem read_error_iff (h : (StorageOp.read offset len).Typed) :
    (∃ e, s.read offset len = some (.error e)) ↔
      0 < len ∧ s.capacityBytes < offset + len ∧ span offset len * 512 < 2 ^ 63 := by
  obtain ⟨hoffset, hlen⟩ := h
  constructor
  · rintro ⟨e, he⟩
    have hbeyond : s.capacityBytes < offset + len := by
      by_contra hwithin
      rw [Nat.not_lt, ← length_bytes] at hwithin
      rw [read_eq hwithin] at he
      cases he
    rw [read] at he
    split_ifs at he with hempty hdirect
    · cases he
    · rw [span_direct hdirect]
      exact ⟨Nat.pos_of_ne_zero hempty, hbeyond, hlen⟩
    · refine ⟨Nat.pos_of_ne_zero hempty, hbeyond, ?_⟩
      by_contra hspan
      rw [buffer_eq (Nat.pos_of_ne_zero hempty) hoffset hlen, if_neg hspan] at he
      cases he
  · rintro ⟨hpos, hbeyond, hspan⟩
    rw [read, if_neg hpos.ne']
    have hrefused : s.blk.readBlocks (offset / 512) (span offset len) = none :=
      StaticBlk.readBlocks_eq_none_iff.mpr ((beyond_iff hpos).mpr hbeyond)
    split_ifs with hdirect
    · have hsectors : len / 512 = span offset len :=
        Nat.div_eq_of_eq_mul_left (by decide) (span_direct hdirect).symm
      rw [hsectors, hrefused]
      exact ⟨_, rfl⟩
    · rw [buffer_eq hpos hoffset hlen, if_pos hspan]
      simp only [hrefused]
      exact ⟨_, rfl⟩

/-- A write that goes beyond the device changes nothing. -/
theorem write_beyond {r : Except IoError Unit} (hbeyond : s.capacityBytes < offset + data.length)
    (h : s.write offset data = some (r, s')) : s' = s := by
  rw [capacityBytes] at hbeyond
  rw [write] at h
  split_ifs at h with hempty hdirect
  · cases h
    rfl
  · simp only [direct, Bool.and_eq_true, decide_eq_true_eq] at hdirect
    rw [StaticBlk.writeBlocks_eq_none (by omega)] at h
    cases h
    rfl
  · cases hbuffer : buffer offset data.length with
    | none =>
        rw [hbuffer] at h
        cases h
    | some n =>
        rw [hbuffer] at h
        cases hread : s.blk.readBlocks (offset / 512) n with
        | none =>
            simp only [hread] at h
            cases h
            rfl
        | some buf =>
            obtain ⟨hfits, hlength⟩ := StaticBlk.readBlocks_inv hread
            simp only [hread] at h
            rw [if_neg (by omega)] at h
            cases h

/-- A write changes nothing, or it is within the device and overwrites its bytes. -/
theorem write_cases {r : Except IoError Unit} (h : s.write offset data = some (r, s')) :
    s' = s ∨ offset + data.length ≤ s.capacityBytes ∧ s'.logicalLen = s.logicalLen ∧
      s'.blk.capacity = s.blk.capacity ∧ s'.blk.bytes = overwrite s.blk.bytes offset data := by
  obtain hbeyond | hfits := Nat.lt_or_ge s.capacityBytes (offset + data.length)
  · exact .inl (write_beyond hbeyond h)
  · obtain ⟨t, ht, hlen, hcapacity, hbytes⟩ := write_eq (s.length_bytes ▸ hfits)
    obtain rfl : s' = t := congrArg Prod.snd (Option.some.inj (h.symm.trans ht))
    exact .inr ⟨hfits, hlen, hcapacity, hbytes⟩

/-! ### Places -/

theorem read_byte_iff (hk : k < s.capacityBytes) :
    s.read k 1 = some (.ok [0]) ↔ s.blk.bytes[k]? = some 0 := by
  have hwithin : k + 1 ≤ s.blk.bytes.length := by
    rw [length_bytes]
    exact hk
  rw [read_eq hwithin, slice, List.take_one, List.head?_drop, Option.some.injEq,
    Except.ok.injEq, Option.toList_eq_singleton_iff]

theorem step_setLen (h : len ≤ s.capacityBytes) :
    step s (.setLen len) = some { s with logicalLen := len } := by
  rw [step, setLen, if_neg (Nat.not_lt_of_le h)]

/-- The call does not write to the place. -/
def Spares (n k : ℕ) (op : StorageOp) : Prop :=
  ∀ offset data, op = .write offset data → offset + data.length ≤ n →
    k < offset ∨ offset + data.length ≤ k

/-- A call that does not write to a place keeps what it holds. -/
theorem step_spares {op : StorageOp} (hop : Spares s.capacityBytes k op)
    (h : step s op = some s') :
    s'.capacityBytes = s.capacityBytes ∧ s'.blk.bytes[k]? = s.blk.bytes[k]? := by
  cases op with
  | setLen len =>
      obtain rfl := Option.some.inj h
      rw [setLen]
      split_ifs <;> exact ⟨rfl, rfl⟩
  | write offset data =>
      obtain ⟨⟨r, m⟩, hwrite, rfl⟩ := Option.map_eq_some_iff.mp h
      obtain rfl | ⟨hfits, -, hcapacity, hbytes⟩ := write_cases hwrite
      · exact ⟨rfl, rfl⟩
      · have hwithin : offset + data.length ≤ s.blk.bytes.length := by
          rw [length_bytes]
          exact hfits
        have hspared := hop offset data rfl hfits
        refine ⟨by rw [capacityBytes, hcapacity, capacityBytes], ?_⟩
        rw [hbytes, getElem?_overwrite hwithin, if_neg (by omega)]
  | read offset len =>
      obtain ⟨out, -, rfl⟩ := Option.map_eq_some_iff.mp h
      exact ⟨rfl, rfl⟩

/-- A call that sets no length keeps the length and the device's size. -/
theorem step_logicalLen {op : StorageOp} (hop : ∀ len, op ≠ .setLen len)
    (h : step s op = some s') :
    s'.capacityBytes = s.capacityBytes ∧ s'.logicalLen = s.logicalLen := by
  cases op with
  | setLen len => exact absurd rfl (hop len)
  | write offset data =>
      obtain ⟨⟨r, m⟩, hwrite, rfl⟩ := Option.map_eq_some_iff.mp h
      obtain rfl | ⟨-, hlen, hcapacity, -⟩ := write_cases hwrite
      · exact ⟨rfl, rfl⟩
      · exact ⟨by rw [capacityBytes, hcapacity, capacityBytes], hlen⟩
  | read offset len =>
      obtain ⟨out, -, rfl⟩ := Option.map_eq_some_iff.mp h
      exact ⟨rfl, rfl⟩

/-- **What no write reaches** is kept by a run. -/
theorem run_spares {calls : List StorageOp} (hcalls : ∀ op ∈ calls, Spares s.capacityBytes k op)
    (h : Machine.run step s calls = some s') :
    s'.capacityBytes = s.capacityBytes ∧ s'.blk.bytes[k]? = s.blk.bytes[k]? := by
  have hkept : ∀ t op t', t.capacityBytes = s.capacityBytes ∧ t.blk.bytes[k]? = s.blk.bytes[k]? →
      Spares s.capacityBytes k op → step t op = some t' →
      t'.capacityBytes = s.capacityBytes ∧ t'.blk.bytes[k]? = s.blk.bytes[k]? := by
    rintro t op t' ⟨hcapacity, hbyte⟩ hop hstep
    rw [← hcapacity] at hop
    obtain ⟨hcapacity', hbyte'⟩ := step_spares hop hstep
    exact ⟨hcapacity'.trans hcapacity, hbyte'.trans hbyte⟩
  exact Machine.run_invariant_along hkept ⟨rfl, rfl⟩
    (Machine.along_of_mem (fun op hop _ => hcalls op hop) s) h

/-! ### Runs -/

variable {calls : List StorageOp}

theorem Honours.along (hcalls : ∀ op ∈ calls, op.Typed) (h : Honours s₀ calls) :
    Machine.Along step Keeps s₀ calls := by
  refine Machine.along_iff_at_step.mpr fun pre op post heq s hrun => ?_
  cases op with
  | setLen len =>
      -- The places just added are new, with no call since.
      intro hfits k hle hlt
      have hgrown : Machine.run step s₀ (pre ++ [.setLen len]) =
          some { s with logicalLen := len } :=
        Machine.run_append_eq_some.mpr
          ⟨s, hrun, Machine.run_cons_eq_some.mpr ⟨_, step_setLen hfits, rfl⟩⟩
      have hzero := h.zero (pre ++ [.setLen len]) post
        (by rw [heq, List.append_assoc, List.singleton_append]) _ hgrown k hlt
        ⟨pre, len, [], s, rfl, hrun, hle, hlt, hfits, fun _ _ hmem => nomatch hmem⟩
      exact (read_byte_iff (s := { s with logicalLen := len }) (hlt.trans_le hfits)).mp hzero
  | write offset data => trivial
  | read offset len =>
      have htyped : (StorageOp.read offset len).Typed := by
        refine hcalls _ ?_
        rw [heq]
        exact List.mem_append_right pre List.mem_cons_self
      obtain hbeyond | hwithin := Nat.lt_or_ge s.logicalLen (offset + len)
      · exact .inr ((read_error_iff htyped).mp (h.beyond pre offset len post heq s hrun hbeyond))
      · exact .inl hwithin

theorem honours_of_along (hcalls : ∀ op ∈ calls, op.Typed)
    (h : Machine.Along step Keeps s₀ calls) : Honours s₀ calls where
  beyond := by
    rintro pre offset len post rfl s hrun hbeyond
    have htyped := hcalls _ (List.mem_append_right pre List.mem_cons_self)
    obtain hwithin | hrefused := h.at_step hrun
    · omega
    · exact (read_error_iff htyped).mpr hrefused
  zero := by
    rintro pre post rfl s hrun k hk ⟨before, len, after, m, rfl, hm, hle, hlt, hfits, hspared⟩
    rw [List.append_assoc, List.cons_append] at h
    have hzero : m.blk.bytes[k]? = some 0 := h.at_step hm hfits k hle hlt
    obtain ⟨m', hm', hrest⟩ := Machine.run_append_eq_some.mp hrun
    obtain rfl : m = m' := Option.some.inj (hm.symm.trans hm')
    obtain ⟨t, ht, hafter⟩ := Machine.run_cons_eq_some.mp hrest
    obtain rfl := Option.some.inj ((step_setLen hfits).symm.trans ht)
    obtain ⟨hcapacity, hbyte⟩ := run_spares (s := { m with logicalLen := len }) (k := k)
      (fun op hop offset data heq => hspared offset data (heq ▸ hop)) hafter
    have hplace : k < s.capacityBytes := by
      rw [hcapacity]
      exact hlt.trans_le hfits
    exact (read_byte_iff hplace).mpr (hbyte.trans hzero)

/-- **When the contract holds.** A run honours it exactly if each of its reads stays within the
length or is refused by the device, and each `set_len` that fits on the device finds zeros at the
places that it adds. -/
theorem honours_iff (hcalls : ∀ op ∈ calls, op.Typed) :
    Honours s₀ calls ↔ Machine.Along step Keeps s₀ calls :=
  ⟨fun h => h.along hcalls, honours_of_along hcalls⟩

/-- A storage that is opened again and keeps its length honours the contract: redb reads at least a
byte at a time. -/
theorem newReopen_honours {blk : StaticBlk} (hcalls : ∀ op ∈ calls, op.Typed)
    (hlen : ∀ len, .setLen len ∉ calls)
    (hread : ∀ offset len, .read offset len ∈ calls →
      0 < len ∧ span offset len * 512 < 2 ^ 63) : Honours (newReopen blk) calls := by
  refine honours_of_along hcalls (Machine.along_iff_at_step.mpr ?_)
  rintro pre op post rfl s hrun
  have hkept : ∀ t o t', t.logicalLen = t.capacityBytes → (∀ len, o ≠ .setLen len) →
      step t o = some t' → t'.logicalLen = t'.capacityBytes := by
    intro t o t' hfull ho hstep
    obtain ⟨hcapacity, hlength⟩ := step_logicalLen ho hstep
    rw [hlength, hcapacity, hfull]
  have hpre : ∀ o ∈ pre, ∀ len, o ≠ .setLen len := by
    rintro o ho len rfl
    exact hlen len (List.mem_append_left _ ho)
  have hfull : s.logicalLen = s.capacityBytes :=
    Machine.run_invariant_along hkept rfl (Machine.along_of_mem (fun o ho _ => hpre o ho) _) hrun
  have hop := List.mem_append_right pre (List.mem_cons_self (a := op) (l := post))
  cases op with
  | setLen len => exact absurd hop (hlen len)
  | write offset data => trivial
  | read offset len =>
      obtain ⟨hpos, hspan⟩ := hread offset len hop
      obtain hbeyond | hwithin := Nat.lt_or_ge s.capacityBytes (offset + len)
      · exact .inr ⟨hpos, hbeyond, hspan⟩
      · exact .inl (hfull ▸ hwithin)

/-- A blank device, grown by a sector that is then written and read. -/
theorem honours_iff_grown :
    Honours (new blank) [.setLen 512, .write 0 [1], .read 0 512] ↔
      Machine.Along step Keeps (new blank) [.setLen 512, .write 0 [1], .read 0 512] :=
  honours_iff (by simp [StorageOp.Typed])

/-- A device of one sector that has been used. -/
def used : StaticBlk where
  sectors := [List.replicate 512 255]
  sector_length s hs := by
    rw [List.mem_singleton.mp hs, List.length_replicate]
  small := by decide

theorem bytes_used : used.bytes = List.replicate 512 255 :=
  List.flatten_singleton

/-- The storage answers a read beyond its length, grows over the bytes of a used device, and on
any device grows over what it held before it shrank. -/
theorem contract_broken :
    ¬ Honours (new blank) [.read 0 1] ∧ ¬ Honours (new used) [.setLen 512] ∧
      ¬ Honours (new blank) [.setLen 512, .write 0 [1], .setLen 0, .setLen 512] := by
  refine ⟨fun h => ?_, fun h => ?_, fun h => ?_⟩
  · obtain hwithin | ⟨-, hbeyond, -⟩ := (h.along (by simp [StorageOp.Typed])).1
    · exact absurd hwithin (by decide)
    · exact absurd hbeyond (by decide)
  · have hzero := (h.along (by simp [StorageOp.Typed])).1 (by decide) 0 (by decide) (by decide)
    rw [new, bytes_used, List.getElem?_replicate, if_pos (by decide)] at hzero
    exact absurd hzero (by decide)
  · have hcapacity : (new blank).blk.bytes.length = 1024 := by
      rw [new, bytes_blank, List.length_replicate]
    have hwithin : ∀ op ∈ [.setLen 512, .write 0 [1]],
        StorageOp.Within (new blank).blk.bytes.length op := by
      simp [StorageOp.Within, hcapacity]
    obtain ⟨s, hrun, hlength, hbytes⟩ := run_within hwithin
    have hshrunk : Machine.run step (new blank) ([.setLen 512, .write 0 [1]] ++ [.setLen 0]) =
        some { s with logicalLen := 0 } :=
      Machine.run_append_eq_some.mpr ⟨s, hrun, Machine.run_cons_eq_some.mpr
        ⟨_, step_setLen (Nat.zero_le _), rfl⟩⟩
    have hfits : 512 ≤ s.capacityBytes := by
      rw [← length_bytes, hlength, hcapacity]
      decide
    have halong : Machine.Along step Keeps (new blank)
        (([.setLen 512, .write 0 [1]] ++ [.setLen 0]) ++ .setLen 512 :: []) :=
      h.along (by simp [StorageOp.Typed])
    have hzero : s.blk.bytes[0]? = some 0 :=
      halong.at_step hshrunk hfits 0 (Nat.zero_le 0) (by decide)
    exact absurd ((hbytes 0).symm.trans hzero) (by decide)

end BlockStorage

end Torpor
