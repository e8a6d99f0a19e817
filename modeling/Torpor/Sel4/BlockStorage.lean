import Torpor.Lib.Blocks
import Torpor.Lib.Machine

/-!
# The Storage of redb on a Block Device

`BlockStorage` gives redb the bytes of a virtio device that is read and written in sectors of 512
bytes. What begins and ends with a sector is transferred as it is; for anything else the sectors
that it touches are read into a buffer, and written back.

The device refuses a transfer that goes beyond its last sector and none else. Offsets and lengths
are 64-bit numbers, which wrap (the server is a release build). A panic is `none`: a buffer that is
empty or larger than a slice can be, and a slice out of range. The error texts are those of `c8`.

## Main results

* `read_eq`, `write_eq`: within the device, both paths are a read and an overwrite of its bytes.
* `flat_run`: after any sequence of calls within the device, a read gives the last byte written to
  each place.
-/

namespace Torpor

open Blocks

/-- The virtio device; its bytes are at most as many as a slice can have. -/
structure StaticBlk where
  sectors : List (List UInt8)
  sector_length : ∀ s ∈ sectors, s.length = 512
  small : sectors.length < 2 ^ 54

namespace StaticBlk

/-- `capacity`, in sectors. -/
def capacity (d : StaticBlk) : ℕ := d.sectors.length

/-- The bytes of the device in order. -/
def bytes (d : StaticBlk) : List UInt8 := d.sectors.flatten

/-- `read_blocks`, into a buffer of so many sectors. -/
def readBlocks (d : StaticBlk) (start count : ℕ) : Option (List UInt8) :=
  if start + count ≤ d.capacity then some (slice d.sectors start count).flatten else none

/-- `write_blocks`. -/
def writeBlocks (d : StaticBlk) (start : ℕ) (data : List UInt8) : Option StaticBlk :=
  if h : start + data.length / 512 ≤ d.capacity then
    some {
      sectors := overwrite d.sectors start (chunks 512 (data.length / 512) data)
      sector_length := fun s hs => (mem_overwrite hs).elim (d.sector_length s)
        (length_of_mem_chunks (Nat.div_mul_le_self data.length 512))
      small := by
        rw [length_overwrite (by rwa [length_chunks])]
        exact d.small }
  else none

end StaticBlk

/-- `io::Error`, of the kind `Other`. -/
structure BlockStorage.IoError where
  message : String
  deriving DecidableEq, Repr

/-- `BlockStorage`. The capacity in bytes is that of the device, which does not change. -/
structure BlockStorage where
  blk : StaticBlk
  logicalLen : ℕ

/-- A call of redb. -/
inductive StorageOp
  | setLen (len : ℕ)
  | write (offset : ℕ) (data : List UInt8)
  | read (offset len : ℕ)
  deriving DecidableEq, Repr

namespace BlockStorage

/-- `capacity_bytes`. -/
def capacityBytes (s : BlockStorage) : ℕ := s.blk.capacity * 512

/-- `BlockStorage::new`. -/
def new (blk : StaticBlk) : BlockStorage := ⟨blk, 0⟩

/-- `BlockStorage::new_reopen`. -/
def newReopen (blk : StaticBlk) : BlockStorage := ⟨blk, blk.capacity * 512⟩

/-- `len`. -/
def len (s : BlockStorage) : Except IoError ℕ := .ok s.logicalLen

/-- The transfer begins and ends with a sector. -/
def direct (offset len : ℕ) : Bool := offset % 512 = 0 && len % 512 = 0

/-- The sectors of the buffer for any other transfer. An empty buffer is refused by an assertion
of the driver. -/
def buffer (offset len : ℕ) : Option ℕ :=
  let sectorStart := offset / 512
  let stop := (offset + len) % 2 ^ 64
  let sectorEnd := (stop + 511) % 2 ^ 64 / 512
  let nSectors := (sectorEnd + 2 ^ 64 - sectorStart) % 2 ^ 64
  let size := nSectors * 512 % 2 ^ 64
  if 0 < size ∧ size < 2 ^ 63 then some (size / 512) else none

/-- `read`. -/
def read (s : BlockStorage) (offset len : ℕ) : Option (Except IoError (List UInt8)) :=
  if len = 0 then some (.ok [])
  else if direct offset len then
    match s.blk.readBlocks (offset / 512) (len / 512) with
    | none => some (.error ⟨"virtio read echoue"⟩)
    | some out => some (.ok out)
  else
    match buffer offset len with
    | none => none
    | some n =>
        match s.blk.readBlocks (offset / 512) n with
        | none => some (.error ⟨"virtio read (unaligned) echoue"⟩)
        | some buf =>
            let skip := offset - offset / 512 * 512
            if skip + len ≤ buf.length then some (.ok (slice buf skip len)) else none

/-- `set_len`. -/
def setLen (s : BlockStorage) (len : ℕ) : Except IoError Unit × BlockStorage :=
  if len > s.capacityBytes then (.error ⟨"disque plein"⟩, s)
  else (.ok (), { s with logicalLen := len })

/-- `write`. -/
def write (s : BlockStorage) (offset : ℕ) (data : List UInt8) :
    Option (Except IoError Unit × BlockStorage) :=
  if data = [] then some (.ok (), s)
  else if direct offset data.length then
    match s.blk.writeBlocks (offset / 512) data with
    | none => some (.error ⟨"virtio write echoue"⟩, s)
    | some blk => some (.ok (), { s with blk })
  else
    match buffer offset data.length with
    | none => none
    | some n =>
        match s.blk.readBlocks (offset / 512) n with
        | none => some (.error ⟨"virtio RMW-read echoue"⟩, s)
        | some buf =>
            let skip := offset - offset / 512 * 512
            if skip + data.length ≤ buf.length then
              match s.blk.writeBlocks (offset / 512) (overwrite buf skip data) with
              | none => some (.error ⟨"virtio RMW-write echoue"⟩, s)
              | some blk => some (.ok (), { s with blk })
            else none

/-- The storage after a call; the calls go on after an error. -/
def step (s : BlockStorage) : StorageOp → Option BlockStorage
  | .setLen len => some (s.setLen len).2
  | .write offset data => (s.write offset data).map Prod.snd
  | .read offset len => (s.read offset len).map fun _ => s

end BlockStorage

/-! ### The flat array -/

/-- A call stays within so many bytes. -/
def StorageOp.Within (n : ℕ) : StorageOp → Prop
  | .setLen _ => True
  | .write offset data => offset + data.length ≤ n
  | .read offset len => offset + len ≤ n

/-- What a call writes to a place. -/
def StorageOp.byteAt (k : ℕ) : StorageOp → Option UInt8
  | .setLen _ => none
  | .write offset data => if offset ≤ k then data[k - offset]? else none
  | .read _ _ => none

/-- The byte at a place after some calls: the last one that was written there, or the one that
was there at first. -/
def lastWritten (initial : List UInt8) (ops : List StorageOp) (k : ℕ) : Option UInt8 :=
  (ops.filterMap (·.byteAt k)).getLast?.or initial[k]?

/-! ### Transfers -/

namespace StaticBlk

variable {d : StaticBlk} {start count : ℕ} {data : List UInt8}

theorem length_bytes (d : StaticBlk) : d.bytes.length = d.capacity * 512 :=
  length_flatten d.sector_length

theorem readBlocks_eq (h : start + count ≤ d.capacity) :
    d.readBlocks start count = some (slice d.bytes (start * 512) (count * 512)) := by
  rw [readBlocks, if_pos h, flatten_slice d.sector_length]
  rfl

theorem readBlocks_eq_none_iff : d.readBlocks start count = none ↔ d.capacity < start + count := by
  rw [readBlocks]
  split_ifs with h
  · exact iff_of_false nofun (by omega)
  · exact iff_of_true rfl (by omega)

theorem readBlocks_inv {out : List UInt8} (h : d.readBlocks start count = some out) :
    start + count ≤ d.capacity ∧ out.length = count * 512 := by
  have hfits : start + count ≤ d.capacity := by
    by_contra hbeyond
    exact nomatch (readBlocks_eq_none_iff.mpr (Nat.lt_of_not_le hbeyond)).symm.trans h
  rw [readBlocks_eq hfits, Option.some.injEq] at h
  refine ⟨hfits, h ▸ length_slice ?_⟩
  rw [d.length_bytes]
  omega

theorem writeBlocks_eq_none (h : d.capacity < start + data.length / 512) :
    d.writeBlocks start data = none :=
  dif_neg (Nat.not_le_of_lt h)

theorem writeBlocks_eq (hdata : data.length = count * 512) (h : start + count ≤ d.capacity) :
    ∃ d', d.writeBlocks start data = some d' ∧ d'.capacity = d.capacity ∧
      d'.bytes = overwrite d.bytes (start * 512) data := by
  have hcount : data.length / 512 = count := by omega
  have hfits : start + data.length / 512 ≤ d.capacity := by omega
  refine ⟨_, dif_pos hfits, ?_, ?_⟩
  · exact length_overwrite (by rwa [length_chunks])
  · have hchunks : ∀ b ∈ chunks 512 (data.length / 512) data, b.length = 512 :=
      fun b hb => length_of_mem_chunks (Nat.div_mul_le_self data.length 512) hb
    rw [bytes, flatten_overwrite d.sector_length hchunks, flatten_chunks, hcount, ← hdata,
      List.take_length]
    rfl

end StaticBlk

namespace BlockStorage

variable {s : BlockStorage} {offset len : ℕ} {data : List UInt8}

/-- The sectors that a transfer touches. -/
def span (offset len : ℕ) : ℕ := (offset + len + 511) / 512 - offset / 512

/-- What wraps on the way to the size of the buffer wraps back. -/
theorem buffer_eq (hlen : 0 < len) (hoffset : offset < 2 ^ 64) (hsmall : len < 2 ^ 63) :
    buffer offset len =
      if span offset len * 512 < 2 ^ 63 then some (span offset len) else none := by
  have hsize : (((offset + len) % 2 ^ 64 + 511) % 2 ^ 64 / 512 + 2 ^ 64 - offset / 512) % 2 ^ 64
      * 512 % 2 ^ 64 = span offset len * 512 := by
    rw [span]
    omega
  have hpos : 0 < span offset len * 512 := by
    rw [span]
    omega
  simp only [buffer, hsize, hpos, true_and, Nat.mul_div_cancel _ (by decide : 0 < 512)]

/-- The buffer for a transfer within the device. -/
theorem buffer_within (hlen : 0 < len) (h : offset + len ≤ s.blk.bytes.length) :
    ∃ n, buffer offset len = some n ∧ offset / 512 + n ≤ s.blk.capacity ∧
      offset - offset / 512 * 512 + len ≤ n * 512 := by
  have hsmall : s.blk.capacity < 2 ^ 54 := s.blk.small
  rw [s.blk.length_bytes] at h
  have hfits : span offset len * 512 < 2 ^ 63 := by
    rw [span]
    omega
  refine ⟨span offset len, ?_, ?_, ?_⟩
  · rw [buffer_eq hlen (by omega) (by omega), if_pos hfits]
  · rw [span]
    omega
  · rw [span]
    omega

/-- **Reading within the device.** -/
theorem read_eq (h : offset + len ≤ s.blk.bytes.length) :
    s.read offset len = some (.ok (slice s.blk.bytes offset len)) := by
  rw [read]
  split_ifs with hempty hdirect
  · rw [hempty, slice, List.take_zero]
  · rw [s.blk.length_bytes] at h
    simp only [direct, Bool.and_eq_true, decide_eq_true_eq] at hdirect
    have hoffset := Nat.div_mul_cancel (Nat.dvd_of_mod_eq_zero hdirect.1)
    have hlen := Nat.div_mul_cancel (Nat.dvd_of_mod_eq_zero hdirect.2)
    have hfits : offset / 512 + len / 512 ≤ s.blk.capacity := by omega
    simp only [StaticBlk.readBlocks_eq hfits, hoffset, hlen]
  · obtain ⟨n, hbuffer, hfits, hskip⟩ := buffer_within (by omega) h
    have hstart : offset / 512 * 512 + n * 512 ≤ s.blk.bytes.length := by
      rw [s.blk.length_bytes]
      omega
    have hoffset : offset / 512 * 512 + (offset - offset / 512 * 512) = offset := by omega
    rw [hbuffer]
    simp only [StaticBlk.readBlocks_eq hfits, length_slice hstart]
    rw [if_pos hskip, slice_slice hskip, hoffset]

/-- **Writing within the device.** -/
theorem write_eq (h : offset + data.length ≤ s.blk.bytes.length) :
    ∃ s', s.write offset data = some (.ok (), s') ∧ s'.logicalLen = s.logicalLen ∧
      s'.blk.capacity = s.blk.capacity ∧ s'.blk.bytes = overwrite s.blk.bytes offset data := by
  rw [write]
  split_ifs with hempty hdirect
  · refine ⟨s, rfl, rfl, rfl, ?_⟩
    rw [hempty, overwrite, List.append_nil, List.length_nil, Nat.add_zero, List.take_append_drop]
  · rw [s.blk.length_bytes] at h
    simp only [direct, Bool.and_eq_true, decide_eq_true_eq] at hdirect
    have hoffset : offset / 512 * 512 = offset := by omega
    have hcount : data.length = data.length / 512 * 512 := by omega
    have hfits : offset / 512 + data.length / 512 ≤ s.blk.capacity := by omega
    obtain ⟨blk, hwrite, hcapacity, hbytes⟩ := StaticBlk.writeBlocks_eq hcount hfits
    refine ⟨{ s with blk }, by rw [hwrite], rfl, hcapacity, ?_⟩
    rw [hbytes, hoffset]
  · have hpos : 0 < data.length := List.length_pos_iff.mpr hempty
    obtain ⟨n, hbuffer, hfits, hskip⟩ := buffer_within hpos h
    have hstart : offset / 512 * 512 + n * 512 ≤ s.blk.bytes.length := by
      rw [s.blk.length_bytes]
      omega
    have hoffset : offset / 512 * 512 + (offset - offset / 512 * 512) = offset := by omega
    have hlength := length_slice hstart
    have hcount : (overwrite (slice s.blk.bytes (offset / 512 * 512) (n * 512))
        (offset - offset / 512 * 512) data).length = n * 512 := by
      rw [length_overwrite (by omega), hlength]
    obtain ⟨blk, hwrite, hcapacity, hbytes⟩ := StaticBlk.writeBlocks_eq hcount hfits
    refine ⟨{ s with blk }, ?_, rfl, hcapacity, ?_⟩
    · rw [hbuffer]
      simp only [StaticBlk.readBlocks_eq hfits, hlength]
      rw [if_pos hskip, hwrite]
    · rw [hbytes, overwrite_overwrite_slice hstart hskip, hoffset]

/-! ### Runs -/

theorem lastWritten_concat (initial : List UInt8) (ops : List StorageOp) (op : StorageOp) (k : ℕ) :
    lastWritten initial (ops ++ [op]) k = (op.byteAt k).or (lastWritten initial ops k) := by
  rw [lastWritten, lastWritten, List.filterMap_append, List.getLast?_append, ← Option.or_assoc]
  cases h : op.byteAt k with
  | none => simp [h]
  | some b => simp [h]

theorem getElem?_write {initial : List UInt8} (h : offset + data.length ≤ initial.length) (k : ℕ) :
    (overwrite initial offset data)[k]? =
      ((StorageOp.write offset data).byteAt k).or initial[k]? := by
  rw [getElem?_overwrite h, StorageOp.byteAt]
  obtain hbelow | hle := Nat.lt_or_ge k offset
  · rw [if_neg (by omega), if_neg (by omega), Option.none_or]
  · rw [if_pos hle]
    obtain hin | hout := Nat.lt_or_ge k (offset + data.length)
    · rw [if_pos ⟨hle, hin⟩, List.getElem?_eq_getElem (by omega), Option.some_or]
    · have hnone : data[k - offset]? = none := List.getElem?_eq_none (by omega)
      rw [if_neg (by omega), hnone, Option.none_or]

/-- **One call.** A call within the device succeeds, and what it writes goes to its places. -/
theorem step_within {op : StorageOp} (h : op.Within s.blk.bytes.length) :
    ∃ s', step s op = some s' ∧ s'.blk.bytes.length = s.blk.bytes.length ∧
      ∀ k, s'.blk.bytes[k]? = (op.byteAt k).or s.blk.bytes[k]? := by
  cases op with
  | setLen len =>
      refine ⟨(s.setLen len).2, rfl, ?_⟩
      rw [setLen]
      split_ifs <;> exact ⟨rfl, fun k => (Option.none_or).symm⟩
  | write offset data =>
      obtain ⟨s', hwrite, -, -, hbytes⟩ := write_eq h
      refine ⟨s', by rw [step, hwrite]; rfl, ?_, fun k => ?_⟩
      · rw [hbytes, length_overwrite h]
      · rw [hbytes, getElem?_write h]
  | read offset len =>
      refine ⟨s, by rw [step, read_eq h]; rfl, rfl, fun k => (Option.none_or).symm⟩

/-- After calls within the device, each place holds the last byte written there. -/
theorem run_within {s₀ : BlockStorage} {ops : List StorageOp}
    (h : ∀ op ∈ ops, op.Within s₀.blk.bytes.length) :
    ∃ s, Machine.run step s₀ ops = some s ∧ s.blk.bytes.length = s₀.blk.bytes.length ∧
      ∀ k, s.blk.bytes[k]? = lastWritten s₀.blk.bytes ops k := by
  induction ops using List.reverseRecOn with
  | nil => exact ⟨s₀, rfl, rfl, fun k => rfl⟩
  | append_singleton ops op ih =>
      obtain ⟨s, hrun, hlength, hbytes⟩ := ih fun o ho => h o (List.mem_append_left _ ho)
      have hop : op.Within s.blk.bytes.length := by
        rw [hlength]
        exact h op (List.mem_append_right ops (List.mem_singleton_self op))
      obtain ⟨s', hstep, hlength', hbytes'⟩ := step_within hop
      refine ⟨s', ?_, hlength'.trans hlength, fun k => ?_⟩
      · exact Machine.run_append_eq_some.mpr
          ⟨s, hrun, Machine.run_cons_eq_some.mpr ⟨s', hstep, rfl⟩⟩
      · rw [hbytes', hbytes, lastWritten_concat]

/-- **A flat array of bytes.** In a sequence of calls within the device, a read answers, for each
byte, the last one written to its place or the one that was there at first; and a write succeeds
and changes no byte outside of its range. -/
theorem flat_run {s₀ : BlockStorage} {pre post : List StorageOp} {op : StorageOp}
    (h : ∀ o ∈ pre ++ op :: post, o.Within s₀.blk.bytes.length) :
    ∃ s, Machine.run step s₀ pre = some s ∧
      (∀ offset len, op = .read offset len → ∃ out, s.read offset len = some (.ok out) ∧
        out.length = len ∧ ∀ k < len, out[k]? = lastWritten s₀.blk.bytes pre (offset + k)) ∧
      (∀ offset data, op = .write offset data → ∃ s', s.write offset data = some (.ok (), s') ∧
        s'.blk.bytes.length = s.blk.bytes.length ∧
        ∀ k, k < offset ∨ offset + data.length ≤ k → s'.blk.bytes[k]? = s.blk.bytes[k]?) := by
  obtain ⟨s, hrun, hlength, hbytes⟩ := run_within fun o ho => h o (List.mem_append_left _ ho)
  have hop : op.Within s.blk.bytes.length := by
    rw [hlength]
    exact h op (List.mem_append_right pre List.mem_cons_self)
  refine ⟨s, hrun, ?_, ?_⟩
  · rintro offset len rfl
    refine ⟨_, read_eq hop, length_slice hop, fun k hk => ?_⟩
    rw [getElem?_slice hk, hbytes]
  · rintro offset data rfl
    obtain ⟨s', hwrite, -, -, hbytes'⟩ := write_eq hop
    refine ⟨s', hwrite, by rw [hbytes', length_overwrite hop], fun k hk => ?_⟩
    rw [hbytes', getElem?_overwrite hop, if_neg (by omega)]

/-- A device of two sectors of zeros. -/
def blank : StaticBlk where
  sectors := List.replicate 2 (List.replicate 512 0)
  sector_length s hs := by
    rw [List.eq_of_mem_replicate hs, List.length_replicate]
  small := by
    rw [List.length_replicate]
    decide

theorem bytes_blank : blank.bytes = List.replicate 1024 0 :=
  List.flatten_replicate_replicate

/-- A write and a read over the border of two sectors. -/
theorem flat_run_border : ∃ s out,
    Machine.run step (new blank) [.write 511 [1, 2]] = some s ∧ s.read 510 4 = some (.ok out) ∧
      out.length = 4 ∧ out[0]? = some 0 ∧ out[1]? = some 1 ∧ out[2]? = some 2 ∧
      out[3]? = some 0 := by
  have hwithin : ∀ o ∈ [.write 511 [1, 2]] ++ .read 510 4 :: [],
      StorageOp.Within (new blank).blk.bytes.length o := by
    have hlength : (new blank).blk.bytes.length = 1024 := by
      rw [new, bytes_blank, List.length_replicate]
    simp [hlength, StorageOp.Within]
  obtain ⟨s, hrun, hread, -⟩ := flat_run hwithin
  obtain ⟨out, hout, hlength, hbytes⟩ := hread 510 4 rfl
  have hinitial : ∀ k < 1024, (new blank).blk.bytes[k]? = some 0 := fun k hk => by
    rw [new, bytes_blank, List.getElem?_replicate, if_pos hk]
  refine ⟨s, out, hrun, hout, hlength, ?_, ?_, ?_, ?_⟩
  · exact (hbytes 0 (by decide)).trans (hinitial 510 (by decide))
  · exact hbytes 1 (by decide)
  · exact hbytes 2 (by decide)
  · exact (hbytes 3 (by decide)).trans (hinitial 513 (by decide))

end BlockStorage

end Torpor
