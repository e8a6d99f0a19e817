import Torpor.Lib.Blocks
import Torpor.Sel4.StoreServer

/-!
# The Records of a Ring

The runtime writes records with `write_record`, and the server reads them with `parse_records`, each
with bounds of its own. A record is a byte for its kind, a hash of 32 bytes, the length of the
payload in 32 bits and the payload. On bytes of any kind the parser returns the longest list of
records that they begin with. What was written is read back where the length of each payload is a
number of 32 bits: a longer one is written whole behind a length that is cut off.

## Main results

* `parseRecords_longest`: what the parser returns, on any bytes.
* `parseRecords_written`: what a ring takes is read back.
* `records_exact`: the lists of records that are read back, for buffers of any size.
-/

namespace Torpor.StoreServer

/-- `u32::to_le_bytes`. -/
def toLeBytes (n : ℕ) : List UInt8 :=
  [UInt8.ofNat n, UInt8.ofNat (n / 256), UInt8.ofNat (n / 65536), UInt8.ofNat (n / 16777216)]

/-- `write_record`: whether the record was written, the buffer and the position. -/
def writeRecord (buf : List UInt8) (pos : ℕ) (r : Record) : Bool × List UInt8 × ℕ :=
  let needed := 1 + 32 + 4 + r.payload.length
  if buf.length < pos + needed then (false, buf, pos)
  else
    let buf := buf.set pos r.kind
    let pos := pos + 1
    let buf := Blocks.overwrite buf pos r.hash
    let pos := pos + 32
    let plen := r.payload.length % 2 ^ 32
    let buf := Blocks.overwrite buf pos (toLeBytes plen)
    let pos := pos + 4
    let buf := Blocks.overwrite buf pos r.payload
    (true, buf, pos + r.payload.length)

/-- The records are written one after the other; `none` if one of them is not accepted. -/
def writeRecords : List UInt8 → ℕ → List Record → Option (List UInt8 × ℕ)
  | buf, pos, [] => some (buf, pos)
  | buf, pos, r :: rs =>
      let written := writeRecord buf pos r
      if written.1 then writeRecords written.2.1 written.2.2 rs else none

/-- The bytes of a record. -/
def encodeRecord (r : Record) : List UInt8 :=
  r.kind :: (r.hash ++ (toLeBytes (r.payload.length % 2 ^ 32) ++ r.payload))

/-- The bytes of a list of records. -/
def encodeRecords (rs : List Record) : List UInt8 := rs.flatMap encodeRecord

/-- The hash has 32 bytes, and the length of the payload is a number of 32 bits. -/
structure Record.Encodable (r : Record) : Prop where
  hash : r.hash.length = 32
  payload : r.payload.length < 2 ^ 32

/-! ### The bytes of one record -/

theorem fromLeBytes_lt (b₀ b₁ b₂ b₃ : UInt8) : fromLeBytes b₀ b₁ b₂ b₃ < 2 ^ 32 := by
  have := b₀.toNat_lt
  have := b₁.toNat_lt
  have := b₂.toNat_lt
  have := b₃.toNat_lt
  simp only [fromLeBytes]
  omega

/-- Four bytes are those of exactly the number that they are read as. -/
theorem toLeBytes_eq_iff {n : ℕ} (h : n < 2 ^ 32) {b₀ b₁ b₂ b₃ : UInt8} :
    toLeBytes n = [b₀, b₁, b₂, b₃] ↔ n = fromLeBytes b₀ b₁ b₂ b₃ := by
  have := b₀.toNat_lt
  have := b₁.toNat_lt
  have := b₂.toNat_lt
  have := b₃.toNat_lt
  simp only [toLeBytes, fromLeBytes, List.cons.injEq, and_true, ← UInt8.toNat_inj,
    UInt8.toNat_ofNat']
  omega

theorem length_encodeRecord {r : Record} (h : r.hash.length = 32) :
    (encodeRecord r).length = 37 + r.payload.length := by
  simp only [encodeRecord, toLeBytes, List.length_cons, List.length_append, List.length_nil, h]
  omega

/-- What a record is read from determines it. -/
theorem Record.Encodable.read {r : Record} (h : r.Encodable) {kind b₀ b₁ b₂ b₃ : UInt8}
    {hash rest s : List UInt8} (hhash : hash.length = 32)
    (heq : encodeRecord r ++ s = kind :: (hash ++ (b₀ :: b₁ :: b₂ :: b₃ :: rest))) :
    r.kind = kind ∧ r.hash = hash ∧ r.payload.length = fromLeBytes b₀ b₁ b₂ b₃ ∧
      r.payload ++ s = rest := by
  rw [encodeRecord, List.cons_append, List.cons.injEq, List.append_assoc] at heq
  obtain ⟨hkind, heq⟩ := heq
  obtain ⟨hhash, heq⟩ := List.append_inj heq (h.hash.trans hhash.symm)
  rw [List.append_assoc, Nat.mod_eq_of_lt h.payload] at heq
  obtain ⟨hlen, hrest⟩ := @List.append_inj _ _ [b₀, b₁, b₂, b₃] _ rest heq rfl
  exact ⟨hkind, hhash, (toLeBytes_eq_iff h.payload).mp hlen, hrest⟩

/-- A round of the parser, by the bytes from its position on. -/
theorem parseRecord_append {pre hash : List UInt8} (hhash : hash.length = 32)
    (kind b₀ b₁ b₂ b₃ : UInt8) (rest : List UInt8) :
    parseRecord (pre ++ kind :: (hash ++ (b₀ :: b₁ :: b₂ :: b₃ :: rest))) pre.length =
      if rest.length < fromLeBytes b₀ b₁ b₂ b₃ then some none
      else some (some (⟨kind, hash, rest.take (fromLeBytes b₀ b₁ b₂ b₃)⟩,
        pre.length + 37 + fromLeBytes b₀ b₁ b₂ b₃)) := by
  generalize hdata : pre ++ kind :: (hash ++ (b₀ :: b₁ :: b₂ :: b₃ :: rest)) = data
  have hlength : data.length = pre.length + 37 + rest.length := by
    rw [← hdata]
    simp only [List.length_append, List.length_cons, hhash]
    omega
  have hkind : data[pre.length]? = some kind := by
    rw [← hdata, List.getElem?_append_right (Nat.le_refl _), Nat.sub_self]
    rfl
  have hbody : data.drop (pre.length + 1) = hash ++ (b₀ :: b₁ :: b₂ :: b₃ :: rest) := by
    rw [← hdata, List.drop_length_add_append]
    rfl
  have htail : data.drop (pre.length + 33) = b₀ :: b₁ :: b₂ :: b₃ :: rest := by
    rw [show pre.length + 33 = pre.length + 1 + 32 by omega, ← List.drop_drop, hbody, ← hhash,
      List.drop_left]
  have hpayload : data.drop (pre.length + 37) = rest := by
    rw [show pre.length + 37 = pre.length + 33 + 4 by omega, ← List.drop_drop, htail]
    rfl
  have hhashSlice : slice data (pre.length + 1) (pre.length + 1 + 32) = some hash := by
    rw [slice_eq_some (by omega) (by omega), Nat.add_sub_cancel_left, hbody, ← hhash,
      List.take_left]
  have hbyte : ∀ i, data[pre.length + 33 + i]? = (b₀ :: b₁ :: b₂ :: b₃ :: rest)[i]? := fun i => by
    rw [← List.getElem?_drop, htail]
  have hlen : ¬data.length < pre.length + 1 + 32 + 4 := by omega
  simp only [parseRecord, hkind, hhashSlice, if_neg hlen, Option.bind_eq_bind, Option.bind_some,
    Nat.add_assoc, Nat.reduceAdd, pure]
  have hb₀ := hbyte 0
  have hb₁ := hbyte 1
  have hb₂ := hbyte 2
  have hb₃ := hbyte 3
  simp only [Nat.add_assoc, Nat.reduceAdd, List.getElem?_cons_zero, List.getElem?_cons_succ]
    at hb₀ hb₁ hb₂ hb₃
  simp only [hb₀, hb₁, hb₂, hb₃, Option.bind_some]
  generalize fromLeBytes b₀ b₁ b₂ b₃ = payloadLen
  by_cases hshort : rest.length < payloadLen
  · rw [if_pos hshort, if_pos (by omega)]
  · rw [if_neg hshort, if_neg (by omega), slice_eq_some (by omega) (by omega),
      show pre.length + (37 + payloadLen) - (pre.length + 37) = payloadLen by omega, hpayload]
    rfl

/-- 37 bytes have room for all of a record but its payload. -/
theorem exists_header {l : List UInt8} (h : 37 ≤ l.length) :
    ∃ kind hash b₀ b₁ b₂ b₃ rest, hash.length = 32 ∧
      l = kind :: (hash ++ (b₀ :: b₁ :: b₂ :: b₃ :: rest)) := by
  obtain _ | ⟨kind, l⟩ := l
  · simp at h
  rw [List.length_cons] at h
  have htail : 4 ≤ (l.drop 32).length := by
    rw [List.length_drop]
    omega
  obtain ⟨b₀, b₁, b₂, b₃, rest, hrest⟩ : ∃ b₀ b₁ b₂ b₃ rest,
      l.drop 32 = b₀ :: b₁ :: b₂ :: b₃ :: rest := by
    match hl : l.drop 32, htail with
    | b₀ :: b₁ :: b₂ :: b₃ :: rest, _ => exact ⟨b₀, b₁, b₂, b₃, rest, rfl⟩
  refine ⟨kind, l.take 32, b₀, b₁, b₂, b₃, rest, ?_, ?_⟩
  · rw [List.length_take]
    omega
  · rw [← hrest, List.take_append_drop]

/-- A round of the parser takes the record that the bytes from its position on begin with, if there
is one. -/
theorem parseRecord_spec {data : List UInt8} {pos : ℕ} (h : pos + 37 ≤ data.length) :
    (parseRecord data pos = some none ∧
      ∀ r : Record, r.Encodable → ¬encodeRecord r <+: data.drop pos) ∨
    ∃ r : Record, parseRecord data pos = some (some (r, pos + (encodeRecord r).length)) ∧
      r.Encodable ∧ encodeRecord r <+: data.drop pos := by
  have hroom : 37 ≤ (data.drop pos).length := by
    rw [List.length_drop]
    omega
  obtain ⟨kind, hash, b₀, b₁, b₂, b₃, rest, hhash, hdrop⟩ := exists_header hroom
  have hdata : data = data.take pos ++ kind :: (hash ++ (b₀ :: b₁ :: b₂ :: b₃ :: rest)) := by
    rw [← hdrop, List.take_append_drop]
  have hpos : (data.take pos).length = pos := by
    rw [List.length_take]
    omega
  have hround := @parseRecord_append (data.take pos) hash hhash kind b₀ b₁ b₂ b₃ rest
  rw [← hdata, hpos] at hround
  have hlen := fromLeBytes_lt b₀ b₁ b₂ b₃
  split_ifs at hround with hshort
  · refine .inl ⟨hround, fun r hr hprefix => ?_⟩
    obtain ⟨s, hs⟩ := hprefix
    rw [hdrop] at hs
    obtain ⟨-, -, hpayload, hrest⟩ := hr.read hhash hs
    rw [← hrest, List.length_append] at hshort
    omega
  · have htake : (rest.take (fromLeBytes b₀ b₁ b₂ b₃)).length = fromLeBytes b₀ b₁ b₂ b₃ := by
      rw [List.length_take]
      omega
    have hrecord : Record.Encodable ⟨kind, hash, rest.take (fromLeBytes b₀ b₁ b₂ b₃)⟩ :=
      ⟨hhash, by rw [htake]; exact hlen⟩
    refine .inr ⟨_, ?_, hrecord, rest.drop (fromLeBytes b₀ b₁ b₂ b₃), ?_⟩
    · rw [hround, length_encodeRecord hhash, htake, Nat.add_assoc]
    · have hbytes := (toLeBytes_eq_iff hlen).mpr (Eq.refl (fromLeBytes b₀ b₁ b₂ b₃))
      rw [hdrop, encodeRecord, htake, Nat.mod_eq_of_lt hlen, hbytes]
      simp only [List.cons_append, List.append_assoc, List.nil_append, List.take_append_drop]

/-! ### The bytes of a list of records -/

theorem encodeRecords_cons (r : Record) (rs : List Record) :
    encodeRecords (r :: rs) = encodeRecord r ++ encodeRecords rs := List.flatMap_cons

/-- Two records that the same bytes begin with are the same. -/
theorem Record.Encodable.eq_of_prefix {r r' : Record} (h : r.Encodable) (h' : r'.Encodable)
    {l : List UInt8} (hl : encodeRecord r <+: l) (hl' : encodeRecord r' <+: l) : r = r' := by
  have hroom : 37 ≤ l.length := by
    have := hl.length_le
    rw [length_encodeRecord h.hash] at this
    omega
  obtain ⟨kind, hash, b₀, b₁, b₂, b₃, rest, hhash, rfl⟩ := exists_header hroom
  obtain ⟨s, hs⟩ := hl
  obtain ⟨s', hs'⟩ := hl'
  obtain ⟨hkind, hhash₁, hlen, hrest⟩ := h.read hhash hs
  obtain ⟨hkind', hhash₂, hlen', hrest'⟩ := h'.read hhash hs'
  have hpayload := (List.append_inj (hrest.trans hrest'.symm) (hlen.trans hlen'.symm)).1
  obtain ⟨k, d, q⟩ := r
  obtain ⟨k', d', q'⟩ := r'
  exact Record.mk.injEq .. ▸ ⟨hkind.trans hkind'.symm, hhash₁.trans hhash₂.symm, hpayload⟩

/-- Where no record begins, only the empty list of records does. -/
theorem prefix_nil_of_not_prefix {l : List UInt8}
    (hnone : ∀ r : Record, r.Encodable → ¬encodeRecord r <+: l) {rs : List Record}
    (hrs : ∀ r ∈ rs, r.Encodable) (hstart : encodeRecords rs <+: l) : rs <+: [] := by
  cases rs with
  | nil => exact List.prefix_refl _
  | cons r rs =>
      rw [encodeRecords_cons] at hstart
      exact absurd ((List.prefix_append _ _).trans hstart) (hnone r (hrs r (by simp)))

/-- The loop returns the records that it has and the longest list that the bytes from its position
on begin with. -/
theorem parseLoop_longest {data : List UInt8} {fuel pos : ℕ} (h : data.length < pos + fuel)
    (hpos : pos ≤ data.length) (records : List Record) :
    ∃ rs, parseLoop data fuel pos records = some (records ++ rs) ∧ (∀ r ∈ rs, r.Encodable) ∧
      encodeRecords rs <+: data.drop pos ∧
      ∀ rs', (∀ r ∈ rs', r.Encodable) → encodeRecords rs' <+: data.drop pos → rs' <+: rs := by
  induction fuel generalizing pos records with
  | zero => omega
  | succ fuel ih =>
      have hstop : (∀ r : Record, r.Encodable → ¬encodeRecord r <+: data.drop pos) →
          ∃ rs, some records = some (records ++ rs) ∧ (∀ r ∈ rs, r.Encodable) ∧
            encodeRecords rs <+: data.drop pos ∧ ∀ rs', (∀ r ∈ rs', r.Encodable) →
              encodeRecords rs' <+: data.drop pos → rs' <+: rs := fun hnone =>
        ⟨[], by rw [List.append_nil], by simp, List.nil_prefix,
          fun rs' hrs' => prefix_nil_of_not_prefix hnone hrs'⟩
      rw [parseLoop]
      by_cases hround : pos + 37 ≤ data.length
      · rw [if_pos hround]
        rcases parseRecord_spec hround with ⟨heq, hnone⟩ | ⟨r, heq, hr, hprefix⟩
        · rw [heq]
          exact hstop hnone
        · rw [heq]
          have hle := hprefix.length_le
          rw [List.length_drop] at hle
          have hlen := length_encodeRecord hr.hash
          obtain ⟨rs, hloop, hrs, hbytes, hlongest⟩ :=
            @ih (pos + (encodeRecord r).length) (by omega) (by omega) (records ++ [r])
          have hdrop : data.drop pos =
              encodeRecord r ++ data.drop (pos + (encodeRecord r).length) := by
            rw [← List.drop_drop, ← List.prefix_iff_eq_append.mp hprefix]
            simp
          refine ⟨r :: rs, by simp [hloop], fun q hq => ?_, ?_, fun rs' hrs' hprefix' => ?_⟩
          · rcases List.mem_cons.mp hq with rfl | hq
            · exact hr
            · exact hrs q hq
          · rw [encodeRecords_cons, hdrop]
            exact (List.prefix_append_right_inj _).mpr hbytes
          · cases rs' with
            | nil => exact List.nil_prefix
            | cons r' rs' =>
                rw [encodeRecords_cons] at hprefix'
                have hr' := hrs' r' (by simp)
                obtain rfl := hr'.eq_of_prefix hr ((List.prefix_append _ _).trans hprefix') hprefix
                rw [hdrop, List.prefix_append_right_inj] at hprefix'
                exact List.cons_prefix_cons.mpr
                  ⟨rfl, hlongest rs' (fun q hq => hrs' q (by simp [hq])) hprefix'⟩
      · rw [if_neg hround]
        refine hstop fun r hr hprefix => ?_
        have := hprefix.length_le
        rw [length_encodeRecord hr.hash, List.length_drop] at this
        omega

/-- The parser returns the longest list of records that the bytes begin with; every other such list
is a part of it. -/
theorem parseRecords_longest (data : List UInt8) :
    ∃ rs, parseRecords data = some rs ∧ (∀ r ∈ rs, r.Encodable) ∧ encodeRecords rs <+: data ∧
      ∀ rs', (∀ r ∈ rs', r.Encodable) → encodeRecords rs' <+: data → rs' <+: rs := by
  obtain ⟨rs, hloop, hrest⟩ :=
    @parseLoop_longest data (data.length + 1) 0 (by omega)
      (Nat.zero_le _) []
  rw [List.drop_zero] at hrest
  exact ⟨rs, hloop, hrest⟩

/-- The bytes of records are read back as these. -/
theorem parseRecords_encodeRecords {rs : List Record} (hrs : ∀ r ∈ rs, r.Encodable) :
    parseRecords (encodeRecords rs) = some rs := by
  obtain ⟨out, hparse, hout, hprefix, hlongest⟩ := parseRecords_longest (encodeRecords rs)
  obtain ⟨more, rfl⟩ := hlongest rs hrs (List.prefix_refl _)
  have hmore : encodeRecords more = [] := by
    rw [encodeRecords, List.flatMap_append] at hprefix
    have := hprefix.length_le
    rw [List.length_append] at this
    exact List.eq_nil_of_length_eq_zero (by rw [encodeRecords] at *; omega)
  cases more with
  | nil => rw [hparse, List.append_nil]
  | cons r more =>
      rw [encodeRecords_cons] at hmore
      cases (List.append_eq_nil_iff.mp hmore).1

/-! ### What is written -/

/-- A record is accepted if its bytes fit behind the position, and they are what is written. -/
theorem writeRecord_eq (buf : List UInt8) (pos : ℕ) {r : Record} (hhash : r.hash.length = 32) :
    writeRecord buf pos r =
      if buf.length < pos + (encodeRecord r).length then (false, buf, pos)
      else (true, Blocks.overwrite buf pos (encodeRecord r), pos + (encodeRecord r).length) := by
  have hlen := length_encodeRecord hhash
  have hneeded : pos + (1 + 32 + 4 + r.payload.length) = pos + (encodeRecord r).length := by omega
  rw [writeRecord, hneeded]
  split_ifs with hfull
  · rfl
  · generalize hbytes : toLeBytes (r.payload.length % 2 ^ 32) = bytes
    have hbytes4 : bytes.length = 4 := hbytes ▸ rfl
    have hroom : pos + (37 + r.payload.length) ≤ buf.length := by omega
    have hencode : encodeRecord r = [r.kind] ++ r.hash ++ bytes ++ r.payload := by
      rw [encodeRecord, hbytes]
      simp
    -- Each part is written behind the parts before it.
    have hkind := Blocks.set_eq_overwrite (show pos < buf.length by omega) r.kind
    have hpart : ∀ d e : List UInt8, (d ++ e).length ≤ 37 + r.payload.length →
        Blocks.overwrite (Blocks.overwrite buf pos d) (pos + d.length) e =
          Blocks.overwrite buf pos (d ++ e) := fun d e hde => by
      rw [List.length_append] at hde
      exact Blocks.overwrite_append (by omega)
    have hfirst := hpart [r.kind] r.hash (by simp [hhash]; omega)
    have hsecond := hpart ([r.kind] ++ r.hash) bytes (by simp [hhash, hbytes4])
    have hthird := hpart ([r.kind] ++ r.hash ++ bytes) r.payload (by
      simp only [List.length_append, List.length_singleton, hhash, hbytes4]
      omega)
    simp only [List.length_append, List.length_singleton, hhash, hbytes4, ← Nat.add_assoc]
      at hfirst hsecond hthird
    have hend : pos + 1 + 32 + 4 + r.payload.length = pos + (encodeRecord r).length := by omega
    simp only [hkind, hfirst, hbytes, hsecond, hthird, ← hencode, hend]

/-- Where all records are accepted, their bytes are what is written. -/
theorem writeRecords_eq_some {buf buf' : List UInt8} {pos pos' : ℕ} {rs : List Record}
    (hrs : ∀ r ∈ rs, r.hash.length = 32) (hpos : pos ≤ buf.length)
    (h : writeRecords buf pos rs = some (buf', pos')) :
    buf' = Blocks.overwrite buf pos (encodeRecords rs) ∧
      pos' = pos + (encodeRecords rs).length ∧ pos' ≤ buf.length := by
  induction rs generalizing buf pos with
  | nil =>
      obtain ⟨rfl, rfl⟩ := Prod.mk.inj (Option.some.inj h)
      exact ⟨(Blocks.overwrite_nil _ _).symm, rfl, hpos⟩
  | cons r rs ih =>
      have hhash := hrs r (by simp)
      rw [writeRecords, writeRecord_eq buf pos hhash] at h
      by_cases hfull : buf.length < pos + (encodeRecord r).length
      · rw [if_pos hfull] at h
        cases h
      · have hroom : pos + (encodeRecord r).length ≤ buf.length := Nat.le_of_not_lt hfull
        have hlength := Blocks.length_overwrite hroom
        rw [if_neg hfull] at h
        obtain ⟨hbuf, hend, hle⟩ := ih (fun q hq => hrs q (by simp [hq])) (by simp; omega) h
        simp only [hlength] at hend hle
        rw [encodeRecords_cons, List.length_append]
        refine ⟨?_, by omega, hle⟩
        rw [hbuf, Blocks.overwrite_append (by omega)]

/-- The bytes of a run of accepted records stand at the start of the buffer. -/
theorem begins_written {buf buf' : List UInt8} {pos : ℕ} {rs : List Record}
    (hrs : ∀ r ∈ rs, r.hash.length = 32) (h : writeRecords buf 0 rs = some (buf', pos)) :
    buf'.take pos = encodeRecords rs ∧ (encodeRecords rs).length ≤ buf.length := by
  obtain ⟨rfl, hpos, hle⟩ := writeRecords_eq_some hrs (Nat.zero_le _) h
  rw [Nat.zero_add] at hpos
  rw [hpos, Blocks.overwrite, List.take_zero, List.nil_append, List.take_left]
  exact ⟨rfl, hpos ▸ hle⟩

/-- Records that a buffer of less than 4 GiB takes, as a ring is, have no payload that is too
long. -/
theorem encodable_of_written {buf buf' : List UInt8} {pos : ℕ} {rs : List Record}
    (hrs : ∀ r ∈ rs, r.hash.length = 32) (h : writeRecords buf 0 rs = some (buf', pos))
    (hbuf : buf.length < 2 ^ 32) : ∀ r ∈ rs, r.Encodable := by
  have hlen := (begins_written hrs h).2
  intro r hr
  refine ⟨hrs r hr, ?_⟩
  obtain ⟨before, after, rfl⟩ := List.append_of_mem hr
  rw [encodeRecords, List.flatMap_append, List.flatMap_cons, List.length_append,
    List.length_append, length_encodeRecord (hrs r hr)] at hlen
  omega

/-- What a ring takes is read back as it was written. -/
theorem parseRecords_written {buf buf' : List UInt8} {pos : ℕ} {rs : List Record}
    (hrs : ∀ r ∈ rs, r.hash.length = 32) (h : writeRecords buf 0 rs = some (buf', pos))
    (hbuf : buf.length < 2 ^ 32) : parseRecords (buf'.take pos) = some rs := by
  rw [(begins_written hrs h).1]
  exact parseRecords_encodeRecords (encodable_of_written hrs h hbuf)

end Torpor.StoreServer
