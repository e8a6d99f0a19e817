import Mathlib.Algebra.Group.Nat.Defs
import Mathlib.Algebra.Ring.Int.Defs
import Mathlib.Data.List.Lex
import Mathlib.Order.Defs.LinearOrder
import Torpor.Lib.Encoding

/-!
# The Hashed Records

The two kinds of record whose identity is a hash: the snapshot headers of the content
store (`SnapshotHeader`) and the entries of the causal log (`LogEntry`, with the envelope
`EmitEnvelope` of an emission). Digests are kept abstract: `ContentHash D` is a type of
digests with the three hash functions of the source — `data_hash`, `snapshot_id` and
`LogEntry::action_id` — which are injective, the idealisation of SHA-256 over an injective
serialisation. No law relates the order of digests to what they are digests of.

The envelope of an emission is kept as a record: the log stores it serialised, and every
reader deserialises it first.

`instContentHashListNat` inhabits the class by taking an injective encoding of a record as
its own digest, so that the model runs on concrete inputs.
-/

namespace Torpor

open Encoding

/-- The 16 bytes of an agent identifier, read as one big-endian number. -/
abbrev AgentId := BitVec 128

/-- Identifier reserved for the events of the scheduler, `[0xFF; 16]`. -/
def schedulerAgentId : AgentId := BitVec.allOnes 128

/-- The `k` low-order bytes of `n`, little-endian. -/
def leBytes : ℕ → ℕ → List UInt8
  | 0, _ => []
  | k + 1, n => UInt8.ofNat n :: leBytes k (n / 256)

/-- The 16 bytes of an agent identifier in order. -/
def agentBytes (id : AgentId) : List UInt8 :=
  (leBytes 16 id.toNat).reverse

/-- The agent identifier in 16 bytes. -/
def agentOfBytes (bytes : List UInt8) : AgentId :=
  BitVec.ofNat 128 (bytes.foldl (fun n b => n * 256 + b.toNat) 0)

@[simp] theorem length_leBytes (k n : ℕ) : (leBytes k n).length = k := by
  induction k generalizing n with
  | zero => rfl
  | succ k ih => rw [leBytes, List.length_cons, ih]

@[simp] theorem length_agentBytes (id : AgentId) : (agentBytes id).length = 16 := by
  simp [agentBytes]

/-- Little-endian bytes read back give the number they were taken from. -/
theorem foldr_leBytes (k n : ℕ) :
    (leBytes k n).foldr (fun b m => m * 256 + b.toNat) 0 = n % 256 ^ k := by
  induction k generalizing n with
  | zero => simp [leBytes, Nat.mod_one]
  | succ k ih =>
      have hbyte : (UInt8.ofNat n).toNat = n % 256 := by simp
      rw [leBytes, List.foldr_cons, ih, hbyte, Nat.pow_succ', Nat.mod_mul]
      omega

/-- The 16 bytes of an identifier give it back. -/
@[simp] theorem agentOfBytes_agentBytes (id : AgentId) : agentOfBytes (agentBytes id) = id := by
  have hlt : id.toNat < 256 ^ 16 := id.isLt
  rw [agentOfBytes, agentBytes, List.foldl_reverse, foldr_leBytes, Nat.mod_eq_of_lt hlt]
  simp

/-! ### Emissions -/

/-- The type of an emission. -/
inductive EmitType
  | actionResult | stateDelta | event | proposal | lifecycle | introspect | selfRollback
  | validationRequest | validationResponse | sessionBoundary | schedulerRollback
  | inferenceRequest | inferenceResponse | inferenceCancelled | inferenceFailed
  | compensationOpen | compensationClose | agentCrash | capabilityDenied
  deriving DecidableEq, Repr

/-- The byte that stands for an emission type in an envelope. -/
def EmitType.asU8 : EmitType → UInt8
  | actionResult => 0x01
  | stateDelta => 0x02
  | event => 0x03
  | proposal => 0x04
  | lifecycle => 0x05
  | introspect => 0x06
  | selfRollback => 0x07
  | validationRequest => 0x08
  | validationResponse => 0x09
  | sessionBoundary => 0x0A
  | schedulerRollback => 0x0B
  | inferenceRequest => 0x0C
  | inferenceResponse => 0x0D
  | inferenceCancelled => 0x0E
  | inferenceFailed => 0x0F
  | compensationOpen => 0x11
  | compensationClose => 0x12
  | agentCrash => 0x13
  | capabilityDenied => 0x14

/-- `EmitType::try_from`: the byte `0x10` and everything above `0x14` stand for nothing. -/
def EmitType.tryFrom (v : UInt8) : Option EmitType :=
  match v with
  | 0x01 => some actionResult
  | 0x02 => some stateDelta
  | 0x03 => some event
  | 0x04 => some proposal
  | 0x05 => some lifecycle
  | 0x06 => some introspect
  | 0x07 => some selfRollback
  | 0x08 => some validationRequest
  | 0x09 => some validationResponse
  | 0x0A => some sessionBoundary
  | 0x0B => some schedulerRollback
  | 0x0C => some inferenceRequest
  | 0x0D => some inferenceResponse
  | 0x0E => some inferenceCancelled
  | 0x0F => some inferenceFailed
  | 0x11 => some compensationOpen
  | 0x12 => some compensationClose
  | 0x13 => some agentCrash
  | 0x14 => some capabilityDenied
  | _ => none

/-- Decoding a type byte gives back the type that was encoded. -/
@[simp] theorem EmitType.tryFrom_asU8 (t : EmitType) : tryFrom t.asU8 = some t := by
  cases t <;> rfl

theorem EmitType.asU8_injective : Function.Injective EmitType.asU8 := by
  intro t t' h
  have h' := congrArg tryFrom h
  rw [tryFrom_asU8, tryFrom_asU8] at h'
  exact Option.some.inj h'

@[simp] theorem EmitType.asU8_inj {t t' : EmitType} : t.asU8 = t'.asU8 ↔ t = t' :=
  EmitType.asU8_injective.eq_iff

/-- Envelope of an emission; the payload is opaque to the log. -/
structure EmitEnvelope where
  version : UInt8
  emitType : UInt8
  agentId : AgentId
  seq : ℕ
  tsUs : ℕ
  payload : List UInt8
  deriving DecidableEq, Repr

/-- `EmitEnvelope::new`: the current format version is `1`. -/
def EmitEnvelope.new (t : EmitType) (agentId : AgentId) (seq tsUs : ℕ)
    (payload : List UInt8) : EmitEnvelope :=
  { version := 1, emitType := t.asU8, agentId, seq, tsUs, payload }

@[simp] theorem EmitEnvelope.new_emitType (t : EmitType) (agentId : AgentId)
    (seq tsUs : ℕ) (payload : List UInt8) :
    (EmitEnvelope.new t agentId seq tsUs payload).emitType = t.asU8 := rfl

/-! ### Headers and entries -/

/-- Header of a snapshot of an agent's state. -/
structure SnapshotHeader (D : Type) where
  dataHash : D
  parent : Option D
  seq : ℕ
  tsUs : ℕ
  deriving DecidableEq, Repr

/-- Entry of the causal log. `emitPayload = none` is a commit that published nothing. -/
structure LogEntry (D : Type) where
  agentId : AgentId
  tsMs : ℕ
  parentIds : List D
  hashBefore : D
  hashAfter : D
  emitPayload : Option EmitEnvelope
  deriving DecidableEq, Repr

/-- The entry carries an emission of type `t`. -/
def LogEntry.HasType {D : Type} (e : LogEntry D) (t : EmitType) : Prop :=
  ∃ env, e.emitPayload = some env ∧ env.emitType = t.asU8

instance {D : Type} (e : LogEntry D) (t : EmitType) : Decidable (e.HasType t) :=
  match h : e.emitPayload with
  | none => isFalse (by rintro ⟨env, henv, -⟩; simp [h] at henv)
  | some env =>
      if ht : env.emitType = t.asU8 then isTrue ⟨env, h, ht⟩
      else isFalse (by
        rintro ⟨env', henv, ht'⟩
        obtain rfl : env = env' := by simpa [h] using henv
        exact ht ht')

/-- An entry has at most one emission type. -/
theorem LogEntry.HasType.unique {D : Type} {e : LogEntry D} {t t' : EmitType}
    (h : e.HasType t) (h' : e.HasType t') : t = t' := by
  obtain ⟨env, henv, ht⟩ := h
  obtain ⟨env', henv', ht'⟩ := h'
  rw [henv] at henv'
  obtain rfl := Option.some.inj henv'
  exact EmitType.asU8_injective (ht.symm.trans ht')

/-- Identifier of a tenant. -/
abbrev TenantId := ℕ

/-- `TenantId::DEFAULT`, what the builder of an actor takes unless told otherwise. -/
def TenantId.default : TenantId := 0

/-- `EvictedState`: what an evicted agent is rebuilt from. The instant of the eviction, which
only weighs the order of admissions, is left out. -/
structure EvictedState (D : Type) where
  id : AgentId
  seq : ℕ
  lastSnapshot : Option D
  lastAction : Option D
  deriving DecidableEq, Repr

/-! ### Digests -/

/-- A type of digests with the hash functions of the store and of the log. The hash of a
header is never the all-zero digest that stands for "no snapshot". `bytes` gives the 32
bytes of a digest where a payload carries one, and `ofBytes` the digest that 32 bytes in the
memory of a guest stand for. -/
class ContentHash (D : Type) where
  zero : D
  dataHash : List UInt8 → D
  snapshotId : SnapshotHeader D → D
  actionId : LogEntry D → D
  bytes : D → List UInt8
  ofBytes : List UInt8 → D
  dataHash_injective : Function.Injective dataHash
  snapshotId_injective : Function.Injective snapshotId
  actionId_injective : Function.Injective actionId
  snapshotId_ne_zero : ∀ h, snapshotId h ≠ zero
  bytes_length : ∀ d, (bytes d).length = 32

export ContentHash (dataHash snapshotId actionId)

/-! ### Digests as encodings -/

/-- Bytes as numbers. -/
def encodeBytes : List UInt8 → List ℕ :=
  encodeList fun b => [b.toNat]

theorem prefixInj_encodeBytes : PrefixInj encodeBytes :=
  (prefixInj_single.comp fun _ _ h => UInt8.toNat_inj.mp h).list

/-- A digest inside another record. -/
def encodeDigest : List ℕ → List ℕ :=
  encodeList fun n => [n]

theorem prefixInj_encodeDigest : PrefixInj encodeDigest :=
  prefixInj_single.list

/-- The fields of a header, one after the other. -/
def encodeHeader (h : SnapshotHeader (List ℕ)) : List ℕ :=
  encodeDigest h.dataHash ++ (encodeOption encodeDigest h.parent ++ ([h.seq] ++ [h.tsUs]))

theorem prefixInj_encodeHeader : PrefixInj encodeHeader :=
  (prefixInj_encodeDigest.append (prefixInj_encodeDigest.option.append
    (prefixInj_single.append prefixInj_single))).comp
      (f := fun h : SnapshotHeader (List ℕ) => (h.dataHash, h.parent, h.seq, h.tsUs))
      (by
        rintro ⟨_, _, _, _⟩ ⟨_, _, _, _⟩ h
        simp only [Prod.mk.injEq] at h
        obtain ⟨rfl, rfl, rfl, rfl⟩ := h
        rfl)

/-- The fields of an envelope, one after the other. -/
def encodeEnvelope (e : EmitEnvelope) : List ℕ :=
  [e.version.toNat] ++ ([e.emitType.toNat] ++ ([e.agentId.toNat] ++ ([e.seq] ++
    ([e.tsUs] ++ encodeBytes e.payload))))

theorem prefixInj_encodeEnvelope : PrefixInj encodeEnvelope :=
  (prefixInj_single.append (prefixInj_single.append (prefixInj_single.append
    (prefixInj_single.append (prefixInj_single.append prefixInj_encodeBytes))))).comp
      (f := fun e : EmitEnvelope =>
        (e.version.toNat, e.emitType.toNat, e.agentId.toNat, e.seq, e.tsUs, e.payload))
      (by
        rintro ⟨_, _, _, _, _, _⟩ ⟨_, _, _, _, _, _⟩ h
        simp only [Prod.mk.injEq, UInt8.toNat_inj, BitVec.toNat_inj] at h
        obtain ⟨rfl, rfl, rfl, rfl, rfl, rfl⟩ := h
        rfl)

/-- The fields of an entry, one after the other. -/
def encodeEntry (e : LogEntry (List ℕ)) : List ℕ :=
  [e.agentId.toNat] ++ ([e.tsMs] ++ (encodeList encodeDigest e.parentIds ++
    (encodeDigest e.hashBefore ++ (encodeDigest e.hashAfter ++
      encodeOption encodeEnvelope e.emitPayload))))

theorem prefixInj_encodeEntry : PrefixInj encodeEntry :=
  (prefixInj_single.append (prefixInj_single.append (prefixInj_encodeDigest.list.append
    (prefixInj_encodeDigest.append (prefixInj_encodeDigest.append
      prefixInj_encodeEnvelope.option))))).comp
      (f := fun e : LogEntry (List ℕ) =>
        (e.agentId.toNat, e.tsMs, e.parentIds, e.hashBefore, e.hashAfter, e.emitPayload))
      (by
        rintro ⟨_, _, _, _, _, _⟩ ⟨_, _, _, _, _, _⟩ h
        simp only [Prod.mk.injEq, BitVec.toNat_inj] at h
        obtain ⟨rfl, rfl, rfl, rfl, rfl, rfl⟩ := h
        rfl)

/-- A digest that is the encoding of what it is the digest of; the zero digest is the
empty list, which encodes nothing. -/
instance instContentHashListNat : ContentHash (List ℕ) where
  zero := []
  dataHash := encodeBytes
  snapshotId := encodeHeader
  actionId := encodeEntry
  bytes d := (d.map UInt8.ofNat ++ List.replicate 32 0).take 32
  ofBytes bs := bs.map UInt8.toNat
  dataHash_injective := prefixInj_encodeBytes.injective
  snapshotId_injective := prefixInj_encodeHeader.injective
  actionId_injective := prefixInj_encodeEntry.injective
  snapshotId_ne_zero h := by simp [encodeHeader, encodeDigest, encodeList]
  bytes_length d := by simp

end Torpor
