import Torpor.CausalLog
import Torpor.Lib.ByteOrder
import Torpor.Lib.SortedMap

/-!
# The Causal Log on Byte Keys

The causal log as it is stored: two column families of byte strings, ordered byte by byte and
written in one batch. The keys of the index `agent_ts` are the 56 bytes
`agent_id(16) ‖ ts_ms(8, big-endian) ‖ action_id(32)`, and a range query is a scan that stops
at the first key of another agent or beyond the upper bound.

Timestamps are 64-bit numbers, agents 16 bytes and digests 32 bytes, as in the source. The
serialisation (`bincode`) and the hash (`Sha256`) are parameters; what is assumed of them is
assumed of the entries of the run only, since no hash of all entries into 32 bytes is
injective.

## Main results

* `encodeKey_lt_iff`: the bytes of two index keys compare as the triples do.
* `LogStore.query_eq_queryByAgentRange`: the scan over byte keys is the scan over triples of
  `Torpor.CausalLog`.
* `LogStore.refines_entries`: lookups, repeated appends and range queries, for every sequence of
  appends.
-/

namespace Torpor

open SortedIndex ByteOrder

/-- A byte string. -/
abbrev Bytes := List UInt8

/-- `ActionId` and `StateHash`: 32 bytes, in the order of their bytes. -/
abbrev Digest := { bs : Bytes // bs.length = 32 }

/-! ### Big-endian numbers -/

/-- The `k` low-order bytes of `n`, big-endian. -/
def beBytes (k n : ℕ) : Bytes := (leBytes k n).reverse

/-- The number that big-endian bytes stand for. -/
def ofBeBytes (bs : Bytes) : ℕ := bs.foldl (fun n b => n * 256 + b.toNat) 0

@[simp] theorem length_beBytes (k n : ℕ) : (beBytes k n).length = k := by
  simp [beBytes]

theorem ofBeBytes_beBytes {k n : ℕ} (h : n < 256 ^ k) : ofBeBytes (beBytes k n) = n := by
  rw [ofBeBytes, beBytes, List.foldl_reverse, foldr_leBytes, Nat.mod_eq_of_lt h]

theorem beBytes_inj {k m n : ℕ} (hm : m < 256 ^ k) (hn : n < 256 ^ k) :
    beBytes k m = beBytes k n ↔ m = n := by
  refine ⟨fun h => ?_, fun h => by rw [h]⟩
  rw [← ofBeBytes_beBytes hm, h, ofBeBytes_beBytes hn]

theorem beBytes_succ (k n : ℕ) : beBytes (k + 1) n = beBytes k (n / 256) ++ [UInt8.ofNat n] := by
  simp [beBytes, leBytes]

/-- Big-endian numbers of one width compare as their bytes do. -/
theorem beBytes_lt_iff {k m n : ℕ} (hm : m < 256 ^ k) (hn : n < 256 ^ k) :
    beBytes k m < beBytes k n ↔ m < n := by
  induction k generalizing m n with
  | zero =>
      obtain rfl : m = 0 := by simpa using hm
      obtain rfl : n = 0 := by simpa using hn
      simp [beBytes, leBytes]
  | succ k ih =>
      have hm' : m / 256 < 256 ^ k := Nat.div_lt_of_lt_mul (by rwa [← Nat.pow_succ'])
      have hn' : n / 256 < 256 ^ k := Nat.div_lt_of_lt_mul (by rwa [← Nat.pow_succ'])
      have hlast : [UInt8.ofNat m] < [UInt8.ofNat n] ↔ m % 256 < n % 256 := by
        simp [List.cons_lt_cons_iff, UInt8.lt_iff_toNat_lt]
      rw [beBytes_succ, beBytes_succ, append_lt_append_iff (by simp), ih hm' hn',
        beBytes_inj hm' hn', hlast]
      omega

/-! ### Index keys -/

/-- The 56 bytes of an index key. -/
def encodeKey (k : AgentTsKey Digest) : Bytes :=
  beBytes 16 k.agent ++ (beBytes 8 k.ts ++ k.id.val)

/-- The agent and the timestamp of a key fit their fields. -/
def FitsKey (k : AgentTsKey Digest) : Prop := k.agent < 256 ^ 16 ∧ k.ts < 256 ^ 8

@[simp] theorem length_encodeKey (k : AgentTsKey Digest) : (encodeKey k).length = 56 := by
  simp [encodeKey, k.id.property]

theorem fitsKey_agentTsKey (a : AgentId) (ts : UInt64) (id : Digest) :
    FitsKey (agentTsKey a ts.toNat id) :=
  ⟨a.isLt, ts.toNat_lt⟩

/-- The bytes of two index keys compare as the triples do. -/
theorem encodeKey_lt_iff {k k' : AgentTsKey Digest} (hk : FitsKey k) (hk' : FitsKey k') :
    encodeKey k < encodeKey k' ↔ k < k' := by
  have hts : beBytes 8 k.ts ++ k.id.val < beBytes 8 k'.ts ++ k'.id.val ↔
      (ofLex k).2 < (ofLex k').2 := by
    rw [append_lt_append_iff (by simp), beBytes_lt_iff hk.2 hk'.2, beBytes_inj hk.2 hk'.2,
      Prod.Lex.lt_iff]
    rfl
  rw [encodeKey, encodeKey, append_lt_append_iff (by simp), beBytes_lt_iff hk.1 hk'.1,
    beBytes_inj hk.1 hk'.1, hts]
  exact Prod.Lex.lt_iff.symm

/-! ### Entries and their serialisation -/

/-- `LogEntry` as it is serialised. -/
structure RawEntry where
  agentId : AgentId
  tsMs : UInt64
  parentIds : List Digest
  hashBefore : Digest
  hashAfter : Digest
  emitPayload : Option Bytes
  deriving DecidableEq

/-- An optional payload: a tag byte, then the payload with its length. -/
def encodePayload : Option Bytes → Bytes
  | none => [0]
  | some payload => 1 :: (leBytes 8 payload.length ++ payload)

/-- `bincode::serialize` of an entry: fixed-width little-endian numbers, and lists after
their length in 8 bytes. -/
def bincode (e : RawEntry) : Bytes :=
  agentBytes e.agentId ++ (leBytes 8 e.tsMs.toNat ++ (leBytes 8 e.parentIds.length ++
    (e.parentIds.flatMap Subtype.val ++ (e.hashBefore.val ++ (e.hashAfter.val ++
      encodePayload e.emitPayload)))))

/-- Read `n` bytes. -/
def readBytes (n : ℕ) (bs : Bytes) : Option (Bytes × Bytes) :=
  if n ≤ bs.length then some (bs.take n, bs.drop n) else none

/-- Read a little-endian number of `k` bytes. -/
def readNat (k : ℕ) (bs : Bytes) : Option (ℕ × Bytes) :=
  (readBytes k bs).map fun r => (r.1.foldr (fun b m => m * 256 + b.toNat) 0, r.2)

/-- Read a digest. -/
def readDigest (bs : Bytes) : Option (Digest × Bytes) :=
  if h : 32 ≤ bs.length then some (⟨bs.take 32, by simp [h]⟩, bs.drop 32) else none

/-- Read `n` digests. -/
def readDigests : ℕ → Bytes → Option (List Digest × Bytes)
  | 0, bs => some ([], bs)
  | n + 1, bs => do
      let (d, bs) ← readDigest bs
      let (ds, bs) ← readDigests n bs
      return (d :: ds, bs)

/-- Read an optional payload, which ends the entry. -/
def readPayload : Bytes → Option (Option Bytes)
  | [0] => some none
  | 1 :: bs => do
      let (n, bs) ← readNat 8 bs
      if bs.length = n then some (some bs) else none
  | _ => none

/-- `bincode::deserialize` of an entry. -/
def bincodeDecode (bs : Bytes) : Option RawEntry := do
  let (agent, bs) ← readBytes 16 bs
  let (tsMs, bs) ← readNat 8 bs
  let (n, bs) ← readNat 8 bs
  let (parentIds, bs) ← readDigests n bs
  let (hashBefore, bs) ← readDigest bs
  let (hashAfter, bs) ← readDigest bs
  let emitPayload ← readPayload bs
  return ⟨agentOfBytes agent, UInt64.ofNat tsMs, parentIds, hashBefore, hashAfter, emitPayload⟩

theorem readBytes_append {a : Bytes} {n : ℕ} (h : a.length = n) (rest : Bytes) :
    readBytes n (a ++ rest) = some (a, rest) := by
  subst h
  simp [readBytes]

theorem readNat_append {k n : ℕ} (h : n < 256 ^ k) (rest : Bytes) :
    readNat k (leBytes k n ++ rest) = some (n, rest) := by
  simp [readNat, readBytes_append, foldr_leBytes, Nat.mod_eq_of_lt h]

theorem readDigest_append (d : Digest) (rest : Bytes) :
    readDigest (d.val ++ rest) = some (d, rest) := by
  have hd := d.property
  simp [readDigest, List.take_left' hd, List.drop_left' hd, hd]

theorem readDigests_append (ds : List Digest) (rest : Bytes) :
    readDigests ds.length (ds.flatMap Subtype.val ++ rest) = some (ds, rest) := by
  induction ds with
  | nil => rfl
  | cons d ds ih =>
      rw [List.length_cons, List.flatMap_cons, List.append_assoc]
      simp only [readDigests, readDigest_append, ih, Option.bind_eq_bind, Option.bind_some]
      rfl

/-- An entry whose lists fit a 64-bit length survives serialisation. -/
theorem bincodeDecode_bincode {e : RawEntry} (hparents : e.parentIds.length < 256 ^ 8)
    (hpayload : ∀ payload, e.emitPayload = some payload → payload.length < 256 ^ 8) :
    bincodeDecode (bincode e) = some e := by
  have hlast : readPayload (encodePayload e.emitPayload) = some e.emitPayload := by
    cases hp : e.emitPayload with
    | none => rfl
    | some payload => simp [encodePayload, readPayload, readNat_append (hpayload payload hp)]
  have hts : e.tsMs.toNat < 256 ^ 8 := e.tsMs.toNat_lt
  simp only [bincodeDecode, bincode, readBytes_append (length_agentBytes _), readNat_append hts,
    readNat_append hparents, readDigests_append, readDigest_append, hlast, Option.bind_eq_bind,
    Option.bind_some, agentOfBytes_agentBytes, UInt64.ofNat_toNat]
  rfl

/-! ### The store -/

/-- The serialisation of entries and the hash of serialised entries. -/
structure LogCodec where
  serialize : RawEntry → Bytes
  deserialize : Bytes → Option RawEntry
  sha256 : Bytes → Digest

/-- `LogEntry::action_id`. -/
def LogCodec.actionId (codec : LogCodec) (e : RawEntry) : Digest :=
  codec.sha256 (codec.serialize e)

/-- `LogError`, as far as a store whose reads and writes succeed meets it. -/
inductive LogError
  | bincode
  deriving DecidableEq, Repr

/-- The column families `default` and `agent_ts`. -/
@[ext]
structure LogStore where
  default : SortedMap Bytes Bytes
  agentTs : SortedMap Bytes Bytes

namespace LogStore

/-- A newly created store. -/
def empty : LogStore := ⟨.empty, .empty⟩

/-- `agent_ts_key`. -/
def agentTsKey (agentId : AgentId) (tsMs : UInt64) (id : Digest) : Bytes :=
  agentBytes agentId ++ (beBytes 8 tsMs.toNat ++ id.val)

/-- The batch that both appends write. -/
def writeEntry (codec : LogCodec) (db : LogStore) (entry : RawEntry) : Digest × LogStore :=
  let id := codec.actionId entry
  let encoded := codec.serialize entry
  let indexKey := agentTsKey entry.agentId entry.tsMs id
  (id, { default := db.default.put id.val encoded, agentTs := db.agentTs.put indexKey [] })

/-- `append`. -/
def append (codec : LogCodec) (db : LogStore) (entry : RawEntry) : Digest × LogStore :=
  db.writeEntry codec entry

/-- `append_durable`: written with `set_sync(true)`, which only delays the return. -/
def appendDurable (codec : LogCodec) (db : LogStore) (entry : RawEntry) : Digest × LogStore :=
  db.writeEntry codec entry

/-- `get`. -/
def get (codec : LogCodec) (db : LogStore) (id : Digest) : Except LogError (Option RawEntry) :=
  match db.default.get id.val with
  | none => .ok none
  | some bytes =>
      match codec.deserialize bytes with
      | none => .error .bincode
      | some e => .ok (some e)

/-- The loop of `query_by_agent_range` over the keys from the sought one on. -/
def scan (agentId : AgentId) (toTsMs : Option UInt64) : List Bytes → List Digest
  | [] => []
  | key :: rest =>
      if h : key.length = 56 ∧ key.take 16 = agentBytes agentId then
        if toTsMs.any (·.toNat < ofBeBytes ((key.drop 16).take 8)) then []
        else ⟨key.drop 24, by simp [h.1]⟩ :: scan agentId toTsMs rest
      else []

/-- `query_by_agent_range`. -/
def queryByAgentRange (db : LogStore) (agentId : AgentId) (fromTsMs toTsMs : Option UInt64) :
    List Digest :=
  let seekKey := agentBytes agentId ++ beBytes 8 (fromTsMs.getD 0).toNat
  scan agentId toTsMs (db.agentTs.keys.dropWhile (· < seekKey))

/-- The appends of a run. -/
inductive Op
  | append (entry : RawEntry)
  | appendDurable (entry : RawEntry)

/-- The entry that an operation appends. -/
def Op.entry : Op → RawEntry
  | append e => e
  | appendDurable e => e

/-- One operation. -/
def apply (codec : LogCodec) (db : LogStore) : Op → LogStore
  | .append e => (db.append codec e).2
  | .appendDurable e => (db.appendDurable codec e).2

/-- A sequence of operations on a new store. -/
def ofOps (codec : LogCodec) (ops : List Op) : LogStore := ops.foldl (apply codec) empty

/-! ### The scan over bytes is the scan over triples -/

/-- The scan over the bytes of some triples. -/
theorem scan_map_encodeKey (a : AgentId) (toTs : Option UInt64)
    {ks : List (AgentTsKey Digest)} (hfits : ∀ k ∈ ks, FitsKey k) :
    scan a toTs (ks.map encodeKey) =
      (ks.takeWhile fun k => k.agent == a.toNat && (toTs.map UInt64.toNat).all (k.ts ≤ ·)).map
        AgentTsKey.id := by
  induction ks with
  | nil => rfl
  | cons k ks ih =>
      obtain ⟨hagent, hts⟩ := hfits k List.mem_cons_self
      have ih := ih fun k' hk' => hfits k' (List.mem_cons_of_mem k hk')
      have htake : (encodeKey k).take 16 = beBytes 16 k.agent := by
        rw [encodeKey, List.take_left' (by simp)]
      have hmid : ofBeBytes (((encodeKey k).drop 16).take 8) = k.ts := by
        rw [encodeKey, List.drop_left' (by simp), List.take_left' (by simp),
          ofBeBytes_beBytes hts]
      have hid : (encodeKey k).drop 24 = k.id.val := by
        rw [encodeKey, ← List.append_assoc, List.drop_left' (by simp)]
      have hsame : beBytes 16 k.agent = agentBytes a ↔ k.agent = a.toNat :=
        beBytes_inj hagent a.isLt
      simp only [List.map_cons, scan, htake, hmid, length_encodeKey, hsame, true_and]
      by_cases hka : k.agent = a.toNat
      · rw [dif_pos hka]
        by_cases hto : toTs.any (·.toNat < k.ts) = true
        · have hout : (toTs.map UInt64.toNat).all (k.ts ≤ ·) = false := by
            cases toTs <;> simp_all
          rw [if_pos hto, List.takeWhile_cons_of_neg (by simp [hout])]
          rfl
        · have hin : (toTs.map UInt64.toNat).all (k.ts ≤ ·) = true := by
            cases toTs <;> simp_all
          rw [if_neg hto, List.takeWhile_cons_of_pos (by simp [hka, hin]), List.map_cons, ih]
          rw [List.cons.injEq]
          exact ⟨Subtype.ext hid, rfl⟩
      · rw [dif_neg hka, List.takeWhile_cons_of_neg (by simp [hka])]
        rfl

/-- When the index holds the bytes of some triples, a range query answers as the log of the
triples does. -/
theorem query_eq_queryByAgentRange {db : LogStore} {ks : List (AgentTsKey Digest)}
    (hfits : ∀ k ∈ ks, FitsKey k) (hkeys : db.agentTs.keys = ks.map encodeKey)
    (a : AgentId) (fromTs toTs : Option UInt64) :
    db.queryByAgentRange a fromTs toTs =
      CausalLog.queryByAgentRange ⟨∅, ks⟩ a (fromTs.map UInt64.toNat)
        (toTs.map UInt64.toNat) := by
  have hseek : ∀ k ∈ ks, (encodeKey k < agentBytes a ++ beBytes 8 (fromTs.getD 0).toNat ↔
      k.agent < a.toNat ∨ (k.agent = a.toNat ∧ k.ts < (fromTs.map UInt64.toNat).getD 0)) := by
    intro k hk
    obtain ⟨hagent, hts⟩ := hfits k hk
    have hfrom : (fromTs.map UInt64.toNat).getD 0 = (fromTs.getD 0).toNat := by
      cases fromTs <;> rfl
    have hhead : encodeKey k = (beBytes 16 k.agent ++ beBytes 8 k.ts) ++ k.id.val := by
      rw [encodeKey, List.append_assoc]
    have hagents : agentBytes a = beBytes 16 a.toNat := rfl
    rw [hhead, append_lt_iff (by simp), hagents, append_lt_append_iff (by simp),
      beBytes_lt_iff hagent a.isLt, beBytes_inj hagent a.isLt,
      beBytes_lt_iff hts (fromTs.getD 0).toNat_lt, hfrom]
  have hdrop : db.agentTs.keys.dropWhile (· < agentBytes a ++ beBytes 8 (fromTs.getD 0).toNat) =
      (ks.dropWhile fun k => k.agent < a.toNat ||
        (k.agent == a.toNat && k.ts < (fromTs.map UInt64.toNat).getD 0)).map encodeKey := by
    rw [hkeys, List.dropWhile_map]
    congr 1
    refine dropWhile_congr fun k hk => ?_
    rw [Bool.eq_iff_iff]
    simp [hseek k hk]
  rw [queryByAgentRange, hdrop, scan_map_encodeKey]
  · rfl
  · exact fun k hk => hfits k ((List.dropWhile_suffix _).subset hk)

/-! ### Sequences of appends -/

variable {codec : LogCodec} {db : LogStore} {es : List RawEntry} {e : RawEntry}

/-- The triple under which the index lists an entry. -/
def key (codec : LogCodec) (e : RawEntry) : AgentTsKey Digest :=
  Torpor.agentTsKey e.agentId e.tsMs.toNat (codec.actionId e)

/-- The triples of the index, in order. -/
def index (codec : LogCodec) (es : List RawEntry) : List (AgentTsKey Digest) :=
  es.foldl (fun ks e => insertKey (key codec e) ks) []

theorem index_concat (es : List RawEntry) (e : RawEntry) :
    index codec (es ++ [e]) = insertKey (key codec e) (index codec es) := by
  simp [index]

/-- The index lists the appended entries, in order. -/
theorem index_spec (codec : LogCodec) (es : List RawEntry) :
    Sorted (index codec es) ∧ ∀ k, k ∈ index codec es ↔ ∃ e ∈ es, k = key codec e := by
  induction es using List.reverseRecOn with
  | nil => exact ⟨.nil, fun k => by simp [index]⟩
  | append_singleton es e ih =>
      obtain ⟨hsorted, hmem⟩ := ih
      rw [index_concat]
      refine ⟨sorted_insertKey hsorted, fun k => ?_⟩
      rw [mem_insertKey, hmem]
      constructor
      · rintro (rfl | ⟨e', he', rfl⟩)
        · exact ⟨e, by simp, rfl⟩
        · exact ⟨e', by simp [he'], rfl⟩
      · rintro ⟨e', he', rfl⟩
        rcases List.mem_append.mp he' with he' | he'
        · exact .inr ⟨e', he', rfl⟩
        · exact .inl (by rw [List.mem_singleton.mp he'])

theorem fitsKey_of_mem_index {k : AgentTsKey Digest} (hk : k ∈ index codec es) : FitsKey k := by
  obtain ⟨e, -, rfl⟩ := ((index_spec codec es).2 k).mp hk
  exact fitsKey_agentTsKey _ _ _

/-- The store holds the entries of a list, and nothing else. -/
structure Represents (codec : LogCodec) (es : List RawEntry) (db : LogStore) : Prop where
  stored : ∀ e ∈ es, db.default.get (codec.actionId e).val = some (codec.serialize e)
  absent : ∀ id : Digest, (∀ e ∈ es, codec.actionId e ≠ id) → db.default.get id.val = none
  listed : ∀ e ∈ es, db.agentTs.get (encodeKey (key codec e)) = some []
  keys : db.agentTs.keys = (index codec es).map encodeKey

theorem represents_empty (codec : LogCodec) : Represents codec [] empty where
  stored e he := by cases he
  absent id _ := rfl
  listed e he := by cases he
  keys := rfl

/-- An append of an entry that collides with no other one. -/
theorem Represents.write (h : Represents codec es db)
    (hinj : ∀ e' ∈ es, codec.actionId e' = codec.actionId e → e' = e) :
    Represents codec (es ++ [e]) (db.writeEntry codec e).2 where
  stored e' he' := by
    rw [writeEntry, SortedMap.get_put]
    rcases List.mem_append.mp he' with he' | he'
    · split_ifs with heq
      · rw [hinj e' he' (Subtype.ext heq)]
      · exact h.stored e' he'
    · rw [List.mem_singleton.mp he', if_pos rfl]
  absent id hid := by
    have hne : id.val ≠ (codec.actionId e).val := fun heq =>
      hid e (by simp) (Subtype.ext heq.symm)
    rw [writeEntry, SortedMap.get_put, if_neg hne]
    exact h.absent id fun e' he' => hid e' (by simp [he'])
  listed e' he' := by
    rw [writeEntry, SortedMap.get_put]
    split_ifs with heq
    · rfl
    · rcases List.mem_append.mp he' with he' | he'
      · exact h.listed e' he'
      · exact absurd (by rw [List.mem_singleton.mp he']; rfl) heq
  keys := by
    have hsorted := (index_spec codec es).1
    rw [writeEntry, SortedMap.keys_put, h.keys, index_concat, ← insertKey_map hsorted]
    · rfl
    · intro k hk k' hk' hlt
      rw [← index_concat] at hk hk'
      exact (encodeKey_lt_iff (fitsKey_of_mem_index hk) (fitsKey_of_mem_index hk')).mpr hlt

theorem apply_eq (codec : LogCodec) (db : LogStore) (op : Op) :
    db.apply codec op = (db.writeEntry codec op.entry).2 := by
  cases op <;> rfl

/-- Every sequence of appends without a collision. -/
theorem represents_ofOps (ops : List Op)
    (hinj : ∀ op ∈ ops, ∀ op' ∈ ops, codec.actionId op.entry = codec.actionId op'.entry →
      op.entry = op'.entry) :
    Represents codec (ops.map Op.entry) (ofOps codec ops) := by
  induction ops using List.reverseRecOn with
  | nil => exact represents_empty codec
  | append_singleton ops op ih =>
      have hbefore : Represents codec (ops.map Op.entry) (ofOps codec ops) :=
        ih fun o ho o' ho' => hinj o (by simp [ho]) o' (by simp [ho'])
      have hlast : ∀ e' ∈ ops.map Op.entry, codec.actionId e' = codec.actionId op.entry →
          e' = op.entry := by
        intro e' he' heq
        obtain ⟨o, ho, rfl⟩ := List.mem_map.mp he'
        exact hinj o (by simp [ho]) op (by simp) heq
      rw [ofOps, List.foldl_append, List.foldl_cons, List.foldl_nil, apply_eq, List.map_append]
      exact hbefore.write hlast

/-! ### What a represented store answers -/

/-- Appending what is there already changes nothing. -/
theorem Represents.write_of_mem (h : Represents codec es db) (he : e ∈ es) :
    (db.writeEntry codec e).2 = db := by
  have hlisted : db.agentTs.get (agentTsKey e.agentId e.tsMs (codec.actionId e)) = some [] :=
    h.listed e he
  rw [writeEntry, SortedMap.put_of_get (h.stored e he), SortedMap.put_of_get hlisted]

/-- A lookup of an appended entry. -/
theorem Represents.get_of_mem (h : Represents codec es db)
    (hround : codec.deserialize (codec.serialize e) = some e) (he : e ∈ es) :
    db.get codec (codec.actionId e) = .ok (some e) := by
  simp [get, h.stored e he, hround]

/-- A lookup of anything else. -/
theorem Represents.get_of_forall_ne (h : Represents codec es db) {id : Digest}
    (hid : ∀ e ∈ es, codec.actionId e ≠ id) : db.get codec id = .ok none := by
  simp [get, h.absent id hid]

/-- What a range query lets through. -/
def inRange (a : AgentId) (fromTs toTs : Option UInt64) (k : AgentTsKey Digest) : Bool :=
  k.agent == a.toNat && ((fromTs.map UInt64.toNat).getD 0 ≤ k.ts &&
    (toTs.map UInt64.toNat).all (k.ts ≤ ·))

theorem inRange_key (e : RawEntry) (a : AgentId) (fromTs toTs : Option UInt64) :
    inRange a fromTs toTs (key codec e) = true ↔
      e.agentId = a ∧ fromTs.all (· ≤ e.tsMs) ∧ toTs.all (e.tsMs ≤ ·) := by
  have hfrom : (fromTs.map UInt64.toNat).getD 0 ≤ e.tsMs.toNat ↔ fromTs.all (· ≤ e.tsMs) := by
    cases fromTs <;> simp [UInt64.le_iff_toNat_le]
  have hto : (toTs.map UInt64.toNat).all (e.tsMs.toNat ≤ ·) = toTs.all (e.tsMs ≤ ·) := by
    cases toTs <;> simp [UInt64.le_iff_toNat_le]
  change (e.agentId.toNat == a.toNat && ((fromTs.map UInt64.toNat).getD 0 ≤ e.tsMs.toNat &&
    (toTs.map UInt64.toNat).all (e.tsMs.toNat ≤ ·))) = true ↔ _
  rw [hto]
  simp only [Bool.and_eq_true, beq_iff_eq, BitVec.toNat_inj, decide_eq_true_eq, hfrom]

/-- A range query lists the entries in range by timestamp and digest. -/
theorem Represents.query (h : Represents codec es db) (a : AgentId)
    (fromTs toTs : Option UInt64) :
    ∃ ks : List (ℕ ×ₗ Digest), Sorted ks ∧
      db.queryByAgentRange a fromTs toTs = ks.map (fun k => (ofLex k).2) ∧
      ∀ ts id, toLex (ts, id) ∈ ks ↔ ∃ e ∈ es, e.agentId = a ∧ fromTs.all (· ≤ e.tsMs) ∧
        toTs.all (e.tsMs ≤ ·) ∧ ts = e.tsMs.toNat ∧ id = codec.actionId e := by
  obtain ⟨hsorted, hmem⟩ := index_spec codec es
  have hquery := query_eq_queryByAgentRange (fun k hk => fitsKey_of_mem_index hk) h.keys a
    fromTs toTs
  rw [CausalLog.query_eq hsorted] at hquery
  obtain ⟨ks, hks⟩ : ∃ ks : List (ℕ ×ₗ Digest),
      ks = ((index codec es).filter (inRange a fromTs toTs)).map fun k => (ofLex k).2 := ⟨_, rfl⟩
  refine ⟨ks, ?_, ?_, fun ts id => ?_⟩
  · -- keys of one agent compare by what follows the agent
    rw [hks]
    refine List.pairwise_map.mpr ((hsorted.filter _).imp_of_mem fun hk hk' hlt => ?_)
    have hagent := (Bool.and_eq_true_iff.mp (List.mem_filter.mp hk).2).1
    have hagent' := (Bool.and_eq_true_iff.mp (List.mem_filter.mp hk').2).1
    rcases Prod.Lex.lt_iff.mp hlt with hne | ⟨-, hlt⟩
    · exact absurd ((beq_iff_eq.mp hagent).trans (beq_iff_eq.mp hagent').symm) hne.ne
    · exact hlt
  · rw [hquery, hks, List.map_map]
    rfl
  · rw [hks, List.mem_map]
    constructor
    · rintro ⟨k, hk, heq⟩
      obtain ⟨hk, hrange⟩ := List.mem_filter.mp hk
      obtain ⟨e, he, rfl⟩ := (hmem k).mp hk
      obtain ⟨hagent, hfrom, hto⟩ := (inRange_key e a fromTs toTs).mp hrange
      obtain ⟨rfl, rfl⟩ := Prod.mk.inj heq
      exact ⟨e, he, hagent, hfrom, hto, rfl, rfl⟩
    · rintro ⟨e, he, hagent, hfrom, hto, rfl, rfl⟩
      refine ⟨key codec e, List.mem_filter.mpr ⟨(hmem _).mpr ⟨e, he, rfl⟩, ?_⟩, rfl⟩
      exact (inRange_key e a fromTs toTs).mpr ⟨hagent, hfrom, hto⟩

/-- **The log refines the set of its entries.** For every sequence of appends whose entries
survive serialisation and do not collide: a lookup finds exactly the appended entries;
appending one of them again changes nothing; and a range query lists exactly the digests of the
entries of the agent in the range, each once, by timestamp and digest. -/
theorem refines_entries {ops : List Op}
    (hround : ∀ op ∈ ops, codec.deserialize (codec.serialize op.entry) = some op.entry)
    (hinj : ∀ op ∈ ops, ∀ op' ∈ ops, codec.actionId op.entry = codec.actionId op'.entry →
      op.entry = op'.entry) :
    (∀ op ∈ ops, (ofOps codec ops).get codec (codec.actionId op.entry) = .ok (some op.entry)) ∧
    (∀ id, (∀ op ∈ ops, codec.actionId op.entry ≠ id) →
      (ofOps codec ops).get codec id = .ok none) ∧
    (∀ op, (∃ op' ∈ ops, op'.entry = op.entry) →
      (ofOps codec ops).apply codec op = ofOps codec ops) ∧
    (∀ a fromTs toTs, ((ofOps codec ops).queryByAgentRange a fromTs toTs).Nodup ∧
      ∃ ks : List (ℕ ×ₗ Digest), ks.Pairwise (· < ·) ∧
        (ofOps codec ops).queryByAgentRange a fromTs toTs = ks.map (fun k => (ofLex k).2) ∧
        ∀ ts id, toLex (ts, id) ∈ ks ↔ ∃ op ∈ ops, op.entry.agentId = a ∧
          fromTs.all (· ≤ op.entry.tsMs) ∧ toTs.all (op.entry.tsMs ≤ ·) ∧
          ts = op.entry.tsMs.toNat ∧ id = codec.actionId op.entry) := by
  have h : Represents codec (ops.map Op.entry) (ofOps codec ops) := represents_ofOps ops hinj
  refine ⟨?_, ?_, ?_, ?_⟩
  · intro op hop
    exact h.get_of_mem (hround op hop) (List.mem_map_of_mem hop)
  · intro id hid
    refine h.get_of_forall_ne fun e he => ?_
    obtain ⟨op, hop, rfl⟩ := List.mem_map.mp he
    exact hid op hop
  · rintro op ⟨op', hop', heq⟩
    rw [apply_eq]
    exact h.write_of_mem (heq ▸ List.mem_map_of_mem hop')
  · intro a fromTs toTs
    obtain ⟨ks, hsorted, hquery, hmem⟩ := h.query a fromTs toTs
    simp only [List.mem_map, exists_exists_and_eq_and] at hmem
    refine ⟨?_, ks, hsorted, hquery, hmem⟩
    -- one digest under two timestamps would be a collision
    rw [hquery]
    refine List.Nodup.map_on ?_ (hsorted.imp fun hlt => ne_of_lt hlt)
    intro k hk k' hk' hid
    obtain ⟨op, hop, -, -, -, hts, hop_id⟩ := (hmem (ofLex k).1 (ofLex k).2).mp hk
    obtain ⟨op', hop', -, -, -, hts', hop_id'⟩ := (hmem (ofLex k').1 (ofLex k').2).mp hk'
    have hsame : op.entry = op'.entry :=
      hinj op hop op' hop' (hop_id.symm.trans (hid.trans hop_id'))
    have hts_eq : (ofLex k).1 = (ofLex k').1 := by rw [hts, hts', hsame]
    exact ofLex.injective (Prod.ext hts_eq hid)

/-! ### Three entries -/

/-- The all-zero state hash. -/
def zeroDigest : Digest := ⟨List.replicate 32 0, rfl⟩

/-- Two entries of one agent, appended against the order of their timestamps, and one of the
agent whose identifier comes next; the first is appended again. -/
def threeEntries : List Op :=
  [.append ⟨1, 2000, [], zeroDigest, zeroDigest, none⟩,
    .appendDurable ⟨1, 1000, [], zeroDigest, zeroDigest, some [0xab]⟩,
    .append ⟨2, 1000, [], zeroDigest, zeroDigest, none⟩,
    .appendDurable ⟨1, 2000, [], zeroDigest, zeroDigest, none⟩]

/-- The SHA-256 digest of the first entry. -/
def digest₁ : Digest := ⟨
  [0x15, 0x59, 0x3f, 0x6b, 0xe7, 0x49, 0x01, 0x51, 0x62, 0xa8, 0xdd, 0xdc,
    0x9d, 0x93, 0x55, 0x15, 0x9a, 0x05, 0xa3, 0x3f, 0x24, 0x7d, 0xca, 0x68,
    0xa0, 0xd6, 0xa7, 0xfb, 0x00, 0x96, 0xdf, 0x46], rfl⟩

/-- The SHA-256 digest of the second one. -/
def digest₂ : Digest := ⟨
  [0x85, 0x30, 0x3f, 0x4d, 0x95, 0x97, 0x3a, 0xac, 0xe7, 0x0c, 0x99, 0x79,
    0xe7, 0xf9, 0xb5, 0x30, 0x71, 0xa6, 0x71, 0x5f, 0x53, 0xef, 0xa2, 0xe1,
    0x13, 0x1a, 0x1c, 0xe8, 0x00, 0xcc, 0xa3, 0x47], rfl⟩

/-- The SHA-256 digest of the third one. -/
def digest₃ : Digest := ⟨
  [0x1a, 0x53, 0x41, 0x74, 0x82, 0x15, 0xbf, 0x3e, 0x40, 0x45, 0xcc, 0x22,
    0x5f, 0xfc, 0x86, 0x01, 0x7d, 0xa4, 0x21, 0x88, 0xdc, 0xf2, 0x5b, 0xec,
    0xc9, 0x34, 0xa8, 0x9f, 0x6c, 0xd0, 0x74, 0xdc], rfl⟩

/-- The serialisation of the log with SHA-256 on the three entries. -/
def sampleCodec : LogCodec where
  serialize := bincode
  deserialize := bincodeDecode
  sha256 bs :=
    if bs = bincode ⟨1, 2000, [], zeroDigest, zeroDigest, none⟩ then digest₁
    else if bs = bincode ⟨1, 1000, [], zeroDigest, zeroDigest, some [0xab]⟩ then digest₂
    else if bs = bincode ⟨2, 1000, [], zeroDigest, zeroDigest, none⟩ then digest₃
    else zeroDigest

/-- The store after the four appends. -/
theorem threeEntries_refined :
    (ofOps sampleCodec threeEntries).get sampleCodec digest₂ =
      .ok (some ⟨1, 1000, [], zeroDigest, zeroDigest, some [0xab]⟩) ∧
    (ofOps sampleCodec threeEntries).get sampleCodec zeroDigest = .ok none ∧
    ((ofOps sampleCodec threeEntries).queryByAgentRange 1 (some 1) none).Nodup := by
  have hround : ∀ op ∈ threeEntries,
      sampleCodec.deserialize (sampleCodec.serialize op.entry) = some op.entry := by
    decide +kernel
  have hinj : ∀ op ∈ threeEntries, ∀ op' ∈ threeEntries,
      sampleCodec.actionId op.entry = sampleCodec.actionId op'.entry →
        op.entry = op'.entry := by
    decide +kernel
  obtain ⟨hget, hnone, -, hquery⟩ := refines_entries hround hinj
  refine ⟨?_, ?_, (hquery 1 (some 1) none).1⟩
  · have hid : sampleCodec.actionId ⟨1, 1000, [], zeroDigest, zeroDigest, some [0xab]⟩ =
        digest₂ := by
      decide +kernel
    exact hid ▸ hget (.appendDurable ⟨1, 1000, [], zeroDigest, zeroDigest, some [0xab]⟩)
      (by simp [threeEntries])
  · exact hnone zeroDigest (by decide +kernel)

end LogStore

end Torpor
