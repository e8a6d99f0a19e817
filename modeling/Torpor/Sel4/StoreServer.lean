import Torpor.Lib.Assoc
import Torpor.Lib.Machine

/-!
# The Store Server on seL4

The server process of the seL4 store: the records of a ring (`parse_records`), the transaction that
a commit makes of them (`commit_to_redb`), and the commits of two agents, between which the server
may crash. The ring is memory of the runtime, so that it may hold anything.

A table of redb is a finite map. A transaction is atomic and durable, and does not fail; what is
left of the database by a crash is what the transactions before it have made. `none` is a panic:
an index or a slice out of range. Sequence numbers are numbers without the bound of `u64`.

## Main results

* `parseRecords_isSome`: the parser takes no index out of range.
* `journal_run`: in every run, the journal of an agent has the keys below its sequence number, its
  values are keys of the headers, and a commit adds to it what its ring asks for.
-/

namespace Torpor.StoreServer

/-! ### The records of a ring -/

/-- A record: its kind, a hash of 32 bytes, and a payload. -/
structure Record where
  kind : UInt8
  hash : List UInt8
  payload : List UInt8
  deriving DecidableEq, Repr

/-- `&data[lo..hi]`. -/
def slice (data : List UInt8) (lo hi : ℕ) : Option (List UInt8) :=
  if lo ≤ hi ∧ hi ≤ data.length then some ((data.drop lo).take (hi - lo)) else none

/-- `u32::from_le_bytes`. -/
def fromLeBytes (b₀ b₁ b₂ b₃ : UInt8) : ℕ :=
  b₀.toNat + 256 * (b₁.toNat + 256 * (b₂.toNat + 256 * b₃.toNat))

/-- One round of the loop of `parse_records`: `some none` leaves the loop. -/
def parseRecord (data : List UInt8) (pos : ℕ) : Option (Option (Record × ℕ)) := do
  let kind ← data[pos]?
  let pos := pos + 1
  let hash ← slice data pos (pos + 32)
  let pos := pos + 32
  if data.length < pos + 4 then return none
  let payloadLen :=
    fromLeBytes (← data[pos]?) (← data[pos + 1]?) (← data[pos + 2]?) (← data[pos + 3]?)
  let pos := pos + 4
  if data.length < pos + payloadLen then return none
  let payload ← slice data pos (pos + payloadLen)
  return some (⟨kind, hash, payload⟩, pos + payloadLen)

/-- The loop of `parse_records`; every round takes a byte at least. -/
def parseLoop (data : List UInt8) : ℕ → ℕ → List Record → Option (List Record)
  | 0, _, _ => none
  | fuel + 1, pos, records =>
      if pos + 37 ≤ data.length then
        match parseRecord data pos with
        | none => none
        | some none => some records
        | some (some (record, pos)) => parseLoop data fuel pos (records ++ [record])
      else some records

/-- `parse_records`. -/
def parseRecords (data : List UInt8) : Option (List Record) :=
  parseLoop data (data.length + 1) 0 []

theorem slice_eq_some {data : List UInt8} {lo hi : ℕ} (h : lo ≤ hi) (hhi : hi ≤ data.length) :
    slice data lo hi = some ((data.drop lo).take (hi - lo)) :=
  if_pos ⟨h, hhi⟩

/-- A round that the loop enters takes no index out of range, and moves on if it goes on. -/
theorem parseRecord_eq {data : List UInt8} {pos : ℕ} (h : pos + 37 ≤ data.length) :
    ∃ kind payloadLen, parseRecord data pos =
      if data.length < pos + 37 + payloadLen then some none
      else some (some (⟨kind, (data.drop (pos + 1)).take 32,
        (data.drop (pos + 37)).take payloadLen⟩, pos + 37 + payloadLen)) := by
  have hget : ∀ i, i < 37 → ∃ b, data[pos + i]? = some b := fun i hi =>
    ⟨_, List.getElem?_eq_getElem (by omega)⟩
  obtain ⟨kind, hkind⟩ := hget 0 (by omega)
  obtain ⟨b₀, hb₀⟩ := hget 33 (by omega)
  obtain ⟨b₁, hb₁⟩ := hget 34 (by omega)
  obtain ⟨b₂, hb₂⟩ := hget 35 (by omega)
  obtain ⟨b₃, hb₃⟩ := hget 36 (by omega)
  have hhash : slice data (pos + 1) (pos + 1 + 32) = some ((data.drop (pos + 1)).take 32) := by
    rw [slice_eq_some (by omega) (by omega), Nat.add_sub_cancel_left]
  have hlen : ¬ data.length < pos + 1 + 32 + 4 := by omega
  refine ⟨kind, fromLeBytes b₀ b₁ b₂ b₃, ?_⟩
  rw [Nat.add_zero] at hkind
  simp only [parseRecord, hkind, hhash, if_neg hlen, Option.bind_eq_bind, Option.bind_some,
    Nat.add_assoc, Nat.reduceAdd, hb₀, hb₁, hb₂, hb₃, pure]
  split_ifs with hpayload
  · rfl
  · rw [slice_eq_some (by omega) (by omega)]
    simp only [Option.bind_some, ← Nat.add_assoc, Nat.add_sub_cancel_left]

/-- The loop ends, without a panic. -/
theorem parseLoop_isSome {data : List UInt8} {fuel pos : ℕ} (h : data.length < pos + fuel)
    (hpos : pos ≤ data.length) (records : List Record) :
    ∃ rs, parseLoop data fuel pos records = some rs := by
  induction fuel generalizing pos records with
  | zero => omega
  | succ fuel ih =>
      rw [parseLoop]
      split_ifs with hround
      · obtain ⟨kind, payloadLen, hrecord⟩ := parseRecord_eq hround
        rw [hrecord]
        split_ifs with hend
        · exact ⟨records, rfl⟩
        · exact ih (by omega) (Nat.not_lt.mp hend) _
      · exact ⟨records, rfl⟩

/-- **The parser is total.** It takes no index out of range, whatever the bytes. -/
theorem parseRecords_isSome (data : List UInt8) : ∃ records, parseRecords data = some records :=
  parseLoop_isSome (by omega) (Nat.zero_le _) []

/-! ### The tables -/

/-- The two agents. -/
inductive Agent
  | agentA
  | agentB
  deriving DecidableEq, Repr

/-- `AGENT_A_ID` and `AGENT_B_ID`. -/
def Agent.id : Agent → ℕ
  | agentA => 1
  | agentB => 2

theorem Agent.id_inj {a b : Agent} (h : a.id = b.id) : a = b := by
  cases a <;> cases b <;> first | rfl | cases h

/-- A table from byte strings to byte strings. -/
abbrev ContentTable := AList fun _ : List UInt8 => List UInt8

/-- The journal of an agent: from sequence numbers to the hashes of headers. -/
abbrev Journal := AList fun _ : ℕ => List UInt8

/-- The tables of the database. -/
structure Database where
  blobs : ContentTable
  headers : ContentTable
  journalA : Journal
  journalB : Journal
  seq : AList fun _ : ℕ => ℕ

/-- `RingBuffer`. -/
structure Ring where
  dataLen : UInt32
  data : List UInt8
  length_data : data.length = 4092

namespace Database

/-- A new database. -/
def empty : Database := ⟨∅, ∅, ∅, ∅, ∅⟩

/-- The journal of an agent. -/
def journal (db : Database) : Agent → Journal
  | .agentA => db.journalA
  | .agentB => db.journalB

/-- `seq_tbl.get(agent_id)`, or zero. -/
def nextSeq (db : Database) (agent : Agent) : ℕ := (db.seq.lookup agent.id).getD 0

/-- The insertion into the journal and the table of sequence numbers. -/
def record (db : Database) (agent : Agent) (headerHash : List UInt8) : Database :=
  let seq := db.nextSeq agent
  let db := match agent with
    | .agentA => { db with journalA := db.journalA.insert seq headerHash }
    | .agentB => { db with journalB := db.journalB.insert seq headerHash }
  { db with seq := db.seq.insert agent.id (seq + 1) }

/-- One round of the loop over the records, with `header_hash_opt`. -/
def applyRecord (agent : Agent) (s : Database × Option (List UInt8)) (r : Record) :
    Database × Option (List UInt8) :=
  match r.kind with
  | 0 => ({ s.1 with blobs := s.1.blobs.insert r.hash r.payload }, s.2)
  | 1 => ({ s.1 with headers := s.1.headers.insert r.hash r.payload }, some r.hash)
  | 2 =>
      match s.2 with
      | none => s
      | some headerHash => (s.1.record agent headerHash, s.2)
  | _ => s

/-- The transaction of a list of records. -/
def transaction (db : Database) (agent : Agent) (records : List Record) : Database :=
  (records.foldl (applyRecord agent) (db, none)).1

/-- `commit_to_redb`: the sequence number that it returns, and the database. -/
def commitToRedb (db : Database) (agent : Agent) (ring : Ring) : Option (ℕ × Database) :=
  let dataLen := ring.dataLen.toNat
  if dataLen = 0 ∨ 4092 < dataLen then some (0, db)
  else do
    let data ← slice ring.data 0 dataLen
    let records ← parseRecords data
    let db := db.transaction agent records
    return (db.nextSeq agent, db)

end Database

/-- What happens to the server. -/
inductive ServerEvent
  | commit (agent : Agent) (ring : Ring)
  | crash

/-- The database after an event: a crash between two transactions leaves it as it is. -/
def Database.step (db : Database) : ServerEvent → Option Database
  | .commit agent ring => (db.commitToRedb agent ring).map Prod.snd
  | .crash => some db

/-! ### The records of a commit -/

/-- The records that a commit of the ring works through. -/
def Ring.records (ring : Ring) : List Record :=
  if ring.dataLen.toNat = 0 ∨ 4092 < ring.dataLen.toNat then []
  else (parseRecords (ring.data.take ring.dataLen.toNat)).getD []

/-- The records of kind two after the first one of kind one. -/
def journalled (records : List Record) : ℕ :=
  (records.dropWhile fun r => r.kind != 1).countP fun r => r.kind == 2

namespace Database

/-- A commit does not panic, and makes the transaction of the records of its ring. -/
theorem commitToRedb_eq (db : Database) (agent : Agent) (ring : Ring) :
    ∃ seq, db.commitToRedb agent ring = some (seq, db.transaction agent ring.records) := by
  simp only [commitToRedb, Ring.records]
  split_ifs with hlen
  · exact ⟨0, rfl⟩
  · have hle : ring.dataLen.toNat ≤ ring.data.length := by
      rw [ring.length_data]
      omega
    obtain ⟨records, hrecords⟩ := parseRecords_isSome (ring.data.take ring.dataLen.toNat)
    rw [slice_eq_some (Nat.zero_le _) hle]
    simp only [List.drop_zero, Nat.sub_zero, Option.bind_eq_bind, Option.bind_some, hrecords,
      Option.getD_some]
    exact ⟨_, rfl⟩

/-! ### What a record does -/

@[simp] theorem headers_record (db : Database) (agent : Agent) (headerHash : List UInt8) :
    (db.record agent headerHash).headers = db.headers := by
  cases agent <;> rfl

@[simp] theorem blobs_record (db : Database) (agent : Agent) (headerHash : List UInt8) :
    (db.record agent headerHash).blobs = db.blobs := by
  cases agent <;> rfl

theorem seq_record (db : Database) (agent : Agent) (headerHash : List UInt8) :
    (db.record agent headerHash).seq = db.seq.insert agent.id (db.nextSeq agent + 1) := by
  cases agent <;> rfl

theorem nextSeq_record (db : Database) (agent : Agent) (headerHash : List UInt8)
    (other : Agent) : (db.record agent headerHash).nextSeq other =
      if other = agent then db.nextSeq agent + 1 else db.nextSeq other := by
  rw [nextSeq, seq_record, AList.lookup_insert_ite]
  by_cases h : other = agent
  · rw [if_pos h, if_pos (congrArg Agent.id h), Option.getD_some]
  · rw [if_neg h, if_neg fun heq => h (Agent.id_inj heq), nextSeq]

theorem journal_record (db : Database) (agent : Agent) (headerHash : List UInt8)
    (other : Agent) : (db.record agent headerHash).journal other =
      if other = agent then (db.journal agent).insert (db.nextSeq agent) headerHash
      else db.journal other := by
  cases agent <;> cases other <;> rfl

/-- What the round for a record can do. -/
theorem applyRecord_cases (agent : Agent) (db : Database) (hh : Option (List UInt8))
    (r : Record) :
    (r.kind = 0 ∧
      applyRecord agent (db, hh) r = ({ db with blobs := db.blobs.insert r.hash r.payload }, hh)) ∨
    (r.kind = 1 ∧ applyRecord agent (db, hh) r =
      ({ db with headers := db.headers.insert r.hash r.payload }, some r.hash)) ∨
    (r.kind = 2 ∧ ∃ headerHash, hh = some headerHash ∧
      applyRecord agent (db, hh) r = (db.record agent headerHash, hh)) ∨
    (r.kind ≠ 0 ∧ r.kind ≠ 1 ∧ (r.kind = 2 → hh = none) ∧
      applyRecord agent (db, hh) r = (db, hh)) := by
  simp only [applyRecord]
  split
  · rename_i hkind
    exact .inl ⟨hkind, rfl⟩
  · rename_i hkind
    exact .inr (.inl ⟨hkind, rfl⟩)
  · rename_i hkind
    cases hh with
    | none =>
        refine .inr (.inr (.inr ⟨?_, ?_, fun _ => rfl, rfl⟩)) <;> simp [hkind]
    | some headerHash => exact .inr (.inr (.inl ⟨hkind, headerHash, rfl, rfl⟩))
  · rename_i h0 h1 h2
    exact .inr (.inr (.inr ⟨h0, h1, fun h => absurd h h2, rfl⟩))

/-! ### The invariant -/

/-- The journal of each agent has the keys below its sequence number, and its values are keys of
the headers. -/
structure Consistent (db : Database) : Prop where
  keys : ∀ agent k, ((db.journal agent).lookup k).isSome ↔ k < db.nextSeq agent
  headers : ∀ agent k hash, (db.journal agent).lookup k = some hash →
    (db.headers.lookup hash).isSome

theorem consistent_empty : empty.Consistent where
  keys agent k := by cases agent <;> simp [empty, journal, nextSeq]
  headers agent k hash h := by cases agent <;> simp [empty, journal] at h

theorem isSome_lookup_insert {t : ContentTable} {hash : List UInt8}
    (h : (t.lookup hash).isSome) (key payload : List UInt8) :
    ((t.insert key payload).lookup hash).isSome := by
  rw [AList.lookup_insert_ite]
  split_ifs
  · rfl
  · exact h

theorem isSome_lookup_insert_self (t : ContentTable) (key payload : List UInt8) :
    ((t.insert key payload).lookup key).isSome := by
  rw [AList.lookup_insert]
  rfl

/-- A further entry of the journal, for a header that is there. -/
theorem Consistent.record {db : Database} (h : db.Consistent) (agent : Agent)
    {headerHash : List UInt8} (hheader : (db.headers.lookup headerHash).isSome) :
    (db.record agent headerHash).Consistent := by
  constructor
  · intro other k
    rw [journal_record, nextSeq_record]
    split_ifs with hother
    · rw [AList.lookup_insert_ite]
      split_ifs with hk
      · simp [hk]
      · rw [h.keys agent k]
        omega
    · exact h.keys other k
  · intro other k hash hlookup
    rw [journal_record] at hlookup
    rw [headers_record]
    split_ifs at hlookup with hother
    · rw [AList.lookup_insert_ite] at hlookup
      split_ifs at hlookup with hk
      · exact Option.some.inj hlookup ▸ hheader
      · exact h.headers agent k hash hlookup
    · exact h.headers other k hash hlookup

/-- What one round keeps: the database is consistent, and the header carried over is there. -/
theorem Consistent.applyRecord {db : Database} (h : db.Consistent) (agent : Agent)
    {hh : Option (List UInt8)} (hheader : ∀ hash, hh = some hash → (db.headers.lookup hash).isSome)
    (r : Record) :
    (applyRecord agent (db, hh) r).1.Consistent ∧
      ∀ hash, (applyRecord agent (db, hh) r).2 = some hash →
        ((applyRecord agent (db, hh) r).1.headers.lookup hash).isSome := by
  rcases applyRecord_cases agent db hh r with ⟨-, heq⟩ | ⟨-, heq⟩ | ⟨-, headerHash, rfl, heq⟩ |
    ⟨-, -, -, heq⟩
  all_goals rw [heq]
  · exact ⟨⟨h.keys, h.headers⟩, hheader⟩
  · refine ⟨⟨h.keys, fun other k hash hk => ?_⟩, fun hash hhash => ?_⟩
    · exact isSome_lookup_insert (h.headers other k hash hk) _ _
    · exact Option.some.inj hhash ▸ isSome_lookup_insert_self _ _ _
  · refine ⟨h.record agent (hheader headerHash rfl), fun hash hhash => ?_⟩
    rw [headers_record]
    exact hheader hash hhash
  · exact ⟨h, hheader⟩

/-- A transaction keeps the database consistent. -/
theorem Consistent.transaction {db : Database} (h : db.Consistent) (agent : Agent)
    (records : List Record) : (db.transaction agent records).Consistent := by
  have hloop : ∀ s : Database × Option (List UInt8), s.1.Consistent →
      (∀ hash, s.2 = some hash → (s.1.headers.lookup hash).isSome) →
      (records.foldl (Database.applyRecord agent) s).1.Consistent := by
    induction records with
    | nil => exact fun s hs _ => hs
    | cons r records ih =>
        intro s hs hheader
        obtain ⟨hnext, hheader'⟩ := hs.applyRecord agent hheader r
        exact ih _ hnext hheader'
  exact hloop (db, none) h fun hash hhash => by cases hhash

/-! ### What a transaction adds -/

/-- The rounds for the records leave the journal and the sequence number of the other agent
alone. -/
theorem foldl_other {agent other : Agent} (hne : other ≠ agent) (records : List Record)
    (s : Database × Option (List UInt8)) :
    (records.foldl (applyRecord agent) s).1.journal other = s.1.journal other ∧
      (records.foldl (applyRecord agent) s).1.nextSeq other = s.1.nextSeq other := by
  induction records generalizing s with
  | nil => exact ⟨rfl, rfl⟩
  | cons r records ih =>
      obtain ⟨db, hh⟩ := s
      rw [List.foldl_cons]
      obtain ⟨hjournal, hseq⟩ := ih (applyRecord agent (db, hh) r)
      rw [hjournal, hseq]
      rcases applyRecord_cases agent db hh r with ⟨-, heq⟩ | ⟨-, heq⟩ | ⟨-, headerHash, -, heq⟩ |
        ⟨-, -, -, heq⟩
      all_goals rw [heq]
      · cases other <;> exact ⟨rfl, rfl⟩
      · cases other <;> exact ⟨rfl, rfl⟩
      · rw [journal_record, nextSeq_record, if_neg hne, if_neg hne]
        exact ⟨rfl, rfl⟩
      · exact ⟨rfl, rfl⟩

/-- With a header carried over, each record of kind two counts. -/
theorem nextSeq_foldl_some (agent : Agent) (records : List Record) (db : Database)
    (headerHash : List UInt8) :
    (records.foldl (applyRecord agent) (db, some headerHash)).1.nextSeq agent =
      db.nextSeq agent + records.countP fun r => r.kind == 2 := by
  induction records generalizing db headerHash with
  | nil => rfl
  | cons r records ih =>
      rw [List.foldl_cons, List.countP_cons]
      rcases applyRecord_cases agent db (some headerHash) r with ⟨hkind, heq⟩ | ⟨hkind, heq⟩ |
        ⟨hkind, hash, hhash, heq⟩ | ⟨-, -, hkind, heq⟩
      all_goals rw [heq, ih]
      · simp [hkind, nextSeq]
      · simp [hkind, nextSeq]
      · rw [nextSeq_record, if_pos rfl]
        simp [hkind]
        omega
      · have hne : r.kind ≠ 2 := fun h => by cases hkind h
        simp [hne]

/-- The sequence number grows by the records of kind two after the first one of kind one. -/
theorem nextSeq_transaction (db : Database) (agent : Agent) (records : List Record) :
    (db.transaction agent records).nextSeq agent = db.nextSeq agent + journalled records := by
  rw [transaction]
  induction records generalizing db with
  | nil => rfl
  | cons r records ih =>
      rw [List.foldl_cons]
      rcases applyRecord_cases agent db none r with ⟨hkind, heq⟩ | ⟨hkind, heq⟩ |
        ⟨-, hash, hhash, -⟩ | ⟨-, hkind, -, heq⟩
      · rw [heq, ih]
        simp [journalled, hkind, nextSeq]
      · rw [heq, nextSeq_foldl_some]
        simp [journalled, hkind, nextSeq]
      · cases hhash
      · rw [heq, ih]
        simp [journalled, hkind]

end Database

/-- **The journal of the store.** For every sequence of commits with any rings, and crashes
between them, the server does not panic; the journals have the keys below the sequence numbers and
the values are keys of the headers; and a further commit of an agent, which does not panic either,
moves its sequence number by the records of kind two that follow one of kind one, and leaves the
other agent alone. -/
theorem journal_run (events : List ServerEvent) :
    ∃ db, Machine.run Database.step .empty events = some db ∧ db.Consistent ∧
      ∀ agent ring, ∃ seq db', db.commitToRedb agent ring = some (seq, db') ∧
        db'.nextSeq agent = db.nextSeq agent + journalled ring.records ∧
        ∀ other, other ≠ agent →
          db'.journal other = db.journal other ∧ db'.nextSeq other = db.nextSeq other := by
  have hrun : ∀ db : Database, db.Consistent →
      ∃ db', Machine.run Database.step db events = some db' ∧ db'.Consistent := by
    induction events with
    | nil => exact fun db h => ⟨db, rfl, h⟩
    | cons ev events ih =>
        intro db h
        cases ev with
        | commit agent ring =>
            obtain ⟨seq, hcommit⟩ := db.commitToRedb_eq agent ring
            obtain ⟨db', hdb', hcons⟩ := ih _ (h.transaction agent ring.records)
            refine ⟨db', Machine.run_cons_eq_some.mpr ⟨_, ?_, hdb'⟩, hcons⟩
            rw [Database.step, hcommit]
            rfl
        | crash =>
            obtain ⟨db', hdb', hcons⟩ := ih db h
            exact ⟨db', Machine.run_cons_eq_some.mpr ⟨db, rfl, hdb'⟩, hcons⟩
  obtain ⟨db, hdb, hcons⟩ := hrun .empty Database.consistent_empty
  refine ⟨db, hdb, hcons, fun agent ring => ?_⟩
  obtain ⟨seq, hcommit⟩ := db.commitToRedb_eq agent ring
  refine ⟨seq, _, hcommit, db.nextSeq_transaction agent ring.records, fun other hne => ?_⟩
  exact Database.foldl_other hne ring.records (db, none)

end Torpor.StoreServer
