import Mathlib.Data.List.Induction
import Torpor.Sel4.StoreServer

/-!
# The Content of the seL4 Store

The blobs and the headers of the store are meant to be content-addressed, and the two agents
share their tables. The server takes the hash of a record from the ring and inserts the payload
under it as it is, so that what is stored depends on the rings.

The hash is a parameter, a function from payloads to keys.

## Main results

* `Database.get_transaction`: a transaction leaves under a key the payload of the last record
  for it.
* `content_immutable_iff`: in a run, no commit changes what is stored and every value hashes to
  its key if and only if every ring is faithful.
* `header_overwritten`: an agent changes a header that the journal of the other one refers to.
-/

namespace Torpor.StoreServer

open Machine

/-- The content-addressed tables. -/
inductive Table
  | blobs
  | headers
  deriving DecidableEq, Repr

/-- The kind of the records of a table. -/
def Table.kind : Table → UInt8
  | blobs => 0
  | headers => 1

/-- The payload of the last record for a key of a table. -/
def lastPayload (t : Table) (key : List UInt8) (records : List Record) : Option (List UInt8) :=
  ((records.filter fun r => r.kind == t.kind && r.hash == key).getLast?).map Record.payload

namespace Database

/-- The value under a key of a table. -/
def get (db : Database) : Table → List UInt8 → Option (List UInt8)
  | .blobs, key => db.blobs.lookup key
  | .headers, key => db.headers.lookup key

/-- Everything that is stored in `db` is stored in `db'` as well. -/
def Keeps (db db' : Database) : Prop :=
  ∀ t key value, db.get t key = some value → db'.get t key = some value

/-- Every value that is stored hashes to its key. -/
def ContentAddressed (sha256 : List UInt8 → List UInt8) (db : Database) : Prop :=
  ∀ t key value, db.get t key = some value → sha256 value = key

theorem get_record (db : Database) (agent : Agent) (headerHash : List UInt8) (t : Table)
    (key : List UInt8) : (db.record agent headerHash).get t key = db.get t key := by
  cases t with
  | blobs => rw [get, blobs_record, get]
  | headers => rw [get, headers_record, get]

/-- A record of a table is stored there under its hash; it touches nothing else. -/
theorem get_applyRecord (agent : Agent) (s : Database × Option (List UInt8)) (r : Record)
    (t : Table) (key : List UInt8) : (applyRecord agent s r).1.get t key =
      if r.kind = t.kind ∧ r.hash = key then some r.payload else s.1.get t key := by
  obtain ⟨db, hh⟩ := s
  rcases applyRecord_cases agent db hh r with ⟨hkind, heq⟩ | ⟨hkind, heq⟩ |
    ⟨hkind, headerHash, -, heq⟩ | ⟨h0, h1, -, heq⟩
  all_goals rw [heq]
  · cases t with
    | blobs => simp [get, hkind, Table.kind, AList.lookup_insert_ite, eq_comm]
    | headers => simp [get, hkind, Table.kind]
  · cases t with
    | blobs => simp [get, hkind, Table.kind]
    | headers => simp [get, hkind, Table.kind, AList.lookup_insert_ite, eq_comm]
  · rw [get_record, if_neg]
    cases t <;> simp [hkind, Table.kind]
  · rw [if_neg]
    cases t <;> simp [h0, h1, Table.kind]

/-- A transaction leaves under a key the payload of the last record for it. -/
theorem get_transaction (db : Database) (agent : Agent) (records : List Record) (t : Table)
    (key : List UInt8) : (db.transaction agent records).get t key =
      (lastPayload t key records).or (db.get t key) := by
  rw [transaction]
  induction records using List.reverseRecOn with
  | nil => rfl
  | append_singleton records r ih =>
      rw [List.foldl_append, List.foldl_cons, List.foldl_nil, get_applyRecord, ih]
      split_ifs with hr
      · simp [lastPayload, hr.1, hr.2]
      · have hno : (r.kind == t.kind && r.hash == key) = false := by simpa using hr
        simp [lastPayload, hno]

end Database

/-- The commit of a ring keeps what is stored, and leaves a content-addressed database. -/
def Immutable (sha256 : List UInt8 → List UInt8) (db : Database) (ev : ServerEvent) : Prop :=
  ∀ db', db.step ev = some db' → db.Keeps db' ∧ db'.ContentAddressed sha256

/-- What the server would have to check: for each key, the last payload that the ring has for it
hashes to the key, and is what is stored under it, if anything is. -/
def Faithful (sha256 : List UInt8 → List UInt8) (db : Database) : ServerEvent → Prop
  | .commit _ ring => ∀ t key payload, lastPayload t key ring.records = some payload →
      sha256 payload = key ∧ ∀ value, db.get t key = some value → value = payload
  | .crash => True

/-- A commit to a content-addressed database is immutable if and only if its ring is faithful. -/
theorem immutable_iff {sha256 : List UInt8 → List UInt8} {db : Database} (ev : ServerEvent)
    (h : db.ContentAddressed sha256) : Immutable sha256 db ev ↔ Faithful sha256 db ev := by
  cases ev with
  | crash =>
      refine ⟨fun _ => trivial, fun _ db' hstep => ?_⟩
      obtain rfl := Option.some.inj hstep
      exact ⟨fun t key value hvalue => hvalue, h⟩
  | commit agent ring =>
      obtain ⟨seq, hcommit⟩ := db.commitToRedb_eq agent ring
      have hstep : db.step (.commit agent ring) =
          some (db.transaction agent ring.records) := by
        rw [Database.step, hcommit]
        rfl
      constructor
      · intro himm t key payload hlast
        obtain ⟨hkeeps, haddressed⟩ := himm _ hstep
        have hget : (db.transaction agent ring.records).get t key = some payload := by
          rw [Database.get_transaction, hlast]
          rfl
        refine ⟨haddressed t key payload hget, fun value hvalue => ?_⟩
        exact Option.some.inj ((hkeeps t key value hvalue).symm.trans hget)
      · intro hfaithful db' hdb'
        obtain rfl := Option.some.inj (hstep.symm.trans hdb')
        constructor
        · intro t key value hvalue
          rw [Database.get_transaction]
          cases hlast : lastPayload t key ring.records with
          | none => exact hvalue
          | some payload =>
              rw [(hfaithful t key payload hlast).2 value hvalue]
              rfl
        · intro t key value hvalue
          rw [Database.get_transaction] at hvalue
          cases hlast : lastPayload t key ring.records with
          | none => exact h t key value (by simpa [hlast] using hvalue)
          | some payload =>
              rw [hlast] at hvalue
              obtain rfl := Option.some.inj hvalue
              exact (hfaithful t key payload hlast).1

/-- **Immutable content.** In every run from a new database, all commits keep what is stored and
leave content-addressed tables if and only if all rings are faithful. -/
theorem content_immutable_iff (sha256 : List UInt8 → List UInt8) (events : List ServerEvent) :
    Along Database.step (Immutable sha256) .empty events ↔
      Along Database.step (Faithful sha256) .empty events := by
  have hstart : Database.ContentAddressed sha256 .empty := by
    intro t key value hvalue
    cases t <;> simp [Database.get, Database.empty] at hvalue
  have hkeep : ∀ (db : Database) (ev : ServerEvent) (db' : Database),
      Database.ContentAddressed sha256 db → Immutable sha256 db ev → db.step ev = some db' →
      Database.ContentAddressed sha256 db' :=
    fun db ev db' _ himm hstep => (himm db' hstep).2
  exact along_congr hkeep (fun db ev h => immutable_iff ev h) hstart events

/-! ### A header of the other agent -/

/-- A hash: thirty-two sevens. -/
def sevens : List UInt8 := List.replicate 32 7

/-- A ring with a header record under that hash, and a journal record. -/
def headerRing (payload : UInt8) : Ring where
  dataLen := 75
  data := 1 :: sevens ++ [1, 0, 0, 0, payload] ++ 2 :: sevens ++ [0, 0, 0, 0] ++
    List.replicate 4017 0
  length_data := by simp only [sevens, List.length_append, List.length_cons, List.length_nil,
    List.length_replicate, List.cons_append]

/-- What the first entry of the journal of agent A refers to, and the header stored there. -/
def firstHeader (db : Database) : Option (List UInt8) × Option (List UInt8) :=
  (db.journalA.lookup 0, db.get .headers sevens)

/-- Agent B changes the header that the journal of agent A refers to. -/
theorem header_overwritten :
    ∃ db db', Machine.run Database.step .empty [.commit .agentA (headerRing 1)] = some db ∧
      db.step (.commit .agentB (headerRing 2)) = some db' ∧
      firstHeader db = (some sevens, some [1]) ∧ firstHeader db' = (some sevens, some [2]) ∧
      ¬ db.Keeps db' := by
  have hbefore : (Machine.run Database.step .empty [.commit .agentA (headerRing 1)]).map
      firstHeader = some (some sevens, some [1]) := by decide +kernel
  have hafter : (Machine.run Database.step .empty
      [.commit .agentA (headerRing 1), .commit .agentB (headerRing 2)]).map
      firstHeader = some (some sevens, some [2]) := by decide +kernel
  obtain ⟨db, hdb, hfirst⟩ := Option.map_eq_some_iff.mp hbefore
  obtain ⟨db', hdb', hsecond⟩ := Option.map_eq_some_iff.mp hafter
  obtain ⟨m, hm, hrest⟩ := Machine.run_cons_eq_some.mp hdb'
  have hm' : Machine.run Database.step .empty [.commit .agentA (headerRing 1)] = some m :=
    Machine.run_cons_eq_some.mpr ⟨m, hm, rfl⟩
  obtain rfl := Option.some.inj (hdb.symm.trans hm')
  obtain ⟨s, hstep, hs⟩ := Machine.run_cons_eq_some.mp hrest
  obtain rfl := Option.some.inj hs
  refine ⟨db, s, hdb, hstep, hfirst, hsecond, fun hkeeps => ?_⟩
  have h := hkeeps .headers sevens [1] (congrArg Prod.snd hfirst)
  cases h.symm.trans (congrArg Prod.snd hsecond)

end Torpor.StoreServer
