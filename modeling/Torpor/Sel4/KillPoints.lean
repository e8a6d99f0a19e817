import Mathlib.Data.List.Perm.Basic
import Torpor.Lib.Progress
import Torpor.Lib.Utf8
import Torpor.Sel4.RingRecords

/-!
# The Kill Points of the Store

Four processes: two runtimes, the store server and the supervisor. The guest of a runtime calls
`emit` so many times; `emit` writes three records into the ring of the runtime and calls the
server, which commits what it finds in the ring of the caller. At its kill point a runtime signals
the supervisor and suspends itself, as it does at its end; the supervisor waits for both, asks the
server for the two sequence numbers and tells its verdict.

A step is one of a process between two accesses to what it shares with others; the steps come in
any order, and the server takes any of the callers that wait. A caller is named by the badge that
the supervisor has minted for it, and is blocked until the reply. Each ring starts with any bytes.

## Main results

* `killPoints_atomic`: in every state of every run, the database is what so many whole commits of
  each agent make, and once both runtimes are suspended these are the commits that the kill points
  let them make.
* `killPoints_ends`: there is a bound on the length of a run, and it can be continued to the verdict
  exactly if the kill points let some agent commit.
* `killPoints_pass_iff`: the verdict of the builds.
-/

namespace Torpor.StoreServer

/-- `write_record` keeps the size of the buffer. -/
theorem length_writeRecord {buf : List UInt8} {pos : ℕ} {r : Record} (h : r.hash.length = 32) :
    (writeRecord buf pos r).2.1.length = buf.length := by
  rw [writeRecord_eq buf pos h]
  split_ifs with hfull
  · rfl
  · exact Blocks.length_overwrite (Nat.le_of_not_lt hfull)

/-- `write_record` into the ring: whether it was written, the ring and the position. -/
def Ring.write (ring : Ring) (pos : ℕ) (r : Record) (h : r.hash.length = 32) :
    Bool × Ring × ℕ :=
  let written := writeRecord ring.data pos r
  (written.1, ⟨ring.dataLen, written.2.1, (length_writeRecord h).trans ring.length_data⟩,
    written.2.2)

namespace KillPoints

/-- A hash of 32 bytes. -/
abbrev Hash := { h : List UInt8 // h.length = 32 }

/-! ### The records of an emission -/

section Records

variable (sha256 : List UInt8 → Hash)

/-- `EMIT_PAYLOAD`. -/
def emitPayload : List UInt8 := Utf8.encode "C7_CRASH_LOG_ENTRY_FROM_AGENT".toList

/-- `blob_hash`. -/
def blobHash : Hash := sha256 emitPayload

/-- `header_hash`, of `header_bytes`, which are the hash of the blob. -/
def headerHash : Hash := sha256 (blobHash sha256).val

/-- The blob record. -/
def blobRecord : Record := ⟨0, (blobHash sha256).val, emitPayload⟩

/-- The header record. -/
def headerRecord : Record := ⟨1, (headerHash sha256).val, (blobHash sha256).val⟩

/-- The log entry record. -/
def logEntryRecord : Record := ⟨2, (headerHash sha256).val, []⟩

end Records

/-! ### The processes -/

/-- `parse_kill_point`, with what stands for no kill point or an invalid one. -/
def parseKillPoint (default : ℕ) : Option (List UInt8) → ℕ
  | none => default
  | some b =>
      if b = [0x31] then 1 else if b = [0x32] then 2 else if b = [0x33] then 3
      else if b = [0x34] then 4 else default

/-- `parse_kill_point` of the runtime. -/
def runtimeKillPoint : Option (List UInt8) → ℕ := parseKillPoint 0

/-- `parse_kill_point` of the supervisor. -/
def supervisorKillPoint : Option (List UInt8) → ℕ := parseKillPoint 1

/-- How the processes are built: the kill points of the runtimes and of the supervisor, and how
often each guest calls `emit`. -/
structure Config where
  killPoint : Agent → ℕ
  expected : ℕ
  emits : Agent → ℕ

/-- The builds: the variable `KILL_POINT` is that of runtime A and of the supervisor, and the guests
call `emit` once. -/
def Config.build (killPoint : Option (List UInt8)) : Config where
  killPoint
    | .agentA => runtimeKillPoint killPoint
    | .agentB => runtimeKillPoint (some [0x30])
  expected := supervisorKillPoint killPoint
  emits _ := 1

/-- Where a runtime is. -/
inductive Point
  | boot
  | guest
  | blobPushed (pos : ℕ)
  | headerPushed (pos : ℕ)
  | published
  | calling
  | returned
  | suspended
  deriving DecidableEq

/-- A runtime, with its ring and the calls that its guest still makes. -/
structure Runtime where
  point : Point
  ring : Ring
  left : ℕ

/-- Who calls the server. -/
inductive Party
  | runtime (agent : Agent)
  | supervisor
  deriving DecidableEq

/-- The badge of the endpoint capability of a caller. -/
def Party.badge : Party → ℕ
  | .runtime agent => agent.id
  | .supervisor => 0xC8FE

/-- Where the server is: it receives, it serves a caller, or it is about to reply to one, with two
message registers. -/
inductive ServerPoint
  | receiving
  | serving (caller : Party)
  | replying (caller : Party) (msgRegs : ℕ × ℕ)

/-- Where the supervisor is. -/
inductive SupervisorPoint
  | waitingA
  | waitingB
  | asking
  | asked
  | answered (seqA seqB : ℕ)
  | ended (pass : Bool)

/-- The system: `queue` holds the callers that wait for the server, and `tables` tells whether some
transaction has made the tables, which a read needs. -/
structure System where
  runtimes : Agent → Runtime
  signalled : Agent → Bool
  queue : List Party
  server : ServerPoint
  db : Database
  tables : Bool
  supervisor : SupervisorPoint

/-- The system once the server is ready. -/
def System.start (cfg : Config) (rings : Agent → Ring) : System where
  runtimes agent := ⟨.boot, rings agent, cfg.emits agent⟩
  signalled _ := false
  queue := []
  server := .receiving
  db := .empty
  tables := false
  supervisor := .waitingA

/-! ### Steps -/

section Steps

variable (sha256 : List UInt8 → Hash) (cfg : Config)

/-- A runtime writes a record and goes on behind it; `emit` returns if it does not fit. -/
def Runtime.push (rt : Runtime) (pos : ℕ) (r : Record) (h : r.hash.length = 32)
    (next : Ring → ℕ → Runtime) : Runtime :=
  let (ok, ring, pos) := rt.ring.write pos r h
  if ok then next ring pos else { rt with point := .guest, ring, left := rt.left - 1 }

/-- What a step of a runtime does beside changing the runtime. -/
inductive Effect
  | none
  | call
  | signal
  deriving DecidableEq

/-- A step of a runtime. -/
def runtimeStep (agent : Agent) (rt : Runtime) : Option (Runtime × Effect) :=
  let killPoint := cfg.killPoint agent
  let selfSuspend : Runtime × Effect := ({ rt with point := .suspended }, .signal)
  match rt.point with
  | .boot => some ({ rt with point := .guest, ring := { rt.ring with dataLen := 0 } }, .none)
  | .guest =>
      some (if rt.left = 0 then selfSuspend
        else (rt.push 0 (blobRecord sha256) (blobHash sha256).property fun ring pos =>
          { rt with point := .blobPushed pos, ring }, .none))
  | .blobPushed pos =>
      some (if killPoint = 1 then selfSuspend
        else (rt.push pos (headerRecord sha256) (headerHash sha256).property fun ring pos =>
          { rt with point := .headerPushed pos, ring }, .none))
  | .headerPushed pos =>
      some (if killPoint = 2 then selfSuspend
        else (rt.push pos (logEntryRecord sha256) (headerHash sha256).property fun ring pos =>
          { rt with point := .published, ring := { ring with dataLen := UInt32.ofNat pos } },
          .none))
  | .published =>
      some (if killPoint = 3 then selfSuspend else ({ rt with point := .calling }, .call))
  | .calling => none
  | .returned =>
      some (if killPoint = 4 then selfSuspend
        else ({ point := .guest, ring := { rt.ring with dataLen := 0 }, left := rt.left - 1 },
          .none))
  | .suspended => none

/-- `oracle_query`: it panics unless there is a table of sequence numbers. -/
def oracleQuery (db : Database) (tables : Bool) : Option (ℕ × ℕ) :=
  if tables then some (db.nextSeq .agentA, db.nextSeq .agentB) else none

/-- A commit of the ring begins a transaction, which makes the tables. -/
def Ring.begins (ring : Ring) : Bool :=
  0 < ring.dataLen.toNat && ring.dataLen.toNat ≤ 4092

/-- What the server does for a caller: the database, whether there are tables, and the registers of
the reply. -/
def serve (runtimes : Agent → Runtime) (db : Database) (tables : Bool) (badge : ℕ) :
    Option (Database × Bool × (ℕ × ℕ)) :=
  let commit (agent : Agent) : Option (Database × Bool × (ℕ × ℕ)) :=
    let ring := (runtimes agent).ring
    (db.commitToRedb agent ring).map fun r => (r.2, tables || Ring.begins ring, 0, 0)
  if badge = 0xC8FE then (oracleQuery db tables).map fun seqs => (db, tables, seqs)
  else if badge = Agent.agentA.id then commit .agentA
  else if badge = Agent.agentB.id then commit .agentB
  else some (db, tables, 0, 0)

/-- Whose step it is; `choice` is the caller that the server takes. -/
inductive Input
  | runtime (agent : Agent)
  | server (choice : ℕ)
  | supervisor

/-- A step of the server. -/
def serverStep (s : System) (choice : ℕ) : Option System :=
  match s.server with
  | .receiving =>
      (s.queue[choice]?).map fun caller =>
        { s with queue := s.queue.eraseIdx choice, server := .serving caller }
  | .serving caller =>
      (serve s.runtimes s.db s.tables caller.badge).map fun r =>
        { s with db := r.1, tables := r.2.1, server := .replying caller r.2.2 }
  | .replying caller msgRegs =>
      some (match caller with
        | .runtime agent =>
            { s with server := .receiving
                     runtimes := Function.update s.runtimes agent
                       { s.runtimes agent with point := .returned } }
        | .supervisor =>
            { s with server := .receiving, supervisor := .answered msgRegs.1 msgRegs.2 })

/-- The verdict of the supervisor: I3-N and I4. -/
def verdict (seqA seqB : ℕ) : Bool :=
  let expectedSeqA := if cfg.expected = 4 then 1 else 0
  let expectedSeqB := 1
  seqA == expectedSeqA && seqB == expectedSeqB

/-- A step of the supervisor. -/
def supervisorStep (s : System) : Option System :=
  match s.supervisor with
  | .waitingA => if s.signalled .agentA then some { s with supervisor := .waitingB } else none
  | .waitingB => if s.signalled .agentB then some { s with supervisor := .asking } else none
  | .asking => some { s with supervisor := .asked, queue := s.queue ++ [.supervisor] }
  | .asked => none
  | .answered seqA seqB => some { s with supervisor := .ended (verdict cfg seqA seqB) }
  | .ended _ => none

/-- A step of the system. -/
def step (s : System) : Input → Option System
  | .runtime agent =>
      (runtimeStep sha256 cfg agent (s.runtimes agent)).map fun (rt, effect) =>
        { s with
          runtimes := Function.update s.runtimes agent rt
          signalled := if effect = .signal then Function.update s.signalled agent true
            else s.signalled
          queue := if effect = .call then s.queue ++ [.runtime agent] else s.queue }
  | .server choice => serverStep s choice
  | .supervisor => supervisorStep cfg s

end Steps

/-! ### What a ring holds -/

section Ring

variable {sha256 : List UInt8 → Hash}

/-- The ring holds the records up to the position. -/
structure Begins (rs : List Record) (ring : Ring) (pos : ℕ) : Prop where
  length : pos = (encodeRecords rs).length
  bytes : ring.data.take pos = encodeRecords rs

/-- A record that fits is written behind the others. -/
theorem push_eq (rt : Runtime) {pos : ℕ} {r : Record} {h : r.hash.length = 32} {rs : List Record}
    {next : Ring → ℕ → Runtime} (hb : Begins rs rt.ring pos)
    (hfits : (encodeRecords (rs ++ [r])).length ≤ 4092) :
    ∃ ring pos', rt.push pos r h next = next ring pos' ∧ Begins (rs ++ [r]) ring pos' := by
  have happend : encodeRecords (rs ++ [r]) = encodeRecords rs ++ encodeRecord r := by
    rw [encodeRecords, List.flatMap_append, List.flatMap_singleton]
    rfl
  rw [happend, List.length_append, ← hb.length] at hfits
  have hlength := rt.ring.length_data
  have hroom : ¬ rt.ring.data.length < pos + (encodeRecord r).length := by omega
  have hwrite := writeRecord_eq rt.ring.data pos h
  rw [if_neg hroom] at hwrite
  refine ⟨(rt.ring.write pos r h).2.1, pos + (encodeRecord r).length, ?_, ?_, ?_⟩
  · simp only [Runtime.push, Ring.write, hwrite, if_true]
  · rw [happend, List.length_append, hb.length]
  · simp only [Ring.write, hwrite]
    rw [Blocks.overwrite, hb.bytes, happend, hb.length, ← List.length_append, List.take_left]

theorem begins_nil (ring : Ring) : Begins [] ring 0 := ⟨rfl, rfl⟩

/-- The records of an emission. -/
def emission (sha256 : List UInt8 → Hash) : List Record :=
  [blobRecord sha256, headerRecord sha256, logEntryRecord sha256]

theorem length_emission : (encodeRecords (emission sha256)).length = 172 := by
  have hpayload : emitPayload.length = 29 := by decide
  have hblob := length_encodeRecord (r := blobRecord sha256) (blobHash sha256).property
  have hheader := length_encodeRecord (r := headerRecord sha256) (headerHash sha256).property
  have hentry := length_encodeRecord (r := logEntryRecord sha256) (headerHash sha256).property
  rw [show (blobRecord sha256).payload.length = 29 from hpayload] at hblob
  rw [show (headerRecord sha256).payload.length = 32 from (blobHash sha256).property] at hheader
  rw [show (logEntryRecord sha256).payload.length = 0 from rfl] at hentry
  rw [emission, encodeRecords_cons, encodeRecords_cons, encodeRecords_cons, List.length_append,
    List.length_append, List.length_append, hblob, hheader, hentry]
  rfl

theorem encodable_emission : ∀ r ∈ emission sha256, r.Encodable := by
  have hpayload : emitPayload.length = 29 := by decide
  have hblob : (blobHash sha256).val.length = 32 := (blobHash sha256).property
  rw [emission, List.forall_mem_cons, List.forall_mem_cons, List.forall_mem_singleton]
  exact ⟨⟨(blobHash sha256).property, by rw [blobRecord, hpayload]; decide⟩,
    ⟨(headerHash sha256).property, by rw [headerRecord, hblob]; decide⟩,
    ⟨(headerHash sha256).property, Nat.two_pow_pos 32⟩⟩

/-- What the server reads in a ring that holds an emission. -/
theorem records_of_begins {ring : Ring} {pos : ℕ} (hb : Begins (emission sha256) ring pos) :
    Ring.records { ring with dataLen := UInt32.ofNat pos } = emission sha256 := by
  obtain rfl : pos = 172 := hb.length.trans length_emission
  have hlen : (UInt32.ofNat 172).toNat = 172 := rfl
  rw [Ring.records, if_neg (by rw [hlen]; omega)]
  dsimp only
  rw [hlen, hb.bytes, parseRecords_encodeRecords encodable_emission, Option.getD_some]

end Ring

/-! ### What a commit makes of an emission -/

section Commit

variable {sha256 : List UInt8 → Hash}

/-- The database is what whole commits of emissions make of an empty one. -/
structure Content (sha256 : List UInt8 → Hash) (db : Database) : Prop where
  journal : ∀ agent k, (db.journal agent).lookup k =
    if k < db.nextSeq agent then some (headerHash sha256).val else none
  blobs : ∀ hash, db.blobs.lookup hash =
    if hash = (blobHash sha256).val ∧ 0 < db.nextSeq .agentA + db.nextSeq .agentB then
      some emitPayload else none
  headers : ∀ hash, db.headers.lookup hash =
    if hash = (headerHash sha256).val ∧ 0 < db.nextSeq .agentA + db.nextSeq .agentB then
      some (blobHash sha256).val else none

theorem content_empty : Content sha256 .empty where
  journal agent k := by cases agent <;> rfl
  blobs hash := (if_neg fun h => absurd h.2 (by decide)).symm
  headers hash := (if_neg fun h => absurd h.2 (by decide)).symm

/-- The transaction of an emission. -/
theorem transaction_emission (db : Database) (agent : Agent) :
    db.transaction agent (emission sha256) =
      ({ db with
        blobs := db.blobs.insert (blobHash sha256).val emitPayload
        headers := db.headers.insert (headerHash sha256).val (blobHash sha256).val } :
          Database).record agent (headerHash sha256).val := rfl

theorem nextSeq_emission (db : Database) (agent other : Agent) :
    (db.transaction agent (emission sha256)).nextSeq other =
      if other = agent then db.nextSeq agent + 1 else db.nextSeq other := by
  rw [transaction_emission, Database.nextSeq_record]
  rfl

theorem nextSeq_emission_pos (db : Database) (agent : Agent) :
    0 < (db.transaction agent (emission sha256)).nextSeq .agentA +
      (db.transaction agent (emission sha256)).nextSeq .agentB := by
  rw [nextSeq_emission, nextSeq_emission]
  cases agent <;> simp

theorem Content.commit {db : Database} (h : Content sha256 db) (agent : Agent) :
    Content sha256 (db.transaction agent (emission sha256)) := by
  have hsome := @nextSeq_emission_pos sha256 db agent
  constructor
  · intro other k
    rw [nextSeq_emission, transaction_emission, Database.journal_record]
    split_ifs with hother hk hk
    · obtain rfl := hother
      rw [AList.lookup_insert_ite]
      split_ifs with hlast
      · rfl
      · have hbefore : k < db.nextSeq other := Nat.lt_of_le_of_ne (Nat.le_of_lt_succ hk) hlast
        have hjournal := h.journal other k
        rw [if_pos hbefore] at hjournal
        cases other <;> exact hjournal
    · obtain rfl := hother
      have hne : k ≠ db.nextSeq other := by omega
      have hjournal := h.journal other k
      rw [if_neg (by omega)] at hjournal
      rw [AList.lookup_insert_ite]
      refine (if_neg hne).trans ?_
      cases other <;> exact hjournal
    · have hjournal := h.journal other k
      rw [if_pos hk] at hjournal
      cases other <;> exact hjournal
    · have hjournal := h.journal other k
      rw [if_neg hk] at hjournal
      cases other <;> exact hjournal
  · intro hash
    refine Eq.trans ?_ (if_congr (and_iff_left hsome) rfl rfl).symm
    rw [transaction_emission, Database.blobs_record]
    dsimp only
    rw [AList.lookup_insert_ite]
    split_ifs with heq
    · rfl
    · exact (h.blobs hash).trans (if_neg fun hb => heq hb.1)
  · intro hash
    refine Eq.trans ?_ (if_congr (and_iff_left hsome) rfl rfl).symm
    rw [transaction_emission, Database.headers_record]
    dsimp only
    rw [AList.lookup_insert_ite]
    split_ifs with heq
    · rfl
    · exact (h.headers hash).trans (if_neg fun hb => heq hb.1)

end Commit

/-! ### Runtimes -/

/-- How many commits a kill point lets a guest make that calls `emit` so many times. -/
def commitsOf (killPoint emits : ℕ) : ℕ :=
  if killPoint = 1 ∨ killPoint = 2 ∨ killPoint = 3 then 0
  else if killPoint = 4 then min 1 emits else emits

/-- The last kill point that a runtime has passed in this emission. -/
def Point.passed : Point → ℕ
  | .headerPushed _ => 1
  | .published => 2
  | .calling | .returned => 3
  | _ => 0

/-- The runtime is in the middle of an emission. -/
def Point.emitting : Point → Bool
  | .boot | .guest | .suspended => false
  | _ => true

/-- What a runtime has in its ring. -/
def Runtime.Holds (sha256 : List UInt8 → Hash) (rt : Runtime) : Prop :=
  match rt.point with
  | .blobPushed pos => Begins [blobRecord sha256] rt.ring pos
  | .headerPushed pos => Begins [blobRecord sha256, headerRecord sha256] rt.ring pos
  | .published | .calling => rt.ring.records = emission sha256
  | _ => True

/-- Where a runtime can be: one with a kill point is in its first emission. -/
structure Runtime.Inv (sha256 : List UInt8 → Hash) (cfg : Config) (agent : Agent) (rt : Runtime) :
    Prop where
  le : rt.left ≤ cfg.emits agent
  emitting : rt.point.emitting = true → 0 < rt.left
  first : rt.point = .boot ∨ 1 ≤ cfg.killPoint agent ∧ cfg.killPoint agent ≤ 4 →
    rt.point ≠ .suspended → rt.left = cfg.emits agent
  passed : ¬ (1 ≤ cfg.killPoint agent ∧ cfg.killPoint agent ≤ rt.point.passed)
  holds : rt.Holds sha256

/-- How many commits the server has made for a runtime; `replied` tells whether it has made the
one that the runtime waits for. -/
def Runtime.committed (cfg : Config) (agent : Agent) (rt : Runtime) (replied : Bool) : ℕ :=
  match rt.point with
  | .suspended => commitsOf (cfg.killPoint agent) (cfg.emits agent)
  | .returned => cfg.emits agent - rt.left + 1
  | .calling => cfg.emits agent - rt.left + if replied then 1 else 0
  | _ => cfg.emits agent - rt.left

/-- How many steps a runtime still takes, or has the server take, at most. -/
def Runtime.remaining (rt : Runtime) : ℕ :=
  match rt.point with
  | .boot => 8 * rt.left + 2
  | .guest => 8 * rt.left + 1
  | .blobPushed _ => 8 * rt.left
  | .headerPushed _ => 8 * rt.left - 1
  | .published => 8 * rt.left - 2
  | .calling => 8 * rt.left - 3
  | .returned => 8 * rt.left - 6
  | .suspended => 0

section RuntimeSteps

variable {sha256 : List UInt8 → Hash} {cfg : Config} {agent : Agent} {rt rt' : Runtime}
  {effect : Effect}

/-- What a step of a runtime does. -/
structure RuntimeStepped (sha256 : List UInt8 → Hash) (cfg : Config) (agent : Agent)
    (rt rt' : Runtime) (effect : Effect) : Prop where
  inv : rt'.Inv sha256 cfg agent
  committed : rt'.committed cfg agent false = rt.committed cfg agent false
  ready : rt.point ≠ .calling ∧ rt.point ≠ .suspended
  call : effect = .call ↔ rt'.point = .calling
  signal : effect = .signal ↔ rt'.point = .suspended
  less : rt'.remaining < rt.remaining

/-- A runtime suspends itself: it has made the commits that its kill point lets it make. -/
theorem Runtime.Inv.suspend (h : rt.Inv sha256 cfg agent)
    (hready : rt.point ≠ .calling ∧ rt.point ≠ .suspended)
    (hcommits : rt.committed cfg agent false = commitsOf (cfg.killPoint agent) (cfg.emits agent)) :
    RuntimeStepped sha256 cfg agent rt { rt with point := .suspended } .signal where
  inv := ⟨h.le, nofun, fun _ hne => absurd rfl hne, fun hk => by
    have := hk.2
    have := hk.1
    simp only [Point.passed] at *
    omega, trivial⟩
  committed := hcommits.symm
  ready := hready
  call := ⟨nofun, nofun⟩
  signal := ⟨fun _ => rfl, fun _ => rfl⟩
  less := by
    have hemitting := h.emitting
    obtain ⟨point, ring, left⟩ := rt
    cases point <;> simp [Point.emitting, Runtime.remaining] at hready hemitting ⊢
    all_goals omega

/-- How long the ring is up to each record. -/
theorem length_take_emission (n : ℕ) : (encodeRecords ((emission sha256).take n)).length ≤ 4092 := by
  have hsplit : encodeRecords ((emission sha256).take n) ++
      encodeRecords ((emission sha256).drop n) = encodeRecords (emission sha256) := by
    rw [encodeRecords, encodeRecords, ← List.flatMap_append, List.take_append_drop, encodeRecords]
  have hlength := congrArg List.length hsplit
  rw [List.length_append, length_emission] at hlength
  omega

theorem runtimeStep_spec (h : rt.Inv sha256 cfg agent)
    (hstep : runtimeStep sha256 cfg agent rt = some (rt', effect)) :
    RuntimeStepped sha256 cfg agent rt rt' effect := by
  have hle := h.le
  have hfirst := h.first
  have hpassed := h.passed
  have hholds := h.holds
  have hemitting := h.emitting
  obtain ⟨point, ring, left⟩ := rt
  cases point with
  | boot =>
      obtain ⟨rfl, rfl⟩ := Prod.mk.inj (Option.some.inj hstep)
      refine ⟨⟨hle, nofun, fun _ _ => hfirst (.inl rfl) nofun, hpassed, trivial⟩, rfl,
        ⟨nofun, nofun⟩, ⟨nofun, nofun⟩, ⟨nofun, nofun⟩, ?_⟩
      simp only [Runtime.remaining]
      omega
  | guest =>
      have hgo := Option.some.inj hstep
      dsimp only at hgo
      split_ifs at hgo with hzero
      · obtain ⟨rfl, rfl⟩ := Prod.mk.inj hgo
        refine h.suspend ⟨nofun, nofun⟩ ?_
        have hall := fun hk => hfirst (.inr hk) nofun
        simp only [Runtime.committed, commitsOf] at hall ⊢
        split_ifs <;> omega
      · obtain ⟨rfl, rfl⟩ := Prod.mk.inj hgo
        obtain ⟨ring', pos', hpush, hbegins⟩ := push_eq ⟨.guest, ring, left⟩
          (r := blobRecord sha256) (h := (blobHash sha256).property) (begins_nil ring)
          (length_take_emission 1 : (encodeRecords ((emission sha256).take 1)).length ≤ 4092)
        rw [hpush]
        exact ⟨⟨hle, fun _ => Nat.pos_of_ne_zero hzero, fun hk _ => hfirst (.inr (hk.resolve_left
          nofun)) nofun, hpassed, hbegins⟩, rfl, ⟨nofun, nofun⟩, ⟨nofun, nofun⟩, ⟨nofun, nofun⟩,
          by simp only [Runtime.remaining]; omega⟩
  | blobPushed pos =>
      have hgo := Option.some.inj hstep
      have hpos : 0 < left := hemitting rfl
      dsimp only at hgo
      split_ifs at hgo with hkill
      · obtain ⟨rfl, rfl⟩ := Prod.mk.inj hgo
        refine h.suspend ⟨nofun, nofun⟩ ?_
        have hall := hfirst (.inr (by omega)) nofun
        simp only [Runtime.committed, commitsOf] at hall ⊢
        rw [if_pos (.inl hkill), hall, Nat.sub_self]
      · obtain ⟨rfl, rfl⟩ := Prod.mk.inj hgo
        obtain ⟨ring', pos', hpush, hbegins⟩ := push_eq
          ⟨.blobPushed pos, ring, left⟩ (h := (headerHash sha256).property) hholds
          (length_take_emission 2)
        rw [hpush]
        refine ⟨⟨hle, fun _ => hpos, fun hk _ => hfirst (.inr (hk.resolve_left nofun)) nofun, ?_,
          hbegins⟩, rfl, ⟨nofun, nofun⟩, ⟨nofun, nofun⟩, ⟨nofun, nofun⟩, ?_⟩
        · simp only [Point.passed]
          omega
        · simp only [Runtime.remaining]
          omega
  | headerPushed pos =>
      have hgo := Option.some.inj hstep
      have hpos : 0 < left := hemitting rfl
      simp only [Point.passed] at hpassed
      dsimp only at hgo
      split_ifs at hgo with hkill
      · obtain ⟨rfl, rfl⟩ := Prod.mk.inj hgo
        refine h.suspend ⟨nofun, nofun⟩ ?_
        have hall := hfirst (.inr (by omega)) nofun
        simp only [Runtime.committed, commitsOf] at hall ⊢
        rw [if_pos (.inr (.inl hkill)), hall, Nat.sub_self]
      · obtain ⟨rfl, rfl⟩ := Prod.mk.inj hgo
        obtain ⟨ring', pos', hpush, hbegins⟩ := push_eq
          ⟨.headerPushed pos, ring, left⟩ (h := (headerHash sha256).property) hholds
          (length_take_emission 3)
        rw [hpush]
        refine ⟨⟨hle, fun _ => hpos, fun hk _ => hfirst (.inr (hk.resolve_left nofun)) nofun, ?_,
          records_of_begins hbegins⟩, rfl, ⟨nofun, nofun⟩, ⟨nofun, nofun⟩, ⟨nofun, nofun⟩, ?_⟩
        · simp only [Point.passed]
          omega
        · simp only [Runtime.remaining]
          omega
  | published =>
      have hgo := Option.some.inj hstep
      have hpos : 0 < left := hemitting rfl
      simp only [Point.passed] at hpassed
      dsimp only at hgo
      split_ifs at hgo with hkill
      · obtain ⟨rfl, rfl⟩ := Prod.mk.inj hgo
        refine h.suspend ⟨nofun, nofun⟩ ?_
        have hall := hfirst (.inr (by omega)) nofun
        simp only [Runtime.committed, commitsOf] at hall ⊢
        rw [if_pos (.inr (.inr hkill)), hall, Nat.sub_self]
      · obtain ⟨rfl, rfl⟩ := Prod.mk.inj hgo
        refine ⟨⟨hle, fun _ => hpos, fun hk _ => hfirst (.inr (hk.resolve_left nofun)) nofun, ?_,
          hholds⟩, rfl, ⟨nofun, nofun⟩, ⟨fun _ => rfl, fun _ => rfl⟩, ⟨nofun, nofun⟩, ?_⟩
        · simp only [Point.passed]
          omega
        · simp only [Runtime.remaining]
          omega
  | calling => cases hstep
  | returned =>
      have hgo := Option.some.inj hstep
      have hpos : 0 < left := hemitting rfl
      simp only [Point.passed] at hpassed
      dsimp only at hgo hle
      split_ifs at hgo with hkill
      · obtain ⟨rfl, rfl⟩ := Prod.mk.inj hgo
        refine h.suspend ⟨nofun, nofun⟩ ?_
        have hall := hfirst (.inr (by omega)) nofun
        simp only [Runtime.committed, commitsOf] at hall ⊢
        rw [if_neg (by omega), if_pos hkill]
        omega
      · obtain ⟨rfl, rfl⟩ := Prod.mk.inj hgo
        refine ⟨⟨?_, nofun, fun hk _ => absurd (hk.resolve_left nofun) (by omega), ?_, trivial⟩, ?_,
          ⟨nofun, nofun⟩, ⟨nofun, nofun⟩, ⟨nofun, nofun⟩, ?_⟩
        · dsimp only
          omega
        · simp only [Point.passed]
          omega
        · simp only [Runtime.committed]
          omega
        · simp only [Runtime.remaining]
          omega
  | suspended => cases hstep

end RuntimeSteps

/-! ### The system -/

/-- The caller that the server has taken. -/
def ServerPoint.current : ServerPoint → List Party
  | .receiving => []
  | .serving caller | .replying caller _ => [caller]

/-- The server has served the caller and not yet replied. -/
def ServerPoint.replied (server : ServerPoint) (caller : Party) : Bool :=
  match server with
  | .replying caller' _ => caller' = caller
  | _ => false

/-- The caller waits for a reply. -/
def System.waits (s : System) : Party → Bool
  | .runtime agent => (s.runtimes agent).point = .calling
  | .supervisor => match s.supervisor with
    | .asked => true
    | _ => false

/-- Both runtimes have suspended themselves. -/
def System.quiet (s : System) : Prop := ∀ agent, s.signalled agent = true

/-- The commits that the kill point of an agent lets it make. -/
def Config.commits (cfg : Config) (agent : Agent) : ℕ :=
  commitsOf (cfg.killPoint agent) (cfg.emits agent)

/-- Some commit is made. -/
def Config.Commits (cfg : Config) : Prop := 0 < cfg.commits .agentA + cfg.commits .agentB

/-- What the supervisor knows. -/
def System.Informed (cfg : Config) (s : System) : Prop :=
  match s.supervisor with
  | .waitingA => True
  | .waitingB => s.signalled .agentA = true
  | .asking | .asked => s.quiet
  | .answered seqA seqB =>
      s.quiet ∧ cfg.Commits ∧ (seqA, seqB) = (cfg.commits .agentA, cfg.commits .agentB)
  | .ended pass =>
      s.quiet ∧ cfg.Commits ∧ pass = verdict cfg (cfg.commits .agentA) (cfg.commits .agentB)

/-- What holds in every state. -/
structure System.Inv (sha256 : List UInt8 → Hash) (cfg : Config) (s : System) : Prop where
  runtimes : ∀ agent, (s.runtimes agent).Inv sha256 cfg agent
  committed : ∀ agent, s.db.nextSeq agent =
    (s.runtimes agent).committed cfg agent (s.server.replied (.runtime agent))
  content : Content sha256 s.db
  tables : s.tables = true ↔ 0 < s.db.nextSeq .agentA + s.db.nextSeq .agentB
  calls : ∀ caller, (s.queue ++ s.server.current).count caller =
    if s.waits caller then 1 else 0
  signalled : ∀ agent, s.signalled agent = true ↔ (s.runtimes agent).point = .suspended
  informed : s.Informed cfg
  reply : ∀ msgRegs, s.server = .replying .supervisor msgRegs →
    cfg.Commits ∧ msgRegs = (cfg.commits .agentA, cfg.commits .agentB)

section Invariant

variable {sha256 : List UInt8 → Hash} {cfg : Config} {s s' : System}

theorem System.inv_start (rings : Agent → Ring) : (System.start cfg rings).Inv sha256 cfg where
  runtimes agent := ⟨le_rfl, nofun, fun _ _ => rfl, fun h => by
    have := h.1
    have := h.2
    simp only [System.start, Point.passed] at *
    omega, trivial⟩
  committed agent := by
    rw [show (System.start cfg rings).db.nextSeq agent = 0 by cases agent <;> rfl]
    exact (Nat.sub_self _).symm
  content := content_empty
  tables := ⟨nofun, fun h => absurd h (Nat.lt_irrefl 0)⟩
  calls caller := by cases caller <;> rfl
  signalled agent := ⟨nofun, nofun⟩
  informed := trivial
  reply _ h := by cases h

/-- Who is being served or waits in the queue, waits for a reply. -/
theorem System.Inv.waits_of_mem (h : s.Inv sha256 cfg) {caller : Party}
    (hmem : caller ∈ s.queue ++ s.server.current) : s.waits caller = true := by
  have hcount := h.calls caller
  have hpos := List.count_pos_iff.mpr hmem
  by_contra hnot
  rw [if_neg hnot] at hcount
  omega

/-- Whom the server has taken, waits for a reply. -/
theorem System.Inv.waits_current (h : s.Inv sha256 cfg) {caller : Party}
    (hcurrent : s.server.current = [caller]) : s.waits caller = true := by
  refine h.waits_of_mem (List.mem_append_right _ ?_)
  rw [hcurrent]
  exact List.mem_singleton_self _

/-- What the supervisor knows stays true. -/
theorem System.Informed.mono (h : s.Informed cfg) (hsup : s'.supervisor = s.supervisor)
    (hmono : ∀ agent, s.signalled agent = true → s'.signalled agent = true) : s'.Informed cfg := by
  simp only [System.Informed, hsup] at h ⊢
  have hquiet : s.quiet → s'.quiet := fun hq agent => hmono agent (hq agent)
  split at h
  · trivial
  · exact hmono _ h
  · exact hquiet h
  · exact hquiet h
  · exact ⟨hquiet h.1, h.2⟩
  · exact ⟨hquiet h.1, h.2⟩

/-- A runtime that does not wait is not being replied to. -/
theorem System.Inv.not_replied (h : s.Inv sha256 cfg) {agent : Agent}
    (hready : (s.runtimes agent).point ≠ .calling) :
    s.server.replied (.runtime agent) = false := by
  by_contra hreplied
  rw [Bool.not_eq_false] at hreplied
  have hcurrent : Party.runtime agent ∈ s.queue ++ s.server.current := by
    rcases hserver : s.server with _ | caller | ⟨caller, msgRegs⟩
    · rw [hserver] at hreplied
      cases hreplied
    · rw [hserver] at hreplied
      cases hreplied
    · rw [hserver] at hreplied
      obtain rfl := of_decide_eq_true hreplied
      exact List.mem_append_right _ (List.mem_singleton_self _)
  exact hready (of_decide_eq_true (h.waits_of_mem hcurrent))

/-- A further caller waits. -/
theorem count_call (queue current : List Party) (caller other : Party) :
    (queue ++ [caller] ++ current).count other =
      (queue ++ current).count other + if caller = other then 1 else 0 := by
  rw [List.count_append, List.count_append, List.count_append, List.count_singleton]
  by_cases heq : caller = other
  · rw [if_pos heq, heq, beq_self_eq_true, if_pos rfl]
    omega
  · rw [if_neg heq, beq_false_of_ne heq]
    simp

theorem System.Inv.runtime (h : s.Inv sha256 cfg) {agent : Agent} {rt : Runtime}
    {effect : Effect}
    (hstep : runtimeStep sha256 cfg agent (s.runtimes agent) = some (rt, effect)) :
    ({ s with
        runtimes := Function.update s.runtimes agent rt
        signalled := if effect = .signal then Function.update s.signalled agent true
          else s.signalled
        queue := if effect = .call then s.queue ++ [.runtime agent] else s.queue } :
      System).Inv sha256 cfg := by
  obtain ⟨hinv, hcommitted, hready, hcall, hsignal⟩ :=
    runtimeStep_spec (h.runtimes agent) hstep
  have hreplied := h.not_replied hready.1
  have hsignalled : s.signalled agent = false := by
    rw [← Bool.not_eq_true, h.signalled agent]
    exact hready.2
  refine ⟨fun other => ?_, fun other => ?_, h.content, h.tables, fun caller => ?_,
    fun other => ?_, h.informed.mono rfl fun other hother => ?_, h.reply⟩
  · obtain rfl | hne := eq_or_ne other agent
    · simpa only [Function.update_self] using hinv
    · simpa only [Function.update_of_ne hne] using h.runtimes other
  · dsimp only
    obtain rfl | hne := eq_or_ne other agent
    · rw [Function.update_self, hreplied, hcommitted, ← hreplied]
      exact h.committed other
    · rw [Function.update_of_ne hne]
      exact h.committed other
  · have hcount := h.calls caller
    dsimp only
    rcases caller with other | _
    · simp only [System.waits, decide_eq_true_eq] at hcount ⊢
      obtain rfl | hne := eq_or_ne other agent
      · rw [if_neg hready.1] at hcount
        rw [Function.update_self]
        by_cases heffect : effect = .call
        · rw [if_pos heffect, if_pos (hcall.mp heffect), count_call, hcount, if_pos rfl]
        · rw [if_neg heffect, if_neg fun hpoint => heffect (hcall.mpr hpoint), hcount]
      · rw [Function.update_of_ne hne, ← hcount]
        split_ifs with heffect
        · rw [count_call, if_neg fun heq => hne (Party.runtime.inj heq).symm, Nat.add_zero]
        · rfl
    · refine Eq.trans ?_ hcount
      split_ifs with heffect
      · rw [count_call, if_neg nofun, Nat.add_zero]
      · rfl
  · dsimp only
    obtain rfl | hne := eq_or_ne other agent
    · rw [Function.update_self, ← hsignal]
      split_ifs with heffect
      · rw [Function.update_self]
        exact iff_of_true rfl heffect
      · rw [hsignalled]
        exact iff_of_false nofun heffect
    · rw [Function.update_of_ne hne, ← h.signalled other]
      split_ifs with heffect
      · rw [Function.update_of_ne hne]
      · rfl
  · dsimp only
    split_ifs with heffect
    · obtain rfl | hne := eq_or_ne other agent
      · exact Function.update_self ..
      · rwa [Function.update_of_ne hne]
    · exact hother

/-- The supervisor asks when both runtimes have suspended themselves. -/
theorem System.Inv.quiet_of_asked (h : s.Inv sha256 cfg) (hasked : s.waits .supervisor = true) :
    s.quiet := by
  have hinformed := h.informed
  rw [System.waits] at hasked
  rw [System.Informed] at hinformed
  split at hasked
  · rename_i heq
    rwa [heq] at hinformed
  · cases hasked

/-- When both runtimes have suspended themselves, all commits have been made. -/
theorem System.Inv.nextSeq_of_quiet (h : s.Inv sha256 cfg) (hquiet : s.quiet) (agent : Agent) :
    s.db.nextSeq agent = cfg.commits agent := by
  rw [h.committed agent, Runtime.committed, (h.signalled agent).mp (hquiet agent)]
  rfl

/-- What the server does for a caller that waits: a commit of its emission, or an answer. -/
theorem System.Inv.serve (h : s.Inv sha256 cfg) {caller : Party}
    (hserver : s.server = .serving caller) :
    KillPoints.serve s.runtimes s.db s.tables caller.badge =
      match caller with
      | .runtime agent => some (s.db.transaction agent (emission sha256), true, 0, 0)
      | .supervisor =>
          if s.tables then some (s.db, true, cfg.commits .agentA, cfg.commits .agentB)
          else none := by
  have hwaits : s.waits caller = true := h.waits_current (by rw [hserver]; rfl)
  rcases caller with agent | _
  · have hpoint : (s.runtimes agent).point = .calling := of_decide_eq_true hwaits
    have hholds := (h.runtimes agent).holds
    rw [Runtime.Holds, hpoint] at hholds
    obtain ⟨seq, hcommit⟩ := s.db.commitToRedb_eq agent (s.runtimes agent).ring
    rw [hholds] at hcommit
    have hbegins : Ring.begins (s.runtimes agent).ring = true := by
      by_contra hnot
      rw [Ring.records, if_pos (by
        simp only [Ring.begins, Bool.and_eq_true, decide_eq_true_eq] at hnot
        omega)] at hholds
      cases hholds
    cases agent <;> simp [KillPoints.serve, Party.badge, Agent.id, hcommit, hbegins]
  · have hseq := h.nextSeq_of_quiet (h.quiet_of_asked hwaits)
    dsimp only
    rw [KillPoints.serve, if_pos (show Party.supervisor.badge = 0xC8FE from rfl), oracleQuery, hseq,
      hseq]
    split_ifs with htables
    · rw [htables]
      rfl
    · rfl

/-- The server takes a caller. -/
theorem System.Inv.receive (h : s.Inv sha256 cfg) (hserver : s.server = .receiving) {choice : ℕ}
    {caller : Party} (hcaller : s.queue[choice]? = some caller) :
    ({ s with queue := s.queue.eraseIdx choice, server := .serving caller } : System).Inv
      sha256 cfg := by
  obtain ⟨hlt, rfl⟩ := List.getElem?_eq_some_iff.mp hcaller
  refine ⟨h.runtimes, fun agent => ?_, h.content, h.tables, fun other => ?_, h.signalled,
    h.informed, nofun⟩
  · have hcommitted := h.committed agent
    rw [hserver] at hcommitted
    exact hcommitted
  · have hcount := h.calls other
    rw [hserver, ServerPoint.current, List.append_nil] at hcount
    have hperm := (List.getElem_cons_eraseIdx_perm hlt).count_eq other
    rw [List.count_cons, hcount] at hperm
    rw [ServerPoint.current, List.count_append, List.count_singleton]
    exact hperm

/-- The server serves a caller. -/
theorem System.Inv.served (h : s.Inv sha256 cfg) {caller : Party}
    (hserver : s.server = .serving caller) {r : Database × Bool × (ℕ × ℕ)}
    (hr : KillPoints.serve s.runtimes s.db s.tables caller.badge = some r) :
    ({ s with db := r.1, tables := r.2.1, server := .replying caller r.2.2 } : System).Inv
      sha256 cfg := by
  have hserve := h.serve hserver
  have hwaits : s.waits caller = true := h.waits_current (by rw [hserver]; rfl)
  have hcommitted : ∀ agent, s.db.nextSeq agent = (s.runtimes agent).committed cfg agent false := by
    intro agent
    have hagent := h.committed agent
    rwa [hserver] at hagent
  have hcalls : ∀ other, (s.queue ++ [caller]).count other = if s.waits other then 1 else 0 := by
    intro other
    have hcount := h.calls other
    rwa [hserver] at hcount
  rcases caller with agent | _
  · have hpoint : (s.runtimes agent).point = .calling := of_decide_eq_true hwaits
    obtain rfl := Option.some.inj (hr.symm.trans hserve)
    refine ⟨h.runtimes, fun other => ?_, h.content.commit agent, ?_, hcalls, h.signalled,
      h.informed, nofun⟩
    · dsimp only [ServerPoint.replied]
      rw [nextSeq_emission]
      split_ifs with hother
      · obtain rfl := hother
        rw [hcommitted other, decide_eq_true rfl, Runtime.committed, Runtime.committed, hpoint]
        rfl
      · rw [hcommitted other, decide_eq_false fun heq => hother (Party.runtime.inj heq).symm]
    · exact iff_of_true rfl (nextSeq_emission_pos s.db agent)
  · dsimp only at hserve
    split_ifs at hserve with htables
    · obtain rfl := Option.some.inj (hr.symm.trans hserve)
      have hsome := h.tables.mp htables
      rw [h.nextSeq_of_quiet (h.quiet_of_asked hwaits),
        h.nextSeq_of_quiet (h.quiet_of_asked hwaits)] at hsome
      refine ⟨h.runtimes, hcommitted, h.content, ?_, hcalls, h.signalled, h.informed, ?_⟩
      · exact iff_of_true rfl (h.tables.mp htables)
      · rintro msgRegs heq
        exact ⟨hsome, (ServerPoint.replying.inj heq).2.symm⟩
    · cases hr.symm.trans hserve

/-- The server replies to a runtime. -/
theorem System.Inv.replyRuntime (h : s.Inv sha256 cfg) {agent : Agent} {msgRegs : ℕ × ℕ}
    (hserver : s.server = .replying (.runtime agent) msgRegs) :
    ({ s with server := .receiving
              runtimes := Function.update s.runtimes agent
                { s.runtimes agent with point := .returned } } : System).Inv sha256 cfg := by
  have hwaits : s.waits (.runtime agent) = true := h.waits_current (by rw [hserver]; rfl)
  have hpoint : (s.runtimes agent).point = .calling := of_decide_eq_true hwaits
  obtain ⟨hle, hemitting, hfirst, hpassed, -⟩ := h.runtimes agent
  rw [hpoint] at hemitting hfirst hpassed
  refine ⟨fun other => ?_, fun other => ?_, h.content, h.tables, fun other => ?_, fun other => ?_,
    h.informed, nofun⟩
  · dsimp only
    obtain rfl | hne := eq_or_ne other agent
    · rw [Function.update_self]
      exact ⟨hle, fun _ => hemitting rfl, fun hk _ => hfirst (.inr (hk.resolve_left nofun)) nofun,
        hpassed, trivial⟩
    · rw [Function.update_of_ne hne]
      exact h.runtimes other
  · have hcommitted := h.committed other
    rw [hserver, ServerPoint.replied] at hcommitted
    dsimp only [ServerPoint.replied]
    obtain rfl | hne := eq_or_ne other agent
    · rw [Function.update_self, hcommitted, decide_eq_true rfl, Runtime.committed, hpoint]
      rfl
    · rw [Function.update_of_ne hne, hcommitted,
        decide_eq_false fun heq => hne (Party.runtime.inj heq).symm]
  · have hcount := h.calls other
    rw [hserver, ServerPoint.current, List.count_append, List.count_singleton] at hcount
    rw [ServerPoint.current, List.append_nil]
    rcases other with other | _
    · simp only [System.waits, decide_eq_true_eq] at hcount ⊢
      obtain rfl | hne := eq_or_ne other agent
      · rw [hpoint, if_pos rfl, beq_self_eq_true, if_pos rfl] at hcount
        rw [Function.update_self, if_neg nofun]
        omega
      · rw [beq_false_of_ne fun heq => hne (Party.runtime.inj heq).symm] at hcount
        rw [Function.update_of_ne hne]
        exact hcount
    · exact hcount
  · dsimp only
    obtain rfl | hne := eq_or_ne other agent
    · rw [Function.update_self, h.signalled other, hpoint]
      exact iff_of_false nofun nofun
    · rw [Function.update_of_ne hne]
      exact h.signalled other

/-- The server replies to the supervisor. -/
theorem System.Inv.replySupervisor (h : s.Inv sha256 cfg) {msgRegs : ℕ × ℕ}
    (hserver : s.server = .replying .supervisor msgRegs) :
    ({ s with server := .receiving
              supervisor := .answered msgRegs.1 msgRegs.2 } : System).Inv sha256 cfg := by
  have hwaits : s.waits .supervisor = true := h.waits_current (by rw [hserver]; rfl)
  refine ⟨h.runtimes, fun other => ?_, h.content, h.tables, fun other => ?_, h.signalled, ?_,
    nofun⟩
  · have hcommitted := h.committed other
    rwa [hserver] at hcommitted
  · have hcount := h.calls other
    rw [hserver, ServerPoint.current, List.count_append, List.count_singleton] at hcount
    rw [ServerPoint.current, List.append_nil]
    rcases other with other | _
    · exact hcount
    · rw [if_pos hwaits, beq_self_eq_true, if_pos rfl] at hcount
      rw [System.waits, if_neg nofun]
      dsimp only
      omega
  · obtain ⟨hsome, rfl⟩ := h.reply msgRegs hserver
    exact ⟨h.quiet_of_asked hwaits, hsome, rfl⟩

theorem System.Inv.server (h : s.Inv sha256 cfg) {choice : ℕ}
    (hstep : serverStep s choice = some s') : s'.Inv sha256 cfg := by
  rw [serverStep] at hstep
  split at hstep
  · rename_i hserver
    obtain ⟨caller, hcaller, rfl⟩ := Option.map_eq_some_iff.mp hstep
    exact h.receive hserver hcaller
  · rename_i caller hserver
    obtain ⟨r, hr, rfl⟩ := Option.map_eq_some_iff.mp hstep
    exact h.served hserver hr
  · rename_i caller msgRegs hserver
    obtain rfl := Option.some.inj hstep
    rcases caller with agent | _
    · exact h.replyRuntime hserver
    · exact h.replySupervisor hserver

theorem System.Inv.supervisor (h : s.Inv sha256 cfg) (hstep : supervisorStep cfg s = some s') :
    s'.Inv sha256 cfg := by
  have hinformed := h.informed
  have hcalls := h.calls
  rw [supervisorStep] at hstep
  rw [System.Informed] at hinformed
  rcases hsup : s.supervisor with _ | _ | _ | _ | ⟨seqA, seqB⟩ | pass
  all_goals rw [hsup] at hstep hinformed
  all_goals dsimp only at hstep hinformed
  all_goals simp only [System.waits, hsup] at hcalls
  · split_ifs at hstep with hsignal
    obtain rfl := Option.some.inj hstep
    exact ⟨h.runtimes, h.committed, h.content, h.tables, hcalls, h.signalled, hsignal, h.reply⟩
  · split_ifs at hstep with hsignal
    obtain rfl := Option.some.inj hstep
    refine ⟨h.runtimes, h.committed, h.content, h.tables, hcalls, h.signalled, fun agent => ?_,
      h.reply⟩
    cases agent
    · exact hinformed
    · exact hsignal
  · obtain rfl := Option.some.inj hstep
    refine ⟨h.runtimes, h.committed, h.content, h.tables, fun caller => ?_, h.signalled, hinformed,
      h.reply⟩
    have hcount := hcalls caller
    dsimp only
    rw [count_call, hcount]
    cases caller <;> rfl
  · cases hstep
  · obtain rfl := Option.some.inj hstep
    obtain ⟨hquiet, hsome, hseqs⟩ := hinformed
    refine ⟨h.runtimes, h.committed, h.content, h.tables, hcalls, h.signalled, ⟨hquiet, hsome, ?_⟩,
      h.reply⟩
    rw [(Prod.mk.inj hseqs).1, (Prod.mk.inj hseqs).2]
  · cases hstep

theorem System.Inv.step (h : s.Inv sha256 cfg) {input : Input}
    (hstep : step sha256 cfg s input = some s') : s'.Inv sha256 cfg := by
  cases input with
  | runtime agent =>
      obtain ⟨⟨rt, effect⟩, hrt, rfl⟩ := Option.map_eq_some_iff.mp hstep
      exact h.runtime hrt
  | server choice => exact h.server hstep
  | supervisor => exact h.supervisor hstep

/-! ### Every run ends -/

/-- The steps of the server until it receives again. -/
def ServerPoint.remaining : ServerPoint → ℕ
  | .receiving => 2
  | .serving _ => 1
  | .replying _ _ => 0

/-- How many steps the supervisor still takes, or has the server take. -/
def SupervisorPoint.remaining : SupervisorPoint → ℕ
  | .waitingA => 7
  | .waitingB => 6
  | .asking => 5
  | .asked => 4
  | .answered _ _ => 1
  | .ended _ => 0

/-- The measure of the system. -/
def System.remaining (s : System) : ℕ :=
  (s.runtimes .agentA).remaining + (s.runtimes .agentB).remaining + s.server.remaining +
    s.supervisor.remaining

/-- The measure after a change of one runtime. -/
theorem remaining_update (runtimes : Agent → Runtime) (agent : Agent) (rt : Runtime) :
    (Function.update runtimes agent rt .agentA).remaining +
        (Function.update runtimes agent rt .agentB).remaining + (runtimes agent).remaining =
      (runtimes .agentA).remaining + (runtimes .agentB).remaining + rt.remaining := by
  cases agent
  · rw [Function.update_self, Function.update_of_ne (by decide)]
    omega
  · rw [Function.update_self, Function.update_of_ne (by decide)]
    omega

/-- Every step brings the end nearer. -/
theorem System.Inv.less (h : s.Inv sha256 cfg) {input : Input}
    (hstep : KillPoints.step sha256 cfg s input = some s') : s'.remaining < s.remaining := by
  cases input with
  | runtime agent =>
      obtain ⟨⟨rt, effect⟩, hrt, rfl⟩ := Option.map_eq_some_iff.mp hstep
      have hless := (runtimeStep_spec (h.runtimes agent) hrt).less
      have hupdate := remaining_update s.runtimes agent rt
      simp only [System.remaining]
      omega
  | server choice =>
      simp only [KillPoints.step, serverStep] at hstep
      split at hstep
      · rename_i hserver
        obtain ⟨caller, hcaller, rfl⟩ := Option.map_eq_some_iff.mp hstep
        simp only [System.remaining, hserver, ServerPoint.remaining]
        omega
      · rename_i caller hserver
        obtain ⟨r, hr, rfl⟩ := Option.map_eq_some_iff.mp hstep
        simp only [System.remaining, hserver, ServerPoint.remaining]
        omega
      · rename_i caller msgRegs hserver
        obtain rfl := Option.some.inj hstep
        have hwaits : s.waits caller = true := h.waits_current (by rw [hserver]; rfl)
        rcases caller with agent | _
        · have hpoint : (s.runtimes agent).point = .calling := of_decide_eq_true hwaits
          have hpos := (h.runtimes agent).emitting (by rw [hpoint]; rfl)
          have hcalling : (s.runtimes agent).remaining = 8 * (s.runtimes agent).left - 3 := by
            rw [Runtime.remaining, hpoint]
          have hupdate := remaining_update s.runtimes agent
            { s.runtimes agent with point := .returned }
          rw [hcalling, show ({ s.runtimes agent with point := .returned } : Runtime).remaining =
            8 * (s.runtimes agent).left - 6 from rfl] at hupdate
          simp only [System.remaining, hserver, ServerPoint.remaining] at hupdate ⊢
          omega
        · have hasked : s.supervisor.remaining = 4 := by
            rw [System.waits] at hwaits
            split at hwaits
            · rename_i heq
              rw [heq]
              rfl
            · cases hwaits
          simp only [System.remaining, hserver, ServerPoint.remaining, hasked]
          rw [SupervisorPoint.remaining]
          omega
  | supervisor =>
      simp only [KillPoints.step, supervisorStep] at hstep
      split at hstep
      · rename_i hsup
        split_ifs at hstep
        obtain rfl := Option.some.inj hstep
        simp only [System.remaining, hsup, SupervisorPoint.remaining]
        omega
      · rename_i hsup
        split_ifs at hstep
        obtain rfl := Option.some.inj hstep
        simp only [System.remaining, hsup, SupervisorPoint.remaining]
        omega
      · rename_i hsup
        obtain rfl := Option.some.inj hstep
        simp only [System.remaining, hsup, SupervisorPoint.remaining]
        omega
      · cases hstep
      · rename_i hsup
        obtain rfl := Option.some.inj hstep
        simp only [System.remaining, hsup, SupervisorPoint.remaining]
        omega
      · cases hstep

/-- The supervisor has told its verdict. -/
def System.Ended (s : System) : Prop := ∃ pass, s.supervisor = .ended pass

/-- Where nobody waits, a runtime or the supervisor can take a step. -/
theorem System.Inv.next_of_idle (h : s.Inv sha256 cfg) (hidle : ∀ caller, s.waits caller = false) :
    s.Ended ∨ ∃ input s', KillPoints.step sha256 cfg s input = some s' := by
  by_cases hrun : ∃ agent, (s.runtimes agent).point ≠ .suspended
  · obtain ⟨agent, hsuspended⟩ := hrun
    have hcalling : (s.runtimes agent).point ≠ .calling :=
      of_decide_eq_false (hidle (.runtime agent))
    obtain ⟨r, hr⟩ : ∃ r, runtimeStep sha256 cfg agent (s.runtimes agent) = some r := by
      rw [runtimeStep]
      split
      all_goals first
        | exact ⟨_, rfl⟩
        | exact absurd ‹_› hcalling
        | exact absurd ‹_› hsuspended
    exact .inr ⟨.runtime agent, _, by rw [KillPoints.step, hr]; rfl⟩
  · have hquiet : s.quiet := fun agent =>
      (h.signalled agent).mpr (not_not.mp fun hne => hrun ⟨agent, hne⟩)
    have hasked := hidle .supervisor
    rcases hsup : s.supervisor with _ | _ | _ | _ | ⟨seqA, seqB⟩ | pass
    · exact .inr ⟨.supervisor, _, by
        rw [KillPoints.step, supervisorStep, hsup]
        exact if_pos (hquiet .agentA)⟩
    · exact .inr ⟨.supervisor, _, by
        rw [KillPoints.step, supervisorStep, hsup]
        exact if_pos (hquiet .agentB)⟩
    · exact .inr ⟨.supervisor, _, by rw [KillPoints.step, supervisorStep, hsup]⟩
    · rw [System.waits, hsup] at hasked
      cases hasked
    · exact .inr ⟨.supervisor, _, by rw [KillPoints.step, supervisorStep, hsup]⟩
    · exact .inl ⟨pass, hsup⟩

/-- Until the verdict some process can take a step, if a commit is made. -/
theorem System.Inv.next (h : s.Inv sha256 cfg) (hsome : cfg.Commits) :
    s.Ended ∨ ∃ input s', KillPoints.step sha256 cfg s input = some s' := by
  rcases hserver : s.server with _ | caller | ⟨caller, msgRegs⟩
  · rcases hqueue : s.queue with _ | ⟨caller, queue⟩
    · refine h.next_of_idle fun caller => ?_
      have hcount := h.calls caller
      rw [hserver, hqueue] at hcount
      by_contra hwaits
      rw [if_pos (Bool.not_eq_false _ ▸ hwaits)] at hcount
      cases hcount
    · exact .inr ⟨.server 0, _, by rw [KillPoints.step, serverStep, hserver, hqueue]; rfl⟩
  · have hserve := h.serve hserver
    rcases caller with agent | _
    · exact .inr ⟨.server 0, _, by
        rw [KillPoints.step, serverStep, hserver]
        dsimp only
        rw [hserve]
        rfl⟩
    · have hwaits : s.waits .supervisor = true := h.waits_current (by rw [hserver]; rfl)
      have hseq := h.nextSeq_of_quiet (h.quiet_of_asked hwaits)
      have htables : s.tables = true := h.tables.mpr (by rwa [hseq, hseq])
      exact .inr ⟨.server 0, _, by
        rw [KillPoints.step, serverStep, hserver]
        dsimp only
        rw [hserve, htables]
        rfl⟩
  · exact .inr ⟨.server 0, _, by rw [KillPoints.step, serverStep, hserver]⟩

/-- A runtime has never made more commits than its kill point lets it make. -/
theorem Runtime.Inv.committed_le {agent : Agent} {rt : Runtime} (h : rt.Inv sha256 cfg agent)
    (replied : Bool) : rt.committed cfg agent replied ≤ cfg.commits agent := by
  have hle := h.le
  have hfirst := h.first
  have hpassed := h.passed
  have hemitting := h.emitting
  obtain ⟨point, ring, left⟩ := rt
  by_cases hsuspended : point = .suspended
  · rw [hsuspended, Runtime.committed, Config.commits]
  by_cases hkill : 1 ≤ cfg.killPoint agent ∧ cfg.killPoint agent ≤ 4
  · -- A runtime with a kill point is in its first emission.
    obtain rfl : left = cfg.emits agent := hfirst (.inr hkill) hsuspended
    cases point
    case suspended => exact absurd rfl hsuspended
    case calling | returned =>
      have hpos := hemitting rfl
      obtain hfour : cfg.killPoint agent = 4 := by
        simp only [Point.passed] at hpassed
        omega
      simp only [Runtime.committed, Config.commits, commitsOf, hfour]
      split_ifs <;> omega
    all_goals
      simp only [Runtime.committed, Nat.sub_self]
      exact Nat.zero_le _
  · have hcommits : cfg.commits agent = cfg.emits agent := by
      rw [Config.commits, commitsOf, if_neg (by omega), if_neg (by omega)]
    rw [hcommits]
    cases point
    case suspended => exact absurd rfl hsuspended
    case calling =>
      have hpos := hemitting rfl
      simp only [Runtime.committed] at hpos hle ⊢
      split_ifs <;> omega
    case returned =>
      have hpos := hemitting rfl
      simp only [Runtime.committed] at hpos hle ⊢
      omega
    all_goals exact Nat.sub_le ..

end Invariant

/-! ### Runs -/

section Runs

variable {sha256 : List UInt8 → Hash} {cfg : Config} {rings : Agent → Ring} {is : List Input}
  {s : System}

theorem inv_run (h : Machine.run (step sha256 cfg) (System.start cfg rings) is = some s) :
    s.Inv sha256 cfg :=
  Machine.run_invariant (fun _ _ _ hinv hstep => hinv.step hstep) (System.inv_start rings) h

/-- From every state of a run it can be continued to the verdict, if a commit is made. -/
theorem exists_run_to_verdict (hs : s.Inv sha256 cfg) (hsome : cfg.Commits) :
    ∃ js t, Machine.run (step sha256 cfg) s js = some t ∧ t.Ended :=
  Machine.exists_run_to_end (fun _ _ _ hinv hstep => hinv.step hstep)
    (fun _ _ _ hinv hstep => hinv.less hstep) (fun _ hinv => hinv.next hsome) hs

/-- **The store is atomic under kill points.** In every state of every run, the database is what so
many whole commits of the emission make, no agent has made more of them than its kill point lets
it make, and once both runtimes are suspended they have made just these. -/
theorem killPoints_atomic
    (h : Machine.run (step sha256 cfg) (System.start cfg rings) is = some s) :
    Content sha256 s.db ∧ (∀ agent, s.db.nextSeq agent ≤ cfg.commits agent) ∧
      ((∀ agent, (s.runtimes agent).point = .suspended) →
        ∀ agent, s.db.nextSeq agent = cfg.commits agent) := by
  have hinv := inv_run h
  refine ⟨hinv.content, fun agent => ?_, fun hsuspended => ?_⟩
  · rw [hinv.committed agent]
    exact (hinv.runtimes agent).committed_le _
  · exact hinv.nextSeq_of_quiet fun agent => (hinv.signalled agent).mpr (hsuspended agent)

/-- **Every run comes to its end.** There is a bound on the length of a run, so that no process
waits for another without end; and a run can be continued to the verdict exactly if some commit is
made: without one there is no table for the answer to the supervisor. -/
theorem killPoints_ends
    (h : Machine.run (step sha256 cfg) (System.start cfg rings) is = some s) :
    is.length ≤ 8 * (cfg.emits .agentA + cfg.emits .agentB) + 13 ∧
      ((∃ js t, Machine.run (step sha256 cfg) s js = some t ∧ t.Ended) ↔
        0 < cfg.commits .agentA + cfg.commits .agentB) := by
  constructor
  · have hlength := Machine.length_add_le (fun _ _ _ hinv hstep => System.Inv.step hinv hstep)
      (fun _ _ _ hinv hstep => hinv.less hstep) (System.inv_start rings) h
    have hstart : (System.start cfg rings).remaining =
        8 * cfg.emits .agentA + 2 + (8 * cfg.emits .agentB + 2) + 2 + 7 := rfl
    omega
  · refine ⟨?_, exists_run_to_verdict (inv_run h)⟩
    rintro ⟨js, t, hrun, pass, hpass⟩
    have hinformed := (inv_run (Machine.run_append_eq_some.mpr ⟨s, h, hrun⟩)).informed
    rw [System.Informed, hpass] at hinformed
    exact hinformed.2.1

/-- **The verdict of the builds.** However the steps come, the supervisor tells that the test has
passed exactly if the build names one of the four kill points. -/
theorem killPoints_pass_iff {killPoint : Option (List UInt8)} {pass : Bool}
    (h : Machine.run (step sha256 (Config.build killPoint))
      (System.start (Config.build killPoint) rings) is = some s)
    (hend : s.supervisor = .ended pass) :
    pass = true ↔ killPoint ∈ [some [0x31], some [0x32], some [0x33], some [0x34]] := by
  have hinformed := (inv_run h).informed
  rw [System.Informed, hend] at hinformed
  rw [hinformed.2.2]
  have hB : (Config.build killPoint).commits .agentB = 1 := rfl
  have hA : (Config.build killPoint).commits .agentA =
      commitsOf (runtimeKillPoint killPoint) 1 := rfl
  have hexpected : (Config.build killPoint).expected = supervisorKillPoint killPoint := rfl
  rw [hA, hB, verdict, hexpected]
  rcases killPoint with _ | b
  · decide
  by_cases h1 : b = [0x31]
  · subst h1
    decide
  by_cases h2 : b = [0x32]
  · subst h2
    decide
  by_cases h3 : b = [0x33]
  · subst h3
    decide
  by_cases h4 : b = [0x34]
  · subst h4
    decide
  -- No kill point: runtime A commits, and the supervisor expects that it does not.
  have hruntime : runtimeKillPoint (some b) = 0 := by
    simp only [runtimeKillPoint, parseKillPoint, h1, h2, h3, h4, if_false]
  have hsupervisor : supervisorKillPoint (some b) = 1 := by
    simp only [supervisorKillPoint, parseKillPoint, h1, h2, h3, h4, if_false]
  rw [hruntime, hsupervisor]
  refine iff_of_false nofun ?_
  simp only [List.mem_cons, List.not_mem_nil, Option.some.injEq, h1, h2, h3, h4, or_false,
    not_false_eq_true]

/-! Two rings of zeros, under a hash function that gives zeros. -/

/-- A ring of zeros. -/
def zeroRing : Ring := ⟨0, List.replicate 4092 0, List.length_replicate⟩

/-- A hash of zeros. -/
def zeroHash (_ : List UInt8) : Hash := ⟨List.replicate 32 0, List.length_replicate⟩

/-- A kill point after the reply: runtime A has begun, and nothing is in the database. -/
theorem killPoints_atomic_begun :
    ∃ s, Machine.run (step zeroHash (Config.build (some [0x34])))
        (System.start (Config.build (some [0x34])) fun _ => zeroRing)
        [.runtime .agentA, .runtime .agentA] = some s ∧
      (∀ agent, s.db.nextSeq agent ≤ (Config.build (some [0x34])).commits agent) :=
  ⟨_, rfl, (killPoints_atomic (show Machine.run _ _ [.runtime .agentA, .runtime .agentA] = _
    from rfl)).2.1⟩

/-- The same run can be continued to the verdict. -/
theorem killPoints_ends_begun :
    ∃ s, Machine.run (step zeroHash (Config.build (some [0x34])))
        (System.start (Config.build (some [0x34])) fun _ => zeroRing)
        [.runtime .agentA, .runtime .agentA] = some s ∧
      ∃ js t, Machine.run (step zeroHash (Config.build (some [0x34]))) s js = some t ∧ t.Ended :=
  ⟨_, rfl, (killPoints_ends (show Machine.run _ _ [.runtime .agentA, .runtime .agentA] = _
    from rfl)).2.mpr (by decide)⟩

/-- With kill point 4 there is a run that ends, and its verdict is that the test has passed. -/
theorem killPoints_pass_four :
    ∃ is s, Machine.run (step zeroHash (Config.build (some [0x34])))
        (System.start (Config.build (some [0x34])) fun _ => zeroRing) is = some s ∧
      s.supervisor = .ended true := by
  have hstart : (System.start (Config.build (some [0x34])) fun _ => zeroRing).Inv zeroHash
      (Config.build (some [0x34])) := System.inv_start _
  obtain ⟨is, s, hrun, pass, hend⟩ := exists_run_to_verdict hstart (show 0 < _ by decide)
  obtain rfl : pass = true := (killPoints_pass_iff hrun hend).mpr (by decide)
  exact ⟨is, s, hrun, hend⟩

end Runs

end KillPoints

end Torpor.StoreServer
