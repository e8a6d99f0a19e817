import Torpor.Lab.Daemon

/-!
# Snapshots Under Concurrency

A snapshot is assembled from two readings of the memory, one for the map that it stores and
one for the hash. Between them another request may write, and then the row can never be
verified: its hash is the hash of another map. When no memory changes between the two
readings of any snapshot, every row agrees with its hash, and a rollback that runs alone
restores exactly the map of the row.

## Main results

* `snapshots_faithful`: the condition under which every row agrees with its hash, for every
  interleaving of requests.
* `snapshot_torn`: a write between the two readings.
-/

namespace Torpor.Lab

open Atomic Atomic.Program

/-- Whether a use reads the memory to hash it. -/
def Use.hashesState {α : Type} : Use α → Bool
  | .computeStateHash => true
  | _ => false

/-- How far a request has come with the snapshot that it assembles. -/
inductive Assembly
  | idle
  | read (state : SortedMap Text Text)
  | hashed (state : SortedMap Text Text) (stateHash : Text)

namespace Assembly

def next (t : Assembly) (α : Type) (u : Use α) : α → Assembly :=
  match u with
  | .getStateSnapshot => fun state => .read state
  | .computeStateHash => fun stateHash =>
      match t with
      | .read state => .hashed state stateHash
      | t => t
  | _ => fun _ => t

/-- A row is inserted with the map and the hash that were read for it. -/
def Inserts (t : Assembly) (α : Type) (u : Use α) : Prop :=
  match u with
  | .insertSnapshot _ stateHash _ _ state => t = .hashed state stateHash
  | _ => True

/-- The map that a request has read and not hashed yet. -/
def readState : Assembly → Option (SortedMap Text Text)
  | .read state => some state
  | _ => none

/-- When the memory is hashed for a snapshot, it is the map that was read for it. -/
def Undisturbed (t : Assembly) (db : Database) (α : Type) (u : Use α) : Prop :=
  u.hashesState = true → ∀ state ∈ t.readState, stateOf db = state

end Assembly

/-- The daemon, with the snapshots that its requests assemble. -/
def snapshotDaemon (sha256 : Text → Text) (maxIterations : ℕ) :
    System DaemonError Use Env Database Request Response Assembly :=
  daemon sha256 maxIterations (fun _ => .idle) Assembly.next

abbrev SnapshotPool := Pool DaemonError Use Database Request Response Assembly

abbrev SnapshotThread := Thread DaemonError Use Request Response Assembly

/-- No turn hashes for a snapshot another memory than the one that was read for it. -/
def UndisturbedTurn (s : SnapshotPool) (_ : ℕ) (t : SnapshotThread) (α : Type) (u : Use α)
    (_ : Env) : Prop :=
  t.mark.Undisturbed s.store α u

instance (s : SnapshotPool) (i : ℕ) (t : SnapshotThread) (α : Type) (u : Use α) (e : Env) :
    Decidable (UndisturbedTurn s i t α u e) :=
  inferInstanceAs
    (Decidable (u.hashesState = true → ∀ state ∈ t.mark.readState, stateOf s.store = state))

/-- The hash of the row is the hash of the map that it stores. -/
def Snapshot.Faithful (sha256 : Text → Text) (row : Snapshot) : Prop :=
  ∃ state, row.stateJson = some state ∧ row.stateHash = sha256 (canonical state)

/-! ### Every handler inserts what it has read -/

theorem inserts_of_toolUse (t : Assembly) (α : Type) (u : Use α) (h : ToolUse α u) :
    t.Inserts α u := by
  cases u <;> trivial

theorem always_insertCurrentState (name : Text) :
    Always Assembly.Inserts Assembly.next (insertCurrentState name) := by
  intro t
  refine ⟨trivial, fun state => ⟨trivial, fun stateHash => ⟨trivial, fun actionCount =>
    ⟨trivial, fun lastActionId => ⟨rfl, fun r => ?_⟩⟩⟩⟩⟩
  cases r <;> trivial

theorem always_resolveCausedBy (causedBy : Option ActionId) (session : Option Text) :
    Always Assembly.Inserts Assembly.next (resolveCausedBy causedBy session) := by
  cases causedBy with
  | none => exact Always.use (fun _ => trivial) fun _ => always_done _
  | some c => exact always_done _

theorem always_newAction_inserts (a : NewAction) :
    Always Assembly.Inserts Assembly.next (newAction a) :=
  always_newAction fun _ => trivial

theorem always_unlessConflict {session : Option Text} {expected : Option ActionId}
    {serve : Daemon Response} (hserve : Always Assembly.Inserts Assembly.next serve) :
    Always Assembly.Inserts Assembly.next (unlessConflict session expected serve) := by
  refine Always.bind ?_ fun r => ?_
  · unfold checkSessionConflict
    split
    · refine Always.call_bind (fun _ => trivial) fun actual => ?_
      split <;> exact always_done _
    · exact always_done _
  · obtain ⟨conflict, actual⟩ := r
    dsimp only
    split
    · exact always_done _
    · exact hserve

theorem always_rollbackToSnapshot (snapshotId : SnapshotId) :
    Always Assembly.Inserts Assembly.next (rollbackToSnapshot snapshotId) := by
  refine Always.call_bind (fun _ => trivial) fun snap => ?_
  cases snap with
  | none => exact always_done _
  | some snap =>
      refine Always.call_bind (fun _ => trivial) fun causedBy => ?_
      refine Always.bind (always_newAction_inserts _) fun actionId => ?_
      refine Always.bind ?_ fun keysRestored => ?_
      · unfold restoreSnapshot
        split
        · exact Always.use (fun _ => trivial) fun _ => always_done _
        · exact Always.use (fun _ => trivial) fun _ => always_done _
      · refine Always.call_bind (fun _ => trivial) fun restoredHash => ?_
        exact Always.call_bind (fun _ => trivial) fun capsRevoked => always_done _

theorem always_toolLoop (actionId : ActionId) (session : Option Text) (n : ℕ) :
    Always Assembly.Inserts Assembly.next (runToolLoop actionId session n []) :=
  always_runToolLoop inserts_of_toolUse always_insertCurrentState actionId session n []

theorem always_handle (n : ℕ) (r : Request) :
    Always Assembly.Inserts Assembly.next (handle n r) := by
  cases r with
  | think causedBy session expected =>
      refine always_unlessConflict (Always.bind ?_ fun _ => always_done _)
      refine Always.bind (always_resolveCausedBy _ _) fun resolved => ?_
      refine Always.bind (always_newAction_inserts _) fun actionId => ?_
      exact (always_toolLoop _ _ _).bind fun _ => always_done _
  | memoryGet key ns history session =>
      cases key with
      | none =>
          simp only [handle, memoryGet]
          split
          · exact (always_listReadable inserts_of_toolUse _).bind fun _ => always_done _
          · refine always_withAccess inserts_of_toolUse ?_
            exact Always.call_bind (fun _ => trivial) fun _ => always_done _
      | some key =>
          refine always_withAccess inserts_of_toolUse ?_
          split
          · exact Always.call_bind (fun _ => trivial) fun _ => always_done _
          · refine Always.call_bind (fun _ => trivial) fun row => ?_
            cases row <;> exact always_done _
  | memoryWrite key value ns causedBy session expected =>
      refine always_unlessConflict (always_withAccess inserts_of_toolUse ?_)
      refine Always.bind ?_ fun _ => always_done _
      refine Always.bind (always_resolveCausedBy _ _) fun resolved => ?_
      refine Always.bind (always_newAction_inserts _) fun actionId => ?_
      exact Always.call_bind (fun _ => trivial) fun _ => always_done _
  | capGrant subject op scope issuedBy parentCap =>
      refine Always.call_bind (fun _ => trivial) fun r => ?_
      split
      · exact always_done _
      · exact always_done _
      · exact always_raise _
  | capRevoke capId revokedBy =>
      exact Always.call_bind (fun _ => trivial) fun _ => always_done _
  | snapshot name =>
      refine Always.bind ?_ fun _ => always_done _
      refine Always.call_bind (fun _ => trivial) fun causedBy => ?_
      refine Always.bind (always_newAction_inserts _) fun actionId => ?_
      exact always_insertCurrentState name
  | rollback snapshotId =>
      refine Always.bind (always_rollbackToSnapshot snapshotId) fun r => ?_
      cases r <;> exact always_done _
  | spawn parentActionId =>
      exact (always_newAction_inserts _).bind fun _ => always_done _
  | merge parentActionIds session =>
      simp only [handle]
      split
      · exact always_done _
      · refine Always.bind ?_ fun _ => always_done _
        refine Always.bind (always_newAction_inserts _) fun actionId => ?_
        exact (always_toolLoop _ _ _).bind fun _ => always_done _

/-! ### Every row agrees with its hash -/

/-- Every row agrees with its hash. -/
def FaithfulRows (sha256 : Text → Text) (db : Database) : Prop :=
  ∀ row ∈ db.snapshots, row.Faithful sha256

/-- A hash that was read for a snapshot is the hash of the map read for it. -/
def Assembly.Faithful (sha256 : Text → Text) : Assembly → Prop
  | .hashed state stateHash => stateHash = sha256 (canonical state)
  | _ => True

/-- A use keeps the rows faithful when it inserts what a faithful assembly has read. -/
theorem faithfulRows_exec {sha256 : Text → Text} {db : Database} {t : Assembly}
    (hdb : FaithfulRows sha256 db) (ht : t.Faithful sha256) {α : Type} {u : Use α} (e : Env)
    (hu : t.Inserts α u) : FaithfulRows sha256 (exec sha256 α u e db).2 := by
  cases u with
  | insertSnapshot name stateHash actionCount lastActionId state =>
      obtain rfl : t = .hashed state stateHash := hu
      obtain ⟨err, h⟩ | ⟨row, h, hhash, hjson⟩ :=
        insertSnapshot_cases db name stateHash actionCount lastActionId state e.toReading
      · simpa only [exec, h] using hdb
      · simp only [exec, h]
        intro row' hrow'
        rcases List.mem_append.mp hrow' with hrow' | hrow'
        · exact hdb row' hrow'
        · obtain rfl := List.mem_singleton.mp hrow'
          exact ⟨state, hjson, hhash.trans ht⟩
  | createAction a =>
      obtain ⟨actions, h⟩ := createAction_eq db a e.toReading
      simp only [exec, h]
      exact hdb
  | _ => exact hdb

/-- An assembly stays faithful when the memory that it hashes is the one it has read. -/
theorem faithful_next {sha256 : Text → Text} {db : Database} {t : Assembly}
    (ht : t.Faithful sha256) {α : Type} {u : Use α} (e : Env)
    (hsteady : t.Undisturbed db α u) :
    (t.next α u (exec sha256 α u e db).1).Faithful sha256 := by
  cases u with
  | getStateSnapshot => trivial
  | computeStateHash =>
      cases t with
      | idle => trivial
      | read state =>
          change computeStateHash sha256 db = sha256 (canonical state)
          rw [computeStateHash, hsteady rfl state rfl]
      | hashed state stateHash => exact ht
  | _ => exact ht

/-- What the runs keep: the rows and the assemblies agree with their hashes, and every
request obeys the rule of insertions. -/
structure FaithfulPool (sha256 : Text → Text) (s : SnapshotPool) : Prop where
  rows : FaithfulRows sha256 s.store
  marks : ∀ t ∈ s.threads, t.mark.Faithful sha256
  obey : ∀ t ∈ s.threads,
    Obeys Assembly.Inserts Assembly.next t.mark t.program fun _ _ => True

theorem faithfulPool_step {sha256 : Text → Text} {n : ℕ} (s : SnapshotPool)
    (input : Input Env Request) (s' : SnapshotPool) (hs : FaithfulPool sha256 s)
    (hcond : System.Permits UndisturbedTurn s input)
    (hstep : (snapshotDaemon sha256 n).step s input = some s') : FaithfulPool sha256 s' := by
  have hobey := System.allObey_step (S := snapshotDaemon sha256 n)
    (Q := fun _ _ _ => True) (fun r => always_handle n r _) s input s' hs.obey hstep
  obtain ⟨r, rfl, rfl⟩ | ⟨i, e, r, t, γ, u, k, rfl, hi, rfl⟩ := System.step_cases hstep
  · refine ⟨hs.rows, fun t ht => ?_, hobey⟩
    rcases List.mem_append.mp ht with ht | ht
    · exact hs.marks t ht
    · obtain rfl := List.mem_singleton.mp ht
      trivial
  · have hmem := List.mem_of_getElem? hi
    have hmark := hs.marks _ hmem
    have hundisturbed := (System.permits_turn hi).mp hcond
    refine ⟨faithfulRows_exec hs.rows hmark e (hs.obey _ hmem).1, fun t' ht' => ?_, hobey⟩
    rcases List.mem_or_eq_of_mem_set ht' with ht' | rfl
    · exact hs.marks t' ht'
    · exact faithful_next hmark e hundisturbed

/-! ### A rollback that runs alone -/

theorem getLastActionId_mem {db : Database} {c : ActionId}
    (h : getLastActionId db none = some c) : c ∈ db.actions.map (·.actionId) :=
  List.max?_mem h

/-- A creation under a new id whose cause, if any, exists succeeds. -/
theorem exists_createAction {db : Database} {a : NewAction} {r : Reading}
    (hnew : uuid7 r ∉ db.actions.map (·.actionId))
    (hcause : ∀ c ∈ a.causedBy, c ∈ db.actions.map (·.actionId)) :
    ∃ after, createAction db a r = (.ok (uuid7 r), after) := by
  simp only [createAction]
  rw [if_neg hnew, if_neg]
  · exact ⟨_, rfl⟩
  · rintro ⟨c, hc, hnot, -⟩
    exact hnot (hcause c hc)

/-- A rollback to a faithful row that runs alone restores the map of the row and finds its
hash, if the id of its own action is new. -/
theorem rollback_alone {sha256 : Text → Text} {db : Database} {snapshotId : SnapshotId}
    {row : Snapshot} (env : ℕ → Env) (hrow : selectSnapshot db snapshotId = some row)
    (hfaithful : row.Faithful sha256)
    (hnew : uuid7 (env 2).toReading ∉ db.actions.map (·.actionId)) :
    ∃ r after readings,
      alone (exec sha256) env 0 db (rollbackToSnapshot snapshotId) =
        (.ok (some r), after, readings) ∧
      row.stateJson = some (stateOf after) ∧ r.hashMatches = true := by
  obtain ⟨state, hjson, hhash⟩ := hfaithful
  obtain ⟨created, hcreate⟩ := exists_createAction
    (a := ⟨.rollback, getLastActionId db none, none, none⟩) hnew
    fun c hc => getLastActionId_mem hc
  have hrestored : ∀ now, stateOf (restoreFromStateJson created state now).2 = state :=
    stateOf_restoreFromStateJson created state
  generalize hres : alone (exec sha256) env 0 db (rollbackToSnapshot snapshotId) = res
  simp only [rollbackToSnapshot, newAction, restoreSnapshot, call_bind, use_bind, done_bind,
    pure_eq, alone_use, alone_done, exec, hrow, hcreate, hjson, onCapabilities] at hres
  subst hres
  refine ⟨_, _, _, rfl, ?_, ?_⟩
  · rw [hjson]
    exact congrArg some (hrestored _).symm
  · refine decide_eq_true ?_
    rw [computeStateHash, hrestored, hhash]

/-! ### Every run -/

/-- **Snapshots under concurrency.** In every interleaving of requests in which no memory
changes between the two readings of a snapshot, every row has the hash of the map that it
stores, and a rollback to it that runs alone, under a new id, restores this map and finds the
hash. -/
theorem snapshots_faithful {sha256 : Text → Text} {n : ℕ} {db : Database}
    {is : List (Input Env Request)} {s : SnapshotPool} (hdb : FaithfulRows sha256 db)
    (hundisturbed : Machine.Along (snapshotDaemon sha256 n).step
      (System.Permits UndisturbedTurn) ⟨db, []⟩ is)
    (hrun : Machine.run (snapshotDaemon sha256 n).step ⟨db, []⟩ is = some s) :
    FaithfulRows sha256 s.store ∧
    ∀ snapshotId row, selectSnapshot s.store snapshotId = some row → ∀ env : ℕ → Env,
      uuid7 (env 2).toReading ∉ s.store.actions.map (·.actionId) →
      ∃ r after readings,
        alone (exec sha256) env 0 s.store (rollbackToSnapshot snapshotId) =
          (.ok (some r), after, readings) ∧
        row.stateJson = some (stateOf after) ∧ r.hashMatches = true := by
  have hstart : FaithfulPool sha256 ⟨db, []⟩ :=
    ⟨hdb, fun t ht => absurd ht List.not_mem_nil, fun t ht => absurd ht List.not_mem_nil⟩
  have hs : FaithfulPool sha256 s :=
    Machine.run_invariant_along faithfulPool_step hstart hundisturbed hrun
  refine ⟨hs.rows, fun snapshotId row hrow env hnew => ?_⟩
  exact rollback_alone env hrow (hs.rows row (List.mem_of_find?_eq_some hrow)) hnew

/-- A request to write a key, without a session. -/
def writeRequest (key value : Text) : Request := .memoryWrite key value none none none none

/-- A write, then a snapshot, one after the other. -/
def sequentialRun : List (Input Env Request) :=
  .arrive (writeRequest ['k'] ['v']) :: .arrive (.snapshot ['s']) ::
    [.turn 0 (readingAt 1), .turn 0 (readingAt 2), .turn 0 (readingAt 3),
     .turn 1 (readingAt 4), .turn 1 (readingAt 5), .turn 1 (readingAt 6),
     .turn 1 (readingAt 7), .turn 1 (readingAt 8), .turn 1 (readingAt 9),
     .turn 1 (readingAt 10)]

theorem snapshots_faithful_sequentialRun :
    ∃ s, Machine.run (snapshotDaemon id 10).step ⟨Database.empty, []⟩ sequentialRun = some s ∧
      s.store.snapshots.length = 1 ∧ FaithfulRows id s.store := by
  have hrun : (Machine.run (snapshotDaemon id 10).step ⟨Database.empty, []⟩
      sequentialRun).map (·.store.snapshots.length) = some 1 := by decide +kernel
  obtain ⟨s, hs, hlen⟩ := Option.map_eq_some_iff.mp hrun
  exact ⟨s, hs, hlen,
    (snapshots_faithful (fun _ hrow => absurd hrow List.not_mem_nil) (by decide +kernel) hs).1⟩

/-- The same, with the write between the two readings of the snapshot. -/
def tornRun : List (Input Env Request) :=
  .arrive (.snapshot ['s']) :: .arrive (writeRequest ['k'] ['v']) ::
    [.turn 0 (readingAt 1), .turn 0 (readingAt 2), .turn 0 (readingAt 3),
     .turn 1 (readingAt 4), .turn 1 (readingAt 5), .turn 1 (readingAt 6),
     .turn 0 (readingAt 7), .turn 0 (readingAt 8), .turn 0 (readingAt 9),
     .turn 0 (readingAt 10)]

/-- A write between the two readings leaves a row whose hash is that of another map. -/
theorem snapshot_torn :
    ∃ s, Machine.run (snapshotDaemon id 10).step ⟨Database.empty, []⟩ tornRun = some s ∧
      ¬ FaithfulRows id s.store := by
  have hrun : (Machine.run (snapshotDaemon id 10).step ⟨Database.empty, []⟩ tornRun).map
      (fun s => s.store.snapshots.map fun row => (row.stateHash, row.stateJson)) =
        some [(canonical (SortedMap.empty.put ['k'] ['v']), some .empty)] := by
    decide +kernel
  obtain ⟨s, hs, hrows⟩ := Option.map_eq_some_iff.mp hrun
  refine ⟨s, hs, fun hfaithful => ?_⟩
  obtain ⟨row, hmem, heq⟩ : ∃ row ∈ s.store.snapshots,
      (row.stateHash, row.stateJson) =
        (canonical (SortedMap.empty.put ['k'] ['v']), some .empty) := by
    rw [← List.mem_map, hrows]
    exact List.mem_singleton_self _
  obtain ⟨state, hjson, hhash⟩ := hfaithful row hmem
  simp only [Prod.mk.injEq] at heq
  obtain rfl : SortedMap.empty = state := Option.some.inj (heq.2.symm.trans hjson)
  rw [heq.1] at hhash
  revert hhash
  decide +kernel

end Torpor.Lab
