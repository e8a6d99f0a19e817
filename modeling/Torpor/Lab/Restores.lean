import Torpor.Lab.Daemon

/-!
# The Two Restores of a Snapshot

A snapshot can be restored from the map that its row stores, and by replaying the history up to its
time. The history has the writes only: a rollback rewrites the memory and leaves no row in it. The
two restores agree where a snapshot is taken of a memory that the writes account for, that is, where
each key that was not written since the last rollback has the value of its last write, or was never
written and is in neither.

## Main results

* `get_restoreToTimestamp`: what the replay gives for a key.
* `restores_agree_iff`: the sequences of calls after which the two restores agree for every snapshot.
-/

namespace Torpor.Lab

open Atomic Atomic.Program

/-! ### Sequences of calls -/

/-- A call of one of the three functions. -/
inductive Operation
  | writeKey (key value : Text) (actionId : ActionId) (ns : Option Text)
  | createSnapshot (name : Text)
  | rollbackToSnapshot (snapshotId : SnapshotId)

/-- A call with the readings while it runs. -/
structure TimedOperation where
  op : Operation
  env : ℕ → Env

/-- The clock moves on between two calls. -/
def Increasing (calls : List TimedOperation) : Prop :=
  calls.Pairwise fun c c' => ∀ m n, (c.env m).now < (c'.env n).now

/-- The database between two calls, what the last rollback that found its snapshot has restored, and
the keys that were written since. -/
structure Sequence where
  db : Database
  restored : SortedMap Text Text
  written : List Text

/-- The map of a snapshot. -/
def storedState (db : Database) (snapshotId : SnapshotId) : SortedMap Text Text :=
  ((selectSnapshot db snapshotId).bind (·.stateJson)).getD .empty

namespace Sequence

/-- Before the first call. -/
def init : Sequence := ⟨.empty, .empty, []⟩

/-- The state after a call, also after one that raises. -/
def step (sha256 : Text → Text) (s : Sequence) (c : TimedOperation) : Option Sequence :=
  match c.op with
  | .writeKey key value actionId ns =>
      let (_, db, _) := alone (exec sha256) c.env 0 s.db (call (.writeKey key value actionId ns) :
        Daemon Unit)
      some ⟨db, s.restored, nsKey ns key :: s.written⟩
  | .createSnapshot name =>
      let (_, db, _) := alone (exec sha256) c.env 0 s.db (createSnapshot name)
      some ⟨db, s.restored, s.written⟩
  | .rollbackToSnapshot snapshotId =>
      match alone (exec sha256) c.env 0 s.db (rollbackToSnapshot snapshotId) with
      | (.ok (some _), db, _) => some ⟨db, storedState s.db snapshotId, []⟩
      | (.ok none, db, _) => some ⟨db, s.restored, s.written⟩
      | (.error _, db, _) => some ⟨db, s.restored, s.written⟩

end Sequence

/-! ### The replay of the history -/

/-- The value of the last write of a key in a history. -/
def lastWritten (history : List HistoryRow) (key : Text) : Option Text :=
  ((history.filter (·.key = key)).getLast?).map (·.value)

theorem lastWritten_concat (history : List HistoryRow) (h : HistoryRow) (key : Text) :
    lastWritten (history ++ [h]) key =
      if key = h.key then some h.value else lastWritten history key := by
  rw [lastWritten, List.filter_append]
  by_cases heq : key = h.key
  · rw [if_pos heq, List.filter_cons_of_pos (by simp [heq])]
    simp
  · rw [if_neg heq, List.filter_cons_of_neg (by simp [Ne.symm heq])]
    simp [lastWritten]

/-- The replay gives for a key the value of its last write up to the time. -/
theorem get_restoreToTimestamp (db : Database) (timestamp now : Timestamp) (key : Text) :
    (stateOf (restoreToTimestamp db timestamp now).2).get key =
      lastWritten (db.memoryHistory.filter (·.timestamp ≤ timestamp)) key := by
  simp only [stateOf, restoreToTimestamp, SortedMap.get_mapVal]
  generalize db.memoryHistory.filter (·.timestamp ≤ timestamp) = history
  induction history using List.reverseRecOn with
  | nil => rfl
  | append_singleton history h ih =>
      rw [List.foldl_append, List.foldl_cons, List.foldl_nil, SortedMap.get_put,
        lastWritten_concat]
      split_ifs
      · rfl
      · exact ih

/-! ### What a call does -/

/-- The insertion of a snapshot at a time is refused, or adds a row with the time and the map. -/
theorem insertSnapshot_timestamp (db : Database) (name stateHash : Text) (actionCount : ℕ)
    (lastActionId : Option ActionId) (state : SortedMap Text Text) (r : Reading) :
    (∃ e, insertSnapshot db name stateHash actionCount lastActionId state r = (.error e, db)) ∨
      ∃ row, insertSnapshot db name stateHash actionCount lastActionId state r =
        (.ok row, { db with snapshots := db.snapshots ++ [row] }) ∧
        row.stateJson = some state ∧ row.timestamp = r.now := by
  simp only [insertSnapshot]
  split_ifs
  · exact .inl ⟨_, rfl⟩
  · exact .inl ⟨_, rfl⟩
  · exact .inr ⟨_, rfl, rfl, rfl⟩

/-- A call of `create_snapshot` leaves the memory alone. It adds a row with its map, or none. -/
theorem createSnapshot_effect (sha256 : Text → Text) (env : ℕ → Env) (db : Database) (name : Text) :
    ∃ r db' n, alone (exec sha256) env 0 db (createSnapshot name) = (r, db', n) ∧
      db'.memory = db.memory ∧ db'.memoryHistory = db.memoryHistory ∧
      (db'.snapshots = db.snapshots ∨ ∃ row m, db'.snapshots = db.snapshots ++ [row] ∧
        row.stateJson = some (stateOf db) ∧ row.timestamp = (env m).now) := by
  generalize hres : alone (exec sha256) env 0 db (createSnapshot name) = res
  simp only [createSnapshot, insertCurrentState, newAction, call_bind, use_bind, alone_use,
    exec] at hres
  obtain ⟨e, hcreate⟩ | ⟨-, hcreate⟩ :=
    createAction_cases db ⟨.snapshot, getLastActionId db none, none, none⟩ (env 1).toReading
  · rw [hcreate] at hres
    exact ⟨_, _, _, hres.symm, rfl, rfl, .inl rfl⟩
  · rw [hcreate] at hres
    simp only [pure_eq, done_bind, alone_use, exec, Nat.reduceAdd] at hres
    generalize hdb : ({ db with actions := _ } : Database) = created at hres
    obtain ⟨e, hinsert⟩ | ⟨row, hinsert, hjson, htime⟩ := insertSnapshot_timestamp created name
      (computeStateHash sha256 created) (getActionCount created) (getLastActionId created none)
      (stateOf created) (env 6).toReading
    · rw [hinsert] at hres
      subst hdb
      exact ⟨_, _, _, hres.symm, rfl, rfl, .inl rfl⟩
    · rw [hinsert] at hres
      subst hdb
      exact ⟨_, _, _, hres.symm, rfl, rfl, .inr ⟨row, 6, rfl, hjson, htime⟩⟩

/-- A call of `rollback_to_snapshot` that finds its snapshot, and the map in it, leaves the memory
with this map; every other one leaves the memory alone. -/
theorem rollbackToSnapshot_effect (sha256 : Text → Text) (env : ℕ → Env) {db : Database}
    (hstored : ∀ row ∈ db.snapshots, ∃ state, row.stateJson = some state)
    (snapshotId : SnapshotId) :
    ∃ r db' n, alone (exec sha256) env 0 db (rollbackToSnapshot snapshotId) = (r, db', n) ∧
      db'.memoryHistory = db.memoryHistory ∧ db'.snapshots = db.snapshots ∧
      ((∃ result, r = .ok (some result)) ∧ stateOf db' = storedState db snapshotId ∨
        (∀ result, r ≠ .ok (some result)) ∧ db'.memory = db.memory) := by
  generalize hres : alone (exec sha256) env 0 db (rollbackToSnapshot snapshotId) = res
  cases hsnap : selectSnapshot db snapshotId with
  | none =>
      simp only [rollbackToSnapshot, call_bind, pure_eq, alone_use, alone_done, exec, hsnap]
        at hres
      exact ⟨_, _, _, hres.symm, rfl, rfl, .inr ⟨by simp, rfl⟩⟩
  | some snap =>
      obtain ⟨state, hstate⟩ := hstored snap (List.mem_of_find?_eq_some hsnap)
      simp only [rollbackToSnapshot, newAction, restoreSnapshot, call_bind, use_bind, alone_use,
        exec, hsnap] at hres
      obtain ⟨e, hcreate⟩ | ⟨-, hcreate⟩ :=
        createAction_cases db ⟨.rollback, getLastActionId db none, none, none⟩ (env 2).toReading
      · rw [hcreate] at hres
        exact ⟨_, _, _, hres.symm, rfl, rfl, .inr ⟨by simp, rfl⟩⟩
      · rw [hcreate] at hres
        simp only [hstate, done_bind, call_bind, pure_eq, alone_use, alone_done, exec,
          onCapabilities] at hres
        refine ⟨_, _, _, hres.symm, rfl, rfl, .inl ⟨⟨_, rfl⟩, ?_⟩⟩
        rw [storedState, hsnap, Option.bind_some, hstate, Option.getD_some]
        exact stateOf_restoreFromStateJson db state _

/-! ### The invariant -/

namespace Sequence

variable {sha256 : Text → Text} {s s' : Sequence} {c : TimedOperation}

/-- What holds between two calls: every snapshot has its map, and a key has the value of its last
write if it was written since the last rollback, and otherwise that of the rollback's snapshot. -/
structure Inv (s : Sequence) : Prop where
  stored : ∀ row ∈ s.db.snapshots, ∃ state, row.stateJson = some state
  lookups : ∀ key, (stateOf s.db).get key =
    if key ∈ s.written then lastWritten s.db.memoryHistory key else s.restored.get key

theorem inv_init : Inv init where
  stored := by simp [init, Database.empty]
  lookups := fun _ => rfl

theorem stateOf_congr {db db' : Database} (h : db'.memory = db.memory) :
    stateOf db' = stateOf db := by
  rw [stateOf, stateOf, h]

/-- A call keeps the invariant. The history grows by rows of the call's own time, and the snapshots
by at most a row, with the memory that the call found and a time of the call. -/
theorem step_spec (h : s.Inv) (hstep : s.step sha256 c = some s') :
    s'.Inv ∧
    (∃ later, s'.db.memoryHistory = s.db.memoryHistory ++ later ∧
      ∀ row ∈ later, ∃ m, row.timestamp = (c.env m).now) ∧
    (s'.db.snapshots = s.db.snapshots ∨ ∃ row m, s'.db.snapshots = s.db.snapshots ++ [row] ∧
      row.stateJson = some (stateOf s.db) ∧ row.timestamp = (c.env m).now ∧
      s'.db.memoryHistory = s.db.memoryHistory) := by
  obtain ⟨op, env⟩ := c
  cases op with
  | writeKey key value actionId ns =>
      obtain rfl := Option.some.inj hstep
      refine ⟨⟨h.stored, fun key' => ?_⟩, ⟨[_], rfl, fun row hrow => ?_⟩, .inl rfl⟩
      · have hold := h.lookups key'
        simp only [stateOf, SortedMap.get_mapVal] at hold
        simp only [exec, Lab.writeKey, stateOf, SortedMap.get_mapVal, SortedMap.get_put,
          lastWritten_concat, List.mem_cons]
        by_cases hkey : key' = nsKey ns key
        · simp [hkey]
        · simp [hkey, hold]
      · exact ⟨0, by rw [List.mem_singleton.mp hrow]⟩
  | createSnapshot name =>
      obtain ⟨r, db', n, hrun, hmemory, hhistory, hsnapshots⟩ :=
        createSnapshot_effect sha256 env s.db name
      simp only [step, hrun, Option.some.injEq] at hstep
      subst hstep
      have hlookups : ∀ key, (stateOf db').get key =
          if key ∈ s.written then lastWritten db'.memoryHistory key else s.restored.get key := by
        rw [stateOf_congr hmemory, hhistory]
        exact h.lookups
      have hnone : ∃ later, db'.memoryHistory = s.db.memoryHistory ++ later ∧
          ∀ row ∈ later, ∃ m, row.timestamp = (env m).now := ⟨[], by simp [hhistory], by simp⟩
      rcases hsnapshots with hsame | ⟨row, m, hnew, hjson, htime⟩
      · exact ⟨⟨by rw [hsame]; exact h.stored, hlookups⟩, hnone, .inl hsame⟩
      · refine ⟨⟨fun row' hrow' => ?_, hlookups⟩, hnone,
          .inr ⟨row, m, hnew, hjson, htime, hhistory⟩⟩
        rw [hnew] at hrow'
        rcases List.mem_append.mp hrow' with hrow' | hrow'
        · exact h.stored row' hrow'
        · exact ⟨_, List.mem_singleton.mp hrow' ▸ hjson⟩
  | rollbackToSnapshot snapshotId =>
      obtain ⟨r, db', n, hrun, hhistory, hsnapshots, heffect⟩ :=
        rollbackToSnapshot_effect sha256 env h.stored snapshotId
      have hnone : ∃ later, db'.memoryHistory = s.db.memoryHistory ++ later ∧
          ∀ row ∈ later, ∃ m, row.timestamp = (env m).now := ⟨[], by simp [hhistory], by simp⟩
      have hstored : ∀ row ∈ db'.snapshots, ∃ state, row.stateJson = some state := by
        rw [hsnapshots]
        exact h.stored
      simp only [step, hrun] at hstep
      rcases heffect with ⟨⟨result, rfl⟩, hstate⟩ | ⟨hnot, hmemory⟩
      · obtain rfl := Option.some.inj hstep
        exact ⟨⟨hstored, fun key => by simp [hstate]⟩, hnone, .inl hsnapshots⟩
      · have hkept : s' = ⟨db', s.restored, s.written⟩ := by
          rcases r with e | _ | result
          · exact (Option.some.inj hstep).symm
          · exact (Option.some.inj hstep).symm
          · exact absurd rfl (hnot result)
        subst hkept
        refine ⟨⟨hstored, ?_⟩, hnone, .inl hsnapshots⟩
        rw [stateOf_congr hmemory, hhistory]
        exact h.lookups

/-- A sequence of calls keeps the invariant, and the history grows by rows of the calls' times. -/
theorem run_spec {calls : List TimedOperation} (h : s.Inv)
    (hrun : Machine.run (step sha256) s calls = some s') :
    s'.Inv ∧ ∃ later, s'.db.memoryHistory = s.db.memoryHistory ++ later ∧
      ∀ row ∈ later, ∃ c ∈ calls, ∃ m, row.timestamp = (c.env m).now := by
  induction calls generalizing s with
  | nil =>
      obtain rfl : s = s' := by simpa using hrun
      exact ⟨h, [], by simp, by simp⟩
  | cons c calls ih =>
      obtain ⟨s₁, hstep, hrest⟩ := Machine.run_cons_eq_some.mp hrun
      obtain ⟨h₁, ⟨rows, hrows, htime⟩, -⟩ := step_spec h hstep
      obtain ⟨h', later, hlater, htimes⟩ := ih h₁ hrest
      refine ⟨h', rows ++ later, by rw [hlater, hrows, List.append_assoc], fun row hrow => ?_⟩
      rcases List.mem_append.mp hrow with hrow | hrow
      · exact ⟨c, by simp, htime row hrow⟩
      · obtain ⟨c', hc', hm⟩ := htimes row hrow
        exact ⟨c', by simp [hc'], hm⟩

/-- The call takes a snapshot. -/
def Takes (sha256 : Text → Text) (s : Sequence) (c : TimedOperation) (row : Snapshot) : Prop :=
  ∃ s', s.step sha256 c = some s' ∧ s'.db.snapshots = s.db.snapshots ++ [row]

/-- The writes account for the memory where a snapshot is taken: each key that was not written since
the last rollback has in the snapshot rolled back to the value of its last write. -/
def Accounted (sha256 : Text → Text) (s : Sequence) (c : TimedOperation) : Prop :=
  (∃ row, s.Takes sha256 c row) → ∀ key, key ∉ s.written →
    s.restored.get key = lastWritten s.db.memoryHistory key

end Sequence

open Sequence

/-- Both restores of a snapshot leave the memory with the map. -/
def BothRestore (db : Database) (row : Snapshot) (state : SortedMap Text Text) : Prop :=
  ∀ now, stateOf (restoreToTimestamp db row.timestamp now).2 = state ∧
    ∃ stored, row.stateJson = some stored ∧
      stateOf (restoreFromStateJson db stored now).2 = state

/-- Both restores of every snapshot that is taken leave, whatever was called since, the map that the
memory had when it was taken. -/
def RestoresAgree (sha256 : Text → Text) (calls : List TimedOperation) : Prop :=
  ∀ pre c mid post s₀ s₁ s row, calls = pre ++ c :: (mid ++ post) →
    Machine.run (step sha256) init pre = some s₀ → s₀.step sha256 c = some s₁ →
    s₁.db.snapshots = s₀.db.snapshots ++ [row] →
    Machine.run (step sha256) s₁ mid = some s → BothRestore s.db row (stateOf s₀.db)

/-- Up to the time of a snapshot the history has what it had when the snapshot was taken. -/
theorem history_upTo {sha256 : Text → Text} {pre mid : List TimedOperation} {c : TimedOperation}
    {s₀ s₁ s : Sequence} {row : Snapshot} (hincreasing : Increasing (pre ++ c :: mid))
    (hpre : Machine.run (step sha256) init pre = some s₀) (hstep : s₀.step sha256 c = some s₁)
    (hrow : s₁.db.snapshots = s₀.db.snapshots ++ [row])
    (hmid : Machine.run (step sha256) s₁ mid = some s) :
    row.stateJson = some (stateOf s₀.db) ∧
      s.db.memoryHistory.filter (·.timestamp ≤ row.timestamp) = s₀.db.memoryHistory := by
  obtain ⟨h₀, before, hbefore, htimes⟩ := run_spec inv_init hpre
  obtain ⟨h₁, -, hsnapshots⟩ := step_spec h₀ hstep
  obtain ⟨-, later, hlater, htimes'⟩ := run_spec h₁ hmid
  rcases hsnapshots with hsame | ⟨row', m, hnew, hjson, htime, hhistory⟩
  · rw [hsame] at hrow
    have := congrArg List.length hrow
    simp at this
  · rw [hnew] at hrow
    obtain rfl : row' = row := by simpa using hrow
    refine ⟨hjson, ?_⟩
    obtain ⟨-, hlast, hacross⟩ := List.pairwise_append.mp hincreasing
    have hkept : ∀ h ∈ s₀.db.memoryHistory, h.timestamp ≤ row'.timestamp := fun h hh => by
      rw [hbefore] at hh
      obtain ⟨c', hc', m', hm'⟩ := htimes h hh
      rw [hm', htime]
      exact (hacross c' hc' c (by simp) m' m).le
    have hdropped : ∀ h ∈ later, ¬h.timestamp ≤ row'.timestamp := fun h hh => by
      obtain ⟨c', hc', m', hm'⟩ := htimes' h hh
      rw [hm', htime]
      exact not_le.mpr ((List.pairwise_cons.mp hlast).1 c' hc' m m')
    rw [hlater, hhistory, List.filter_append,
      List.filter_eq_self.mpr fun h hh => decide_eq_true (hkept h hh),
      List.filter_eq_nil_iff.mpr fun h hh => by simpa using hdropped h hh, List.append_nil]

/-- The two restores of a snapshot agree exactly if the writes account for the memory that it was
taken of. -/
theorem bothRestore_iff {db : Database} {s₀ : Sequence} {row : Snapshot} (h₀ : s₀.Inv)
    (hjson : row.stateJson = some (stateOf s₀.db))
    (hhistory : db.memoryHistory.filter (·.timestamp ≤ row.timestamp) = s₀.db.memoryHistory) :
    BothRestore db row (stateOf s₀.db) ↔
      ∀ key, key ∉ s₀.written → s₀.restored.get key = lastWritten s₀.db.memoryHistory key := by
  constructor
  · intro hboth key hkey
    have hreplay := get_restoreToTimestamp db row.timestamp 0 key
    rw [(hboth 0).1, hhistory, h₀.lookups, if_neg hkey] at hreplay
    exact hreplay
  · intro haccounted now
    refine ⟨SortedMap.ext_get fun key => ?_, _, hjson, stateOf_restoreFromStateJson db _ now⟩
    rw [get_restoreToTimestamp, hhistory, h₀.lookups]
    split_ifs with hkey
    · rfl
    · exact (haccounted key hkey).symm

/-- For every sequence of calls at increasing times the two restores agree exactly if the writes
account for the memory wherever a snapshot is taken. -/
theorem restores_agree_iff (sha256 : Text → Text) (calls : List TimedOperation)
    (hincreasing : Increasing calls) : RestoresAgree sha256 calls ↔
      Machine.Along (step sha256) (Accounted sha256) init calls := by
  have hpart : ∀ {pre mid post : List TimedOperation} {c : TimedOperation},
      calls = pre ++ c :: (mid ++ post) → Increasing (pre ++ c :: mid) := fun heq =>
    List.Pairwise.sublist (List.Sublist.append_left ((List.sublist_append_left _ _).cons_cons _) _)
      (heq ▸ hincreasing)
  constructor
  · intro hall
    refine Machine.along_iff_at_step.mpr fun pre c post heq s₀ hpre => ?_
    rintro ⟨row, s₁, hstep, hrow⟩
    have hboth := hall pre c [] post s₀ s₁ s₁ row heq hpre hstep hrow rfl
    obtain ⟨hjson, hhistory⟩ := history_upTo (hpart heq) hpre hstep hrow
      (rfl : Machine.run (step sha256) s₁ [] = some s₁)
    exact (bothRestore_iff (run_spec inv_init hpre).1 hjson hhistory).mp hboth
  · rintro halong pre c mid post s₀ s₁ s row rfl hpre hstep hrow hmid
    obtain ⟨hjson, hhistory⟩ := history_upTo (hpart rfl) hpre hstep hrow hmid
    refine (bothRestore_iff (run_spec inv_init hpre).1 hjson hhistory).mpr ?_
    exact halong.at_step hpre ⟨row, s₁, hstep, hrow⟩

/-- A call at a time. -/
def callAt (ms : ℕ) (op : Operation) : TimedOperation := ⟨op, fun _ => readingAt ms⟩

/-- A key is written and a snapshot taken of it. -/
theorem restores_agree_write : RestoresAgree id
    [callAt 1 (.writeKey ['k'] ['1'] 0 none), callAt 2 (.createSnapshot ['s'])] := by
  refine (restores_agree_iff id _ ?_).mpr ⟨fun _ key _ => rfl, fun s hs => ⟨fun _ key hkey => ?_,
    fun s' _ => trivial⟩⟩
  · refine List.pairwise_pair.mpr fun m n => ?_
    simp [callAt, readingAt]
  · obtain rfl := Option.some.inj hs
    have hlast := lastWritten_concat [] ⟨['k'], ['1'], 1000, 0⟩ key
    rw [if_neg fun heq => hkey (by rw [heq]; exact List.mem_cons_self)] at hlast
    exact hlast.symm

/-- A key is written a second time, and the second write is rolled back. -/
def rolledBackCalls : List TimedOperation :=
  [callAt 1 (.writeKey ['k'] ['1'] 0 none), callAt 2 (.createSnapshot ['s']),
    callAt 3 (.writeKey ['k'] ['2'] 0 none), callAt 4 (.rollbackToSnapshot 2)]

/-- A snapshot that is taken then is restored to the value that was rolled back. -/
theorem rolledBack_restored :
    ¬RestoresAgree id (rolledBackCalls ++ [callAt 5 (.createSnapshot ['t'])]) := by
  intro hagree
  obtain ⟨s₀, hpre, s₁, hstep, row, hrow, htime, hstate, hlast⟩ : ∃ s₀,
      Machine.run (step id) init rolledBackCalls = some s₀ ∧ ∃ s₁,
      s₀.step id (callAt 5 (.createSnapshot ['t'])) = some s₁ ∧ ∃ row,
      s₁.db.snapshots = s₀.db.snapshots ++ [row] ∧ row.timestamp = 5000 ∧
      (stateOf s₀.db).get ['k'] = some ['1'] ∧
      lastWritten (s₁.db.memoryHistory.filter (·.timestamp ≤ 5000)) ['k'] = some ['2'] :=
    ⟨_, rfl, _, rfl, _, rfl, rfl, by decide +kernel, by decide +kernel⟩
  have hboth := hagree rolledBackCalls _ [] [] s₀ s₁ s₁ row rfl hpre hstep hrow rfl 0
  have hreplay := get_restoreToTimestamp s₁.db row.timestamp 0 ['k']
  rw [hboth.1, hstate, htime, hlast] at hreplay
  cases hreplay

end Torpor.Lab
