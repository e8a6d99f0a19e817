import Torpor.Actor.Host
import Torpor.Lib.Machine

/-!
# The Loop of an Agent

`process_one` and `run_loop`, as a machine: between two steps the agent waits for a message,
the guest runs between two host calls, `agent_infer` waits for the backend, or the loop waits
for a verdict. What the agent does not decide is the input of a step (`Event`): the messages
that arrive, what the guest computes and calls, the answers of the backend, the expiry of the
validation timeout, and what other tasks do to the shared world in the meantime.

`Message::Evict` ends the loop with the state that the agent can be rebuilt from;
`restore_from_evicted` is the event `wake`.
-/

namespace Torpor

open ContentHash

/-! ### Messages and phases -/

/-- `Message`. -/
inductive Message (D : Type)
  | data (payload : List UInt8) (cause : Option D)
  | suspend
  | checkpoint
  | evict
  | rollback (targetSeq : ℕ)
  | validationResponse (verdict : ValidationVerdict)
  | sessionResume (summary : List UInt8)
  deriving DecidableEq, Repr

/-- The message that a cycle of the guest processes. -/
inductive CycleKind
  | data
  | sessionResume
  deriving DecidableEq, Repr

/-- Where an agent is. -/
inductive Phase (D : Type)
  | spawned
  | idle
  | guest (kind : CycleKind)
  | infer (kind : CycleKind) (call : InferCall D)
  | awaiting
  | stopped
  | evicted (state : EvictedState D)
  deriving DecidableEq, Repr

/-- An agent in the shared world; `pendingMsg` is the message that the wait for a verdict put
back. -/
structure Actor (D : Type) where
  caller : Caller D
  phase : Phase D
  pendingMsg : Option (Message D)

/-- What makes an agent take a step. A memory given with a step is what the guest has made of
its memory since the last one. `order` is the order in which `revoke_owned_after` meets the
capabilities. -/
inductive Event (D : Type)
  | start
  | recv (message : Message D) (order : List CapabilityId)
  | resume (order : List CapabilityId)
  | closed
  | timeout
  | host (memory : List UInt8) (call : HostCall)
  | inferDone (result : Except InferError InferResponse) (durationMs : ℕ)
  | ret (memory : List UInt8)
  | trap (memory : List UInt8) (interrupt : Bool)
  | wake (params : BuildParams) (memory : List UInt8)
  | others (writes : List (Write D)) (capStores : ℕ → CapabilityStore) (kvStores : ℕ → KvStore)
      (causeHandles : ℕ → CauseHandleRegistry D)

/-- `RuntimeError`, as far as `process_one` raises it. -/
inductive RuntimeError
  | messageTooLarge (len : ℕ)
  | memoryOutOfBounds
  | trap (interrupt : Bool)
  | host (error : String)
  deriving DecidableEq, Repr

/-- `classify_process_one_error`. -/
def classifyProcessOneError : RuntimeError → CrashCause
  | .trap true => .watchdogTrap
  | _ => .processFailed

/-! ### process_one -/

namespace Caller

variable {D : Type}

/-- `MAX_MSG`. -/
def maxMsg : ℕ := 65536

/-- `process_one` up to the call of the guest. -/
def processStart (c : Caller D) (data : List UInt8) : Except RuntimeError (Caller D) :=
  if maxMsg < data.length then .error (.messageTooLarge data.length)
  else if c.memory.length < data.length then .error .memoryOutOfBounds
  else .ok { c with memory := writeMem c.memory 0 data }

variable [ContentHash D]

/-- The session has reached one of its bounds at a reading of the clock. -/
def sessionExceeded (c : Caller D) (nowMs : ℕ) : Bool :=
  let actions := c.data.seq - c.data.sessionStartSeq
  let elapsed := if 0 < c.data.sessionStartedAtMs then nowMs - c.data.sessionStartedAtMs else 0
  decide (c.data.sessionMaxActions ≤ actions) ||
    (decide (0 < c.data.sessionMaxDurationMs) && decide (c.data.sessionMaxDurationMs ≤ elapsed))

/-- The check of the session bounds at the end of `process_one`; the clock is read only in a
session that has started. -/
def checkSession (c : Caller D) : Caller D :=
  let (nowMs, c) := if 0 < c.data.sessionStartedAtMs then c.now else (0, c)
  if c.sessionExceeded nowMs then c.logSessionBoundary else c

/-- `process_one` after the guest has returned. -/
def processEnd (c : Caller D) : Except RuntimeError Unit × Caller D :=
  match c.data.hostError with
  | some error =>
      (.error (.host error), c.setData fun s => { s with hostError := none })
  | none =>
      match c.data.pendingCommit with
      | none => (.ok (), c.checkSession)
      | some p =>
          let (ok, c) := c.takePending.append .runtime (c.commitEntry p none)
          if ok then (.ok (), c.checkSession)
          else (.error (.host "CausalLog::append pending"), c)

/-- The end of a cycle raises an error of the host, or checks the session; before that it
appends the entry of the commit, if one is in progress, and ends there if it cannot. -/
theorem processEnd_cases (c : Caller D) :
    (∃ error, c.data.hostError = some error ∧
      c.processEnd.2 = c.setData fun s => { s with hostError := none }) ∨
    (c.data.hostError = none ∧ c.data.pendingCommit = none ∧
      c.processEnd.2 = c.checkSession) ∨
    (c.data.hostError = none ∧ ∃ p, c.data.pendingCommit = some p ∧
      ((c.takePending.append .runtime (c.commitEntry p none)).1 = true ∧ c.processEnd.2 =
          (c.takePending.append .runtime (c.commitEntry p none)).2.checkSession ∨
        (c.takePending.append .runtime (c.commitEntry p none)).1 = false ∧ c.processEnd.2 =
          (c.takePending.append .runtime (c.commitEntry p none)).2)) := by
  simp only [processEnd]
  split
  · rename_i error herror
    exact .inl ⟨error, herror, rfl⟩
  · rename_i herror
    right
    split
    · rename_i hnone
      exact .inl ⟨herror, hnone, rfl⟩
    · rename_i p hp
      refine .inr ⟨herror, p, hp, ?_⟩
      split_ifs with hok
      · exact .inl ⟨hok, rfl⟩
      · exact .inr ⟨by simpa using hok, rfl⟩

/-! ### Message::Rollback -/

/-- The capabilities of the agent and the handles it issued after the snapshot it returns to
are revoked; the result is how many capabilities went. -/
def revokeAfter (c : Caller D) (order : List CapabilityId) (afterMs : ℕ) : ℕ × Caller D :=
  let store := c.world.capStores c.data.capStore
  let order := if order.Perm store.caps.keys then order else store.caps.keys
  let (revoked, store) := store.revokeOwnedAfter order c.data.id afterMs
  let registry := (c.world.causeHandles c.data.causeHandleRegistry).revokeIssuedAfterAll
    c.data.id afterMs
  (revoked, { c with world := { c.world with
    capStores := Function.update c.world.capStores c.data.capStore store
    causeHandles := Function.update c.world.causeHandles c.data.causeHandleRegistry registry } })

/-- The revocation of `Message::Rollback`: none if the header of the target is not read. -/
def revokeForTarget [LinearOrder D] (c : Caller D) (order : List CapabilityId) (target : D) :
    ℕ × Caller D :=
  let (failed, c) := c.access
  if failed then (0, c)
  else match c.world.store.getHeader target with
    | none => (0, c)
    | some header => c.revokeAfter order (header.tsUs / 1000)

/-- The payload of a `SchedulerRollback`. -/
def rollbackPayload (distance targetSeq capsInvalidated : ℕ) : List UInt8 :=
  UInt8.ofNat (min distance 255) :: leBytes 8 targetSeq ++
    [UInt8.ofNat (min capsInvalidated 255)]

/-- `Message::Rollback` once the path to the target is known. -/
def rollbackAlong [LinearOrder D] (c : Caller D) (order : List CapabilityId) (targetSeq : ℕ)
    (tip : D) (path : List D) : Caller D :=
  let target := path.getLastD tip
  let (nowMs, c) := c.now
  let (nowUs, c) := c.now
  let (revoked, c) := c.revokeForTarget order target
  let c := c.moveTip .schedulerRollback tip target nowMs nowUs
    (rollbackPayload (path.length - 1) targetSeq revoked)
  c.logLifecycleEvent .active

/-- `Message::Rollback`; `some` cause if the agent crashes. -/
def rollback [LinearOrder D] (c : Caller D) (order : List CapabilityId) (targetSeq : ℕ) :
    Option CrashCause × Caller D :=
  match c.data.lastSnapshot with
  | none => (none, c)
  | some tip =>
      if c.data.seq ≤ targetSeq then (none, c)
      else
        let (path, c) := c.rollbackPath tip targetSeq
        match path with
        | .error _ => (some .contentStoreBroken, c)
        | .ok path => (none, c.rollbackAlong order targetSeq tip path)

/-- A rollback is ignored, finds no path, or goes along one. -/
theorem rollback_cases [LinearOrder D] (c : Caller D) (order : List CapabilityId)
    (targetSeq : ℕ) :
    (c.rollback order targetSeq).2 = c ∨
      ∃ tip, c.data.lastSnapshot = some tip ∧
        ((c.rollback order targetSeq).2 = (c.rollbackPath tip targetSeq).2 ∨
          ∃ path, (c.rollbackPath tip targetSeq).1 = .ok path ∧
            (c.rollback order targetSeq).2 =
              (c.rollbackPath tip targetSeq).2.rollbackAlong order targetSeq tip path) := by
  simp only [rollback]
  split
  · exact .inl rfl
  · rename_i tip htip
    split
    · exact .inl rfl
    · right
      refine ⟨tip, htip, ?_⟩
      split
      · exact .inl rfl
      · rename_i path hpath
        exact .inr ⟨path, hpath, rfl⟩

/-! ### restore_from_evicted -/

/-- `check_resume_snapshot`. -/
def checkResumeSnapshot [LinearOrder D] (w : World D) (lastSnapshot : Option D) :
    Bool × World D :=
  match lastSnapshot with
  | none => (true, w)
  | some snap =>
      let (failed, w) := w.access
      (!failed && w.store.hasSnapshot snap, w)

omit [ContentHash D] in
/-- The shared objects that `ActorInstanceBuilder` makes. -/
def allocate (w : World D) (p : BuildParams) : World D :=
  { w with
    capStores := Function.update w.capStores p.capStore .new
    kvStores := Function.update w.kvStores p.kvStore ∅
    causeHandles := Function.update w.causeHandles p.causeHandleRegistry fun _ => [] }

omit [ContentHash D] in
/-- An instance of the builder with the fields of `copy_evicted_fields`. The builder is given
no tenant, no session bound and no parent. -/
def restore (w : World D) (p : BuildParams) (memory : List UInt8) (ev : EvictedState D) :
    Caller D :=
  let p : BuildParams :=
    { agentProfile := p.agentProfile, clock := p.clock, capStore := p.capStore,
      kvStore := p.kvStore, causeHandleRegistry := p.causeHandleRegistry }
  { data := { AgentState.build ev.id p with
      seq := ev.seq, lastSnapshot := ev.lastSnapshot, lastAction := ev.lastAction }
    memory
    world := allocate w p }

end Caller

/-! ### run_loop -/

namespace Actor

variable {D : Type}

/-- A newly built agent. -/
def new (id : AgentId) (p : BuildParams) (memory : List UInt8) (world : World D) : Actor D :=
  { caller := { data := AgentState.build id p, memory, world }
    phase := .spawned
    pendingMsg := none }

/-- Leave `run_loop`: the handles that the agent issued are revoked. -/
def leave (a : Actor D) (phase : Phase D) : Actor D :=
  let c := a.caller
  let registry := (c.world.causeHandles c.data.causeHandleRegistry).revokeIssuedByAll c.data.id
  { caller := { c with world := { c.world with
      causeHandles := Function.update c.world.causeHandles c.data.causeHandleRegistry registry } }
    phase
    pendingMsg := none }

/-- What `Message::Evict` sends to the scheduler. -/
def evictedState (a : Actor D) : EvictedState D :=
  { id := a.caller.data.id
    seq := a.caller.data.seq
    lastSnapshot := a.caller.data.lastSnapshot
    lastAction := a.caller.data.lastAction }

/-- The guest processes a `Message::Data`. -/
def inDataCycle (a : Actor D) : Bool :=
  match a.phase with
  | .guest .data => true
  | _ => false

/-- The loop waits for a verdict. -/
def isAwaiting (a : Actor D) : Bool :=
  match a.phase with
  | .awaiting => true
  | _ => false

/-- The actor with another caller. -/
def setCaller (a : Actor D) (c : Caller D) : Actor D := { a with caller := c }

variable [ContentHash D]

/-- Leave after a crash. -/
def crash (a : Actor D) (cause : CrashCause) : Actor D :=
  (a.setCaller (a.caller.logAgentCrash cause)).leave .stopped

/-- Leave the loop at its natural end. -/
def exitLoop (a : Actor D) : Actor D :=
  if a.caller.data.lifecycle ≠ .suspended ∧ a.caller.data.lifecycle ≠ .terminated then
    (a.setCaller (a.caller.logLifecycleEvent .terminated)).leave .stopped
  else a.leave .stopped

/-- Enter the guest with a message. -/
def enter (a : Actor D) (kind : CycleKind) (data : List UInt8) : Actor D :=
  match a.caller.processStart data with
  | .error e => a.crash (classifyProcessOneError e)
  | .ok c => { a with caller := c, phase := .guest kind }

/-- The end of a cycle of `Message::Data`, once no verdict is awaited. -/
def afterData (a : Actor D) : Actor D :=
  if a.caller.data.lifecycle = .terminated then a.leave .stopped else { a with phase := .idle }

/-- The end of a cycle whose guest has returned. -/
def endCycle (a : Actor D) (kind : CycleKind) : Actor D :=
  let (result, c) := a.caller.processEnd
  let a := a.setCaller c
  match result with
  | .error e => a.crash (classifyProcessOneError e)
  | .ok () =>
      match kind with
      | .sessionResume => { a with phase := .idle }
      | .data =>
          if a.caller.data.lifecycle = .awaitingValidation then { a with phase := .awaiting }
          else a.afterData

/-- The end of a cycle is a crash, leads to the next message or to the wait for a verdict, or
stops an agent that has terminated. -/
theorem endCycle_cases (a : Actor D) (kind : CycleKind) :
    (∃ cause, a.endCycle kind = (a.setCaller a.caller.processEnd.2).crash cause) ∨
      (∃ phase, (phase = .idle ∨ phase = .awaiting) ∧
        a.endCycle kind = { a.setCaller a.caller.processEnd.2 with phase }) ∨
      a.endCycle kind = (a.setCaller a.caller.processEnd.2).leave .stopped := by
  simp only [endCycle]
  split
  · exact .inl ⟨_, rfl⟩
  · right
    cases kind with
    | sessionResume => exact .inl ⟨.idle, .inl rfl, rfl⟩
    | data =>
        simp only [afterData]
        split_ifs
        · exact .inl ⟨.awaiting, .inr rfl, rfl⟩
        · exact .inr rfl
        · exact .inl ⟨.idle, .inl rfl, rfl⟩

/-- The branches of the main loop. -/
def handle [LinearOrder D] (a : Actor D) (order : List CapabilityId) : Message D → Actor D
  | .data payload cause =>
      let c := a.caller.logLifecycleEvent .active
      let c := c.setData fun s => { s with
        pendingExtraCauses := s.pendingExtraCauses ++ cause.toList }
      (a.setCaller c).enter .data payload
  | .suspend => (a.setCaller (a.caller.logLifecycleEvent .suspended)).exitLoop
  | .checkpoint => a.setCaller (a.caller.logLifecycleEvent .checkpointed)
  | .evict =>
      let a := a.setCaller (a.caller.logLifecycleEvent .suspended)
      a.leave (.evicted a.evictedState)
  | .rollback targetSeq =>
      let (cause, c) := a.caller.rollback order targetSeq
      match cause with
      | none => a.setCaller c
      | some cause => (a.setCaller c).crash cause
  | .validationResponse _ => a
  | .sessionResume summary =>
      (a.setCaller (a.caller.logLifecycleEvent .active)).enter .sessionResume summary

/-- A verdict ends the wait for it. -/
def recordVerdict (a : Actor D) (verdict : ValidationVerdict) : Actor D :=
  (a.setCaller (a.caller.recordValidationResponse verdict)).afterData

/-- The loop that waits for a verdict: it ends with a verdict, with a rollback, which cancels
the request, or with the agent, and passes over every other message. -/
def await (a : Actor D) : Message D → Actor D
  | .validationResponse verdict => a.recordVerdict verdict
  | .suspend => a.leave .stopped
  | .rollback targetSeq =>
      { a with pendingMsg := some (.rollback targetSeq) }.recordVerdict .cancelled
  | _ => a

/-- A call of the guest. -/
def hostCall [LinearOrder D] (a : Actor D) (kind : CycleKind) (call : HostCall) : Actor D :=
  let (suspended, c) := a.caller.host call
  match suspended with
  | none => a.setCaller c
  | some call => { a with caller := c, phase := .infer kind call }

/-- The guest has run, and its memory with it. -/
def setMemory (a : Actor D) (memory : List UInt8) : Actor D :=
  a.setCaller { a.caller with memory }

omit [ContentHash D] in
/-- The entries of a list of writes are not of the given agent. -/
def foreign (id : AgentId) (writes : List (Write D)) : Bool :=
  (entriesOf writes).all fun e => e.agentId != id

/-- One step. -/
def step [LinearOrder D] (a : Actor D) : Event D → Option (Actor D)
  | .start =>
      match a.phase with
      | .spawned =>
          some { a with caller := a.caller.logLifecycleEvent .spawned, phase := .idle }
      | _ => none
  | .recv message order =>
      match a.phase, a.pendingMsg with
      | .idle, none => some (a.handle order message)
      | .awaiting, none => some (a.await message)
      | _, _ => none
  | .resume order =>
      match a.phase, a.pendingMsg with
      | .idle, some message => some ({ a with pendingMsg := none }.handle order message)
      | _, _ => none
  | .closed =>
      match a.phase, a.pendingMsg with
      | .idle, none => some a.exitLoop
      | .awaiting, none => some (a.leave .stopped)
      | _, _ => none
  | .timeout =>
      match a.phase with
      | .awaiting => some (a.recordVerdict .timeout)
      | _ => none
  | .host memory call =>
      match a.phase with
      | .guest kind =>
          if a.caller.memory.length ≤ memory.length then
            some ((a.setMemory memory).hostCall kind call)
          else none
      | _ => none
  | .inferDone result durationMs =>
      match a.phase with
      | .infer kind call =>
          some { a with
            caller := (a.caller.agentInferFinish call result durationMs).2
            phase := .guest kind }
      | _ => none
  | .ret memory =>
      match a.phase with
      | .guest kind =>
          if a.caller.memory.length ≤ memory.length then
            some ((a.setMemory memory).endCycle kind)
          else none
      | _ => none
  | .trap memory interrupt =>
      match a.phase with
      | .guest _ =>
          if a.caller.memory.length ≤ memory.length then
            some ((a.setMemory memory).crash (classifyProcessOneError (.trap interrupt)))
          else none
      | _ => none
  | .wake params memory =>
      match a.phase with
      | .evicted ev =>
          let (present, world) := Caller.checkResumeSnapshot a.caller.world ev.lastSnapshot
          if present then
            some { caller := Caller.restore world params memory ev
                   phase := .spawned
                   pendingMsg := none }
          else some (a.setCaller { a.caller with world })
      | _ => none
  | .others writes capStores kvStores causeHandles =>
      if foreign a.caller.data.id writes then
        some (a.setCaller { a.caller with world := { a.caller.world with
          writes := a.caller.world.writes ++ writes, capStores, kvStores, causeHandles } })
      else none

/-- What a step can be, and where. -/
inductive Trans [LinearOrder D] (a : Actor D) : Event D → Actor D → Prop
  | start : a.phase = .spawned →
      Trans a .start { a with caller := a.caller.logLifecycleEvent .spawned, phase := .idle }
  | handle {message order} : a.phase = .idle → a.pendingMsg = none →
      Trans a (.recv message order) (a.handle order message)
  | await {message order} : a.phase = .awaiting → a.pendingMsg = none →
      Trans a (.recv message order) (a.await message)
  | resume {message order} : a.phase = .idle → a.pendingMsg = some message →
      Trans a (.resume order) ({ a with pendingMsg := none }.handle order message)
  | exit : a.phase = .idle → a.pendingMsg = none → Trans a .closed a.exitLoop
  | abandon : a.phase = .awaiting → a.pendingMsg = none → Trans a .closed (a.leave .stopped)
  | timeout : a.phase = .awaiting → Trans a .timeout (a.recordVerdict .timeout)
  | host {kind memory call} : a.phase = .guest kind → a.caller.memory.length ≤ memory.length →
      Trans a (.host memory call) ((a.setMemory memory).hostCall kind call)
  | inferDone {kind call result durationMs} : a.phase = .infer kind call →
      Trans a (.inferDone result durationMs)
        { a with
          caller := (a.caller.agentInferFinish call result durationMs).2
          phase := .guest kind }
  | ret {kind memory} : a.phase = .guest kind → a.caller.memory.length ≤ memory.length →
      Trans a (.ret memory) ((a.setMemory memory).endCycle kind)
  | trap {kind memory interrupt} : a.phase = .guest kind →
      a.caller.memory.length ≤ memory.length →
      Trans a (.trap memory interrupt)
        ((a.setMemory memory).crash (classifyProcessOneError (.trap interrupt)))
  | wake {ev params memory} : a.phase = .evicted ev →
      (Caller.checkResumeSnapshot a.caller.world ev.lastSnapshot).1 = true →
      Trans a (.wake params memory)
        { caller := Caller.restore (Caller.checkResumeSnapshot a.caller.world ev.lastSnapshot).2
            params memory ev
          phase := .spawned
          pendingMsg := none }
  | refuse {ev params memory} : a.phase = .evicted ev →
      (Caller.checkResumeSnapshot a.caller.world ev.lastSnapshot).1 = false →
      Trans a (.wake params memory) (a.setCaller { a.caller with
        world := (Caller.checkResumeSnapshot a.caller.world ev.lastSnapshot).2 })
  | others {writes capStores kvStores causeHandles} : foreign a.caller.data.id writes = true →
      Trans a (.others writes capStores kvStores causeHandles)
        (a.setCaller { a.caller with world := { a.caller.world with
          writes := a.caller.world.writes ++ writes, capStores, kvStores, causeHandles } })

/-- Every step is one of these. -/
theorem trans_of_step [LinearOrder D] {a a' : Actor D} {ev : Event D}
    (h : a.step ev = some a') : a.Trans ev a' := by
  cases ev with
  | start =>
      simp only [step] at h
      split at h
      · cases h
        exact .start ‹_›
      · cases h
  | recv message order =>
      simp only [step] at h
      split at h
      · cases h
        exact .handle ‹_› ‹_›
      · cases h
        exact .await ‹_› ‹_›
      · cases h
  | resume order =>
      simp only [step] at h
      split at h
      · cases h
        exact .resume ‹_› ‹_›
      · cases h
  | closed =>
      simp only [step] at h
      split at h
      · cases h
        exact .exit ‹_› ‹_›
      · cases h
        exact .abandon ‹_› ‹_›
      · cases h
  | timeout =>
      simp only [step] at h
      split at h
      · cases h
        exact .timeout ‹_›
      · cases h
  | host memory call =>
      simp only [step] at h
      split at h
      · split_ifs at h with hmem
        cases h
        exact .host ‹_› hmem
      · cases h
  | inferDone result durationMs =>
      simp only [step] at h
      split at h
      · cases h
        exact .inferDone ‹_›
      · cases h
  | ret memory =>
      simp only [step] at h
      split at h
      · split_ifs at h with hmem
        cases h
        exact .ret ‹_› hmem
      · cases h
  | trap memory interrupt =>
      simp only [step] at h
      split at h
      · split_ifs at h with hmem
        cases h
        exact .trap ‹_› hmem
      · cases h
  | wake params memory =>
      simp only [step] at h
      split at h
      · split_ifs at h with hpresent
        · cases h
          exact .wake ‹_› hpresent
        · cases h
          exact .refuse ‹_› (by simpa using hpresent)
      · cases h
  | others writes capStores kvStores causeHandles =>
      simp only [step] at h
      split_ifs at h with hforeign
      cases h
      exact .others hforeign

/-! ### Concrete runs -/

omit [ContentHash D] in
/-- A world in which nothing has happened and no access fails. -/
def blankWorld : World D :=
  { writes := []
    fault := fun _ => false
    ios := 0
    capStores := fun _ => .new
    kvStores := fun _ => ∅
    causeHandles := fun _ _ => [] }

/-- Agent `10` with the defaults of the builder, four bytes of memory, and a clock that advances
at every reading. -/
def sampleAgent : Actor (List ℕ) :=
  .new 10 { clock := fun n => n + 1, capStore := 0, kvStore := 0, causeHandleRegistry := 0 }
    [0, 0, 0, 0] blankWorld

/-- A message whose guest makes the given calls and returns. -/
def dataCycle (calls : List HostCall) : List (Event (List ℕ)) :=
  .recv (.data [] none) [] :: calls.map (.host [0, 0, 0, 0]) ++ [.ret [0, 0, 0, 0]]

/-- A first cycle whose guest takes a checkpoint between `commit_barrier` and `emit`. -/
def checkpointedCycle : List (Event (List ℕ)) :=
  .start :: dataCycle [.commitBarrier, .agentCheckpoint, .emit 1 0 4]

end Actor

end Torpor
