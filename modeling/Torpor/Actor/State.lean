import Torpor.Capabilities.Basic
import Torpor.Disk

/-!
# The State of an Agent

The state that the host functions and the loop of an agent work on: `AgentState`, the linear
memory of the guest, and the world it shares with other agents (the two databases, the
capability stores, the key-value stores, the registries of cause handles), together with the
logging methods of `AgentState`.

* Shared objects are addressed by number, as an `Arc` is by its pointer.
* A clock is any sequence of readings; `now_ms` and `now_us` take the next one. This covers
  the system clock, whatever it does, and the logical clock.
* Every access to a database may fail: `fault` tells which ones do, in the order of all
  accesses. A write that fails writes nothing.
* Counters are numbers without the bound of `u64`, and the error text of a host function is
  kept as the message that the source formats, without the cause it appends.

Left out of `AgentState`: `own_caps`, which nothing reads; `cap_denied_witness`, which is
`None` outside the test harness; `validation_timeout_ms`, because the loop may time out at any
moment; and `store_ref` and `log_ref`, which are the shared databases.
-/

namespace Torpor

open ContentHash

/-! ### Enumerations -/

/-- `LifecycleState`. -/
inductive LifecycleState
  | spawned | active | suspended | checkpointed | terminated | awaitingValidation
  | waitingInference
  deriving DecidableEq, Repr

/-- `LifecycleState::as_u8`. -/
def LifecycleState.asU8 : LifecycleState → UInt8
  | spawned => 0
  | active => 1
  | suspended => 2
  | checkpointed => 3
  | terminated => 4
  | awaitingValidation => 5
  | waitingInference => 6

/-- `ValidationVerdict`. -/
inductive ValidationVerdict
  | approved | rejected | timeout | cancelled
  deriving DecidableEq, Repr

/-- The byte of a verdict. -/
def ValidationVerdict.asU8 : ValidationVerdict → UInt8
  | approved => 0
  | rejected => 1
  | timeout => 2
  | cancelled => 3

/-- `CrashCause`, without `HostPanic`, which is never raised. -/
inductive CrashCause
  | processFailed | contentStoreBroken | watchdogTrap
  deriving DecidableEq, Repr

/-- `CrashCause::as_u8`. -/
def CrashCause.asU8 : CrashCause → UInt8
  | processFailed => 0x01
  | contentStoreBroken => 0x02
  | watchdogTrap => 0x03

/-- `AgentProfile`. -/
inductive AgentProfile
  | algo | llmShort | llmLong | batch
  deriving DecidableEq, Repr

/-- The byte of a profile. -/
def AgentProfile.asU8 : AgentProfile → UInt8
  | algo => 0x01
  | llmShort => 0x02
  | llmLong => 0x03
  | batch => 0x04

/-! ### Cause handles -/

/-- A handle that lets `grantee` cite `actionId`. -/
structure CauseHandle (D : Type) where
  grantee : AgentId
  actionId : D
  issuer : AgentId
  issuedAtMs : ℕ
  deriving DecidableEq, Repr

/-- `CauseHandleRegistry`: the handles of each tenant. A tenant without a store is one whose
store is empty. -/
abbrev CauseHandleRegistry (D : Type) := TenantId → List (CauseHandle D)

/-- `CauseHandleStore::contains`. -/
def containsHandle {D : Type} [DecidableEq D] (store : List (CauseHandle D))
    (grantee : AgentId) (actionId : D) : Bool :=
  store.any fun h => h.grantee == grantee && h.actionId == actionId

/-- `revoke_issued_by_all`. -/
def CauseHandleRegistry.revokeIssuedByAll {D : Type} (r : CauseHandleRegistry D)
    (issuer : AgentId) : CauseHandleRegistry D :=
  fun t => (r t).filter fun h => h.issuer != issuer

/-- `revoke_issued_after_all`. -/
def CauseHandleRegistry.revokeIssuedAfterAll {D : Type} (r : CauseHandleRegistry D)
    (issuer : AgentId) (afterMs : ℕ) : CauseHandleRegistry D :=
  fun t => (r t).filter fun h => !(h.issuer == issuer && decide (afterMs < h.issuedAtMs))

/-! ### The shared world -/

/-- A key-value store of a tenant. -/
abbrev KvStore := AList fun _ : List Char => List UInt8

/-- What agents share. -/
structure World (D : Type) where
  writes : List (Write D)
  fault : ℕ → Bool
  ios : ℕ
  capStores : ℕ → CapabilityStore
  kvStores : ℕ → KvStore
  causeHandles : ℕ → CauseHandleRegistry D

namespace World

variable {D : Type} [LinearOrder D] [ContentHash D]

/-- The content store as the writes so far have made it. -/
def store (w : World D) : ContentStore D := (Disk.replay w.writes).store

/-- The causal log as the writes so far have made it. -/
def log (w : World D) : CausalLog D := (Disk.replay w.writes).log

omit [LinearOrder D] [ContentHash D] in
/-- One access to a database: whether it fails. -/
def access (w : World D) : Bool × World D := (w.fault w.ios, { w with ios := w.ios + 1 })

omit [LinearOrder D] [ContentHash D] in
/-- An elementary write, unless the access fails. -/
def write (w : World D) (x : Write D) : Bool × World D :=
  if w.fault w.ios then (false, { w with ios := w.ios + 1 })
  else (true, { w with ios := w.ios + 1, writes := w.writes ++ [x] })

/-- `rollback_path`; each header it may look at is an access. -/
def rollbackPath (w : World D) (tip : D) (targetSeq : ℕ) :
    Except (StoreError D) (List D) × World D :=
  (w.store.rollbackPath (fun i => w.fault (w.ios + i)) tip targetSeq,
    { w with ios := w.ios + w.store.walkBound })

end World

/-! ### The state of an agent -/

/-- `PendingCommit`: what `commit_barrier` leaves for the entry that `emit` or the end of the
cycle appends. -/
structure PendingCommit (D : Type) where
  hashBefore : D
  hashAfter : D
  parentIds : List D
  tsMs : ℕ
  seq : ℕ
  deriving DecidableEq, Repr

/-- `CapDeniedLimiter`. -/
structure CapDeniedLimiter where
  count : ℕ := 0
  windowStartMs : ℕ := 0
  resources : List (List Char) := []
  aggregateEmitted : Bool := false
  setOverflowEmitted : Bool := false
  deriving DecidableEq, Repr

/-- `AgentState`. `capStore`, `kvStore` and `causeHandleRegistry` are addresses of shared
objects; the cause handles that the agent may use are those of its tenant in the registry. -/
structure AgentState (D : Type) where
  id : AgentId
  tenant : TenantId
  seq : ℕ
  lastSnapshot : Option D
  lastAction : Option D
  lifecycle : LifecycleState
  terminationRequested : Bool
  pendingCommit : Option (PendingCommit D)
  lastVerdict : Option ValidationVerdict
  pendingExtraCauses : List D
  sessionId : ℕ
  sessionStartSeq : ℕ
  sessionStartedAtMs : ℕ
  sessionMaxActions : ℕ
  sessionMaxDurationMs : ℕ
  capStore : ℕ
  agentProfile : AgentProfile
  parentAgentId : Option AgentId
  hostError : Option String
  clock : ℕ → ℕ
  reads : ℕ
  kvStore : ℕ
  causeHandleRegistry : ℕ
  capDenied : CapDeniedLimiter

/-- `SESSION_DEFAULT_MAX_ACTIONS`. -/
def sessionDefaultMaxActions : ℕ := 10000

/-- `SESSION_DEFAULT_MAX_DURATION_MS`. -/
def sessionDefaultMaxDurationMs : ℕ := 86400000

/-- What a runner chooses when it builds an agent; the defaults are those of
`ActorInstanceBuilder`, which makes new shared objects. -/
structure BuildParams where
  tenant : TenantId := TenantId.default
  sessionMaxDurationMs : ℕ := sessionDefaultMaxDurationMs
  agentProfile : AgentProfile := .llmShort
  parentAgentId : Option AgentId := none
  clock : ℕ → ℕ
  capStore : ℕ
  kvStore : ℕ
  causeHandleRegistry : ℕ

/-- The state of a newly built agent. -/
def AgentState.build {D : Type} (id : AgentId) (p : BuildParams) : AgentState D :=
  { id
    tenant := p.tenant
    seq := 0
    lastSnapshot := none
    lastAction := none
    lifecycle := .spawned
    terminationRequested := false
    pendingCommit := none
    lastVerdict := none
    pendingExtraCauses := []
    sessionId := 1
    sessionStartSeq := 0
    sessionStartedAtMs := 0
    sessionMaxActions := sessionDefaultMaxActions
    sessionMaxDurationMs := p.sessionMaxDurationMs
    capStore := p.capStore
    agentProfile := p.agentProfile
    parentAgentId := p.parentAgentId
    hostError := none
    clock := p.clock
    reads := 0
    kvStore := p.kvStore
    causeHandleRegistry := p.causeHandleRegistry
    capDenied := {} }

/-- What a host function is given: the state of the agent, the memory of the guest, and the
world. -/
structure Caller (D : Type) where
  data : AgentState D
  memory : List UInt8
  world : World D

namespace Caller

variable {D : Type}

/-- Change the state of the agent. -/
def setData (c : Caller D) (f : AgentState D → AgentState D) : Caller D :=
  { c with data := f c.data }

/-- The next reading of the clock. -/
def now (c : Caller D) : ℕ × Caller D :=
  (c.data.clock c.data.reads, { c with data := { c.data with reads := c.data.reads + 1 } })

/-- `last_snapshot.unwrap_or([0u8; 32])`. -/
def tipHash [ContentHash D] (c : Caller D) : D := c.data.lastSnapshot.getD zero

/-- An elementary write of the agent: whether it succeeds. -/
def write (c : Caller D) (x : Write D) : Bool × Caller D :=
  ((c.world.write x).1, { c with world := (c.world.write x).2 })

/-- A lookup of the agent: whether it fails. -/
def access (c : Caller D) : Bool × Caller D :=
  (c.world.access.1, { c with world := c.world.access.2 })

/-- `store_ref.rollback_path`. -/
def rollbackPath [LinearOrder D] [ContentHash D] (c : Caller D) (tip : D) (targetSeq : ℕ) :
    Except (StoreError D) (List D) × Caller D :=
  ((c.world.rollbackPath tip targetSeq).1,
    { c with world := (c.world.rollbackPath tip targetSeq).2 })

/-- `log_ref.append`: on success the entry becomes the last action. -/
def append [ContentHash D] (c : Caller D) (writer : Writer) (e : LogEntry D) :
    Bool × Caller D :=
  let (ok, c) := c.write (.append writer e)
  (ok, if ok then c.setData fun s => { s with lastAction := some (actionId e) } else c)

/-- An entry of the agent that follows its last action. -/
def entry (c : Caller D) (t : EmitType) (seq tsMs tsUs : ℕ) (before after : D)
    (payload : List UInt8) : LogEntry D :=
  { agentId := c.data.id
    tsMs
    parentIds := c.data.lastAction.toList
    hashBefore := before
    hashAfter := after
    emitPayload := some (.new t c.data.id seq tsUs payload) }

/-- Log an emission of the runtime that leaves the snapshot of the agent where it is: the
clock is read for `ts_ms`, then for `ts_us`. -/
def logQuiet [ContentHash D] (c : Caller D) (t : EmitType) (payload : List UInt8) :
    Bool × Caller D :=
  let (nowMs, c) := c.now
  let (nowUs, c) := c.now
  c.append .runtime (c.entry t c.data.seq nowMs nowUs c.tipHash c.tipHash payload)

variable [ContentHash D]

/-- `log_lifecycle_event`: no transition leaves `Terminated`. -/
def logLifecycleEvent (c : Caller D) (newState : LifecycleState) : Caller D :=
  if c.data.lifecycle = .terminated ∧ newState ≠ .terminated then c
  else
    let c := c.setData fun s => { s with lifecycle := newState }
    let payload := newState.asU8 :: leBytes 8 c.data.seq ++
      if newState = .spawned then [c.data.agentProfile.asU8] else []
    (c.logQuiet .lifecycle payload).2

/-- `log_agent_crash`. -/
def logAgentCrash (c : Caller D) (cause : CrashCause) : Caller D :=
  let payload := cause.asU8 :: agentBytes (c.data.parentAgentId.getD 0) ++
    bytes (c.data.lastAction.getD zero)
  (c.logQuiet .agentCrash payload).2.setData fun s => { s with lifecycle := .terminated }

/-- `record_validation_response`. -/
def recordValidationResponse (c : Caller D) (verdict : ValidationVerdict) : Caller D :=
  if c.data.lifecycle = .terminated then c
  else
    let c := c.setData fun s => { s with lastVerdict := some verdict }
    (c.logQuiet .validationResponse [verdict.asU8]).2.logLifecycleEvent .active

/-- `log_session_boundary`. -/
def logSessionBoundary (c : Caller D) : Caller D :=
  let actionCount := c.data.seq - c.data.sessionStartSeq
  let payload := leBytes 8 c.data.sessionId ++ leBytes 8 actionCount
  let c := (c.logQuiet .sessionBoundary payload).2.setData fun s => { s with
    sessionId := s.sessionId + 1
    sessionStartSeq := s.seq
    sessionStartedAtMs := 0 }
  c.logLifecycleEvent .checkpointed

/-- `CAP_DENIED_RATE_LIMIT`. -/
def capDeniedRateLimit : ℕ := 100

/-- `CAP_DENIED_WINDOW_MS`. -/
def capDeniedWindowMs : ℕ := 1000

/-- `CAP_DENIED_MAX_DISTINCT_RESOURCES`. -/
def capDeniedMaxDistinctResources : ℕ := 32

end Caller

/-- `CapDeniedLimiter::reset`. -/
def CapDeniedLimiter.reset (nowMs : ℕ) : CapDeniedLimiter := { windowStartMs := nowMs }

/-- What the limiter of `emit_cap_denied` decides about one refusal: nothing, or an event,
either attributed to its resource or aggregated. -/
inductive CapDeniedDecision
  | silent
  | attributed
  | aggregated
  deriving DecidableEq, Repr

/-- The limiter of `emit_cap_denied`; the count wraps. -/
def CapDeniedLimiter.admit (l : CapDeniedLimiter) (nowMs : ℕ) (resource : List Char) :
    CapDeniedDecision × CapDeniedLimiter :=
  let l := if Caller.capDeniedWindowMs ≤ nowMs - l.windowStartMs then .reset nowMs else l
  let l := { l with count := (l.count + 1) % 2 ^ 32 }
  let isNewResource := resource ∉ l.resources
  let hasRoom := l.resources.length < Caller.capDeniedMaxDistinctResources
  let l := if isNewResource ∧ hasRoom then { l with resources := resource :: l.resources } else l
  if Caller.capDeniedRateLimit < l.count ∧ !l.aggregateEmitted then
    (.aggregated, { l with aggregateEmitted := true })
  else if isNewResource ∧ hasRoom then (.attributed, l)
  else if l.count ≤ Caller.capDeniedRateLimit then (.attributed, l)
  else if ¬ hasRoom ∧ isNewResource ∧ !l.setOverflowEmitted then
    (.aggregated, { l with setOverflowEmitted := true })
  else (.silent, l)

/-- The payload of the event that `emit_cap_denied` logs, if it logs one. -/
def capDeniedPayload (id : AgentId) (capId : UInt64) (resource : List Char) (permFlags : UInt8)
    (count : ℕ) : CapDeniedDecision → Option (List UInt8)
  | .silent => none
  | .attributed =>
      let resBytes := (resource.flatMap String.utf8EncodeChar).take 255
      some (agentBytes id ++ leBytes 8 capId.toNat ++
        UInt8.ofNat resBytes.length :: resBytes ++ [permFlags, 0x00])
  | .aggregated =>
      some (agentBytes id ++ leBytes 8 capId.toNat ++ leBytes 4 count ++ [permFlags, 0x01])

/-- `emit_cap_denied`. -/
def Caller.emitCapDenied {D : Type} [ContentHash D] (c : Caller D) (capId : UInt64)
    (resource : List Char) (permFlags : UInt8) : Caller D :=
  let (nowMs, c) := c.now
  let (decision, limiter) := c.data.capDenied.admit nowMs resource
  let c := c.setData fun s => { s with capDenied := limiter }
  match capDeniedPayload c.data.id capId resource permFlags limiter.count decision with
  | none => c
  | some payload =>
      let (nowUs, c) := c.now
      (c.append .runtime
        (c.entry .capabilityDenied c.data.seq nowMs nowUs c.tipHash c.tipHash payload)).2

/-- The agent after a refusal with this limiter, before any event is logged. -/
def Caller.limited {D : Type} (c : Caller D) (limiter : CapDeniedLimiter) : Caller D :=
  c.now.2.setData fun s => { s with capDenied := limiter }

/-- A refusal changes the limiter, and logs at most one event. -/
theorem Caller.emitCapDenied_cases {D : Type} [ContentHash D] (c : Caller D) (capId : UInt64)
    (resource : List Char) (permFlags : UInt8) :
    ∃ limiter, limiter = ( CapDeniedLimiter.admit c.data.capDenied c.now.1 resource).2 ∧
      (c.emitCapDenied capId resource permFlags = c.limited limiter ∨
        ∃ nowMs nowUs payload, c.emitCapDenied capId resource permFlags =
          ((c.limited limiter).now.2.append .runtime
            ((c.limited limiter).now.2.entry .capabilityDenied (c.limited limiter).data.seq nowMs
              nowUs (c.limited limiter).tipHash (c.limited limiter).tipHash payload)).2) := by
  refine ⟨_, rfl, ?_⟩
  simp only [emitCapDenied]
  split
  · exact .inl rfl
  · exact .inr ⟨_, _, _, rfl⟩

end Torpor
