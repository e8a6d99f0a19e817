import Torpor.Actor.Steps

/-!
# The End of an Agent

`run_loop` returns at about ten places: at a crash, at the end of a cycle in which the guest
terminated, at a `Message::Suspend` or `Message::Evict`, at a closed inbox, and at the same two
from the wait for a verdict. What the log then says last about the lifecycle of the agent is
either written on the way out, or was written when the agent terminated, after which neither
the runtime nor `emit` writes an entry that could replace it. The wait for a verdict returns
without writing anything.

## Main results

* `lastRecord`: what the last lifecycle-bearing entry of an agent says.
* `Standing.Open`: what holds of the lifecycle while the loop goes on.
* `endings_recorded`: in a run whose appends succeed, every end of the agent is recorded if and
  only if the loop is never left from the wait for a verdict.
* `suspended_in_wait`: a validation request and a `Message::Suspend`.
-/

namespace Torpor

open ContentHash

variable {D : Type}

/-! ### Records of the lifecycle -/

/-- What a lifecycle-bearing entry says: the state byte of a `Lifecycle`, if its payload has
one, or a crash. -/
inductive LifecycleRecord
  | lifecycle (state : Option UInt8)
  | agentCrash
  deriving DecidableEq, Repr

/-- What an entry says about the lifecycle of its agent, if it bears on it. -/
def LogEntry.lifecycleRecord? (e : LogEntry D) : Option LifecycleRecord :=
  match e.emitPayload with
  | none => none
  | some env =>
      if env.emitType = EmitType.lifecycle.asU8 then some (.lifecycle env.payload.head?)
      else if env.emitType = EmitType.agentCrash.asU8 then some .agentCrash
      else none

/-- What the last lifecycle-bearing entry of an agent says, by the order of the appends. -/
def lastRecord (id : AgentId) (ws : List (Write D)) : Option LifecycleRecord :=
  (((entriesOf ws).filter fun e => e.agentId == id).filterMap
    LogEntry.lifecycleRecord?).getLast?

/-- Entries of the other types do not bear on the lifecycle. -/
theorem LogEntry.HasType.lifecycleRecord? {e : LogEntry D} {t : EmitType} (h : e.HasType t)
    (hlifecycle : t ≠ .lifecycle) (hcrash : t ≠ .agentCrash) : e.lifecycleRecord? = none := by
  obtain ⟨env, henv, ht⟩ := h
  simp [LogEntry.lifecycleRecord?, henv, ht, hlifecycle, hcrash]

theorem lastRecord_append (id : AgentId) (ws ws' : List (Write D)) :
    lastRecord id (ws ++ ws') = (lastRecord id ws').or (lastRecord id ws) := by
  simp only [lastRecord, entriesOf_append, List.filter_append, List.filterMap_append,
    List.getLast?_append]

/-- An entry of the agent replaces what was said before, if it bears on the lifecycle. -/
theorem lastRecord_concat {id : AgentId} {e : LogEntry D} (hid : e.agentId = id)
    (ws : List (Write D)) (writer : Writer) :
    lastRecord id (ws ++ [.append writer e]) = e.lifecycleRecord?.or (lastRecord id ws) := by
  have hlast : lastRecord id [.append writer e] = e.lifecycleRecord? := by
    have hentries : entriesOf [Write.append writer e] = [e] := rfl
    simp only [lastRecord, hentries, hid, beq_self_eq_true, List.filter_cons_of_pos,
      List.filter_nil, List.filterMap_cons, List.filterMap_nil]
    cases e.lifecycleRecord? <;> rfl
  rw [lastRecord_append, hlast]

/-- The entries of others say nothing about the agent. -/
theorem lastRecord_foreign {id : AgentId} {ws' : List (Write D)}
    (h : Actor.foreign id ws' = true) (ws : List (Write D)) :
    lastRecord id (ws ++ ws') = lastRecord id ws := by
  have hnone : (entriesOf ws').filter (fun e => e.agentId == id) = [] := by
    refine List.filter_eq_nil_iff.mpr fun e he => ?_
    simpa using List.all_eq_true.mp h e he
  rw [lastRecord_append, lastRecord, hnone]
  rfl

/-! ### The standing of an agent -/

/-- What decides whether the end of an agent is recorded. -/
structure Standing where
  lifecycle : LifecycleState
  terminationRequested : Bool
  last : Option LifecycleRecord
  deriving DecidableEq, Repr

/-- The lifecycle is an end, and the last record says so. -/
def Standing.Recorded (s : Standing) : Prop :=
  s.lifecycle = .suspended ∧
      s.last = some (.lifecycle (some LifecycleState.suspended.asU8)) ∨
    s.lifecycle = .terminated ∧
      (s.last = some (.lifecycle (some LifecycleState.terminated.asU8)) ∨
        s.last = some .agentCrash)

instance (s : Standing) : Decidable s.Recorded :=
  inferInstanceAs (Decidable (_ ∨ _))

/-- While the loop goes on, the agent is not suspended, and if it has terminated it has asked
for it and nothing was recorded since. -/
structure Standing.Open (s : Standing) : Prop where
  notSuspended : s.lifecycle ≠ .suspended
  terminated : s.lifecycle = .terminated → s.terminationRequested = true ∧
    s.last = some (.lifecycle (some LifecycleState.terminated.asU8))

/-- An agent that has neither been suspended nor terminated. -/
theorem Standing.open_of_lifecycle {s : Standing} (hsuspended : s.lifecycle ≠ .suspended)
    (hterminated : s.lifecycle ≠ .terminated) : s.Open :=
  ⟨hsuspended, fun h => absurd h hterminated⟩

/-- The termination of an agent is recorded. -/
theorem Standing.Open.recorded {s : Standing} (h : s.Open) (hterm : s.lifecycle = .terminated) :
    s.Recorded :=
  .inr ⟨hterm, .inl (h.terminated hterm).2⟩

/-- The standing of a caller. -/
def Caller.standing (c : Caller D) : Standing :=
  { lifecycle := c.data.lifecycle
    terminationRequested := c.data.terminationRequested
    last := lastRecord c.data.id c.world.writes }

/-- The standing of an agent. -/
def Actor.standing (a : Actor D) : Standing := a.caller.standing

/-- From `c` to `c'` the accesses go on. -/
def Caller.Proceeds (c c' : Caller D) : Prop :=
  c'.world.fault = c.world.fault ∧ c.world.ios ≤ c'.world.ios

theorem Caller.Proceeds.refl (c : Caller D) : c.Proceeds c := ⟨rfl, Nat.le_refl _⟩

theorem Caller.Proceeds.trans {c c' c'' : Caller D} (h : c.Proceeds c')
    (h' : c'.Proceeds c'') : c.Proceeds c'' :=
  ⟨h'.1.trans h.1, h.2.trans h'.2⟩

namespace Caller

/-! ### Logging -/

/-- A write other than an entry leaves the standing alone. -/
theorem write_standing {c : Caller D} {w : Write D} (hw : w.entry? = none) :
    (c.write w).2.standing = c.standing := by
  have hlast : lastRecord c.data.id (c.world.writes ++ [w]) =
      lastRecord c.data.id c.world.writes := by
    have hentries : entriesOf [w] = [] := by simp [entriesOf, hw]
    rw [lastRecord_append, lastRecord, hentries]
    rfl
  simp only [write, World.write, standing]
  split_ifs
  · rfl
  · rw [hlast]

variable [ContentHash D]

theorem append_proceeds (c : Caller D) (writer : Writer) (e : LogEntry D) :
    c.Proceeds (c.append writer e).2 :=
  ⟨append_fault c writer e, by rw [append_ios]; omega⟩

/-- An append changes at most the last record. -/
theorem append_standing {c : Caller D} {e : LogEntry D} (hid : e.agentId = c.data.id)
    (writer : Writer) :
    (c.append writer e).2.standing = c.standing ∨
      (c.append writer e).2.standing =
        { c.standing with last := e.lifecycleRecord?.or c.standing.last } := by
  cases hfault : c.world.fault c.world.ios with
  | true =>
      left
      simp [append, write, World.write, hfault, standing]
  | false =>
      right
      simp [append, write, World.write, hfault, standing, setData, lastRecord_concat hid]

/-- An append that succeeds sets the last record, if it bears on the lifecycle. -/
theorem append_standing_of_ok {c : Caller D} {e : LogEntry D} (hid : e.agentId = c.data.id)
    (writer : Writer) (hok : c.world.fault c.world.ios = false) :
    (c.append writer e).2.standing =
      { c.standing with last := e.lifecycleRecord?.or c.standing.last } := by
  simp [append, write, World.write, hok, standing, setData, lastRecord_concat hid]

/-- An entry that does not bear on the lifecycle. -/
theorem append_standing_of_none {c : Caller D} {e : LogEntry D} (hid : e.agentId = c.data.id)
    (writer : Writer) (he : e.lifecycleRecord? = none) :
    (c.append writer e).2.standing = c.standing := by
  rcases append_standing hid writer with h | h
  · exact h
  · rw [h, he]
    rfl

theorem logQuiet_standing (c : Caller D) {t : EmitType} (hlifecycle : t ≠ .lifecycle)
    (hcrash : t ≠ .agentCrash) (payload : List UInt8) :
    (c.logQuiet t payload).2.standing = c.standing :=
  append_standing_of_none rfl _
    (LogEntry.HasType.lifecycleRecord? ⟨_, rfl, rfl⟩ hlifecycle hcrash)

theorem logQuiet_open {c : Caller D} {t : EmitType} (hopen : c.standing.Open)
    (hlifecycle : t ≠ .lifecycle) (hcrash : t ≠ .agentCrash) (payload : List UInt8) :
    (c.logQuiet t payload).2.standing.Open := by
  rwa [logQuiet_standing c hlifecycle hcrash]

/-- A record of the lifecycle that can be logged becomes the last one. -/
theorem logQuiet_lifecycle_of_ok {c : Caller D} (hok : c.world.fault c.world.ios = false)
    (state : UInt8) (payload : List UInt8) :
    (c.logQuiet .lifecycle (state :: payload)).2.standing =
      { c.standing with last := some (.lifecycle (some state)) } :=
  append_standing_of_ok (c := c.now.2.now.2) rfl .runtime hok

theorem logQuiet_agentCrash_of_ok {c : Caller D} (hok : c.world.fault c.world.ios = false)
    (payload : List UInt8) :
    (c.logQuiet .agentCrash payload).2.standing =
      { c.standing with last := some .agentCrash } :=
  append_standing_of_ok (c := c.now.2.now.2) rfl .runtime hok

theorem logLifecycleEvent_proceeds (c : Caller D) (s : LifecycleState) :
    c.Proceeds (c.logLifecycleEvent s) := by
  simp only [logLifecycleEvent]
  split_ifs
  · exact .refl c
  · exact append_proceeds _ _ _
  · exact append_proceeds _ _ _

/-- A logged transition other than to an end keeps the standing open. -/
theorem logLifecycleEvent_open {c : Caller D} {s : LifecycleState} (hopen : c.standing.Open)
    (hsuspended : s ≠ .suspended) (hterminated : s ≠ .terminated) :
    (c.logLifecycleEvent s).standing.Open := by
  by_cases hterm : c.data.lifecycle = .terminated
  · simp only [logLifecycleEvent, hterm, ne_eq, hterminated, not_false_eq_true, and_self,
      if_true]
    exact hopen
  · have hlife : (c.logLifecycleEvent s).standing.lifecycle = s := by
      simp only [standing, logLifecycleEvent_lifecycle, hterm, if_false]
    exact Standing.open_of_lifecycle (by rwa [hlife]) (by rwa [hlife])

/-- A logged transition that succeeds is the last record. -/
theorem logLifecycleEvent_standing_of_ok {c : Caller D} {s : LifecycleState}
    (hlife : c.data.lifecycle = .terminated → s = .terminated)
    (hok : c.world.fault c.world.ios = false) :
    (c.logLifecycleEvent s).standing =
      { c.standing with lifecycle := s, last := some (.lifecycle (some s.asU8)) } := by
  have hguard : ¬ (c.data.lifecycle = .terminated ∧ s ≠ .terminated) := fun h =>
    h.2 (hlife h.1)
  simp only [logLifecycleEvent, hguard, if_false, List.cons_append]
  exact logQuiet_lifecycle_of_ok (c := c.setData fun d => { d with lifecycle := s }) hok _ _

/-- A logged transition takes one access. -/
theorem logLifecycleEvent_ios {c : Caller D} {s : LifecycleState}
    (hlife : c.data.lifecycle = .terminated → s = .terminated) :
    (c.logLifecycleEvent s).world.ios = c.world.ios + 1 := by
  have hguard : ¬ (c.data.lifecycle = .terminated ∧ s ≠ .terminated) := fun h =>
    h.2 (hlife h.1)
  simp only [logLifecycleEvent, hguard, if_false]
  exact append_ios _ _ _

theorem logAgentCrash_ios (c : Caller D) (cause : CrashCause) :
    (c.logAgentCrash cause).world.ios = c.world.ios + 1 :=
  append_ios _ _ _

/-- A crash that can be logged is recorded. -/
theorem logAgentCrash_recorded {c : Caller D} (hok : c.world.fault c.world.ios = false)
    (cause : CrashCause) : (c.logAgentCrash cause).standing.Recorded := by
  have hlast := congrArg Standing.last (logQuiet_agentCrash_of_ok hok
    (cause.asU8 :: agentBytes (c.data.parentAgentId.getD 0) ++
      bytes (c.data.lastAction.getD zero)))
  exact .inr ⟨rfl, .inr hlast⟩

/-! ### Host functions -/

theorem emitCapDenied_standing (c : Caller D) (capId : UInt64) (resource : List Char)
    (permFlags : UInt8) : (c.emitCapDenied capId resource permFlags).standing = c.standing := by
  obtain ⟨limiter, -, heq | ⟨nowMs, nowUs, payload, heq⟩⟩ :=
    c.emitCapDenied_cases capId resource permFlags
  · rw [heq]
    rfl
  · have hstanding : (c.limited limiter).standing = c.standing := rfl
    rw [heq, ← hstanding]
    generalize c.limited limiter = c
    exact append_standing_of_none rfl _
      (LogEntry.HasType.lifecycleRecord? (t := .capabilityDenied) ⟨_, rfl, rfl⟩ (by simp)
        (by simp))

theorem commitBarrier_standing (c : Caller D) : c.commitBarrier.standing = c.standing := by
  have hblock : (c.now.2.now.2.write (.putBlock c.stateBytes)).2.standing = c.standing :=
    write_standing rfl
  simp only [commitBarrier]
  split_ifs
  · rfl
  · exact hblock
  · exact (write_standing rfl).trans hblock
  · exact (write_standing rfl).trans hblock

theorem agentAddCause_standing [LinearOrder D] (c : Caller D) (actionIdPtr : Int32) :
    (c.agentAddCause actionIdPtr).2.standing = c.standing := by
  simp only [agentAddCause]
  split_ifs <;> try rfl
  split
  · rfl
  · split_ifs <;> rfl

omit [ContentHash D] in
theorem writeOut_standing (c : Caller D) (outPtr outMaxLen : Int32) (buf : List UInt8) :
    (c.writeOut outPtr outMaxLen buf).2.standing = c.standing := by
  obtain ⟨memory, h⟩ := c.writeOut_memory outPtr outMaxLen buf
  rw [h]
  rfl

theorem moveTip_standing {c : Caller D} {t : EmitType} (hlifecycle : t ≠ .lifecycle)
    (hcrash : t ≠ .agentCrash) (tip target : D) (nowMs nowUs : ℕ) (payload : List UInt8) :
    (c.moveTip t tip target nowMs nowUs payload).standing = c.standing := by
  have happend : (c.append .runtime
      (c.entry t c.data.seq nowMs nowUs tip target payload)).2.standing = c.standing :=
    append_standing_of_none rfl _
      (LogEntry.HasType.lifecycleRecord? ⟨_, rfl, rfl⟩ hlifecycle hcrash)
  simp only [moveTip]
  split_ifs
  · exact happend
  · exact happend

theorem agentSelfRollback_standing [LinearOrder D] (c : Caller D) (depth : Int32) :
    (c.agentSelfRollback depth).2.standing = c.standing := by
  rcases c.agentSelfRollback_cases depth with
    h | ⟨tip, targetSeq, -, h | ⟨path, nowMs, nowUs, payload, -, h⟩⟩
  · rw [h]
  · rw [h]
    rfl
  · rw [h, moveTip_standing (by simp) (by simp)]
    rfl

theorem agentStoreGet_standing (c : Caller D) (resourcePtr resourceLen : Int32)
    (capId : UInt64) (outPtr : Int32) :
    (c.agentStoreGet resourcePtr resourceLen capId outPtr).2.standing = c.standing := by
  rcases c.agentStoreGet_cases resourcePtr resourceLen capId outPtr with
    ⟨memory, h⟩ | ⟨resource, -, -, h⟩
  · rw [h]
    rfl
  · rw [h, emitCapDenied_standing]

theorem agentStorePut_standing (c : Caller D) (resourcePtr resourceLen : Int32)
    (capId : UInt64) (valPtr valLen : Int32) :
    (c.agentStorePut resourcePtr resourceLen capId valPtr valLen).2.standing = c.standing := by
  rcases c.agentStorePut_cases resourcePtr resourceLen capId valPtr valLen with
    h | ⟨resource, value, -, h | ⟨-, h⟩⟩
  · rw [h]
  · rw [h]
    rfl
  · rw [h, emitCapDenied_standing]

/-- A termination that can be logged is the last record. -/
theorem agentTerminate_open {c : Caller D} (hok : c.world.fault c.world.ios = false) :
    c.agentTerminate.standing.Open := by
  have hlogged := logLifecycleEvent_standing_of_ok (s := .terminated)
    (c := c.setData fun s => { s with terminationRequested := true }) (fun _ => rfl) hok
  rw [agentTerminate, hlogged]
  exact ⟨by simp, fun _ => ⟨rfl, rfl⟩⟩

theorem agentRequestValidation_open {c : Caller D} (hopen : c.standing.Open)
    (riskLevel : Int32) : (c.agentRequestValidation riskLevel).2.standing.Open := by
  have hquiet := logQuiet_open (t := .validationRequest) hopen (by simp) (by simp)
    [UInt8.ofNat (usize riskLevel)]
  simp only [agentRequestValidation]
  split_ifs
  · exact hopen
  · exact hopen
  · exact Standing.open_of_lifecycle (by simp [standing, setData]) (by simp [standing, setData])
  · exact hquiet

theorem emit_lifecycle (c : Caller D) (emitType ptr len : Int32) :
    (c.emit emitType ptr len).data.lifecycle = c.data.lifecycle := by
  have happend := fun e : LogEntry D =>
    congrArg AgentState.lifecycle (append_data c.takePending.now.2 .guest e)
  simp only [emit]
  split
  · rfl
  · split
    · rfl
    · split
      · rfl
      · split
        · rfl
        · split
          · exact happend _
          · exact happend _

/-- A guest may emit entries that look like records of the lifecycle, but not once it has asked
for its termination. -/
theorem emit_open {c : Caller D} (hopen : c.standing.Open) (emitType ptr len : Int32) :
    (c.emit emitType ptr len).standing.Open := by
  by_cases hrequested : c.data.terminationRequested = true
  · simp only [emit, hrequested, if_true]
    exact hopen
  · have hterm : c.standing.lifecycle ≠ .terminated := fun h =>
      hrequested (hopen.terminated h).1
    have hlife : (c.emit emitType ptr len).standing.lifecycle = c.standing.lifecycle :=
      emit_lifecycle c emitType ptr len
    exact Standing.open_of_lifecycle (hlife ▸ hopen.notSuspended) (hlife ▸ hterm)

theorem agentInferFinish_open {c : Caller D} (hopen : c.standing.Open) (call : InferCall D)
    (result : Except InferError InferResponse) (durationMs : ℕ) :
    (c.agentInferFinish call result durationMs).2.standing.Open := by
  have houtcome : ∀ nowResp, (inferOutcome call nowResp durationMs result).2.1 ≠ .lifecycle ∧
      (inferOutcome (D := D) call nowResp durationMs result).2.1 ≠ .agentCrash := by
    intro nowResp
    rcases result with (_ | _ | _ | _) | _ <;> simp [inferOutcome]
  have hrequest : (c.now.2.logInferenceRequest call (slotInfoOf result)).standing = c.standing :=
    append_standing_of_none rfl _
      (LogEntry.HasType.lifecycleRecord? (t := .inferenceRequest) ⟨_, rfl, rfl⟩ (by simp)
        (by simp))
  refine logLifecycleEvent_open ?_ (by simp) (by simp)
  rw [append_standing_of_none rfl _ (LogEntry.HasType.lifecycleRecord? ⟨_, rfl, rfl⟩
    (houtcome _).1 (houtcome _).2)]
  exact hrequest ▸ hopen

/-- The host functions keep the standing open. -/
theorem host_open [LinearOrder D] {c : Caller D} {call : HostCall} (hopen : c.standing.Open)
    (hok : call = .agentTerminate → c.world.fault c.world.ios = false) :
    (c.host call).2.standing.Open := by
  cases call with
  | commitBarrier => exact commitBarrier_standing c ▸ hopen
  | agentAddCause actionIdPtr => exact agentAddCause_standing c actionIdPtr ▸ hopen
  | agentCheckpoint =>
      simp only [host, agentCheckpoint]
      split_ifs
      · exact hopen
      · exact logLifecycleEvent_open hopen (by simp) (by simp)
  | agentTerminate => exact agentTerminate_open (hok rfl)
  | agentIntrospect outPtr outMaxLen => exact writeOut_standing c outPtr outMaxLen _ ▸ hopen
  | agentSelfRollback depth => exact agentSelfRollback_standing c depth ▸ hopen
  | agentSessionInfo outPtr outMaxLen => exact writeOut_standing c outPtr outMaxLen _ ▸ hopen
  | agentRequestValidation riskLevel => exact agentRequestValidation_open hopen riskLevel
  | agentGetVerdict => exact hopen
  | agentCheckCap capId resourcePtr resourceLen permFlags => exact hopen
  | agentStoreGet resourcePtr resourceLen capId outPtr =>
      exact agentStoreGet_standing c resourcePtr resourceLen capId outPtr ▸ hopen
  | agentStorePut resourcePtr resourceLen capId valPtr valLen =>
      exact agentStorePut_standing c resourcePtr resourceLen capId valPtr valLen ▸ hopen
  | emit emitType ptr len => exact emit_open hopen emitType ptr len
  | agentInfer promptPtr promptLen responseBufPtr responseBufCap responseLenOutPtr
      timeoutMsReq =>
      simp only [host]
      split_ifs
      · exact logLifecycleEvent_open (c := c.now.2) hopen (by simp) (by simp)
      · obtain ⟨memory, h⟩ := c.inferRefused_memory promptPtr promptLen responseLenOutPtr
        rw [h]
        exact hopen

/-! ### The end of a cycle and rollbacks -/

theorem logSessionBoundary_open {c : Caller D} (hopen : c.standing.Open) :
    c.logSessionBoundary.standing.Open := by
  refine logLifecycleEvent_open ?_ (by simp) (by simp)
  exact logQuiet_open (t := .sessionBoundary) hopen (by simp) (by simp) _

theorem checkSession_open {c : Caller D} (hopen : c.standing.Open) :
    c.checkSession.standing.Open := by
  simp only [checkSession]
  split_ifs
  · exact logSessionBoundary_open (c := c.now.2) hopen
  · exact hopen
  · exact logSessionBoundary_open hopen
  · exact hopen

theorem processEnd_open {c : Caller D} (hopen : c.standing.Open) :
    c.processEnd.2.standing.Open := by
  rcases c.processEnd_cases with ⟨error, -, h⟩ | ⟨-, -, h⟩ | ⟨-, p, -, hend⟩
  · rw [h]
    exact hopen
  · rw [h]
    exact checkSession_open hopen
  · have hflush : (c.takePending.append .runtime (c.commitEntry p none)).2.standing.Open := by
      rw [append_standing_of_none rfl .runtime rfl]
      exact hopen
    rcases hend with ⟨-, h⟩ | ⟨-, h⟩
    · rw [h]
      exact checkSession_open hflush
    · rw [h]
      exact hflush

theorem logSessionBoundary_proceeds (c : Caller D) : c.Proceeds c.logSessionBoundary := by
  refine Proceeds.trans ?_ (logLifecycleEvent_proceeds _ _)
  exact append_proceeds _ _ _

theorem processEnd_proceeds (c : Caller D) : c.Proceeds c.processEnd.2 := by
  have hcheck : ∀ c : Caller D, c.Proceeds c.checkSession := by
    intro c
    simp only [checkSession]
    split_ifs
    · exact logSessionBoundary_proceeds c.now.2
    · exact .refl c
    · exact logSessionBoundary_proceeds c
    · exact .refl c
  rcases c.processEnd_cases with ⟨error, -, h⟩ | ⟨-, -, h⟩ | ⟨-, p, -, ⟨-, h⟩ | ⟨-, h⟩⟩
  · rw [h]
    exact .refl c
  · rw [h]
    exact hcheck c
  · rw [h]
    exact (append_proceeds c.takePending _ _).trans (hcheck _)
  · rw [h]
    exact append_proceeds c.takePending _ _

theorem recordValidationResponse_open {c : Caller D} (hopen : c.standing.Open)
    (verdict : ValidationVerdict) : (c.recordValidationResponse verdict).standing.Open := by
  simp only [recordValidationResponse]
  split_ifs
  · exact hopen
  · refine logLifecycleEvent_open ?_ (by simp) (by simp)
    exact logQuiet_open (t := .validationResponse)
      (c := c.setData fun s => { s with lastVerdict := some verdict }) hopen (by simp) (by simp) _

theorem revokeForTarget_standing [LinearOrder D] (c : Caller D) (order : List CapabilityId)
    (target : D) : (c.revokeForTarget order target).2.standing = c.standing := by
  simp only [revokeForTarget]
  split_ifs
  · rfl
  · split <;> rfl

theorem rollback_open [LinearOrder D] {c : Caller D} (hopen : c.standing.Open)
    (order : List CapabilityId) (targetSeq : ℕ) :
    (c.rollback order targetSeq).2.standing.Open := by
  rcases c.rollback_cases order targetSeq with h | ⟨tip, -, h | ⟨path, -, h⟩⟩
  · rw [h]
    exact hopen
  · rw [h]
    exact hopen
  · rw [h]
    simp only [rollbackAlong]
    refine logLifecycleEvent_open ?_ (by simp) (by simp)
    rw [moveTip_standing (by simp) (by simp), revokeForTarget_standing]
    exact hopen

/-! ### Appends that succeed -/

/-- The lookups of a rollback: the headers on the path, and that of the target. -/
def rollbackLookups [LinearOrder D] (c : Caller D) (targetSeq : ℕ) : ℕ :=
  match c.data.lastSnapshot with
  | none => 0
  | some tip =>
      match (c.rollbackPath tip targetSeq).1 with
      | .error _ => c.world.store.walkBound
      | .ok _ => c.world.store.walkBound + 1

/-- How often the main loop accesses the databases for a message before it appends
anything. -/
def messageLookups [LinearOrder D] (c : Caller D) : Message D → ℕ
  | .rollback targetSeq => c.rollbackLookups targetSeq
  | _ => 0

/-- How often a host function accesses the databases before it appends anything. -/
def callLookups [LinearOrder D] (c : Caller D) : HostCall → ℕ
  | .commitBarrier => 2
  | .agentAddCause _ => 1
  | .agentSelfRollback _ => c.world.store.walkBound
  | _ => 0

/-- From `c` to `c'` every access after the first `k` succeeds. -/
def SucceedsAfter (c : Caller D) (k : ℕ) (c' : Caller D) : Prop :=
  ∀ n, c.world.ios + k ≤ n → n < c'.world.ios → c.world.fault n = false

omit [ContentHash D] in
theorem SucceedsAfter.before {c c' c'' : Caller D} {k : ℕ} (h : c.SucceedsAfter k c'')
    (hle : c'.world.ios ≤ c''.world.ios) : c.SucceedsAfter k c' :=
  fun n hn hlt => h n hn (Nat.lt_of_lt_of_le hlt hle)

omit [ContentHash D] in
theorem SucceedsAfter.after {c c' c'' : Caller D} (h : c.SucceedsAfter 0 c'')
    (hproceeds : c.Proceeds c') : c'.SucceedsAfter 0 c'' := by
  intro n hn hlt
  rw [hproceeds.1]
  exact h n (hproceeds.2.trans hn) hlt

end Caller

namespace Actor

variable [ContentHash D] [LinearOrder D]

/-- How often a step accesses the databases before it appends anything: its lookups and its
writes into the content store. -/
def lookups (a : Actor D) : Event D → ℕ
  | .recv message _ => if a.isAwaiting then 0 else a.caller.messageLookups message
  | .resume _ => (a.pendingMsg.map a.caller.messageLookups).getD 0
  | .host _ call => a.caller.callLookups call
  | .wake _ _ => 1
  | _ => 0

/-- No append of the step fails. -/
def appendsSucceed (a : Actor D) (ev : Event D) : Bool :=
  (a.step ev).all fun a' => (List.range a'.caller.world.ios).all fun n =>
    decide (n < a.caller.world.ios + a.lookups ev) || !a.caller.world.fault n

theorem appendsSucceed_iff {a a' : Actor D} {ev : Event D} (h : a.step ev = some a') :
    a.appendsSucceed ev = true ↔ a.caller.SucceedsAfter (a.lookups ev) a'.caller := by
  simp only [appendsSucceed, h, Option.all_some, List.all_eq_true, List.mem_range,
    Bool.or_eq_true, decide_eq_true_eq, Bool.not_eq_true', Caller.SucceedsAfter]
  constructor
  · intro hall n hle hlt
    rcases hall n hlt with hn | hn
    · omega
    · exact hn
  · intro hall n hlt
    rcases Nat.lt_or_ge n (a.caller.world.ios + a.lookups ev) with hn | hn
    · exact .inl hn
    · exact .inr (hall n hn hlt)

omit [ContentHash D] [LinearOrder D] in
/-- The loop is left from the wait for a verdict: by a `Message::Suspend`, or because the inbox
is closed. -/
def leavesWait (a : Actor D) : Event D → Bool
  | .recv .suspend _ => a.isAwaiting && a.pendingMsg.isNone
  | .closed => a.isAwaiting && a.pendingMsg.isNone
  | _ => false

omit [ContentHash D] [LinearOrder D] in
/-- `run_loop` has returned. -/
def hasReturned (a : Actor D) : Bool :=
  match a.phase with
  | .stopped => true
  | .evicted _ => true
  | _ => false

omit [ContentHash D] [LinearOrder D] in
/-- If `run_loop` has returned, the last lifecycle-bearing entry of the agent is
`Lifecycle(Suspended)`, `Lifecycle(Terminated)` or `AgentCrash`, and its lifecycle agrees. -/
def EndRecorded (a : Actor D) : Prop := a.hasReturned = true → a.standing.Recorded

/-- In every state of a run an end of the agent is recorded. -/
def EndsRecorded (start : Actor D) (events : List (Event D)) : Prop :=
  ∀ before after a, events = before ++ after → Machine.run step start before = some a →
    a.EndRecorded

/-! ### Steps -/

omit [ContentHash D] [LinearOrder D] in
/-- What holds in a run whose appends succeed: the standing is open until the loop returns, and
then recorded. -/
structure Settled (a : Actor D) : Prop where
  going : a.hasReturned = false → a.standing.Open
  ended : a.EndRecorded

omit [ContentHash D] [LinearOrder D] in
theorem settled_of_open {a : Actor D} (hopen : a.standing.Open) (hgoing : a.hasReturned = false) :
    a.Settled :=
  ⟨fun _ => hopen, fun h => absurd (h.symm.trans hgoing) (by simp)⟩

omit [ContentHash D] [LinearOrder D] in
theorem settled_of_recorded {a : Actor D} (hrecorded : a.standing.Recorded)
    (hended : a.hasReturned = true) : a.Settled :=
  ⟨fun h => absurd (h.symm.trans hended) (by simp), fun _ => hrecorded⟩

omit [LinearOrder D] in
/-- A crash at the end of a step whose appends succeed. -/
theorem crash_settled {c : Caller D} {k : ℕ} {a : Actor D} {cause : CrashCause}
    (hfault : a.caller.world.fault = c.world.fault) (hios : c.world.ios + k ≤ a.caller.world.ios)
    (hok : c.SucceedsAfter k (a.crash cause).caller) : (a.crash cause).Settled := by
  have hlt : a.caller.world.ios < (a.crash cause).caller.world.ios := by
    have hcrash : (a.crash cause).caller.world.ios = a.caller.world.ios + 1 :=
      Caller.logAgentCrash_ios a.caller cause
    omega
  have hcan : a.caller.world.fault a.caller.world.ios = false := by
    rw [hfault]
    exact hok _ hios hlt
  exact settled_of_recorded (Caller.logAgentCrash_recorded hcan cause) rfl

omit [LinearOrder D] in
/-- Entering the guest, or crashing there. -/
theorem enter_settled {c : Caller D} {a : Actor D} (kind : CycleKind) (data : List UInt8)
    (hopen : a.standing.Open) (hproceeds : c.Proceeds a.caller)
    (hok : c.SucceedsAfter 0 (a.enter kind data).caller) : (a.enter kind data).Settled := by
  simp only [enter] at hok ⊢
  split at hok
  · exact crash_settled hproceeds.1 hproceeds.2 hok
  · rename_i c' hstart
    have hstanding : c'.standing = a.caller.standing := by
      simp only [Caller.processStart] at hstart
      split_ifs at hstart
      cases hstart
      rfl
    have hopen' : c'.standing.Open := by rwa [hstanding]
    exact settled_of_open hopen' rfl

omit [ContentHash D] [LinearOrder D] in
theorem leave_settled {a : Actor D} {phase : Phase D} (hrecorded : a.standing.Recorded)
    (hended : (a.leave phase).hasReturned = true) : (a.leave phase).Settled :=
  settled_of_recorded hrecorded hended

omit [ContentHash D] [LinearOrder D] in
/-- The end of a cycle stops an agent that has terminated. -/
theorem afterData_settled {a : Actor D} (hopen : a.standing.Open) : a.afterData.Settled := by
  simp only [afterData]
  split_ifs with hterm
  · exact leave_settled (hopen.recorded hterm) rfl
  · exact settled_of_open hopen rfl

omit [LinearOrder D] in
theorem recordVerdict_settled {a : Actor D} (hopen : a.standing.Open)
    (verdict : ValidationVerdict) : (a.recordVerdict verdict).Settled :=
  afterData_settled (a := a.setCaller (a.caller.recordValidationResponse verdict))
    (Caller.recordValidationResponse_open hopen verdict)

omit [LinearOrder D] in
/-- The natural end of the loop, which an agent that is already suspended or terminated passes
without an entry. -/
theorem exitLoop_settled {a : Actor D} (hstate : a.standing.Open ∨ a.standing.Recorded)
    (hok : a.caller.SucceedsAfter 0 a.exitLoop.caller) : a.exitLoop.Settled := by
  simp only [exitLoop] at hok ⊢
  split_ifs at hok ⊢ with hgoing
  · have hcan : a.caller.world.fault a.caller.world.ios = false := by
      refine hok _ (Nat.le_refl _) ?_
      have hios := Caller.logLifecycleEvent_ios (c := a.caller) (s := .terminated) fun _ => rfl
      simp only [leave, setCaller, hios]
      omega
    refine leave_settled ?_ rfl
    have hlogged := Caller.logLifecycleEvent_standing_of_ok (s := .terminated) (fun _ => rfl) hcan
    simp only [standing, setCaller, hlogged]
    exact .inr ⟨rfl, .inl rfl⟩
  · refine leave_settled ?_ rfl
    rcases hstate with hopen | hrecorded
    · have hterm : a.standing.lifecycle = .terminated := by
        by_contra hterm
        exact hgoing ⟨hopen.notSuspended, hterm⟩
      exact hopen.recorded hterm
    · exact hrecorded

omit [LinearOrder D] in
/-- A suspension that can be logged is recorded, unless the agent has terminated. -/
theorem suspended_recorded {c : Caller D} (hopen : c.standing.Open)
    (hok : c.SucceedsAfter 0 (c.logLifecycleEvent .suspended)) :
    (c.logLifecycleEvent .suspended).standing.Recorded := by
  by_cases hterm : c.data.lifecycle = .terminated
  · have hignored : c.logLifecycleEvent .suspended = c := by
      simp [Caller.logLifecycleEvent, hterm]
    rw [hignored]
    exact hopen.recorded hterm
  · have hcan : c.world.fault c.world.ios = false := by
      refine hok _ (Nat.le_refl _) ?_
      rw [Caller.logLifecycleEvent_ios fun h => absurd h hterm]
      omega
    rw [Caller.logLifecycleEvent_standing_of_ok (fun h => absurd h hterm) hcan]
    exact .inl ⟨rfl, rfl⟩

omit [LinearOrder D] in
theorem exitLoop_proceeds (a : Actor D) : a.caller.Proceeds a.exitLoop.caller := by
  simp only [exitLoop]
  split_ifs
  · exact Caller.logLifecycleEvent_proceeds a.caller _
  · exact .refl a.caller

/-- `Message::Rollback`. -/
theorem handle_rollback_settled {a : Actor D} (hopen : a.standing.Open) (hidle : a.phase = .idle)
    (order : List CapabilityId) (targetSeq : ℕ)
    (hok : a.caller.SucceedsAfter (a.caller.rollbackLookups targetSeq)
      (a.handle order (.rollback targetSeq)).caller) :
    (a.handle order (.rollback targetSeq)).Settled := by
  have hrollback : (a.caller.rollback order targetSeq).2.standing.Open :=
    Caller.rollback_open hopen order targetSeq
  simp only [handle] at hok ⊢
  split at hok
  · exact settled_of_open hrollback (by simp [hasReturned, setCaller, hidle])
  · rename_i cause hcause
    -- The loop crashes only if it finds no path, and has then looked at the headers only.
    have hlookups : (a.caller.rollback order targetSeq).2.world.fault = a.caller.world.fault ∧
        a.caller.world.ios + a.caller.rollbackLookups targetSeq ≤
          (a.caller.rollback order targetSeq).2.world.ios := by
      simp only [Caller.rollback, Caller.rollbackLookups] at hcause ⊢
      split at hcause
      · cases hcause
      · rename_i tip htip
        split_ifs at hcause ⊢ with hseq
        split at hcause
        · rename_i error hpath
          simp only [htip, hpath]
          exact ⟨rfl, Nat.le_refl _⟩
        · cases hcause
    exact crash_settled (a := a.setCaller (a.caller.rollback order targetSeq).2) hlookups.1
      hlookups.2 hok

/-- A message of the main loop. -/
theorem handle_settled {a : Actor D} (hopen : a.standing.Open) (hidle : a.phase = .idle)
    (order : List CapabilityId) (message : Message D)
    (hok : a.caller.SucceedsAfter (a.caller.messageLookups message)
      (a.handle order message).caller) : (a.handle order message).Settled := by
  have hactive : (a.caller.logLifecycleEvent .active).standing.Open :=
    Caller.logLifecycleEvent_open hopen (by simp) (by simp)
  have hproceeds := Caller.logLifecycleEvent_proceeds a.caller .active
  cases message with
  | data payload cause => exact enter_settled .data payload hactive hproceeds hok
  | sessionResume summary => exact enter_settled .sessionResume summary hactive hproceeds hok
  | suspend =>
      have hsuspends := Caller.logLifecycleEvent_proceeds a.caller .suspended
      have hexits := exitLoop_proceeds (a.setCaller (a.caller.logLifecycleEvent .suspended))
      refine exitLoop_settled (.inr ?_) (hok.after hsuspends)
      exact suspended_recorded hopen (hok.before hexits.2)
  | checkpoint =>
      refine settled_of_open ?_ (by simp [hasReturned, handle, setCaller, hidle])
      exact Caller.logLifecycleEvent_open hopen (by simp) (by simp)
  | evict => exact leave_settled (suspended_recorded hopen hok) rfl
  | rollback targetSeq => exact handle_rollback_settled hopen hidle order targetSeq hok
  | validationResponse verdict => exact settled_of_open hopen (by simp [hasReturned, handle, hidle])

omit [LinearOrder D] in
/-- The end of a cycle. -/
theorem endCycle_settled {a : Actor D} (hopen : a.standing.Open) (kind : CycleKind)
    (hok : a.caller.SucceedsAfter 0 (a.endCycle kind).caller) : (a.endCycle kind).Settled := by
  have hend := Caller.processEnd_open hopen
  have hproceeds := a.caller.processEnd_proceeds
  simp only [endCycle] at hok ⊢
  split at hok
  · exact crash_settled hproceeds.1 hproceeds.2 hok
  · cases kind with
    | sessionResume => exact settled_of_open hend rfl
    | data =>
        simp only
        split_ifs
        · exact settled_of_open hend rfl
        · exact afterData_settled hend

/-- A call of the guest. -/
theorem hostCall_settled {a : Actor D} {kind : CycleKind} {call : HostCall}
    (hopen : a.standing.Open) (hphase : a.phase = .guest kind)
    (hok : a.caller.SucceedsAfter (a.caller.callLookups call) (a.hostCall kind call).caller) :
    (a.hostCall kind call).Settled := by
  have hhost : (a.caller.host call).2.standing.Open := by
    refine Caller.host_open hopen ?_
    rintro rfl
    refine hok _ (Nat.le_refl _) ?_
    have hios : (a.caller.host .agentTerminate).2.world.ios = a.caller.world.ios + 1 :=
      Caller.logLifecycleEvent_ios (s := .terminated)
        (c := a.caller.setData fun s => { s with terminationRequested := true }) fun _ => rfl
    exact hios ▸ Nat.lt_succ_self _
  simp only [hostCall]
  split
  · exact settled_of_open hhost (by simp [hasReturned, setCaller, hphase])
  · exact settled_of_open hhost rfl

/-- A step that does not leave the wait for a verdict, and whose appends succeed. -/
theorem Settled.step {a a' : Actor D} {ev : Event D} (ha : a.Settled)
    (hlogged : a.appendsSucceed ev = true) (hstay : a.leavesWait ev = false)
    (h : a.step ev = some a') : a'.Settled := by
  have hok := (appendsSucceed_iff h).mp hlogged
  cases trans_of_step h with
  | start hphase =>
      refine settled_of_open ?_ rfl
      exact Caller.logLifecycleEvent_open (ha.going (by simp [hasReturned, hphase])) (by simp)
        (by simp)
  | @handle message order hphase _ =>
      simp only [lookups, isAwaiting, hphase] at hok
      exact handle_settled (ha.going (by simp [hasReturned, hphase])) hphase order message hok
  | @resume message order hphase hpending =>
      simp only [lookups, hpending, Option.map_some, Option.getD_some] at hok
      exact handle_settled (a := { a with pendingMsg := none })
        (ha.going (by simp [hasReturned, hphase])) hphase order message hok
  | @await message order hphase hpending =>
      have hopen := ha.going (by simp [hasReturned, hphase])
      cases message with
      | suspend => simp [leavesWait, isAwaiting, hphase, hpending] at hstay
      | validationResponse verdict => exact recordVerdict_settled hopen verdict
      | rollback targetSeq =>
          exact recordVerdict_settled (a := { a with pendingMsg := some (.rollback targetSeq) })
            hopen .cancelled
      | _ => exact ha
  | exit hphase _ => exact exitLoop_settled (.inl (ha.going (by simp [hasReturned, hphase]))) hok
  | abandon hphase hpending => simp [leavesWait, isAwaiting, hphase, hpending] at hstay
  | timeout hphase =>
      exact recordVerdict_settled (ha.going (by simp [hasReturned, hphase])) .timeout
  | @host kind memory call hphase _ =>
      exact hostCall_settled (a := a.setMemory memory) (ha.going (by simp [hasReturned, hphase]))
        hphase hok
  | @inferDone kind call result durationMs hphase =>
      refine settled_of_open ?_ rfl
      exact Caller.agentInferFinish_open (ha.going (by simp [hasReturned, hphase])) call result
        durationMs
  | @ret kind memory hphase _ =>
      exact endCycle_settled (a := a.setMemory memory) (ha.going (by simp [hasReturned, hphase]))
        kind hok
  | @trap kind memory interrupt hphase _ =>
      exact crash_settled (c := a.caller) (k := 0) (a := a.setMemory memory) rfl (Nat.le_refl _) hok
  | @wake ev params memory hphase _ =>
      exact settled_of_open (Standing.open_of_lifecycle (by simp [standing, Caller.standing,
        Caller.restore, AgentState.build]) (by simp [standing, Caller.standing, Caller.restore,
        AgentState.build])) rfl
  | @refuse ev params memory hphase _ =>
      have hstanding : (a.setCaller { a.caller with world := (Caller.checkResumeSnapshot
          a.caller.world ev.lastSnapshot).2 }).standing = a.standing := by
        simp [standing, setCaller, Caller.standing]
      exact settled_of_recorded (hstanding.symm ▸ ha.ended (by simp [hasReturned, hphase]))
        (by simp [hasReturned, setCaller, hphase])
  | @others writes capStores kvStores causeHandles hforeign =>
      have hstanding : (a.setCaller { a.caller with world := { a.caller.world with
          writes := a.caller.world.writes ++ writes, capStores, kvStores,
          causeHandles } }).standing = a.standing := by
        simp [standing, setCaller, Caller.standing, lastRecord_foreign hforeign]
      exact ⟨fun hgoing => hstanding.symm ▸ ha.going hgoing,
        fun hended => hstanding.symm ▸ ha.ended hended⟩

/-! ### The wait for a verdict -/

omit [ContentHash D] [LinearOrder D] in
/-- An agent that waits for a verdict has the lifecycle of one. -/
def Waiting (a : Actor D) : Prop :=
  a.isAwaiting = true → a.caller.data.lifecycle = .awaitingValidation

omit [ContentHash D] [LinearOrder D] in
theorem waiting_of_phase {a : Actor D} (h : a.phase ≠ .awaiting) : a.Waiting := by
  intro hawaiting
  cases hphase : a.phase with
  | awaiting => exact absurd hphase h
  | _ => simp [isAwaiting, hphase] at hawaiting

omit [LinearOrder D] in
theorem endCycle_waiting (a : Actor D) (kind : CycleKind) : (a.endCycle kind).Waiting := by
  simp only [endCycle]
  split
  · exact waiting_of_phase (by simp [crash, leave])
  · cases kind with
    | sessionResume => exact waiting_of_phase (by simp)
    | data =>
        simp only
        split_ifs with hlife
        · exact fun _ => hlife
        · refine waiting_of_phase ?_
          rcases afterData_phase (a.setCaller a.caller.processEnd.2) with h | h <;> simp [h]

theorem handle_waiting {a : Actor D} (hidle : a.phase = .idle) (order : List CapabilityId)
    (message : Message D) : (a.handle order message).Waiting := by
  refine waiting_of_phase ?_
  rcases handle_phase a order message with h | h | ⟨kind, h⟩ | h
  · simp [h, hidle]
  · simp [h]
  · simp [h]
  · simp [h]

theorem hostCall_waiting {a : Actor D} {kind : CycleKind} (hphase : a.phase = .guest kind)
    (call : HostCall) : (a.hostCall kind call).Waiting := by
  simp only [hostCall]
  split
  · exact waiting_of_phase (by simp [setCaller, hphase])
  · exact waiting_of_phase (by simp)

omit [LinearOrder D] in
theorem recordVerdict_waiting (a : Actor D) (verdict : ValidationVerdict) :
    (a.recordVerdict verdict).Waiting := by
  refine waiting_of_phase ?_
  rcases afterData_phase (a.setCaller (a.caller.recordValidationResponse verdict)) with h | h
  · simp [recordVerdict, h]
  · simp [recordVerdict, h]

/-- Only the end of a cycle begins a wait, and nothing in it changes the lifecycle. -/
theorem Waiting.step {a a' : Actor D} {ev : Event D} (ha : a.Waiting)
    (h : a.step ev = some a') : a'.Waiting := by
  cases trans_of_step h with
  | start _ => exact waiting_of_phase (by simp)
  | handle hidle _ => exact handle_waiting hidle _ _
  | resume hidle _ => exact handle_waiting (a := { a with pendingMsg := none }) hidle _ _
  | @await message order _ _ =>
      cases message with
      | validationResponse verdict => exact recordVerdict_waiting a verdict
      | rollback targetSeq =>
          exact recordVerdict_waiting { a with pendingMsg := some (.rollback targetSeq) } _
      | suspend => exact waiting_of_phase (by simp [await, leave])
      | _ => exact ha
  | exit _ _ => exact waiting_of_phase (by simp [exitLoop_phase])
  | abandon _ _ => exact waiting_of_phase (by simp [leave])
  | timeout _ => exact recordVerdict_waiting a _
  | @host kind memory call hguest _ => exact hostCall_waiting (a := a.setMemory memory) hguest call
  | inferDone _ => exact waiting_of_phase (by simp)
  | ret _ _ => exact endCycle_waiting _ _
  | trap _ _ => exact waiting_of_phase (by simp [crash, leave])
  | wake _ _ => exact waiting_of_phase (by simp)
  | refuse hevicted _ => exact waiting_of_phase (by simp [setCaller, hevicted])
  | others _ => exact ha

/-- The wait for a verdict is left by these two steps, and they leave the agent as it is. -/
theorem step_of_leavesWait {a : Actor D} {ev : Event D} (h : a.leavesWait ev = true) :
    a.step ev = some (a.leave .stopped) ∧ a.isAwaiting = true := by
  have hwait : a.isAwaiting = true ∧ a.pendingMsg.isNone = true →
      a.phase = .awaiting ∧ a.pendingMsg = none := by
    rintro ⟨hawaiting, hpending⟩
    refine ⟨?_, Option.isNone_iff_eq_none.mp hpending⟩
    cases hphase : a.phase with
    | awaiting => rfl
    | _ => simp [isAwaiting, hphase] at hawaiting
  cases ev with
  | recv message order =>
      cases message with
      | suspend =>
          rw [leavesWait, Bool.and_eq_true] at h
          obtain ⟨hphase, hpending⟩ := hwait h
          exact ⟨by simp [step, hphase, hpending, await], h.1⟩
      | _ => cases h
  | closed =>
      rw [leavesWait, Bool.and_eq_true] at h
      obtain ⟨hphase, hpending⟩ := hwait h
      exact ⟨by simp [step, hphase, hpending], h.1⟩
  | _ => cases h

/-- An agent that is left in the wait for a verdict has no recorded end. -/
theorem Waiting.not_recorded {a a' : Actor D} {ev : Event D} (ha : a.Waiting)
    (hleaves : a.leavesWait ev = true) (h : a.step ev = some a') : ¬ a'.EndRecorded := by
  obtain ⟨hstep, hawaiting⟩ := step_of_leavesWait hleaves
  obtain rfl := Option.some.inj (hstep.symm.trans h)
  intro hend
  have hlife : (a.leave .stopped).standing.lifecycle = .awaitingValidation := ha hawaiting
  rcases hend rfl with ⟨hsuspended, -⟩ | ⟨hterminated, -⟩
  · exact absurd (hlife.symm.trans hsuspended) (by simp)
  · exact absurd (hlife.symm.trans hterminated) (by simp)

/-! ### Runs -/

/-- In every run of an agent whose appends succeed, every end of the agent is recorded, and its
lifecycle agrees, if and only if the loop is never left from the wait for a verdict. -/
theorem endings_recorded {id : AgentId} {p : BuildParams} {memory : List UInt8}
    {world : World D} {events : List (Event D)}
    (hlogged : Machine.Along step (fun a ev => a.appendsSucceed ev = true)
      (Actor.new id p memory world) events) :
    EndsRecorded (Actor.new id p memory world) events ↔
      Machine.Along step (fun a ev => a.leavesWait ev = false) (Actor.new id p memory world)
        events := by
  constructor
  · intro hends
    have hforced : ∀ (s : Actor D) (ev : Event D) (s' : Actor D), s.Waiting →
        s.step ev = some s' → s'.EndRecorded → s.leavesWait ev = false := by
      intro s ev s' hs hstep hend
      by_contra hleaves
      exact hs.not_recorded (by simpa using hleaves) hstep hend
    have hstuck : ∀ (s : Actor D) (ev : Event D), s.step ev = none →
        s.leavesWait ev = false := by
      intro s ev hstep
      by_contra hleaves
      have hleaves' : s.leavesWait ev = true := by simpa using hleaves
      exact absurd (hstep.symm.trans (step_of_leavesWait hleaves').1) (by simp)
    exact Machine.along_of_always (fun _ _ _ hs hstep => hs.step hstep) hforced hstuck
      (waiting_of_phase (by simp [Actor.new])) hends
  · rintro hstay before after a rfl hrun
    have hstart : (Actor.new id p memory world).Settled :=
      settled_of_open (Standing.open_of_lifecycle (by simp [standing, Caller.standing, Actor.new,
        AgentState.build]) (by simp [standing, Caller.standing, Actor.new,
        AgentState.build])) rfl
    have ha : a.Settled := Machine.run_invariant_along
      (fun _ _ _ hs hcond hstep => hs.step hcond.1 hcond.2 hstep) hstart
      (hlogged.and hstay).left hrun
    exact ha.ended

/-- A validation request, its verdict, and a `Message::Suspend`. -/
def suspendedRun : List (Event (List ℕ)) :=
  .start :: dataCycle [.agentRequestValidation 2] ++
    [.recv (.validationResponse .approved) [], .recv .suspend []]

/-- The suspension in it is recorded. -/
theorem endings_recorded_suspendedRun : ∃ a : Actor (List ℕ),
    Machine.run step sampleAgent suspendedRun = some a ∧ a.phase = .stopped ∧
      a.standing.Recorded := by
  have hrun : (Machine.run step sampleAgent suspendedRun).any (fun a =>
      decide (a.phase = .stopped)) = true := by
    decide +kernel
  simp only [Option.any_eq_true, decide_eq_true_eq] at hrun
  obtain ⟨a, ha, hstopped⟩ := hrun
  have hends : EndsRecorded sampleAgent suspendedRun :=
    (endings_recorded (by decide +kernel)).mpr (by decide +kernel)
  exact ⟨a, ha, hstopped, hends suspendedRun [] a (by simp) ha (by simp [hasReturned, hstopped])⟩

/-- A validation request, and a `Message::Suspend` instead of its verdict. -/
def suspendedInWait : List (Event (List ℕ)) :=
  .start :: dataCycle [.agentRequestValidation 2] ++ [.recv .suspend []]

/-- No append fails, but the log says last that the agent is active, and its lifecycle that it
waits. -/
theorem suspended_in_wait :
    Machine.Along step (fun a ev => a.appendsSucceed ev = true) sampleAgent suspendedInWait ∧
      ¬ EndsRecorded sampleAgent suspendedInWait := by
  refine ⟨by decide +kernel, fun hends => ?_⟩
  have hrun : (Machine.run step sampleAgent suspendedInWait).any (fun a =>
      decide (a.phase = .stopped ∧ a.standing.lifecycle = .awaitingValidation ∧
        a.standing.last = some (.lifecycle (some LifecycleState.active.asU8)))) = true := by
    decide +kernel
  simp only [Option.any_eq_true, decide_eq_true_eq] at hrun
  obtain ⟨a, ha, hstopped, hlife, hlast⟩ := hrun
  have hend := hends suspendedInWait [] a (by simp) ha (by simp [hasReturned, hstopped])
  rcases hend with ⟨hsuspended, -⟩ | ⟨hterminated, -⟩
  · exact absurd (hlife.symm.trans hsuspended) (by simp)
  · exact absurd (hlife.symm.trans hterminated) (by simp)

end Actor

end Torpor
