import Torpor.Actor.Steps
import Torpor.Actor.Books
import Torpor.Inference.Pool
import Torpor.Lib.Utf8

/-!
# What the Runtime Lays Out

The payloads that the functions of an agent log, collected as one type: `RuntimeEmission` is an
emission with the values that the runtime encodes in it, and `payload` the bytes.

## Main results

* `ownWrites_laid`: an entry that the runtime writes in a run of an agent, and that has an
  envelope, is one of these emissions or the end of a session. What the backend answers is
  taken as its type has it: the message of an error is a text, and the bytes of a slot stand for
  priority classes.
-/

namespace Torpor

open ContentHash

/-! ### Integers -/

/-- The bytes of a number do not depend on what they do not hold. -/
theorem leBytes_mod (k n : ℕ) : leBytes k (n % 256 ^ k) = leBytes k n := by
  induction k generalizing n with
  | zero => rfl
  | succ k ih =>
      have hbyte : UInt8.ofNat (n % 256 ^ (k + 1)) = UInt8.ofNat n := by
        rw [← UInt8.toNat_inj, UInt8.toNat_ofNat', UInt8.toNat_ofNat', Nat.pow_succ']
        exact Nat.mod_mul_right_mod n 256 (256 ^ k)
      have hrest : n % 256 ^ (k + 1) / 256 = n / 256 % 256 ^ k := by
        rw [Nat.pow_succ', Nat.mod_mul_right_div_self]
      rw [leBytes, hbyte, hrest, ih, leBytes]

theorem leBytes_uint64 (n : ℕ) : leBytes 8 (UInt64.ofNat n).toNat = leBytes 8 n := by
  rw [UInt64.toNat_ofNat']
  exact leBytes_mod 8 n

theorem leBytes_uint32 (n : ℕ) : leBytes 4 (UInt32.ofNat n).toNat = leBytes 4 n := by
  rw [UInt32.toNat_ofNat']
  exact leBytes_mod 4 n

theorem leBytes_uint16 (n : ℕ) : leBytes 2 (UInt16.ofNat n).toNat = leBytes 2 n := by
  rw [UInt16.toNat_ofNat']
  exact leBytes_mod 2 n

/-! ### The layouts -/

/-- The causes of a crash, as the payload and the reader name them. -/
inductive CrashName
  | processFailed | contentStoreBroken | watchdogTrap | hostPanic
  deriving DecidableEq, Repr

/-- The byte of a cause. -/
def CrashName.asU8 : CrashName → UInt8
  | processFailed => 0x01
  | contentStoreBroken => 0x02
  | watchdogTrap => 0x03
  | hostPanic => 0x04

/-- The emissions of the runtime, with the values that it encodes. -/
inductive RuntimeEmission (D : Type)
  | lifecycle (state : LifecycleState) (seq : UInt64) (profile : AgentProfile)
  | selfRollback (depth : UInt8) (targetSeq : UInt64)
  | validationRequest (risk : UInt8)
  | validationResponse (verdict : ValidationVerdict)
  | schedulerRollback (distance : UInt8) (targetSeq : UInt64) (capsInvalidated : UInt8)
  | inferenceRequest (promptHash : D) (timeoutReq timeoutEff : UInt32)
      (slot : Option (PriorityClass × UInt16 × Option PriorityClass))
  | inferenceResponse (responseHash : D) (duration : UInt32) (truncated : Bool)
  | inferenceCancelled (ts : UInt64)
  | inferenceFailed (code : UInt8) (message : List Char)
  | agentCrash (cause : CrashName) (parent : AgentId) (lastAction : D)
  | capabilityDenied (agentId : AgentId) (capId : UInt64) (resource : List Char) (perm : UInt8)
  | capabilityDeniedAggregated (agentId : AgentId) (capId : UInt64) (count : UInt32)
      (perm : UInt8)

namespace RuntimeEmission

variable {D : Type}

/-- The type under which it is logged. -/
def emitType : RuntimeEmission D → EmitType
  | lifecycle .. => .lifecycle
  | selfRollback .. => .selfRollback
  | validationRequest .. => .validationRequest
  | validationResponse .. => .validationResponse
  | schedulerRollback .. => .schedulerRollback
  | inferenceRequest .. => .inferenceRequest
  | inferenceResponse .. => .inferenceResponse
  | inferenceCancelled .. => .inferenceCancelled
  | inferenceFailed .. => .inferenceFailed
  | agentCrash .. => .agentCrash
  | capabilityDenied .. | capabilityDeniedAggregated .. => .capabilityDenied

/-- The bytes of the model that every request names. -/
def modelId : List UInt8 := Utf8.encode "sleepy".toList

/-- The layouts. -/
def payload [ContentHash D] : RuntimeEmission D → List UInt8
  | lifecycle state seq profile =>
      state.asU8 :: leBytes 8 seq.toNat ++ if state = .spawned then [profile.asU8] else []
  | selfRollback depth targetSeq => depth :: leBytes 8 targetSeq.toNat
  | validationRequest risk => [risk]
  | validationResponse verdict => [verdict.asU8]
  | schedulerRollback distance targetSeq capsInvalidated =>
      distance :: leBytes 8 targetSeq.toNat ++ [capsInvalidated]
  | inferenceRequest promptHash timeoutReq timeoutEff slot =>
      ContentHash.bytes promptHash ++ UInt8.ofNat modelId.length :: modelId ++
        leBytes 4 timeoutReq.toNat ++ leBytes 4 timeoutEff.toNat ++
        match slot with
        | none => []
        | some (priority, depth, promotedFrom) =>
            priority.toByte :: leBytes 2 depth.toNat ++
              [(promotedFrom.map PriorityClass.toByte).getD 0xFF]
  | inferenceResponse responseHash duration truncated =>
      ContentHash.bytes responseHash ++ leBytes 4 0 ++ leBytes 4 duration.toNat ++
        [if truncated then 1 else 0]
  | inferenceCancelled ts => leBytes 8 ts.toNat ++ [0x01]
  | inferenceFailed code message =>
      code :: UInt8.ofNat ((Utf8.encode message).take 255).length ::
        (Utf8.encode message).take 255
  | agentCrash cause parent lastAction =>
      cause.asU8 :: agentBytes parent ++ ContentHash.bytes lastAction
  | capabilityDenied agentId capId resource perm =>
      agentBytes agentId ++ leBytes 8 capId.toNat ++
        UInt8.ofNat ((Utf8.encode resource).take 255).length :: (Utf8.encode resource).take 255 ++
        [perm, 0x00]
  | capabilityDeniedAggregated agentId capId count perm =>
      agentBytes agentId ++ leBytes 8 capId.toNat ++ leBytes 4 count.toNat ++ [perm, 0x01]

end RuntimeEmission

variable {D : Type} [ContentHash D]

/-- An entry with an envelope is an emission, or the end of a session. -/
def LogEntry.Laid (e : LogEntry D) : Prop :=
  ∀ env, e.emitPayload = some env → env.emitType = EmitType.sessionBoundary.asU8 ∨
    ∃ em : RuntimeEmission D, env.emitType = em.emitType.asU8 ∧ env.payload = em.payload

/-- What the guest and the scheduler write does not matter. -/
def Write.Laid : Write D → Prop
  | .append .runtime e => e.Laid
  | _ => True

/-- From a journal to one that goes on with such writes. -/
def WritesLaid (ws ws' : List (Write D)) : Prop :=
  ∃ new, ws' = ws ++ new ∧ ∀ w ∈ new, w.Laid

/-! ### Journals -/

namespace WritesLaid

variable {ws ws' ws'' : List (Write D)}

theorem refl (ws : List (Write D)) : WritesLaid ws ws :=
  ⟨[], (List.append_nil ws).symm, by simp⟩

theorem trans (h : WritesLaid ws ws') (h' : WritesLaid ws' ws'') : WritesLaid ws ws'' := by
  obtain ⟨new, rfl, hnew⟩ := h
  obtain ⟨new', rfl, hnew'⟩ := h'
  refine ⟨new ++ new', List.append_assoc ws new new', fun w hw => ?_⟩
  rcases List.mem_append.mp hw with hw | hw
  · exact hnew w hw
  · exact hnew' w hw

end WritesLaid

namespace Caller

/-! ### Logging -/

theorem append_laid {ws : List (Write D)} {c : Caller D} {writer : Writer} {e : LogEntry D}
    (hws : ws = c.world.writes) (hlaid : (Write.append writer e).Laid) :
    WritesLaid ws (c.append writer e).2.world.writes := by
  subst hws
  rcases c.append_books writer e with ⟨-, h⟩ | ⟨-, h⟩
  · exact ⟨[.append writer e], congrArg (fun b => b.trail.writes) h, by simpa using hlaid⟩
  · have hsame : (c.append writer e).2.world.writes = c.world.writes :=
      congrArg (fun b => b.trail.writes) h
    rw [hsame]
    exact .refl _

/-- An entry of an emission. -/
theorem laid_of_emission {e : LogEntry D} (em : RuntimeEmission D) {seq tsUs : ℕ} {id : AgentId}
    (h : e.emitPayload = some (.new em.emitType id seq tsUs em.payload)) :
    (Write.append .runtime e).Laid := by
  intro env henv
  obtain rfl : EmitEnvelope.new em.emitType id seq tsUs em.payload = env :=
    Option.some.inj (h.symm.trans henv)
  exact .inr ⟨em, rfl, rfl⟩

theorem logQuiet_laid (c : Caller D) (em : RuntimeEmission D) :
    WritesLaid c.world.writes (c.logQuiet em.emitType em.payload).2.world.writes :=
  append_laid rfl (laid_of_emission em rfl)

theorem logLifecycleEvent_laid (c : Caller D) (s : LifecycleState) :
    WritesLaid c.world.writes (c.logLifecycleEvent s).world.writes := by
  have hpayload : (RuntimeEmission.lifecycle s (.ofNat c.data.seq) c.data.agentProfile :
      RuntimeEmission D).payload = s.asU8 :: leBytes 8 c.data.seq ++
        if s = .spawned then [c.data.agentProfile.asU8] else [] := by
    rw [RuntimeEmission.payload, leBytes_uint64]
  have hlogged := logQuiet_laid (c.setData fun d => { d with lifecycle := s })
    (.lifecycle s (.ofNat c.data.seq) c.data.agentProfile)
  rw [hpayload] at hlogged
  rw [logLifecycleEvent]
  by_cases hguard : c.data.lifecycle = .terminated ∧ s ≠ .terminated
  · rw [if_pos hguard]
    exact .refl _
  · rw [if_neg hguard]
    exact hlogged


theorem logAgentCrash_laid (c : Caller D) (cause : CrashCause) :
    WritesLaid c.world.writes (c.logAgentCrash cause).world.writes :=
  match cause with
  | .processFailed => logQuiet_laid c (.agentCrash .processFailed _ _)
  | .contentStoreBroken => logQuiet_laid c (.agentCrash .contentStoreBroken _ _)
  | .watchdogTrap => logQuiet_laid c (.agentCrash .watchdogTrap _ _)

theorem recordValidationResponse_laid (c : Caller D) (verdict : ValidationVerdict) :
    WritesLaid c.world.writes (c.recordValidationResponse verdict).world.writes := by
  simp only [recordValidationResponse]
  split_ifs
  · exact .refl _
  · exact (logQuiet_laid (c.setData fun s => { s with lastVerdict := some verdict })
      (.validationResponse verdict)).trans (logLifecycleEvent_laid _ _)

theorem logSessionBoundary_laid (c : Caller D) :
    WritesLaid c.world.writes c.logSessionBoundary.world.writes := by
  refine WritesLaid.trans ?_ (logLifecycleEvent_laid _ _)
  refine append_laid rfl fun env henv => .inl ?_
  rw [← Option.some.inj henv]
  rfl

theorem checkSession_laid (c : Caller D) :
    WritesLaid c.world.writes c.checkSession.world.writes := by
  simp only [checkSession]
  split_ifs
  · exact logSessionBoundary_laid c.now.2
  · exact .refl _
  · exact logSessionBoundary_laid c
  · exact .refl _

/-- What `emit_cap_denied` logs is a refusal of one of the two layouts. -/
theorem capDeniedPayload_emission {id : AgentId} {capId : UInt64} {resource : List Char}
    {permFlags : UInt8} {count : ℕ} {decision : CapDeniedDecision} {payload : List UInt8}
    (h : capDeniedPayload id capId resource permFlags count decision = some payload) :
    ∃ em : RuntimeEmission D, em.emitType = .capabilityDenied ∧ em.payload = payload := by
  cases decision with
  | silent => cases h
  | attributed =>
      refine ⟨.capabilityDenied id capId resource permFlags, rfl, ?_⟩
      rw [← Option.some.inj h]
      rfl
  | aggregated =>
      refine ⟨.capabilityDeniedAggregated id capId (.ofNat count) permFlags, rfl, ?_⟩
      rw [← Option.some.inj h, RuntimeEmission.payload, leBytes_uint32]

theorem emitCapDenied_laid (c : Caller D) (capId : UInt64) (resource : List Char)
    (permFlags : UInt8) :
    WritesLaid c.world.writes (c.emitCapDenied capId resource permFlags).world.writes := by
  simp only [emitCapDenied]
  split
  · exact .refl _
  · rename_i payload hpayload
    obtain ⟨em, htype, rfl⟩ := capDeniedPayload_emission (D := D) hpayload
    rw [← htype]
    exact append_laid rfl (laid_of_emission em rfl)

/-! ### Host functions -/

theorem moveTip_laid {ws : List (Write D)} {c : Caller D} (hws : ws = c.world.writes)
    (em : RuntimeEmission D) {tip target : D} {nowMs nowUs : ℕ} :
    WritesLaid ws (c.moveTip em.emitType tip target nowMs nowUs em.payload).world.writes := by
  have happend : WritesLaid ws (c.append .runtime
      (c.entry em.emitType c.data.seq nowMs nowUs tip target em.payload)).2.world.writes :=
    append_laid hws (laid_of_emission em rfl)
  simp only [moveTip]
  split_ifs
  · exact happend
  · exact happend

theorem agentSelfRollback_laid [LinearOrder D] (c : Caller D) (depth : Int32) :
    WritesLaid c.world.writes (c.agentSelfRollback depth).2.world.writes := by
  simp only [agentSelfRollback]
  split
  · exact .refl _
  split
  · exact .refl _
  split
  · exact .refl _
  split
  · exact .refl _
  split
  · exact .refl _
  have hpayload : (RuntimeEmission.selfRollback (.ofNat (usize depth))
      (.ofNat (c.data.seq - 1 - usize depth)) : RuntimeEmission D).payload =
        UInt8.ofNat (usize depth) :: leBytes 8 (c.data.seq - 1 - usize depth) := by
    rw [RuntimeEmission.payload, leBytes_uint64]
  rw [← hpayload]
  exact moveTip_laid rfl (.selfRollback _ _)

theorem agentRequestValidation_laid (c : Caller D) (riskLevel : Int32) :
    WritesLaid c.world.writes (c.agentRequestValidation riskLevel).2.world.writes := by
  have hquiet := logQuiet_laid c (.validationRequest (.ofNat (usize riskLevel)))
  simp only [agentRequestValidation]
  split_ifs
  · exact .refl _
  · exact .refl _
  · exact hquiet
  · exact hquiet

theorem agentCheckpoint_laid (c : Caller D) :
    WritesLaid c.world.writes c.agentCheckpoint.2.world.writes := by
  simp only [agentCheckpoint]
  split_ifs
  · exact .refl _
  · exact logLifecycleEvent_laid c _

theorem agentStoreGet_laid (c : Caller D) (resourcePtr resourceLen : Int32) (capId : UInt64)
    (outPtr : Int32) :
    WritesLaid c.world.writes
      (c.agentStoreGet resourcePtr resourceLen capId outPtr).2.world.writes := by
  rcases c.agentStoreGet_cases resourcePtr resourceLen capId outPtr with
    ⟨memory, h⟩ | ⟨resource, -, -, h⟩
  · rw [h]
    exact .refl _
  · rw [h]
    exact emitCapDenied_laid c _ _ _

theorem agentStorePut_laid (c : Caller D) (resourcePtr resourceLen : Int32) (capId : UInt64)
    (valPtr valLen : Int32) :
    WritesLaid c.world.writes
      (c.agentStorePut resourcePtr resourceLen capId valPtr valLen).2.world.writes := by
  rcases c.agentStorePut_cases resourcePtr resourceLen capId valPtr valLen with
    h | ⟨resource, value, -, h | ⟨-, h⟩⟩
  · rw [h]
    exact .refl _
  · rw [h]
    exact .refl _
  · rw [h]
    exact emitCapDenied_laid c _ _ _

/-- A commit writes into the content store only. -/
theorem commitBarrier_laid (c : Caller D) :
    WritesLaid c.world.writes c.commitBarrier.world.writes := by
  rcases c.commitBarrier_cases with ⟨-, ws, hws, h⟩ | ⟨-, p, -, h⟩
  · refine ⟨ws, congrArg (fun b => b.trail.writes) h, ?_⟩
    rcases hws with rfl | rfl
    · simp
    · simp [Write.Laid]
  · refine ⟨_, congrArg (fun b => b.trail.writes) h, ?_⟩
    simp [Write.Laid]

theorem emit_laid (c : Caller D) (emitType ptr len : Int32) :
    WritesLaid c.world.writes (c.emit emitType ptr len).world.writes := by
  simp only [emit]
  split
  · exact .refl _
  split
  · exact .refl _
  split
  · exact .refl _
  split
  · exact .refl _
  rename_i p hp hbounds
  split
  · exact append_laid rfl trivial
  · exact append_laid rfl trivial

omit [ContentHash D] in
theorem writeOut_writes (c : Caller D) (outPtr outMaxLen : Int32) (buf : List UInt8) :
    (c.writeOut outPtr outMaxLen buf).2.world.writes = c.world.writes :=
  congrArg (fun b => b.trail.writes) (writeOut_books c outPtr outMaxLen buf)

theorem agentAddCause_writes [LinearOrder D] (c : Caller D) (actionIdPtr : Int32) :
    (c.agentAddCause actionIdPtr).2.world.writes = c.world.writes :=
  congrArg Ledger.writes (agentAddCause_ledger c actionIdPtr)

theorem host_laid [LinearOrder D] (c : Caller D) (call : HostCall) :
    WritesLaid c.world.writes (c.host call).2.world.writes := by
  cases call with
  | commitBarrier => exact commitBarrier_laid c
  | emit emitType ptr len => exact emit_laid c emitType ptr len
  | agentAddCause actionIdPtr =>
      rw [host, agentAddCause_writes]
      exact .refl _
  | agentTerminate =>
      exact logLifecycleEvent_laid (c.setData fun s => { s with terminationRequested := true }) _
  | agentCheckpoint => exact agentCheckpoint_laid c
  | agentIntrospect outPtr outMaxLen =>
      rw [host, agentIntrospect, writeOut_writes]
      exact .refl _
  | agentSelfRollback depth => exact agentSelfRollback_laid c depth
  | agentSessionInfo outPtr outMaxLen =>
      rw [host, agentSessionInfo, writeOut_writes]
      exact .refl _
  | agentRequestValidation riskLevel => exact agentRequestValidation_laid c riskLevel
  | agentGetVerdict => exact .refl _
  | agentCheckCap capId resourcePtr resourceLen permFlags => exact .refl _
  | agentStoreGet resourcePtr resourceLen capId outPtr =>
      exact agentStoreGet_laid c resourcePtr resourceLen capId outPtr
  | agentStorePut resourcePtr resourceLen capId valPtr valLen =>
      exact agentStorePut_laid c resourcePtr resourceLen capId valPtr valLen
  | agentInfer promptPtr promptLen responseBufPtr responseBufCap responseLenOutPtr
      timeoutMsReq =>
      rw [host]
      split_ifs
      · exact logLifecycleEvent_laid c.now.2 _
      · obtain ⟨memory, h⟩ := c.inferRefused_memory promptPtr promptLen responseLenOutPtr
        rw [h]
        exact .refl _

/-! ### The answer of the backend -/

end Caller

/-- The bytes stand for priority classes. -/
def SlotAcquiredInfo.Typed (si : SlotAcquiredInfo) : Prop :=
  ∃ (c : PriorityClass) (p : Option PriorityClass),
    si.priorityClass = c.toByte ∧ si.promotedFrom = p.map PriorityClass.toByte

/-- As it comes from an entry of the queue. -/
theorem QueueEntry.slotInfo_typed (e : QueueEntry) : e.slotInfo.Typed := by
  refine ⟨e.originalClass, if e.promoted then some e.originalClass else none, rfl, ?_⟩
  rw [slotInfo]
  split_ifs <;> rfl

/-- The message of an error is a text, and the bytes of a slot stand for priority classes. -/
def InferTyped : Except InferError InferResponse → Prop
  | .ok resp => ∀ si, resp.slotInfo = some si → si.Typed
  | .error (.backendError _ message) => ∃ text, message = Utf8.encode text
  | .error _ => True

/-- The backend answers as its type has it. -/
def Event.Typed : Event D → Prop
  | .inferDone result _ => InferTyped result
  | _ => True

namespace Caller

theorem inferenceRequestPayload_emission (call : InferCall D)
    {slotInfo : Option SlotAcquiredInfo} (hslot : ∀ si, slotInfo = some si → si.Typed) :
    ∃ em : RuntimeEmission D, em.emitType = .inferenceRequest ∧
      em.payload = inferenceRequestPayload call slotInfo := by
  cases slotInfo with
  | none =>
      refine ⟨.inferenceRequest (dataHash call.prompt) (.ofNat call.timeoutMsReq)
        (.ofNat call.timeoutEff) none, rfl, ?_⟩
      rw [RuntimeEmission.payload, leBytes_uint32, leBytes_uint32]
      rfl
  | some si =>
      obtain ⟨c, p, hclass, hpromoted⟩ := hslot si rfl
      refine ⟨.inferenceRequest (dataHash call.prompt) (.ofNat call.timeoutMsReq)
        (.ofNat call.timeoutEff) (some (c, .ofNat si.queueDepthAtAdmission, p)), rfl, ?_⟩
      simp only [RuntimeEmission.payload, leBytes_uint32, leBytes_uint16,
        inferenceRequestPayload, hclass, hpromoted]
      rfl

theorem inferOutcome_emission (call : InferCall D) (nowResp durationMs : ℕ)
    {result : Except InferError InferResponse} (htyped : InferTyped result) :
    ∃ em : RuntimeEmission D,
      em.emitType = (inferOutcome call nowResp durationMs result).2.1 ∧
        em.payload = (inferOutcome call nowResp durationMs result).2.2.1 := by
  rcases result with (_ | _ | ⟨code, message⟩ | _) | resp
  · refine ⟨.inferenceCancelled (.ofNat nowResp), rfl, ?_⟩
    rw [RuntimeEmission.payload, leBytes_uint64]
    rfl
  · exact ⟨.inferenceFailed 0x01 "timeout".toList, rfl, rfl⟩
  · obtain ⟨text, rfl⟩ := htyped
    exact ⟨.inferenceFailed code text, rfl, rfl⟩
  · exact ⟨.inferenceFailed 0x20 "no slot".toList, rfl, rfl⟩
  · refine ⟨.inferenceResponse (dataHash resp.text) (.ofNat durationMs)
      (decide (call.responseBufCap < resp.text.length)), rfl, ?_⟩
    simp only [RuntimeEmission.payload, leBytes_uint32, inferOutcome, decide_eq_true_eq]

theorem slotInfoOf_typed {result : Except InferError InferResponse} (htyped : InferTyped result)
    (si : SlotAcquiredInfo) (h : slotInfoOf result = some si) : si.Typed := by
  cases result with
  | error e => cases h
  | ok resp => exact htyped si h

theorem agentInferFinish_laid (c : Caller D) (call : InferCall D)
    {result : Except InferError InferResponse} (durationMs : ℕ) (htyped : InferTyped result) :
    WritesLaid c.world.writes (c.agentInferFinish call result durationMs).2.world.writes := by
  obtain ⟨em, htype, hpayload⟩ :=
    inferenceRequestPayload_emission call (slotInfoOf_typed htyped)
  obtain ⟨em', htype', hpayload'⟩ := inferOutcome_emission call c.now.1 durationMs htyped
  have hrequest : WritesLaid c.world.writes
      (c.now.2.logInferenceRequest call (slotInfoOf result)).world.writes := by
    rw [logInferenceRequest, ← hpayload, ← htype]
    exact append_laid rfl (laid_of_emission em rfl)
  simp only [agentInferFinish]
  rw [← htype', ← hpayload']
  refine WritesLaid.trans ?_ (logLifecycleEvent_laid _ _)
  exact hrequest.trans (append_laid rfl (laid_of_emission em' rfl))

/-! ### The loop -/

theorem processEnd_laid (c : Caller D) :
    WritesLaid c.world.writes c.processEnd.2.world.writes := by
  have hcommit : ∀ (p : PendingCommit D), WritesLaid c.world.writes
      (c.takePending.append .runtime (c.commitEntry p none)).2.world.writes :=
    fun p => append_laid rfl fun env henv => by cases henv
  rcases c.processEnd_cases with
    ⟨error, -, h⟩ | ⟨-, -, h⟩ | ⟨-, p, -, ⟨-, h⟩ | ⟨-, h⟩⟩
  · rw [h]
    exact .refl _
  · rw [h]
    exact checkSession_laid c
  · rw [h]
    exact (hcommit p).trans (checkSession_laid _)
  · rw [h]
    exact hcommit p

variable [LinearOrder D]

theorem revokeForTarget_writes (c : Caller D) (order : List CapabilityId) (target : D) :
    (c.revokeForTarget order target).2.world.writes = c.world.writes :=
  congrArg Ledger.writes (revokeForTarget_ledger c order target)

omit [LinearOrder D] in
theorem rollbackPayload_emission (distance targetSeq capsInvalidated : ℕ) :
    (RuntimeEmission.schedulerRollback (.ofNat (min distance 255)) (.ofNat targetSeq)
      (.ofNat (min capsInvalidated 255)) : RuntimeEmission D).payload =
        rollbackPayload distance targetSeq capsInvalidated := by
  rw [RuntimeEmission.payload, leBytes_uint64, rollbackPayload]

theorem checkResumeSnapshot_writes (w : World D) (lastSnapshot : Option D) :
    (checkResumeSnapshot w lastSnapshot).2.writes = w.writes := by
  cases lastSnapshot <;> rfl

theorem rollbackAlong_laid {ws : List (Write D)} {c : Caller D} (hws : ws = c.world.writes)
    (order : List CapabilityId) (targetSeq : ℕ) (tip : D) (path : List D) :
    WritesLaid ws (c.rollbackAlong order targetSeq tip path).world.writes := by
  simp only [rollbackAlong]
  refine WritesLaid.trans ?_ (logLifecycleEvent_laid _ _)
  rw [← rollbackPayload_emission (D := D)]
  refine moveTip_laid ?_ (.schedulerRollback _ _ _)
  rw [revokeForTarget_writes, hws]
  rfl

theorem rollback_laid (c : Caller D) (order : List CapabilityId) (targetSeq : ℕ) :
    WritesLaid c.world.writes (c.rollback order targetSeq).2.world.writes := by
  rcases c.rollback_cases order targetSeq with h | ⟨tip, -, h | ⟨path, -, h⟩⟩
  · rw [h]
    exact .refl _
  · rw [h]
    exact .refl _
  · rw [h]
    exact rollbackAlong_laid rfl order targetSeq tip path

end Caller

namespace Actor

variable {a a' : Actor D}

theorem crash_laid (a : Actor D) (cause : CrashCause) :
    WritesLaid a.caller.world.writes (a.crash cause).caller.world.writes :=
  Caller.logAgentCrash_laid a.caller cause

theorem exitLoop_laid (a : Actor D) :
    WritesLaid a.caller.world.writes a.exitLoop.caller.world.writes := by
  simp only [exitLoop]
  split_ifs
  · exact Caller.logLifecycleEvent_laid a.caller _
  · exact .refl _

theorem enter_laid (a : Actor D) (kind : CycleKind) (data : List UInt8) :
    WritesLaid a.caller.world.writes (a.enter kind data).caller.world.writes := by
  simp only [enter, Caller.processStart]
  split_ifs
  · exact crash_laid a _
  · exact crash_laid a _
  · exact .refl _

omit [ContentHash D] in
theorem afterData_writes (a : Actor D) :
    a.afterData.caller.world.writes = a.caller.world.writes :=
  congrArg (fun b => b.trail.writes) (afterData_books a)

theorem endCycle_laid (a : Actor D) (kind : CycleKind) :
    WritesLaid a.caller.world.writes (a.endCycle kind).caller.world.writes := by
  refine WritesLaid.trans (Caller.processEnd_laid a.caller) ?_
  rcases a.endCycle_cases kind with ⟨cause, h⟩ | ⟨phase, -, h⟩ | h
  · rw [h]
    exact crash_laid (a.setCaller a.caller.processEnd.2) cause
  · rw [h]
    exact .refl _
  · rw [h]
    exact .refl _

theorem recordVerdict_laid (a : Actor D) (verdict : ValidationVerdict) :
    WritesLaid a.caller.world.writes (a.recordVerdict verdict).caller.world.writes := by
  rw [recordVerdict, afterData_writes]
  exact Caller.recordValidationResponse_laid a.caller verdict

theorem await_laid (a : Actor D) (message : Message D) :
    WritesLaid a.caller.world.writes (a.await message).caller.world.writes := by
  cases message with
  | validationResponse verdict => exact recordVerdict_laid a verdict
  | rollback targetSeq =>
      exact recordVerdict_laid { a with pendingMsg := some (.rollback targetSeq) } .cancelled
  | _ => exact .refl _

variable [LinearOrder D]

theorem hostCall_laid (a : Actor D) (kind : CycleKind) (call : HostCall) :
    WritesLaid a.caller.world.writes (a.hostCall kind call).caller.world.writes := by
  have hbooks := congrArg (fun b => b.trail.writes) (hostCall_books a kind call)
  rw [show (a.hostCall kind call).caller.world.writes = (a.caller.host call).2.world.writes from
    hbooks]
  exact Caller.host_laid a.caller call

theorem handle_laid (a : Actor D) (order : List CapabilityId) (message : Message D) :
    WritesLaid a.caller.world.writes (a.handle order message).caller.world.writes := by
  cases message with
  | data payload cause =>
      exact (Caller.logLifecycleEvent_laid a.caller _).trans (enter_laid _ _ _)
  | suspend => exact (Caller.logLifecycleEvent_laid a.caller _).trans (exitLoop_laid _)
  | checkpoint => exact Caller.logLifecycleEvent_laid a.caller _
  | evict => exact Caller.logLifecycleEvent_laid a.caller _
  | rollback targetSeq =>
      have hrollback := Caller.rollback_laid a.caller order targetSeq
      simp only [handle]
      split
      · exact hrollback
      · exact hrollback.trans (crash_laid _ _)
  | validationResponse verdict => exact .refl _
  | sessionResume summary =>
      exact (Caller.logLifecycleEvent_laid a.caller _).trans (enter_laid _ _ _)

/-- What the runtime writes in a step is laid out so. -/
theorem written_laid {ev : Event D} (htyped : ev.Typed) (h : a.step ev = some a') :
    ∀ w ∈ a.written ev a', w.Laid := by
  have hwritten : (∀ ws c k h, ev ≠ .others ws c k h) →
      WritesLaid a.caller.world.writes a'.caller.world.writes →
        ∀ w ∈ a.written ev a', w.Laid := by
    rintro hothers ⟨ws, hws, hlaid⟩
    rwa [written_eq hothers hws]
  cases trans_of_step h with
  | start hphase => exact hwritten (by simp) (Caller.logLifecycleEvent_laid a.caller _)
  | handle hphase hpending => exact hwritten (by simp) (handle_laid a _ _)
  | await hphase hpending => exact hwritten (by simp) (await_laid a _)
  | resume hphase hpending =>
      exact hwritten (by simp) (handle_laid { a with pendingMsg := none } _ _)
  | exit hphase hpending => exact hwritten (by simp) (exitLoop_laid a)
  | abandon hphase hpending => exact hwritten (by simp) (.refl _)
  | timeout hphase => exact hwritten (by simp) (recordVerdict_laid a _)
  | host hphase hmemory => exact hwritten (by simp) (hostCall_laid (a.setMemory _) _ _)
  | inferDone hphase =>
      exact hwritten (by simp) (Caller.agentInferFinish_laid a.caller _ _ htyped)
  | ret hphase hmemory => exact hwritten (by simp) (endCycle_laid (a.setMemory _) _)
  | trap hphase hmemory => exact hwritten (by simp) (crash_laid (a.setMemory _) _)
  | wake hphase hpresent =>
      refine hwritten (by simp) ?_
      rw [Caller.restore, Caller.allocate, Caller.checkResumeSnapshot_writes]
      exact .refl _
  | refuse hphase habsent =>
      refine hwritten (by simp) ?_
      rw [setCaller, Caller.checkResumeSnapshot_writes]
      exact .refl _
  | others hforeign => simp [written]

/-- **The layouts**: an entry of the runtime with an envelope is an emission or the end of a
session, in every run of an agent. -/
theorem ownWrites_laid {evs : List (Event D)} (hrun : Machine.run step a evs = some a')
    (htyped : ∀ ev ∈ evs, ev.Typed) : ∀ w ∈ a.ownWrites evs, w.Laid := by
  have hstep : ∀ os (b : Actor D) ev b', (∀ w ∈ os, Write.Laid w) → ev.Typed →
      b.step ev = some b' → ∀ w ∈ os ++ b.written ev b', Write.Laid w := by
    intro os b ev b' hos hev h w hw
    rcases List.mem_append.mp hw with hw | hw
    · exact hos w hw
    · exact written_laid hev h w hw
  have halong : Machine.Along step (fun (_ : Actor D) (ev : Event D) => ev.Typed) a evs :=
    Machine.along_of_mem (fun ev hev _ => htyped ev hev) a
  have hnil : ∀ w ∈ ([] : List (Write D)), w.Laid := by simp
  have hall := Machine.run_outputs_invariant hstep hnil halong hrun
  exact hall

end Actor

end Torpor
