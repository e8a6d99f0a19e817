import Torpor.Actor.Books
import Torpor.Actor.Validation

/-!
# Session Accounting

`log_session_boundary` logs the number of the session and of its commits, and starts the next
one. The number of commits is a difference of two counters: `seq`, which a commit advances, and
`session_start_seq`, which a boundary sets to it. An agent that is restored after an eviction
gets its `seq` back, but the number of its session and the start of it are those of a new
agent: it counts from its first spawn on, whatever boundaries it has logged.

## Main results

* `SessionCount.step`: how commits and boundaries have to follow each other.
* `Actor.SessionStep`: what a step can do to the counters and to the journal.
* `sessions_accounted`: in a run in which no agent is restored after a boundary, no boundary
  fails to be logged and no guest emits one, the boundaries account for the commits, and one is
  logged exactly at the end of a cycle that reaches a bound.
* `restored_session_miscounted`: a boundary, an eviction, a wake, and the next boundary.
-/

namespace Torpor

open ContentHash

variable {D : Type}

/-! ### Accounting -/

/-- What a session is accounted from: a `commit_barrier` that took effect, and a
`SessionBoundary` with its payload. -/
inductive SessionMark
  | commit
  | boundary (payload : List UInt8)
  deriving DecidableEq, Repr

/-- The payload of a `SessionBoundary`. -/
def boundaryPayload (sessionId actionCount : ℕ) : List UInt8 :=
  leBytes 8 sessionId ++ leBytes 8 actionCount

/-- The number of the current session, and of the commits in it. -/
structure SessionCount where
  session : ℕ
  actions : ℕ
  deriving DecidableEq, Repr

/-- A commit counts; a boundary carries the number of the session and of its commits, and begins
the next session. -/
def SessionCount.step (s : SessionCount) : SessionMark → Option SessionCount
  | .commit => some { s with actions := s.actions + 1 }
  | .boundary payload =>
      if payload = boundaryPayload s.session s.actions then
        some { session := s.session + 1, actions := 0 }
      else none

/-- What a write is to the accounting: `commit_barrier` alone puts snapshots. -/
def Write.sessionMark? : Write D → Option SessionMark
  | .putBlock _ => none
  | .putSnapshot _ => some .commit
  | .append _ e =>
      match e.emitPayload with
      | none => none
      | some env =>
          if env.emitType = EmitType.sessionBoundary.asU8 then some (.boundary env.payload)
          else none

/-- The marks of a list of writes. -/
def sessionMarks (ws : List (Write D)) : List SessionMark := ws.filterMap Write.sessionMark?

@[simp] theorem sessionMarks_append (ws ws' : List (Write D)) :
    sessionMarks (ws ++ ws') = sessionMarks ws ++ sessionMarks ws' :=
  List.filterMap_append

/-- Entries of other types are no marks. -/
theorem LogEntry.HasType.sessionMark? {e : LogEntry D} {t : EmitType} (h : e.HasType t)
    (ht : t ≠ .sessionBoundary) (writer : Writer) :
    (Write.append writer e).sessionMark? = none := by
  obtain ⟨env, henv, htype⟩ := h
  simp [Write.sessionMark?, henv, htype, ht]

/-! ### Counters -/

/-- The counters of an agent, and the marks in the journal. -/
structure Tally where
  seq : ℕ
  sessionId : ℕ
  sessionStartSeq : ℕ
  marks : List SessionMark
  deriving DecidableEq, Repr

/-- The tally of a caller. -/
def Caller.tally (c : Caller D) : Tally :=
  { seq := c.data.seq
    sessionId := c.data.sessionId
    sessionStartSeq := c.data.sessionStartSeq
    marks := sessionMarks c.world.writes }

/-- The tally of an agent. -/
def Actor.tally (a : Actor D) : Tally := a.caller.tally

/-- The tally after a commit. -/
def Tally.commit (t : Tally) : Tally :=
  { t with seq := t.seq + 1, marks := t.marks ++ [.commit] }

/-- The tally after the start of a new session. -/
def Tally.nextSession (t : Tally) : Tally :=
  { t with sessionId := t.sessionId + 1, sessionStartSeq := t.seq }

/-- The tally with a further boundary in the journal. -/
def Tally.mark (t : Tally) (payload : List UInt8) : Tally :=
  { t with marks := t.marks ++ [.boundary payload] }

/-- The payload of the boundary that is due. -/
def Tally.payload (t : Tally) : List UInt8 :=
  boundaryPayload t.sessionId (t.seq - t.sessionStartSeq)

/-- The session that the counters stand for. -/
def Tally.count (t : Tally) : SessionCount :=
  { session := t.sessionId, actions := t.seq - t.sessionStartSeq }

/-- What the counters mean: a session does not start in the future, and the first one starts
with the agent. -/
structure Tally.Counting (t : Tally) : Prop where
  started : t.sessionStartSeq ≤ t.seq
  numbered : 1 ≤ t.sessionId
  first : t.sessionId = 1 → t.sessionStartSeq = 0

/-- A commit counts. -/
theorem Tally.Counting.commit {t : Tally} (h : t.Counting) : t.commit.Counting ∧
    Machine.run SessionCount.step t.count [.commit] = some t.commit.count := by
  have hstarted := h.started
  constructor
  · exact ⟨hstarted.trans (Nat.le_succ _), h.numbered, h.first⟩
  · have hactions : t.seq + 1 - t.sessionStartSeq = t.seq - t.sessionStartSeq + 1 := by omega
    simp [Machine.run, SessionCount.step, Tally.count, Tally.commit, hactions]

/-- The boundary that is due begins the next session. -/
theorem Tally.Counting.nextSession {t : Tally} (h : t.Counting) (payload : List UInt8) :
    (t.mark payload).nextSession.Counting ∧
      Machine.run SessionCount.step t.count [.boundary t.payload] =
        some (t.mark payload).nextSession.count := by
  have hnumbered := h.numbered
  constructor
  · exact ⟨Nat.le_refl _, Nat.le_succ_of_le hnumbered, fun hone => by
      simp only [Tally.nextSession, Tally.mark] at hone
      omega⟩
  · simp [Machine.run, SessionCount.step, Tally.count, Tally.payload, Tally.nextSession,
      Tally.mark]

/-- In the first session nothing is lost when the number and the start of the session are those
of a new agent. -/
theorem Tally.Counting.restore {t : Tally} (h : t.Counting) (hfirst : t.sessionId = 1) :
    { t with sessionId := 1, sessionStartSeq := 0 } = t := by
  have hstart := h.first hfirst
  cases t
  simp only at hfirst hstart
  subst hfirst hstart
  rfl

namespace Caller

variable [ContentHash D]

omit [ContentHash D] in
/-- A write that succeeds adds its mark. -/
theorem write_tally_of_ok {c : Caller D} {w : Write D} (hok : (c.write w).1 = true) :
    (c.write w).2.tally = { c.tally with marks := c.tally.marks ++ sessionMarks [w] } := by
  simp only [write, World.write] at hok ⊢
  split_ifs at hok ⊢
  simp only [tally, sessionMarks_append]

omit [ContentHash D] in
theorem write_tally_of_failed {c : Caller D} {w : Write D} (hfailed : (c.write w).1 = false) :
    (c.write w).2.tally = c.tally := by
  simp only [write, World.write] at hfailed ⊢
  split_ifs at hfailed ⊢
  rfl

omit [ContentHash D] in
/-- A write without a mark. -/
theorem write_tally_of_none {c : Caller D} {w : Write D} (hw : w.sessionMark? = none) :
    (c.write w).2.tally = c.tally := by
  cases hok : (c.write w).1 with
  | true =>
      have hmarks : sessionMarks [w] = [] := by simp [sessionMarks, hw]
      rw [write_tally_of_ok hok, hmarks, List.append_nil]
  | false => exact write_tally_of_failed hok

theorem append_tally (c : Caller D) (writer : Writer) (e : LogEntry D) :
    (c.append writer e).2.tally = (c.write (.append writer e)).2.tally := by
  simp only [append]
  split <;> rfl

/-- An entry that is no boundary. -/
theorem append_tally_of_none {c : Caller D} {writer : Writer} {e : LogEntry D}
    (he : (Write.append writer e).sessionMark? = none) :
    (c.append writer e).2.tally = c.tally :=
  (append_tally c writer e).trans (write_tally_of_none he)

theorem logQuiet_tally (c : Caller D) {t : EmitType} (ht : t ≠ .sessionBoundary)
    (payload : List UInt8) : (c.logQuiet t payload).2.tally = c.tally :=
  append_tally_of_none (LogEntry.HasType.sessionMark? ⟨_, rfl, rfl⟩ ht _)

theorem logLifecycleEvent_tally (c : Caller D) (s : LifecycleState) :
    (c.logLifecycleEvent s).tally = c.tally := by
  simp only [logLifecycleEvent]
  split_ifs
  · rfl
  · exact logQuiet_tally (c.setData fun d => { d with lifecycle := s }) (by simp) _
  · exact logQuiet_tally (c.setData fun d => { d with lifecycle := s }) (by simp) _

theorem logAgentCrash_tally (c : Caller D) (cause : CrashCause) :
    (c.logAgentCrash cause).tally = c.tally :=
  logQuiet_tally c (by simp) _

theorem recordValidationResponse_tally (c : Caller D) (verdict : ValidationVerdict) :
    (c.recordValidationResponse verdict).tally = c.tally := by
  simp only [recordValidationResponse]
  split_ifs
  · rfl
  · exact (logLifecycleEvent_tally _ _).trans (logQuiet_tally (t := .validationResponse)
      (c.setData fun s => { s with lastVerdict := some verdict }) (by simp) _)

theorem emitCapDenied_tally (c : Caller D) (capId : UInt64) (resource : List Char)
    (permFlags : UInt8) : (c.emitCapDenied capId resource permFlags).tally = c.tally := by
  obtain ⟨limiter, -, heq | ⟨nowMs, nowUs, payload, heq⟩⟩ :=
    c.emitCapDenied_cases capId resource permFlags
  · rw [heq]
    rfl
  · have htally : (c.limited limiter).tally = c.tally := rfl
    rw [heq, ← htally]
    generalize c.limited limiter = c
    exact append_tally_of_none (LogEntry.HasType.sessionMark? (t := .capabilityDenied)
      ⟨_, rfl, rfl⟩ (by simp) _)

/-! ### Host functions -/

/-- A `commit_barrier` takes effect or leaves the counters alone. -/
theorem commitBarrier_tally (c : Caller D) :
    c.commitBarrier.tally = c.tally ∨ c.commitBarrier.tally = c.tally.commit := by
  have hblock : (c.now.2.now.2.write (.putBlock c.stateBytes)).2.tally = c.tally :=
    write_tally_of_none rfl
  simp only [commitBarrier, Bool.not_eq_true']
  split_ifs with _ _ hsnap
  · exact .inl rfl
  · exact .inl hblock
  · exact .inl ((write_tally_of_failed hsnap).trans hblock)
  · right
    have hrecord : ∀ (c : Caller D) (snapId : D) (nowMs : ℕ),
        (c.recordCommit snapId nowMs).tally = { c.tally with seq := c.tally.seq + 1 } :=
      fun _ _ _ => rfl
    have hblock' : (c.now.2.now.2.write (.putBlock c.now.2.now.2.stateBytes)).2.tally =
        c.tally := hblock
    rw [hrecord, write_tally_of_ok (by simpa using hsnap), hblock']
    rfl

theorem agentAddCause_tally [LinearOrder D] (c : Caller D) (actionIdPtr : Int32) :
    (c.agentAddCause actionIdPtr).2.tally = c.tally := by
  simp only [agentAddCause]
  split_ifs <;> try rfl
  split
  · rfl
  · split_ifs <;> rfl

omit [ContentHash D] in
theorem writeOut_tally (c : Caller D) (outPtr outMaxLen : Int32) (buf : List UInt8) :
    (c.writeOut outPtr outMaxLen buf).2.tally = c.tally := by
  obtain ⟨memory, h⟩ := c.writeOut_memory outPtr outMaxLen buf
  rw [h]
  rfl

theorem moveTip_tally {c : Caller D} {t : EmitType} (ht : t ≠ .sessionBoundary)
    (tip target : D) (nowMs nowUs : ℕ) (payload : List UInt8) :
    (c.moveTip t tip target nowMs nowUs payload).tally = c.tally := by
  have happend : (c.append .runtime
      (c.entry t c.data.seq nowMs nowUs tip target payload)).2.tally = c.tally :=
    append_tally_of_none (LogEntry.HasType.sessionMark? ⟨_, rfl, rfl⟩ ht _)
  simp only [moveTip]
  split_ifs
  · exact happend
  · exact happend

theorem agentSelfRollback_tally [LinearOrder D] (c : Caller D) (depth : Int32) :
    (c.agentSelfRollback depth).2.tally = c.tally := by
  rcases c.agentSelfRollback_cases depth with
    h | ⟨tip, targetSeq, -, h | ⟨path, nowMs, nowUs, payload, -, h⟩⟩
  · rw [h]
  · rw [h]
    rfl
  · rw [h, moveTip_tally (by simp)]
    rfl

theorem agentRequestValidation_tally (c : Caller D) (riskLevel : Int32) :
    (c.agentRequestValidation riskLevel).2.tally = c.tally := by
  have hquiet := logQuiet_tally (t := .validationRequest) c (by simp)
    [UInt8.ofNat (usize riskLevel)]
  simp only [agentRequestValidation]
  split_ifs
  · rfl
  · rfl
  · exact hquiet
  · exact hquiet

theorem agentStoreGet_tally (c : Caller D) (resourcePtr resourceLen : Int32)
    (capId : UInt64) (outPtr : Int32) :
    (c.agentStoreGet resourcePtr resourceLen capId outPtr).2.tally = c.tally := by
  rcases c.agentStoreGet_cases resourcePtr resourceLen capId outPtr with
    ⟨memory, h⟩ | ⟨resource, -, -, h⟩
  · rw [h]
    rfl
  · rw [h, emitCapDenied_tally]

theorem agentStorePut_tally (c : Caller D) (resourcePtr resourceLen : Int32)
    (capId : UInt64) (valPtr valLen : Int32) :
    (c.agentStorePut resourcePtr resourceLen capId valPtr valLen).2.tally = c.tally := by
  rcases c.agentStorePut_cases resourcePtr resourceLen capId valPtr valLen with
    h | ⟨resource, value, -, h | ⟨-, h⟩⟩
  · rw [h]
  · rw [h]
    rfl
  · rw [h, emitCapDenied_tally]

theorem agentInferFinish_tally (c : Caller D) (call : InferCall D)
    (result : Except InferError InferResponse) (durationMs : ℕ) :
    (c.agentInferFinish call result durationMs).2.tally = c.tally := by
  have houtcome : ∀ nowResp,
      (inferOutcome (D := D) call nowResp durationMs result).2.1 ≠ .sessionBoundary := by
    intro nowResp
    rcases result with (_ | _ | _ | _) | _ <;> simp [inferOutcome]
  have hrequest : (c.now.2.logInferenceRequest call (slotInfoOf result)).tally = c.tally :=
    append_tally_of_none (LogEntry.HasType.sessionMark? (t := .inferenceRequest) ⟨_, rfl, rfl⟩
      (by simp) _)
  refine (logLifecycleEvent_tally _ _).trans ?_
  rw [append_tally_of_none (LogEntry.HasType.sessionMark? ⟨_, rfl, rfl⟩ (houtcome _) _)]
  exact hrequest

/-- The call is an emission of a `SessionBoundary` that is appended to the log. -/
def forgesBoundary (c : Caller D) (call : HostCall) : Bool :=
  c.publishes call && call.types.contains .sessionBoundary

theorem emit_counters (c : Caller D) (emitType ptr len : Int32) :
    (c.emit emitType ptr len).tally =
      { c.tally with marks := sessionMarks (c.emit emitType ptr len).world.writes } := by
  have happend : ∀ e : LogEntry D, (c.takePending.now.2.append .guest e).2.tally =
      { c.tally with marks := (c.takePending.now.2.append .guest e).2.tally.marks } := by
    intro e
    rw [append_tally]
    rfl
  simp only [emit]
  split
  · rfl
  · split
    · rfl
    · split
      · rfl
      · split
        · rfl
        · split
          · exact happend _
          · exact happend _

/-- An emission leaves the counters alone; its entry is a boundary only if the guest asks for
one. -/
theorem emit_tally (c : Caller D) (emitType ptr len : Int32) :
    (c.emit emitType ptr len).tally = c.tally ∨
      c.forgesBoundary (.emit emitType ptr len) = true ∧
        ∃ payload, (c.emit emitType ptr len).tally = c.tally.mark payload := by
  rw [emit_counters]
  rcases c.emit_cases emitType ptr len with ⟨p, -, h⟩ | ⟨hpublishes, p, e, k, -, -, htype, hk, h⟩
  · have hwrites : (c.emit emitType ptr len).world.writes = c.world.writes :=
      congrArg (fun b : Books D => b.trail.writes) h
    rw [hwrites]
    exact .inl rfl
  · have hwrites : (c.emit emitType ptr len).world.writes =
        c.world.writes ++ [.append .guest e] :=
      congrArg (fun b : Books D => b.trail.writes) h
    rw [hwrites, sessionMarks_append]
    by_cases hboundary : k = .sessionBoundary
    · right
      obtain ⟨env, henv, henvType⟩ := htype
      refine ⟨?_, env.payload, ?_⟩
      · rw [forgesBoundary, hpublishes, Bool.true_and, ← hboundary]
        exact List.contains_iff_mem.mpr hk
      · have hmark : sessionMarks [Write.append .guest e] = [.boundary env.payload] := by
          simp [sessionMarks, Write.sessionMark?, henv, henvType, hboundary]
        rw [hmark]
        rfl
    · left
      have hmark : sessionMarks [Write.append .guest e] = [] := by
        simp [sessionMarks, htype.sessionMark? hboundary]
      rw [hmark, List.append_nil]
      rfl

/-- The other calls leave the counters alone. -/
theorem host_tally [LinearOrder D] (c : Caller D) {call : HostCall}
    (hcommit : call ≠ .commitBarrier) (hemit : ∀ t ptr len, call ≠ .emit t ptr len) :
    (c.host call).2.tally = c.tally := by
  cases call with
  | commitBarrier => exact absurd rfl hcommit
  | emit emitType ptr len => exact absurd rfl (hemit emitType ptr len)
  | agentAddCause actionIdPtr => exact agentAddCause_tally c actionIdPtr
  | agentCheckpoint =>
      simp only [host, agentCheckpoint]
      split_ifs
      · rfl
      · exact logLifecycleEvent_tally c _
  | agentTerminate =>
      exact logLifecycleEvent_tally (c.setData fun s => { s with terminationRequested := true }) _
  | agentIntrospect outPtr outMaxLen => exact writeOut_tally c outPtr outMaxLen _
  | agentSelfRollback depth => exact agentSelfRollback_tally c depth
  | agentSessionInfo outPtr outMaxLen => exact writeOut_tally c outPtr outMaxLen _
  | agentRequestValidation riskLevel => exact agentRequestValidation_tally c riskLevel
  | agentGetVerdict => rfl
  | agentCheckCap capId resourcePtr resourceLen permFlags => rfl
  | agentStoreGet resourcePtr resourceLen capId outPtr =>
      exact agentStoreGet_tally c resourcePtr resourceLen capId outPtr
  | agentStorePut resourcePtr resourceLen capId valPtr valLen =>
      exact agentStorePut_tally c resourcePtr resourceLen capId valPtr valLen
  | agentInfer promptPtr promptLen responseBufPtr responseBufCap responseLenOutPtr
      timeoutMsReq =>
      simp only [host]
      split_ifs
      · exact logLifecycleEvent_tally c.now.2 _
      · obtain ⟨memory, h⟩ := c.inferRefused_memory promptPtr promptLen responseLenOutPtr
        rw [h]
        rfl

theorem rollback_tally [LinearOrder D] (c : Caller D) (order : List CapabilityId)
    (targetSeq : ℕ) : (c.rollback order targetSeq).2.tally = c.tally := by
  have hrevoke : ∀ (c : Caller D) (target : D),
      (c.revokeForTarget order target).2.tally = c.tally := by
    intro c target
    simp only [revokeForTarget]
    split_ifs
    · rfl
    · split <;> rfl
  rcases c.rollback_cases order targetSeq with h | ⟨tip, -, h | ⟨path, -, h⟩⟩
  · rw [h]
  · rw [h]
    rfl
  · rw [h]
    simp only [rollbackAlong]
    rw [logLifecycleEvent_tally, moveTip_tally (by simp), hrevoke]
    rfl

/-! ### The end of a cycle -/

/-- The boundary that the end of the cycle logs can be logged: the entry of the commit, if one
is in progress, comes first. -/
def canLogBoundary (c : Caller D) : Bool :=
  !c.world.fault (c.world.ios + if c.data.pendingCommit.isSome then 1 else 0)

/-- A boundary starts the next session, also if it cannot be logged. -/
theorem logSessionBoundary_tally (c : Caller D) :
    c.logSessionBoundary.tally = if c.world.fault c.world.ios then c.tally.nextSession
      else (c.tally.mark c.tally.payload).nextSession := by
  have hquiet : (c.logQuiet .sessionBoundary c.tally.payload).2.tally =
      if c.world.fault c.world.ios then c.tally else c.tally.mark c.tally.payload := by
    simp only [logQuiet]
    rw [append_tally]
    cases hfault : c.world.fault c.world.ios with
    | true =>
        rw [write_tally_of_failed (by simp [write, World.write, now, hfault])]
        rfl
    | false =>
        rw [write_tally_of_ok (by simp [write, World.write, now, hfault])]
        rfl
  have hnext : c.logSessionBoundary.tally =
      (c.logQuiet .sessionBoundary c.tally.payload).2.tally.nextSession :=
    logLifecycleEvent_tally _ _
  rw [hnext, hquiet]
  split_ifs <;> rfl

/-- The session has lasted as long as it may at the reading of the clock at the end of the
cycle. -/
def durationDue (c : Caller D) : Bool :=
  decide (0 < c.data.sessionMaxDurationMs) && decide (c.data.sessionMaxDurationMs ≤
    if 0 < c.data.sessionStartedAtMs then c.now.1 - c.data.sessionStartedAtMs else 0)

omit [ContentHash D] in
/-- A session ends with the number of its actions or with its duration. -/
theorem sessionDue_iff (c : Caller D) : c.sessionDue = true ↔
    c.data.sessionMaxActions ≤ c.data.seq - c.data.sessionStartSeq ∨ c.durationDue = true := by
  simp only [sessionDue, sessionExceeded, durationDue, Bool.or_eq_true, decide_eq_true_eq]
  split_ifs <;> rfl

/-- The tally after the end of a cycle without an error. -/
def cycleTally (c : Caller D) : Tally :=
  if c.sessionDue then
    if c.canLogBoundary then (c.tally.mark c.tally.payload).nextSession
    else c.tally.nextSession
  else c.tally

/-- The check of the session reads the clock if the session has started, and logs a boundary if
one is due. -/
theorem checkSession_eq (c : Caller D) : ∃ c' : Caller D, c'.tally = c.tally ∧
    c'.world = c.world ∧ c.checkSession = if c.sessionDue then c'.logSessionBoundary else c' := by
  by_cases hstarted : 0 < c.data.sessionStartedAtMs
  · refine ⟨c.now.2, rfl, rfl, ?_⟩
    simp only [checkSession, sessionDue, hstarted, if_true]
    rfl
  · refine ⟨c, rfl, rfl, ?_⟩
    simp only [checkSession, sessionDue, hstarted, if_false]

theorem checkSession_tally {c : Caller D} (hpending : c.data.pendingCommit = none) :
    c.checkSession.tally = c.cycleTally := by
  obtain ⟨c', htally, hworld, hcheck⟩ := c.checkSession_eq
  have hcan : c.canLogBoundary = !c.world.fault c.world.ios := by
    simp [canLogBoundary, hpending]
  rw [hcheck, cycleTally, hcan]
  split_ifs with hdue hfault
  · rw [logSessionBoundary_tally, htally, hworld, if_neg (by simpa using hfault)]
  · rw [logSessionBoundary_tally, htally, hworld, if_pos (by simpa using hfault)]
  · exact htally

/-- The end of a cycle without an error checks the session. -/
theorem processEnd_tally (c : Caller D) :
    (c.processEnd.1.isOk = true ∧ c.processEnd.2.tally = c.cycleTally) ∨
      (c.processEnd.1.isOk = false ∧ c.processEnd.2.tally = c.tally) := by
  simp only [processEnd]
  split
  · exact .inr ⟨rfl, rfl⟩
  · split
    · rename_i hnone
      exact .inl ⟨rfl, checkSession_tally hnone⟩
    · rename_i p hp
      have hflush : (c.takePending.append .runtime (c.commitEntry p none)).2.tally = c.tally :=
        append_tally_of_none rfl
      split_ifs with hok
      · obtain ⟨lastAction, hdata⟩ : ∃ lastAction, (c.takePending.append .runtime
            (c.commitEntry p none)).2.data = { c.takePending.data with lastAction } :=
          ⟨_, append_data c.takePending .runtime (c.commitEntry p none)⟩
        have hdue : (c.takePending.append .runtime (c.commitEntry p none)).2.sessionDue =
            c.sessionDue := by
          simp only [sessionDue, sessionExceeded, now, hdata]
          rfl
        have hcan : (c.takePending.append .runtime (c.commitEntry p none)).2.canLogBoundary =
            c.canLogBoundary := by
          have hpending : (c.takePending.append .runtime
              (c.commitEntry p none)).2.data.pendingCommit = none := by
            rw [hdata]
            rfl
          simp only [canLogBoundary, append_ios, append_fault, hpending, hp]
          rfl
        refine .inl ⟨rfl, ?_⟩
        rw [checkSession_tally (by rw [hdata]; rfl), cycleTally, hdue, hcan, hflush]
        rfl
      · exact .inr ⟨rfl, hflush⟩

end Caller

/-! ### The loop -/

namespace Actor

variable [ContentHash D]

theorem crash_tally (a : Actor D) (cause : CrashCause) : (a.crash cause).tally = a.tally :=
  Caller.logAgentCrash_tally a.caller cause

theorem exitLoop_tally (a : Actor D) : a.exitLoop.tally = a.tally := by
  simp only [exitLoop]
  split_ifs
  · exact Caller.logLifecycleEvent_tally a.caller _
  · rfl

theorem enter_tally (a : Actor D) (kind : CycleKind) (data : List UInt8) :
    (a.enter kind data).tally = a.tally := by
  simp only [enter, Caller.processStart]
  split_ifs
  · exact crash_tally a _
  · exact crash_tally a _
  · rfl

omit [ContentHash D] in
theorem afterData_tally (a : Actor D) : a.afterData.tally = a.tally := by
  simp only [afterData]
  split_ifs <;> rfl

theorem recordVerdict_tally (a : Actor D) (verdict : ValidationVerdict) :
    (a.recordVerdict verdict).tally = a.tally := by
  rw [recordVerdict, afterData_tally]
  exact Caller.recordValidationResponse_tally a.caller verdict

theorem await_tally (a : Actor D) (message : Message D) :
    (a.await message).tally = a.tally := by
  cases message with
  | validationResponse verdict => exact recordVerdict_tally a verdict
  | rollback targetSeq =>
      exact recordVerdict_tally { a with pendingMsg := some (.rollback targetSeq) } .cancelled
  | _ => rfl

theorem handle_tally [LinearOrder D] (a : Actor D) (order : List CapabilityId)
    (message : Message D) : (a.handle order message).tally = a.tally := by
  have hlogged := Caller.logLifecycleEvent_tally a.caller
  cases message with
  | data payload cause => exact (enter_tally _ _ _).trans (hlogged .active)
  | suspend => exact (exitLoop_tally _).trans (hlogged .suspended)
  | checkpoint => exact hlogged .checkpointed
  | evict => exact hlogged .suspended
  | rollback targetSeq =>
      have hrollback := Caller.rollback_tally a.caller order targetSeq
      simp only [handle]
      split
      · exact hrollback
      · exact (crash_tally (a.setCaller _) _).trans hrollback
  | validationResponse verdict => rfl
  | sessionResume summary => exact (enter_tally _ _ _).trans (hlogged .active)

theorem hostCall_tally [LinearOrder D] (a : Actor D) (kind : CycleKind) (call : HostCall) :
    (a.hostCall kind call).tally = (a.caller.host call).2.tally := by
  simp only [hostCall]
  split <;> rfl

theorem endCycle_tally (a : Actor D) (kind : CycleKind) :
    (a.endCycle kind).tally = a.caller.processEnd.2.tally := by
  rcases a.endCycle_cases kind with ⟨cause, h⟩ | ⟨phase, -, h⟩ | h
  · rw [h, crash_tally]
    rfl
  · rw [h]
    rfl
  · rw [h]
    rfl

/-- The step ends a cycle: `process_one` returns without an error. -/
def cycleEnds (a : Actor D) : Event D → Bool
  | .ret memory => (a.setMemory memory).caller.processEnd.1.isOk
  | _ => false

/-- The step restores the agent after an eviction. -/
def restores [LinearOrder D] (a : Actor D) : Event D → Bool
  | .wake _ _ =>
      match a.phase with
      | .evicted ev => (Caller.checkResumeSnapshot a.caller.world ev.lastSnapshot).1
      | _ => false
  | _ => false

/-- What a step can do to the counters and the marks. -/
inductive SessionStep [LinearOrder D] (a : Actor D) : Event D → Tally → Prop
  | quiet {ev : Event D} : (∀ memory, ev ≠ .ret memory) → SessionStep a ev a.tally
  | commit {memory : List UInt8} : SessionStep a (.host memory .commitBarrier) a.tally.commit
  | forged {memory : List UInt8} {call : HostCall} {payload : List UInt8} :
      (a.setMemory memory).caller.forgesBoundary call = true →
      SessionStep a (.host memory call) (a.tally.mark payload)
  | cycle {memory : List UInt8} : a.cycleEnds (.ret memory) = true →
      SessionStep a (.ret memory) a.caller.cycleTally
  | failed {memory : List UInt8} : a.cycleEnds (.ret memory) = false →
      SessionStep a (.ret memory) a.tally
  | restored {params : BuildParams} {memory : List UInt8} :
      a.restores (.wake params memory) = true →
      SessionStep a (.wake params memory) { a.tally with sessionId := 1, sessionStartSeq := 0 }
  | others {writes : List (Write D)} {capStores : ℕ → CapabilityStore} {kvStores : ℕ → KvStore}
      {causeHandles : ℕ → CauseHandleRegistry D} :
      SessionStep a (.others writes capStores kvStores causeHandles)
        { a.tally with marks := a.tally.marks ++ sessionMarks writes }

variable [LinearOrder D]

/-- A step other than the end of a cycle that leaves the tally alone. -/
theorem session_quiet {a : Actor D} {ev : Event D} {t : Tally} (ht : t = a.tally)
    (hev : ∀ memory, ev ≠ .ret memory) : a.SessionStep ev t := by
  subst ht
  exact .quiet hev

theorem hostCall_session {a : Actor D} {kind : CycleKind} {memory : List UInt8}
    {call : HostCall} : a.SessionStep (.host memory call)
      ((a.setMemory memory).hostCall kind call).tally := by
  have hquiet : ((a.setMemory memory).caller.host call).2.tally = a.tally →
      a.SessionStep (.host memory call) ((a.setMemory memory).hostCall kind call).tally :=
    fun h => session_quiet ((hostCall_tally _ _ _).trans h) (by simp)
  cases call with
  | commitBarrier =>
      rcases (a.setMemory memory).caller.commitBarrier_tally with h | h
      · exact hquiet h
      · have hcommit : ((a.setMemory memory).hostCall kind .commitBarrier).tally =
            a.tally.commit := (hostCall_tally _ _ _).trans h
        rw [hcommit]
        exact .commit
  | emit emitType ptr len =>
      rcases (a.setMemory memory).caller.emit_tally emitType ptr len with
        h | ⟨hforges, payload, h⟩
      · exact hquiet h
      · have hmark : ((a.setMemory memory).hostCall kind (.emit emitType ptr len)).tally =
            a.tally.mark payload := (hostCall_tally _ _ _).trans h
        rw [hmark]
        exact .forged hforges
  | _ => exact hquiet (Caller.host_tally _ (by simp) (by simp))

/-- Every step is one of these. -/
theorem step_session {a a' : Actor D} {ev : Event D} (hc : a.Coherent)
    (h : a.step ev = some a') : a.SessionStep ev a'.tally := by
  cases trans_of_step h with
  | start _ => exact session_quiet (Caller.logLifecycleEvent_tally a.caller _) (by simp)
  | @handle message order _ _ => exact session_quiet (handle_tally a order message) (by simp)
  | @await message order _ _ => exact session_quiet (await_tally a message) (by simp)
  | @resume message order _ _ =>
      exact session_quiet (handle_tally { a with pendingMsg := none } order message) (by simp)
  | exit _ _ => exact session_quiet (exitLoop_tally a) (by simp)
  | abandon _ _ => exact .quiet (by simp)
  | timeout _ => exact session_quiet (recordVerdict_tally a .timeout) (by simp)
  | host _ _ => exact hostCall_session
  | @inferDone kind call result durationMs _ =>
      exact session_quiet (Caller.agentInferFinish_tally a.caller call result durationMs) (by simp)
  | @ret kind memory _ _ =>
      rw [endCycle_tally]
      rcases (a.setMemory memory).caller.processEnd_tally with ⟨hok, h⟩ | ⟨hfailed, h⟩
      · have hcycle : (a.setMemory memory).caller.cycleTally = a.caller.cycleTally := rfl
        rw [h, hcycle]
        exact .cycle hok
      · rw [h]
        exact .failed hfailed
  | @trap kind memory interrupt _ _ =>
      exact session_quiet (crash_tally (a.setMemory memory) _) (by simp)
  | @wake ev params memory hphase hpresent =>
      have hrestored : Tally.mk ev.seq 1 0 a.tally.marks =
          { a.tally with sessionId := 1, sessionStartSeq := 0 } := by
        simp only [Coherent, hphase] at hc
        subst hc
        rfl
      have htally : (Caller.restore (Caller.checkResumeSnapshot a.caller.world
          ev.lastSnapshot).2 params memory ev).tally = Tally.mk ev.seq 1 0 a.tally.marks := by
        simp [Caller.restore, Caller.tally, Caller.allocate, AgentState.build, tally]
      rw [tally, htally, hrestored]
      exact .restored (by simp only [restores, hphase, hpresent])
  | @refuse ev params memory _ _ =>
      refine session_quiet ?_ (by simp)
      simp [tally, Caller.tally, setCaller]
  | @others writes capStores kvStores causeHandles _ =>
      have htally : (a.setCaller { a.caller with world := { a.caller.world with
          writes := a.caller.world.writes ++ writes, capStores, kvStores,
          causeHandles } }).tally =
            { a.tally with marks := a.tally.marks ++ sessionMarks writes } := by
        simp [tally, Caller.tally, setCaller]
      rw [htally]
      exact .others

/-! ### Steps that account -/

/-- What a run has to avoid: an emission of a boundary by the guest, a boundary that is due and
cannot be logged, and a wake after the first session. -/
def sessionKept (a : Actor D) (ev : Event D) : Bool :=
  match ev with
  | .host memory call => !(a.setMemory memory).caller.forgesBoundary call
  | .ret _ => !a.cycleEnds ev || !a.caller.sessionDue || a.caller.canLogBoundary
  | .wake _ _ => !a.restores ev || decide (a.caller.data.sessionId = 1)
  | _ => true

/-- The marks that the agent adds to the journal in a step. -/
theorem sessionMarks_written {a a' : Actor D} {ev : Event D} {ms : List SessionMark}
    (hc : a.Coherent) (h : a.step ev = some a') (hothers : ∀ ws c k r, ev ≠ .others ws c k r)
    (hms : a'.tally.marks = a.tally.marks ++ ms) : sessionMarks (a.written ev a') = ms := by
  rcases step_ledger hc h with hsteps | ⟨ws, c, k, r, rfl, -⟩
  · obtain ⟨ws, hws⟩ := hsteps.exists_writes
    have hmarks : a'.tally.marks = a.tally.marks ++ sessionMarks ws :=
      (congrArg sessionMarks hws).trans (sessionMarks_append _ _)
    rw [written_eq hothers hws]
    exact List.append_cancel_left (hmarks.symm.trans hms)
  · exact absurd rfl (hothers ws c k r)

/-- A step accounts for what it does if the marks that it adds take the session before it to the
one after it, and there is a boundary among them exactly if a cycle ends that has reached a
bound. -/
structure Accounts (a : Actor D) (ev : Event D) (a' : Actor D) : Prop where
  run : Machine.run SessionCount.step a.tally.count (sessionMarks (a.written ev a')) =
    some a'.tally.count
  counting : a'.tally.Counting
  boundary : (∃ payload, .boundary payload ∈ sessionMarks (a.written ev a')) ↔
    a.cycleEnds ev = true ∧ a.caller.sessionDue = true

/-- A step that adds no mark and ends no cycle that has reached a bound. -/
theorem accounts_of_quiet {a a' : Actor D} {ev : Event D} (hc : a.Coherent)
    (hcount : a.tally.Counting) (h : a.step ev = some a') (htally : a'.tally = a.tally)
    (hquiet : ¬ (a.cycleEnds ev = true ∧ a.caller.sessionDue = true)) : a.Accounts ev a' := by
  have hmarks : sessionMarks (a.written ev a') = [] := by
    cases ev with
    | others ws capStores kvStores causeHandles => rfl
    | _ => exact sessionMarks_written hc h (by simp) (by rw [htally, List.append_nil])
  refine ⟨by rw [hmarks, htally]; rfl, htally ▸ hcount, ?_⟩
  rw [hmarks]
  exact ⟨(fun ⟨_, h⟩ => nomatch h), fun h => absurd h hquiet⟩

/-- A step that a run does not have to avoid accounts for what it does. -/
theorem step_accounts {a a' : Actor D} {ev : Event D} (hc : a.Coherent)
    (hcount : a.tally.Counting) (hkept : a.sessionKept ev = true) (h : a.step ev = some a') :
    a.Accounts ev a' := by
  generalize ht : a'.tally = t at *
  have hstep : a.SessionStep ev t := ht ▸ step_session hc h
  cases hstep with
  | quiet hev =>
      refine accounts_of_quiet hc hcount h ht ?_
      cases ev with
      | ret memory => exact absurd rfl (hev memory)
      | _ => simp [cycleEnds]
  | @commit memory =>
      have hmarks : sessionMarks (a.written (.host memory .commitBarrier) a') = [.commit] :=
        sessionMarks_written hc h (by simp) (by rw [ht]; rfl)
      obtain ⟨hcounting, hrun⟩ := hcount.commit
      refine ⟨by rw [hmarks, ht]; exact hrun, ht ▸ hcounting, ?_⟩
      rw [hmarks]
      simp [cycleEnds]
  | forged hforges => simp [sessionKept, hforges] at hkept
  | @cycle memory hends =>
      cases hdue : a.caller.sessionDue with
      | false =>
          refine accounts_of_quiet hc hcount h ?_ (by simp [hdue])
          rw [ht, Caller.cycleTally, hdue]
          rfl
      | true =>
          have hcan : a.caller.canLogBoundary = true := by
            simpa [sessionKept, hends, hdue] using hkept
          have hnext : a'.tally = (a.tally.mark a.tally.payload).nextSession := by
            rw [ht, Caller.cycleTally, hdue, hcan]
            rfl
          have hmarks : sessionMarks (a.written (.ret memory) a') =
              [.boundary a.tally.payload] :=
            sessionMarks_written hc h (by simp) (by rw [hnext]; rfl)
          obtain ⟨hcounting, hrun⟩ := hcount.nextSession a.tally.payload
          refine ⟨by rw [hmarks, hnext]; exact hrun, hnext ▸ hcounting, ?_⟩
          rw [hmarks]
          exact ⟨fun _ => ⟨hends, hdue⟩, fun _ => ⟨_, List.mem_singleton_self _⟩⟩
  | failed hfails => exact accounts_of_quiet hc hcount h ht (by simp [hfails])
  | restored hrestores =>
      have hfirst : a.caller.data.sessionId = 1 := by
        simpa [sessionKept, hrestores] using hkept
      exact accounts_of_quiet hc hcount h (ht.trans (hcount.restore hfirst)) (by simp [cycleEnds])
  | @others writes capStores kvStores causeHandles =>
      have hcounting : a'.tally.Counting := by
        rw [ht]
        exact ⟨hcount.started, hcount.numbered, hcount.first⟩
      refine ⟨by rw [ht]; rfl, hcounting, ?_⟩
      simp [written, sessionMarks, cycleEnds]

/-- No step lets a session start in the future. -/
theorem step_started {a a' : Actor D} {ev : Event D} (hc : a.Coherent)
    (hstarted : a.tally.sessionStartSeq ≤ a.tally.seq) (h : a.step ev = some a') :
    a'.tally.sessionStartSeq ≤ a'.tally.seq := by
  generalize ht : a'.tally = t
  have hstep : a.SessionStep ev t := ht ▸ step_session hc h
  cases hstep with
  | quiet _ => exact hstarted
  | commit => exact hstarted.trans (Nat.le_succ _)
  | forged _ => exact hstarted
  | cycle _ =>
      simp only [Caller.cycleTally]
      split_ifs
      · exact Nat.le_refl _
      · exact Nat.le_refl _
      · exact hstarted
  | failed _ => exact hstarted
  | restored _ => exact Nat.zero_le _
  | others => exact hstarted

/-! ### Runs -/

/-- What the agent adds to the journal in a run, as far as sessions are concerned. -/
def sessionsOf (start : Actor D) (events : List (Event D)) : List SessionMark :=
  sessionMarks (start.ownWrites events)

/-- In every state of a run the boundaries carry the numbers `1, 2, ...` of the sessions and
count the commits since the boundary before, and the next step logs a boundary exactly if it
ends a cycle in which the commits since then, or the duration, have reached their bound. -/
def SessionsAccounted (start : Actor D) (events : List (Event D)) : Prop :=
  ∀ before after a, events = before ++ after → Machine.run step start before = some a →
    ∃ s, Machine.run SessionCount.step ⟨1, 0⟩ (start.sessionsOf before) = some s ∧
      ∀ ev rest a', after = ev :: rest → a.step ev = some a' →
        ((∃ payload, .boundary payload ∈ sessionMarks (a.written ev a')) ↔
          a.cycleEnds ev = true ∧
            (a.caller.data.sessionMaxActions ≤ s.actions ∨ a.caller.durationDue = true))

/-- In every state of a run the current session has started. -/
def SessionsStarted (start : Actor D) (events : List (Event D)) : Prop :=
  ∀ before after a, events = before ++ after → Machine.run step start before = some a →
    a.caller.data.sessionStartSeq ≤ a.caller.data.seq

omit [ContentHash D] [LinearOrder D] in
/-- The agent with a bound on the commits of a session other than the default. -/
def withMaxActions (a : Actor D) (maxActions : ℕ) : Actor D :=
  a.setCaller (a.caller.setData fun s => { s with sessionMaxActions := maxActions })

/-- The writes of the agent so far take a session to the one that its counters stand for. -/
structure AccountsFrom (s : SessionCount) (own : List (Write D)) (a : Actor D) : Prop where
  coherent : a.Coherent
  counting : a.tally.Counting
  run : Machine.run SessionCount.step s (sessionMarks own) = some a.tally.count

/-- What a run along which no step is to be avoided writes takes the session at its start to the
one at its end. -/
theorem run_accounts {a a' : Actor D} {events : List (Event D)} (hc : a.Coherent)
    (hcount : a.tally.Counting)
    (hkept : Machine.Along step (fun a ev => a.sessionKept ev = true) a events)
    (hrun : Machine.run step a events = some a') :
    AccountsFrom a.tally.count (a.ownWrites events) a' := by
  have hstep : ∀ own (b : Actor D) ev b', AccountsFrom a.tally.count own b →
      b.sessionKept ev = true → b.step ev = some b' →
        AccountsFrom a.tally.count (own ++ b.written ev b') b' := by
    intro own b ev b' hb hev h
    have haccounts := step_accounts hb.coherent hb.counting hev h
    refine ⟨step_coherent hb.coherent h, haccounts.counting, ?_⟩
    rw [sessionMarks_append]
    exact Machine.run_append_eq_some.mpr ⟨_, hb.run, haccounts.run⟩
  have hstart : AccountsFrom a.tally.count [] a := ⟨hc, hcount, rfl⟩
  exact Machine.run_outputs_invariant hstep hstart hkept hrun

/-- In every run of an agent, a session never starts in the future; and if the guest emits no
boundary, every boundary that is due can be logged and the agent is not restored after its
first session, then the boundaries account for the commits. -/
theorem sessions_accounted {id : AgentId} {p : BuildParams} {memory : List UInt8}
    {world : World D} {maxActions : ℕ} {events : List (Event D)} :
    SessionsStarted ((Actor.new id p memory world).withMaxActions maxActions) events ∧
      (Machine.Along step (fun a ev => a.sessionKept ev = true)
          ((Actor.new id p memory world).withMaxActions maxActions) events →
        SessionsAccounted ((Actor.new id p memory world).withMaxActions maxActions) events) := by
  have hcoherent : ((Actor.new id p memory world).withMaxActions maxActions).Coherent := trivial
  constructor
  · rintro before after a rfl hrun
    have hkept : ∀ (s : Actor D) (ev : Event D) (s' : Actor D),
        s.Coherent ∧ s.tally.sessionStartSeq ≤ s.tally.seq → s.step ev = some s' →
          s'.Coherent ∧ s'.tally.sessionStartSeq ≤ s'.tally.seq :=
      fun s ev s' hs h => ⟨step_coherent hs.1 h, step_started hs.1 hs.2 h⟩
    exact (Machine.run_invariant hkept ⟨hcoherent, Nat.le_refl _⟩ hrun).2
  · rintro hkept before after a rfl hrun
    have hcount : ((Actor.new id p memory world).withMaxActions maxActions).tally.Counting :=
      ⟨Nat.le_refl _, Nat.le_refl _, fun _ => rfl⟩
    have ha := run_accounts hcoherent hcount hkept.left hrun
    refine ⟨a.tally.count, ha.run, ?_⟩
    rintro ev rest a' rfl h
    have haccounts := step_accounts ha.coherent ha.counting (hkept.at_step hrun) h
    rw [haccounts.boundary, Caller.sessionDue_iff]
    rfl

/-- A clock that advances by the default duration of a session at every reading. -/
def dailyClock : ℕ → ℕ := fun n => 1 + n * sessionDefaultMaxDurationMs

/-- A commit, an eviction, and after the wake a commit on the daily clock. -/
def restoredRun : List (Event (List ℕ)) :=
  .start :: dataCycle [.commitBarrier] ++
    [.recv .evict [],
      .wake { clock := dailyClock, capStore := 1, kvStore := 1, causeHandleRegistry := 1 }
        [0, 0, 0, 0],
      .start] ++ dataCycle [.commitBarrier]

/-- An agent that is evicted in its first session: the boundary after the wake counts both
commits. -/
theorem sessions_accounted_restoredRun :
    SessionsAccounted (sampleAgent.withMaxActions 2) restoredRun ∧
      (sampleAgent.withMaxActions 2).sessionsOf restoredRun =
        [.commit, .commit, .boundary (boundaryPayload 1 2)] :=
  ⟨sessions_accounted.2 (by decide +kernel), by decide +kernel⟩

/-- An agent on the daily clock. -/
def dailyAgent : Actor (List ℕ) :=
  .new 10 { clock := dailyClock, capStore := 0, kvStore := 0, causeHandleRegistry := 0 }
    [0, 0, 0, 0] blankWorld

/-- An agent that is evicted after its first session: the boundary after the wake carries the
number of the first session again, and counts the commit of that session too. -/
theorem restored_session_miscounted :
    dailyAgent.sessionsOf restoredRun = [.commit, .boundary (boundaryPayload 1 1), .commit,
        .boundary (boundaryPayload 1 2)] ∧
      ¬ SessionsAccounted dailyAgent restoredRun := by
  have hmarks : dailyAgent.sessionsOf restoredRun = [.commit, .boundary (boundaryPayload 1 1),
      .commit, .boundary (boundaryPayload 1 2)] := by
    decide +kernel
  refine ⟨hmarks, fun haccounted => ?_⟩
  have hrun : (Machine.run step dailyAgent restoredRun).isSome = true := by decide +kernel
  obtain ⟨a, ha⟩ := Option.isSome_iff_exists.mp hrun
  obtain ⟨s, hs, -⟩ := haccounted restoredRun [] a (by simp) ha
  rw [hmarks] at hs
  have hnone : Machine.run SessionCount.step ⟨1, 0⟩ [.commit, .boundary (boundaryPayload 1 1),
      .commit, .boundary (boundaryPayload 1 2)] = none := by
    decide +kernel
  exact absurd (hs.symm.trans hnone) (by simp)

end Actor

end Torpor
