import Torpor.Actor.RunLoop

/-!
# The Books of an Agent

What most functions of the runtime do to the variables from which an agent takes the parents
of its entries (`Trail`) and to the capability stores: nothing but logging entries, each of
which follows the one before (`Books.OnlyLogs`). The functions that do more are
`commit_barrier`, `emit`, `agent_add_cause`, the end of a cycle, the end of `agent_infer`, a
message with a cause and a rollback.

## Main results

* `Books.OnlyLogs`: the frame of the other functions, and `Caller.host_onlyLogs`: the host
  functions that keep to it.
* `Caller.commitBarrier_cases`, `Caller.emit_cases`, `Caller.agentAddCause_cases`,
  `Caller.agentInferFinish_books`: what the others do.
-/

namespace Torpor

open ContentHash

/-- Who writes the entries of a type, if everyone writes only its own. -/
def EmitType.writer : EmitType → Writer
  | actionResult => .guest
  | stateDelta => .guest
  | event => .guest
  | proposal => .guest
  | introspect => .guest
  | compensationOpen => .scheduler
  | compensationClose => .scheduler
  | _ => .runtime

/-- The types that a call of the guest asks for: `emit` takes any number for the type, of
which it keeps the low byte. -/
def HostCall.types : HostCall → List EmitType
  | .emit emitType _ _ =>
      [(EmitType.tryFrom (UInt8.ofNat (usize emitType))).getD .actionResult]
  | _ => []

variable {D : Type}

/-- The journal, and what an agent keeps that may become a parent of its entries. -/
structure Trail (D : Type) where
  writes : List (Write D)
  lastAction : Option D
  extraCauses : List D
  pendingCommit : Option (PendingCommit D)

/-- The trail of a caller. -/
def Caller.trail (c : Caller D) : Trail D :=
  { writes := c.world.writes
    lastAction := c.data.lastAction
    extraCauses := c.data.pendingExtraCauses
    pendingCommit := c.data.pendingCommit }

/-- The trail of an agent. -/
def Actor.trail (a : Actor D) : Trail D := a.caller.trail

/-- The trail of an agent, and the capability stores. -/
structure Books (D : Type) where
  trail : Trail D
  capStore : ℕ
  capStores : ℕ → CapabilityStore

/-- The books of a caller. -/
def Caller.books (c : Caller D) : Books D :=
  { trail := c.trail, capStore := c.data.capStore, capStores := c.world.capStores }

/-- The books of an agent. -/
def Actor.books (a : Actor D) : Books D := a.caller.books

variable [ContentHash D]

/-- The trail after an entry. -/
def Trail.append (t : Trail D) (writer : Writer) (e : LogEntry D) : Trail D :=
  { t with writes := t.writes ++ [.append writer e], lastAction := some (actionId e) }

/-- The books after an entry. -/
def Books.append (b : Books D) (writer : Writer) (e : LogEntry D) : Books D :=
  { b with trail := b.trail.append writer e }

omit [ContentHash D] in
/-- The books after further writes. -/
def Books.write (b : Books D) (ws : List (Write D)) : Books D :=
  { b with trail := { b.trail with writes := b.trail.writes ++ ws } }

omit [ContentHash D] in
/-- The books with another commit in progress, or none. -/
def Books.pend (b : Books D) (p : Option (PendingCommit D)) : Books D :=
  { b with trail := { b.trail with pendingCommit := p } }

omit [ContentHash D] in
/-- The books with other causes for the next commit. -/
def Books.withCauses (b : Books D) (causes : List D) : Books D :=
  { b with trail := { b.trail with extraCauses := causes } }

/-- Entries of the runtime of which each follows the one before, from one last action to
another. -/
inductive Chained : Option D → List (LogEntry D) → Option D → Prop
  | nil {last : Option D} : Chained last [] last
  | cons {last last' : Option D} {e : LogEntry D} {k : EmitType} {es : List (LogEntry D)} :
      e.parentIds = last.toList → e.HasType k → k.writer = .runtime →
      Chained (some (actionId e)) es last' → Chained last (e :: es) last'

theorem Chained.append {last last' last'' : Option D} {es es' : List (LogEntry D)}
    (h : Chained last es last') (h' : Chained last' es' last'') :
    Chained last (es ++ es') last'' := by
  induction h with
  | nil => exact h'
  | cons hparents htype hwriter _ ih => exact .cons hparents htype hwriter (ih h')

namespace Books

omit [ContentHash D] in
theorem write_nil (b : Books D) : b.write [] = b := by
  simp only [write, List.append_nil]

omit [ContentHash D] in
theorem write_write (b : Books D) (ws ws' : List (Write D)) :
    (b.write ws).write ws' = b.write (ws ++ ws') := by
  simp only [write, List.append_assoc]

/-- From `b` to `b'` the agent only logs entries that follow its last action. -/
structure OnlyLogs (b b' : Books D) : Prop where
  extraCauses : b'.trail.extraCauses = b.trail.extraCauses
  pendingCommit : b'.trail.pendingCommit = b.trail.pendingCommit
  capStore : b'.capStore = b.capStore
  capStores : b'.capStores = b.capStores
  logged : ∃ es, b'.trail.writes = b.trail.writes ++ es.map (.append .runtime) ∧
    Chained b.trail.lastAction es b'.trail.lastAction

theorem OnlyLogs.refl (b : Books D) : b.OnlyLogs b :=
  ⟨rfl, rfl, rfl, rfl, [], (List.append_nil _).symm, .nil⟩

theorem OnlyLogs.trans {b b' b'' : Books D} (h : b.OnlyLogs b') (h' : b'.OnlyLogs b'') :
    b.OnlyLogs b'' := by
  obtain ⟨es, hws, hes⟩ := h.logged
  obtain ⟨es', hws', hes'⟩ := h'.logged
  refine ⟨h'.extraCauses.trans h.extraCauses, h'.pendingCommit.trans h.pendingCommit,
    h'.capStore.trans h.capStore, h'.capStores.trans h.capStores, es ++ es', ?_,
    hes.append hes'⟩
  rw [hws', hws, List.map_append, List.append_assoc]

/-- Which causes are kept does not matter. -/
theorem OnlyLogs.withCauses {b b' : Books D} (h : b.OnlyLogs b') (causes : List D) :
    (b.withCauses causes).OnlyLogs (b'.withCauses causes) :=
  ⟨rfl, h.pendingCommit, h.capStore, h.capStores, h.logged⟩

end Books

/-- The call only logs. -/
def HostCall.onlyLogs : HostCall → Bool
  | .commitBarrier => false
  | .emit _ _ _ => false
  | .agentAddCause _ => false
  | _ => true

namespace Caller

/-! ### Logging -/

omit [ContentHash D] in
/-- A write adds to the journal, or fails. -/
theorem write_books (c : Caller D) (x : Write D) :
    ((c.write x).1 = true ∧ (c.write x).2.books = c.books.write [x]) ∨
      (c.write x).1 = false ∧ (c.write x).2.books = c.books := by
  simp only [write, World.write]
  split_ifs
  · exact .inr ⟨rfl, rfl⟩
  · exact .inl ⟨rfl, rfl⟩

/-- An append enters the entry in the books, or fails. -/
theorem append_books (c : Caller D) (writer : Writer) (e : LogEntry D) :
    ((c.append writer e).1 = true ∧
        (c.append writer e).2.books = c.books.append writer e) ∨
      (c.append writer e).1 = false ∧ (c.append writer e).2.books = c.books := by
  cases hfault : c.world.fault c.world.ios with
  | true =>
      right
      simp only [append, write, World.write, hfault]
      exact ⟨rfl, rfl⟩
  | false =>
      left
      simp only [append, write, World.write, hfault]
      exact ⟨rfl, rfl⟩

theorem append_books_of_ok {c : Caller D} {writer : Writer} {e : LogEntry D}
    (hok : (c.append writer e).1 = true) :
    (c.append writer e).2.books = c.books.append writer e := by
  rcases c.append_books writer e with ⟨-, h⟩ | ⟨hno, -⟩
  · exact h
  · exact absurd hok (by simp [hno])

theorem append_books_of_failed {c : Caller D} {writer : Writer} {e : LogEntry D}
    (hfailed : (c.append writer e).1 = false) : (c.append writer e).2.books = c.books := by
  rcases c.append_books writer e with ⟨hyes, -⟩ | ⟨-, h⟩
  · exact absurd hfailed (by simp [hyes])
  · exact h

/-- An append of an entry that follows the last action. -/
theorem append_onlyLogs {b : Books D} {c : Caller D} {e : LogEntry D} {k : EmitType}
    (hb : b = c.books) (hparents : e.parentIds = b.trail.lastAction.toList)
    (htype : e.HasType k) (hwriter : k.writer = .runtime) :
    b.OnlyLogs (c.append .runtime e).2.books := by
  subst hb
  rcases c.append_books .runtime e with ⟨-, h⟩ | ⟨-, h⟩
  · rw [h]
    exact ⟨rfl, rfl, rfl, rfl, [e], rfl, .cons hparents htype hwriter .nil⟩
  · rw [h]
    exact .refl _

theorem logQuiet_onlyLogs (c : Caller D) {k : EmitType} (hwriter : k.writer = .runtime)
    (payload : List UInt8) : c.books.OnlyLogs (c.logQuiet k payload).2.books :=
  append_onlyLogs rfl rfl ⟨_, rfl, rfl⟩ hwriter

theorem logLifecycleEvent_onlyLogs (c : Caller D) (s : LifecycleState) :
    c.books.OnlyLogs (c.logLifecycleEvent s).books := by
  simp only [logLifecycleEvent]
  split_ifs
  · exact .refl _
  · exact logQuiet_onlyLogs (c.setData fun d => { d with lifecycle := s }) rfl _
  · exact logQuiet_onlyLogs (c.setData fun d => { d with lifecycle := s }) rfl _

theorem logAgentCrash_onlyLogs (c : Caller D) (cause : CrashCause) :
    c.books.OnlyLogs (c.logAgentCrash cause).books :=
  logQuiet_onlyLogs c rfl _

theorem recordValidationResponse_onlyLogs (c : Caller D) (verdict : ValidationVerdict) :
    c.books.OnlyLogs (c.recordValidationResponse verdict).books := by
  simp only [recordValidationResponse]
  split_ifs
  · exact .refl _
  · exact (logQuiet_onlyLogs (c.setData fun s => { s with lastVerdict := some verdict }) rfl
      _).trans (logLifecycleEvent_onlyLogs _ _)

theorem logSessionBoundary_onlyLogs (c : Caller D) :
    c.books.OnlyLogs c.logSessionBoundary.books := by
  refine Books.OnlyLogs.trans ?_ (logLifecycleEvent_onlyLogs _ _)
  exact logQuiet_onlyLogs c rfl _

theorem emitCapDenied_onlyLogs (c : Caller D) (capId : UInt64) (resource : List Char)
    (permFlags : UInt8) :
    c.books.OnlyLogs (c.emitCapDenied capId resource permFlags).books := by
  obtain ⟨limiter, -, heq | ⟨nowMs, nowUs, payload, heq⟩⟩ :=
    c.emitCapDenied_cases capId resource permFlags
  · rw [heq]
    exact .refl _
  · have hbooks : (c.limited limiter).books = c.books := rfl
    rw [heq, ← hbooks]
    generalize c.limited limiter = c
    exact append_onlyLogs (k := .capabilityDenied) rfl rfl ⟨_, rfl, rfl⟩ rfl

/-! ### Host functions -/

theorem agentCheckpoint_onlyLogs (c : Caller D) :
    c.books.OnlyLogs c.agentCheckpoint.2.books := by
  simp only [agentCheckpoint]
  split_ifs
  · exact .refl _
  · exact logLifecycleEvent_onlyLogs c _

theorem agentTerminate_onlyLogs (c : Caller D) : c.books.OnlyLogs c.agentTerminate.books :=
  logLifecycleEvent_onlyLogs (c.setData fun s => { s with terminationRequested := true }) _

theorem moveTip_onlyLogs {b : Books D} {c : Caller D} {k : EmitType} {tip target : D}
    {nowMs nowUs : ℕ} {payload : List UInt8} (hb : b = c.books) (hwriter : k.writer = .runtime) :
    b.OnlyLogs (c.moveTip k tip target nowMs nowUs payload).books := by
  have happend : b.OnlyLogs (c.append .runtime
      (c.entry k c.data.seq nowMs nowUs tip target payload)).2.books :=
    append_onlyLogs hb (by rw [hb]; rfl) ⟨_, rfl, rfl⟩ hwriter
  simp only [moveTip]
  split_ifs
  · exact happend
  · exact happend

theorem agentSelfRollback_onlyLogs [LinearOrder D] (c : Caller D) (depth : Int32) :
    c.books.OnlyLogs (c.agentSelfRollback depth).2.books := by
  rcases c.agentSelfRollback_cases depth with
    h | ⟨tip, targetSeq, -, h | ⟨path, nowMs, nowUs, payload, -, h⟩⟩
  · rw [h]
    exact .refl _
  · rw [h]
    exact .refl _
  · rw [h]
    exact moveTip_onlyLogs rfl rfl

theorem agentRequestValidation_onlyLogs (c : Caller D) (riskLevel : Int32) :
    c.books.OnlyLogs (c.agentRequestValidation riskLevel).2.books := by
  have hquiet : c.books.OnlyLogs
      (c.logQuiet .validationRequest [UInt8.ofNat (usize riskLevel)]).2.books :=
    logQuiet_onlyLogs c rfl _
  simp only [agentRequestValidation]
  split_ifs
  · exact .refl _
  · exact .refl _
  · exact hquiet
  · exact hquiet

theorem agentStoreGet_onlyLogs (c : Caller D) (resourcePtr resourceLen : Int32)
    (capId : UInt64) (outPtr : Int32) :
    c.books.OnlyLogs (c.agentStoreGet resourcePtr resourceLen capId outPtr).2.books := by
  rcases c.agentStoreGet_cases resourcePtr resourceLen capId outPtr with
    ⟨memory, h⟩ | ⟨resource, -, -, h⟩
  · rw [h]
    exact .refl _
  · rw [h]
    exact emitCapDenied_onlyLogs c _ _ _

theorem agentStorePut_onlyLogs (c : Caller D) (resourcePtr resourceLen : Int32)
    (capId : UInt64) (valPtr valLen : Int32) :
    c.books.OnlyLogs
      (c.agentStorePut resourcePtr resourceLen capId valPtr valLen).2.books := by
  rcases c.agentStorePut_cases resourcePtr resourceLen capId valPtr valLen with
    h | ⟨resource, value, -, h | ⟨-, h⟩⟩
  · rw [h]
    exact .refl _
  · rw [h]
    exact .refl _
  · rw [h]
    exact emitCapDenied_onlyLogs c _ _ _

omit [ContentHash D] in
theorem writeOut_books (c : Caller D) (outPtr outMaxLen : Int32) (buf : List UInt8) :
    (c.writeOut outPtr outMaxLen buf).2.books = c.books := by
  obtain ⟨memory, h⟩ := c.writeOut_memory outPtr outMaxLen buf
  rw [h]
  rfl

omit [ContentHash D] in
theorem inferRefused_books (c : Caller D) (promptPtr promptLen responseLenOutPtr : Int32) :
    (c.inferRefused promptPtr promptLen responseLenOutPtr).books = c.books := by
  obtain ⟨memory, h⟩ := c.inferRefused_memory promptPtr promptLen responseLenOutPtr
  rw [h]
  rfl

/-- The calls that only log do so; of `agent_infer` this is the part before the answer. -/
theorem host_onlyLogs [LinearOrder D] (c : Caller D) {call : HostCall}
    (hcall : call.onlyLogs = true) : c.books.OnlyLogs (c.host call).2.books := by
  cases call with
  | commitBarrier => cases hcall
  | emit emitType ptr len => cases hcall
  | agentAddCause actionIdPtr => cases hcall
  | agentTerminate => exact agentTerminate_onlyLogs c
  | agentCheckpoint => exact agentCheckpoint_onlyLogs c
  | agentIntrospect outPtr outMaxLen =>
      rw [host, agentIntrospect, writeOut_books]
      exact .refl _
  | agentSelfRollback depth => exact agentSelfRollback_onlyLogs c depth
  | agentSessionInfo outPtr outMaxLen =>
      rw [host, agentSessionInfo, writeOut_books]
      exact .refl _
  | agentRequestValidation riskLevel => exact agentRequestValidation_onlyLogs c riskLevel
  | agentGetVerdict => exact .refl _
  | agentCheckCap capId resourcePtr resourceLen permFlags => exact .refl _
  | agentStoreGet resourcePtr resourceLen capId outPtr =>
      exact agentStoreGet_onlyLogs c resourcePtr resourceLen capId outPtr
  | agentStorePut resourcePtr resourceLen capId valPtr valLen =>
      exact agentStorePut_onlyLogs c resourcePtr resourceLen capId valPtr valLen
  | agentInfer promptPtr promptLen responseBufPtr responseBufCap responseLenOutPtr
      timeoutMsReq =>
      rw [host]
      split_ifs
      · exact logLifecycleEvent_onlyLogs c.now.2 _
      · rw [inferRefused_books]
        exact .refl _

theorem checkSession_onlyLogs (c : Caller D) : c.books.OnlyLogs c.checkSession.books := by
  simp only [checkSession]
  split_ifs
  · exact logSessionBoundary_onlyLogs c.now.2
  · exact .refl _
  · exact logSessionBoundary_onlyLogs c
  · exact .refl _

/-! ### The other host functions -/

/-- The record of a commit takes the last action and the causes as parents. -/
theorem recordCommit_books (c : Caller D) (snapId : D) (nowMs : ℕ) :
    ∃ p, p.parentIds = c.books.trail.lastAction.toList ++ c.books.trail.extraCauses ∧
      (c.recordCommit snapId nowMs).books = (c.books.withCauses []).pend (some p) :=
  ⟨_, rfl, rfl⟩

/-- `commit_barrier` adds at most a block, or adds the block and the header of a commit, for
whose entry it takes the last action and the causes. -/
theorem commitBarrier_cases (c : Caller D) :
    (c.commitBarrier.data.seq = c.data.seq ∧
        ∃ ws, (ws = [] ∨ ws = [.putBlock c.stateBytes]) ∧
          c.commitBarrier.books = c.books.write ws) ∨
      (c.commitBarrier.data.seq = c.data.seq + 1 ∧
        ∃ p, p.parentIds = c.books.trail.lastAction.toList ++ c.books.trail.extraCauses ∧
          c.commitBarrier.books = ((c.books.write [.putBlock c.stateBytes,
            .putSnapshot (c.commitHeader (c.data.clock c.data.reads))]).withCauses []).pend
              (some p)) := by
  have hblock := c.now.2.now.2.write_books (.putBlock c.stateBytes)
  have hheader := (c.now.2.now.2.write (.putBlock c.stateBytes)).2.write_books
    (.putSnapshot (c.commitHeader (c.data.clock c.data.reads)))
  have hnow : c.now.2.now.2.books = c.books := rfl
  simp only [commitBarrier, Bool.not_eq_true']
  split_ifs with hterm hput hsnap
  · exact .inl ⟨rfl, [], .inl rfl, (Books.write_nil _).symm⟩
  · rcases hblock with ⟨hok, -⟩ | ⟨-, h⟩
    · exact absurd (hok.symm.trans hput) (by simp)
    · exact .inl ⟨rfl, [], .inl rfl, h.trans (Books.write_nil _).symm⟩
  · rcases hblock with ⟨-, h⟩ | ⟨hno, -⟩
    · rcases hheader with ⟨hok, -⟩ | ⟨-, h'⟩
      · exact absurd (hok.symm.trans hsnap) (by simp)
      · exact .inl ⟨rfl, _, .inr rfl, h'.trans h⟩
    · exact absurd hno hput
  · rcases hblock with ⟨-, h⟩ | ⟨hno, -⟩
    · rcases hheader with ⟨-, h'⟩ | ⟨hno, -⟩
      · rw [h, hnow, Books.write_write] at h'
        obtain ⟨p, hparents, hrecord⟩ := recordCommit_books
          ((c.now.2.now.2.write (.putBlock c.stateBytes)).2.write
            (.putSnapshot (c.commitHeader (c.data.clock c.data.reads)))).2
          (snapshotId (c.commitHeader (c.data.clock c.data.reads))) c.now.2.now.1
        rw [h'] at hparents hrecord
        exact .inr ⟨rfl, p, hparents, hrecord⟩
      · exact absurd hno hsnap
    · exact absurd hno hput

omit [ContentHash D] in
/-- The call is an emission that is appended to the log. -/
def publishes (c : Caller D) : HostCall → Bool
  | .emit _ ptr len => !c.data.terminationRequested && c.data.hostError.isNone &&
      c.data.pendingCommit.isSome && inBounds c.memory (usize ptr) (usize len) &&
      !c.world.fault c.world.ios
  | _ => false

theorem fault_of_append {c : Caller D} {writer : Writer} {e : LogEntry D}
    (hok : (c.append writer e).1 = true) : c.world.fault c.world.ios = false := by
  cases hfault : c.world.fault c.world.ios with
  | true => simp [append, write, World.write, hfault] at hok
  | false => rfl

/-- An emission publishes the commit in progress, or at most drops it. -/
theorem emit_cases (c : Caller D) (emitType ptr len : Int32) :
    (∃ p, (p = c.books.trail.pendingCommit ∨ p = none) ∧
        (c.emit emitType ptr len).books = c.books.pend p) ∨
      (c.publishes (.emit emitType ptr len) = true ∧
        ∃ p e k, c.books.trail.pendingCommit = some p ∧ e.parentIds = p.parentIds ∧
          e.HasType k ∧ k ∈ (HostCall.emit emitType ptr len).types ∧
          (c.emit emitType ptr len).books = (c.books.append .guest e).pend none) := by
  simp only [emit]
  split
  · exact .inl ⟨_, .inl rfl, rfl⟩
  · rename_i hterm
    split
    · exact .inl ⟨_, .inl rfl, rfl⟩
    · rename_i herror
      split
      · exact .inl ⟨_, .inl rfl, rfl⟩
      · rename_i p hp
        split
        · exact .inl ⟨none, .inr rfl, rfl⟩
        · rename_i hbounds
          split
          · rename_i hok
            right
            have hfault : c.world.fault c.world.ios = false :=
              fault_of_append (c := c.takePending.now.2) hok
            have hmemory : c.takePending.now.2.memory = c.memory := rfl
            refine ⟨?_, p, _, _, hp, ?_, ?_, List.mem_singleton_self _, append_books_of_ok hok⟩
            · simp only [hmemory, Bool.not_eq_true, Bool.not_eq_false'] at hterm herror hbounds
              simp only [publishes, hterm, hp, hbounds, hfault, Option.isSome_some,
                Option.not_isSome_iff_eq_none.mp (by simpa using herror), Option.isNone_none]
              rfl
            · rfl
            · exact ⟨_, rfl, rfl⟩
          · rename_i hok
            exact .inl ⟨none, .inr rfl, append_books_of_failed (by simpa using hok)⟩

/-- `agent_add_cause` refuses, or keeps one more cause, which is in the log, below its bound. -/
theorem agentAddCause_cases [LinearOrder D] (c : Caller D) (actionIdPtr : Int32) :
    ((c.agentAddCause actionIdPtr).1 ≠ 0 ∧ (c.agentAddCause actionIdPtr).2.books = c.books) ∨
      ((c.agentAddCause actionIdPtr).1 = 0 ∧
        c.books.trail.extraCauses.length < maxExtraCauses ∧
        ∃ id entry, id = ofBytes (readMem c.memory (usize actionIdPtr) 32) ∧
          c.world.log.get id = some entry ∧
          (c.agentAddCause actionIdPtr).2.books =
            c.books.withCauses (c.books.trail.extraCauses ++ [id])) := by
  simp only [agentAddCause]
  split_ifs with hterm hfull hbounds hfailed
  · exact .inl ⟨by simp, rfl⟩
  · exact .inl ⟨by simp, rfl⟩
  · exact .inl ⟨by simp, rfl⟩
  · exact .inl ⟨by simp, rfl⟩
  · split
    · exact .inl ⟨by simp, rfl⟩
    · rename_i entry hget
      split_ifs
      · exact .inr ⟨rfl, not_le.mp hfull, _, entry, rfl, hget, rfl⟩
      · exact .inl ⟨by simp, rfl⟩

/-! ### The answer of an inference -/

theorem inferOutcome_writer (call : InferCall D) (nowResp durationMs : ℕ)
    (result : Except InferError InferResponse) :
    (inferOutcome call nowResp durationMs result).2.1.writer = .runtime := by
  rcases result with e | resp
  · cases e <;> rfl
  · rfl

/-- The end of `agent_infer` logs the request and then the response, if their appends do not
fail: the request has the parents that the suspended call has kept, the response the last action
from before both. -/
theorem agentInferFinish_books (c : Caller D) (call : InferCall D)
    (result : Except InferError InferResponse) (durationMs : ℕ) :
    ∃ (c₁ c₂ : Caller D) (request response : LogEntry D) (k : EmitType),
      c₁.books = c.books ∧ request.parentIds = call.parents ∧
      request.HasType .inferenceRequest ∧
      c₂.books = (c₁.append .runtime request).2.books ∧
      response.parentIds = c.data.lastAction.toList ∧ response.HasType k ∧
      k.writer = .runtime ∧
      (c₂.append .runtime response).2.books.OnlyLogs
        (c.agentInferFinish call result durationMs).2.books :=
  ⟨c.now.2, (c.now.2.logInferenceRequest call (slotInfoOf result)).writeResponse call
      (inferOutcome call c.now.1 durationMs result).1,
    c.now.2.inferEntry call .inferenceRequest call.tsBefore call.hashBefore call.parents
      (inferenceRequestPayload call (slotInfoOf result)),
    inferEntry _ call (inferOutcome call c.now.1 durationMs result).2.1 c.now.1 c.now.2.tipHash
      c.data.lastAction.toList (inferOutcome call c.now.1 durationMs result).2.2.1,
    _, rfl, rfl, ⟨_, rfl, rfl⟩, rfl, rfl, ⟨_, rfl, rfl⟩,
    inferOutcome_writer call c.now.1 durationMs result, logLifecycleEvent_onlyLogs _ .active⟩

/-! ### The end of a cycle, and rollbacks -/

/-- The end of a cycle publishes the commit in progress, or at most drops it, before anything
else. -/
theorem processEnd_books (c : Caller D) :
    ∃ b, ((∃ p, (p = c.books.trail.pendingCommit ∨ p = none) ∧ b = c.books.pend p) ∨
        (c.data.hostError = none ∧ ∃ p e, c.books.trail.pendingCommit = some p ∧
          e.parentIds = p.parentIds ∧ e.emitPayload = none ∧
          b = (c.books.append .runtime e).pend none)) ∧
      b.OnlyLogs c.processEnd.2.books := by
  rcases c.processEnd_cases with
    ⟨error, -, h⟩ | ⟨-, -, h⟩ | ⟨herror, p, hp, ⟨hok, h⟩ | ⟨hfailed, h⟩⟩
  · rw [h]
    exact ⟨c.books, .inl ⟨_, .inl rfl, rfl⟩, .refl _⟩
  · rw [h]
    exact ⟨c.books, .inl ⟨_, .inl rfl, rfl⟩, checkSession_onlyLogs c⟩
  · rw [h]
    refine ⟨_, .inr ⟨herror, p, c.commitEntry p none, hp, rfl, rfl, ?_⟩, checkSession_onlyLogs _⟩
    rw [append_books_of_ok hok]
    rfl
  · refine ⟨c.takePending.books, .inl ⟨none, .inr rfl, rfl⟩, ?_⟩
    rw [h, append_books_of_failed hfailed]
    exact .refl _

/-- A revocation changes the capability stores only. -/
theorem revokeForTarget_books [LinearOrder D] (c : Caller D) (order : List CapabilityId)
    (target : D) : (c.revokeForTarget order target).2.books =
      { c.books with capStores := (c.revokeForTarget order target).2.world.capStores } := by
  simp only [revokeForTarget]
  split_ifs
  · rfl
  · split <;> rfl

theorem rollbackAlong_books [LinearOrder D] {b : Books D} {c : Caller D}
    {order : List CapabilityId} {targetSeq : ℕ} {tip : D} {path : List D} (hb : b = c.books) :
    ({ b with capStores :=
      (c.now.2.now.2.revokeForTarget order (path.getLastD tip)).2.world.capStores } :
        Books D).OnlyLogs (c.rollbackAlong order targetSeq tip path).books := by
  subst hb
  simp only [rollbackAlong]
  refine Books.OnlyLogs.trans ?_ (logLifecycleEvent_onlyLogs _ _)
  exact moveTip_onlyLogs (revokeForTarget_books c.now.2.now.2 order (path.getLastD tip)).symm rfl

end Caller

/-! ### The loop -/

namespace Actor

theorem crash_onlyLogs (a : Actor D) (cause : CrashCause) :
    a.books.OnlyLogs (a.crash cause).books :=
  Caller.logAgentCrash_onlyLogs a.caller cause

theorem exitLoop_onlyLogs (a : Actor D) : a.books.OnlyLogs a.exitLoop.books := by
  simp only [exitLoop]
  split_ifs
  · exact Caller.logLifecycleEvent_onlyLogs a.caller _
  · exact .refl _

theorem enter_onlyLogs (a : Actor D) (kind : CycleKind) (data : List UInt8) :
    a.books.OnlyLogs (a.enter kind data).books := by
  simp only [enter, Caller.processStart]
  split_ifs
  · exact crash_onlyLogs a _
  · exact crash_onlyLogs a _
  · exact .refl _

omit [ContentHash D] in
theorem afterData_books (a : Actor D) : a.afterData.books = a.books := by
  simp only [afterData]
  split_ifs <;> rfl

theorem recordVerdict_onlyLogs (a : Actor D) (verdict : ValidationVerdict) :
    a.books.OnlyLogs (a.recordVerdict verdict).books := by
  rw [recordVerdict, afterData_books]
  exact Caller.recordValidationResponse_onlyLogs a.caller verdict

theorem await_onlyLogs (a : Actor D) (message : Message D) :
    a.books.OnlyLogs (a.await message).books := by
  cases message with
  | validationResponse verdict => exact recordVerdict_onlyLogs a verdict
  | rollback targetSeq =>
      exact recordVerdict_onlyLogs { a with pendingMsg := some (.rollback targetSeq) } .cancelled
  | _ => exact .refl _

theorem endCycle_onlyLogs (a : Actor D) (kind : CycleKind) :
    a.caller.processEnd.2.books.OnlyLogs (a.endCycle kind).books := by
  rcases a.endCycle_cases kind with ⟨cause, h⟩ | ⟨phase, -, h⟩ | h
  · rw [h]
    exact crash_onlyLogs (a.setCaller a.caller.processEnd.2) cause
  · rw [h]
    exact .refl _
  · rw [h]
    exact .refl _

theorem hostCall_books [LinearOrder D] (a : Actor D) (kind : CycleKind) (call : HostCall) :
    (a.hostCall kind call).books = (a.caller.host call).2.books := by
  simp only [hostCall]
  split <;> rfl

/-- A message with a cause keeps it for the next commit; before and after that the agent only
logs. -/
theorem handle_data_books [LinearOrder D] (a : Actor D) (order : List CapabilityId)
    (payload : List UInt8) (cause : Option D) :
    ∃ b, a.books.OnlyLogs b ∧
      (b.withCauses (b.trail.extraCauses ++ cause.toList)).OnlyLogs
        (a.handle order (.data payload cause)).books :=
  ⟨_, Caller.logLifecycleEvent_onlyLogs a.caller .active, enter_onlyLogs (a.setCaller
    ((a.caller.logLifecycleEvent .active).setData fun s => { s with
      pendingExtraCauses := s.pendingExtraCauses ++ cause.toList })) .data payload⟩

/-- The other messages only log, apart from a rollback. -/
theorem handle_onlyLogs [LinearOrder D] (a : Actor D) (order : List CapabilityId)
    {message : Message D} (hdata : ∀ payload cause, message ≠ .data payload cause)
    (hrollback : ∀ targetSeq, message ≠ .rollback targetSeq) :
    a.books.OnlyLogs (a.handle order message).books := by
  cases message with
  | data payload cause => exact absurd rfl (hdata payload cause)
  | rollback targetSeq => exact absurd rfl (hrollback targetSeq)
  | suspend =>
      refine Books.OnlyLogs.trans ?_ (exitLoop_onlyLogs _)
      exact Caller.logLifecycleEvent_onlyLogs a.caller _
  | checkpoint => exact Caller.logLifecycleEvent_onlyLogs a.caller _
  | evict => exact Caller.logLifecycleEvent_onlyLogs a.caller _
  | validationResponse verdict => exact .refl _
  | sessionResume summary =>
      refine Books.OnlyLogs.trans ?_ (enter_onlyLogs _ _ _)
      exact Caller.logLifecycleEvent_onlyLogs a.caller _

/-- A rollback changes the capability stores first, if it finds a path, and then only logs. -/
theorem handle_rollback_books [LinearOrder D] (a : Actor D) (order : List CapabilityId)
    (targetSeq : ℕ) :
    a.books.OnlyLogs (a.handle order (.rollback targetSeq)).books ∨
      ∃ tip path, a.caller.data.lastSnapshot = some tip ∧
        (a.caller.rollbackPath tip targetSeq).1 = .ok path ∧
        ({ a.books with capStores :=
          ((a.caller.rollbackPath tip targetSeq).2.now.2.now.2.revokeForTarget order
            (path.getLastD tip)).2.world.capStores } : Books D).OnlyLogs
              (a.handle order (.rollback targetSeq)).books := by
  have hcrash : (a.caller.rollback order targetSeq).2.books.OnlyLogs
      (a.handle order (.rollback targetSeq)).books := by
    simp only [handle]
    split
    · exact .refl _
    · exact crash_onlyLogs (a.setCaller _) _
  rcases a.caller.rollback_cases order targetSeq with h | ⟨tip, htip, h | ⟨path, hpath, h⟩⟩
  · rw [h] at hcrash
    exact .inl hcrash
  · rw [h] at hcrash
    exact .inl hcrash
  · rw [h] at hcrash
    exact .inr ⟨tip, path, htip, hpath, (Caller.rollbackAlong_books rfl).trans hcrash⟩

end Actor

end Torpor
