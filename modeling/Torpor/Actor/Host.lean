import Torpor.Actor.State

/-!
# The Host Functions

The functions that the linker of `ActorInstance` offers to a guest, each with the argument
checks, the order of clock readings and database accesses, and the early returns of the
source. A host function takes what the guest passes and the `Caller`, and gives the result of
the guest's call and the new `Caller`.

`agent_infer` suspends the guest: `inferStart` is its first phase, which gives the local
variables of the suspended call (`InferCall`), and `agentInferFinish` its last, once the
backend has answered.

`emit` without a preceding `commit_barrier` fails a debug assertion of the source; the model
follows the release build, in which the call records an error of the host.

The last section says once what the functions with several outcomes can do
(`agentStoreGet_cases`, `agentSelfRollback_cases`).
-/

namespace Torpor

open ContentHash

/-! ### Memory of the guest -/

/-- `as usize` of an `i32`: the sign is extended to 64 bits. -/
def usize (i : Int32) : ℕ := (i.toInt % 2 ^ 64).toNat

/-- `ptr.checked_add(len)` does not overflow and ends within the memory. -/
def inBounds (memory : List UInt8) (ptr len : ℕ) : Bool :=
  ptr + len < 2 ^ 64 && ptr + len ≤ memory.length

/-- The bytes of a range that is in bounds. -/
def readMem (memory : List UInt8) (ptr len : ℕ) : List UInt8 := (memory.drop ptr).take len

/-- The memory after a write that is in bounds. -/
def writeMem (memory : List UInt8) (ptr : ℕ) (bytes : List UInt8) : List UInt8 :=
  memory.take ptr ++ bytes ++ memory.drop (ptr + bytes.length)

/-- `std::str::from_utf8`. -/
def fromUtf8 (bytes : List UInt8) : Option (List Char) :=
  (ByteArray.mk bytes.toArray).utf8Decode?.map Array.toList

/-- A string of the guest: in bounds and well encoded. -/
def readStr (memory : List UInt8) (ptr len : ℕ) : Option (List Char) :=
  if inBounds memory ptr len then fromUtf8 (readMem memory ptr len) else none

/-! ### Inference -/

/-- `InferError`; the message of the backend as bytes. -/
inductive InferError
  | cancelled
  | timeout
  | backendError (code : UInt8) (message : List UInt8)
  | noSlot
  deriving DecidableEq, Repr

/-- `SlotAcquiredInfo`, with the bytes that stand for the priority classes. -/
structure SlotAcquiredInfo where
  priorityClass : UInt8
  queueDepthAtAdmission : ℕ
  promotedFrom : Option UInt8
  deriving DecidableEq, Repr

/-- What `agent_infer` reads of an `InferResponse`. -/
structure InferResponse where
  text : List UInt8
  slotInfo : Option SlotAcquiredInfo
  deriving DecidableEq, Repr

/-- The local variables of `agent_infer` while it waits for the backend. -/
structure InferCall (D : Type) where
  prompt : List UInt8
  seq : ℕ
  tsBefore : ℕ
  hashBefore : D
  parents : List D
  timeoutMsReq : ℕ
  timeoutEff : ℕ
  responseBufPtr : ℕ
  responseBufCap : ℕ
  responseLenOutPtr : ℕ
  deriving DecidableEq, Repr

/-- `HOST_MAX_INFERENCE_DURATION_MS`. -/
def hostMaxInferenceDurationMs : ℕ := 180000

/-! ### Calls of a guest -/

/-- A call of a host function with its arguments. -/
inductive HostCall
  | commitBarrier
  | agentAddCause (actionIdPtr : Int32)
  | agentCheckpoint
  | agentTerminate
  | agentIntrospect (outPtr outMaxLen : Int32)
  | agentSelfRollback (depth : Int32)
  | agentSessionInfo (outPtr outMaxLen : Int32)
  | agentRequestValidation (riskLevel : Int32)
  | agentGetVerdict
  | agentCheckCap (capId : UInt64) (resourcePtr resourceLen permFlags : Int32)
  | agentStoreGet (resourcePtr resourceLen : Int32) (capId : UInt64) (outPtr : Int32)
  | agentStorePut (resourcePtr resourceLen : Int32) (capId : UInt64) (valPtr valLen : Int32)
  | emit (emitType ptr len : Int32)
  | agentInfer (promptPtr promptLen responseBufPtr responseBufCap responseLenOutPtr
      timeoutMsReq : Int32)
  deriving DecidableEq, Repr

namespace Caller

variable {D : Type}

/-- Record an error for `process_one` to raise. -/
def setHostError (c : Caller D) (error : String) : Caller D :=
  c.setData fun s => { s with hostError := some error }

/-- The 64 bytes of state that a commit stores: the agent, its sequence number, and zeros. -/
def stateBytes (c : Caller D) : List UInt8 :=
  agentBytes c.data.id ++ leBytes 8 c.data.seq ++ List.replicate 40 0

/-- `agent_get_verdict`. -/
def agentGetVerdict (c : Caller D) : Int32 :=
  match c.data.lastVerdict with
  | some v => Int32.ofNat v.asU8.toNat
  | none => -1

/-- A buffer of the host copied to the memory of the guest, after the checks that
`agent_introspect` and `agent_session_info` make. -/
def writeOut (c : Caller D) (outPtr outMaxLen : Int32) (buf : List UInt8) :
    Int32 × Caller D :=
  if outMaxLen < Int32.ofNat buf.length then (-1, c)
  else if inBounds c.memory (usize outPtr) buf.length then
    (Int32.ofNat buf.length, { c with memory := writeMem c.memory (usize outPtr) buf })
  else (-2, c)

/-- `agent_session_info`. -/
def agentSessionInfo (c : Caller D) (outPtr outMaxLen : Int32) : Int32 × Caller D :=
  c.writeOut outPtr outMaxLen
    (leBytes 8 c.data.sessionId ++ leBytes 8 (c.data.seq - c.data.sessionStartSeq) ++
      leBytes 8 c.data.sessionStartedAtMs)

/-- The flags of `agent_check_cap`. -/
def permissionsOfFlags (permFlags : Int32) : Permissions :=
  { read := permFlags &&& 0x01 != 0
    write := permFlags &&& 0x02 != 0
    execute := permFlags &&& 0x04 != 0
    delegate := permFlags &&& 0x08 != 0 }

/-- `check` in the capability store of the agent. -/
def checkCap (c : Caller D) (capId : UInt64) (resource : List Char) (perm : Permissions) :
    Bool :=
  (c.world.capStores c.data.capStore).check c.data.id capId.toNat resource perm

/-- `agent_check_cap`. -/
def agentCheckCap (c : Caller D) (capId : UInt64) (resourcePtr resourceLen permFlags : Int32) :
    Int32 :=
  match readStr c.memory (usize resourcePtr) (usize resourceLen) with
  | none => -1
  | some resource => if c.checkCap capId resource (permissionsOfFlags permFlags) then 1 else 0

variable [ContentHash D]

/-- `agent_introspect`. -/
def agentIntrospect (c : Caller D) (outPtr outMaxLen : Int32) : Int32 × Caller D :=
  let flags : UInt8 := (if c.data.lastAction.isSome then 0x01 else 0) |||
    (if c.data.lastSnapshot.isSome then 0x02 else 0)
  let digest := fun o : Option D => (o.map bytes).getD (List.replicate 32 0)
  c.writeOut outPtr outMaxLen
    (digest c.data.lastAction ++ leBytes 8 c.data.seq ++ digest c.data.lastSnapshot ++
      [flags, c.data.lifecycle.asU8])

/-- The header of the snapshot that a commit takes. -/
def commitHeader (c : Caller D) (nowUs : ℕ) : SnapshotHeader D :=
  { dataHash := dataHash c.stateBytes
    parent := c.data.lastSnapshot
    seq := c.data.seq
    tsUs := nowUs }

/-- What a commit leaves in the state of the agent. -/
def recordCommit (c : Caller D) (snapId : D) (nowMs : ℕ) : Caller D :=
  c.setData fun s => { s with
    lastSnapshot := some snapId
    seq := s.seq + 1
    sessionStartedAtMs := if s.sessionStartedAtMs = 0 then nowMs else s.sessionStartedAtMs
    pendingExtraCauses := []
    pendingCommit := some
      { hashBefore := s.lastSnapshot.getD zero
        hashAfter := snapId
        parentIds := s.lastAction.toList ++ s.pendingExtraCauses
        tsMs := nowMs
        seq := s.seq } }

/-- `commit_barrier`: the block, the header, and the record of the commit for the entry that
is to follow. -/
def commitBarrier (c : Caller D) : Caller D :=
  if c.data.terminationRequested then c
  else
    let (nowUs, c) := c.now
    let (nowMs, c) := c.now
    let (ok, c) := c.write (.putBlock c.stateBytes)
    if !ok then c.setHostError "ContentStore::put_block"
    else
      let header := c.commitHeader nowUs
      let (ok, c) := c.write (.putSnapshot header)
      if !ok then c.setHostError "ContentStore::put_snapshot"
      else c.recordCommit (snapshotId header) nowMs

/-- `MAX_EXTRA_CAUSES`. -/
def maxExtraCauses : ℕ := 16

/-- The authorisation of `agent_add_cause`: the own actions of the agent, and those it holds a
handle for. -/
def mayCite [DecidableEq D] (c : Caller D) (entry : LogEntry D) (id : D) : Bool :=
  entry.agentId == c.data.id ||
    containsHandle (c.world.causeHandles c.data.causeHandleRegistry c.data.tenant) c.data.id id

/-- `agent_add_cause`. -/
def agentAddCause [LinearOrder D] (c : Caller D) (actionIdPtr : Int32) : Int32 × Caller D :=
  if c.data.terminationRequested then (-3, c)
  else if maxExtraCauses ≤ c.data.pendingExtraCauses.length then (-2, c)
  else if !inBounds c.memory (usize actionIdPtr) 32 then (-1, c)
  else
    let id : D := ofBytes (readMem c.memory (usize actionIdPtr) 32)
    let (failed, c) := c.access
    if failed then (-4, c)
    else match c.world.log.get id with
      | none => (-3, c)
      | some entry =>
          if c.mayCite entry id then
            (0, c.setData fun s => { s with pendingExtraCauses := s.pendingExtraCauses ++ [id] })
          else (-3, c)

/-- `agent_checkpoint`. -/
def agentCheckpoint (c : Caller D) : Int32 × Caller D :=
  if c.data.terminationRequested then (-1, c)
  else (Int32.ofNat c.data.seq, c.logLifecycleEvent .checkpointed)

/-- `agent_terminate`. -/
def agentTerminate (c : Caller D) : Caller D :=
  (c.setData fun s => { s with terminationRequested := true }).logLifecycleEvent .terminated

/-- `MAX_SELF_ROLLBACK_DEPTH`. -/
def maxSelfRollbackDepth : ℕ := 3

/-- Move the tip of the agent along a path and log the move; the move happens only if the
entry is appended. -/
def moveTip (c : Caller D) (t : EmitType) (tip target : D) (nowMs nowUs : ℕ)
    (payload : List UInt8) : Caller D :=
  let (ok, c) := c.append .runtime (c.entry t c.data.seq nowMs nowUs tip target payload)
  if ok then c.setData fun s => { s with lastSnapshot := some target } else c

/-- `agent_self_rollback`. -/
def agentSelfRollback [LinearOrder D] (c : Caller D) (depth : Int32) : Int32 × Caller D :=
  if c.data.terminationRequested then (-1, c)
  else if depth < 1 ∨ maxSelfRollbackDepth < usize depth then (-1, c)
  else match c.data.lastSnapshot with
    | none => (-2, c)
    | some tip =>
        if c.data.seq < 1 + usize depth then (-3, c)
        else
          let targetSeq := c.data.seq - 1 - usize depth
          let (path, c) := c.rollbackPath tip targetSeq
          match path with
          | .error _ => (-4, c)
          | .ok path =>
              let (nowMs, c) := c.now
              let (nowUs, c) := c.now
              (Int32.ofNat targetSeq,
                c.moveTip .selfRollback tip (path.getLastD tip) nowMs nowUs
                  (UInt8.ofNat (usize depth) :: leBytes 8 targetSeq))

/-- `agent_request_validation`. -/
def agentRequestValidation (c : Caller D) (riskLevel : Int32) : Int32 × Caller D :=
  if c.data.terminationRequested then (-1, c)
  else if riskLevel < 0 ∨ 2 < riskLevel then (-1, c)
  else
    let (ok, c) := c.logQuiet .validationRequest [UInt8.ofNat (usize riskLevel)]
    (0, if ok then c.setData fun s => { s with lifecycle := .awaitingValidation } else c)

/-- `agent_store_get`. -/
def agentStoreGet (c : Caller D) (resourcePtr resourceLen : Int32) (capId : UInt64)
    (outPtr : Int32) : Int32 × Caller D :=
  match readStr c.memory (usize resourcePtr) (usize resourceLen) with
  | none => (-2, c)
  | some resource =>
      if !c.checkCap capId resource ⟨true, false, false, false⟩ then
        (-1, c.emitCapDenied capId resource 0x01)
      else match (c.world.kvStores c.data.kvStore).lookup resource with
        | none => (0, c)
        | some value =>
            if inBounds c.memory (usize outPtr) value.length then
              (0, { c with memory := writeMem c.memory (usize outPtr) value })
            else (-2, c)

/-- The write of `agent_store_put` into the key-value store of the agent. -/
def kvInsert (c : Caller D) (resource : List Char) (value : List UInt8) : Caller D :=
  { c with world := { c.world with
    kvStores := Function.update c.world.kvStores c.data.kvStore
      ((c.world.kvStores c.data.kvStore).insert resource value) } }

/-- The arguments of `agent_store_put` that are in bounds and well encoded. -/
def storePutArgs (c : Caller D) (resourcePtr resourceLen valPtr valLen : Int32) :
    Option (List Char × List UInt8) :=
  match readStr c.memory (usize resourcePtr) (usize resourceLen) with
  | none => none
  | some resource =>
      if inBounds c.memory (usize valPtr) (usize valLen) then
        some (resource, readMem c.memory (usize valPtr) (usize valLen))
      else none

/-- `agent_store_put`. -/
def agentStorePut (c : Caller D) (resourcePtr resourceLen : Int32) (capId : UInt64)
    (valPtr valLen : Int32) : Int32 × Caller D :=
  match c.storePutArgs resourcePtr resourceLen valPtr valLen with
  | none => (-2, c)
  | some (resource, value) =>
      if !c.checkCap capId resource ⟨false, true, false, false⟩ then
        (-1, c.emitCapDenied capId resource 0x02)
      else (0, c.kvInsert resource value)

/-- The entry of a commit: what `commit_barrier` recorded, with or without an emission. -/
def commitEntry (c : Caller D) (p : PendingCommit D) (payload : Option EmitEnvelope) :
    LogEntry D :=
  { agentId := c.data.id
    tsMs := p.tsMs
    parentIds := p.parentIds
    hashBefore := p.hashBefore
    hashAfter := p.hashAfter
    emitPayload := payload }

/-- `pending_commit.take()`, for what it leaves. -/
def takePending (c : Caller D) : Caller D :=
  c.setData fun s => { s with pendingCommit := none }

/-- `emit`: the record of the commit is taken before the payload is checked. -/
def emit (c : Caller D) (emitType ptr len : Int32) : Caller D :=
  if c.data.terminationRequested then c
  else if c.data.hostError.isSome then c
  else match c.data.pendingCommit with
    | none => c.setHostError "pending_commit absent après commit_barrier"
    | some p =>
        let (nowUs, c) := c.takePending.now
        if !inBounds c.memory (usize ptr) (usize len) then
          c.setHostError "emit: ptr+len hors bornes WASM"
        else
          let t := (EmitType.tryFrom (UInt8.ofNat (usize emitType))).getD .actionResult
          let payload := readMem c.memory (usize ptr) (usize len)
          let (ok, c) := c.append .guest
            (c.commitEntry p (some (.new t c.data.id p.seq nowUs payload)))
          if ok then c else c.setHostError "CausalLog::append"

/-! ### agent_infer -/

/-- The pointers of `agent_infer` are in bounds: the prompt, the response and its length. -/
def inferArgsOk (c : Caller D) (promptPtr promptLen responseBufPtr responseBufCap
    responseLenOutPtr : Int32) : Bool :=
  inBounds c.memory (usize promptPtr) (usize promptLen) &&
    inBounds c.memory (usize responseLenOutPtr) 4 &&
    inBounds c.memory (usize responseBufPtr) (usize responseBufCap)

/-- What `agent_infer` does when a pointer is out of bounds: if it is the prompt's, a length
of zero is written, where that is possible. The result of the call is `2`. -/
def inferRefused (c : Caller D) (promptPtr promptLen responseLenOutPtr : Int32) : Caller D :=
  if !inBounds c.memory (usize promptPtr) (usize promptLen) &&
      inBounds c.memory (usize responseLenOutPtr) 4 then
    { c with memory := writeMem c.memory (usize responseLenOutPtr) (leBytes 4 0) }
  else c

/-- `agent_infer` up to the call of the backend, for pointers in bounds. -/
def inferStart (c : Caller D) (promptPtr promptLen responseBufPtr responseBufCap
    responseLenOutPtr timeoutMsReq : Int32) : InferCall D × Caller D :=
  let timeoutReq := timeoutMsReq.toUInt32.toNat
  let lastAction := c.data.lastAction
  let (tsBefore, c) := c.now
  let call : InferCall D :=
    { prompt := readMem c.memory (usize promptPtr) (usize promptLen)
      seq := c.data.seq
      tsBefore
      hashBefore := c.tipHash
      parents := lastAction.toList
      timeoutMsReq := timeoutReq
      timeoutEff := min timeoutReq hostMaxInferenceDurationMs
      responseBufPtr := usize responseBufPtr
      responseBufCap := usize responseBufCap
      responseLenOutPtr := usize responseLenOutPtr }
  (call, c.logLifecycleEvent .waitingInference)

/-- The payload of an `InferenceRequest`. -/
def inferenceRequestPayload (call : InferCall D) (slotInfo : Option SlotAcquiredInfo) :
    List UInt8 :=
  let modelId : List UInt8 := "sleepy".toList.flatMap String.utf8EncodeChar
  bytes (dataHash call.prompt : D) ++ UInt8.ofNat modelId.length :: modelId ++
    leBytes 4 call.timeoutMsReq ++ leBytes 4 call.timeoutEff ++
    match slotInfo with
    | none => []
    | some si => si.priorityClass :: leBytes 2 si.queueDepthAtAdmission ++
        [si.promotedFrom.getD 0xFF]

/-- The entry of `agent_infer` at a moment, with hashes and parents that were taken before. -/
def inferEntry (c : Caller D) (call : InferCall D) (t : EmitType) (tsMs : ℕ) (hash : D)
    (parents : List D) (payload : List UInt8) : LogEntry D :=
  { agentId := c.data.id
    tsMs
    parentIds := parents
    hashBefore := hash
    hashAfter := hash
    emitPayload := some (.new t c.data.id call.seq (tsMs * 1000) payload) }

/-- The message of an error of the backend, as `InferenceFailed` reports it. -/
def inferErrorMessage : InferError → UInt8 × List UInt8
  | .timeout => (0x01, "timeout".toList.flatMap String.utf8EncodeChar)
  | .backendError code message => (code, message)
  | .noSlot => (0x20, "no slot".toList.flatMap String.utf8EncodeChar)
  | .cancelled => (0, [])

/-- The outcome of an inference: the bytes and the length written to the guest, the emission
that reports it, and the result of the call. -/
def inferOutcome (call : InferCall D) (nowResp durationMs : ℕ) :
    Except InferError InferResponse → List UInt8 × EmitType × List UInt8 × Int32
  | .ok resp =>
      let written := resp.text.take call.responseBufCap
      let truncated : UInt8 := if call.responseBufCap < resp.text.length then 1 else 0
      (written, .inferenceResponse,
        bytes (dataHash resp.text : D) ++ leBytes 4 0 ++ leBytes 4 durationMs ++ [truncated], 0)
  | .error .cancelled => ([], .inferenceCancelled, leBytes 8 nowResp ++ [0x01], 4)
  | .error e =>
      let (code, message) := inferErrorMessage e
      let message := message.take 255
      ([], .inferenceFailed, code :: UInt8.ofNat message.length :: message,
        match e with
        | .timeout => 1
        | .noSlot => 3
        | _ => 2)

/-- The slot of an inference that succeeded. -/
def slotInfoOf : Except InferError InferResponse → Option SlotAcquiredInfo
  | .ok resp => resp.slotInfo
  | .error _ => none

/-- The entry of an inference request: it has the hashes and the parents of the start of the
call. -/
def logInferenceRequest (c : Caller D) (call : InferCall D)
    (slotInfo : Option SlotAcquiredInfo) : Caller D :=
  (c.append .runtime (c.inferEntry call .inferenceRequest call.tsBefore call.hashBefore
    call.parents (inferenceRequestPayload call slotInfo))).2

/-- The response and its length in the memory of the guest; the pointers were checked. -/
def writeResponse (c : Caller D) (call : InferCall D) (written : List UInt8) : Caller D :=
  let memory := writeMem c.memory call.responseBufPtr written
  { c with memory := writeMem memory call.responseLenOutPtr (leBytes 4 written.length) }

/-- `agent_infer` after the backend has answered. -/
def agentInferFinish (c : Caller D) (call : InferCall D)
    (result : Except InferError InferResponse) (durationMs : ℕ) : Int32 × Caller D :=
  let (nowResp, c) := c.now
  let parentsResp := c.data.lastAction.toList
  let hashResp := c.tipHash
  let c := c.logInferenceRequest call (slotInfoOf result)
  let (written, t, payload, code) := inferOutcome call nowResp durationMs result
  let c := c.writeResponse call written
  let c := (c.append .runtime (c.inferEntry call t nowResp hashResp parentsResp payload)).2
  (code, c.logLifecycleEvent .active)

end Caller

/-- A call of the guest: it either returns, or suspends the guest in `agent_infer`. -/
def Caller.host {D : Type} [LinearOrder D] [ContentHash D] (c : Caller D) :
    HostCall → Option (InferCall D) × Caller D
  | .commitBarrier => (none, c.commitBarrier)
  | .agentAddCause actionIdPtr => (none, (c.agentAddCause actionIdPtr).2)
  | .agentCheckpoint => (none, c.agentCheckpoint.2)
  | .agentTerminate => (none, c.agentTerminate)
  | .agentIntrospect outPtr outMaxLen => (none, (c.agentIntrospect outPtr outMaxLen).2)
  | .agentSelfRollback depth => (none, (c.agentSelfRollback depth).2)
  | .agentSessionInfo outPtr outMaxLen => (none, (c.agentSessionInfo outPtr outMaxLen).2)
  | .agentRequestValidation riskLevel => (none, (c.agentRequestValidation riskLevel).2)
  | .agentGetVerdict => (none, c)
  | .agentCheckCap _ _ _ _ => (none, c)
  | .agentStoreGet resourcePtr resourceLen capId outPtr =>
      (none, (c.agentStoreGet resourcePtr resourceLen capId outPtr).2)
  | .agentStorePut resourcePtr resourceLen capId valPtr valLen =>
      (none, (c.agentStorePut resourcePtr resourceLen capId valPtr valLen).2)
  | .emit emitType ptr len => (none, c.emit emitType ptr len)
  | .agentInfer promptPtr promptLen responseBufPtr responseBufCap responseLenOutPtr
        timeoutMsReq =>
      if c.inferArgsOk promptPtr promptLen responseBufPtr responseBufCap responseLenOutPtr then
        let (call, c) := c.inferStart promptPtr promptLen responseBufPtr responseBufCap
          responseLenOutPtr timeoutMsReq
        (some call, c)
      else (none, c.inferRefused promptPtr promptLen responseLenOutPtr)

/-! ### What the host functions can do -/

namespace Caller

variable {D : Type}

theorem writeOut_memory (c : Caller D) (outPtr outMaxLen : Int32) (buf : List UInt8) :
    ∃ memory, (c.writeOut outPtr outMaxLen buf).2 = { c with memory } := by
  simp only [writeOut]
  split_ifs
  · exact ⟨c.memory, rfl⟩
  · exact ⟨_, rfl⟩
  · exact ⟨c.memory, rfl⟩

theorem inferRefused_memory (c : Caller D) (promptPtr promptLen responseLenOutPtr : Int32) :
    ∃ memory, c.inferRefused promptPtr promptLen responseLenOutPtr = { c with memory } := by
  simp only [inferRefused]
  split_ifs
  · exact ⟨_, rfl⟩
  · exact ⟨c.memory, rfl⟩

variable [ContentHash D]

/-- `agent_store_get` changes the memory of the guest, or logs a refusal. -/
theorem agentStoreGet_cases (c : Caller D) (resourcePtr resourceLen : Int32) (capId : UInt64)
    (outPtr : Int32) :
    (∃ memory, (c.agentStoreGet resourcePtr resourceLen capId outPtr).2 = { c with memory }) ∨
      ∃ resource, readStr c.memory (usize resourcePtr) (usize resourceLen) = some resource ∧
        c.checkCap capId resource ⟨true, false, false, false⟩ = false ∧
        (c.agentStoreGet resourcePtr resourceLen capId outPtr).2 =
          c.emitCapDenied capId resource 0x01 := by
  simp only [agentStoreGet]
  split
  · exact .inl ⟨c.memory, rfl⟩
  · rename_i resource hresource
    split_ifs with hdenied
    · exact .inr ⟨resource, hresource, by simpa using hdenied, rfl⟩
    · left
      split
      · exact ⟨c.memory, rfl⟩
      · split_ifs
        · exact ⟨_, rfl⟩
        · exact ⟨c.memory, rfl⟩

/-- `agent_store_put` does nothing, writes into the key-value store, or logs a refusal. -/
theorem agentStorePut_cases (c : Caller D) (resourcePtr resourceLen : Int32) (capId : UInt64)
    (valPtr valLen : Int32) :
    (c.agentStorePut resourcePtr resourceLen capId valPtr valLen).2 = c ∨
      ∃ resource value,
        c.storePutArgs resourcePtr resourceLen valPtr valLen = some (resource, value) ∧
        ((c.agentStorePut resourcePtr resourceLen capId valPtr valLen).2 =
            c.kvInsert resource value ∨
          c.checkCap capId resource ⟨false, true, false, false⟩ = false ∧
            (c.agentStorePut resourcePtr resourceLen capId valPtr valLen).2 =
              c.emitCapDenied capId resource 0x02) := by
  simp only [agentStorePut]
  split
  · exact .inl rfl
  · rename_i resource value hargs
    right
    refine ⟨resource, value, hargs, ?_⟩
    split_ifs with hdenied
    · exact .inr ⟨by simpa using hdenied, rfl⟩
    · exact .inl rfl

/-- `agent_self_rollback` does nothing, finds no path, or moves the tip along one. -/
theorem agentSelfRollback_cases [LinearOrder D] (c : Caller D) (depth : Int32) :
    (c.agentSelfRollback depth).2 = c ∨
      ∃ tip targetSeq, c.data.lastSnapshot = some tip ∧
        ((c.agentSelfRollback depth).2 = (c.rollbackPath tip targetSeq).2 ∨
          ∃ path nowMs nowUs payload, (c.rollbackPath tip targetSeq).1 = .ok path ∧
            (c.agentSelfRollback depth).2 =
              (c.rollbackPath tip targetSeq).2.now.2.now.2.moveTip .selfRollback tip
                (path.getLastD tip) nowMs nowUs payload) := by
  simp only [agentSelfRollback]
  split
  · exact .inl rfl
  · split
    · exact .inl rfl
    · split
      · exact .inl rfl
      · rename_i tip htip
        split
        · exact .inl rfl
        · right
          refine ⟨tip, c.data.seq - 1 - usize depth, htip, ?_⟩
          split
          · exact .inl rfl
          · rename_i path hpath
            exact .inr ⟨path, _, _, _, hpath, rfl⟩

end Caller

end Torpor
