import Torpor.Actor.RunLoop
import Torpor.Fleet.Dispatch
import Torpor.Lib.Blocks

/-!
# The Guest's Side of the Host Functions

The wrappers that a guest is linked with: the directive that it emits for a dispatcher, the state
and the session that it reads into a buffer, and the inference whose answer the host writes into
one. A buffer is a range of the memory of the guest, and its address is the pointer that the
wrapper passes.

## Main results

* `AgentSdk.decode_wire`: the host decodes a directive as the guest has built it.
* `AgentSdk.introspect_reads`: a guest reads back its own state.
* `AgentSdk.infer_reads`: a guest reads back the answer, cut to its buffer.
-/

namespace Torpor

open ContentHash Blocks

namespace AgentSdk

/-! ### Directives -/

/-- `directive_kind::ESCALATE`. -/
def escalate : UInt8 := 1

/-- `directive_kind::DELEGATE`. -/
def delegate : UInt8 := 2

/-- The bytes that `emit_route_directive` emits. -/
def wire (kind : UInt8) (payload : List UInt8) : List UInt8 :=
  [0xFD, 0x04, 0x01, kind] ++ payload

/-- The type that `emit_route_directive` emits them under. -/
def directiveEmitType : UInt8 := 0x03

/-- The host takes a directive of the guest for what it is, and refuses a kind that it does not
know. -/
theorem decode_wire (kind : UInt8) (payload : List UInt8) :
    RouteDirective.decode (wire kind payload) =
      (DirectiveKind.fromU8 kind).map fun k => ⟨k, payload⟩ := by
  refine Option.ext fun d => ?_
  rw [RouteDirective.decode_eq_some_iff, Option.map_eq_some_iff]
  constructor
  · intro h
    obtain ⟨k, payload'⟩ := d
    have hcons : kind :: payload = k.asU8 :: payload' := by
      simpa [wire, RouteDirective.encode, RouteDirective.magic, RouteDirective.version] using h
    obtain ⟨rfl, rfl⟩ := List.cons.inj hcons
    exact ⟨k, DirectiveKind.fromU8_eq_some_iff.mpr rfl, rfl⟩
  · rintro ⟨k, hk, rfl⟩
    rw [← DirectiveKind.fromU8_eq_some_iff.mp hk]
    rfl

/-! ### Buffers -/

/-- `INTROSPECT_LEN`. -/
def introspectLen : ℕ := 74

/-- `SESSION_INFO_LEN`. -/
def sessionInfoLen : ℕ := 24

/-- `from_le_bytes`. -/
def fromLeBytes (bs : List UInt8) : ℕ := bs.foldr (fun b n => n * 256 + b.toNat) 0

/-- `seq_from_introspect`. -/
def seqFromIntrospect (buf : List UInt8) : ℕ := fromLeBytes (slice buf 32 8)

/-- `lifecycle_from_introspect`. -/
def lifecycleFromIntrospect (buf : List UInt8) : UInt8 := buf.getD 73 0

/-- `has_action`. -/
def hasAction (buf : List UInt8) : Bool := buf.getD 72 0 &&& 0x01 ≠ 0

/-- `has_snapshot`. -/
def hasSnapshot (buf : List UInt8) : Bool := buf.getD 72 0 &&& 0x02 ≠ 0

/-- What a guest finds in a buffer of its own. -/
def bufferAt {D : Type} (c : Caller D) (buf : Int32) (len : ℕ) : List UInt8 :=
  readMem c.memory (usize buf) len

section Wrappers

variable {D : Type}

/-- `session_info`. -/
def sessionInfo (c : Caller D) (buf : Int32) : Int32 × Caller D :=
  c.agentSessionInfo buf (Int32.ofNat sessionInfoLen)

variable [ContentHash D]

/-- `introspect`. -/
def introspect (c : Caller D) (buf : Int32) : Int32 × Caller D :=
  c.agentIntrospect buf (Int32.ofNat introspectLen)

/-- `INFER_OK`. -/
def inferOk : Int32 := 0

/-- What `infer` makes of the code that the host returns and of the length that it wrote. -/
def inferReturned (rc : Int32) (lenOut : List UInt8) : Except Int32 ℕ :=
  if rc = inferOk then .ok (fromLeBytes lenOut) else .error rc

end Wrappers

/-! ### Writes to the memory of a guest -/

theorem slice_overwrite {α : Type} {l d : List α} {i : ℕ} (h : i + d.length ≤ l.length) :
    slice (overwrite l i d) i d.length = d := by
  refine List.ext_getElem? fun k => ?_
  by_cases hk : k < d.length
  · rw [getElem?_slice hk, getElem?_overwrite h, if_pos ⟨by omega, by omega⟩,
      Nat.add_sub_cancel_left]
  · have hlength := length_overwrite h
    have hslice : (slice (overwrite l i d) i d.length).length = d.length :=
      length_slice (by omega)
    rw [List.getElem?_eq_none_iff.mpr (by omega), List.getElem?_eq_none_iff.mpr (by omega)]

theorem slice_overwrite_of_disjoint {α : Type} {l d : List α} {i j n : ℕ}
    (h : i + d.length ≤ l.length) (hdisjoint : j + n ≤ i ∨ i + d.length ≤ j) :
    slice (overwrite l i d) j n = slice l j n := by
  refine List.ext_getElem? fun k => ?_
  by_cases hk : k < n
  · rw [getElem?_slice hk, getElem?_slice hk, getElem?_overwrite h, if_neg (by omega)]
  · have hlength : ∀ m : List α, (slice m j n).length ≤ n := fun m => List.length_take_le _ _
    rw [List.getElem?_eq_none_iff.mpr ((hlength _).trans (by omega)),
      List.getElem?_eq_none_iff.mpr ((hlength _).trans (by omega))]

/-- A buffer that is overwritten at its start. -/
theorem slice_overwrite_le {α : Type} {l d : List α} {i n : ℕ} (hn : d.length ≤ n)
    (h : i + n ≤ l.length) : slice (overwrite l i d) i n = d ++ (slice l i n).drop d.length := by
  refine List.ext_getElem? fun k => ?_
  by_cases hk : k < n
  · rw [getElem?_slice hk, getElem?_overwrite (by omega), List.getElem?_append]
    by_cases hd : k < d.length
    · rw [if_pos ⟨by omega, by omega⟩, if_pos hd, Nat.add_sub_cancel_left]
    · rw [if_neg (by omega), if_neg hd, List.getElem?_drop, getElem?_slice (by omega)]
      congr 1
      omega
  · have hslice : (slice l i n).length = n := length_slice h
    have hlength : (overwrite l i d).length = l.length := length_overwrite (by omega)
    have hslice' : (slice (overwrite l i d) i n).length = n := length_slice (by omega)
    rw [List.getElem?_eq_none_iff.mpr (by omega), List.getElem?_eq_none_iff.mpr]
    rw [List.length_append, List.length_drop, hslice]
    omega

/-! ### Reading back the state -/

section Introspect

variable {D : Type} {c : Caller D} {buf : Int32}

/-- A host function that copies a buffer out, called with a buffer of exactly that length. -/
theorem writeOut_reads (out : List UInt8)
    (hin : inBounds c.memory (usize buf) out.length = true) :
    (c.writeOut buf (Int32.ofNat out.length) out).1 = Int32.ofNat out.length ∧
      bufferAt (c.writeOut buf (Int32.ofNat out.length) out).2 buf out.length = out ∧
      (c.writeOut buf (Int32.ofNat out.length) out).2 =
        { c with memory := overwrite c.memory (usize buf) out } := by
  have hle : usize buf + out.length ≤ c.memory.length := by
    have := hin
    simp only [inBounds, Bool.and_eq_true, decide_eq_true_eq] at this
    exact this.2
  rw [Caller.writeOut, if_neg Int32.lt_irrefl, if_pos hin]
  exact ⟨rfl, slice_overwrite hle, rfl⟩

omit c buf in
/-- The second of two parts, and so on from there. -/
theorem slice_append_right {l r : List UInt8} {i j n : ℕ} (h : l.length = i) :
    slice (l ++ r) (i + j) n = slice r j n := by
  rw [slice, slice, ← List.drop_drop, List.drop_left' h]

omit c buf in
theorem slice_append_left {l r : List UInt8} {n : ℕ} (h : l.length = n) :
    slice (l ++ r) 0 n = l := by
  rw [slice, List.drop_zero, List.take_left' h]

omit c buf in
theorem fromLeBytes_leBytes (k n : ℕ) : fromLeBytes (leBytes k n) = n % 256 ^ k := foldr_leBytes k n

/-- What the host copies out for `agent_session_info`. -/
def sessionBytes (c : Caller D) : List UInt8 :=
  leBytes 8 c.data.sessionId ++ (leBytes 8 (c.data.seq - c.data.sessionStartSeq) ++
    leBytes 8 c.data.sessionStartedAtMs)

theorem length_sessionBytes : (sessionBytes c).length = sessionInfoLen := by
  simp only [sessionBytes, List.length_append, length_leBytes]
  rfl

theorem sessionInfo_eq : sessionInfo c buf =
    c.writeOut buf (Int32.ofNat sessionInfoLen) (sessionBytes c) := by
  simp only [sessionInfo, Caller.agentSessionInfo, sessionBytes, List.append_assoc]

theorem sessionBytes_parts :
    slice (sessionBytes c) 0 8 = leBytes 8 c.data.sessionId ∧
      slice (sessionBytes c) 8 8 = leBytes 8 (c.data.seq - c.data.sessionStartSeq) ∧
      slice (sessionBytes c) 16 8 = leBytes 8 c.data.sessionStartedAtMs := by
  have hlength : ∀ n, (leBytes 8 n).length = 8 := fun n => length_leBytes 8 n
  refine ⟨slice_append_left (hlength _), ?_, ?_⟩
  · exact (slice_append_right (j := 0) (hlength _)).trans (slice_append_left (hlength _))
  · refine (slice_append_right (j := 8) (hlength _)).trans
      ((slice_append_right (j := 0) (hlength _)).trans ?_)
    exact List.take_of_length_le (hlength _).le

omit c buf in
/-- The two flags are told apart. -/
theorem flags_bits (a s : Bool) :
    decide (((if a then (0x01 : UInt8) else 0) ||| (if s then 0x02 else 0)) &&& 0x01 ≠ 0) = a ∧
      decide (((if a then (0x01 : UInt8) else 0) ||| (if s then 0x02 else 0)) &&& 0x02 ≠ 0) = s := by
  cases a <;> cases s <;> decide

variable [ContentHash D]

/-- What the host copies out for `agent_introspect`. -/
def introspectBytes (c : Caller D) : List UInt8 :=
  ((c.data.lastAction.map bytes).getD (List.replicate 32 0)) ++ (leBytes 8 c.data.seq ++
    (((c.data.lastSnapshot.map bytes).getD (List.replicate 32 0)) ++
      [(if c.data.lastAction.isSome then 0x01 else 0) |||
        (if c.data.lastSnapshot.isSome then 0x02 else 0), c.data.lifecycle.asU8]))

theorem length_digest (o : Option D) :
    ((o.map bytes).getD (List.replicate 32 (0 : UInt8))).length = 32 := by
  cases o with
  | none => exact List.length_replicate
  | some d => exact bytes_length d

theorem length_introspectBytes : (introspectBytes c).length = introspectLen := by
  simp only [introspectBytes, List.length_append, length_digest, length_leBytes,
    List.length_cons, List.length_nil]
  rfl

theorem introspect_eq : introspect c buf =
    c.writeOut buf (Int32.ofNat introspectLen) (introspectBytes c) := by
  simp only [introspect, Caller.agentIntrospect, introspectBytes, List.append_assoc]

/-- The parts of what is copied out, at the places where the wrappers look for them. -/
theorem introspectBytes_parts :
    slice (introspectBytes c) 0 32 =
        ((c.data.lastAction.map bytes).getD (List.replicate 32 0)) ∧
      slice (introspectBytes c) 32 8 = leBytes 8 c.data.seq ∧
      slice (introspectBytes c) 40 32 =
        ((c.data.lastSnapshot.map bytes).getD (List.replicate 32 0)) ∧
      (introspectBytes c).getD 72 0 = ((if c.data.lastAction.isSome then 0x01 else 0) |||
        (if c.data.lastSnapshot.isSome then 0x02 else 0)) ∧
      (introspectBytes c).getD 73 0 = c.data.lifecycle.asU8 := by
  have haction := length_digest c.data.lastAction
  have hsnapshot := length_digest c.data.lastSnapshot
  have hseq : (leBytes 8 c.data.seq).length = 8 := length_leBytes 8 _
  have hget : ∀ j, (introspectBytes c).getD (72 + j) 0 =
      [(if c.data.lastAction.isSome then (0x01 : UInt8) else 0) |||
        (if c.data.lastSnapshot.isSome then 0x02 else 0), c.data.lifecycle.asU8].getD j 0 := by
    intro j
    have hskip : 72 + j - 32 - 8 - 32 = j := by omega
    rw [introspectBytes, List.getD_eq_getElem?_getD, List.getD_eq_getElem?_getD,
      List.getElem?_append_right (by omega), haction, List.getElem?_append_right (by omega), hseq,
      List.getElem?_append_right (by omega), hsnapshot, hskip]
  refine ⟨slice_append_left haction, ?_, ?_, hget 0, hget 1⟩
  · exact (slice_append_right (j := 0) haction).trans (slice_append_left hseq)
  · have hskip := slice_append_right (j := 8) (n := 32) (r := leBytes 8 c.data.seq ++
      (((c.data.lastSnapshot.map bytes).getD (List.replicate 32 0)) ++
        [(if c.data.lastAction.isSome then 0x01 else 0) |||
          (if c.data.lastSnapshot.isSome then 0x02 else 0), c.data.lifecycle.asU8])) haction
    exact hskip.trans ((slice_append_right (j := 0) hseq).trans (slice_append_left hsnapshot))

end Introspect

/-- **A guest reads back its own state.** Where the buffer lies in the memory, the wrappers find in
it what the agent is: its sequence number, its stage of life, whether it has acted and committed,
and the digests of its last action and snapshot; the session has its number, its count and its
start. The rest of the memory, the agent and the world stay as they were. Elsewhere the call is
refused and changes nothing. -/
theorem introspect_reads {D : Type} [ContentHash D] (c : Caller D) (buf : Int32) :
    (inBounds c.memory (usize buf) introspectLen = true →
      (introspect c buf).1 = Int32.ofNat introspectLen ∧
      ∃ b, bufferAt (introspect c buf).2 buf introspectLen = b ∧
        seqFromIntrospect b = c.data.seq % 2 ^ 64 ∧
        lifecycleFromIntrospect b = c.data.lifecycle.asU8 ∧
        hasAction b = c.data.lastAction.isSome ∧ hasSnapshot b = c.data.lastSnapshot.isSome ∧
        (∀ id ∈ c.data.lastAction, slice b 0 32 = bytes id) ∧
        (∀ id ∈ c.data.lastSnapshot, slice b 40 32 = bytes id) ∧
        (introspect c buf).2 = { c with memory := overwrite c.memory (usize buf) b }) ∧
    (inBounds c.memory (usize buf) introspectLen = false → introspect c buf = (-2, c)) ∧
    (inBounds c.memory (usize buf) sessionInfoLen = true →
      (sessionInfo c buf).1 = Int32.ofNat sessionInfoLen ∧
      ∃ b, bufferAt (sessionInfo c buf).2 buf sessionInfoLen = b ∧
        fromLeBytes (slice b 0 8) = c.data.sessionId % 2 ^ 64 ∧
        fromLeBytes (slice b 8 8) = (c.data.seq - c.data.sessionStartSeq) % 2 ^ 64 ∧
        fromLeBytes (slice b 16 8) = c.data.sessionStartedAtMs % 2 ^ 64 ∧
        (sessionInfo c buf).2 = { c with memory := overwrite c.memory (usize buf) b }) ∧
    (inBounds c.memory (usize buf) sessionInfoLen = false → sessionInfo c buf = (-2, c)) := by
  have hbytes : (256 : ℕ) ^ 8 = 2 ^ 64 := by norm_num
  refine ⟨fun hin => ?_, fun hout => ?_, fun hin => ?_, fun hout => ?_⟩
  · rw [← length_introspectBytes (c := c)] at hin ⊢
    obtain ⟨hrc, hbuffer, hframe⟩ := writeOut_reads (introspectBytes c) hin
    rw [introspect_eq, ← length_introspectBytes (c := c)]
    obtain ⟨haction, hseq, hsnapshot, hflags, hlifecycle⟩ := introspectBytes_parts (c := c)
    refine ⟨hrc, introspectBytes c, hbuffer, ?_, hlifecycle, ?_, ?_, ?_, ?_, hframe⟩
    · rw [seqFromIntrospect, hseq, fromLeBytes_leBytes, hbytes]
    · rw [hasAction, hflags]
      exact (flags_bits _ _).1
    · rw [hasSnapshot, hflags]
      exact (flags_bits _ _).2
    · rintro id hid
      rw [haction, Option.mem_def.mp hid]
      rfl
    · rintro id hid
      rw [hsnapshot, Option.mem_def.mp hid]
      rfl
  · rw [introspect_eq, Caller.writeOut, length_introspectBytes, if_neg Int32.lt_irrefl, hout]
    rfl
  · rw [← length_sessionBytes (c := c)] at hin ⊢
    obtain ⟨hrc, hbuffer, hframe⟩ := writeOut_reads (sessionBytes c) hin
    rw [sessionInfo_eq, ← length_sessionBytes (c := c)]
    obtain ⟨hid, hcount, hstart⟩ := sessionBytes_parts (c := c)
    refine ⟨hrc, sessionBytes c, hbuffer, ?_, ?_, ?_, hframe⟩
    · rw [hid, fromLeBytes_leBytes, hbytes]
    · rw [hcount, fromLeBytes_leBytes, hbytes]
    · rw [hstart, fromLeBytes_leBytes, hbytes]
  · rw [sessionInfo_eq, Caller.writeOut, length_sessionBytes, if_neg Int32.lt_irrefl, hout]
    rfl

/-! ### Reading back an answer -/

section Infer

variable {D : Type} [ContentHash D]

/-- An append does not touch the memory of the guest. -/
theorem append_memory (c : Caller D) (writer : Writer) (e : LogEntry D) :
    (c.append writer e).2.memory = c.memory := by
  simp only [Caller.append, Caller.setData]
  split_ifs
  · rfl
  · rfl

theorem logLifecycleEvent_memory (c : Caller D) (state : LifecycleState) :
    (c.logLifecycleEvent state).memory = c.memory := by
  simp only [Caller.logLifecycleEvent]
  split_ifs
  · rfl
  · exact append_memory _ _ _
  · exact append_memory _ _ _

/-- After an inference the memory has the answer, and its length. -/
theorem agentInferFinish_memory (c : Caller D) (call : InferCall D)
    (result : Except InferError InferResponse) (durationMs : ℕ) :
    ∃ nowResp, (c.agentInferFinish call result durationMs).1 =
        (Caller.inferOutcome (D := D) call nowResp durationMs result).2.2.2 ∧
      (c.agentInferFinish call result durationMs).2.memory =
        overwrite
          (overwrite c.memory call.responseBufPtr
            (Caller.inferOutcome (D := D) call nowResp durationMs result).1)
          call.responseLenOutPtr
          (leBytes 4 (Caller.inferOutcome (D := D) call nowResp durationMs result).1.length) := by
  refine ⟨c.now.1, rfl, ?_⟩
  simp only [Caller.agentInferFinish, logLifecycleEvent_memory, append_memory,
    Caller.writeResponse]
  rw [Caller.logInferenceRequest, append_memory]
  rfl

/-- The code that `agent_infer` returns for an error of the backend. -/
def inferErrorCode : InferError → Int32
  | .timeout => 1
  | .backendError .. => 2
  | .noSlot => 3
  | .cancelled => 4

/-- What an inference leaves in the buffer, and the code that it returns. -/
theorem inferOutcome_written (call : InferCall D) (nowResp durationMs : ℕ)
    (result : Except InferError InferResponse) :
    (∀ resp, result = .ok resp →
        (Caller.inferOutcome (D := D) call nowResp durationMs result).1 =
          resp.text.take call.responseBufCap ∧
        (Caller.inferOutcome (D := D) call nowResp durationMs result).2.2.2 = inferOk) ∧
      ∀ e, result = .error e →
        (Caller.inferOutcome (D := D) call nowResp durationMs result).1 = [] ∧
        (Caller.inferOutcome (D := D) call nowResp durationMs result).2.2.2 = inferErrorCode e := by
  constructor
  · rintro resp rfl
    exact ⟨rfl, rfl⟩
  · rintro e rfl
    cases e with
    | cancelled => exact ⟨rfl, rfl⟩
    | timeout => exact ⟨rfl, rfl⟩
    | backendError code message => exact ⟨rfl, rfl⟩
    | noSlot => exact ⟨rfl, rfl⟩

theorem inferErrorCode_ne_ok (e : InferError) : inferErrorCode e ≠ inferOk := by
  cases e with
  | timeout => decide
  | backendError code message => exact (by decide : (2 : Int32) ≠ 0)
  | noSlot => decide
  | cancelled => decide

end Infer

/-- **A guest reads back the answer to its prompt.** The pointers are in bounds, and the wrapper
keeps the length apart from the buffer. Whatever the agent and the world do while the guest is
suspended, `infer` returns how much of the answer is in the buffer, which begins with it and is
otherwise as it was; or the code of the error, and the buffer is as it was. Nothing else in the
memory changes. -/
theorem infer_reads {D : Type} [ContentHash D] (c c' : Caller D)
    (promptPtr promptLen bufPtr bufCap lenPtr timeoutMs : Int32)
    (hargs : c.inferArgsOk promptPtr promptLen bufPtr bufCap lenPtr = true)
    (hsize : c.memory.length < 2 ^ 32)
    (hdisjoint : usize bufPtr + usize bufCap ≤ usize lenPtr ∨ usize lenPtr + 4 ≤ usize bufPtr)
    (hsuspended : c'.memory = c.memory) (result : Except InferError InferResponse)
    (durationMs : ℕ) :
    ∃ rc t, c'.agentInferFinish
        (c.inferStart promptPtr promptLen bufPtr bufCap lenPtr timeoutMs).1 result durationMs =
          (rc, t) ∧
      (∀ resp, result = .ok resp →
        inferReturned rc (bufferAt t lenPtr 4) = .ok (min (usize bufCap) resp.text.length) ∧
        bufferAt t bufPtr (usize bufCap) = resp.text.take (usize bufCap) ++
          (bufferAt c bufPtr (usize bufCap)).drop resp.text.length) ∧
      (∀ e, result = .error e →
        inferReturned rc (bufferAt t lenPtr 4) = .error (inferErrorCode e) ∧
        bufferAt t bufPtr (usize bufCap) = bufferAt c bufPtr (usize bufCap)) ∧
      ∀ k, (k < usize bufPtr ∨ usize bufPtr + usize bufCap ≤ k) →
        (k < usize lenPtr ∨ usize lenPtr + 4 ≤ k) → t.memory[k]? = c.memory[k]? := by
  simp only [Caller.inferArgsOk, inBounds, Bool.and_eq_true, decide_eq_true_eq] at hargs
  obtain ⟨⟨-, -, hlen⟩, -, hbuf⟩ := hargs
  obtain ⟨nowResp, hrc, hmemory⟩ := agentInferFinish_memory c'
    (c.inferStart promptPtr promptLen bufPtr bufCap lenPtr timeoutMs).1 result durationMs
  obtain ⟨hok, herror⟩ := inferOutcome_written
    (c.inferStart promptPtr promptLen bufPtr bufCap lenPtr timeoutMs).1 nowResp durationMs result
  generalize houtcome : Caller.inferOutcome (D := D) (c.inferStart promptPtr promptLen bufPtr
    bufCap lenPtr timeoutMs).1 nowResp durationMs result = outcome at hrc hmemory hok herror
  obtain ⟨written, emitType, payload, code⟩ := outcome
  have hcall : (c.inferStart promptPtr promptLen bufPtr bufCap lenPtr timeoutMs).1.responseBufPtr =
      usize bufPtr ∧ (c.inferStart promptPtr promptLen bufPtr bufCap lenPtr
        timeoutMs).1.responseBufCap = usize bufCap ∧ (c.inferStart promptPtr promptLen bufPtr
        bufCap lenPtr timeoutMs).1.responseLenOutPtr = usize lenPtr := ⟨rfl, rfl, rfl⟩
  rw [hcall.1, hcall.2.2, hsuspended] at hmemory
  rw [hcall.2.1] at hok
  dsimp only at hrc hmemory hok herror
  -- Whatever the outcome, what is written fits the buffer.
  have hfits : written.length ≤ usize bufCap := by
    cases result with
    | ok resp =>
        rw [(hok resp rfl).1]
        exact List.length_take_le _ _
    | error e =>
        rw [(herror e rfl).1]
        exact Nat.zero_le _
  have hfour : (leBytes 4 written.length).length = 4 := length_leBytes 4 _
  have hinner : (overwrite c.memory (usize bufPtr) written).length = c.memory.length :=
    length_overwrite (by omega)
  have hlength : fromLeBytes (slice (overwrite (overwrite c.memory (usize bufPtr) written)
      (usize lenPtr) (leBytes 4 written.length)) (usize lenPtr) 4) = written.length := by
    have hslice := slice_overwrite (l := overwrite c.memory (usize bufPtr) written)
      (d := leBytes 4 written.length) (i := usize lenPtr) (by omega)
    rw [hfour] at hslice
    rw [hslice, fromLeBytes_leBytes]
    omega
  have hbuffer : slice (overwrite (overwrite c.memory (usize bufPtr) written)
      (usize lenPtr) (leBytes 4 written.length)) (usize bufPtr) (usize bufCap) =
        written ++ (slice c.memory (usize bufPtr) (usize bufCap)).drop written.length := by
    rw [slice_overwrite_of_disjoint (by omega) (by omega), slice_overwrite_le hfits (by omega)]
  refine ⟨_, _, Prod.mk.eta.symm, ?_, ?_, ?_⟩
  · rintro resp rfl
    obtain ⟨rfl, rfl⟩ := hok resp rfl
    rw [bufferAt, bufferAt, hmemory, hrc, inferReturned, if_pos rfl]
    refine ⟨congrArg Except.ok (hlength.trans List.length_take), hbuffer.trans ?_⟩
    -- An answer that is too long fills the buffer, so that nothing of what was in it is left.
    have hslice : (slice c.memory (usize bufPtr) (usize bufCap)).length = usize bufCap :=
      length_slice hbuf
    congr 1
    rw [List.length_take]
    rcases Nat.le_total resp.text.length (usize bufCap) with hle | hle
    · rw [Nat.min_eq_right hle]
      rfl
    · rw [Nat.min_eq_left hle, List.drop_of_length_le hslice.le]
      exact (List.drop_of_length_le (hslice.trans_le hle)).symm
  · rintro e rfl
    obtain ⟨rfl, rfl⟩ := herror e rfl
    rw [bufferAt, bufferAt, hmemory, hrc, inferReturned, if_neg (inferErrorCode_ne_ok e)]
    exact ⟨rfl, hbuffer⟩
  · intro k hk hk'
    rw [hmemory, getElem?_overwrite (by omega), if_neg (by omega), getElem?_overwrite (by omega),
      if_neg (by omega)]

/-- A guest with 32 bytes of memory. -/
def sampleGuest : Caller (List ℕ) := { Actor.sampleAgent.caller with memory := List.replicate 32 7 }

/-- An answer of ten bytes, of which a buffer of eight has room for the first. -/
def sampleAnswer : InferResponse := ⟨[1, 2, 3, 4, 5, 6, 7, 8, 9, 10], none⟩

theorem infer_reads_sampleAnswer :
    ∃ rc t, sampleGuest.agentInferFinish (sampleGuest.inferStart 0 4 8 8 20 1000).1
        (.ok sampleAnswer) 0 = (rc, t) ∧
      inferReturned rc (bufferAt t 20 4) = .ok 8 ∧
      bufferAt t 8 8 = [1, 2, 3, 4, 5, 6, 7, 8] := by
  obtain ⟨rc, t, heq, hok, -, -⟩ := infer_reads sampleGuest sampleGuest 0 4 8 8 20 1000
    (by decide) (by decide) (by decide) rfl (.ok sampleAnswer) 0
  obtain ⟨hlength, hbuffer⟩ := hok sampleAnswer rfl
  exact ⟨rc, t, heq, hlength, hbuffer⟩

end AgentSdk

end Torpor
