import Torpor.Actor.Emissions

/-!
# The Audit Reader

`os-poc-reconstruct` prints one line for each entry of the log, with a summary of its payload that
`summarize` decodes byte by byte. The payloads are laid out by the runtime, in another crate
(`RuntimeEmission`).

A summary is the fields that the line shows; the text around them is left out. A name that the
line prints for a byte is the variant of that name.

## Main results

* `readsBack_iff`: what the runtime lays out is read back exactly if it is legible: the reader
  does not know the verdict `Cancelled`, takes an aggregated refusal for an individual one unless
  the bytes of its count happen to lead it past, and cannot read a text that the runtime has cut
  through a character.
* `ownWrites_readsBack_iff`: the entries of every run of an agent.
* `audit_misreads`: the first aggregated refusal of a window, a cancelled validation, a refusal
  for a resource that is cut.
-/

namespace Torpor

/-- The causes of a cancelled inference that the reader knows. -/
inductive CancelName
  | rollback | terminate
  deriving DecidableEq, Repr

/-- What the reader prints as the class from which a request was promoted. -/
inductive PromotedName
  | none
  | from_ (priority : PriorityClass)
  | unknown (v : UInt8)
  deriving DecidableEq, Repr

/-- The permissions that the reader names. -/
inductive PermName
  | read | write | execute | delegate
  deriving DecidableEq, Repr

/-- The line of an entry, without what stands around the fields. -/
inductive Summary
  | size (length : ℕ)
  | truncated (length : ℕ)
  | lifecycle (state : LifecycleState) (seq : ℕ) (profile : Option AgentProfile)
  | lifecycleShort (state : LifecycleState) (length : ℕ)
  | unknownState (v : UInt8)
  | unknownProfile (state : LifecycleState) (seq : ℕ) (v : UInt8)
  | introspect (seq : ℕ) (flags lifecycle : UInt8)
  | selfRollback (depth : UInt8) (targetSeq : ℕ)
  | risk (v : UInt8)
  | verdict (v : ValidationVerdict)
  | unknownVerdict (v : UInt8)
  | schedulerRollback (distance : UInt8) (targetSeq : ℕ) (capsInvalidated : UInt8)
  | inferenceRequest (model : List Char) (timeoutReq timeoutEff : ℕ)
      (slot : Option (PriorityClass × ℕ × PromotedName))
  | unknownPriority (model : List Char) (timeoutReq timeoutEff : ℕ) (v : UInt8)
  | inferenceResponse (tokens duration : ℕ) (truncated : UInt8)
  | inferenceCancelled (ts : ℕ) (cause : CancelName)
  | unknownCancel (v : UInt8)
  | inferenceFailed (code : UInt8) (message : List Char)
  | messageTruncated (code : UInt8)
  | compensation (agent : List UInt8)
  | agentCrash (cause : CrashName) (parent lastAction : Option (List UInt8))
  | unknownCrash (v : UInt8)
  | capDenied (capId : ℕ) (resource : List Char) (denied : List PermName)
  | capDeniedAggregated (capId count : ℕ) (perm : UInt8)
  | capDeniedShort (capId length : ℕ)
  deriving DecidableEq, Repr

/-- Whether the line reports neither a payload that is too short nor a value that is unknown. -/
def Summary.complete : Summary → Bool
  | truncated _ | lifecycleShort _ _ | unknownState _ | unknownProfile _ _ _ | unknownVerdict _
  | unknownPriority _ _ _ _ | unknownCancel _ | messageTruncated _ | unknownCrash _
  | capDeniedShort _ _ => false
  | inferenceRequest _ _ _ (some (_, _, .unknown _)) => false
  | _ => true

namespace Reconstruct

/-! ### Reading bytes -/

/-- `payload[i]`, for a place in the payload. -/
def byteAt (p : List UInt8) (i : ℕ) : UInt8 := p.getD i 0

/-- `payload[i..i + n]`, for places in the payload. -/
def slice (p : List UInt8) (i n : ℕ) : List UInt8 := (p.drop i).take n

/-- `from_le_bytes`. -/
def leAt (p : List UInt8) (i n : ℕ) : ℕ :=
  (slice p i n).foldr (fun b m => m * 256 + b.toNat) 0

/-- The first bytes of an identifier; all zero stands for none. -/
def short (bs : List UInt8) : Option (List UInt8) :=
  if bs.all (· = 0) then none else some (bs.take 8)

theorem byteAt_append {a rest : List UInt8} {b : UInt8} {i : ℕ} (ha : a.length = i) :
    byteAt (a ++ b :: rest) i = b := by
  simp [byteAt, ← ha]

theorem byteAt_append_right {a bs : List UInt8} {i : ℕ} (ha : a.length = i) (j : ℕ) :
    byteAt (a ++ bs) (i + j) = byteAt bs j := by
  simp [byteAt, ← ha, List.getElem?_append_right]

theorem slice_append {a s rest : List UInt8} {i n : ℕ} (ha : a.length = i) (hs : s.length = n) :
    slice (a ++ (s ++ rest)) i n = s := by
  rw [slice, ← ha, List.drop_left, ← hs, List.take_left]

theorem slice_concat {a s : List UInt8} {i n : ℕ} (ha : a.length = i) (hs : s.length = n) :
    slice (a ++ s) i n = s := by
  have happend : slice (a ++ (s ++ [])) i n = s := slice_append ha hs
  rwa [List.append_nil] at happend

theorem leAt_append {a rest : List UInt8} {i k n : ℕ} (ha : a.length = i) (hn : n < 256 ^ k) :
    leAt (a ++ (leBytes k n ++ rest)) i k = n := by
  rw [leAt, slice_append ha (length_leBytes k n), foldr_leBytes, Nat.mod_eq_of_lt hn]

theorem leAt_concat {a : List UInt8} {i k n : ℕ} (ha : a.length = i) (hn : n < 256 ^ k) :
    leAt (a ++ leBytes k n) i k = n := by
  have happend : leAt (a ++ (leBytes k n ++ [])) i k = n := leAt_append ha hn
  rwa [List.append_nil] at happend

/-! ### The arms of `summarize` -/

def stateOf (v : UInt8) : Option LifecycleState :=
  match v with
  | 0 => some .spawned
  | 1 => some .active
  | 2 => some .suspended
  | 3 => some .checkpointed
  | 4 => some .terminated
  | 5 => some .awaitingValidation
  | 6 => some .waitingInference
  | _ => none

def profileOf (v : UInt8) : Option AgentProfile :=
  match v with
  | 0x01 => some .algo
  | 0x02 => some .llmShort
  | 0x03 => some .llmLong
  | 0x04 => some .batch
  | _ => none

def summarizeLifecycle (p : List UInt8) : Summary :=
  if p.isEmpty then .truncated 0
  else match stateOf (byteAt p 0) with
    | none => .unknownState (byteAt p 0)
    | some state =>
        if byteAt p 0 = 0 ∧ 10 ≤ p.length then
          match profileOf (byteAt p 9) with
          | some profile => .lifecycle state (leAt p 1 8) (some profile)
          | none => .unknownProfile state (leAt p 1 8) (byteAt p 9)
        else if 9 ≤ p.length then .lifecycle state (leAt p 1 8) none
        else .lifecycleShort state p.length

def summarizeIntrospect (p : List UInt8) : Summary :=
  if 74 ≤ p.length then .introspect (leAt p 32 8) (byteAt p 72) (byteAt p 73)
  else .truncated p.length

def summarizeSelfRollback (p : List UInt8) : Summary :=
  if 9 ≤ p.length then .selfRollback (byteAt p 0) (leAt p 1 8) else .truncated p.length

def summarizeValidationRequest (p : List UInt8) : Summary :=
  if p.isEmpty then .truncated 0 else .risk (byteAt p 0)

/-- The reader knows three verdicts. -/
def verdictOf (v : UInt8) : Option ValidationVerdict :=
  match v with
  | 0 => some .approved
  | 1 => some .rejected
  | 2 => some .timeout
  | _ => none

def summarizeValidationResponse (p : List UInt8) : Summary :=
  if p.isEmpty then .truncated 0
  else match verdictOf (byteAt p 0) with
    | some v => .verdict v
    | none => .unknownVerdict (byteAt p 0)

def summarizeSchedulerRollback (p : List UInt8) : Summary :=
  if 10 ≤ p.length then .schedulerRollback (byteAt p 0) (leAt p 1 8) (byteAt p 9)
  else .truncated p.length

def classOf (v : UInt8) : Option PriorityClass :=
  match v with
  | 0x01 => some .supervisor
  | 0x02 => some .foreground
  | 0x03 => some .batch
  | _ => none

def promotedOf (v : UInt8) : PromotedName :=
  if v = 0xFF then .none
  else match classOf v with
    | some c => .from_ c
    | none => .unknown v

def summarizeInferenceRequest (p : List UInt8) : Summary :=
  if 33 ≤ p.length then
    let modelLen := (byteAt p 32).toNat
    let base := 33 + modelLen
    if base + 8 ≤ p.length then
      let req := leAt p base 4
      let eff := leAt p (base + 4) 4
      let model := Utf8.lossy (slice p 33 modelLen)
      if base + 8 + 4 ≤ p.length then
        match classOf (byteAt p (base + 8)) with
        | none => .unknownPriority model req eff (byteAt p (base + 8))
        | some c =>
            .inferenceRequest model req eff
              (some (c, leAt p (base + 9) 2, promotedOf (byteAt p (base + 11))))
      else .inferenceRequest model req eff none
    else .truncated p.length
  else .truncated p.length

def summarizeInferenceResponse (p : List UInt8) : Summary :=
  if 41 ≤ p.length then .inferenceResponse (leAt p 32 4) (leAt p 36 4) (byteAt p 40)
  else .truncated p.length

def summarizeInferenceCancelled (p : List UInt8) : Summary :=
  if 9 ≤ p.length then
    match byteAt p 8 with
    | 0x01 => .inferenceCancelled (leAt p 0 8) .rollback
    | 0x02 => .inferenceCancelled (leAt p 0 8) .terminate
    | v => .unknownCancel v
  else .truncated p.length

def summarizeInferenceFailed (p : List UInt8) : Summary :=
  if 2 ≤ p.length then
    let msgLen := (byteAt p 1).toNat
    if 2 + msgLen ≤ p.length then
      .inferenceFailed (byteAt p 0) (Utf8.lossy (slice p 2 msgLen))
    else .messageTruncated (byteAt p 0)
  else .truncated p.length

def summarizeCompensation (p : List UInt8) : Summary :=
  if 16 ≤ p.length then .compensation (slice p 0 8) else .truncated p.length

def crashOf (v : UInt8) : Option CrashName :=
  match v with
  | 0x01 => some .processFailed
  | 0x02 => some .contentStoreBroken
  | 0x03 => some .watchdogTrap
  | 0x04 => some .hostPanic
  | _ => none

def summarizeAgentCrash (p : List UInt8) : Summary :=
  if p.length < 49 then .truncated p.length
  else match crashOf (byteAt p 0) with
    | none => .unknownCrash (byteAt p 0)
    | some cause => .agentCrash cause (short (slice p 1 16)) (short (slice p 17 32))

/-- The names of the permissions that are set. -/
def permNames (flags : UInt8) : List PermName :=
  (if flags &&& 0x01 ≠ 0 then [.read] else []) ++ (if flags &&& 0x02 ≠ 0 then [.write] else []) ++
    (if flags &&& 0x04 ≠ 0 then [.execute] else []) ++
    (if flags &&& 0x08 ≠ 0 then [.delegate] else [])

/-- The byte that the reader takes for `rate_limited` has its place after a resource, which an
aggregated refusal does not have. Panics, for `none`, where it then finds no room for a count. -/
def summarizeCapabilityDenied (p : List UInt8) : Option Summary :=
  if p.length < 25 then some (.truncated p.length)
  else
    let capId := leAt p 16 8
    if 26 ≤ p.length then
      let resLen := (byteAt p 24).toNat
      if 25 + resLen + 2 ≤ p.length then
        if byteAt p (25 + resLen + 1) = 0x01 then
          if p.length < 29 then none
          else some (.capDeniedAggregated capId (leAt p 24 4) (byteAt p 28))
        else
          some (.capDenied capId (Utf8.lossy (slice p 25 resLen))
            (permNames (byteAt p (25 + resLen))))
      else some (.capDeniedShort capId p.length)
    else some (.capDeniedShort capId p.length)

/-- `summarize`; `none` where it panics. -/
def summarize (emitType : UInt8) (p : List UInt8) : Option Summary :=
  match EmitType.tryFrom emitType with
  | some .lifecycle => some (summarizeLifecycle p)
  | some .introspect => some (summarizeIntrospect p)
  | some .selfRollback => some (summarizeSelfRollback p)
  | some .validationRequest => some (summarizeValidationRequest p)
  | some .validationResponse => some (summarizeValidationResponse p)
  | some .schedulerRollback => some (summarizeSchedulerRollback p)
  | some .inferenceRequest => some (summarizeInferenceRequest p)
  | some .inferenceResponse => some (summarizeInferenceResponse p)
  | some .inferenceCancelled => some (summarizeInferenceCancelled p)
  | some .inferenceFailed => some (summarizeInferenceFailed p)
  | some .compensationOpen | some .compensationClose => some (summarizeCompensation p)
  | some .agentCrash => some (summarizeAgentCrash p)
  | some .capabilityDenied => summarizeCapabilityDenied p
  | _ => some (.size p.length)

end Reconstruct

/-! ### Reading back -/

namespace RuntimeEmission

open Reconstruct

variable {D : Type}

/-- The line shows the fields that were encoded. Of an identifier it shows the first bytes, and of
a text the bytes that the payload carries. -/
def Shows [ContentHash D] (s : Summary) : RuntimeEmission D → Prop
  | lifecycle state seq profile =>
      s = .lifecycle state seq.toNat (if state = .spawned then some profile else none)
  | selfRollback depth targetSeq => s = .selfRollback depth targetSeq.toNat
  | validationRequest risk => s = .risk risk
  | validationResponse verdict => s = .verdict verdict
  | schedulerRollback distance targetSeq capsInvalidated =>
      s = .schedulerRollback distance targetSeq.toNat capsInvalidated
  | inferenceRequest _ timeoutReq timeoutEff slot =>
      s = .inferenceRequest "sleepy".toList timeoutReq.toNat timeoutEff.toNat
        (slot.map fun (priority, depth, promotedFrom) =>
          (priority, depth.toNat, (promotedFrom.map PromotedName.from_).getD .none))
  | inferenceResponse _ duration truncated =>
      s = .inferenceResponse 0 duration.toNat (if truncated then 1 else 0)
  | inferenceCancelled ts => s = .inferenceCancelled ts.toNat .rollback
  | inferenceFailed code message => ∃ text, s = .inferenceFailed code text ∧
      Utf8.encode text = (Utf8.encode message).take 255
  | agentCrash cause parent lastAction =>
      s = .agentCrash cause (short (agentBytes parent)) (short (ContentHash.bytes lastAction))
  | capabilityDenied _ capId resource perm => ∃ text,
      s = .capDenied capId.toNat text (permNames perm) ∧
        Utf8.encode text = (Utf8.encode resource).take 255
  | capabilityDeniedAggregated _ capId count perm =>
      s = .capDeniedAggregated capId.toNat count.toNat perm

/-- The reader reports nothing as too short or unknown, and shows what was encoded. -/
def ReadsBack [ContentHash D] (e : RuntimeEmission D) : Prop :=
  ∃ s, summarize e.emitType.asU8 e.payload = some s ∧ s.complete = true ∧ e.Shows s

/-- The condition on the values. The verdict is not `Cancelled`, a text is not cut through a
character, and the byte of an aggregated refusal at the place that its count gives is one. -/
def Legible : RuntimeEmission D → Prop
  | validationResponse verdict => verdict ≠ .cancelled
  | inferenceFailed _ message => Utf8.CutsCleanly message 255
  | capabilityDenied _ _ resource _ => Utf8.CutsCleanly resource 255
  | capabilityDeniedAggregated _ _ count perm =>
      let n := count.toNat
      n % 256 = 3 ∨ n % 256 = 0 ∧ n / 256 ^ 2 % 256 = 1 ∨ n % 256 = 1 ∧ n / 256 ^ 3 % 256 = 1 ∨
        n % 256 = 2 ∧ perm = 1
  | _ => True

/-! ### What the reader makes of it -/

section

variable [ContentHash D]

/-- A byte is read as the state that it stands for. -/
theorem stateOf_asU8 (state : LifecycleState) : stateOf state.asU8 = some state := by
  cases state <;> rfl

theorem profileOf_asU8 (profile : AgentProfile) : profileOf profile.asU8 = some profile := by
  cases profile <;> rfl

theorem classOf_toByte (c : PriorityClass) : classOf c.toByte = some c := by
  cases c <;> rfl

theorem crashOf_asU8 (cause : CrashName) : crashOf cause.asU8 = some cause := by
  cases cause <;> rfl

theorem asU8_eq_zero {state : LifecycleState} : state.asU8 = 0 ↔ state = .spawned := by
  cases state <;> decide

/-- The names say which of the four permissions are set. -/
theorem permNames_injective {p q : Fin 16}
    (h : permNames (UInt8.ofNat p) = permNames (UInt8.ofNat q)) : p = q := by
  revert p q
  decide

theorem promotedOf_byte (promotedFrom : Option PriorityClass) :
    promotedOf ((promotedFrom.map PriorityClass.toByte).getD 0xFF) =
      (promotedFrom.map PromotedName.from_).getD .none := by
  obtain _ | c := promotedFrom
  · rfl
  · cases c <;> rfl

theorem summarizeLifecycle_payload (state : LifecycleState) (seq : UInt64)
    (profile : AgentProfile) :
    summarizeLifecycle (lifecycle state seq profile : RuntimeEmission D).payload =
      .lifecycle state seq.toNat (if state = .spawned then some profile else none) := by
  have hstate : ∀ rest, byteAt (state.asU8 :: rest) 0 = state.asU8 := fun _ => rfl
  by_cases hspawned : state = .spawned
  · subst hspawned
    have hseq : leAt (LifecycleState.spawned.asU8 ::
        (leBytes 8 seq.toNat ++ [profile.asU8])) 1 8 = seq.toNat :=
      leAt_append (a := [LifecycleState.spawned.asU8]) rfl seq.toNat_lt
    have hprofile : byteAt (LifecycleState.spawned.asU8 ::
        (leBytes 8 seq.toNat ++ [profile.asU8])) 9 = profile.asU8 :=
      byteAt_append (a := LifecycleState.spawned.asU8 :: leBytes 8 seq.toNat) (by simp)
    simp [payload, summarizeLifecycle, hstate, stateOf_asU8, asU8_eq_zero, hseq, hprofile,
      profileOf_asU8]
  · have hseq : leAt (state.asU8 :: leBytes 8 seq.toNat) 1 8 = seq.toNat :=
      leAt_concat (a := [state.asU8]) rfl seq.toNat_lt
    simp [payload, summarizeLifecycle, hstate, stateOf_asU8, asU8_eq_zero, hspawned, hseq]

theorem summarizeSelfRollback_payload (depth : UInt8) (targetSeq : UInt64) :
    summarizeSelfRollback (selfRollback depth targetSeq : RuntimeEmission D).payload =
      .selfRollback depth targetSeq.toNat := by
  have hseq : leAt (depth :: leBytes 8 targetSeq.toNat) 1 8 = targetSeq.toNat :=
    leAt_concat (a := [depth]) rfl targetSeq.toNat_lt
  simp [summarizeSelfRollback, payload, hseq, byteAt]

theorem summarizeSchedulerRollback_payload (distance : UInt8) (targetSeq : UInt64)
    (capsInvalidated : UInt8) :
    summarizeSchedulerRollback
        (schedulerRollback distance targetSeq capsInvalidated : RuntimeEmission D).payload =
      .schedulerRollback distance targetSeq.toNat capsInvalidated := by
  have hseq : leAt (distance :: (leBytes 8 targetSeq.toNat ++ [capsInvalidated])) 1 8 =
      targetSeq.toNat := leAt_append (a := [distance]) rfl targetSeq.toNat_lt
  have hcaps : byteAt (distance :: (leBytes 8 targetSeq.toNat ++ [capsInvalidated])) 9 =
      capsInvalidated := byteAt_append (a := distance :: leBytes 8 targetSeq.toNat) (by simp)
  have hdistance : ∀ rest, byteAt (distance :: rest) 0 = distance := fun _ => rfl
  simp [summarizeSchedulerRollback, payload, hseq, hcaps, hdistance]

theorem length_modelId : modelId.length = 6 := by decide +kernel

/-- A request with the name of the model in its place. -/
theorem summarizeInferenceRequest_of_model {p : List UInt8} (hlength : 47 ≤ p.length)
    (hmodelLen : byteAt p 32 = 6) (hmodel : slice p 33 6 = modelId) :
    summarizeInferenceRequest p =
      if 51 ≤ p.length then
        match classOf (byteAt p 47) with
        | none => .unknownPriority "sleepy".toList (leAt p 39 4) (leAt p 43 4) (byteAt p 47)
        | some c => .inferenceRequest "sleepy".toList (leAt p 39 4) (leAt p 43 4)
            (some (c, leAt p 48 2, promotedOf (byteAt p 50)))
      else .inferenceRequest "sleepy".toList (leAt p 39 4) (leAt p 43 4) none := by
  have hname : Utf8.lossy modelId = "sleepy".toList := Utf8.lossy_encode _
  have hsix : (6 : UInt8).toNat = 6 := rfl
  rw [summarizeInferenceRequest, if_pos (by omega), hmodelLen]
  simp only [hsix, Nat.reduceAdd, hmodel, hname]
  rw [if_pos hlength]

/-- The fields of a request up to the timeouts, for whatever follows. -/
theorem requestFront_fields {hash : List UInt8} (hhash : hash.length = 32)
    (timeoutReq timeoutEff : UInt32) (rest : List UInt8) :
    let p := hash ++ UInt8.ofNat modelId.length :: modelId ++ leBytes 4 timeoutReq.toNat ++
      leBytes 4 timeoutEff.toNat ++ rest
    byteAt p 32 = 6 ∧ slice p 33 6 = modelId ∧ leAt p 39 4 = timeoutReq.toNat ∧
      leAt p 43 4 = timeoutEff.toNat := by
  refine ⟨?_, ?_, ?_, ?_⟩
  · rw [List.append_assoc, List.append_assoc, List.append_assoc, List.cons_append]
    rw [byteAt_append hhash, length_modelId]
    rfl
  · have hsplit : hash ++ UInt8.ofNat modelId.length :: modelId =
        (hash ++ [UInt8.ofNat modelId.length]) ++ modelId := by simp
    rw [hsplit, List.append_assoc, List.append_assoc, List.append_assoc]
    exact slice_append (by simp [hhash]) length_modelId
  · rw [List.append_assoc, List.append_assoc]
    exact leAt_append (by simp [hhash, length_modelId]) timeoutReq.toNat_lt
  · rw [List.append_assoc]
    exact leAt_append (by simp [hhash, length_modelId]) timeoutEff.toNat_lt

/-- The fields of a slot, behind whatever they follow. -/
theorem requestSlot_fields {front : List UInt8} (hfront : front.length = 47)
    (priority promoted : UInt8) (depth : UInt16) :
    let p := front ++ (priority :: leBytes 2 depth.toNat ++ [promoted])
    byteAt p 47 = priority ∧ leAt p 48 2 = depth.toNat ∧ byteAt p 50 = promoted := by
  refine ⟨?_, ?_, ?_⟩
  · exact byteAt_append hfront
  · rw [List.cons_append, ← List.singleton_append, ← List.append_assoc]
    exact leAt_append (by simp [hfront]) depth.toNat_lt
  · rw [← List.append_assoc]
    exact byteAt_append (by simp [hfront])

theorem summarizeInferenceRequest_payload (promptHash : D) (timeoutReq timeoutEff : UInt32)
    (slot : Option (PriorityClass × UInt16 × Option PriorityClass)) :
    summarizeInferenceRequest
        (inferenceRequest promptHash timeoutReq timeoutEff slot : RuntimeEmission D).payload =
      .inferenceRequest "sleepy".toList timeoutReq.toNat timeoutEff.toNat
        (slot.map fun (priority, depth, promotedFrom) =>
          (priority, depth.toNat, (promotedFrom.map PromotedName.from_).getD .none)) := by
  have hhash := ContentHash.bytes_length promptHash
  simp only [payload]
  generalize ContentHash.bytes promptHash = hash at hhash
  have hfields := requestFront_fields hhash timeoutReq timeoutEff
  have hfront : (hash ++ UInt8.ofNat modelId.length :: modelId ++ leBytes 4 timeoutReq.toNat ++
      leBytes 4 timeoutEff.toNat).length = 47 := by simp [hhash, length_modelId]
  generalize hash ++ UInt8.ofNat modelId.length :: modelId ++ leBytes 4 timeoutReq.toNat ++
    leBytes 4 timeoutEff.toNat = front at *
  cases slot with
  | none =>
      obtain ⟨hmodelLen, hmodel, hreq, heff⟩ := hfields []
      rw [summarizeInferenceRequest_of_model (by simp [hfront]) hmodelLen hmodel, hreq, heff]
      rw [if_neg (by simp [hfront]), Option.map_none]
  | some slot =>
      obtain ⟨priority, depth, promotedFrom⟩ := slot
      obtain ⟨hmodelLen, hmodel, hreq, heff⟩ := hfields (priority.toByte ::
        leBytes 2 depth.toNat ++ [(promotedFrom.map PriorityClass.toByte).getD 0xFF])
      obtain ⟨hpriority, hdepth, hpromoted⟩ := requestSlot_fields hfront priority.toByte
        ((promotedFrom.map PriorityClass.toByte).getD 0xFF) depth
      rw [summarizeInferenceRequest_of_model (by simp [hfront]) hmodelLen hmodel, hreq, heff]
      rw [if_pos (by simp [hfront]), hpriority, classOf_toByte, hdepth, hpromoted,
        promotedOf_byte, Option.map_some]

theorem summarizeInferenceResponse_payload (responseHash : D) (duration : UInt32)
    (truncated : Bool) :
    summarizeInferenceResponse
        (inferenceResponse responseHash duration truncated : RuntimeEmission D).payload =
      .inferenceResponse 0 duration.toNat (if truncated then 1 else 0) := by
  have hhash := ContentHash.bytes_length responseHash
  simp only [payload]
  generalize ContentHash.bytes responseHash = hash at hhash
  have htokens : ∀ rest, leAt (hash ++ leBytes 4 0 ++ leBytes 4 duration.toNat ++ rest) 32 4 =
      0 := by
    intro rest
    rw [List.append_assoc, List.append_assoc]
    exact leAt_append hhash (by decide)
  have hduration : ∀ rest, leAt (hash ++ leBytes 4 0 ++ leBytes 4 duration.toNat ++ rest) 36 4 =
      duration.toNat := by
    intro rest
    rw [List.append_assoc]
    exact leAt_append (by simp [hhash]) duration.toNat_lt
  have htruncated : ∀ b, byteAt (hash ++ leBytes 4 0 ++ leBytes 4 duration.toNat ++ [b]) 40 = b :=
    fun b => byteAt_append (by simp [hhash])
  rw [summarizeInferenceResponse, if_pos (by simp [hhash]), htokens, hduration, htruncated]

theorem summarizeInferenceCancelled_payload (ts : UInt64) :
    summarizeInferenceCancelled (inferenceCancelled ts : RuntimeEmission D).payload =
      .inferenceCancelled ts.toNat .rollback := by
  have hts : leAt (leBytes 8 ts.toNat ++ [0x01]) 0 8 = ts.toNat :=
    leAt_append (a := []) rfl ts.toNat_lt
  have hcause : byteAt (leBytes 8 ts.toNat ++ [0x01]) 8 = 0x01 := byteAt_append (by simp)
  simp [summarizeInferenceCancelled, payload, hts, hcause]

theorem summarizeInferenceFailed_payload (code : UInt8) (message : List Char) :
    summarizeInferenceFailed (inferenceFailed code message : RuntimeEmission D).payload =
      .inferenceFailed code (Utf8.lossy ((Utf8.encode message).take 255)) := by
  have hle : ((Utf8.encode message).take 255).length ≤ 255 := List.length_take_le _ _
  simp only [payload]
  generalize (Utf8.encode message).take 255 = text at hle
  have hlen : (UInt8.ofNat text.length).toNat = text.length := by
    simp only [UInt8.toNat_ofNat']
    omega
  have htext : slice (code :: UInt8.ofNat text.length :: text) 2 text.length = text :=
    slice_concat (a := [code, UInt8.ofNat text.length]) rfl rfl
  have hsecond : byteAt (code :: UInt8.ofNat text.length :: text) 1 = UInt8.ofNat text.length := rfl
  rw [summarizeInferenceFailed, if_pos (by simp), hsecond, hlen, if_pos (by simp; omega), htext]
  rfl

theorem summarizeAgentCrash_payload (cause : CrashName) (parent : AgentId) (lastAction : D) :
    summarizeAgentCrash (agentCrash cause parent lastAction : RuntimeEmission D).payload =
      .agentCrash cause (short (agentBytes parent)) (short (ContentHash.bytes lastAction)) := by
  have hlast := ContentHash.bytes_length lastAction
  simp only [payload]
  generalize ContentHash.bytes lastAction = action at hlast ⊢
  have hcause : byteAt (cause.asU8 :: agentBytes parent ++ action) 0 = cause.asU8 := rfl
  have hparent : slice (cause.asU8 :: agentBytes parent ++ action) 1 16 = agentBytes parent :=
    slice_append (a := [cause.asU8]) rfl (length_agentBytes parent)
  have haction : slice (cause.asU8 :: agentBytes parent ++ action) 17 32 = action :=
    slice_concat (by simp) hlast
  rw [summarizeAgentCrash, if_neg (by simp [hlast]), hcause, crashOf_asU8, hparent, haction]

/-- An individual refusal is read as one, with its resource as far as that is text. -/
theorem summarizeCapabilityDenied_payload (agentId : AgentId) (capId : UInt64)
    (resource : List Char) (perm : UInt8) :
    summarizeCapabilityDenied
        (capabilityDenied agentId capId resource perm : RuntimeEmission D).payload =
      some (.capDenied capId.toNat (Utf8.lossy ((Utf8.encode resource).take 255))
        (permNames perm)) := by
  have hle : ((Utf8.encode resource).take 255).length ≤ 255 := List.length_take_le _ _
  simp only [payload]
  generalize (Utf8.encode resource).take 255 = text at hle
  have hlen : (UInt8.ofNat text.length).toNat = text.length := by
    simp only [UInt8.toNat_ofNat']
    omega
  have hcap : leAt (agentBytes agentId ++ leBytes 8 capId.toNat ++
      UInt8.ofNat text.length :: text ++ [perm, 0x00]) 16 8 = capId.toNat := by
    rw [List.append_assoc, List.append_assoc]
    exact leAt_append (length_agentBytes agentId) capId.toNat_lt
  have hresLen : byteAt (agentBytes agentId ++ leBytes 8 capId.toNat ++
      UInt8.ofNat text.length :: text ++ [perm, 0x00]) 24 = UInt8.ofNat text.length := by
    rw [List.append_assoc, List.cons_append]
    exact byteAt_append (by simp)
  have htext : slice (agentBytes agentId ++ leBytes 8 capId.toNat ++
      UInt8.ofNat text.length :: text ++ [perm, 0x00]) 25 text.length = text := by
    rw [← List.singleton_append, ← List.append_assoc, List.append_assoc]
    exact slice_append (by simp) rfl
  have hperm : byteAt (agentBytes agentId ++ leBytes 8 capId.toNat ++
      UInt8.ofNat text.length :: text ++ [perm, 0x00]) (25 + text.length) = perm :=
    byteAt_append (by simp; omega)
  have hlimited : byteAt (agentBytes agentId ++ leBytes 8 capId.toNat ++
      UInt8.ofNat text.length :: text ++ [perm, 0x00]) (25 + text.length + 1) = 0x00 := by
    rw [← List.singleton_append (l := [0x00]), ← List.append_assoc]
    exact byteAt_append (by simp; omega)
  rw [summarizeCapabilityDenied, if_neg (by simp; omega), if_pos (by simp; omega), hresLen, hlen,
    if_pos (by simp; omega), hlimited, if_neg (by decide), hcap, htext, hperm]

theorem ofNat_eq_one {n : ℕ} : UInt8.ofNat n = 1 ↔ n % 256 = 1 := by
  rw [← UInt8.toNat_inj, UInt8.toNat_ofNat']
  rfl

/-- The reader finds an aggregated refusal by the byte that would follow a resource as long as the
first byte of the count says. -/
theorem summarizeCapabilityDenied_aggregated_iff (agentId : AgentId) (capId : UInt64)
    (count : UInt32) (perm : UInt8) :
    summarizeCapabilityDenied
        (capabilityDeniedAggregated agentId capId count perm : RuntimeEmission D).payload =
      some (.capDeniedAggregated capId.toNat count.toNat perm) ↔
      count.toNat % 256 ≤ 3 ∧
        byteAt (leBytes 4 count.toNat ++ [perm, 0x01]) (2 + count.toNat % 256) = 0x01 := by
  have hcap : leAt (agentBytes agentId ++ leBytes 8 capId.toNat ++ leBytes 4 count.toNat ++
      [perm, 0x01]) 16 8 = capId.toNat := by
    rw [List.append_assoc, List.append_assoc]
    exact leAt_append (length_agentBytes agentId) capId.toNat_lt
  have hresLen : byteAt (agentBytes agentId ++ leBytes 8 capId.toNat ++ leBytes 4 count.toNat ++
      [perm, 0x01]) 24 = UInt8.ofNat count.toNat := by
    have hfirst : leBytes 4 count.toNat ++ [perm, 0x01] =
        UInt8.ofNat count.toNat :: (leBytes 3 (count.toNat / 256) ++ [perm, 0x01]) := rfl
    rw [List.append_assoc, hfirst]
    exact byteAt_append (by simp)
  have hcount : leAt (agentBytes agentId ++ leBytes 8 capId.toNat ++ leBytes 4 count.toNat ++
      [perm, 0x01]) 24 4 = count.toNat := by
    rw [List.append_assoc]
    exact leAt_append (by simp) count.toNat_lt
  have hperm : byteAt (agentBytes agentId ++ leBytes 8 capId.toNat ++ leBytes 4 count.toNat ++
      [perm, 0x01]) 28 = perm := byteAt_append (by simp)
  have hlimited : byteAt (agentBytes agentId ++ leBytes 8 capId.toNat ++ leBytes 4 count.toNat ++
      [perm, 0x01]) (25 + count.toNat % 256 + 1) =
        byteAt (leBytes 4 count.toNat ++ [perm, 0x01]) (2 + count.toNat % 256) := by
    have hplace : 25 + count.toNat % 256 + 1 = 24 + (2 + count.toNat % 256) := by omega
    rw [List.append_assoc, hplace]
    exact byteAt_append_right (by simp) _
  have hlength : (agentBytes agentId ++ leBytes 8 capId.toNat ++ leBytes 4 count.toNat ++
      [perm, 0x01]).length = 30 := by simp
  simp only [payload]
  rw [summarizeCapabilityDenied, if_neg (by omega), if_pos (by omega), hresLen,
    UInt8.toNat_ofNat', hcap, hcount, hperm]
  simp only [Nat.reducePow, hlimited, hlength]
  split_ifs with hfits hone hroom
  · omega
  · exact iff_of_true rfl ⟨by omega, hone⟩
  · exact iff_of_false (by simp) fun h => hone h.2
  · exact iff_of_false (by simp) fun h => by omega

omit [ContentHash D] in
/-- That byte is one of the count, the permissions, or the last one. -/
theorem legible_aggregated_iff (agentId : AgentId) (capId : UInt64) (count : UInt32)
    (perm : UInt8) :
    (capabilityDeniedAggregated agentId capId count perm : RuntimeEmission D).Legible ↔
      count.toNat % 256 ≤ 3 ∧
        byteAt (leBytes 4 count.toNat ++ [perm, 0x01]) (2 + count.toNat % 256) = 0x01 := by
  simp only [Legible]
  generalize count.toNat = n
  have hbytes : leBytes 4 n ++ [perm, 0x01] = [UInt8.ofNat n, UInt8.ofNat (n / 256),
      UInt8.ofNat (n / 256 / 256), UInt8.ofNat (n / 256 / 256 / 256), perm, 0x01] := rfl
  rw [hbytes]
  obtain hzero | hone | htwo | hthree | hmore : n % 256 = 0 ∨ n % 256 = 1 ∨ n % 256 = 2 ∨
      n % 256 = 3 ∨ 3 < n % 256 := by omega
  · have hbyte : UInt8.ofNat (n / 256 / 256) = 1 ↔ n / 256 ^ 2 % 256 = 1 := by
      rw [ofNat_eq_one, Nat.div_div_eq_div_mul, pow_two]
    simp [hzero, byteAt, hbyte]
  · have hbyte : UInt8.ofNat (n / 256 / 256 / 256) = 1 ↔ n / 256 ^ 3 % 256 = 1 := by
      rw [ofNat_eq_one, Nat.div_div_eq_div_mul, Nat.div_div_eq_div_mul, pow_three]
    simp [hone, byteAt, hbyte]
  · simp [htwo, byteAt]
  · simp [hthree, byteAt]
  · exact iff_of_false (by omega) (by omega)

/-! ### Every emission -/

/-- A text is shown as far as it was encoded exactly if it was not cut through a character. -/
theorem exists_shown_iff {text : List Char} {f : List Char → Summary}
    (hf : Function.Injective f) :
    (∃ text', f (Utf8.lossy ((Utf8.encode text).take 255)) = f text' ∧
      Utf8.encode text' = (Utf8.encode text).take 255) ↔ Utf8.CutsCleanly text 255 := by
  rw [← Utf8.encode_lossy_take_iff]
  constructor
  · rintro ⟨text', heq, hback⟩
    rwa [hf heq]
  · exact fun hback => ⟨_, rfl, hback⟩

/-- What the reader answers decides whether an emission is read back. -/
theorem readsBack_of_summarize {e : RuntimeEmission D} {s : Summary}
    (h : summarize e.emitType.asU8 e.payload = some s) (hcomplete : s.complete = true) :
    e.ReadsBack ↔ e.Shows s := by
  constructor
  · rintro ⟨s', hs', -, hshows⟩
    exact Option.some.inj (hs'.symm.trans h) ▸ hshows
  · exact fun hshows => ⟨s, h, hcomplete, hshows⟩

/-- A type that a line shows whole is read back. -/
theorem readsBack_of_shows {e : RuntimeEmission D} {s : Summary}
    (h : summarize e.emitType.asU8 e.payload = some s) (hcomplete : s.complete = true)
    (hshows : e.Shows s) (hlegible : e.Legible) : e.ReadsBack ↔ e.Legible :=
  iff_of_true ⟨s, h, hcomplete, hshows⟩ hlegible

theorem readsBack_validationResponse_iff (verdict : ValidationVerdict) :
    (validationResponse verdict : RuntimeEmission D).ReadsBack ↔ verdict ≠ .cancelled := by
  cases verdict with
  | cancelled =>
      refine iff_of_false ?_ (not_not_intro rfl)
      rintro ⟨s, hs, hcomplete, -⟩
      have hread : s = .unknownVerdict 3 := (Option.some.inj hs).symm
      rw [hread] at hcomplete
      cases hcomplete
  | _ => exact iff_of_true ⟨_, rfl, rfl, rfl⟩ (by decide)

theorem readsBack_inferenceFailed_iff (code : UInt8) (message : List Char) :
    (inferenceFailed code message : RuntimeEmission D).ReadsBack ↔
      Utf8.CutsCleanly message 255 := by
  have h : summarize EmitType.inferenceFailed.asU8
      (inferenceFailed code message : RuntimeEmission D).payload =
        some (.inferenceFailed code (Utf8.lossy ((Utf8.encode message).take 255))) :=
    congrArg some (summarizeInferenceFailed_payload code message)
  refine (readsBack_of_summarize (e := inferenceFailed code message) h rfl).trans ?_
  exact exists_shown_iff fun text text' heq => (Summary.inferenceFailed.inj heq).2

theorem readsBack_capabilityDenied_iff (agentId : AgentId) (capId : UInt64)
    (resource : List Char) (perm : UInt8) :
    (capabilityDenied agentId capId resource perm : RuntimeEmission D).ReadsBack ↔
      Utf8.CutsCleanly resource 255 := by
  have h : summarize EmitType.capabilityDenied.asU8
      (capabilityDenied agentId capId resource perm : RuntimeEmission D).payload =
        some (.capDenied capId.toNat (Utf8.lossy ((Utf8.encode resource).take 255))
          (permNames perm)) :=
    summarizeCapabilityDenied_payload agentId capId resource perm
  refine (readsBack_of_summarize (e := capabilityDenied agentId capId resource perm) h
    rfl).trans ?_
  exact exists_shown_iff (f := fun text => .capDenied capId.toNat text (permNames perm))
    fun text text' heq => (Summary.capDenied.inj heq).2.1

/-- A resource that fits is not cut. -/
theorem readsBack_capabilityDenied_of_le (agentId : AgentId) (capId : UInt64)
    {resource : List Char} (perm : UInt8) (hfits : (Utf8.encode resource).length ≤ 255) :
    (capabilityDenied agentId capId resource perm : RuntimeEmission D).ReadsBack :=
  (readsBack_capabilityDenied_iff agentId capId resource perm).mpr (Utf8.cutsCleanly_of_le hfits)

theorem readsBack_aggregated_iff (agentId : AgentId) (capId : UInt64) (count : UInt32)
    (perm : UInt8) :
    (capabilityDeniedAggregated agentId capId count perm : RuntimeEmission D).ReadsBack ↔
      count.toNat % 256 ≤ 3 ∧
        byteAt (leBytes 4 count.toNat ++ [perm, 0x01]) (2 + count.toNat % 256) = 0x01 := by
  rw [← summarizeCapabilityDenied_aggregated_iff (D := D) agentId capId count perm]
  constructor
  · rintro ⟨s, hs, -, hshows⟩
    exact hshows ▸ hs
  · exact fun h => ⟨_, h, rfl, rfl⟩

/-- **The audit reader**, for every emission of the runtime and all values: it is read back exactly
if it is legible. -/
theorem readsBack_iff (e : RuntimeEmission D) : e.ReadsBack ↔ e.Legible := by
  cases e with
  | lifecycle state seq profile =>
      exact readsBack_of_shows (congrArg some (summarizeLifecycle_payload state seq profile))
        rfl rfl trivial
  | selfRollback depth targetSeq =>
      exact readsBack_of_shows (congrArg some (summarizeSelfRollback_payload depth targetSeq))
        rfl rfl trivial
  | validationRequest risk => exact iff_of_true ⟨_, rfl, rfl, rfl⟩ trivial
  | validationResponse verdict => exact readsBack_validationResponse_iff verdict
  | schedulerRollback distance targetSeq capsInvalidated =>
      exact readsBack_of_shows
        (congrArg some (summarizeSchedulerRollback_payload distance targetSeq capsInvalidated))
        rfl rfl trivial
  | inferenceRequest promptHash timeoutReq timeoutEff slot =>
      have h := congrArg some
        (summarizeInferenceRequest_payload promptHash timeoutReq timeoutEff slot)
      refine readsBack_of_shows h ?_ rfl trivial
      obtain _ | ⟨priority, depth, _ | promotedFrom⟩ := slot <;> rfl
  | inferenceResponse responseHash duration truncated =>
      exact readsBack_of_shows
        (congrArg some (summarizeInferenceResponse_payload responseHash duration truncated))
        rfl rfl trivial
  | inferenceCancelled ts =>
      exact readsBack_of_shows (congrArg some (summarizeInferenceCancelled_payload ts))
        rfl rfl trivial
  | inferenceFailed code message => exact readsBack_inferenceFailed_iff code message
  | agentCrash cause parent lastAction =>
      exact readsBack_of_shows
        (congrArg some (summarizeAgentCrash_payload cause parent lastAction)) rfl rfl trivial
  | capabilityDenied agentId capId resource perm =>
      exact readsBack_capabilityDenied_iff agentId capId resource perm
  | capabilityDeniedAggregated agentId capId count perm =>
      exact (readsBack_aggregated_iff agentId capId count perm).trans
        (legible_aggregated_iff agentId capId count perm).symm

/-- An entry that the runtime writes is read back exactly if its emission is legible; only the
end of a session is none, for which the reader prints the size. -/
theorem ownWrites_readsBack_iff [LinearOrder D] {a a' : Actor D} {evs : List (Event D)}
    (hrun : Machine.run Actor.step a evs = some a') (htyped : ∀ ev ∈ evs, ev.Typed)
    {e : LogEntry D} (he : .append .runtime e ∈ a.ownWrites evs) {env : EmitEnvelope}
    (henv : e.emitPayload = some env) :
    (∃ em : RuntimeEmission D, env.emitType = em.emitType.asU8 ∧ env.payload = em.payload ∧
        (em.ReadsBack ↔ em.Legible)) ∨
      summarize env.emitType env.payload = some (.size env.payload.length) := by
  rcases Actor.ownWrites_laid hrun htyped _ he env henv with hboundary | ⟨em, htype, hpayload⟩
  · rw [hboundary]
    exact .inr rfl
  · exact .inl ⟨em, htype, hpayload, readsBack_iff em⟩

/-- What the reader answers, and does not show. -/
theorem not_readsBack {e : RuntimeEmission D} {s : Summary}
    (h : summarize e.emitType.asU8 e.payload = some s) (hshows : ¬ e.Shows s) :
    ¬ e.ReadsBack := by
  rintro ⟨s', hs', -, hshows'⟩
  exact hshows (Option.some.inj (h.symm.trans hs') ▸ hshows')

end

/-- A refusal of agent `1` for capability `7`, aggregated with others. -/
def sampleAggregated (count : UInt32) : RuntimeEmission (List ℕ) :=
  .capabilityDeniedAggregated 1 7 count 0x01

/-- A refusal for a resource of 256 bytes whose last character takes two. -/
def sampleCut : RuntimeEmission (List ℕ) :=
  .capabilityDenied 1 7 (List.replicate 254 'a' ++ ['é']) 0x01

/-- The first refusal past the limit of a window is aggregated with the count `101`, and is taken
for a payload that is too short; one with the count `256` is taken for an individual refusal of
an empty resource. The verdict of a rollback is not known, and the last character of a resource
is replaced. -/
theorem audit_misreads :
    ( CapDeniedLimiter.admit { count := 100, windowStartMs := 5 } 6 ['r']).1 = .aggregated ∧
      ( CapDeniedLimiter.admit { count := 100, windowStartMs := 5 } 6 ['r']).2.count = 101 ∧
      summarize (sampleAggregated 101).emitType.asU8 (sampleAggregated 101).payload =
        some (.capDeniedShort 7 30) ∧
      ¬ (sampleAggregated 101).ReadsBack ∧
      summarize (sampleAggregated 256).emitType.asU8 (sampleAggregated 256).payload =
        some (.capDenied 7 [] [.read]) ∧
      ¬ (sampleAggregated 256).ReadsBack ∧
      ¬ (validationResponse .cancelled : RuntimeEmission (List ℕ)).ReadsBack ∧
      ¬ sampleCut.ReadsBack := by
  have hshort : summarize (sampleAggregated 101).emitType.asU8 (sampleAggregated 101).payload =
      some (.capDeniedShort 7 30) := by decide +kernel
  have hconfused : summarize (sampleAggregated 256).emitType.asU8
      (sampleAggregated 256).payload = some (.capDenied 7 [] [.read]) := by decide +kernel
  have hcut : ¬ Utf8.CutsCleanly (List.replicate 254 'a' ++ ['é']) 255 := by
    rw [← Utf8.encode_lossy_take_iff]
    decide +kernel
  refine ⟨by decide, by decide, hshort, not_readsBack hshort (by simp [sampleAggregated, Shows]),
    hconfused, not_readsBack hconfused (by simp [sampleAggregated, Shows]), ?_, ?_⟩
  · exact fun h => (readsBack_validationResponse_iff _).mp h rfl
  · exact fun h => hcut ((readsBack_capabilityDenied_iff _ _ _ _).mp h)

end RuntimeEmission

end Torpor
