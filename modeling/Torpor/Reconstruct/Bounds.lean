import Torpor.Reconstruct

/-!
# The Places that the Audit Reader Reads

`summarize` indexes and slices the payload at places that it computes, some of them from bytes of
the payload itself. Here each index and each slice is checked as the program checks it: `none`
where it panics. The payload is that of any entry, and a guest emits the bytes that it likes under
the type that it likes.

## Main results

* `summarize_eq`: apart from the panics, this is `Reconstruct.summarize`.
* `summarize_isSome_iff`: the reader panics exactly at a refusal of 27 or 28 bytes that it takes
  for an aggregated one.
* `Caller.emit_summarize_isSome_iff`: which of its emissions a guest makes the reader panic with.
-/

namespace Torpor

namespace Reconstruct

namespace Checked

/-! ### Checked reads -/

/-- `payload[i]`. -/
def index (p : List UInt8) (i : ℕ) : Option UInt8 := p[i]?

/-- `payload[i..j]`. -/
def range (p : List UInt8) (i j : ℕ) : Option (List UInt8) :=
  if i ≤ j ∧ j ≤ p.length then some ((p.drop i).take (j - i)) else none

/-- `from_le_bytes(payload[i..j].try_into().unwrap())`, for a number of `n` bytes. -/
def fromLe (n : ℕ) (p : List UInt8) (i j : ℕ) : Option ℕ := do
  let bs ← range p i j
  if bs.length = n then some (bs.foldr (fun b m => m * 256 + b.toNat) 0) else none

/-- The first bytes of `payload[i..j]` unless they are all zero, read as `payload[i..i + 8]`. -/
def shortRange (p : List UInt8) (i j : ℕ) : Option (Option (List UInt8)) := do
  let bs ← range p i j
  if bs.all (· = 0) then some none
  else do
    let first ← range p i (i + 8)
    some (some first)

section

variable {p : List UInt8} {i j n : ℕ}

theorem index_eq (h : i < p.length) : index p i = some (byteAt p i) := by
  simp [index, byteAt, h]

theorem range_eq (hij : i ≤ j) (hj : j ≤ p.length) : range p i j = some (slice p i (j - i)) :=
  if_pos ⟨hij, hj⟩

theorem length_slice (h : i + n ≤ p.length) : (slice p i n).length = n := by
  simp only [slice, List.length_take, List.length_drop]
  omega

theorem fromLe_eq (hij : i + n = j) (hj : j ≤ p.length) :
    fromLe n p i j = some (leAt p i n) := by
  have hrange : range p i j = some (slice p i n) := by
    rw [range_eq (by omega) hj, ← hij, Nat.add_sub_cancel_left]
  rw [fromLe, hrange]
  exact if_pos (length_slice (by omega))

theorem shortRange_eq (hij : i + 8 ≤ j) (hj : j ≤ p.length) :
    shortRange p i j = some (short (slice p i (j - i))) := by
  have hfirst : range p i (i + 8) = some ((slice p i (j - i)).take 8) := by
    rw [range_eq (by omega) (by omega), slice, slice, List.take_take]
    congr 2
    omega
  rw [shortRange, range_eq (by omega) hj, hfirst, short, Option.bind_eq_bind, Option.bind_some]
  split <;> rfl

end

/-! ### The arms of `summarize` -/

/-- The sequence number of an agent that is spawned; its length is checked twice. -/
def spawnedSeq (p : List UInt8) : Option ℕ :=
  if 9 ≤ p.length then fromLe 8 p 1 9 else some 0

def summarizeLifecycle (p : List UInt8) : Option Summary :=
  if p.isEmpty then some (.truncated 0)
  else do
    let stateByte ← index p 0
    match stateOf stateByte with
    | none => some (.unknownState stateByte)
    | some state =>
        if stateByte = 0 ∧ 10 ≤ p.length then do
          let seq ← spawnedSeq p
          let profileByte ← index p 9
          match profileOf profileByte with
          | some profile => some (.lifecycle state seq (some profile))
          | none => some (.unknownProfile state seq profileByte)
        else if 9 ≤ p.length then do
          let seq ← fromLe 8 p 1 9
          some (.lifecycle state seq none)
        else some (.lifecycleShort state p.length)

def summarizeIntrospect (p : List UInt8) : Option Summary :=
  if 74 ≤ p.length then do
    let seq ← fromLe 8 p 32 40
    let flags ← index p 72
    let lifecycle ← index p 73
    some (.introspect seq flags lifecycle)
  else some (.truncated p.length)

def summarizeSelfRollback (p : List UInt8) : Option Summary :=
  if 9 ≤ p.length then do
    let depth ← index p 0
    let targetSeq ← fromLe 8 p 1 9
    some (.selfRollback depth targetSeq)
  else some (.truncated p.length)

def summarizeValidationRequest (p : List UInt8) : Option Summary :=
  if !p.isEmpty then do
    let risk ← index p 0
    some (.risk risk)
  else some (.truncated 0)

def summarizeValidationResponse (p : List UInt8) : Option Summary :=
  if !p.isEmpty then do
    let v ← index p 0
    match verdictOf v with
    | some verdict => some (.verdict verdict)
    | none => some (.unknownVerdict v)
  else some (.truncated 0)

def summarizeSchedulerRollback (p : List UInt8) : Option Summary :=
  if 10 ≤ p.length then do
    let distance ← index p 0
    let targetSeq ← fromLe 8 p 1 9
    let caps ← index p 9
    some (.schedulerRollback distance targetSeq caps)
  else some (.truncated p.length)

def summarizeInferenceRequest (p : List UInt8) : Option Summary :=
  if 33 ≤ p.length then do
    let modelLen ← index p 32
    let base := 33 + modelLen.toNat
    if base + 8 ≤ p.length then do
      let req ← fromLe 4 p base (base + 4)
      let eff ← fromLe 4 p (base + 4) (base + 8)
      let model ← range p 33 (33 + modelLen.toNat)
      if base + 8 + 4 ≤ p.length then do
        let v ← index p (base + 8)
        match classOf v with
        | none => some (.unknownPriority (Utf8.lossy model) req eff v)
        | some pclass => do
            let qdepth ← fromLe 2 p (base + 9) (base + 11)
            let promoted ← index p (base + 11)
            some (.inferenceRequest (Utf8.lossy model) req eff
              (some (pclass, qdepth, promotedOf promoted)))
      else some (.inferenceRequest (Utf8.lossy model) req eff none)
    else some (.truncated p.length)
  else some (.truncated p.length)

def summarizeInferenceResponse (p : List UInt8) : Option Summary :=
  if 41 ≤ p.length then do
    let tokens ← fromLe 4 p 32 36
    let duration ← fromLe 4 p 36 40
    let truncated ← index p 40
    some (.inferenceResponse tokens duration truncated)
  else some (.truncated p.length)

def summarizeInferenceCancelled (p : List UInt8) : Option Summary :=
  if 9 ≤ p.length then do
    let ts ← fromLe 8 p 0 8
    let cause ← index p 8
    match cause with
    | 0x01 => some (.inferenceCancelled ts .rollback)
    | 0x02 => some (.inferenceCancelled ts .terminate)
    | v => some (.unknownCancel v)
  else some (.truncated p.length)

def summarizeInferenceFailed (p : List UInt8) : Option Summary :=
  if 2 ≤ p.length then do
    let code ← index p 0
    let msgLen ← index p 1
    if 2 + msgLen.toNat ≤ p.length then do
      let msg ← range p 2 (2 + msgLen.toNat)
      some (.inferenceFailed code (Utf8.lossy msg))
    else some (.messageTruncated code)
  else some (.truncated p.length)

def summarizeCompensation (p : List UInt8) : Option Summary :=
  if 16 ≤ p.length then do
    let agent ← range p 0 8
    some (.compensation agent)
  else some (.truncated p.length)

def summarizeAgentCrash (p : List UInt8) : Option Summary :=
  if p.length < 49 then some (.truncated p.length)
  else do
    let v ← index p 0
    match crashOf v with
    | none => some (.unknownCrash v)
    | some cause => do
        let parent ← shortRange p 1 17
        let lastAction ← shortRange p 17 49
        some (.agentCrash cause parent lastAction)

/-- The reads of an aggregated refusal go up to the place 28, whatever the length. -/
def summarizeCapabilityDenied (p : List UInt8) : Option Summary :=
  if p.length < 25 then some (.truncated p.length)
  else do
    let capId ← fromLe 8 p 16 24
    if 26 ≤ p.length then do
      let resLen ← index p 24
      if 25 + resLen.toNat + 2 ≤ p.length then do
        let rateLimited ← index p (25 + resLen.toNat + 1)
        if rateLimited = 0x01 then do
          let count ← fromLe 4 p 24 28
          let perm ← index p 28
          some (.capDeniedAggregated capId count perm)
        else do
          let resource ← range p 25 (25 + resLen.toNat)
          let permFlags ← index p (25 + resLen.toNat)
          some (.capDenied capId (Utf8.lossy resource) (permNames permFlags))
      else some (.capDeniedShort capId p.length)
    else some (.capDeniedShort capId p.length)

/-- `summarize`, every read checked. -/
def summarize (emitType : UInt8) (p : List UInt8) : Option Summary :=
  match EmitType.tryFrom emitType with
  | some .lifecycle => summarizeLifecycle p
  | some .introspect => summarizeIntrospect p
  | some .selfRollback => summarizeSelfRollback p
  | some .validationRequest => summarizeValidationRequest p
  | some .validationResponse => summarizeValidationResponse p
  | some .schedulerRollback => summarizeSchedulerRollback p
  | some .inferenceRequest => summarizeInferenceRequest p
  | some .inferenceResponse => summarizeInferenceResponse p
  | some .inferenceCancelled => summarizeInferenceCancelled p
  | some .inferenceFailed => summarizeInferenceFailed p
  | some .compensationOpen | some .compensationClose => summarizeCompensation p
  | some .agentCrash => summarizeAgentCrash p
  | some .capabilityDenied => summarizeCapabilityDenied p
  | _ => some (.size p.length)

/-! ### The arms that never panic -/

section

variable (p : List UInt8)

theorem summarizeLifecycle_eq :
    summarizeLifecycle p = some (Reconstruct.summarizeLifecycle p) := by
  rw [summarizeLifecycle, Reconstruct.summarizeLifecycle]
  by_cases hempty : p.isEmpty
  · rw [if_pos hempty, if_pos hempty]
  · have hpos : 0 < p.length := List.length_pos_iff.mpr (by simpa using hempty)
    rw [if_neg hempty, if_neg hempty, index_eq hpos, Option.bind_eq_bind, Option.bind_some]
    cases stateOf (byteAt p 0) with
    | none => rfl
    | some state =>
        dsimp only
        by_cases hspawned : byteAt p 0 = 0 ∧ 10 ≤ p.length
        · rw [if_pos hspawned, if_pos hspawned, spawnedSeq, if_pos (by omega),
            fromLe_eq (by omega) (by omega), index_eq (by omega)]
          dsimp only [Option.bind_eq_bind, Option.bind_some]
          cases profileOf (byteAt p 9) <;> rfl
        · rw [if_neg hspawned, if_neg hspawned]
          by_cases hseq : 9 ≤ p.length
          · rw [if_pos hseq, if_pos hseq, fromLe_eq (by omega) hseq]
            rfl
          · rw [if_neg hseq, if_neg hseq]

theorem summarizeIntrospect_eq :
    summarizeIntrospect p = some (Reconstruct.summarizeIntrospect p) := by
  rw [summarizeIntrospect, Reconstruct.summarizeIntrospect]
  by_cases hlen : 74 ≤ p.length
  · rw [if_pos hlen, if_pos hlen, fromLe_eq (by omega) (by omega), index_eq (by omega),
      index_eq (by omega)]
    rfl
  · rw [if_neg hlen, if_neg hlen]

theorem summarizeSelfRollback_eq :
    summarizeSelfRollback p = some (Reconstruct.summarizeSelfRollback p) := by
  rw [summarizeSelfRollback, Reconstruct.summarizeSelfRollback]
  by_cases hlen : 9 ≤ p.length
  · rw [if_pos hlen, if_pos hlen, index_eq (by omega), fromLe_eq (by omega) hlen]
    rfl
  · rw [if_neg hlen, if_neg hlen]

theorem summarizeValidationRequest_eq :
    summarizeValidationRequest p = some (Reconstruct.summarizeValidationRequest p) := by
  cases p <;> rfl

theorem summarizeValidationResponse_eq :
    summarizeValidationResponse p = some (Reconstruct.summarizeValidationResponse p) := by
  cases p with
  | nil => rfl
  | cons v rest =>
      change (match verdictOf v with
        | some verdict => some (Summary.verdict verdict)
        | none => some (.unknownVerdict v)) =
          some (match verdictOf v with
            | some verdict => .verdict verdict
            | none => .unknownVerdict v)
      cases verdictOf v <;> rfl

theorem summarizeSchedulerRollback_eq :
    summarizeSchedulerRollback p = some (Reconstruct.summarizeSchedulerRollback p) := by
  rw [summarizeSchedulerRollback, Reconstruct.summarizeSchedulerRollback]
  by_cases hlen : 10 ≤ p.length
  · rw [if_pos hlen, if_pos hlen, index_eq (by omega), fromLe_eq (by omega) (by omega),
      index_eq (by omega)]
    rfl
  · rw [if_neg hlen, if_neg hlen]

theorem summarizeInferenceRequest_eq :
    summarizeInferenceRequest p = some (Reconstruct.summarizeInferenceRequest p) := by
  rw [summarizeInferenceRequest, Reconstruct.summarizeInferenceRequest]
  by_cases hlen : 33 ≤ p.length
  · rw [if_pos hlen, if_pos hlen, index_eq (by omega)]
    dsimp only [Option.bind_eq_bind, Option.bind_some]
    -- Every further place is past the name of the model, whose length the payload gives.
    generalize hmodel : (byteAt p 32).toNat = modelLen
    by_cases hbase : 33 + modelLen + 8 ≤ p.length
    · rw [if_pos hbase, if_pos hbase, fromLe_eq (by omega) (by omega),
        fromLe_eq (by omega) (by omega), range_eq (by omega) (by omega),
        Nat.add_sub_cancel_left]
      dsimp only [Option.bind_some]
      by_cases hslot : 33 + modelLen + 8 + 4 ≤ p.length
      · rw [if_pos hslot, if_pos hslot, index_eq (by omega), Option.bind_some]
        cases classOf (byteAt p (33 + modelLen + 8)) with
        | none => rfl
        | some pclass =>
            dsimp only
            rw [fromLe_eq (by omega) (by omega), index_eq (by omega)]
            rfl
      · rw [if_neg hslot, if_neg hslot]
    · rw [if_neg hbase, if_neg hbase]
  · rw [if_neg hlen, if_neg hlen]

theorem summarizeInferenceResponse_eq :
    summarizeInferenceResponse p = some (Reconstruct.summarizeInferenceResponse p) := by
  rw [summarizeInferenceResponse, Reconstruct.summarizeInferenceResponse]
  by_cases hlen : 41 ≤ p.length
  · rw [if_pos hlen, if_pos hlen, fromLe_eq (by omega) (by omega),
      fromLe_eq (by omega) (by omega), index_eq (by omega)]
    rfl
  · rw [if_neg hlen, if_neg hlen]

theorem summarizeInferenceCancelled_eq :
    summarizeInferenceCancelled p = some (Reconstruct.summarizeInferenceCancelled p) := by
  rw [summarizeInferenceCancelled, Reconstruct.summarizeInferenceCancelled]
  by_cases hlen : 9 ≤ p.length
  · rw [if_pos hlen, if_pos hlen, fromLe_eq (by omega) (by omega), index_eq (by omega)]
    generalize byteAt p 8 = cause
    dsimp only [Option.bind_eq_bind, Option.bind_some]
    split <;> simp_all
  · rw [if_neg hlen, if_neg hlen]

theorem summarizeInferenceFailed_eq :
    summarizeInferenceFailed p = some (Reconstruct.summarizeInferenceFailed p) := by
  rw [summarizeInferenceFailed, Reconstruct.summarizeInferenceFailed]
  by_cases hlen : 2 ≤ p.length
  · rw [if_pos hlen, if_pos hlen, index_eq (by omega), index_eq (by omega)]
    dsimp only [Option.bind_eq_bind, Option.bind_some]
    by_cases hmsg : 2 + (byteAt p 1).toNat ≤ p.length
    · rw [if_pos hmsg, if_pos hmsg, range_eq (by omega) hmsg, Nat.add_sub_cancel_left]
      rfl
    · rw [if_neg hmsg, if_neg hmsg]
  · rw [if_neg hlen, if_neg hlen]

theorem summarizeCompensation_eq :
    summarizeCompensation p = some (Reconstruct.summarizeCompensation p) := by
  rw [summarizeCompensation, Reconstruct.summarizeCompensation]
  by_cases hlen : 16 ≤ p.length
  · rw [if_pos hlen, if_pos hlen, range_eq (by omega) (by omega)]
    rfl
  · rw [if_neg hlen, if_neg hlen]

theorem summarizeAgentCrash_eq :
    summarizeAgentCrash p = some (Reconstruct.summarizeAgentCrash p) := by
  rw [summarizeAgentCrash, Reconstruct.summarizeAgentCrash]
  by_cases hlen : p.length < 49
  · rw [if_pos hlen, if_pos hlen]
  · rw [if_neg hlen, if_neg hlen, index_eq (by omega), Option.bind_eq_bind, Option.bind_some]
    cases crashOf (byteAt p 0) with
    | none => rfl
    | some cause =>
        dsimp only
        rw [shortRange_eq (by omega) (by omega), shortRange_eq (by omega) (by omega)]
        rfl

/-! ### The arm that panics -/

theorem summarizeCapabilityDenied_eq :
    summarizeCapabilityDenied p = Reconstruct.summarizeCapabilityDenied p := by
  rw [summarizeCapabilityDenied, Reconstruct.summarizeCapabilityDenied]
  by_cases hhead : p.length < 25
  · rw [if_pos hhead, if_pos hhead]
  · rw [if_neg hhead, if_neg hhead, fromLe_eq (by omega) (by omega), Option.bind_eq_bind,
      Option.bind_some]
    by_cases hlen : 26 ≤ p.length
    · rw [if_pos hlen, if_pos hlen, index_eq (by omega)]
      dsimp only [Option.bind_eq_bind, Option.bind_some]
      generalize hres : (byteAt p 24).toNat = resLen
      by_cases hfits : 25 + resLen + 2 ≤ p.length
      · rw [if_pos hfits, if_pos hfits, index_eq (by omega), Option.bind_some]
        by_cases hlimited : byteAt p (25 + resLen + 1) = 0x01
        · rw [if_pos hlimited, if_pos hlimited]
          by_cases hshort : p.length < 29
          · have hperm : index p 28 = none := List.getElem?_eq_none (by omega)
            rw [if_pos hshort, hperm]
            exact Option.bind_fun_none _
          · rw [if_neg hshort, fromLe_eq (by omega) (by omega), index_eq (by omega)]
            rfl
        · rw [if_neg hlimited, if_neg hlimited, range_eq (by omega) (by omega),
            index_eq (by omega), Nat.add_sub_cancel_left]
          rfl
      · rw [if_neg hfits, if_neg hfits]
    · rw [if_neg hlen, if_neg hlen]

/-- With its reads unchecked, the reader answers the same. -/
theorem summarize_eq (emitType : UInt8) :
    summarize emitType p = Reconstruct.summarize emitType p := by
  rw [summarize, Reconstruct.summarize]
  cases EmitType.tryFrom emitType with
  | none => rfl
  | some t =>
      cases t with
      | lifecycle => exact summarizeLifecycle_eq p
      | introspect => exact summarizeIntrospect_eq p
      | selfRollback => exact summarizeSelfRollback_eq p
      | validationRequest => exact summarizeValidationRequest_eq p
      | validationResponse => exact summarizeValidationResponse_eq p
      | schedulerRollback => exact summarizeSchedulerRollback_eq p
      | inferenceRequest => exact summarizeInferenceRequest_eq p
      | inferenceResponse => exact summarizeInferenceResponse_eq p
      | inferenceCancelled => exact summarizeInferenceCancelled_eq p
      | inferenceFailed => exact summarizeInferenceFailed_eq p
      | compensationOpen => exact summarizeCompensation_eq p
      | compensationClose => exact summarizeCompensation_eq p
      | agentCrash => exact summarizeAgentCrash_eq p
      | capabilityDenied => exact summarizeCapabilityDenied_eq p
      | _ => rfl

end

/-- A payload of 27 or 28 bytes, too short for an aggregated refusal, whose byte 24 leads the
reader to a one. -/
def Overruns (p : List UInt8) : Prop :=
  (p.length = 27 ∨ p.length = 28) ∧ byteAt p 24 = 0 ∧ byteAt p 26 = 1 ∨
    p.length = 28 ∧ byteAt p 24 = 1 ∧ byteAt p 27 = 1

theorem summarizeCapabilityDenied_eq_none_iff (p : List UInt8) :
    Reconstruct.summarizeCapabilityDenied p = none ↔ Overruns p := by
  have hbyte : ∀ n : UInt8, byteAt p 24 = n ↔ (byteAt p 24).toNat = n.toNat :=
    fun n => UInt8.toNat_inj.symm
  rw [Reconstruct.summarizeCapabilityDenied, Overruns, hbyte 0, hbyte 1]
  generalize (byteAt p 24).toNat = resLen
  simp only [UInt8.toNat_zero, UInt8.toNat_one]
  constructor
  · intro hnone
    split_ifs at hnone with hhead hlen hfits hone hroom
    obtain rfl | rfl : resLen = 0 ∨ resLen = 1 := by omega
    · exact .inl ⟨by omega, rfl, hone⟩
    · exact .inr ⟨by omega, rfl, hone⟩
  · rintro (⟨hlen, rfl, hone⟩ | ⟨hlen, rfl, hone⟩)
    · rw [if_neg (by omega), if_pos (by omega), if_pos (by omega), if_pos hone,
        if_pos (by omega)]
    · rw [if_neg (by omega), if_pos (by omega), if_pos (by omega), if_pos hone,
        if_pos (by omega)]

theorem tryFrom_eq_capabilityDenied_iff (v : UInt8) :
    EmitType.tryFrom v = some .capabilityDenied ↔ v = 0x14 := by
  constructor
  · intro h
    unfold EmitType.tryFrom at h
    split at h <;> cases h
    rfl
  · rintro rfl
    rfl

/-- **The reader panics only there**, for every type and every payload. -/
theorem summarize_isSome_iff (emitType : UInt8) (p : List UInt8) :
    (summarize emitType p).isSome ↔ ¬ (emitType = 0x14 ∧ Overruns p) := by
  rw [summarize_eq, ← tryFrom_eq_capabilityDenied_iff, ← summarizeCapabilityDenied_eq_none_iff,
    Reconstruct.summarize]
  cases EmitType.tryFrom emitType with
  | none => simp
  | some t => cases t <;> simp [Option.isSome_iff_ne_none]

/-- The refusal of a guest: 24 bytes, and the ends of an aggregated payload that is too short. -/
def sampleShort : List UInt8 := List.replicate 24 0 ++ [0x00, 0x00, 0x01]

/-- The reader panics at it. -/
theorem summarize_panics : ¬ ∀ emitType p, (summarize emitType p).isSome := by
  intro h
  exact absurd (h 0x14 sampleShort) (by decide)

end Checked

end Reconstruct

/-! ### What a guest can emit -/

namespace Caller

variable {D : Type} [ContentHash D]

theorem usize_ofNat {n : ℕ} (hn : n < 2 ^ 31) : usize (Int32.ofNat n) = n := by
  rw [usize, Int32.toInt_ofNat_of_lt hn]
  omega

/-- A guest whose memory is `p` emits `p`, under any type. -/
theorem emit_payload {c : Caller D} {r : PendingCommit D} (t : EmitType)
    (hterm : c.data.terminationRequested = false) (herror : c.data.hostError = none)
    (hpending : c.data.pendingCommit = some r) (hfault : c.world.fault c.world.ios = false)
    (hlen : c.memory.length < 2 ^ 31) :
    ∃ e env, (c.emit (Int32.ofNat t.asU8.toNat) 0 (Int32.ofNat c.memory.length)).world.writes =
        c.world.writes ++ [.append .guest e] ∧
      e.emitPayload = some env ∧ env.emitType = t.asU8 ∧ env.payload = c.memory := by
  have htype : (EmitType.tryFrom (UInt8.ofNat (usize (Int32.ofNat t.asU8.toNat)))).getD
      .actionResult = t := by
    rw [usize_ofNat (by have := t.asU8.toNat_lt; omega), UInt8.ofNat_toNat,
      EmitType.tryFrom_asU8, Option.getD_some]
  have hptr : usize 0 = 0 := rfl
  have hlength : usize (Int32.ofNat c.memory.length) = c.memory.length := usize_ofNat hlen
  have hbounds : inBounds c.memory 0 c.memory.length = true := by
    simp only [inBounds, decide_eq_true_eq, Bool.and_eq_true]
    omega
  have hread : readMem c.memory 0 c.memory.length = c.memory := by simp [readMem]
  have hmemory : c.takePending.now.2.memory = c.memory := rfl
  have hworld : c.takePending.now.2.world = c.world := rfl
  rw [emit, hterm, herror, hpending]
  simp only [htype, hptr, hlength, hmemory, hbounds, hread]
  simp only [append, write, World.write, hworld, hfault, Bool.not_true, Bool.false_eq_true,
    Option.isSome_none, if_false, if_true]
  exact ⟨_, _, rfl, rfl, rfl, rfl⟩

/-- The reader panics at what a guest emits exactly if the guest emits a refusal that overruns. -/
theorem emit_summarize_isSome_iff {c : Caller D} {r : PendingCommit D} (t : EmitType)
    (hterm : c.data.terminationRequested = false) (herror : c.data.hostError = none)
    (hpending : c.data.pendingCommit = some r) (hfault : c.world.fault c.world.ios = false)
    (hlen : c.memory.length < 2 ^ 31) :
    ∃ e env, (c.emit (Int32.ofNat t.asU8.toNat) 0 (Int32.ofNat c.memory.length)).world.writes =
        c.world.writes ++ [.append .guest e] ∧
      e.emitPayload = some env ∧
      ((Reconstruct.Checked.summarize env.emitType env.payload).isSome ↔
        ¬ (t = .capabilityDenied ∧ Reconstruct.Checked.Overruns c.memory)) := by
  obtain ⟨e, env, hwrites, henv, htype, hpayload⟩ :=
    emit_payload t hterm herror hpending hfault hlen
  refine ⟨e, env, hwrites, henv, ?_⟩
  rw [htype, hpayload, Reconstruct.Checked.summarize_isSome_iff]
  have htypes : t.asU8 = EmitType.capabilityDenied.asU8 ↔ t = .capabilityDenied := EmitType.asU8_inj
  exact not_congr (and_congr_left fun _ => htypes)

end Caller

end Torpor
