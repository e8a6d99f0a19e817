import Torpor.Actor.SelfRollback

/-!
# Success Codes

What the values of `agent_self_rollback` and `agent_request_validation` tell the guest, in every
state and whatever accesses fail. Both functions check their arguments first and change nothing
if they refuse; but they pass over a failing append, after which they report a success that did
not happen, and a target from `2 ^ 31` on does not fit the value of a self-rollback.

## Main results

* `Caller.SelfRollbackTruthful`, `Caller.RequestTruthful`: the values tell what happened.
* `success_codes_truthful_iff`: exactly when they do.
* `lost_request_reported`: a request for a validation that is not logged and not awaited, and
  reported as a success.
-/

namespace Torpor

open ContentHash

variable {D : Type} [LinearOrder D] [ContentHash D]

namespace Caller

/-! ### What the values say -/

omit [LinearOrder D] [ContentHash D] in
/-- Nothing was written, and of the state of the agent only the number of clock readings
differs. -/
def Unchanged (c c' : Caller D) : Prop :=
  c'.world.writes = c.world.writes ∧ c'.data = { c.data with reads := c'.data.reads }

omit [LinearOrder D] [ContentHash D] in
/-- One entry of the given type was appended. -/
def Appended (t : EmitType) (c c' : Caller D) (e : LogEntry D) : Prop :=
  c'.world.writes = c.world.writes ++ [.append .runtime e] ∧ e.HasType t

/-- A value that is not negative says that the entry was appended and the last snapshot moved
to the target, and is the sequence number of the target; a negative one, that nothing changed. -/
structure SelfRollbackTruthful (c : Caller D) (depth : Int32) : Prop where
  succeeds : 0 ≤ (c.agentSelfRollback depth).1 ↔
    ∃ e, Appended .selfRollback c (c.agentSelfRollback depth).2 e ∧
      (c.agentSelfRollback depth).2.data.lastSnapshot = some e.hashAfter
  value : 0 ≤ (c.agentSelfRollback depth).1 →
    ∃ x h, (c.agentSelfRollback depth).2.data.lastSnapshot = some x ∧
      c.world.store.getHeader x = some h ∧ (c.agentSelfRollback depth).1.toInt = h.seq
  fails : (c.agentSelfRollback depth).1 < 0 → Unchanged c (c.agentSelfRollback depth).2

omit [LinearOrder D] in
/-- The value zero says that the entry was appended and a verdict is awaited; a negative one,
that nothing changed. -/
structure RequestTruthful (c : Caller D) (riskLevel : Int32) : Prop where
  succeeds : (c.agentRequestValidation riskLevel).1 = 0 ↔
    (∃ e, Appended .validationRequest c (c.agentRequestValidation riskLevel).2 e) ∧
      (c.agentRequestValidation riskLevel).2.data.lifecycle = .awaitingValidation
  fails : (c.agentRequestValidation riskLevel).1 < 0 →
    Unchanged c (c.agentRequestValidation riskLevel).2

/-! ### Logging that fails -/

omit [LinearOrder D] [ContentHash D] in
theorem not_appended_of_writes {t : EmitType} {c c' : Caller D} {e : LogEntry D}
    (h : c'.world.writes = c.world.writes) : ¬ Appended t c c' e := by
  rintro ⟨hwrites, -⟩
  simp [h] at hwrites

omit [LinearOrder D] in
/-- An emission whose append fails is not logged. -/
theorem logQuiet_of_fault {c : Caller D} (hfault : c.world.fault c.world.ios = true)
    (t : EmitType) (payload : List UInt8) :
    (c.logQuiet t payload).1 = false ∧
      (c.logQuiet t payload).2.world.writes = c.world.writes := by
  have hledger := ledger_logQuiet_of_failed c t payload hfault
  refine ⟨?_, congrArg Ledger.writes hledger⟩
  rw [logQuiet_fst, hfault]
  rfl

omit [LinearOrder D] in
theorem logQuiet_of_noFault {c : Caller D} (hfault : c.world.fault c.world.ios = false)
    (t : EmitType) (payload : List UInt8) :
    (c.logQuiet t payload).1 = true ∧ ∃ e, Appended t c (c.logQuiet t payload).2 e := by
  obtain ⟨e, htype, -, hledger⟩ := ledger_logQuiet_of_ok c t payload hfault
  refine ⟨?_, e, congrArg Ledger.writes hledger, htype⟩
  rw [logQuiet_fst, hfault]
  rfl

/-! ### Self-rollbacks -/

/-- A call that finds a path has its entry appended and its target in the range of its value,
or has no entry appended and a target that the value shows as negative. -/
def SelfRollbackFits (c : Caller D) (depth : Int32) : Prop :=
  ∀ tip path, c.FindsPath depth tip path →
    if c.world.fault (c.world.ios + c.world.store.walkBound) then
      Int32.ofNat (c.data.seq - 1 - usize depth) < 0
    else c.data.seq - 1 - usize depth < 2 ^ 31

variable {c : Caller D} {depth : Int32} {tip : D} {path : List D}

/-- The end of a path that the call finds carries its target. -/
theorem FindsPath.hasSeq (h : c.FindsPath depth tip path) :
    c.world.store.HasSeq (path.getLastD tip) (c.data.seq - 1 - usize depth) := by
  obtain ⟨x, hend, -, hxseq⟩ := ContentStore.walk_eq_ok h.found
  rwa [List.getLastD_eq_getLast?, hend]

/-- A move whose append succeeds. -/
theorem movedBack_of_noFault (depth : Int32) (tip : D) (path : List D)
    (hfault : c.world.fault (c.world.ios + c.world.store.walkBound) = false) :
    (c.movedBack depth tip path).data.lastSnapshot = some (path.getLastD tip) ∧
      ∃ e, Appended .selfRollback c (c.movedBack depth tip path) e ∧
        e.hashAfter = path.getLastD tip := by
  simp only [movedBack]
  generalize c.data.seq - 1 - usize depth = targetSeq
  generalize UInt8.ofNat (usize depth) :: leBytes 8 targetSeq = payload
  obtain ⟨hlast, hwrites⟩ := moveTip_of_noFault
    (c := (c.rollbackPath tip targetSeq).2.now.2.now.2) hfault .selfRollback tip
    (path.getLastD tip) (c.rollbackPath tip targetSeq).2.now.1
    (c.rollbackPath tip targetSeq).2.now.2.now.1 payload
  exact ⟨hlast, _, ⟨hwrites, _, rfl, rfl⟩, rfl⟩

/-- A move whose append fails. -/
theorem movedBack_of_fault (depth : Int32) (tip : D) (path : List D)
    (hfault : c.world.fault (c.world.ios + c.world.store.walkBound) = true) :
    Unchanged c (c.movedBack depth tip path) := by
  simp only [movedBack]
  rw [moveTip_of_fault hfault]
  exact ⟨rfl, rfl⟩

theorem selfRollbackTruthful_iff : c.SelfRollbackTruthful depth ↔ c.SelfRollbackFits depth := by
  constructor
  · intro htrue tip path hpath
    split_ifs with hfault
    · -- without an entry the value must not claim a success
      by_contra hneg
      have hsame := movedBack_of_fault depth tip path hfault
      have hsucceeds : 0 ≤ (c.agentSelfRollback depth).1 := by
        rw [hpath.agentSelfRollback_eq]
        exact Int32.not_lt.mp hneg
      obtain ⟨e, happended, -⟩ := htrue.succeeds.mp hsucceeds
      rw [hpath.agentSelfRollback_eq] at happended
      exact not_appended_of_writes hsame.1 happended
    · obtain ⟨hlast, e, happended, hafter⟩ := movedBack_of_noFault depth tip path
        (Bool.eq_false_iff.mpr hfault)
      have hsucceeds : 0 ≤ (c.agentSelfRollback depth).1 := by
        refine htrue.succeeds.mpr ⟨e, ?_⟩
        rw [hpath.agentSelfRollback_eq, hafter]
        exact ⟨happended, hlast⟩
      obtain ⟨x, h, hx, hget, hvalue⟩ := htrue.value hsucceeds
      rw [hpath.agentSelfRollback_eq] at hx hvalue
      obtain rfl := Option.some.inj (hlast.symm.trans hx)
      have hseq := hpath.hasSeq.eq hget
      have hlt := Int32.toInt_lt (Int32.ofNat (c.data.seq - 1 - usize depth))
      simp only [hvalue, hseq] at hlt
      omega
  · intro hfits
    rcases c.agentSelfRollback_cases_path depth with
      ⟨tip, path, hpath⟩ | ⟨-, hneg, ios, hsame⟩
    · have hfit := hfits tip path hpath
      have hvalue := hpath.hasSeq
      split_ifs at hfit with hfault
      · have hsame := movedBack_of_fault depth tip path hfault
        refine ⟨⟨?_, ?_⟩, ?_, ?_⟩ <;> rw [hpath.agentSelfRollback_eq]
        · exact fun hle => absurd hfit (Int32.not_lt.mpr hle)
        · rintro ⟨e, happended, -⟩
          exact absurd happended (not_appended_of_writes hsame.1)
        · exact fun hle => absurd hfit (Int32.not_lt.mpr hle)
        · exact fun _ => hsame
      · obtain ⟨hlast, e, happended, hafter⟩ := movedBack_of_noFault depth tip path
          (Bool.eq_false_iff.mpr hfault)
        have htoInt := Int32.toInt_ofNat_of_lt hfit
        have hle : 0 ≤ Int32.ofNat (c.data.seq - 1 - usize depth) := by
          rw [Int32.le_iff_toInt_le, htoInt]
          simp
        refine ⟨⟨?_, ?_⟩, ?_, ?_⟩ <;> rw [hpath.agentSelfRollback_eq]
        · exact fun _ => ⟨e, happended, hafter ▸ hlast⟩
        · exact fun _ => hle
        · obtain ⟨h, hget, hseq⟩ := hvalue
          exact fun _ => ⟨_, h, hlast, hget, by rw [htoInt, hseq]⟩
        · exact fun hlt => absurd hle (Int32.not_le.mpr hlt)
    · have hle : ¬ 0 ≤ (c.agentSelfRollback depth).1 := Int32.not_le.mpr hneg
      refine ⟨⟨fun h => absurd h hle, ?_⟩, fun h => absurd h hle, fun _ => ?_⟩
      · rintro ⟨e, happended, -⟩
        rw [hsame] at happended
        exact absurd happended (not_appended_of_writes rfl)
      · rw [hsame]
        exact ⟨rfl, rfl⟩

/-! ### Requests for a validation -/

omit [LinearOrder D] [ContentHash D] in
/-- A request that passes its checks has its entry appended. -/
def RequestFits (c : Caller D) (riskLevel : Int32) : Prop :=
  c.data.terminationRequested = false → ¬ (riskLevel < 0 ∨ 2 < riskLevel) →
    c.world.fault c.world.ios = false

omit [LinearOrder D] in
theorem requestTruthful_iff {riskLevel : Int32} :
    c.RequestTruthful riskLevel ↔ c.RequestFits riskLevel := by
  have hminus : (-1 : Int32) ≠ 0 := by decide
  by_cases halive : c.data.terminationRequested = true
  · have hrefused : c.agentRequestValidation riskLevel = (-1, c) := if_pos halive
    refine ⟨fun _ h => absurd (h.symm.trans halive) (by simp), fun _ => ⟨⟨?_, ?_⟩, ?_⟩⟩ <;>
      rw [hrefused]
    · exact fun h => absurd h hminus
    · exact fun ⟨⟨e, happended⟩, _⟩ => absurd happended (not_appended_of_writes rfl)
    · exact fun _ => ⟨rfl, rfl⟩
  by_cases hrange : riskLevel < 0 ∨ 2 < riskLevel
  · have hrefused : c.agentRequestValidation riskLevel = (-1, c) := by
      rw [agentRequestValidation, if_neg halive, if_pos hrange]
    refine ⟨fun _ _ h => absurd hrange h, fun _ => ⟨⟨?_, ?_⟩, ?_⟩⟩ <;> rw [hrefused]
    · exact fun h => absurd h hminus
    · exact fun ⟨⟨e, happended⟩, _⟩ => absurd happended (not_appended_of_writes rfl)
    · exact fun _ => ⟨rfl, rfl⟩
  have hfits : c.RequestFits riskLevel ↔ c.world.fault c.world.ios = false :=
    ⟨fun h => h (by simpa using halive) hrange, fun h _ _ => h⟩
  have hcode : (c.agentRequestValidation riskLevel).1 = 0 := by
    simp only [agentRequestValidation, if_neg halive, if_neg hrange]
  rw [hfits]
  cases hfault : c.world.fault c.world.ios with
  | true =>
      refine iff_of_false (fun htrue => ?_) (by simp)
      obtain ⟨⟨e, happended⟩, -⟩ := htrue.succeeds.mp hcode
      obtain ⟨hfailed, hsame⟩ :=
        logQuiet_of_fault hfault .validationRequest [UInt8.ofNat (usize riskLevel)]
      refine not_appended_of_writes ?_ happended
      simp only [agentRequestValidation, if_neg halive, if_neg hrange, hfailed,
        Bool.false_eq_true, if_false]
      exact hsame
  | false =>
      refine iff_of_true ⟨⟨fun _ => ?_, fun _ => hcode⟩, fun hneg => ?_⟩ rfl
      · obtain ⟨hok, e, happended⟩ :=
          logQuiet_of_noFault hfault .validationRequest [UInt8.ofNat (usize riskLevel)]
        simp only [agentRequestValidation, if_neg halive, if_neg hrange, hok, if_true]
        exact ⟨⟨e, happended⟩, rfl⟩
      · rw [hcode] at hneg
        exact absurd hneg (by decide)

end Caller

/-- In every state and whatever accesses fail: the value of a self-rollback is truthful exactly
if, when it finds a path, its entry is appended and its target is below `2 ^ 31`, or its entry
is not appended and its target is shown as negative; and the value of a request for a validation
exactly if, when it passes its checks, its entry is appended. -/
theorem success_codes_truthful_iff (c : Caller D) (depth riskLevel : Int32) :
    (c.SelfRollbackTruthful depth ↔ c.SelfRollbackFits depth) ∧
      (c.RequestTruthful riskLevel ↔ c.RequestFits riskLevel) :=
  ⟨Caller.selfRollbackTruthful_iff, Caller.requestTruthful_iff⟩

namespace Actor

/-- An agent whose third access fails: after its start and the message that it takes up. -/
def thirdAccessFails : Actor (List ℕ) :=
  .new 10 { clock := fun n => n + 1, capStore := 0, kvStore := 0, causeHandleRegistry := 0 }
    [0, 0, 0, 0] { blankWorld with fault := fun n => n = 2 }

/-- Its guest is told that a request for a validation is made, while nothing is logged and no
verdict awaited. -/
theorem lost_request_reported :
    ∃ a : Actor (List ℕ), Machine.run step thirdAccessFails
        [.start, .recv (.data [] none) []] = some a ∧ a.phase = .guest .data ∧
      ¬ a.caller.RequestTruthful 1 := by
  have hrun : (Machine.run step thirdAccessFails [.start, .recv (.data [] none) []]).any
      (fun a => decide (a.phase = .guest .data ∧
        a.caller.data.terminationRequested = false ∧
        a.caller.world.fault a.caller.world.ios = true)) = true := by
    decide +kernel
  obtain ⟨a, ha, hcheck⟩ := (Option.any_eq_true _ _).mp hrun
  obtain ⟨hphase, halive, hfault⟩ := of_decide_eq_true hcheck
  refine ⟨a, ha, hphase, fun htrue => ?_⟩
  have hfits := Caller.requestTruthful_iff.mp htrue halive (by decide)
  exact absurd (hfault.symm.trans hfits) (by simp)

end Actor

end Torpor
