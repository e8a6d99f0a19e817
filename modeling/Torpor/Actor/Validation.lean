import Torpor.Actor.Steps

/-!
# The Validation Gate

`agent_request_validation` logs a request and sets the lifecycle state `AwaitingValidation`, and
the end of a cycle of `Message::Data` that finds this state waits for a verdict. Between the
request and the end of the cycle `agent_checkpoint` and `agent_infer` overwrite the state, so
does a session boundary at the end, and the end of a cycle of `Message::SessionResume` does not
look at it: the next message then enters the guest while the request is unanswered.

## Main results

* `unanswered`: a request of the agent in the journal with no response after it.
* `Actor.Gated`: between two cycles there is none.
* `gate_held`: in a run in which every cycle that leaves a request unanswered is one of
  `Message::Data` that ends in the state `AwaitingValidation` without a session boundary, the
  guest is never entered while a request is unanswered.
* `checkpoint_opens_gate`: a request followed by a checkpoint.
-/

namespace Torpor

open ContentHash

variable {D : Type}

/-! ### Unanswered requests -/

/-- An entry that the runtime wrote for an agent, of the given type. -/
def Write.isRuntime (id : AgentId) (t : EmitType) : Write D → Bool
  | .append .runtime e => e.agentId == id && decide (e.HasType t)
  | _ => false

/-- A validation request of the agent with no response after it. -/
def unanswered (id : AgentId) : List (Write D) → Bool
  | [] => false
  | w :: ws =>
      (w.isRuntime id .validationRequest && !ws.any (·.isRuntime id .validationResponse)) ||
        unanswered id ws

/-- None of the writes is a validation request of the agent. -/
def NoRequest (id : AgentId) (ws : List (Write D)) : Prop :=
  ∀ w ∈ ws, w.isRuntime id .validationRequest = false

theorem NoRequest.append {id : AgentId} {ws ws' : List (Write D)} (h : NoRequest id ws)
    (h' : NoRequest id ws') : NoRequest id (ws ++ ws') := by
  intro w hw
  rcases List.mem_append.mp hw with hw | hw
  · exact h w hw
  · exact h' w hw

/-- Entries of another type are no requests. -/
theorem noRequest_of_runtimeEntries {id : AgentId} {t : EmitType} {ws : List (Write D)}
    (h : Caller.RuntimeEntries t ws) (ht : t ≠ .validationRequest) : NoRequest id ws := by
  intro w hw
  obtain ⟨e, rfl, he⟩ := h w hw
  have hother : ¬ e.HasType .validationRequest := fun h' => ht (he.unique h')
  simp [Write.isRuntime, hother]

/-- Writes of others are no requests of the agent. -/
theorem noRequest_of_foreign {id : AgentId} {ws : List (Write D)}
    (h : Actor.foreign id ws = true) : NoRequest id ws := by
  intro w hw
  match w with
  | .putBlock data => rfl
  | .putSnapshot header => rfl
  | .append .guest e => rfl
  | .append .scheduler e => rfl
  | .append .runtime e =>
      have he : e ∈ entriesOf ws := List.mem_filterMap.mpr ⟨_, hw, rfl⟩
      have hid : e.agentId ≠ id := by
        simpa using List.all_eq_true.mp h e he
      simp [Write.isRuntime, hid]

theorem unanswered_of_noRequest {id : AgentId} {ws : List (Write D)} (h : NoRequest id ws) :
    unanswered id ws = false := by
  induction ws with
  | nil => rfl
  | cons w ws ih =>
      have hw := h w (List.mem_cons_self ..)
      have hrest := ih fun w' hw' => h w' (List.mem_cons_of_mem _ hw')
      simp [unanswered, hw, hrest]

/-- Writes that are no requests leave none unanswered that was not so before. -/
theorem unanswered_append {id : AgentId} {ws ws' : List (Write D)}
    (h : unanswered id ws = false) (h' : NoRequest id ws') :
    unanswered id (ws ++ ws') = false := by
  induction ws with
  | nil => exact unanswered_of_noRequest h'
  | cons w ws ih =>
      simp only [unanswered, Bool.or_eq_false_iff, Bool.and_eq_false_imp] at h
      obtain ⟨hw, hws⟩ := h
      have hrest := ih hws
      simp only [List.cons_append, unanswered, hrest, Bool.or_false, Bool.and_eq_false_imp]
      intro hreq
      have hany := hw hreq
      simp only [List.any_append, Bool.not_eq_false', Bool.or_eq_true] at hany ⊢
      exact .inl hany

/-- A response answers every request before it. -/
theorem unanswered_response {id : AgentId} (ws : List (Write D)) {w : Write D}
    (hw : w.isRuntime id .validationResponse = true)
    (hreq : w.isRuntime id .validationRequest = false) :
    unanswered id (ws ++ [w]) = false := by
  induction ws with
  | nil => simp [unanswered, hreq]
  | cons x ws ih => simp [unanswered, ih, hw]

/-! ### What adds no request -/

/-- From one ledger to another the same agent has written no request. -/
def Ledger.Silent (l l' : Ledger D) : Prop :=
  l'.id = l.id ∧ ∃ ws, l'.writes = l.writes ++ ws ∧ NoRequest l.id ws

theorem Ledger.Silent.refl (l : Ledger D) : l.Silent l :=
  ⟨rfl, [], by simp, by simp [NoRequest]⟩

theorem Ledger.Silent.trans {l l' l'' : Ledger D} (h : l.Silent l') (h' : l'.Silent l'') :
    l.Silent l'' := by
  obtain ⟨hid, ws, hws, hno⟩ := h
  obtain ⟨hid', ws', hws', hno'⟩ := h'
  refine ⟨hid'.trans hid, ws ++ ws', by rw [hws', hws, List.append_assoc], ?_⟩
  exact hno.append (hid ▸ hno')

theorem Ledger.silent_extend {l : Ledger D} {ws : List (Write D)} (h : NoRequest l.id ws) :
    l.Silent (l.extend ws) :=
  ⟨rfl, ws, rfl, h⟩

/-- A ledger with nothing unanswered stays so. -/
theorem Ledger.Silent.unanswered {l l' : Ledger D} (h : l.Silent l')
    (hl : unanswered l.id l.writes = false) : unanswered l'.id l'.writes = false := by
  obtain ⟨hid, ws, hws, hno⟩ := h
  rw [hid, hws]
  exact unanswered_append hl hno

namespace Caller

variable [ContentHash D]

theorem logQuiet_silent (c : Caller D) {t : EmitType} (ht : t ≠ .validationRequest)
    (payload : List UInt8) : c.ledger.Silent (c.logQuiet t payload).2.ledger := by
  obtain ⟨ws, hws, hentries⟩ := logQuiet_writes c t payload
  rw [hws]
  exact Ledger.silent_extend (noRequest_of_runtimeEntries hentries ht)

theorem logLifecycleEvent_silent (c : Caller D) (s : LifecycleState) :
    c.ledger.Silent (c.logLifecycleEvent s).ledger := by
  obtain ⟨ws, hws, hentries⟩ := logLifecycleEvent_writes c s
  rw [hws]
  exact Ledger.silent_extend (noRequest_of_runtimeEntries hentries (by simp))

/-- An append of an entry that is no request. -/
theorem append_silent {c : Caller D} {writer : Writer} {e : LogEntry D}
    (he : (Write.append writer e).isRuntime c.data.id .validationRequest = false) :
    c.ledger.Silent (c.append writer e).2.ledger := by
  cases hok : (c.append writer e).1 with
  | true =>
      rw [ledger_append_of_ok hok]
      refine Ledger.silent_extend fun w hw => ?_
      rw [List.mem_singleton.mp hw]
      exact he
  | false =>
      rw [ledger_append_of_failed hok]
      exact .refl _

theorem checkSession_silent (c : Caller D) : c.ledger.Silent c.checkSession.ledger := by
  have hboundary : ∀ c : Caller D, c.ledger.Silent c.logSessionBoundary.ledger := by
    intro c
    refine Ledger.Silent.trans ?_ (logLifecycleEvent_silent _ _)
    exact logQuiet_silent c (by simp) _
  simp only [checkSession]
  split_ifs
  · exact hboundary c.now.2
  · exact .refl _
  · exact hboundary c
  · exact .refl _

theorem processEnd_silent (c : Caller D) : c.ledger.Silent c.processEnd.2.ledger := by
  rcases c.processEnd_cases with ⟨error, -, h⟩ | ⟨-, -, h⟩ | ⟨-, p, -, hend⟩
  · rw [h]
    exact .refl _
  · rw [h]
    exact checkSession_silent c
  · have hflush : c.takePending.ledger.Silent
        (c.takePending.append .runtime (c.commitEntry p none)).2.ledger :=
      append_silent (by simp [Write.isRuntime, commitEntry, LogEntry.HasType])
    rcases hend with ⟨-, h⟩ | ⟨-, h⟩
    · rw [h]
      exact Ledger.Silent.trans hflush (checkSession_silent _)
    · rw [h]
      exact hflush

variable [LinearOrder D]

omit [LinearOrder D] in
theorem moveTip_silent {l : Ledger D} {c : Caller D} {t : EmitType}
    (ht : t ≠ .validationRequest) (hl : l = c.ledger) (tip target : D) (nowMs nowUs : ℕ)
    (payload : List UInt8) :
    l.Silent (c.moveTip t tip target nowMs nowUs payload).ledger := by
  subst hl
  have happend : c.ledger.Silent (c.append .runtime
      (c.entry t c.data.seq nowMs nowUs tip target payload)).2.ledger :=
    append_silent (by simp [Write.isRuntime, entry, LogEntry.HasType, ht])
  simp only [moveTip]
  split_ifs
  · exact happend
  · exact happend

theorem rollback_silent (c : Caller D) (order : List CapabilityId) (targetSeq : ℕ) :
    c.ledger.Silent (c.rollback order targetSeq).2.ledger := by
  rcases c.rollback_cases order targetSeq with h | ⟨tip, -, h | ⟨path, -, h⟩⟩
  · rw [h]
    exact .refl _
  · rw [h]
    exact .refl _
  · rw [h]
    simp only [rollbackAlong]
    refine Ledger.Silent.trans ?_ (logLifecycleEvent_silent _ _)
    refine moveTip_silent (by simp) ?_ _ _ _ _ _
    rw [revokeForTarget_ledger]
    rfl

/-! ### The end of a cycle and of a wait -/

omit [LinearOrder D]

/-- The check at the end of `process_one` would find a session bound reached. -/
def sessionDue (c : Caller D) : Bool :=
  c.sessionExceeded (if 0 < c.data.sessionStartedAtMs then c.now.1 else 0)

theorem checkSession_lifecycle {c : Caller D} (h : c.sessionDue = false) :
    c.checkSession.data.lifecycle = c.data.lifecycle := by
  simp only [sessionDue] at h
  simp only [checkSession]
  split_ifs at h ⊢ with hstarted hexceeded hexceeded
  · exact absurd (hexceeded.symm.trans h) (by simp)
  · rfl
  · exact absurd (hexceeded.symm.trans h) (by simp)
  · rfl

/-- The end of a cycle that reaches no session bound leaves the lifecycle as it is. -/
theorem processEnd_lifecycle {c : Caller D} (h : c.sessionDue = false) :
    c.processEnd.2.data.lifecycle = c.data.lifecycle := by
  rcases c.processEnd_cases with ⟨error, -, hend⟩ | ⟨-, -, hend⟩ | ⟨-, p, -, hend⟩
  · rw [hend]
    rfl
  · rw [hend]
    exact checkSession_lifecycle h
  · obtain ⟨lastAction, hdata⟩ : ∃ lastAction, (c.takePending.append .runtime
        (c.commitEntry p none)).2.data = { c.takePending.data with lastAction } :=
      ⟨_, append_data c.takePending .runtime (c.commitEntry p none)⟩
    have hlife : (c.takePending.append .runtime (c.commitEntry p none)).2.data.lifecycle =
        c.data.lifecycle := by
      rw [hdata]
      rfl
    rcases hend with ⟨-, hend⟩ | ⟨-, hend⟩
    · rw [hend]
      refine (checkSession_lifecycle ?_).trans hlife
      rw [← h]
      simp only [sessionDue, sessionExceeded, now, hdata]
      rfl
    · rw [hend]
      exact hlife

/-- A verdict of an agent that has not terminated answers its requests, if it can be
logged. -/
theorem recordValidationResponse_answers {c : Caller D} (verdict : ValidationVerdict)
    (hlife : c.data.lifecycle ≠ .terminated) (hok : c.world.fault c.world.ios = false) :
    (c.recordValidationResponse verdict).ledger.id = c.ledger.id ∧
      unanswered c.ledger.id (c.recordValidationResponse verdict).ledger.writes = false := by
  obtain ⟨e, htype, hid, hledger⟩ := ledger_logQuiet_of_ok
    (c.setData fun s => { s with lastVerdict := some verdict }) .validationResponse
    [verdict.asU8] hok
  have hanswered : unanswered c.ledger.id (c.ledger.extend [.append .runtime e]).writes =
      false := by
    have hother : ¬ e.HasType .validationRequest := fun h => by cases htype.unique h
    have hagent : e.agentId = c.data.id := hid
    refine unanswered_response _ ?_ ?_
    · simp [Write.isRuntime, Caller.ledger, hagent, htype]
    · simp [Write.isRuntime, hother]
  have hsilent := logLifecycleEvent_silent (logQuiet
    (c.setData fun s => { s with lastVerdict := some verdict }) .validationResponse
    [verdict.asU8]).2 .active
  rw [hledger] at hsilent
  simp only [recordValidationResponse, hlife, if_false]
  refine ⟨hsilent.1, ?_⟩
  have hafter := hsilent.unanswered hanswered
  rwa [hsilent.1] at hafter

end Caller

/-! ### Runs -/

namespace Actor

variable [ContentHash D]

/-- The verdict that ends a wait can be logged. -/
def canAnswer (a : Actor D) : Bool :=
  !a.isAwaiting || !a.caller.world.fault a.caller.world.ios

/-- The cycle that ends leaves no request behind: there is none unanswered, or the loop stops
or waits for the verdict. -/
def gateClosed (a : Actor D) : Bool :=
  !unanswered a.ledger.id a.ledger.writes || a.caller.data.hostError.isSome ||
    (a.inDataCycle && (decide (a.caller.data.lifecycle = .terminated) ||
      (decide (a.caller.data.lifecycle = .awaitingValidation) && !a.caller.sessionDue)))

/-- What every step of a run has to meet: a cycle that ends leaves no request behind, and a
verdict can be logged. -/
def gateKept (a : Actor D) : Event D → Bool
  | .ret _ => a.gateClosed
  | .recv (.validationResponse _) _ => a.canAnswer
  | .recv (.rollback _) _ => a.canAnswer
  | .timeout => a.canAnswer
  | _ => true

/-- Between two cycles no request is unanswered, and an agent that waits for a verdict has not
terminated. -/
def Gated (a : Actor D) : Prop :=
  match a.phase with
  | .spawned => unanswered a.ledger.id a.ledger.writes = false
  | .idle => unanswered a.ledger.id a.ledger.writes = false
  | .evicted _ => unanswered a.ledger.id a.ledger.writes = false
  | .awaiting => a.caller.data.lifecycle ≠ .terminated
  | _ => True

omit [ContentHash D] in
theorem gated_of_answered {a : Actor D} (h : unanswered a.ledger.id a.ledger.writes = false)
    (hphase : a.phase ≠ .awaiting) : a.Gated := by
  cases hp : a.phase with
  | awaiting => exact absurd hp hphase
  | spawned => simpa only [Gated, hp] using h
  | idle => simpa only [Gated, hp] using h
  | evicted ev => simpa only [Gated, hp] using h
  | _ => simp only [Gated, hp]

omit [ContentHash D] in
theorem gated_of_stopped {a : Actor D} (h : a.phase = .stopped) : a.Gated := by
  simp only [Gated, h]

omit [ContentHash D] in
theorem afterData_gated {a : Actor D}
    (h : a.caller.data.lifecycle ≠ .terminated →
      unanswered a.ledger.id a.ledger.writes = false) : a.afterData.Gated := by
  simp only [afterData]
  split_ifs with hterm
  · exact gated_of_stopped rfl
  · exact h hterm

/-- The end of a cycle that leaves no request behind. -/
theorem endCycle_gated {a : Actor D} {kind : CycleKind} (hphase : a.phase = .guest kind)
    (hclosed : a.gateClosed = true) : (a.endCycle kind).Gated := by
  have hsilent := a.caller.processEnd_silent
  simp only [gateClosed, Bool.or_eq_true, Bool.not_eq_true', Bool.and_eq_true,
    decide_eq_true_eq] at hclosed
  simp only [endCycle]
  split
  · exact gated_of_stopped rfl
  · rename_i hok
    have hnoError : a.caller.data.hostError.isSome ≠ true := by
      intro herror
      obtain ⟨error, herror⟩ := Option.isSome_iff_exists.mp herror
      simp [Caller.processEnd, herror] at hok
    cases kind with
    | sessionResume =>
        have hnotData : a.inDataCycle = false := by simp [inDataCycle, hphase]
        have hanswered : unanswered a.ledger.id a.ledger.writes = false := by
          simpa [hnoError, hnotData] using hclosed
        exact hsilent.unanswered hanswered
    | data =>
        simp only
        split_ifs with hawaiting
        · simp only [Gated, setCaller] at hawaiting ⊢
          simp [hawaiting]
        · refine afterData_gated fun hnotTerm => ?_
          rcases hclosed with (hanswered | herror) | ⟨-, hterm | ⟨hwait, hdue⟩⟩
          · exact hsilent.unanswered hanswered
          · exact absurd herror hnoError
          · exact absurd (Caller.processEnd_terminated hterm) hnotTerm
          · exact absurd ((Caller.processEnd_lifecycle hdue).trans hwait) hawaiting

/-- A verdict that can be logged leaves nothing unanswered. -/
theorem recordVerdict_gated {a : Actor D} (hphase : a.phase = .awaiting) (hg : a.Gated)
    (hok : a.canAnswer = true) (verdict : ValidationVerdict) :
    (a.recordVerdict verdict).Gated := by
  have hlife : a.caller.data.lifecycle ≠ .terminated := by
    simpa only [Gated, hphase] using hg
  have hfault : a.caller.world.fault a.caller.world.ios = false := by
    simpa [canAnswer, isAwaiting, hphase] using hok
  obtain ⟨hid, hanswered⟩ := Caller.recordValidationResponse_answers verdict hlife hfault
  refine afterData_gated fun _ => ?_
  change unanswered (a.caller.recordValidationResponse verdict).ledger.id
    (a.caller.recordValidationResponse verdict).ledger.writes = false
  rw [hid]
  exact hanswered

theorem await_gated {a : Actor D} {message : Message D} {order : List CapabilityId}
    (hphase : a.phase = .awaiting) (hg : a.Gated)
    (hkept : a.gateKept (.recv message order) = true) : (a.await message).Gated := by
  cases message with
  | validationResponse verdict => exact recordVerdict_gated hphase hg hkept verdict
  | rollback targetSeq =>
      exact recordVerdict_gated (a := { a with pendingMsg := some (.rollback targetSeq) })
        hphase hg hkept .cancelled
  | suspend => exact gated_of_stopped rfl
  | _ => exact hg

omit [ContentHash D] in
/-- What others write leaves an agent gated. -/
theorem Gated.extend {a a' : Actor D} {ws : List (Write D)} (hg : a.Gated)
    (hno : NoRequest a.ledger.id ws) (hledger : a'.ledger = a.ledger.extend ws)
    (hphase : a'.phase = a.phase) (hlife : a'.caller.data.lifecycle = a.caller.data.lifecycle) :
    a'.Gated := by
  have hsilent : a.ledger.Silent a'.ledger := hledger ▸ Ledger.silent_extend hno
  cases hp : a.phase with
  | awaiting =>
      simp only [Gated, hp] at hg
      simpa only [Gated, hphase, hp, hlife] using hg
  | spawned =>
      simp only [Gated, hp] at hg
      simpa only [Gated, hphase, hp] using hsilent.unanswered hg
  | idle =>
      simp only [Gated, hp] at hg
      simpa only [Gated, hphase, hp] using hsilent.unanswered hg
  | evicted ev =>
      simp only [Gated, hp] at hg
      simpa only [Gated, hphase, hp] using hsilent.unanswered hg
  | _ => simp only [Gated, hphase, hp]

/-- The guest, if it has been entered, was entered with no request unanswered. -/
def EnteredAnswered (a : Actor D) : Prop :=
  ∀ kind, a.phase = .guest kind → unanswered a.ledger.id a.ledger.writes = false

theorem enter_gated {a : Actor D} (kind : CycleKind) (data : List UInt8)
    (h : unanswered a.ledger.id a.ledger.writes = false) :
    (a.enter kind data).Gated ∧ (a.enter kind data).EnteredAnswered := by
  simp only [enter, Caller.processStart]
  split_ifs
  · exact ⟨gated_of_stopped rfl, fun _ h => by cases h⟩
  · exact ⟨gated_of_stopped rfl, fun _ h => by cases h⟩
  · exact ⟨trivial, fun _ _ => h⟩

variable [LinearOrder D]

/-- A message to an agent that has nothing unanswered. -/
theorem handle_gated {a : Actor D} (hphase : a.phase = .idle)
    (h : unanswered a.ledger.id a.ledger.writes = false) (order : List CapabilityId)
    (message : Message D) :
    (a.handle order message).Gated ∧ (a.handle order message).EnteredAnswered := by
  have hlogged : ∀ s, unanswered (a.caller.logLifecycleEvent s).ledger.id
      (a.caller.logLifecycleEvent s).ledger.writes = false :=
    fun s => (a.caller.logLifecycleEvent_silent s).unanswered h
  cases message with
  | data payload cause => exact enter_gated .data payload (hlogged .active)
  | suspend =>
      have hstopped := exitLoop_phase (a.setCaller (a.caller.logLifecycleEvent .suspended))
      exact ⟨gated_of_stopped hstopped, fun _ hguest => by cases hstopped.symm.trans hguest⟩
  | checkpoint =>
      refine ⟨gated_of_answered (hlogged .checkpointed) ?_, fun _ _ => hlogged .checkpointed⟩
      simp [handle, setCaller, hphase]
  | evict => exact ⟨hlogged .suspended, fun _ hguest => by cases hguest⟩
  | rollback targetSeq =>
      have hmoved := (a.caller.rollback_silent order targetSeq).unanswered h
      simp only [handle]
      split
      · refine ⟨gated_of_answered hmoved ?_, fun _ _ => hmoved⟩
        simp [setCaller, hphase]
      · exact ⟨gated_of_stopped rfl, fun _ hguest => by cases hguest⟩
  | validationResponse verdict =>
      exact ⟨gated_of_answered h (by simp [handle, hphase]), fun _ _ => h⟩
  | sessionResume summary => exact enter_gated .sessionResume summary (hlogged .active)

/-- A step that keeps the gate leaves the agent gated, and enters the guest only with nothing
unanswered. -/
theorem Gated.step {a a' : Actor D} {ev : Event D} (hc : a.Coherent) (hg : a.Gated)
    (hkept : a.gateKept ev = true) (h : a.step ev = some a') :
    a'.Gated ∧ (a.phase = .idle → a'.EnteredAnswered) := by
  cases trans_of_step h with
  | start hphase =>
      simp only [Gated, hphase] at hg
      refine ⟨?_, fun hidle => by cases hphase.symm.trans hidle⟩
      exact (a.caller.logLifecycleEvent_silent .spawned).unanswered hg
  | @handle message order hphase _ =>
      simp only [Gated, hphase] at hg
      obtain ⟨hgated, hentered⟩ := handle_gated hphase hg order message
      exact ⟨hgated, fun _ => hentered⟩
  | @await message order hphase _ =>
      exact ⟨await_gated hphase hg hkept, fun hidle => by cases hphase.symm.trans hidle⟩
  | @resume message order hphase _ =>
      simp only [Gated, hphase] at hg
      obtain ⟨hgated, hentered⟩ :=
        handle_gated (a := { a with pendingMsg := none }) hphase hg order message
      exact ⟨hgated, fun _ => hentered⟩
  | exit _ _ =>
      have hstopped := exitLoop_phase a
      exact ⟨gated_of_stopped hstopped, fun _ _ hguest => by cases hstopped.symm.trans hguest⟩
  | abandon _ _ => exact ⟨gated_of_stopped rfl, fun _ _ hguest => by cases hguest⟩
  | timeout hphase =>
      exact ⟨recordVerdict_gated hphase hg hkept .timeout,
        fun hidle => by cases hphase.symm.trans hidle⟩
  | @host kind memory call hphase _ =>
      refine ⟨?_, fun hidle => by cases hphase.symm.trans hidle⟩
      simp only [hostCall]
      split
      · simp only [Gated, setCaller, setMemory, hphase]
      · trivial
  | inferDone hphase => exact ⟨trivial, fun hidle => by cases hphase.symm.trans hidle⟩
  | @ret kind memory hphase _ =>
      exact ⟨endCycle_gated (a := a.setMemory memory) hphase hkept,
        fun hidle => by cases hphase.symm.trans hidle⟩
  | trap hphase _ =>
      exact ⟨gated_of_stopped rfl, fun hidle => by cases hphase.symm.trans hidle⟩
  | @wake ev params memory hphase _ =>
      simp only [Gated, hphase] at hg
      refine ⟨?_, fun hidle => by cases hphase.symm.trans hidle⟩
      simp only [Gated, ledger, ledger_restore hc hphase]
      exact hg
  | @refuse ev params memory hphase _ =>
      simp only [Gated, hphase] at hg
      refine ⟨gated_of_answered ?_ (by simp [setCaller, hphase]),
        fun hidle => by cases hphase.symm.trans hidle⟩
      rw [ledger_setCaller, ledger_refuse]
      exact hg
  | @others writes _ _ _ hforeign =>
      refine ⟨?_, fun hidle _ hguest => by cases hidle.symm.trans hguest⟩
      exact hg.extend (noRequest_of_foreign hforeign) rfl rfl rfl

/-- In a run, whenever a message enters the guest, no request is unanswered. -/
def GateHeld (start : Actor D) (events : List (Event D)) : Prop :=
  ∀ before ev after a a', events = before ++ ev :: after →
    Machine.run step start before = some a → a.step ev = some a' → a.phase = .idle →
    a'.EnteredAnswered

/-- In every run of an agent that has nothing in the log yet and whose steps all keep the gate,
the guest is never entered with a request unanswered. -/
theorem gate_held {id : AgentId} {p : BuildParams} {memory : List UInt8} {world : World D}
    {events : List (Event D)} (hfresh : foreign id world.writes = true)
    (h : Machine.Along step (fun a ev => a.gateKept ev = true) (Actor.new id p memory world)
      events) :
    GateHeld (Actor.new id p memory world) events := by
  rintro before ev after a a' rfl hbefore hstep
  have hkept : ∀ (s : Actor D) (i : Event D) (s' : Actor D), s.Coherent ∧ s.Gated →
      s.gateKept i = true → s.step i = some s' → s'.Coherent ∧ s'.Gated :=
    fun s i s' hs hi hi' => ⟨step_coherent hs.1 hi', (hs.2.step hs.1 hi hi').1⟩
  have hstart : (Actor.new id p memory world).Coherent ∧ (Actor.new id p memory world).Gated :=
    ⟨trivial, unanswered_of_noRequest (noRequest_of_foreign hfresh)⟩
  have ha := Machine.run_invariant_along hkept hstart h.left hbefore
  exact (ha.2.step ha.1 (h.at_step hbefore) hstep).2

/-- A request, its verdict, and another message. -/
def validatedRun : List (Event (List ℕ)) :=
  .start :: dataCycle [.agentRequestValidation 2] ++
    [.recv (.validationResponse .approved) [], .recv (.data [] none) []]

/-- The guest is entered after the verdict. -/
theorem gate_held_validatedRun : ∃ a a' : Actor (List ℕ),
    Machine.run step sampleAgent (validatedRun.take 5) = some a ∧
      a.step (.recv (.data [] none) []) = some a' ∧ a'.phase = .guest .data ∧
      unanswered a'.ledger.id a'.ledger.writes = false := by
  have hrun : (Machine.run step sampleAgent (validatedRun.take 5)).any (fun a =>
      decide (a.phase = .idle) && (a.step (.recv (.data [] none) [])).any fun a' =>
        decide (a'.phase = .guest .data)) = true := by
    decide +kernel
  simp only [Option.any_eq_true, Bool.and_eq_true, decide_eq_true_eq] at hrun
  obtain ⟨a, ha, hidle, a', ha', hguest⟩ := hrun
  have hheld : GateHeld sampleAgent validatedRun :=
    gate_held (by decide +kernel) (by decide +kernel)
  exact ⟨a, a', ha, ha', hguest, hheld (validatedRun.take 5) _ [] a a' rfl ha ha' hidle _ hguest⟩

/-- A request, followed in the same cycle by a checkpoint, and another message. -/
def checkpointedRun : List (Event (List ℕ)) :=
  .start :: dataCycle [.agentRequestValidation 2, .agentCheckpoint] ++ [.recv (.data [] none) []]

/-- The guest is entered although the request is unanswered. -/
theorem checkpoint_opens_gate : ¬ GateHeld sampleAgent checkpointedRun := by
  intro hheld
  have hrun : (Machine.run step sampleAgent (checkpointedRun.take 5)).any (fun a =>
      decide (a.phase = .idle) && (a.step (.recv (.data [] none) [])).any fun a' =>
        decide (a'.phase = .guest .data ∧
          unanswered a'.ledger.id a'.ledger.writes = true)) = true := by
    decide +kernel
  simp only [Option.any_eq_true, Bool.and_eq_true, decide_eq_true_eq] at hrun
  obtain ⟨a, ha, hidle, a', ha', hguest, hopen⟩ := hrun
  have hanswered := hheld (checkpointedRun.take 5) _ [] a a' rfl ha ha' hidle _ hguest
  rw [hopen] at hanswered
  cases hanswered

end Actor

end Torpor
