import Torpor.Actor.Ledger

/-!
# Steps of an Agent as Moves on the Databases

Every step of `run_loop` is a sequence of the elementary moves of `Ledger.Step`, so that what
the moves preserve holds in every run.

## Main results

* `Actor.step_coherent`: what a suspended or evicted agent has kept agrees with its state.
* `Actor.step_ledger`: every step of an agent is a sequence of moves, or consists of writes of
  others.
* `Actor.ownWrites`: what the agent itself writes in a run.
* `Actor.step_invariant_own`, `Actor.run_invariant_own`: what every move preserves of these
  writes, every step and every run preserves.
-/

namespace Torpor

open ContentHash Relation

variable {D : Type}

namespace Actor

variable [LinearOrder D] [ContentHash D]

/-- What a suspended or evicted agent has kept agrees with its state: the hash that
`agent_infer` took at its start, and the fields of an `EvictedState`. -/
def Coherent (a : Actor D) : Prop :=
  match a.phase with
  | .infer _ call => call.hashBefore = a.caller.tipHash
  | .evicted ev => ev = a.evictedState
  | _ => True

omit [LinearOrder D] [ContentHash D] in
@[simp] theorem ledger_leave (a : Actor D) (phase : Phase D) :
    (a.leave phase).ledger = a.ledger := rfl

omit [LinearOrder D] [ContentHash D] in
@[simp] theorem ledger_setCaller (a : Actor D) (c : Caller D) :
    (a.setCaller c).ledger = c.ledger := rfl

theorem crash_calm (a : Actor D) (cause : CrashCause) :
    Ledger.Calms a.ledger (a.crash cause).ledger :=
  Caller.logAgentCrash_calm a.caller cause

theorem exitLoop_calm (a : Actor D) : Ledger.Calms a.ledger a.exitLoop.ledger := by
  simp only [exitLoop]
  split_ifs
  · exact Caller.logLifecycleEvent_calm a.caller _
  · exact .refl

theorem enter_calm (a : Actor D) (kind : CycleKind) (data : List UInt8) :
    Ledger.Calms a.ledger (a.enter kind data).ledger := by
  simp only [enter, Caller.processStart]
  split_ifs
  · exact crash_calm a _
  · exact crash_calm a _
  · exact .refl

omit [LinearOrder D] [ContentHash D] in
theorem afterData_ledger (a : Actor D) : a.afterData.ledger = a.ledger := by
  simp only [afterData]
  split_ifs <;> rfl

theorem endCycle_steps (a : Actor D) (kind : CycleKind) :
    Ledger.Steps a.ledger (a.endCycle kind).ledger := by
  have hend := Caller.processEnd_steps a.caller
  rcases a.endCycle_cases kind with ⟨cause, h⟩ | ⟨phase, -, h⟩ | h
  · rw [h]
    exact hend.trans (crash_calm (a.setCaller a.caller.processEnd.2) cause).steps
  · rw [h]
    exact hend
  · rw [h]
    exact hend

theorem recordVerdict_calm (a : Actor D) (verdict : ValidationVerdict) :
    Ledger.Calms a.ledger (a.recordVerdict verdict).ledger := by
  rw [recordVerdict, afterData_ledger]
  exact Caller.recordValidationResponse_calm a.caller verdict

theorem handle_calm (a : Actor D) (order : List CapabilityId) (message : Message D) :
    Ledger.Calms a.ledger (a.handle order message).ledger := by
  cases message with
  | data payload cause =>
      refine ReflTransGen.trans ?_ (enter_calm _ _ _)
      exact Caller.logLifecycleEvent_calm a.caller _
  | suspend =>
      refine ReflTransGen.trans ?_ (exitLoop_calm _)
      exact Caller.logLifecycleEvent_calm a.caller _
  | checkpoint => exact Caller.logLifecycleEvent_calm a.caller _
  | evict => exact Caller.logLifecycleEvent_calm a.caller _
  | rollback targetSeq =>
      have hrollback := Caller.rollback_calm a.caller order targetSeq
      simp only [handle]
      split
      · exact hrollback
      · exact hrollback.trans (crash_calm (a.setCaller _) _)
  | validationResponse verdict => exact .refl
  | sessionResume summary =>
      refine ReflTransGen.trans ?_ (enter_calm _ _ _)
      exact Caller.logLifecycleEvent_calm a.caller _

theorem await_calm (a : Actor D) (message : Message D) :
    Ledger.Calms a.ledger (a.await message).ledger := by
  cases message with
  | validationResponse verdict => exact recordVerdict_calm a verdict
  | rollback targetSeq =>
      exact recordVerdict_calm { a with pendingMsg := some (.rollback targetSeq) } .cancelled
  | _ => exact .refl

theorem hostCall_steps (a : Actor D) (kind : CycleKind) (call : HostCall) :
    Ledger.Steps a.ledger (a.hostCall kind call).ledger := by
  have hhost := Caller.host_steps a.caller call
  simp only [hostCall]
  split <;> exact hhost

/-! ### Phases -/

omit [LinearOrder D] in
theorem exitLoop_phase (a : Actor D) : a.exitLoop.phase = .stopped := by
  simp only [exitLoop]
  split_ifs <;> rfl

omit [LinearOrder D] in
theorem enter_phase (a : Actor D) (kind : CycleKind) (data : List UInt8) :
    (a.enter kind data).phase = .guest kind ∨ (a.enter kind data).phase = .stopped := by
  simp only [enter]
  split
  · exact .inr rfl
  · exact .inl rfl

omit [LinearOrder D] [ContentHash D] in
theorem afterData_phase (a : Actor D) :
    a.afterData.phase = .idle ∨ a.afterData.phase = .stopped := by
  simp only [afterData]
  split_ifs
  · exact .inr rfl
  · exact .inl rfl

omit [LinearOrder D] in
theorem endCycle_phase (a : Actor D) (kind : CycleKind) :
    (a.endCycle kind).phase = .idle ∨ (a.endCycle kind).phase = .awaiting ∨
      (a.endCycle kind).phase = .stopped := by
  rcases a.endCycle_cases kind with ⟨cause, h⟩ | ⟨phase, rfl | rfl, h⟩ | h
  · rw [h]
    exact .inr (.inr rfl)
  · rw [h]
    exact .inl rfl
  · rw [h]
    exact .inr (.inl rfl)
  · rw [h]
    exact .inr (.inr rfl)

omit [LinearOrder D] in
theorem await_phase (a : Actor D) (message : Message D) :
    (a.await message).phase = a.phase ∨ (a.await message).phase = .idle ∨
      (a.await message).phase = .stopped := by
  cases message with
  | validationResponse verdict => exact .inr (afterData_phase _)
  | rollback targetSeq => exact .inr (afterData_phase _)
  | suspend => exact .inr (.inr rfl)
  | _ => exact .inl rfl

/-- Where a message leaves an agent; evicted, it has handed over its state. -/
theorem handle_phase (a : Actor D) (order : List CapabilityId) (message : Message D) :
    (a.handle order message).phase = a.phase ∨ (a.handle order message).phase = .stopped ∨
      (∃ kind, (a.handle order message).phase = .guest kind) ∨
      (a.handle order message).phase = .evicted (a.handle order message).evictedState := by
  cases message with
  | data payload cause =>
      rcases enter_phase (a.setCaller ((a.caller.logLifecycleEvent .active).setData _)) .data
        payload with h | h
      · exact .inr (.inr (.inl ⟨_, h⟩))
      · exact .inr (.inl h)
  | suspend => exact .inr (.inl (exitLoop_phase _))
  | checkpoint => exact .inl rfl
  | evict => exact .inr (.inr (.inr rfl))
  | rollback targetSeq =>
      simp only [handle]
      split
      · exact .inl rfl
      · exact .inr (.inl rfl)
  | validationResponse verdict => exact .inl rfl
  | sessionResume summary =>
      rcases enter_phase (a.setCaller (a.caller.logLifecycleEvent .active)) .sessionResume
        summary with h | h
      · exact .inr (.inr (.inl ⟨_, h⟩))
      · exact .inr (.inl h)

omit [LinearOrder D] in
/-- An agent that is neither suspended in `agent_infer` nor evicted is coherent. -/
theorem coherent_of_phase {a : Actor D} (hinfer : ∀ kind call, a.phase ≠ .infer kind call)
    (hevicted : ∀ ev, a.phase ≠ .evicted ev) : a.Coherent := by
  cases hphase : a.phase with
  | infer kind call => exact absurd hphase (hinfer kind call)
  | evicted ev => exact absurd hphase (hevicted ev)
  | _ => simp only [Coherent, hphase]

omit [LinearOrder D] in
theorem coherent_of_idle {a : Actor D} (h : a.phase = .idle ∨ a.phase = .stopped) :
    a.Coherent :=
  coherent_of_phase (fun _ _ => by rcases h with h | h <;> simp [h])
    (fun _ => by rcases h with h | h <;> simp [h])

theorem handle_coherent {a : Actor D} (hidle : a.phase = .idle) (order : List CapabilityId)
    (message : Message D) : (a.handle order message).Coherent := by
  rcases handle_phase a order message with h | h | ⟨kind, h⟩ | h
  · exact coherent_of_idle (.inl (h.trans hidle))
  · exact coherent_of_idle (.inr h)
  · exact coherent_of_phase (by simp [h]) (by simp [h])
  · simp only [Coherent, h]

theorem hostCall_coherent {a : Actor D} {kind : CycleKind} (hguest : a.phase = .guest kind)
    (call : HostCall) : (a.hostCall kind call).Coherent := by
  simp only [hostCall]
  split
  · exact coherent_of_phase (by simp [setCaller, hguest]) (by simp [setCaller, hguest])
  · rename_i icall hinfer
    cases call with
    | agentInfer promptPtr promptLen responseBufPtr responseBufCap responseLenOutPtr
        timeoutMsReq =>
        simp only [Caller.host] at hinfer ⊢
        split_ifs at hinfer ⊢
        cases hinfer
        exact (Caller.tipHash_logLifecycleEvent a.caller.now.2 _).symm
    | _ => simp [Caller.host] at hinfer

/-- Steps keep suspended and evicted agents coherent. -/
theorem step_coherent {a a' : Actor D} {ev : Event D} (hc : a.Coherent)
    (h : a.step ev = some a') : a'.Coherent := by
  cases trans_of_step h with
  | start _ => exact coherent_of_idle (.inl rfl)
  | handle hidle _ => exact handle_coherent hidle _ _
  | @await message order hphase _ =>
      rcases await_phase a message with h | h
      · exact coherent_of_phase (by simp [h, hphase]) (by simp [h, hphase])
      · exact coherent_of_idle h
  | resume hidle _ => exact handle_coherent (a := { a with pendingMsg := none }) hidle _ _
  | exit _ _ => exact coherent_of_idle (.inr (exitLoop_phase a))
  | abandon _ _ => exact coherent_of_idle (.inr rfl)
  | timeout _ => exact coherent_of_idle (afterData_phase _)
  | @host kind memory call hguest _ =>
      exact hostCall_coherent (a := a.setMemory memory) hguest call
  | inferDone _ => exact coherent_of_phase (by simp) (by simp)
  | @ret kind memory _ _ =>
      rcases endCycle_phase (a.setMemory memory) kind with h | h | h
      · exact coherent_of_idle (.inl h)
      · exact coherent_of_phase (by simp [h]) (by simp [h])
      · exact coherent_of_idle (.inr h)
  | trap _ _ => exact coherent_of_idle (.inr rfl)
  | wake _ _ => exact coherent_of_phase (by simp) (by simp)
  | refuse _ _ => exact hc
  | others _ => exact hc

omit [LinearOrder D] in
theorem coherent_new (id : AgentId) (params : BuildParams) (memory : List UInt8) (w : World D) :
    (Actor.new id params memory w).Coherent := trivial

theorem coherent_of_run {a a' : Actor D} {evs : List (Event D)} (hc : a.Coherent)
    (hrun : Machine.run step a evs = some a') : a'.Coherent :=
  Machine.run_invariant (fun _ _ _ hc h => step_coherent hc h) hc hrun

@[simp] theorem checkResumeSnapshot_writes (w : World D) (lastSnapshot : Option D) :
    (Caller.checkResumeSnapshot w lastSnapshot).2.writes = w.writes := by
  cases lastSnapshot <;> rfl

@[simp] theorem checkResumeSnapshot_fault (w : World D) (lastSnapshot : Option D) :
    (Caller.checkResumeSnapshot w lastSnapshot).2.fault = w.fault := by
  cases lastSnapshot <;> rfl

@[simp] theorem checkResumeSnapshot_capStores (w : World D) (lastSnapshot : Option D) :
    (Caller.checkResumeSnapshot w lastSnapshot).2.capStores = w.capStores := by
  cases lastSnapshot <;> rfl

/-- A restored agent has the ledger of the evicted one, without a commit in progress and with
the flags of a new agent. -/
theorem ledger_restore {a : Actor D} {ev : EvictedState D} (hc : a.Coherent)
    (hphase : a.phase = .evicted ev) (params : BuildParams) (memory : List UInt8) :
    (Caller.restore (Caller.checkResumeSnapshot a.caller.world ev.lastSnapshot).2 params memory
      ev).ledger = { a.ledger with
        pendingCommit := none, hostError := none, terminationRequested := false } := by
  simp only [Coherent, hphase] at hc
  subst hc
  simp [ledger, Caller.ledger, Caller.restore, Caller.allocate, AgentState.build, evictedState]

/-- An agent that could not be restored is as before. -/
theorem ledger_refuse (a : Actor D) (lastSnapshot : Option D) :
    Caller.ledger { a.caller with
      world := (Caller.checkResumeSnapshot a.caller.world lastSnapshot).2 } = a.ledger := by
  simp [ledger, Caller.ledger]

/-- What a step does to the ledger: moves of the agent, or writes of others. -/
theorem step_ledger {a a' : Actor D} {ev : Event D} (hc : a.Coherent)
    (h : a.step ev = some a') :
    Ledger.Steps a.ledger a'.ledger ∨
      ∃ ws capStores kvStores causeHandles, ev = .others ws capStores kvStores causeHandles ∧
        foreign a.caller.data.id ws = true ∧ a'.ledger = a.ledger.extend ws := by
  cases trans_of_step h with
  | start _ => exact .inl (Caller.logLifecycleEvent_calm a.caller _).steps
  | @handle message order _ _ => exact .inl (handle_calm a order message).steps
  | @await message order _ _ => exact .inl (await_calm a message).steps
  | @resume message order _ _ =>
      exact .inl (handle_calm { a with pendingMsg := none } order message).steps
  | exit _ _ => exact .inl (exitLoop_calm a).steps
  | abandon _ _ => exact .inl .refl
  | timeout _ => exact .inl (recordVerdict_calm a .timeout).steps
  | @host kind memory call _ _ => exact .inl (hostCall_steps (a.setMemory memory) kind call)
  | @inferDone kind call result durationMs hphase =>
      simp only [Coherent, hphase] at hc
      exact .inl (Caller.agentInferFinish_calm hc result durationMs).steps
  | @ret kind memory _ _ => exact .inl (endCycle_steps (a.setMemory memory) kind)
  | @trap kind memory interrupt _ _ => exact .inl (crash_calm (a.setMemory memory) _).steps
  | @wake ev params memory hphase _ =>
      have hrestore : Ledger.Step a.ledger { a.ledger with
          pendingCommit := none, hostError := none, terminationRequested := false } := .restore
      rw [← ledger_restore hc hphase params memory] at hrestore
      exact .inl (.single hrestore)
  | @refuse ev params memory _ _ =>
      refine .inl ?_
      rw [ledger_setCaller, ledger_refuse]
  | others hforeign => exact .inr ⟨_, _, _, _, rfl, hforeign, rfl⟩

/-- A step does not change who the agent is. -/
theorem step_id {a a' : Actor D} {ev : Event D} (hc : a.Coherent) (h : a.step ev = some a') :
    a'.ledger.id = a.ledger.id := by
  rcases step_ledger hc h with hsteps | ⟨ws, _, _, _, _, _, hext⟩
  · exact hsteps.invariant (P := fun l => l.id = a.ledger.id)
      (fun _ _ hl hstep => hstep.frame.1.trans hl) rfl
  · rw [hext]
    rfl

/-! ### The writes of an agent -/

omit [LinearOrder D] [ContentHash D] in
/-- What the agent writes in a step. -/
def written (a : Actor D) (ev : Event D) (a' : Actor D) : List (Write D) :=
  match ev with
  | .others _ _ _ _ => []
  | _ => a'.ledger.writes.drop a.ledger.writes.length

/-- What the agent writes in a run. -/
def ownWrites (a : Actor D) (evs : List (Event D)) : List (Write D) :=
  Machine.outputs step written a evs

omit [LinearOrder D] [ContentHash D] in
/-- The writes of a step are those that it adds to the journal. -/
theorem written_eq {a a' : Actor D} {ev : Event D} {ws : List (Write D)}
    (hothers : ∀ ws c k h, ev ≠ .others ws c k h)
    (hwrites : a'.ledger.writes = a.ledger.writes ++ ws) : a.written ev a' = ws := by
  cases ev with
  | others ws c k h => exact absurd rfl (hothers ws c k h)
  | _ => simp [written, hwrites]

/-- What every move preserves of the writes of the agent so far and its ledger, any number of
moves preserves. -/
theorem steps_invariant_own {P : List (Write D) → Ledger D → Prop}
    (hstep : ∀ own l l' ws, P own l → Ledger.Step l l' → l'.writes = l.writes ++ ws →
      P (own ++ ws) l') {l l' : Ledger D} (h : Ledger.Steps l l') {own ws : List (Write D)}
    (hl : P own l) (hwrites : l'.writes = l.writes ++ ws) : P (own ++ ws) l' := by
  induction h generalizing ws with
  | refl =>
      obtain rfl : ws = [] := by simpa using hwrites
      rwa [List.append_nil]
  | tail hsteps hlast ih =>
      obtain ⟨ws₁, hws₁⟩ := Ledger.Steps.exists_writes hsteps
      obtain ⟨ws₂, hws₂⟩ := hlast.exists_writes
      obtain rfl : ws = ws₁ ++ ws₂ := by
        rw [hws₂, hws₁, List.append_assoc] at hwrites
        exact (List.append_cancel_left hwrites).symm
      rw [← List.append_assoc]
      exact hstep _ _ _ _ (ih hws₁) hlast hws₂

/-- What every move and every write of others preserves of the writes of the agent so far and
its ledger, every step preserves. -/
theorem step_invariant_own {P : List (Write D) → Ledger D → Prop}
    (hstep : ∀ own l l' ws, P own l → Ledger.Step l l' → l'.writes = l.writes ++ ws →
      P (own ++ ws) l')
    (hothers : ∀ own l ws, P own l → P own (l.extend ws)) {own : List (Write D)}
    {a a' : Actor D} {ev : Event D} (hc : a.Coherent) (ha : P own a.ledger)
    (h : a.step ev = some a') : P (own ++ a.written ev a') a'.ledger := by
  cases ev with
  | others ws capStores kvStores causeHandles =>
      cases trans_of_step h with
      | others _ =>
          rw [written, List.append_nil]
          exact hothers own a.ledger ws ha
  | _ =>
      rcases step_ledger hc h with hsteps | ⟨ws, c, k, r, heq, -⟩
      · obtain ⟨ws, hws⟩ := hsteps.exists_writes
        rw [written_eq (by simp) hws]
        exact steps_invariant_own hstep hsteps ha hws
      · cases heq

/-- What every move and every write of others preserves of the writes of the agent so far and
its ledger, every run preserves. -/
theorem run_invariant_own {P : List (Write D) → Ledger D → Prop}
    (hstep : ∀ own l l' ws, P own l → Ledger.Step l l' → l'.writes = l.writes ++ ws →
      P (own ++ ws) l')
    (hothers : ∀ own l ws, P own l → P own (l.extend ws)) {own : List (Write D)}
    {a a' : Actor D} {evs : List (Event D)} (hc : a.Coherent) (ha : P own a.ledger)
    (hrun : Machine.run step a evs = some a') :
    P (own ++ a.ownWrites evs) a'.ledger := by
  have hkept : ∀ own (b : Actor D) ev b', (b.Coherent ∧ P own b.ledger) → True →
      b.step ev = some b' → (b'.Coherent ∧ P (own ++ b.written ev b') b'.ledger) := by
    rintro own b ev b' ⟨hb, hP⟩ - h
    exact ⟨step_coherent hb h, step_invariant_own hstep hothers hb hP h⟩
  have halong : Machine.Along step (fun (_ : Actor D) (_ : Event D) => True) a evs :=
    Machine.along_of_forall (fun _ _ => trivial) _ _
  exact (Machine.run_outputs_invariant hkept ⟨hc, ha⟩ halong hrun).2

end Actor

end Torpor
