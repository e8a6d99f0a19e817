import Torpor.System.Basic

/-!
# When a Compensation Is Closed

`Supervisor::rollback` closes a compensation as applied once its message has been sent. The
agent takes the message up when its loop comes to it: after the guest has returned, after a
verdict, or never. A `CompensationClose` with the outcome `Applied` may therefore be in the
log before the `SchedulerRollback` it speaks of, or without it.

## Main results

* `Caller.rollback_writes`: what a rollback writes, with and without its target.
* `System.Tracked`: messages, held messages and served requests belong to their calls.
* `closes_applied_iff`: in every run, every `Applied` is preceded by the rollback of its
  request exactly if no compensation is closed as applied before the agent has taken up the
  request and found its target.
* `close_before_rollback`: a compensation that is closed while the message waits in the inbox.
-/

namespace Torpor

open ContentHash

variable {D : Type}

/-! ### What a rollback writes -/

/-- A `SchedulerRollback` of an agent to a target. -/
def LogEntry.RollsBack (e : LogEntry D) (agent : AgentId) (targetSeq : ℕ) : Prop :=
  e.agentId = agent ∧ ∃ env distance revoked, e.emitPayload = some env ∧
    env.emitType = EmitType.schedulerRollback.asU8 ∧
    env.payload = Caller.rollbackPayload distance targetSeq revoked

/-- The writes are entries of the runtime of other types than `SchedulerRollback`. -/
def NoRollback (ws : List (Write D)) : Prop :=
  ∀ w ∈ ws, ∃ e, w = .append .runtime e ∧ ¬ e.HasType .schedulerRollback

theorem NoRollback.append {ws ws' : List (Write D)} (h : NoRollback ws) (h' : NoRollback ws') :
    NoRollback (ws ++ ws') := by
  intro w hw
  rcases List.mem_append.mp hw with hw | hw
  · exact h w hw
  · exact h' w hw

theorem noRollback_of_runtimeEntries {t : EmitType} {ws : List (Write D)}
    (h : Caller.RuntimeEntries t ws) (ht : t ≠ .schedulerRollback) : NoRollback ws := by
  intro w hw
  obtain ⟨e, rfl, he⟩ := h w hw
  exact ⟨e, rfl, fun h' => ht (he.unique h')⟩

section

variable [LinearOrder D] [ContentHash D]

namespace Caller

/-- The revocation of a rollback is one access. -/
theorem revokeForTarget_access (c : Caller D) (order : List CapabilityId) (target : D) :
    (c.revokeForTarget order target).2.data = c.data ∧
      (c.revokeForTarget order target).2.world.fault = c.world.fault ∧
      (c.revokeForTarget order target).2.world.ios = c.world.ios + 1 := by
  simp only [revokeForTarget]
  split_ifs
  · exact ⟨rfl, rfl, rfl⟩
  · split <;> exact ⟨rfl, rfl, rfl⟩

omit [LinearOrder D] in
/-- What a move of the tip writes, if its access fails and if it does not. -/
theorem moveTip_writes (c : Caller D) (t : EmitType) (tip target : D) (nowMs nowUs : ℕ)
    (payload : List UInt8) :
    (c.moveTip t tip target nowMs nowUs payload).ledger.writes =
      if c.world.fault c.world.ios then c.ledger.writes
      else c.ledger.writes ++
        [.append .runtime (c.entry t c.data.seq nowMs nowUs tip target payload)] := by
  have hok : (c.append .runtime (c.entry t c.data.seq nowMs nowUs tip target payload)).1 =
      !c.world.fault c.world.ios := by
    simp only [append, write, World.write]
    split_ifs with hfault <;> simp [hfault]
  simp only [moveTip]
  cases hfault : c.world.fault c.world.ios with
  | true =>
      rw [hfault, Bool.not_true] at hok
      rw [if_neg (by simp [hok]), ledger_append_of_failed hok]
      rfl
  | false =>
      rw [hfault, Bool.not_false] at hok
      rw [if_pos hok]
      exact congrArg Ledger.writes (ledger_append_of_ok hok)

/-- What a rollback along a path writes. -/
theorem rollbackAlong_writes (c : Caller D) (order : List CapabilityId) (targetSeq : ℕ)
    (tip : D) (path : List D) :
    ∃ e ws, e.RollsBack c.data.id targetSeq ∧ NoRollback ws ∧
      (c.rollbackAlong order targetSeq tip path).ledger.writes =
        c.ledger.writes ++ (if c.world.fault (c.world.ios + 1) then [] else
          [.append .runtime e]) ++ ws := by
  have hrevoke := revokeForTarget_access c.now.2.now.2 order (path.getLastD tip)
  have hledger := revokeForTarget_ledger c.now.2.now.2 order (path.getLastD tip)
  simp only [rollbackAlong]
  generalize c.now.2.now.2.revokeForTarget order (path.getLastD tip) = r at hrevoke hledger ⊢
  obtain ⟨hdata, hfault, hios⟩ := hrevoke
  generalize hpayload : rollbackPayload (path.length - 1) targetSeq r.1 = payload
  obtain ⟨ws, hws, hlife⟩ := logLifecycleEvent_writes (r.2.moveTip .schedulerRollback tip
    (path.getLastD tip) c.now.1 c.now.2.now.1 payload) .active
  refine ⟨r.2.entry .schedulerRollback r.2.data.seq c.now.1 c.now.2.now.1 tip
    (path.getLastD tip) payload, ws, ⟨?_, _, path.length - 1, r.1, rfl, rfl, hpayload.symm⟩,
    noRollback_of_runtimeEntries hlife (by decide), ?_⟩
  · have hid := congrArg AgentState.id hdata
    exact hid
  · have hmoved := moveTip_writes r.2 .schedulerRollback tip (path.getLastD tip) c.now.1
      c.now.2.now.1 payload
    rw [hfault, hios, hledger] at hmoved
    have hworld : c.now.2.now.2.world = c.world := rfl
    rw [hworld] at hmoved
    rw [congrArg Ledger.writes hws]
    simp only [Ledger.extend, hmoved]
    split_ifs
    · simp
    · simp

/-- A rollback that finds its target writes a `SchedulerRollback` to it. -/
theorem rollback_writes_of_can {c : Caller D} {targetSeq : ℕ}
    (hcan : c.canRollBack targetSeq = true) (order : List CapabilityId) :
    (c.rollback order targetSeq).1 = none ∧ ∃ e ws, e.RollsBack c.data.id targetSeq ∧
      NoRollback ws ∧ (c.rollback order targetSeq).2.ledger.writes =
        c.ledger.writes ++ .append .runtime e :: ws := by
  cases hlast : c.data.lastSnapshot with
  | none => simp [canRollBack, hlast] at hcan
  | some tip =>
      simp only [canRollBack, hlast, Bool.and_eq_true, decide_eq_true_eq,
        Bool.not_eq_true'] at hcan
      obtain ⟨⟨hlt, hpath⟩, hfault⟩ := hcan
      simp only [rollback, hlast, if_neg (Nat.not_le.mpr hlt)]
      cases hok : (c.rollbackPath tip targetSeq).1 with
      | error _ =>
          rw [hok] at hpath
          cases hpath
      | ok path =>
          obtain ⟨e, ws, he, hws, hwrites⟩ := rollbackAlong_writes
            (c.rollbackPath tip targetSeq).2 order targetSeq tip path
          have hledger : (c.rollbackPath tip targetSeq).2.ledger = c.ledger := rfl
          rw [hfault, hledger] at hwrites
          refine ⟨rfl, e, ws, he, hws, ?_⟩
          simpa using hwrites

/-- A rollback that does not find its target writes no `SchedulerRollback`. -/
theorem rollback_writes_of_cannot {c : Caller D} {targetSeq : ℕ}
    (hcan : c.canRollBack targetSeq = false) (order : List CapabilityId) :
    ∃ ws, NoRollback ws ∧ (c.rollback order targetSeq).2.ledger.writes =
      c.ledger.writes ++ ws := by
  have hnothing : NoRollback ([] : List (Write D)) := by simp [NoRollback]
  cases hlast : c.data.lastSnapshot with
  | none =>
      simp only [rollback, hlast]
      exact ⟨[], hnothing, (List.append_nil _).symm⟩
  | some tip =>
      simp only [rollback, hlast]
      split_ifs with hle
      · exact ⟨[], hnothing, (List.append_nil _).symm⟩
      · cases hok : (c.rollbackPath tip targetSeq).1 with
        | error _ => exact ⟨[], hnothing, (List.append_nil _).symm⟩
        | ok path =>
            obtain ⟨e, ws, -, hws, hwrites⟩ := rollbackAlong_writes
              (c.rollbackPath tip targetSeq).2 order targetSeq tip path
            have hfault : (c.rollbackPath tip targetSeq).2.world.fault
                ((c.rollbackPath tip targetSeq).2.world.ios + 1) = true := by
              simpa [canRollBack, hlast, Nat.not_le.mp hle, hok, Except.toBool] using hcan
            have hledger : (c.rollbackPath tip targetSeq).2.ledger = c.ledger := rfl
            rw [hfault, hledger] at hwrites
            exact ⟨ws, hws, by simpa using hwrites⟩

omit [LinearOrder D] in
theorem recordValidationResponse_writes (c : Caller D) (verdict : ValidationVerdict) :
    ∃ ws, NoRollback ws ∧
      (c.recordValidationResponse verdict).ledger.writes = c.ledger.writes ++ ws := by
  simp only [recordValidationResponse]
  split_ifs
  · exact ⟨[], by simp [NoRollback], (List.append_nil _).symm⟩
  · obtain ⟨ws, hws, hresponse⟩ := logQuiet_writes
      (c.setData fun s => { s with lastVerdict := some verdict }) .validationResponse
      [verdict.asU8]
    obtain ⟨ws', hws', hlife⟩ := logLifecycleEvent_writes
      ((c.setData fun s => { s with lastVerdict := some verdict }).logQuiet .validationResponse
        [verdict.asU8]).2 .active
    refine ⟨ws ++ ws', (noRollback_of_runtimeEntries hresponse (by decide)).append
      (noRollback_of_runtimeEntries hlife (by decide)), ?_⟩
    rw [hws', hws, Ledger.extend_extend]
    rfl

end Caller

namespace Actor

/-- A step that takes up a rollback handles its message. -/
theorem handle_of_takesUp {a a' : Actor D} {ev : Event D} {targetSeq : ℕ}
    (htakes : a.takesUp ev = some targetSeq) (h : a.step ev = some a') :
    ∃ order, a' = { a with pendingMsg := none }.handle order (.rollback targetSeq) := by
  cases trans_of_step h with
  | @handle message order hphase hpending =>
      cases message with
      | rollback t =>
          simp only [takesUp, hphase, hpending, Option.some.injEq] at htakes
          refine ⟨order, ?_⟩
          rw [← htakes, ← hpending]
      | _ => cases htakes
  | @await message order hphase hpending =>
      cases message with
      | rollback t => simp [takesUp, hphase, hpending] at htakes
      | _ => cases htakes
  | @resume message order hphase hpending =>
      cases message with
      | rollback t =>
          simp only [takesUp, hphase, hpending, Option.some.injEq] at htakes
          rw [← htakes]
          exact ⟨order, rfl⟩
      | _ => simp [takesUp, hphase, hpending] at htakes
  | _ => cases htakes

/-- What a step writes that takes up a rollback whose target it finds. -/
theorem step_writes_of_can {a a' : Actor D} {ev : Event D} {targetSeq : ℕ}
    (htakes : a.takesUp ev = some targetSeq) (hcan : a.caller.canRollBack targetSeq = true)
    (h : a.step ev = some a') :
    ∃ e ws, e.RollsBack a.ledger.id targetSeq ∧ NoRollback ws ∧
      a'.ledger.writes = a.ledger.writes ++ .append .runtime e :: ws := by
  obtain ⟨order, rfl⟩ := handle_of_takesUp htakes h
  obtain ⟨hnone, e, ws, he, hws, hwrites⟩ := Caller.rollback_writes_of_can hcan order
  refine ⟨e, ws, he, hws, ?_⟩
  simp only [handle, hnone]
  exact hwrites

/-- A rollback whose target the agent does not find makes it write no `SchedulerRollback`. -/
theorem handle_writes_of_cannot {a : Actor D} {targetSeq : ℕ}
    (hcan : a.caller.canRollBack targetSeq = false) (order : List CapabilityId) :
    ∃ ws, NoRollback ws ∧ (a.handle order (.rollback targetSeq)).ledger.writes =
      a.ledger.writes ++ ws := by
  obtain ⟨ws, hws, hwrites⟩ := Caller.rollback_writes_of_cannot hcan order
  simp only [handle]
  split
  · exact ⟨ws, hws, hwrites⟩
  · rename_i cause _
    obtain ⟨ws', hledger, hcrash⟩ := Caller.logQuiet_writes (a.caller.rollback order targetSeq).2
      .agentCrash (cause.asU8 :: agentBytes
        ((a.caller.rollback order targetSeq).2.data.parentAgentId.getD 0) ++
        bytes ((a.caller.rollback order targetSeq).2.data.lastAction.getD zero))
    refine ⟨ws ++ ws', hws.append (noRollback_of_runtimeEntries hcrash (by decide)), ?_⟩
    have hextended := congrArg Ledger.writes hledger
    simp only [Ledger.extend, hwrites, List.append_assoc] at hextended
    exact hextended

/-- The message that a step takes from the inbox or resumes is a rollback to a target. -/
def GetsRollback (a : Actor D) (ev : Event D) (targetSeq : ℕ) : Prop :=
  (∃ order, ev = .recv (.rollback targetSeq) order) ∨
    ∃ order, ev = .resume order ∧ a.pendingMsg = some (.rollback targetSeq)

omit [LinearOrder D] [ContentHash D] in
theorem GetsRollback.takesUp {a : Actor D} {ev : Event D} {targetSeq t : ℕ}
    (hev : a.GetsRollback ev targetSeq) (h : a.takesUp ev = some t) : t = targetSeq := by
  rcases hev with ⟨order, rfl⟩ | ⟨order, rfl, hmessage⟩
  · simp only [Actor.takesUp] at h
    split at h
    · exact (Option.some.inj h).symm
    · cases h
  · simp only [Actor.takesUp, hmessage] at h
    split at h
    · rename_i hpending
      cases hpending
      exact (Option.some.inj h).symm
    · cases h

/-- A step that gets a rollback and does not take it up writes no `SchedulerRollback`. -/
theorem step_writes_of_putBack {a a' : Actor D} {ev : Event D} {targetSeq : ℕ}
    (hev : a.GetsRollback ev targetSeq) (htakes : a.takesUp ev = none)
    (h : a.step ev = some a') :
    ∃ ws, NoRollback ws ∧ a'.ledger.writes = a.ledger.writes ++ ws := by
  rcases hev with ⟨order, rfl⟩ | ⟨order, rfl, hmessage⟩
  · cases trans_of_step h with
    | handle hphase hpending => simp [Actor.takesUp, hphase, hpending] at htakes
    | await _ _ =>
        obtain ⟨ws, hws, hwrites⟩ := Caller.recordValidationResponse_writes a.caller .cancelled
        refine ⟨ws, hws, ?_⟩
        rw [await, recordVerdict, afterData_ledger]
        exact hwrites
  · cases trans_of_step h with
    | resume hphase _ => simp [Actor.takesUp, hphase, hmessage] at htakes

/-- A step that gets a rollback writes entries of the runtime, among them a `SchedulerRollback`
to its target exactly if it takes the rollback up and finds its target. -/
theorem step_of_getsRollback {a a' : Actor D} {ev : Event D} {targetSeq : ℕ}
    (hev : a.GetsRollback ev targetSeq) (h : a.step ev = some a') :
    ∃ ws, a'.ledger.writes = a.ledger.writes ++ ws ∧
      (∀ w ∈ ws, ∃ e, w = .append .runtime e) ∧
      if a.takesUp ev = some targetSeq ∧ a.caller.canRollBack targetSeq = true then
        ∃ e, .append .runtime e ∈ ws ∧ e.RollsBack a.ledger.id targetSeq
      else NoRollback ws := by
  split_ifs with hcan
  · obtain ⟨e, ws, he, hws, hwrites⟩ := step_writes_of_can hcan.1 hcan.2 h
    refine ⟨_, hwrites, fun w hw => ?_, e, List.mem_cons_self, he⟩
    rcases List.mem_cons.mp hw with rfl | hw
    · exact ⟨e, rfl⟩
    · obtain ⟨e', rfl, -⟩ := hws w hw
      exact ⟨e', rfl⟩
  · have hquiet : ∃ ws, NoRollback ws ∧ a'.ledger.writes = a.ledger.writes ++ ws := by
      cases htakes : a.takesUp ev with
      | none => exact step_writes_of_putBack hev htakes h
      | some t =>
          obtain rfl := hev.takesUp htakes
          have hcannot : a.caller.canRollBack t = false := by
            simpa [htakes] using hcan
          obtain ⟨order, rfl⟩ := handle_of_takesUp htakes h
          exact handle_writes_of_cannot (a := { a with pendingMsg := none }) hcannot order
    obtain ⟨ws, hws, hwrites⟩ := hquiet
    refine ⟨ws, hwrites, fun w hw => ?_, hws⟩
    obtain ⟨e, rfl, -⟩ := hws w hw
    exact ⟨e, rfl⟩

/-- What a step that gets a rollback puts back: nothing, or this rollback. -/
theorem pendingMsg_of_getsRollback {a a' : Actor D} {ev : Event D} {targetSeq : ℕ}
    (hev : a.GetsRollback ev targetSeq) (h : a.step ev = some a')
    (hpending : a'.pendingMsg.isSome = true) : a'.pendingMsg = some (.rollback targetSeq) := by
  have hhandle : ∀ (b : Actor D) order, b.pendingMsg = none →
      (b.handle order (.rollback targetSeq)).pendingMsg = none := by
    intro b order hb
    simp only [handle]
    split
    · exact hb
    · rfl
  rcases hev with ⟨order, rfl⟩ | ⟨order, rfl, hmessage⟩
  · cases trans_of_step h with
    | handle _ hnone =>
        rw [hhandle a order hnone] at hpending
        cases hpending
    | await _ _ =>
        simp only [await, recordVerdict, afterData] at hpending ⊢
        split_ifs at hpending ⊢
        · cases hpending
        · rfl
  · cases trans_of_step h with
    | @resume message _ _ hmessage' =>
        obtain rfl : message = .rollback targetSeq :=
          Option.some.inj (hmessage'.symm.trans hmessage)
        rw [hhandle { a with pendingMsg := none } order rfl] at hpending
        cases hpending

end Actor

end

/-! ### The property -/

/-- In a journal with its requests, every compensation that is closed as applied is preceded by
the rollback of the same request. -/
def AppliedAlong [ContentHash D] (tagged : List (Write D × Option ℕ)) : Prop :=
  ∀ pre request target targetSeq now,
    pre ++ [(.append .scheduler (compensationClose target targetSeq 0x00 now), some request)] <+:
      tagged →
    ∃ e, (.append .runtime e, some request) ∈ pre ∧ e.RollsBack target targetSeq

/-- A `CompensationClose` tells its agent, its target and its outcome. -/
theorem compensationClose_inj [ContentHash D] {target target' : AgentId}
    {targetSeq targetSeq' : ℕ} {outcome outcome' : UInt8} {now now' : Reading}
    (h : (compensationClose target targetSeq outcome now : LogEntry D) =
      compensationClose target' targetSeq' outcome' now') :
    target = target' ∧ leBytes 8 targetSeq = leBytes 8 targetSeq' ∧ outcome = outcome' := by
  have hpayload : agentBytes target ++ leBytes 8 targetSeq ++ [outcome] =
      agentBytes target' ++ leBytes 8 targetSeq' ++ [outcome'] := by
    have hemit := congrArg LogEntry.emitPayload h
    exact congrArg EmitEnvelope.payload (Option.some.inj hemit)
  obtain ⟨hfront, hlast⟩ := List.append_inj' hpayload rfl
  obtain ⟨hagent, hseq⟩ := List.append_inj hfront (by simp)
  refine ⟨?_, hseq, List.cons.inj hlast |>.1⟩
  rw [← agentOfBytes_agentBytes target, hagent, agentOfBytes_agentBytes]

theorem compensationOpen_ne_close [ContentHash D] {target target' : AgentId} {targetSeq : ℕ}
    {outcome : UInt8} {now now' : Reading} :
    (compensationOpen target now : LogEntry D) ≠
      compensationClose target' targetSeq outcome now' := by
  intro h
  have hemit := Option.some.inj (congrArg LogEntry.emitPayload h)
  have htype : EmitType.compensationOpen.asU8 = EmitType.compensationClose.asU8 :=
    congrArg EmitEnvelope.emitType hemit
  cases EmitType.asU8_injective htype

/-- The bytes of the target are what a `SchedulerRollback` tells of it. -/
theorem LogEntry.RollsBack.congr {e : LogEntry D} {agent : AgentId} {targetSeq targetSeq' : ℕ}
    (h : e.RollsBack agent targetSeq) (hseq : leBytes 8 targetSeq = leBytes 8 targetSeq') :
    e.RollsBack agent targetSeq' := by
  obtain ⟨hid, env, distance, revoked, hemit, htype, hpayload⟩ := h
  refine ⟨hid, env, distance, revoked, hemit, htype, ?_⟩
  rw [hpayload, Caller.rollbackPayload, Caller.rollbackPayload, hseq]

theorem AppliedAlong.take [ContentHash D] {tagged tagged' : List (Write D × Option ℕ)}
    (h : AppliedAlong tagged) (hle : tagged' <+: tagged) : AppliedAlong tagged' :=
  fun pre request target targetSeq now hpre => h pre request target targetSeq now
    (hpre.trans hle)

/-- A further write keeps the property, unless it closes a compensation as applied. -/
theorem AppliedAlong.concat [ContentHash D] {tagged : List (Write D × Option ℕ)}
    (h : AppliedAlong tagged) {x : Write D × Option ℕ}
    (hx : ∀ request target targetSeq now,
      x = (.append .scheduler (compensationClose target targetSeq 0x00 now), some request) →
      ∃ e, (.append .runtime e, some request) ∈ tagged ∧ e.RollsBack target targetSeq) :
    AppliedAlong (tagged ++ [x]) := by
  intro pre request target targetSeq now hpre
  rcases List.prefix_concat_iff.mp hpre with heq | hpre
  · obtain ⟨rfl, hlast⟩ := List.append_inj' heq rfl
    exact hx request target targetSeq now (List.cons.inj hlast).1.symm
  · exact h pre request target targetSeq now hpre

/-- So do further writes that the scheduler does not make for a request. -/
theorem AppliedAlong.append [ContentHash D] {tagged new : List (Write D × Option ℕ)}
    (h : AppliedAlong tagged)
    (hnew : ∀ e request, (.append .scheduler e, some request) ∉ new) :
    AppliedAlong (tagged ++ new) := by
  induction new using List.reverseRecOn with
  | nil => rwa [List.append_nil]
  | append_singleton new x ih =>
      rw [← List.append_assoc]
      refine (ih fun e request hmem => hnew e request (List.mem_append_left _ hmem)).concat ?_
      rintro request target targetSeq now rfl
      exact absurd (List.mem_append_right new List.mem_cons_self) (hnew _ request)

/-! ### Requests and what belongs to them -/

namespace System

variable [LinearOrder D] [ContentHash D]

/-- A message for an agent belongs to a request. -/
def Belongs (s : System D) (request : ℕ) (agent : AgentId) (message : Message D) : Prop :=
  ∃ call, s.calls request = some call ∧ agent = call.target ∧ message = .rollback call.targetSeq

/-- The journal holds the rollback of a request. -/
def Applied (s : System D) (request : ℕ) (call : SupervisorCall) : Prop :=
  ∃ e, (.append .runtime e, some request) ∈ s.tagged ∧ e.RollsBack call.target call.targetSeq

/-- Messages on their way and messages put back belong to their requests; of the requests
whose call is not over, those that were served have their rollback in the journal; and no other
request has one. -/
structure Tracked (s : System D) : Prop where
  journal : s.tagged.map Prod.fst = s.world.writes
  coherent : ∀ slot p, s.processes slot = some p → p.actor.Coherent
  inbox : ∀ slot p, s.processes slot = some p → ∀ request message,
    (some request, message) ∈ p.inbox → s.Belongs request p.actor.ledger.id message
  held : ∀ slot p, s.processes slot = some p → ∀ request, p.held = some request →
    ∃ message, p.actor.pendingMsg = some message ∧ s.Belongs request p.actor.ledger.id message
  served : ∀ request ∈ s.served, ∃ call, s.calls request = some call ∧
    (call.stage ≠ .closed → s.Applied request call)
  applied : ∀ request e, (.append .runtime e, some request) ∈ s.tagged →
    e.HasType .schedulerRollback → request ∈ s.served

omit [LinearOrder D] in
theorem tracked_boot (w : World D) : (boot w).Tracked where
  journal := rfl
  coherent _ _ h := by cases h
  inbox _ _ h := by cases h
  held _ _ h := by cases h
  served _ h := by cases h
  applied _ _ h := by cases h

/-- A call that begins, or goes on with the same target. -/
def GoesOn (s : System D) (r : ℕ) (call : SupervisorCall) : Prop :=
  ∀ old, s.calls r = some old → call.target = old.target ∧ call.targetSeq = old.targetSeq ∧
    old.stage ≠ .closed

omit [LinearOrder D] [ContentHash D] in
/-- What belongs to a request still does when its call goes on. -/
theorem Belongs.setCall {s : System D} {request r : ℕ} {agent : AgentId} {message : Message D}
    {call : SupervisorCall} (h : s.Belongs request agent message) (hcall : s.GoesOn r call) :
    (s.setCall r call).Belongs request agent message := by
  obtain ⟨old, hold, hagent, hmessage⟩ := h
  simp only [Belongs, System.setCall, Function.update_apply]
  split_ifs with hr
  · subst hr
    obtain ⟨htarget, hseq, -⟩ := hcall old hold
    exact ⟨call, rfl, by rw [hagent, htarget], by rw [hmessage, hseq]⟩
  · exact ⟨old, hold, hagent, hmessage⟩

omit [LinearOrder D] in
theorem Tracked.setCall {s : System D} (hs : s.Tracked) {r : ℕ} {call : SupervisorCall}
    (hcall : s.GoesOn r call) : (s.setCall r call).Tracked where
  journal := hs.journal
  coherent := hs.coherent
  inbox slot p hp request message hmem := (hs.inbox slot p hp request message hmem).setCall hcall
  held slot p hp request hheld := by
    obtain ⟨message, hpending, hbelongs⟩ := hs.held slot p hp request hheld
    exact ⟨message, hpending, hbelongs.setCall hcall⟩
  served request hmem := by
    obtain ⟨old, hold, happlied⟩ := hs.served request hmem
    simp only [System.setCall, Function.update_apply]
    split_ifs with hr
    · subst hr
      obtain ⟨htarget, hseq, hstage⟩ := hcall old hold
      obtain ⟨e, he, hrolls⟩ := happlied hstage
      exact ⟨call, rfl, fun _ => ⟨e, he, by rw [htarget, hseq]; exact hrolls⟩⟩
    · exact ⟨old, hold, happlied⟩
  applied := hs.applied

omit [LinearOrder D] in
/-- A process that is new, or has got a further message. -/
theorem Tracked.setProcess {s : System D} (hs : s.Tracked) {slot : ℕ} {p : Process D}
    (hcoh : p.actor.Coherent)
    (hinbox : ∀ request message, (some request, message) ∈ p.inbox →
      s.Belongs request p.actor.ledger.id message)
    (hheld : ∀ request, p.held = some request → ∃ message,
      p.actor.pendingMsg = some message ∧ s.Belongs request p.actor.ledger.id message) :
    (s.setProcess slot p).Tracked := by
  refine ⟨hs.journal, ?_, ?_, ?_, hs.served, hs.applied⟩
  all_goals
    intro slot' q hq
    simp only [System.setProcess, Function.update_apply] at hq
    split_ifs at hq with hslot
  · obtain rfl := Option.some.inj hq
    exact hcoh
  · exact hs.coherent slot' q hq
  · obtain rfl := Option.some.inj hq
    exact hinbox
  · exact hs.inbox slot' q hq
  · obtain rfl := Option.some.inj hq
    exact hheld
  · exact hs.held slot' q hq

/-- What is known about a step of the agent of a process: it is for no request, or its message
belongs to the request. -/
def StepFor (s : System D) (p : Process D) (tag : Option ℕ) (event : Event D) : Prop :=
  ∀ request, tag = some request → ∃ call, s.calls request = some call ∧
    p.actor.ledger.id = call.target ∧ p.actor.GetsRollback event call.targetSeq

/-- The further writes of such a step. -/
theorem exists_writes_of_stepFor {s : System D} {p : Process D} {event : Event D} {a : Actor D}
    (hcoh : p.actor.Coherent) (h : (p.actor.inWorld s.world).step event = some a) :
    ∃ ws, a.caller.world.writes = s.world.writes ++ ws ∧
      a.caller.world.writes.drop s.world.writes.length = ws := by
  have hgrow : ∃ ws, a.caller.world.writes = s.world.writes ++ ws := by
    rcases Actor.step_ledger (a := p.actor.inWorld s.world) hcoh h with
      hsteps | ⟨ws, _, _, _, _, _, hext⟩
    · exact hsteps.exists_writes
    · exact ⟨ws, congrArg Ledger.writes hext⟩
  obtain ⟨ws, hws⟩ := hgrow
  exact ⟨ws, hws, by rw [hws, List.drop_left]⟩

theorem mem_servedAfter {s : System D} {p : Process D} {tag : Option ℕ} {event : Event D}
    {request : ℕ} : request ∈ s.servedAfter p tag event ↔ request ∈ s.served ∨
      tag = some request ∧ ∃ targetSeq, p.actor.takesUp event = some targetSeq ∧
        (p.actor.inWorld s.world).caller.canRollBack targetSeq = true := by
  simp only [servedAfter]
  cases htakes : p.actor.takesUp event with
  | none => simp
  | some targetSeq =>
      simp only
      split_ifs with hcan
      · simp only [List.mem_append, Option.mem_toList, Option.some.injEq,
          exists_eq_left', hcan, and_true]
        exact or_comm
      · simp [hcan]

omit [LinearOrder D] [ContentHash D] in
/-- What has happened to a request stays in a journal that only grows. -/
theorem Applied.mono {s s' : System D} {request : ℕ} {call : SupervisorCall}
    {new : List (Write D × Option ℕ)} (h : s.Applied request call)
    (htagged : s'.tagged = s.tagged ++ new) : s'.Applied request call := by
  obtain ⟨e, hmem, he⟩ := h
  refine ⟨e, ?_, he⟩
  rw [htagged]
  exact List.mem_append_left _ hmem

/-- What a step for a request leaves in the journal. -/
theorem StepFor.writes {s : System D} {p : Process D} {event : Event D} {request : ℕ}
    {a : Actor D} {ws : List (Write D)} (hfor : s.StepFor p (some request) event)
    (hstep : (p.actor.inWorld s.world).step event = some a)
    (hws : a.caller.world.writes = s.world.writes ++ ws) :
    (∀ w ∈ ws, ∃ e, w = .append .runtime e) ∧ ∃ call, s.calls request = some call ∧
      if p.actor.takesUp event = some call.targetSeq ∧
          (p.actor.inWorld s.world).caller.canRollBack call.targetSeq = true then
        ∃ e, .append .runtime e ∈ ws ∧ e.RollsBack call.target call.targetSeq
      else NoRollback ws := by
  obtain ⟨call, hcall, hid, hgets⟩ := hfor request rfl
  obtain ⟨ws', hwrites, hruntime, hspec⟩ :=
    Actor.step_of_getsRollback (a := p.actor.inWorld s.world) hgets hstep
  obtain rfl : ws = ws' := List.append_cancel_left (hws.symm.trans hwrites)
  refine ⟨hruntime, call, hcall, ?_⟩
  rw [← hid]
  exact hspec

/-- A step of the agent of a process for a request that its message belongs to. -/
theorem Tracked.run {s s' : System D} (hs : s.Tracked) {slot : ℕ} {p : Process D}
    {tag : Option ℕ} {event : Event D} (hcoh : p.actor.Coherent)
    (hinbox : ∀ request message, (some request, message) ∈ p.inbox →
      s.Belongs request p.actor.ledger.id message)
    (hfor : s.StepFor p tag event) (h : s.run slot p tag event = some s') : s'.Tracked := by
  obtain ⟨a, hstep, rfl⟩ := Option.map_eq_some_iff.mp h
  obtain ⟨ws, hws, hdrop⟩ := exists_writes_of_stepFor hcoh hstep
  have hid : a.ledger.id = p.actor.ledger.id :=
    Actor.step_id (a := p.actor.inWorld s.world) hcoh hstep
  constructor
  · have hnew : (ws.map fun x => (x, tag)).map Prod.fst = ws := by
      rw [List.map_map]
      exact List.map_id ws
    simp only [System.setProcess, advance, hdrop, List.map_append, hs.journal, hnew]
    exact hws.symm
  · intro slot' q hq
    simp only [System.setProcess, Function.update_apply] at hq
    split_ifs at hq with hslot
    · obtain rfl := Option.some.inj hq
      exact Actor.step_coherent (a := p.actor.inWorld s.world) hcoh hstep
    · exact hs.coherent slot' q hq
  · intro slot' q hq request message hmem
    simp only [System.setProcess, Function.update_apply] at hq
    split_ifs at hq with hslot
    · obtain rfl := Option.some.inj hq
      simp only [Process.after] at hmem ⊢
      rw [hid]
      split_ifs at hmem
      · exact hinbox request message hmem
      · cases hmem
    · exact hs.inbox slot' q hq request message hmem
  · intro slot' q hq request hheld
    simp only [System.setProcess, Function.update_apply] at hq
    split_ifs at hq with hslot
    · obtain rfl := Option.some.inj hq
      simp only [Process.after] at hheld ⊢
      split_ifs at hheld with hpending
      obtain ⟨call, hcall, hagent, hgets⟩ := hfor request hheld
      refine ⟨.rollback call.targetSeq, ?_, call, hcall, hid.trans hagent, rfl⟩
      exact Actor.pendingMsg_of_getsRollback (a := p.actor.inWorld s.world) hgets hstep hpending
    · exact hs.held slot' q hq request hheld
  · intro request hmem
    rcases mem_servedAfter.mp hmem with hmem | ⟨rfl, targetSeq, htakes, hcan⟩
    · obtain ⟨call, hcall, happlied⟩ := hs.served request hmem
      exact ⟨call, hcall, fun hstage => (happlied hstage).mono rfl⟩
    · obtain ⟨-, call, hcall, hspec⟩ := hfor.writes hstep hws
      obtain ⟨call', hcall', -, hgets⟩ := hfor request rfl
      obtain rfl := Option.some.inj (hcall.symm.trans hcall')
      obtain rfl := hgets.takesUp htakes
      rw [if_pos ⟨htakes, hcan⟩] at hspec
      obtain ⟨e, hmem, he⟩ := hspec
      refine ⟨call, hcall, fun _ => ⟨e, ?_, he⟩⟩
      simp only [System.setProcess, advance, hdrop]
      exact List.mem_append_right _ (List.mem_map.mpr ⟨_, hmem, rfl⟩)
  · intro request e hmem htype
    simp only [System.setProcess, advance, hdrop] at hmem
    rcases List.mem_append.mp hmem with hmem | hmem
    · exact mem_servedAfter.mpr (.inl (hs.applied request e hmem htype))
    · obtain ⟨w, hw, heq⟩ := List.mem_map.mp hmem
      cases heq
      obtain ⟨-, call, -, hspec⟩ := hfor.writes hstep hws
      split_ifs at hspec with hcan
      · exact mem_servedAfter.mpr (.inr ⟨rfl, call.targetSeq, hcan⟩)
      · obtain ⟨e', heq, hno⟩ := hspec _ hw
        cases heq
        exact absurd htype hno

/-- Such a step closes no compensation. -/
theorem appliedAlong_run {s s' : System D} {slot : ℕ} {p : Process D} {tag : Option ℕ}
    {event : Event D} (hcoh : p.actor.Coherent) (hfor : s.StepFor p tag event)
    (happlied : AppliedAlong s.tagged) (h : s.run slot p tag event = some s') :
    AppliedAlong s'.tagged := by
  obtain ⟨a, hstep, -, -, -, htagged⟩ := run_eq_some h
  obtain ⟨ws, hws, hdrop⟩ := exists_writes_of_stepFor hcoh hstep
  rw [htagged, hdrop]
  refine happlied.append fun e request hmem => ?_
  obtain ⟨w, hw, heq⟩ := List.mem_map.mp hmem
  cases heq
  obtain ⟨e', he'⟩ := (hfor.writes hstep hws).1 _ hw
  cases he'

omit [LinearOrder D] [ContentHash D] in
theorem stepFor_of_belongs {s : System D} {p : Process D} {tag : Option ℕ} {event : Event D}
    (h : ∀ request, tag = some request → ∃ message,
      s.Belongs request p.actor.ledger.id message ∧
        ((∃ order, event = .recv message order) ∨
          ∃ order, event = .resume order ∧ p.actor.pendingMsg = some message)) :
    s.StepFor p tag event := by
  intro request htag
  obtain ⟨message, ⟨call, hcall, hagent, rfl⟩, hmessage⟩ := h request htag
  exact ⟨call, hcall, hagent, hmessage⟩

omit [LinearOrder D] in
theorem Tracked.stepFor_deliver {s : System D} (hs : s.Tracked) {slot : ℕ} {p : Process D}
    {tag : Option ℕ} {message : Message D} {inbox : List (Option ℕ × Message D)}
    (hp : s.processes slot = some p) (hinbox : p.inbox = (tag, message) :: inbox)
    (order : List CapabilityId) :
    s.StepFor { p with inbox } tag (.recv message order) := by
  refine stepFor_of_belongs fun request htag => ⟨message, ?_, .inl ⟨order, rfl⟩⟩
  subst htag
  exact hs.inbox slot p hp request message (by rw [hinbox]; exact List.mem_cons_self)

omit [LinearOrder D] in
theorem Tracked.stepFor_act {s : System D} (hs : s.Tracked) {slot : ℕ} {p : Process D}
    (hp : s.processes slot = some p) (event : Event D) :
    s.StepFor p (p.tagOf event) event := by
  refine stepFor_of_belongs fun request htag => ?_
  cases event with
  | resume order =>
      obtain ⟨message, hpending, hbelongs⟩ := hs.held slot p hp request htag
      exact ⟨message, hbelongs, .inr ⟨order, rfl, hpending⟩⟩
  | _ => cases htag

omit [LinearOrder D] [ContentHash D] in
/-- An entry of the scheduler is tagged with its request, unless its append fails. -/
theorem append_eq (s : System D) (request : ℕ) (e : LogEntry D) :
    (s.append request e).tagged = s.tagged ++
        (if s.world.fault s.world.ios then [] else [(.append .scheduler e, some request)]) ∧
      (s.append request e).world.writes = s.world.writes ++
        (if s.world.fault s.world.ios then [] else [.append .scheduler e]) := by
  simp only [append, advance, World.write]
  split_ifs <;> simp

omit [LinearOrder D] in
theorem Tracked.append {s : System D} (hs : s.Tracked) (request : ℕ) (e : LogEntry D) :
    (s.append request e).Tracked := by
  obtain ⟨htagged, hwrites⟩ := append_eq s request e
  constructor
  · rw [htagged, hwrites, List.map_append, hs.journal]
    split_ifs <;> rfl
  · exact hs.coherent
  · exact hs.inbox
  · exact hs.held
  · intro r hr
    obtain ⟨call, hcall, happlied⟩ := hs.served r hr
    exact ⟨call, hcall, fun hstage => (happlied hstage).mono htagged⟩
  · intro r e' hmem
    rw [htagged] at hmem
    rcases List.mem_append.mp hmem with hmem | hmem
    · exact hs.applied r e' hmem
    · split_ifs at hmem
      · cases hmem
      · cases List.mem_singleton.mp hmem

/-- Steps keep messages, calls and served requests together. -/
theorem Tracked.step {s s' : System D} {ev : SystemEvent D} (hs : s.Tracked)
    (h : s.step ev = some s') : s'.Tracked := by
  cases trans_of_step h with
  | spawn _ => exact hs.setProcess trivial (by simp) (by simp)
  | @post slot message p hp _ =>
      refine hs.setProcess (hs.coherent slot p hp) ?_ (hs.held slot p hp)
      intro request m hmem
      rcases List.mem_append.mp hmem with hmem | hmem
      · exact hs.inbox slot p hp request m hmem
      · cases List.mem_singleton.mp hmem
  | @deliver slot order p tag message inbox s' hp hinbox hrun =>
      refine hs.run (p := { p with inbox }) (hs.coherent slot p hp) ?_
        (hs.stepFor_deliver hp hinbox order) hrun
      intro request m hmem
      refine hs.inbox slot p hp request m ?_
      rw [hinbox]
      exact List.mem_cons_of_mem _ hmem
  | @act slot event p s' hp _ hrun =>
      exact hs.run (hs.coherent slot p hp) (hs.inbox slot p hp) (hs.stepFor_act hp event) hrun
  | @opened request target targetSeq now hnone =>
      refine (hs.append request _).setCall fun old hold => ?_
      cases hnone.symm.trans hold
  | @unsent request target targetSeq hcall =>
      refine hs.setCall fun old hold => ?_
      cases hcall.symm.trans hold
      exact ⟨rfl, rfl, by simp⟩
  | @sent request target targetSeq slot p hcall hp hid _ =>
      refine Tracked.setCall (hs.setProcess (p := p.push (some request) (.rollback targetSeq))
        (hs.coherent slot p hp) ?_ (hs.held slot p hp)) ?_
      · intro r m hmem
        rcases List.mem_append.mp hmem with hmem | hmem
        · exact hs.inbox slot p hp r m hmem
        · cases List.mem_singleton.mp hmem
          exact ⟨_, hcall, hid, rfl⟩
      · intro old hold
        cases hcall.symm.trans hold
        exact ⟨rfl, rfl, by simp⟩
  | @closed request target targetSeq ok now hcall =>
      refine (hs.append request _).setCall fun old hold => ?_
      cases hcall.symm.trans hold
      exact ⟨rfl, rfl, by simp⟩
  | @crash kept =>
      constructor
      · simp only [System.crash, List.map_take, hs.journal]
      · exact fun _ _ hp => by cases hp
      · exact fun _ _ hp => by cases hp
      · exact fun _ _ hp => by cases hp
      · intro request hmem
        obtain ⟨call, hcall, -⟩ := hs.served request hmem
        exact ⟨{ call with stage := .closed }, by simp [System.crash, hcall],
          fun hstage => absurd rfl hstage⟩
      · intro request e hmem
        exact hs.applied request e (List.mem_of_mem_take hmem)

/-- A compensation is closed as applied only for a request that has been served. -/
def ClosesServed (s : System D) (ev : SystemEvent D) : Prop :=
  ∀ request now call, ev = .rollbackClose request now → s.calls request = some call →
    call.stage = .sent true → s.world.fault s.world.ios = false → request ∈ s.served

theorem Tracked.appliedAlong_step {s s' : System D} {ev : SystemEvent D} (hs : s.Tracked)
    (happlied : AppliedAlong s.tagged) (hev : s.ClosesServed ev) (h : s.step ev = some s') :
    AppliedAlong s'.tagged := by
  cases trans_of_step h with
  | spawn _ => exact happlied
  | post _ _ => exact happlied
  | @deliver slot order p tag message inbox s' hp hinbox hrun =>
      exact appliedAlong_run (p := { p with inbox }) (hs.coherent slot p hp)
        (hs.stepFor_deliver hp hinbox order) happlied hrun
  | @act slot event p s' hp _ hrun =>
      exact appliedAlong_run (hs.coherent slot p hp) (hs.stepFor_act hp event) happlied hrun
  | @opened request target targetSeq now _ =>
      have htagged := (append_eq s request (compensationOpen target now)).1
      simp only [System.setCall, htagged]
      split_ifs
      · rwa [List.append_nil]
      · refine happlied.concat fun r t q n heq => ?_
        simp only [Prod.mk.injEq, Write.append.injEq, true_and] at heq
        exact absurd heq.1 compensationOpen_ne_close
  | unsent _ => exact happlied
  | sent _ _ _ _ => exact happlied
  | @closed request target targetSeq ok now hcall =>
      have htagged := (append_eq s request
        (compensationClose target targetSeq (outcome ok) now)).1
      simp only [System.setCall, htagged]
      cases hfault : s.world.fault s.world.ios with
      | true => rwa [if_pos rfl, List.append_nil]
      | false =>
          refine happlied.concat fun r t q n heq => ?_
          simp only [Prod.mk.injEq, Write.append.injEq, true_and, Option.some.injEq] at heq
          obtain ⟨hentry, rfl⟩ := heq
          obtain ⟨rfl, hseq, houtcome⟩ := compensationClose_inj hentry
          have hok : ok = true := by
            cases ok with
            | true => rfl
            | false => cases houtcome
          subst hok
          obtain ⟨call, hcall', happlied'⟩ :=
            hs.served request (hev request now _ rfl hcall rfl hfault)
          obtain rfl := Option.some.inj (hcall.symm.trans hcall')
          obtain ⟨e, hmem, hrolls⟩ := happlied' (by simp)
          exact ⟨e, hmem, hrolls.congr hseq⟩
  | @crash kept => exact happlied.take (List.take_prefix _ _)

/-- A compensation that is closed as applied after the rollback of its request was served. -/
theorem Tracked.closesServed {s s' : System D} {ev : SystemEvent D} (hs : s.Tracked)
    (h : s.step ev = some s') (happlied : AppliedAlong s'.tagged) : s.ClosesServed ev := by
  rintro request now ⟨target, targetSeq, stage⟩ rfl hcall hstage hfault
  obtain rfl : stage = .sent true := hstage
  cases trans_of_step h with
  | closed hcall' =>
      cases hcall.symm.trans hcall'
      have htagged := (append_eq s request
        (compensationClose target targetSeq (outcome true) now)).1
      rw [hfault] at htagged
      obtain ⟨e, hmem, hrolls⟩ := happlied s.tagged request target targetSeq now
        (by simp only [System.setCall, htagged]; exact List.prefix_rfl)
      obtain ⟨-, env, -, -, hemit, htype, -⟩ := hrolls
      exact hs.applied request e hmem ⟨env, hemit, htype⟩

end System

/-! ### Runs -/

section

variable [LinearOrder D] [ContentHash D]

/-- The journal with its requests is the journal. -/
theorem tagged_eq_writes {w : World D} {evs : List (SystemEvent D)} {s : System D}
    (hrun : Machine.run System.step (System.boot w) evs = some s) :
    s.tagged.map Prod.fst = s.world.writes := by
  have htracked : s.Tracked :=
    Machine.run_invariant (fun _ _ _ hs h => System.Tracked.step hs h) (System.tracked_boot w) hrun
  exact htracked.journal

/-- **Applied means applied.** In every run of the system, in every state, every compensation
that is closed as applied is preceded by the rollback of the same request, if and only if no
compensation is closed as applied before the agent has taken up its request at the top of its
loop and found its target. -/
theorem closes_applied_iff (w : World D) (evs : List (SystemEvent D)) :
    (∀ pre post s, evs = pre ++ post →
      Machine.run System.step (System.boot w) pre = some s → AppliedAlong s.tagged) ↔
      Machine.Along System.step System.ClosesServed (System.boot w) evs := by
  have hinv : ∀ (s : System D) ev s', s.Tracked → s.step ev = some s' → s'.Tracked :=
    fun _ _ _ hs h => hs.step h
  have hiff : ∀ (s : System D) ev s', s.Tracked → AppliedAlong s.tagged →
      s.step ev = some s' → (AppliedAlong s'.tagged ↔ s.ClosesServed ev) :=
    fun _ _ _ hs happlied h =>
      ⟨hs.closesServed h, fun hcloses => hs.appliedAlong_step happlied hcloses h⟩
  have hstuck : ∀ (s : System D) ev, s.Tracked → s.step ev = none → s.ClosesServed ev := by
    rintro s ev - hnone request now ⟨target, targetSeq, stage⟩ rfl hcall hstage
    obtain rfl : stage = .sent true := hstage
    simp [System.step, hcall] at hnone
  have hboot : AppliedAlong (System.boot w).tagged := by
    intro pre request target targetSeq now hpre
    exact absurd (List.prefix_nil.mp hpre) (by simp)
  exact Machine.always_iff_along hinv hiff hstuck (System.tracked_boot w) hboot evs

end

/-- An agent with one commit, and a rollback to it that is closed while its message is in the
inbox. -/
def closedEarly : List (SystemEvent (List ℕ)) :=
  [.spawn 0 10 sampleParams [0, 0, 0, 0], .act 0 .start, .post 0 (.data [] none), .deliver 0 [],
    .act 0 (.host [0, 0, 0, 0] .commitBarrier), .act 0 (.ret [0, 0, 0, 0]),
    .rollbackOpen 0 10 0 ⟨1, 1⟩, .rollbackSend 0 (some 0), .rollbackClose 0 ⟨2, 2⟩]

/-- The last write is a `CompensationClose` with the outcome `Applied`, and nothing has been
rolled back. -/
theorem close_before_rollback :
    ∃ s : System (List ℕ), Machine.run System.step (System.boot Actor.blankWorld) closedEarly =
      some s ∧ ¬ AppliedAlong s.tagged := by
  have hrun : (Machine.run System.step (System.boot Actor.blankWorld) closedEarly).any (fun s =>
      decide (s.tagged.getLast? = some
        (.append .scheduler (compensationClose 10 0 0x00 ⟨2, 2⟩), some 0)) &&
      (entriesOf (s.tagged.map Prod.fst)).all fun e => !decide (e.HasType .schedulerRollback)) =
      true := by
    decide +kernel
  obtain ⟨s, hs, hcheck⟩ := (Option.any_eq_true _ _).mp hrun
  obtain ⟨hlast, hnone⟩ := Bool.and_eq_true_iff.mp hcheck
  refine ⟨s, hs, fun happlied => ?_⟩
  have hsplit := List.dropLast_append_getLast? _ (of_decide_eq_true hlast)
  obtain ⟨e, hmem, -, env, -, -, hemit, htype, -⟩ :=
    happlied _ 0 10 0 ⟨2, 2⟩ ⟨[], (List.append_nil _).trans hsplit⟩
  have hentry : e ∈ entriesOf (s.tagged.map Prod.fst) :=
    List.mem_filterMap.mpr
      ⟨_, List.mem_map.mpr ⟨_, List.dropLast_subset _ hmem, rfl⟩, rfl⟩
  have hno := List.all_eq_true.mp hnone e hentry
  have hyes : e.HasType .schedulerRollback := ⟨env, hemit, htype⟩
  simp [hyes] at hno

end Torpor
