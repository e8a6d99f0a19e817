import Torpor.Fleet.Driver
import Torpor.Scheduler.Registry

/-!
# Routes of the Fleet Driver

The part of `FleetDriver` that carries out what a router decides: the guard on the tenant of
a receiver, the guard on the provenance of a cause, and the members that a factory builds.

What a factory answers is an argument of `execute` (`Materialize`), so that it may answer
differently each time. The messages that a call hands to the scheduler are part of its
outcome (`Executed.sent`), since the scheduler of the model has no inboxes.

## Main results

* `RoutingDriver.execute_cases`: a route does nothing, or sends one message past the guards,
  or registers a member and sends it one message.
-/

namespace Torpor

variable {D : Type}

/-- `FleetEvent`, with the case that does not come from the log. -/
inductive RouterEvent (D : Type)
  | reported (event : FleetEvent D)
  | deadline (agent : AgentId)
  deriving DecidableEq, Repr

/-- `Route`; a `CauseRef` is the identifier that it wraps. -/
inductive Route (D : Type)
  | sendRoot (target : AgentId) (payload : List UInt8)
  | sendCaused (target : AgentId) (payload : List UInt8) (cause : D)
  | close (agent : AgentId)
  | spawn (templateIdx : ℕ) (child : AgentId) (payload : List UInt8) (cause : D)
  | done
  deriving DecidableEq, Repr

/-- `FleetError`; the reason of a routing failure is a text in the source. -/
inductive FleetError
  | crossTenantRefused
  | unknownCause
  | spawnUnsupported
  | spawnRefused
  | unknownTemplate
  | routing
  deriving DecidableEq, Repr

/-- What a router is shown besides the event. -/
structure Ctx where
  tenant : TenantId
  expected : List AgentId
  deriving DecidableEq, Repr

/-- `Router`, with its own state. -/
structure Router (R D : Type) where
  onEvent : R → RouterEvent D → Ctx → List (Route D) × R

/-- `MemberFactory`, less `materialize`. -/
structure MemberFactory where
  capacity : ℕ
  deriving DecidableEq, Repr

/-- How `materialize` and the future that it returns end. -/
inductive Materialize
  | unknownTemplate
  | failed
  | built (inst : ActorInstance)
  deriving DecidableEq, Repr

/-- `FleetDriver`, with the fields that its routes need. The `tx` of a member is the task that
it reaches. -/
structure RoutingDriver (D : Type) extends FleetDriver D where
  tenant : TenantId
  factory : Option MemberFactory
  members : AList fun _ : AgentId => TaskId

/-- A message handed to the scheduler by `send` or `send_caused_by`, and whether it reached
the inbox of its target. -/
structure Sent (D : Type) where
  target : AgentId
  payload : List UInt8
  cause : Option D
  delivered : Bool
  deriving DecidableEq, Repr

/-- The outcome of a route. -/
structure Executed (D : Type) where
  result : Except FleetError Unit
  driver : RoutingDriver D
  scheduler : Scheduler D
  sent : List (Sent D)

namespace RoutingDriver

/-- `FleetDriver::new`. -/
def new (tenant : TenantId) (expected : List AgentId) : RoutingDriver D :=
  { FleetDriver.new expected ∅ with tenant, factory := none, members := ∅ }

/-- `ctx`. -/
def ctx (d : RoutingDriver D) : Ctx := ⟨d.tenant, d.expected⟩

/-- `watch_emit`. -/
def watchEmit (d : RoutingDriver D) (emitType : UInt8) : RoutingDriver D :=
  { d with watchedEmits := insert emitType d.watchedEmits }

/-- `with_factory`. -/
def withFactory (d : RoutingDriver D) (factory : MemberFactory) : RoutingDriver D :=
  { d with factory := some factory }.watchEmit EmitType.event.asU8

/-- `tenant_ok`. -/
def tenantOk (d : RoutingDriver D) (scheduler : Scheduler D) (target : AgentId) : Bool :=
  scheduler.registry.tenantOf target == some d.tenant

/-- Hand a message to the scheduler, as the last act of a route. -/
def send (d : RoutingDriver D) (scheduler : Scheduler D) (target : AgentId)
    (payload : List UInt8) (cause : Option D) : Executed D :=
  { result := if scheduler.send target then .ok () else .error .routing
    driver := d
    scheduler
    sent := [⟨target, payload, cause, scheduler.send target⟩] }

/-- A route that ends before it has done anything. -/
def leave (d : RoutingDriver D) (scheduler : Scheduler D) (result : Except FleetError Unit) :
    Executed D :=
  ⟨result, d, scheduler, []⟩

variable [LinearOrder D]

/-- `cause_for`. -/
def causeFor (d : RoutingDriver D) (log : CausalLog D) (faults : ReadFaults D) (actionId : D) :
    Option D × RoutingDriver D :=
  if faults.get actionId then (none, d)
  else match log.get actionId with
    | none => (none, d)
    | some _ => (some actionId, { d with emitted := insert actionId d.emitted })

/-- `execute`; `none` when the registration of a member panics. -/
def execute (d : RoutingDriver D) (route : Route D) (scheduler : Scheduler D)
    (answer : Materialize) : Option (Executed D) :=
  match route with
  | .sendRoot target payload =>
      if !d.tenantOk scheduler target then
        some (d.leave scheduler (.error .crossTenantRefused))
      else some (d.send scheduler target payload none)
  | .sendCaused target payload cause =>
      if !d.tenantOk scheduler target then
        some (d.leave scheduler (.error .crossTenantRefused))
      else if cause ∉ d.emitted then some (d.leave scheduler (.error .unknownCause))
      else some (d.send scheduler target payload (some cause))
  | .spawn _ child payload cause =>
      if cause ∉ d.emitted then some (d.leave scheduler (.error .unknownCause))
      else match d.factory with
        | none => some (d.leave scheduler (.error .spawnUnsupported))
        | some factory =>
            if d.members.entries.length ≥ factory.capacity then
              some (d.leave scheduler (.error .spawnRefused))
            else match answer with
              | .unknownTemplate => some (d.leave scheduler (.error .unknownTemplate))
              | .failed => some (d.leave scheduler (.error .routing))
              | .built inst =>
                  (scheduler.register inst).map fun scheduler' =>
                    { d with members := d.members.insert child scheduler.nextTask }.send
                      scheduler' child payload (some cause)
  | .close _ => some (d.leave scheduler (.ok ()))
  | .done => some (d.leave scheduler (.ok ()))

end RoutingDriver

/-- The errors that refuse a route. -/
def FleetError.isRefusal : FleetError → Bool
  | .routing => false
  | _ => true

/-- The route introduces a member. -/
def Route.isSpawn : Route D → Bool
  | .spawn .. => true
  | _ => false

/-! ### What a route does -/

section Execute

variable {d : RoutingDriver D} {route : Route D} {scheduler : Scheduler D}
  {answer : Materialize} {x : Executed D}

theorem RoutingDriver.tenantOk_iff {target : AgentId} : d.tenantOk scheduler target = true ↔
    scheduler.registry.tenantOf target = some d.tenant := by
  rw [tenantOk, beq_iff_eq]

theorem RoutingDriver.send_result (target : AgentId) (payload : List UInt8) (cause : Option D)
    {e : FleetError} (h : (d.send scheduler target payload cause).result = .error e) :
    e.isRefusal = false := by
  simp only [send] at h
  split_ifs at h
  obtain rfl := Except.error.inj h
  rfl

variable [LinearOrder D]

/-- **What a route does.** It leaves everything as it is and sends nothing; or it sends one
message, to an agent of the tenant of the driver and with a cause that the driver has seen; or
it registers a member below the capacity of the factory and sends one message. -/
theorem RoutingDriver.execute_cases (h : d.execute route scheduler answer = some x) :
    (x.driver = d ∧ x.scheduler = scheduler ∧ x.sent = []) ∨
      (route.isSpawn = false ∧ ∃ target payload cause,
        x = d.send scheduler target payload cause ∧
        scheduler.registry.tenantOf target = some d.tenant ∧ ∀ c ∈ cause, c ∈ d.emitted) ∨
      (route.isSpawn = true ∧ ∃ factory child payload cause scheduler',
        d.factory = some factory ∧ d.members.entries.length < factory.capacity ∧
        cause ∈ d.emitted ∧
        x = { d with members := d.members.insert child scheduler.nextTask }.send scheduler' child
          payload (some cause)) := by
  cases route with
  | sendRoot target payload =>
      simp only [execute] at h
      split_ifs at h with htenant
      · obtain rfl := Option.some.inj h
        exact .inl ⟨rfl, rfl, rfl⟩
      · obtain rfl := Option.some.inj h
        rw [Bool.not_eq_true', Bool.not_eq_false, tenantOk_iff] at htenant
        exact .inr (.inl ⟨rfl, target, payload, none, rfl, htenant, by simp⟩)
  | sendCaused target payload cause =>
      simp only [execute] at h
      split_ifs at h with htenant hcause
      · obtain rfl := Option.some.inj h
        exact .inl ⟨rfl, rfl, rfl⟩
      · obtain rfl := Option.some.inj h
        rw [Bool.not_eq_true', Bool.not_eq_false, tenantOk_iff] at htenant
        exact .inr (.inl ⟨rfl, target, payload, some cause, rfl, htenant,
          by simpa using hcause⟩)
      · obtain rfl := Option.some.inj h
        exact .inl ⟨rfl, rfl, rfl⟩
  | close agent =>
      obtain rfl := Option.some.inj h
      exact .inl ⟨rfl, rfl, rfl⟩
  | spawn templateIdx child payload cause =>
      simp only [execute] at h
      split_ifs at h with hcause
      · rcases hfactory : d.factory with _ | factory
        · rw [hfactory] at h
          obtain rfl := Option.some.inj h
          exact .inl ⟨rfl, rfl, rfl⟩
        · rw [hfactory] at h
          simp only at h
          split_ifs at h with hfull
          · obtain rfl := Option.some.inj h
            exact .inl ⟨rfl, rfl, rfl⟩
          · cases answer with
            | unknownTemplate =>
                obtain rfl := Option.some.inj h
                exact .inl ⟨rfl, rfl, rfl⟩
            | failed =>
                obtain rfl := Option.some.inj h
                exact .inl ⟨rfl, rfl, rfl⟩
            | built inst =>
                obtain ⟨scheduler', -, rfl⟩ := Option.map_eq_some_iff.mp h
                exact .inr (.inr ⟨rfl, factory, child, payload, cause, scheduler', rfl,
                  not_le.mp hfull, hcause, rfl⟩)
      · obtain rfl := Option.some.inj h
        exact .inl ⟨rfl, rfl, rfl⟩
  | done =>
      obtain rfl := Option.some.inj h
      exact .inl ⟨rfl, rfl, rfl⟩

end Execute

/-! ### What a driver has seen -/

section Seen

variable [LinearOrder D] (log : CausalLog D) (faults : ReadFaults D) (agent : AgentId)

/-- From `d` to `d'` the driver has only learnt of entries of the log. -/
def FleetDriver.LearnsFrom (log : CausalLog D) (d d' : FleetDriver D) : Prop :=
  ∀ c ∈ d'.emitted, c ∈ d.emitted ∨ ∃ e, log.get c = some e

variable {log faults}

theorem FleetDriver.LearnsFrom.refl (d : FleetDriver D) : LearnsFrom log d d :=
  fun _ hc => .inl hc

theorem FleetDriver.LearnsFrom.trans {d d' d'' : FleetDriver D} (h : LearnsFrom log d d')
    (h' : LearnsFrom log d' d'') : LearnsFrom log d d'' :=
  fun c hc => (h' c hc).elim (h c) .inr

/-- An entry whose envelope is read is in the log. -/
theorem CausalLog.get_of_envelope {aid : D} {env : EmitEnvelope}
    (h : log.envelope faults aid = some env) : ∃ e, log.get aid = some e := by
  simp only [envelope] at h
  split_ifs at h
  obtain ⟨e, he, -⟩ := Option.bind_eq_some_iff.mp h
  exact ⟨e, he⟩

/-- To learn of an entry whose envelope has been read. -/
theorem FleetDriver.learnsFrom_insert {d d' : FleetDriver D} {aid : D} {env : EmitEnvelope}
    (henv : log.envelope faults aid = some env) (hd : d'.emitted = insert aid d.emitted) :
    LearnsFrom log d d' := by
  intro c hc
  rw [hd] at hc
  rcases Finset.mem_insert.mp hc with rfl | hc
  · exact .inr (CausalLog.get_of_envelope henv)
  · exact .inl hc

theorem FleetDriver.pollEntry_learns (d : FleetDriver D) (aid : D) :
    LearnsFrom log d (d.pollEntry log faults agent aid).2 := by
  unfold pollEntry
  rcases henv : log.envelope faults aid with _ | env
  · exact .refl d
  · simp only
    split_ifs
    · exact learnsFrom_insert henv rfl
    · exact learnsFrom_insert henv rfl
    · exact .refl d

theorem FleetDriver.pollLoop_learns (ids : List D) (d : FleetDriver D) :
    LearnsFrom log d (d.pollLoop log faults agent ids).2 := by
  induction ids generalizing d with
  | nil => exact .refl d
  | cons aid rest ih => exact (d.pollEntry_learns agent aid).trans (ih _)

theorem FleetDriver.pollAgents_learns (agents : List AgentId) (d : FleetDriver D) :
    LearnsFrom log d (d.pollAgents log faults agents).2 := by
  induction agents generalizing d with
  | nil => exact .refl d
  | cons agent agents ih =>
      have hagent : LearnsFrom log d (d.pollAgent log faults agent).2 :=
        pollLoop_learns agent _ (d.setCursor agent (d.cursor agent))
      exact hagent.trans (ih _)

/-- A poll learns of entries of the log only. -/
theorem FleetDriver.pollEvents_learns (d : FleetDriver D) :
    LearnsFrom log d (d.pollEvents log faults).2 :=
  pollAgents_learns d.expected d

theorem FleetDriver.waitLoop_learns (ids : List D) (d : FleetDriver D) :
    LearnsFrom log d (d.waitLoop log faults agent ids).2 := by
  induction ids generalizing d with
  | nil => exact .refl d
  | cons aid rest ih =>
      simp only [waitLoop]
      rcases henv : log.envelope faults aid with _ | env
      · exact ih (d.setCursor agent (d.cursor agent + 1))
      · simp only
        split_ifs
        · exact learnsFrom_insert henv rfl
        · exact ih (d.setCursor agent (d.cursor agent + 1))

/-- So does a round of `wait_result`. -/
theorem FleetDriver.waitResult_learns (d : FleetDriver D) :
    LearnsFrom log d (d.waitResult log faults agent).2 :=
  waitLoop_learns agent _ (d.setCursor agent (d.cursor agent))

/-- A cause that the runner declares is an entry of the log. -/
theorem RoutingDriver.causeFor_learns (d : RoutingDriver D) (id : D) :
    FleetDriver.LearnsFrom log d.toFleetDriver (d.causeFor log faults id).2.toFleetDriver := by
  unfold causeFor
  split_ifs
  · exact .refl _
  · rcases hget : log.get id with _ | e
    · exact .refl _
    · intro c hc
      rcases Finset.mem_insert.mp hc with rfl | hc
      · exact .inr ⟨e, hget⟩
      · exact .inl hc

/-- Nothing but what the driver has seen changes. -/
theorem RoutingDriver.causeFor_frame (d : RoutingDriver D) (log : CausalLog D)
    (faults : ReadFaults D) (id : D) :
    (d.causeFor log faults id).2.tenant = d.tenant ∧
      (d.causeFor log faults id).2.factory = d.factory ∧
      (d.causeFor log faults id).2.members = d.members := by
  unfold causeFor
  split_ifs
  · exact ⟨rfl, rfl, rfl⟩
  · rcases log.get id with _ | e <;> exact ⟨rfl, rfl, rfl⟩

end Seen

end Torpor
