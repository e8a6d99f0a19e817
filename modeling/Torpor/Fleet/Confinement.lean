import Torpor.Fleet.ExactlyOnce
import Torpor.Fleet.Routes

/-!
# Confinement of a Fleet

A driver, the log and the scheduler it works on, and a router. The runner calls the driver in
any order; a call of `run` is taken step by step, so that agents may append to the log
between any two of them. Every execution of a route is recorded with the log, the scheduler
and the driver that it found.

While a call of `run` is under way it holds the driver, and no other call is possible. What
the runner and the tasks do to the scheduler is not restricted.

## Main results

* `routes_confined`: for every router, in every run, every route that was executed was
  confined (`Execution.Confined`) and the members do not exceed the capacity of the factory.
-/

namespace Torpor

open ContentHash Machine

variable {R D : Type}

/-- The execution of a route. -/
structure Execution (D : Type) where
  log : CausalLog D
  scheduler : Scheduler D
  driver : RoutingDriver D
  route : Route D
  outcome : Executed D

/-- What the loop of `run` does when no route and no event is left. -/
inductive LoopStage
  | poll
  | deadline
  | stop
  deriving DecidableEq, Repr

/-- The loop of `run`: the events and the routes that it has not handled yet. -/
structure FleetLoop (D : Type) where
  events : List (RouterEvent D)
  routes : List (Route D)
  deadlineFired : Bool
  stage : LoopStage

/-- A fleet: `loop` is the call of `run` under way. -/
structure Fleet (R D : Type) where
  log : CausalLog D
  scheduler : Scheduler D
  driver : RoutingDriver D
  router : R
  loop : Option (FleetLoop D)
  executed : List (Execution D)

/-- What a step of the loop meets: reads that fail, the answer of the factory, and whether the
deadlines have passed. -/
structure LoopInput (D : Type) where
  faults : ReadFaults D
  answer : Materialize
  collectDue : Bool
  hardDue : Bool

/-- What can happen next. -/
inductive FleetInput (D : Type)
  | append (e : LogEntry D)
  | others (scheduler : Scheduler D)
  | primeCursor (agent : AgentId) (faults : ReadFaults D)
  | watchEmit (emitType : UInt8)
  | pollEvents (faults : ReadFaults D)
  | waitResult (agent : AgentId) (faults : ReadFaults D)
  | causeFor (actionId : D) (faults : ReadFaults D)
  | execute (route : Route D) (answer : Materialize)
  | run
  | loop (input : LoopInput D)

namespace Fleet

/-- A driver that has just been built, with or without a factory. -/
def init (tenant : TenantId) (expected : List AgentId) (factory : Option MemberFactory)
    (scheduler : Scheduler D) (router : R) : Fleet R D :=
  { log := .empty, scheduler, router, loop := none, executed := []
    driver := factory.elim (.new tenant expected) (RoutingDriver.new tenant expected).withFactory }

/-- The `FleetEvent::Deadline` of every expected agent that has not produced a result. -/
def deadlines (d : FleetDriver D) : List (RouterEvent D) :=
  (d.expected.filter fun agent => agent ∉ d.produced).map .deadline

variable [LinearOrder D]

/-- Execute a route. -/
def exec (s : Fleet R D) (route : Route D) (answer : Materialize) : Option (Fleet R D) :=
  (s.driver.execute route s.scheduler answer).map fun outcome =>
    { s with
      scheduler := outcome.scheduler
      driver := outcome.driver
      executed := ⟨s.log, s.scheduler, s.driver, route, outcome⟩ :: s.executed }

/-- One step of the loop of `run`. -/
def loopStep (router : Router R D) (s : Fleet R D) (loop : FleetLoop D) (i : LoopInput D) :
    Option (Fleet R D) :=
  match loop.routes, loop.events with
  | .done :: _, _ => some { s with loop := none }
  | route :: routes, _ => { s with loop := some { loop with routes } }.exec route i.answer
  | [], event :: events =>
      let (routes, r) := router.onEvent s.router event s.driver.ctx
      some { s with router := r, loop := some { loop with events, routes } }
  | [], [] =>
      match loop.stage with
      | .poll =>
          let (events, driver) := s.driver.pollEvents s.log i.faults
          some { s with
            driver := { s.driver with toFleetDriver := driver }
            loop := some { loop with events := events.map .reported, stage := .deadline } }
      | .deadline =>
          if !loop.deadlineFired && i.collectDue then
            some { s with loop := some { loop with
              events := deadlines s.driver.toFleetDriver, deadlineFired := true, stage := .stop } }
          else some { s with loop := some { loop with stage := .stop } }
      | .stop =>
          some { s with loop := if i.hardDue then none else some { loop with stage := .poll } }

/-- One step. -/
def step (router : Router R D) [ContentHash D] (s : Fleet R D) :
    FleetInput D → Option (Fleet R D)
  | .append e => some { s with log := s.log.append e }
  | .others scheduler => some { s with scheduler }
  | .loop i => s.loop.bind fun loop => s.loopStep router loop i
  | call =>
      if s.loop.isSome then none
      else match call with
        | .primeCursor agent faults =>
            some { s with driver := { s.driver with
              toFleetDriver := s.driver.primeCursor s.log faults agent } }
        | .watchEmit emitType => some { s with driver := s.driver.watchEmit emitType }
        | .pollEvents faults =>
            some { s with driver := { s.driver with
              toFleetDriver := (s.driver.pollEvents s.log faults).2 } }
        | .waitResult agent faults =>
            some { s with driver := { s.driver with
              toFleetDriver := (s.driver.waitResult s.log faults agent).2 } }
        | .causeFor actionId faults =>
            some { s with driver := (s.driver.causeFor s.log faults actionId).2 }
        | .execute route answer => s.exec route answer
        | .run => some { s with loop := some ⟨[], [], false, .poll⟩ }
        | _ => none

end Fleet

/-- An execution was confined to `tenant`: a cause that it passed on is an entry of the log,
a message that was delivered without a spawn went to an agent of the tenant, and a refused
route did nothing. -/
structure Execution.Confined [ContentHash D] [LinearOrder D] (x : Execution D)
    (tenant : TenantId) : Prop where
  provenance : ∀ m ∈ x.outcome.sent, ∀ c ∈ m.cause, ∃ e, x.log.get c = some e ∧ actionId e = c
  sameTenant : x.route.isSpawn = false → ∀ m ∈ x.outcome.sent, m.delivered = true →
    x.scheduler.registry.tenantOf m.target = some tenant
  refused : ∀ e, x.outcome.result = .error e → e.isRefusal = true →
    x.outcome.scheduler = x.scheduler ∧ x.outcome.driver.members = x.driver.members ∧
      x.outcome.sent = []

namespace Fleet

variable [LinearOrder D] [ContentHash D]

/-- The invariant: the driver has seen entries of the log only, its members are within the
capacity of the factory, and every execution was confined. -/
structure Inv (tenant : TenantId) (factory : Option MemberFactory) (s : Fleet R D) : Prop where
  wellFormed : s.log.WellFormed
  tenant_eq : s.driver.tenant = tenant
  factory_eq : s.driver.factory = factory
  seen : ∀ c ∈ s.driver.emitted, ∃ e, s.log.get c = some e
  capacity : s.driver.members.entries.length ≤ factory.elim 0 MemberFactory.capacity
  confined : ∀ x ∈ s.executed, x.Confined tenant

variable {tenant : TenantId} {factory : Option MemberFactory} {s s' : Fleet R D}

theorem inv_init (tenant : TenantId) (expected : List AgentId) (factory : Option MemberFactory)
    (scheduler : Scheduler D) (router : R) :
    (init tenant expected factory scheduler router).Inv tenant factory := by
  cases factory <;>
    exact ⟨CausalLog.wellFormed_empty, rfl, rfl, fun c hc => (by cases hc), Nat.zero_le _,
      fun x hx => (by cases hx)⟩

/-- The driver learns of entries of the log, and nothing else changes. -/
theorem Inv.learn (h : s.Inv tenant factory) {d : FleetDriver D}
    (hd : FleetDriver.LearnsFrom s.log s.driver.toFleetDriver d) (loop : Option (FleetLoop D)) :
    ({ s with driver := { s.driver with toFleetDriver := d }, loop } : Fleet R D).Inv tenant
      factory :=
  ⟨h.wellFormed, h.tenant_eq, h.factory_eq, fun c hc => (hd c hc).elim (h.seen c) id, h.capacity,
    h.confined⟩

/-- The members after one more, in place of one with the same identifier if there is one. -/
theorem length_entries_insert {β : AgentId → Type} (m : AList β) (a : AgentId) (b : β a) :
    (m.insert a b).entries.length ≤ m.entries.length + 1 := by
  rw [AList.entries_insert, List.length_cons]
  exact Nat.succ_le_succ (List.kerase_sublist a m.entries).length_le

/-- **The execution of a route** keeps the invariant and is confined. -/
theorem Inv.exec (h : s.Inv tenant factory) {route : Route D} {answer : Materialize}
    (hexec : s.exec route answer = some s') : s'.Inv tenant factory := by
  obtain ⟨outcome, houtcome, rfl⟩ := Option.map_eq_some_iff.mp hexec
  have hcite : ∀ c ∈ s.driver.emitted, ∃ e, s.log.get c = some e ∧ actionId e = c :=
    fun c hc => (h.seen c hc).imp fun e he => ⟨he, (h.wellFormed.get_eq c e he).symm⟩
  rcases RoutingDriver.execute_cases houtcome with ⟨hdriver, hscheduler, hsent⟩ |
    ⟨hroute, target, payload, cause, rfl, htenant, hcause⟩ |
    ⟨hroute, factory', child, payload, cause, scheduler', hfactory, hroom, hcause, rfl⟩
  · refine ⟨h.wellFormed, ?_, ?_, ?_, ?_, ?_⟩
    · exact hdriver ▸ h.tenant_eq
    · exact hdriver ▸ h.factory_eq
    · exact hdriver ▸ h.seen
    · exact hdriver ▸ h.capacity
    · rintro x (_ | ⟨_, hx⟩)
      · constructor
        · simp [hsent]
        · simp [hsent]
        · exact fun _ _ _ => ⟨hscheduler, by rw [hdriver], hsent⟩
      · exact h.confined x hx
  · refine ⟨h.wellFormed, h.tenant_eq, h.factory_eq, h.seen, h.capacity, ?_⟩
    rintro x (_ | ⟨_, hx⟩)
    · constructor
      · intro m hm c hc
        obtain rfl := List.mem_singleton.mp hm
        exact hcite c (hcause c hc)
      · intro _ m hm _
        obtain rfl := List.mem_singleton.mp hm
        exact htenant.trans (congrArg some h.tenant_eq)
      · intro e he hrefusal
        rw [RoutingDriver.send_result target payload cause he] at hrefusal
        cases hrefusal
    · exact h.confined x hx
  · refine ⟨h.wellFormed, h.tenant_eq, h.factory_eq, h.seen, ?_, ?_⟩
    · have hle := length_entries_insert s.driver.members child s.scheduler.nextTask
      rw [← h.factory_eq, hfactory]
      exact hle.trans hroom
    · rintro x (_ | ⟨_, hx⟩)
      · constructor
        · intro m hm c hc
          obtain rfl := List.mem_singleton.mp hm
          obtain rfl := Option.some.inj hc
          exact hcite cause hcause
        · intro hno
          exact absurd hroute (by simp [hno])
        · intro e he hrefusal
          rw [RoutingDriver.send_result _ _ _ he] at hrefusal
          cases hrefusal
      · exact h.confined x hx

/-- The router and the loop do not matter. -/
theorem Inv.reroute (h : s.Inv tenant factory) (router : R) (loop : Option (FleetLoop D)) :
    ({ s with router, loop } : Fleet R D).Inv tenant factory :=
  ⟨h.wellFormed, h.tenant_eq, h.factory_eq, h.seen, h.capacity, h.confined⟩

/-- A step of the loop of `run` keeps the invariant, whatever the router decides. -/
theorem Inv.loopStep (h : s.Inv tenant factory) {router : Router R D} {loop : FleetLoop D}
    {i : LoopInput D} (hstep : s.loopStep router loop i = some s') : s'.Inv tenant factory := by
  obtain ⟨events, routes, fired, stage⟩ := loop
  cases routes with
  | cons route routes =>
      cases route with
      | done =>
          obtain rfl := Option.some.inj hstep
          exact h.reroute s.router none
      | _ => exact (h.reroute s.router _).exec hstep
  | nil =>
      cases events with
      | cons event events =>
          obtain rfl := Option.some.inj hstep
          exact h.reroute _ _
      | nil =>
          cases stage with
          | poll =>
              obtain rfl := Option.some.inj hstep
              exact h.learn (FleetDriver.pollEvents_learns _) _
          | deadline =>
              simp only [Fleet.loopStep] at hstep
              split_ifs at hstep
              all_goals
                obtain rfl := Option.some.inj hstep
                exact h.reroute s.router _
          | stop =>
              obtain rfl := Option.some.inj hstep
              exact h.reroute s.router _

/-- Every step keeps the invariant. -/
theorem Inv.step (h : s.Inv tenant factory) {router : Router R D} {i : FleetInput D}
    (hstep : s.step router i = some s') : s'.Inv tenant factory := by
  cases i with
  | append e =>
      obtain rfl := Option.some.inj hstep
      refine ⟨h.wellFormed.append e, h.tenant_eq, h.factory_eq, fun c hc => ?_, h.capacity,
        h.confined⟩
      simp only
      rw [CausalLog.get_append]
      split_ifs
      · exact ⟨e, rfl⟩
      · exact h.seen c hc
  | others scheduler =>
      obtain rfl := Option.some.inj hstep
      exact ⟨h.wellFormed, h.tenant_eq, h.factory_eq, h.seen, h.capacity, h.confined⟩
  | loop input =>
      obtain ⟨loop, -, hloop⟩ := Option.bind_eq_some_iff.mp hstep
      exact h.loopStep hloop
  | primeCursor agent faults =>
      simp only [Fleet.step] at hstep
      split_ifs at hstep
      obtain rfl := Option.some.inj hstep
      exact h.learn (d := s.driver.primeCursor s.log faults agent) (fun _ hc => .inl hc) s.loop
  | watchEmit emitType =>
      simp only [Fleet.step] at hstep
      split_ifs at hstep
      obtain rfl := Option.some.inj hstep
      exact ⟨h.wellFormed, h.tenant_eq, h.factory_eq, h.seen, h.capacity, h.confined⟩
  | pollEvents faults =>
      simp only [Fleet.step] at hstep
      split_ifs at hstep
      obtain rfl := Option.some.inj hstep
      exact h.learn (FleetDriver.pollEvents_learns _) s.loop
  | waitResult agent faults =>
      simp only [Fleet.step] at hstep
      split_ifs at hstep
      obtain rfl := Option.some.inj hstep
      exact h.learn (FleetDriver.waitResult_learns agent _) s.loop
  | causeFor actionId faults =>
      simp only [Fleet.step] at hstep
      split_ifs at hstep
      obtain rfl := Option.some.inj hstep
      obtain ⟨htenant, hfactory, hmembers⟩ :=
        s.driver.causeFor_frame s.log faults actionId
      refine ⟨h.wellFormed, htenant.trans h.tenant_eq, hfactory.trans h.factory_eq,
        fun c hc => ?_, ?_, h.confined⟩
      · exact (s.driver.causeFor_learns actionId c hc).elim (h.seen c) id
      · exact hmembers ▸ h.capacity
  | execute route answer =>
      simp only [Fleet.step] at hstep
      split_ifs at hstep
      exact h.exec hstep
  | run =>
      simp only [Fleet.step] at hstep
      split_ifs at hstep
      obtain rfl := Option.some.inj hstep
      exact h.reroute s.router _

end Fleet

/-- **Confinement.** For every router and every run of a driver and its environment, every
execution of a route was confined to the tenant of the driver, and the members do not exceed
the capacity of the factory. -/
theorem routes_confined [LinearOrder D] [ContentHash D] (router : Router R D) (r : R)
    (tenant : TenantId) (expected : List AgentId) (factory : Option MemberFactory)
    (scheduler : Scheduler D) (inputs : List (FleetInput D)) (s : Fleet R D)
    (hrun : Machine.run (Fleet.step router) (.init tenant expected factory scheduler r) inputs =
      some s) :
    (∀ x ∈ s.executed, x.Confined tenant) ∧
      ∀ f ∈ factory, s.driver.members.entries.length ≤ f.capacity := by
  have hinv : s.Inv tenant factory := Machine.run_invariant
    (fun _ _ _ h hstep => h.step hstep)
    (Fleet.inv_init tenant expected factory scheduler r) hrun
  refine ⟨hinv.confined, fun f hf => ?_⟩
  have hcapacity := hinv.capacity
  rwa [Option.mem_def.mp hf] at hcapacity

/-- A router that answers a result with a message to the agent `1`, one to the agent `2`, and
two members. -/
def sampleRouter : Router Unit (List ℕ) where
  onEvent _ event _ :=
    match event with
    | .reported (.result _ cause _) =>
        ([.sendCaused 1 [] cause, .sendRoot 2 [], .spawn 0 3 [] cause, .spawn 0 4 [] cause,
          .done], ())
    | _ => ([], ())

/-- A fleet of the tenant `7` with room for one member; the agent `2` is of another tenant. -/
def sampleFleet : Fleet Unit (List ℕ) :=
  .init 7 [1] (some ⟨1⟩) (((Scheduler.new 0).enroll ⟨1, 7, 1⟩).enroll ⟨2, 8, 2⟩) ()

/-- A result is appended, then `run` polls and follows the router to the end. -/
def sampleInputs : List (FleetInput (List ℕ)) :=
  .append (sampleEntry .actionResult 10) :: .run ::
    List.replicate 7 (.loop ⟨.none, .built ⟨3, 7, 3⟩, false, false⟩)

/-- In the run of `sampleInputs` the message to the agent `1` and the first member pass, the
message to the agent `2` and the second member are refused, and all four are confined. -/
theorem routes_confined_sampleInputs :
    ∃ s : Fleet Unit (List ℕ), Machine.run (Fleet.step sampleRouter) sampleFleet sampleInputs =
        some s ∧
      s.executed.map (fun x => x.outcome.result) =
        [.error .spawnRefused, .ok (), .error .crossTenantRefused, .ok ()] ∧
      (∀ x ∈ s.executed, x.Confined 7) ∧ s.driver.members.entries.length ≤ 1 := by
  have hrun : ((Machine.run (Fleet.step sampleRouter) sampleFleet sampleInputs).any
      fun s : Fleet Unit (List ℕ) => decide (s.executed.map (fun x => x.outcome.result) =
        [.error .spawnRefused, .ok (), .error .crossTenantRefused, .ok ()])) = true := by
    decide +kernel
  obtain ⟨s, hs, hresults⟩ := (Option.any_eq_true _ _).mp hrun
  obtain ⟨hconfined, hcapacity⟩ := routes_confined sampleRouter () 7 [1] (some ⟨1⟩) _
    sampleInputs s hs
  exact ⟨s, hs, of_decide_eq_true hresults, hconfined, hcapacity ⟨1⟩ rfl⟩

end Torpor
