import Torpor.Fleet.Collectors
import Torpor.Fleet.Confinement

/-!
# What a Fleet Does on Behalf of its Router

Between the log and a router stands the driver, which reads events from the one and carries out
the routes of the other. In a run of a fleet everything that the router has been shown is in the
log, and everything that the driver carries out comes from the runner or from an answer of the
router to what it has been shown.

## Main results

* `Router.answers`: what a router decides on a list of events, and where it ends.
* `Fleet.Follows`: the history of a router in a fleet.
* `Fleet.follows_run`: every run has one, for every router.
-/

namespace Torpor

open ContentHash

variable {R D : Type}

/-! ### The history of a router -/

/-- The routes that a router decides on a list of events, each with its context, and the state
that it ends in. -/
def Router.answers (router : Router R D) (r : R) : List (RouterEvent D × Ctx) → List (Route D) × R
  | [] => ([], r)
  | (ev, ctx) :: rest =>
      let (routes, r) := router.onEvent r ev ctx
      let (routes', r) := router.answers r rest
      (routes ++ routes', r)

theorem Router.answers_concat (router : Router R D) (r : R) (hist : List (RouterEvent D × Ctx))
    (ev : RouterEvent D) (ctx : Ctx) :
    router.answers r (hist ++ [(ev, ctx)]) =
      ((router.answers r hist).1 ++ (router.onEvent (router.answers r hist).2 ev ctx).1,
        (router.onEvent (router.answers r hist).2 ev ctx).2) := by
  induction hist generalizing r with
  | nil => simp [answers]
  | cons x hist ih =>
      obtain ⟨ev', ctx'⟩ := x
      simp only [List.cons_append, answers, ih, List.append_assoc]

/-- A property of the state that every answer keeps. -/
theorem Router.answers_invariant {router : Router R D} {P : R → Prop}
    (hstep : ∀ r ev ctx, P r → P (router.onEvent r ev ctx).2) {r : R} (hr : P r)
    (hist : List (RouterEvent D × Ctx)) : P (router.answers r hist).2 := by
  induction hist generalizing r with
  | nil => exact hr
  | cons x hist ih => exact ih (hstep r x.1 x.2 hr)

/-- Every route was decided on one of the events, in a state that the ones before it led to. -/
theorem Router.mem_answers {router : Router R D} {r : R} {hist : List (RouterEvent D × Ctx)}
    {route : Route D} (h : route ∈ (router.answers r hist).1) :
    ∃ pre ev ctx, (ev, ctx) ∈ hist ∧ pre <+: hist ∧
      route ∈ (router.onEvent (router.answers r pre).2 ev ctx).1 := by
  induction hist using List.reverseRecOn with
  | nil => cases h
  | append_singleton hist x ih =>
      obtain ⟨ev, ctx⟩ := x
      rw [answers_concat] at h
      rcases List.mem_append.mp h with h | h
      · obtain ⟨pre, ev', ctx', hmem, hpre, hroute⟩ := ih h
        exact ⟨pre, ev', ctx', List.mem_append_left _ hmem,
          hpre.trans (List.prefix_append hist _), hroute⟩
      · exact ⟨hist, ev, ctx, List.mem_append_right _ (List.mem_singleton_self _),
          List.prefix_append hist _, h⟩

/-! ### Events that the log attests -/

/-- The log has an entry of the agent under the identifier, with an emission of the type and the
payload. -/
def CausalLog.Attests [LinearOrder D] (log : CausalLog D) (agent : AgentId) (cause : D)
    (emitType : UInt8) (payload : List UInt8) : Prop :=
  ∃ e env, log.get cause = some e ∧ e.agentId = agent ∧ e.emitPayload = some env ∧
    env.emitType = emitType ∧ env.payload = payload

/-- What an event says is in the log. -/
def RouterEvent.Told [LinearOrder D] (log : CausalLog D) (watched : Finset UInt8) :
    RouterEvent D → Prop
  | .reported (.result agent cause payload) =>
      log.Attests agent cause EmitType.actionResult.asU8 payload
  | .reported (.emit agent cause emitType payload) =>
      emitType ≠ EmitType.actionResult.asU8 ∧ emitType ∈ watched ∧
        log.Attests agent cause emitType payload
  | .deadline _ => True

section Told

variable [LinearOrder D] {log : CausalLog D} {watched : Finset UInt8}

theorem RouterEvent.Told.watch {ev : RouterEvent D} (h : ev.Told log watched)
    {watched' : Finset UInt8} (hle : watched ⊆ watched') : ev.Told log watched' := by
  rcases ev with (⟨agent, cause, payload⟩ | ⟨agent, cause, emitType, payload⟩) | agent
  · exact h
  · exact ⟨h.1, hle h.2.1, h.2.2⟩
  · trivial

variable [ContentHash D]

theorem CausalLog.Attests.append (hlog : log.WellFormed) {agent : AgentId} {cause : D}
    {emitType : UInt8} {payload : List UInt8} (h : log.Attests agent cause emitType payload)
    (e : LogEntry D) : (log.append e).Attests agent cause emitType payload := by
  obtain ⟨e', env, hget, hrest⟩ := h
  exact ⟨e', env, hlog.get_append_of_some e hget, hrest⟩

/-- A log that grows goes on attesting what it attested. -/
theorem RouterEvent.Told.append (hlog : log.WellFormed) {ev : RouterEvent D}
    (h : ev.Told log watched) (e : LogEntry D) : ev.Told (log.append e) watched := by
  rcases ev with (⟨agent, cause, payload⟩ | ⟨agent, cause, emitType, payload⟩) | agent
  · exact CausalLog.Attests.append hlog h e
  · exact ⟨h.1, h.2.1, CausalLog.Attests.append hlog h.2.2 e⟩
  · trivial

variable {faults : ReadFaults D} {agent : AgentId}

/-- An envelope that is read of an agent's entry is attested. -/
theorem CausalLog.attests_of_envelope (hlog : log.WellFormed) {aid : D}
    (haid : aid ∈ log.idsOf faults agent) {env : EmitEnvelope}
    (henv : log.envelope faults aid = some env) :
    log.Attests agent aid env.emitType env.payload := by
  simp only [idsOf] at haid
  simp only [envelope] at henv
  split_ifs at haid henv
  · cases haid
  · obtain ⟨e, hget, -, hagent⟩ := hlog.get_of_mem haid
    rw [hget, Option.bind_some] at henv
    exact ⟨e, env, hget, hagent, henv, rfl, rfl⟩

/-- One entry: what is watched does not change, and what is reported is attested. -/
theorem FleetDriver.pollEntry_told (hlog : log.WellFormed) (d : FleetDriver D) {aid : D}
    (haid : aid ∈ log.idsOf faults agent) :
    (d.pollEntry log faults agent aid).2.watchedEmits = d.watchedEmits ∧
      ∀ ev ∈ (d.pollEntry log faults agent aid).1,
        (RouterEvent.reported ev).Told log d.watchedEmits := by
  unfold pollEntry
  rcases henv : log.envelope faults aid with _ | env
  · exact ⟨rfl, fun ev hev => (by cases hev)⟩
  · have hattests := CausalLog.attests_of_envelope hlog haid henv
    dsimp only
    by_cases hresult : env.emitType = EmitType.actionResult.asU8
    · rw [if_pos hresult]
      refine ⟨rfl, fun ev hev => ?_⟩
      obtain rfl := Option.some.inj hev
      rwa [hresult] at hattests
    · rw [if_neg hresult]
      by_cases hwatched : env.emitType ∈ d.watchedEmits
      · rw [watchedEmits_setCursor, if_pos hwatched]
        refine ⟨rfl, fun ev hev => ?_⟩
        obtain rfl := Option.some.inj hev
        exact ⟨hresult, hwatched, hattests⟩
      · rw [watchedEmits_setCursor, if_neg hwatched]
        exact ⟨rfl, fun ev hev => (by cases hev)⟩

theorem FleetDriver.pollLoop_told (hlog : log.WellFormed) (d : FleetDriver D) {ids : List D}
    (hids : ∀ aid ∈ ids, aid ∈ log.idsOf faults agent) :
    (d.pollLoop log faults agent ids).2.watchedEmits = d.watchedEmits ∧
      ∀ ev ∈ (d.pollLoop log faults agent ids).1,
        (RouterEvent.reported ev).Told log d.watchedEmits := by
  induction ids generalizing d with
  | nil => exact ⟨rfl, fun ev hev => (by cases hev)⟩
  | cons aid rest ih =>
      obtain ⟨hwatched, htold⟩ := pollEntry_told hlog d (hids aid List.mem_cons_self)
      obtain ⟨hwatched', htold'⟩ := ih (d.pollEntry log faults agent aid).2
        fun id hid => hids id (List.mem_cons_of_mem aid hid)
      refine ⟨hwatched'.trans hwatched, fun ev hev => ?_⟩
      rcases List.mem_append.mp hev with hev | hev
      · exact htold ev (Option.mem_toList.mp hev)
      · exact hwatched ▸ htold' ev hev

variable (faults) in
theorem FleetDriver.pollAgents_told (hlog : log.WellFormed) (agents : List AgentId)
    (d : FleetDriver D) :
    (d.pollAgents log faults agents).2.watchedEmits = d.watchedEmits ∧
      ∀ ev ∈ (d.pollAgents log faults agents).1,
        (RouterEvent.reported ev).Told log d.watchedEmits := by
  induction agents generalizing d with
  | nil => exact ⟨rfl, fun ev hev => (by cases hev)⟩
  | cons agent agents ih =>
      obtain ⟨hwatched, htold⟩ : (d.pollAgent log faults agent).2.watchedEmits = d.watchedEmits ∧
          ∀ ev ∈ (d.pollAgent log faults agent).1,
            (RouterEvent.reported ev).Told log d.watchedEmits :=
        pollLoop_told hlog (d.setCursor agent (d.cursor agent)) fun _ => List.mem_of_mem_drop
      obtain ⟨hwatched', htold'⟩ := ih (d.pollAgent log faults agent).2
      refine ⟨hwatched'.trans hwatched, fun ev hev => ?_⟩
      rcases List.mem_append.mp hev with hev | hev
      · exact htold ev hev
      · exact hwatched ▸ htold' ev hev

end Told

/-! ### Following a router -/

/-- The route that the runner hands to the driver itself. -/
def FleetInput.handed : FleetInput D → Option (Route D)
  | .execute route _ => some route
  | _ => none

namespace Fleet

variable [LinearOrder D] [ContentHash D]

/-- The routes of a fleet that are still to be carried out. -/
def pending (s : Fleet R D) : List (Route D) := s.loop.elim [] FleetLoop.routes

/-- The fleet follows a router that began as `r`, and routes of the runner: the router was shown
`hist`, which the log attests, and every route was handed over or decided on it. -/
structure Follows (router : Router R D) (r : R) (handed : List (Route D))
    (hist : List (RouterEvent D × Ctx)) (s : Fleet R D) : Prop where
  wellFormed : s.log.WellFormed
  told : ∀ x ∈ hist, x.1.Told s.log s.driver.watchedEmits
  waiting : ∀ loop ∈ s.loop, ∀ ev ∈ loop.events, ev.Told s.log s.driver.watchedEmits
  router_eq : s.router = (router.answers r hist).2
  decided : ∀ route ∈ s.pending, route ∈ (router.answers r hist).1
  source : ∀ x ∈ s.executed,
    x.route ∈ handed ∨ x.route ∈ (router.answers r hist).1 ∧ x.route ≠ .done
  accounted : ∀ p : Route D → Bool,
    s.executed.countP (fun x => p x.route) + s.pending.countP p ≤
      handed.countP p + (router.answers r hist).1.countP p

variable {router : Router R D} {r : R} {handed : List (Route D)}
  {hist : List (RouterEvent D × Ctx)} {s s' : Fleet R D}

theorem follows_init (tenant : TenantId) (expected : List AgentId)
    (factory : Option MemberFactory) (scheduler : Scheduler D) :
    (init tenant expected factory scheduler r).Follows router r [] [] :=
  ⟨CausalLog.wellFormed_empty, fun x hx => (by cases hx), fun loop h => (by cases h), rfl,
    fun route h => (by cases h), fun x hx => (by cases hx), fun p => Nat.le_refl 0⟩

/-- The driver learns more, and the log and the loop stay as they are. -/
theorem Follows.learn (h : s.Follows router r handed hist) {d : RoutingDriver D}
    (hwatched : s.driver.watchedEmits ⊆ d.watchedEmits) :
    ({ s with driver := d } : Fleet R D).Follows router r handed hist :=
  ⟨h.wellFormed, fun x hx => (h.told x hx).watch hwatched,
    fun loop hl ev hev => (h.waiting loop hl ev hev).watch hwatched, h.router_eq, h.decided,
    h.source, h.accounted⟩

/-- The loop moves on to routes that it had, or to fewer. -/
theorem Follows.move (h : s.Follows router r handed hist) {loop : Option (FleetLoop D)}
    (hevents : ∀ l ∈ loop, ∀ ev ∈ l.events, ev.Told s.log s.driver.watchedEmits)
    (hroutes : (loop.elim [] FleetLoop.routes).Sublist s.pending) :
    ({ s with loop } : Fleet R D).Follows router r handed hist where
  wellFormed := h.wellFormed
  told := h.told
  waiting := hevents
  router_eq := h.router_eq
  decided route hroute := h.decided route (hroutes.subset hroute)
  source := h.source
  accounted p := by
    have hcount := h.accounted p
    have hle : (loop.elim [] FleetLoop.routes).countP p ≤ s.pending.countP p :=
      hroutes.countP_le
    change s.executed.countP (fun x => p x.route) + (loop.elim [] FleetLoop.routes).countP p ≤ _
    omega

omit [ContentHash D] in
/-- Carrying out a route does not change what is watched. -/
theorem watchedEmits_exec {route : Route D} {answer : Materialize}
    (h : s.exec route answer = some s') :
    s'.driver.watchedEmits = s.driver.watchedEmits ∧ s'.log = s.log ∧ s'.loop = s.loop ∧
      s'.router = s.router ∧ ∃ x : Execution D, x.route = route ∧ s'.executed = x :: s.executed := by
  obtain ⟨outcome, houtcome, rfl⟩ := Option.map_eq_some_iff.mp h
  refine ⟨?_, rfl, rfl, rfl, _, rfl, rfl⟩
  rcases RoutingDriver.execute_cases houtcome with ⟨hdriver, -, -⟩ | ⟨-, _, _, _, rfl, -, -⟩ |
    ⟨-, _, _, _, _, _, -, -, -, rfl⟩
  · exact congrArg (·.watchedEmits) hdriver
  · rfl
  · rfl

/-- Carrying out a route, with the routes to come and those handed over accounting for it. -/
theorem Follows.exec {loop : Option (FleetLoop D)} {handed' : List (Route D)}
    (h : s.Follows router r handed hist) {route : Route D} {answer : Materialize}
    (hexec : ({ s with loop } : Fleet R D).exec route answer = some s')
    (hevents : ∀ l ∈ loop, ∀ ev ∈ l.events, ev.Told s.log s.driver.watchedEmits)
    (hroutes : ∀ x ∈ loop.elim [] FleetLoop.routes, x ∈ s.pending) (hhanded : handed ⊆ handed')
    (hsource : route ∈ handed' ∨ route ∈ (router.answers r hist).1 ∧ route ≠ .done)
    (hcount : ∀ p : Route D → Bool, [route].countP p + (loop.elim [] FleetLoop.routes).countP p +
      handed.countP p ≤ s.pending.countP p + handed'.countP p) :
    s'.Follows router r handed' hist := by
  obtain ⟨hwatched, hlog, hloop, hrouter, x, rfl, hexecuted⟩ := watchedEmits_exec hexec
  dsimp only at hwatched hlog hloop hrouter hexecuted
  have hpending : s'.pending = loop.elim [] FleetLoop.routes := by rw [pending, hloop]
  constructor
  · exact hlog ▸ h.wellFormed
  · rw [hlog, hwatched]
    exact h.told
  · rw [hlog, hwatched, hloop]
    exact hevents
  · exact hrouter.trans h.router_eq
  · rw [hpending]
    exact fun y hy => h.decided y (hroutes y hy)
  · intro y hy
    rw [hexecuted] at hy
    rcases List.mem_cons.mp hy with rfl | hy
    · exact hsource
    · exact (h.source y hy).imp_left fun hroute => hhanded hroute
  · intro p
    have haccounted := h.accounted p
    have hp := hcount p
    rw [hpending, hexecuted, List.countP_cons]
    rw [List.countP_singleton] at hp
    omega

/-- The router answers the next event. -/
theorem Follows.answer (h : s.Follows router r handed hist) {loop : FleetLoop D}
    (hloop : s.loop = some loop) {ev : RouterEvent D} {events : List (RouterEvent D)}
    (hevents : loop.events = ev :: events) (hroutes : loop.routes = []) :
    ({ s with
      router := (router.onEvent s.router ev s.driver.ctx).2
      loop := some { loop with
        events, routes := (router.onEvent s.router ev s.driver.ctx).1 } } : Fleet R D).Follows
      router r handed (hist ++ [(ev, s.driver.ctx)]) := by
  have hpending : s.pending = [] := by rw [pending, hloop, Option.elim_some, hroutes]
  have hanswers := router.answers_concat r hist ev s.driver.ctx
  rw [← h.router_eq] at hanswers
  constructor
  · exact h.wellFormed
  · intro x hx
    rcases List.mem_append.mp hx with hx | hx
    · exact h.told x hx
    · obtain rfl := List.mem_singleton.mp hx
      exact h.waiting loop hloop ev (hevents ▸ List.mem_cons_self)
  · intro l hl ev' hev'
    obtain rfl := Option.some.inj hl
    exact h.waiting loop hloop ev' (hevents ▸ List.mem_cons_of_mem ev hev')
  · rw [hanswers]
  · intro route hroute
    rw [hanswers]
    exact List.mem_append_right _ hroute
  · intro x hx
    rw [hanswers]
    exact (h.source x hx).imp_right fun hroute => ⟨List.mem_append_left _ hroute.1, hroute.2⟩
  · intro p
    have hcount := h.accounted p
    rw [hpending, List.countP_nil] at hcount
    change s.executed.countP (fun x => p x.route) +
      (router.onEvent s.router ev s.driver.ctx).1.countP p ≤ _
    rw [hanswers, List.countP_append]
    omega

/-- A step of the loop of `run` follows the router. -/
theorem Follows.loopStep (h : s.Follows router r handed hist) {loop : FleetLoop D}
    (hloop : s.loop = some loop) {i : LoopInput D}
    (hstep : s.loopStep router loop i = some s') :
    ∃ hist', s'.Follows router r handed hist' := by
  have hpending : s.pending = loop.routes := by rw [pending, hloop, Option.elim_some]
  have hwaiting := h.waiting loop hloop
  obtain ⟨events, routes, fired, stage⟩ := loop
  cases routes with
  | cons route routes =>
      by_cases hdone : route = .done
      · subst hdone
        obtain rfl := Option.some.inj hstep
        exact ⟨hist, h.move (fun l hl => (by cases hl)) (List.nil_sublist _)⟩
      · have hexec : ({ s with loop := some ⟨events, routes, fired, stage⟩ } : Fleet R D).exec
            route i.answer = some s' := by
          cases route with
          | done => exact absurd rfl hdone
          | _ => exact hstep
        refine ⟨hist, h.exec hexec (fun l hl => ?_) (fun x hx => ?_) (List.Subset.refl handed)
          (.inr ⟨?_, hdone⟩) fun p => ?_⟩
        · obtain rfl := Option.some.inj hl
          exact hwaiting
        · exact hpending ▸ List.mem_cons_of_mem route hx
        · exact h.decided route (hpending ▸ List.mem_cons_self)
        · rw [hpending, Option.elim_some]
          simp only [List.countP_cons, List.countP_nil]
          omega
  | nil =>
      cases events with
      | cons ev events =>
          obtain rfl := Option.some.inj hstep
          exact ⟨_, h.answer hloop rfl rfl⟩
      | nil =>
          cases stage with
          | poll =>
              obtain rfl := Option.some.inj hstep
              obtain ⟨hwatched, htold⟩ :=
                FleetDriver.pollAgents_told i.faults h.wellFormed
                  s.driver.expected s.driver.toFleetDriver
              have hlearned := h.learn (d := { s.driver with
                toFleetDriver := (s.driver.pollEvents s.log i.faults).2 }) hwatched.ge
              refine ⟨hist, hlearned.move (fun l hl ev hev => ?_) (List.nil_sublist _)⟩
              obtain rfl := Option.some.inj hl
              obtain ⟨reported, hreported, rfl⟩ := List.mem_map.mp hev
              exact (htold reported hreported).watch hwatched.ge
          | deadline =>
              simp only [Fleet.loopStep] at hstep
              split_ifs at hstep
              · obtain rfl := Option.some.inj hstep
                refine ⟨hist, h.move (fun l hl ev hev => ?_) (List.nil_sublist _)⟩
                obtain rfl := Option.some.inj hl
                obtain ⟨agent, -, rfl⟩ := List.mem_map.mp hev
                trivial
              · obtain rfl := Option.some.inj hstep
                refine ⟨hist, h.move (fun l hl ev hev => ?_) (List.nil_sublist _)⟩
                obtain rfl := Option.some.inj hl
                cases hev
          | stop =>
              obtain rfl := Option.some.inj hstep
              refine ⟨hist, h.move (fun l hl ev hev => ?_) ?_⟩
              · dsimp only at hl
                split_ifs at hl
                · cases hl
                · obtain rfl := Option.some.inj hl
                  cases hev
              · dsimp only
                split_ifs
                · exact List.nil_sublist _
                · exact List.nil_sublist _

/-- Every step follows the router and the runner. -/
theorem Follows.step (h : s.Follows router r handed hist) {i : FleetInput D}
    (hstep : s.step router i = some s') :
    ∃ hist', s'.Follows router r (handed ++ i.handed.toList) hist' := by
  have hquiet : i.handed = none → (∃ hist', s'.Follows router r handed hist') →
      ∃ hist', s'.Follows router r (handed ++ i.handed.toList) hist' := by
    intro hi hfollows
    rwa [hi, Option.toList_none, List.append_nil]
  cases i with
  | append e =>
      obtain rfl := Option.some.inj hstep
      refine hquiet rfl ?_
      exact ⟨hist, h.wellFormed.append e, fun x hx => (h.told x hx).append h.wellFormed e,
        fun l hl ev hev => (h.waiting l hl ev hev).append h.wellFormed e, h.router_eq, h.decided,
        h.source, h.accounted⟩
  | others scheduler =>
      obtain rfl := Option.some.inj hstep
      refine hquiet rfl ?_
      exact ⟨hist, h.wellFormed, h.told, h.waiting, h.router_eq, h.decided, h.source, h.accounted⟩
  | loop input =>
      obtain ⟨loop, hloop, hstep⟩ := Option.bind_eq_some_iff.mp hstep
      refine hquiet rfl ?_
      exact h.loopStep hloop hstep
  | primeCursor agent faults =>
      simp only [Fleet.step] at hstep
      split_ifs at hstep
      obtain rfl := Option.some.inj hstep
      refine hquiet rfl ?_
      exact ⟨hist, h.learn (d := { s.driver with
        toFleetDriver := s.driver.primeCursor s.log faults agent }) (Finset.Subset.refl _)⟩
  | watchEmit emitType =>
      simp only [Fleet.step] at hstep
      split_ifs at hstep
      obtain rfl := Option.some.inj hstep
      refine hquiet rfl ?_
      exact ⟨hist, h.learn (d := s.driver.watchEmit emitType)
        (Finset.subset_insert emitType s.driver.watchedEmits)⟩
  | pollEvents faults =>
      simp only [Fleet.step] at hstep
      split_ifs at hstep
      obtain rfl := Option.some.inj hstep
      refine hquiet rfl ?_
      have hwatched := (FleetDriver.pollAgents_told faults h.wellFormed
        s.driver.expected s.driver.toFleetDriver).1
      exact ⟨hist, h.learn (d := { s.driver with
        toFleetDriver := (s.driver.pollEvents s.log faults).2 }) hwatched.ge⟩
  | waitResult agent faults =>
      simp only [Fleet.step] at hstep
      split_ifs at hstep
      obtain rfl := Option.some.inj hstep
      refine hquiet rfl ?_
      obtain ⟨_, hadvances⟩ := s.driver.waitResult_advances s.log faults agent
      exact ⟨hist, h.learn (d := { s.driver with
        toFleetDriver := (s.driver.waitResult s.log faults agent).2 }) hadvances.watchedEmits.ge⟩
  | causeFor actionId faults =>
      simp only [Fleet.step] at hstep
      split_ifs at hstep
      obtain rfl := Option.some.inj hstep
      refine hquiet rfl ?_
      refine ⟨hist, h.learn (d := (s.driver.causeFor s.log faults actionId).2) ?_⟩
      rw [RoutingDriver.causeFor]
      split_ifs
      · exact Finset.Subset.refl _
      · rcases s.log.get actionId with _ | e
        · exact Finset.Subset.refl _
        · exact Finset.Subset.refl _
  | execute route answer =>
      simp only [Fleet.step] at hstep
      split_ifs at hstep with hidle
      have hexec : ({ s with loop := s.loop } : Fleet R D).exec route answer = some s' := hstep
      refine ⟨hist, h.exec hexec h.waiting (fun x hx => hx) (List.subset_append_left _ _)
        (.inl (List.mem_append_right _ (List.mem_singleton_self route))) fun p => ?_⟩
      rw [FleetInput.handed, Option.toList_some, List.countP_append]
      change _ + s.pending.countP p + _ ≤ _
      omega
  | run =>
      simp only [Fleet.step] at hstep
      split_ifs at hstep
      obtain rfl := Option.some.inj hstep
      refine hquiet rfl ?_
      refine ⟨hist, h.move (fun l hl ev hev => ?_) (List.nil_sublist _)⟩
      obtain rfl := Option.some.inj hl
      cases hev

/-- **A fleet follows its router.** In every run, what the router has been shown is in the log,
and what was carried out comes from the runner or from the answers of the router. -/
theorem follows_run {tenant : TenantId} {expected : List AgentId}
    {factory : Option MemberFactory} {scheduler : Scheduler D} {inputs : List (FleetInput D)}
    (hrun : Machine.run (step router) (init tenant expected factory scheduler r) inputs = some s) :
    ∃ hist, s.Follows router r (inputs.filterMap FleetInput.handed) hist := by
  suffices hgeneral : ∀ (inputs : List (FleetInput D)) (handed : List (Route D))
      (hist : List (RouterEvent D × Ctx)) (m : Fleet R D), m.Follows router r handed hist →
      Machine.run (step router) m inputs = some s →
      ∃ hist', s.Follows router r (handed ++ inputs.filterMap FleetInput.handed) hist' from
    hgeneral inputs [] [] _ (follows_init tenant expected factory scheduler) hrun
  intro inputs
  induction inputs with
  | nil =>
      intro handed hist m hm hrun
      obtain rfl : m = s := by simpa using hrun
      exact ⟨hist, by rwa [List.filterMap_nil, List.append_nil]⟩
  | cons i inputs ih =>
      intro handed hist m hm hrun
      obtain ⟨m', hstep, hrest⟩ := Machine.run_cons_eq_some.mp hrun
      obtain ⟨hist', hm'⟩ := hm.step hstep
      obtain ⟨hist'', hs⟩ := ih _ _ _ hm' hrest
      refine ⟨hist'', ?_⟩
      rw [List.append_assoc] at hs
      rcases hhanded : i.handed with _ | route
      · rw [hhanded] at hs
        rwa [List.filterMap_cons_none hhanded]
      · rw [hhanded] at hs
        rwa [List.filterMap_cons_some hhanded]

end Fleet

end Torpor
