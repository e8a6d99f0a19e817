import Torpor.Fleet.Collectors

/-!
# The Dispatching Router

`DispatchRouter` asks for a member for each directive that it decodes and has a template for. It
names the member by the identity that it was given, with a counter for the last byte.

What a driver makes of the routes is a list of executions, each from the members that the last one
left; what else the driver and the scheduler are is free, as is what the factory answers.

## Main results

* `dispatch_distinct_iff`: the members are distinct as long as no more than 256 directives are
  accepted, and not beyond.
* `RoutingDriver.execute_spawn_again`: the channel of a member that is spawned once more is
  replaced.
-/

namespace Torpor

open Collector

variable {D : Type}

/-! ### Directives -/

/-- `DirectiveKind`. -/
inductive DirectiveKind
  | escalate
  | delegate
  deriving DecidableEq, Repr

/-- The number of a kind. -/
def DirectiveKind.asU8 : DirectiveKind → UInt8
  | .escalate => 1
  | .delegate => 2

/-- `from_u8`. -/
def DirectiveKind.fromU8 (v : UInt8) : Option DirectiveKind :=
  if v = 1 then some .escalate
  else if v = 2 then some .delegate
  else none

theorem DirectiveKind.fromU8_eq_some_iff {v : UInt8} {kind : DirectiveKind} :
    fromU8 v = some kind ↔ kind.asU8 = v := by
  rw [fromU8]
  split_ifs with hescalate hdelegate
  · subst hescalate
    cases kind <;> decide
  · subst hdelegate
    cases kind <;> decide
  · refine iff_of_false nofun ?_
    rintro rfl
    cases kind with
    | escalate => exact hescalate rfl
    | delegate => exact hdelegate rfl

/-- `RouteDirective`. -/
structure RouteDirective where
  kind : DirectiveKind
  payload : List UInt8
  deriving DecidableEq, Repr

namespace RouteDirective

/-- `MAGIC`. -/
def magic : List UInt8 := [0xFD, 0x04]

/-- `VERSION`. -/
def version : UInt8 := 0x01

/-- `HEADER_LEN`. -/
def headerLen : ℕ := 4

/-- `encode`. -/
def encode (d : RouteDirective) : List UInt8 :=
  magic ++ [version] ++ [d.kind.asU8] ++ d.payload

/-- `decode`. -/
def decode (bytes : List UInt8) : Option RouteDirective :=
  if bytes.length < headerLen then none
  else if bytes.take 2 ≠ magic ∨ bytes.getD 2 0 ≠ version then none
  else (DirectiveKind.fromU8 (bytes.getD 3 0)).map fun kind => ⟨kind, bytes.drop headerLen⟩

/-- What is decoded is what is encoded. -/
theorem decode_eq_some_iff {bytes : List UInt8} {d : RouteDirective} :
    decode bytes = some d ↔ bytes = d.encode := by
  obtain ⟨kind, payload⟩ := d
  constructor
  · intro h
    rw [decode] at h
    split_ifs at h with hlength hhead
    obtain ⟨kind', hkind, hd⟩ := Option.map_eq_some_iff.mp h
    obtain ⟨rfl, rfl⟩ := RouteDirective.mk.inj hd
    match bytes with
    | a :: b :: c :: v :: rest =>
        simp only [List.take_succ_cons, List.take_zero, List.getD_cons_succ, List.getD_cons_zero,
          not_or, not_not] at hhead hkind
        rw [encode, ← hhead.1, ← hhead.2, ← DirectiveKind.fromU8_eq_some_iff.mp hkind]
        rfl
    | [] | [_] | [_, _] | [_, _, _] => simp [headerLen] at hlength
  · rintro rfl
    have hkind := DirectiveKind.fromU8_eq_some_iff.mpr (rfl : kind.asU8 = kind.asU8)
    simp [decode, encode, magic, headerLen, hkind]

end RouteDirective

/-! ### DispatchRouter -/

/-- `DispatchRouter`. -/
structure DispatchRouter where
  table : AList fun _ : DirectiveKind => ℕ
  childBase : AgentId
  next : UInt8
  spawned : Finset AgentId

/-- The base with its last byte replaced. -/
def childId (base : AgentId) (next : UInt8) : AgentId :=
  agentOfBytes ((agentBytes base).set 15 next)

namespace DispatchRouter

/-- `DispatchRouter::new`. -/
def new (table : AList fun _ : DirectiveKind => ℕ) (childBase : AgentId) : DispatchRouter :=
  { table, childBase, next := 0, spawned := ∅ }

/-- `on_event`. -/
def onEvent (r : DispatchRouter) (ev : RouterInput D) : List (Route D) × DispatchRouter :=
  match ev with
  | .emit _ cause emitType payload =>
      if emitType = EmitType.event.asU8 then
        match RouteDirective.decode payload with
        | none => ([], r)
        | some d =>
            match r.table.lookup d.kind with
            | none => ([], r)
            | some templateIdx =>
                let child := childId r.childBase r.next
                ([.spawn templateIdx child d.payload cause],
                  { r with next := r.next + 1, spawned := insert child r.spawned })
      else ([], r)
  | .result agent _ _ => if agent ∈ r.spawned then ([.done], r) else ([], r)
  | .deadline _ => ([], r)

/-- `DispatchRouter` as a router of the driver. -/
def router : Router DispatchRouter D := ⟨fun r ev _ => r.onEvent ev.input⟩

/-- The event is a directive that the table has a template for. -/
def accepts (table : AList fun _ : DirectiveKind => ℕ) : RouterInput D → Bool
  | .emit _ _ emitType payload =>
      emitType = EmitType.event.asU8 &&
        ((RouteDirective.decode payload).bind fun d => table.lookup d.kind).isSome
  | .result .. | .deadline _ => false

end DispatchRouter

/-- The member that a route asks for. -/
def Route.child : Route D → Option AgentId
  | .spawn _ child _ _ => some child
  | .sendRoot .. | .sendCaused .. | .close _ | .done => none

/-- The members that a list of routes asks for, in order. -/
def children (routes : List (Route D)) : List AgentId := routes.filterMap Route.child

/-! ### The counter -/

theorem foldl_bytes_append (n : ℕ) (bs : List UInt8) (b : UInt8) :
    (bs ++ [b]).foldl (fun n b => n * 256 + b.toNat) n =
      bs.foldl (fun n b => n * 256 + b.toNat) n * 256 + b.toNat := by
  rw [List.foldl_append]
  rfl

/-- The last byte of the identity of a member is the counter. -/
theorem childId_toNat_mod (base : AgentId) (next : UInt8) :
    (childId base next).toNat % 256 = next.toNat := by
  have hset : (agentBytes base).set 15 next = (agentBytes base).take 15 ++ [next] := by
    rw [List.set_eq_take_append_cons_drop, if_pos (by simp), List.drop_of_length_le (by simp)]
  have hlt : next.toNat < 256 := next.toNat_lt
  rw [childId, agentOfBytes, hset, foldl_bytes_append, BitVec.toNat_ofNat,
    Nat.mod_mod_of_dvd _ (by decide : 256 ∣ 2 ^ 128)]
  omega

theorem childId_inj {base : AgentId} {m n : UInt8} : childId base m = childId base n ↔ m = n := by
  refine ⟨fun h => ?_, congrArg _⟩
  rw [← UInt8.toNat_inj, ← childId_toNat_mod base m, h, childId_toNat_mod]

/-- The counter after so many members. -/
def counterAt (n : ℕ) : UInt8 := UInt8.ofNat n

/-- It comes round after 256. -/
theorem counterAt_inj {m n : ℕ} : counterAt m = counterAt n ↔ m % 256 = n % 256 := by
  rw [← UInt8.toNat_inj, counterAt, counterAt, UInt8.toNat_ofNat', UInt8.toNat_ofNat']

/-- The first `n` members are distinct exactly while the counter has not come round. -/
theorem nodup_childIds_iff (base : AgentId) (n : ℕ) :
    ((List.range n).map fun i => childId base (counterAt i)).Nodup ↔ n ≤ 256 := by
  rw [List.nodup_map_iff_inj_on List.nodup_range]
  simp only [List.mem_range, childId_inj, counterAt_inj]
  constructor
  · intro h
    by_contra hn
    exact absurd (h 0 (by omega) 256 (by omega) rfl) (by omega)
  · intro h i hi j hj hij
    omega

namespace DispatchRouter

variable {r : DispatchRouter} {ev : RouterInput D}

/-- A directive that is accepted asks for one member, the next one. -/
theorem onEvent_of_accepts (h : accepts r.table ev) :
    ∃ templateIdx payload cause, r.onEvent ev =
      ([.spawn templateIdx (childId r.childBase r.next) payload cause],
        { r with
          next := r.next + 1
          spawned := insert (childId r.childBase r.next) r.spawned }) := by
  cases ev with
  | emit agent cause emitType payload =>
      simp only [accepts, Bool.and_eq_true, decide_eq_true_eq, Option.isSome_iff_exists] at h
      obtain ⟨htype, templateIdx, hbind⟩ := h
      obtain ⟨d, hdecode, hlookup⟩ := Option.bind_eq_some_iff.mp hbind
      refine ⟨templateIdx, d.payload, cause, ?_⟩
      simp only [onEvent, if_pos htype, hdecode, hlookup]
  | result agent cause text => cases h
  | deadline agent => cases h

/-- Nothing else asks for a member or changes the router. -/
theorem onEvent_of_not_accepts (h : ¬ accepts r.table ev) :
    (r.onEvent ev).2 = r ∧ children (r.onEvent ev).1 = [] := by
  cases ev with
  | emit agent cause emitType payload =>
      simp only [onEvent]
      split_ifs with htype
      · rcases hdecode : RouteDirective.decode payload with _ | d
        · exact ⟨rfl, rfl⟩
        · rcases hlookup : r.table.lookup d.kind with _ | templateIdx
          · simp only [hlookup]
            exact ⟨trivial, rfl⟩
          · simp [accepts, htype, hdecode, hlookup] at h
      · exact ⟨rfl, rfl⟩
  | result agent cause text =>
      simp only [onEvent]
      split_ifs <;> exact ⟨rfl, rfl⟩
  | deadline agent => exact ⟨rfl, rfl⟩

/-- The routes for a list of events. -/
def routes (table : AList fun _ : DirectiveKind => ℕ) (base : AgentId)
    (evs : List (RouterInput D)) : List (Route D) :=
  (trace onEvent (new table base) evs).1.map Prod.snd

/-- **The counter over a run.** The members asked for are the first so many, and the counter tells
how many modulo 256. -/
theorem trace_children (table : AList fun _ : DirectiveKind => ℕ) (base : AgentId)
    (evs : List (RouterInput D)) :
    children (routes table base evs) =
        (List.range (evs.countP (accepts table))).map (fun i => childId base (counterAt i)) ∧
      (trace onEvent (new table base) evs).2.table = table ∧
      (trace onEvent (new table base) evs).2.childBase = base ∧
      (trace onEvent (new table base) evs).2.next = counterAt (evs.countP (accepts table)) := by
  induction evs using List.reverseRecOn with
  | nil => exact ⟨rfl, rfl, rfl, rfl⟩
  | append_singleton evs ev ih =>
      rw [routes, trace_concat, List.map_append, List.countP_append, List.countP_singleton]
      rw [routes] at ih
      generalize trace onEvent (new table base) evs = t at ih
      obtain ⟨t, r⟩ := t
      obtain ⟨hchildren, rfl, rfl, hnext⟩ := ih
      dsimp only at hchildren hnext ⊢
      by_cases haccepts : accepts r.table ev
      · obtain ⟨templateIdx, payload, cause, heq⟩ := onEvent_of_accepts haccepts
        rw [heq, if_pos haccepts, List.range_succ, List.map_append, ← hchildren, hnext]
        refine ⟨?_, rfl, rfl, ?_⟩
        · simp [children, Route.child]
        · simp [counterAt]
      · obtain ⟨hsame, hnone⟩ := onEvent_of_not_accepts haccepts
        rw [hsame, if_neg haccepts, Nat.add_zero]
        refine ⟨?_, rfl, rfl, hnext⟩
        rw [← hchildren, children, List.filterMap_append]
        simpa [children, Function.comp_def] using hnone

end DispatchRouter

/-! ### Executing the routes -/

section Execute

variable [LinearOrder D]

omit [LinearOrder D] in
theorem RoutingDriver.leave_ne_ok (d : RoutingDriver D) (scheduler : Scheduler D)
    (e : FleetError) : (d.leave scheduler (.error e)).result ≠ .ok () := by
  simp [leave]

/-- **What executing a spawn does.** It fails and leaves everything as it is; or the factory has
built an instance, which is registered, and the driver keeps its channel. -/
theorem RoutingDriver.execute_spawn {d : RoutingDriver D} {templateIdx : ℕ} {child : AgentId}
    {payload : List UInt8} {cause : D} {scheduler : Scheduler D} {answer : Materialize}
    {x : Executed D}
    (h : d.execute (.spawn templateIdx child payload cause) scheduler answer = some x) :
    (x.result ≠ .ok () ∧ x.driver = d ∧ x.scheduler = scheduler) ∨
      ∃ inst, answer = .built inst ∧
        x.driver = { d with members := d.members.insert child scheduler.nextTask } ∧
        x.scheduler = scheduler.reap.enroll inst := by
  simp only [execute] at h
  split_ifs at h with hcause
  · rcases hfactory : d.factory with _ | factory
    · rw [hfactory] at h
      obtain rfl := Option.some.inj h
      exact .inl ⟨d.leave_ne_ok scheduler _, rfl, rfl⟩
    · rw [hfactory] at h
      simp only at h
      split_ifs at h with hfull
      · obtain rfl := Option.some.inj h
        exact .inl ⟨d.leave_ne_ok scheduler _, rfl, rfl⟩
      · cases answer with
        | unknownTemplate =>
            obtain rfl := Option.some.inj h
            exact .inl ⟨d.leave_ne_ok scheduler _, rfl, rfl⟩
        | failed =>
            obtain rfl := Option.some.inj h
            exact .inl ⟨d.leave_ne_ok scheduler _, rfl, rfl⟩
        | built inst =>
            obtain ⟨scheduler', hregister, rfl⟩ := Option.map_eq_some_iff.mp h
            exact .inr ⟨inst, rfl, hfactory ▸ rfl, Scheduler.register_eq_some hregister⟩
  · obtain rfl := Option.some.inj h
    exact .inl ⟨d.leave_ne_ok scheduler _, rfl, rfl⟩

/-- Nothing else registers a member. -/
theorem RoutingDriver.execute_of_not_spawn {d : RoutingDriver D} {route : Route D}
    {scheduler : Scheduler D} {answer : Materialize} {x : Executed D}
    (hroute : route.isSpawn = false) (h : d.execute route scheduler answer = some x) :
    x.driver = d ∧ x.scheduler = scheduler := by
  obtain ⟨hd, hs, -⟩ | ⟨-, _, _, _, rfl, -⟩ | ⟨hspawn, -⟩ := execute_cases h
  · exact ⟨hd, hs⟩
  · exact ⟨rfl, rfl⟩
  · rw [hroute] at hspawn
    cases hspawn

/-- **A member that is spawned once more**: no entry is added, and its channels are replaced, in
the driver and in the registry. -/
theorem RoutingDriver.execute_spawn_again {d : RoutingDriver D} {templateIdx : ℕ}
    {child : AgentId} {payload : List UInt8} {cause : D} {scheduler : Scheduler D}
    {inst : ActorInstance} {x : Executed D}
    (h : d.execute (.spawn templateIdx child payload cause) scheduler (.built inst) = some x)
    (hok : x.result = .ok ()) (hmem : child ∈ d.members) (hinst : inst.agentId = child) :
    x.driver.members.entries.length = d.members.entries.length ∧
      x.driver.members.lookup child = some scheduler.nextTask ∧
      x.scheduler.registry.senders.lookup child = some scheduler.nextTask := by
  obtain ⟨hfail, -⟩ | ⟨inst', hbuilt, hdriver, hscheduler⟩ := execute_spawn h
  · exact absurd hok hfail
  · obtain rfl := Materialize.built.inj hbuilt
    rw [hdriver, hscheduler, AList.length_insert, if_pos hmem, AList.lookup_insert,
      Scheduler.senders_enroll, if_pos hinst.symm]
    exact ⟨rfl, rfl, rfl⟩

/-- A route that a driver has executed. -/
structure RouteStep (D : Type) where
  route : Route D
  driver : RoutingDriver D
  scheduler : Scheduler D
  answer : Materialize
  outcome : Executed D

/-- The routes are executed in turn, up to some point. Between two of them the driver keeps its
members. -/
inductive Executes :
    (AList fun _ : AgentId => TaskId) → List (Route D) → List (RouteStep D) → Prop
  | stop (members : AList fun _ : AgentId => TaskId) (routes : List (Route D)) :
      Executes members routes []
  | next {e : RouteStep D} {routes : List (Route D)} {es : List (RouteStep D)}
      (executed : e.driver.execute e.route e.scheduler e.answer = some e.outcome)
      (rest : Executes e.outcome.driver.members routes es) :
      Executes e.driver.members (e.route :: routes) (e :: es)

/-- The factory has built the member that it was asked for, if it has built one. -/
def RouteStep.AsAsked (e : RouteStep D) : Prop :=
  ∀ inst, e.answer = .built inst → e.route.child = some inst.agentId

/-- The execution adds the member that it spawns and replaces the channel of no other: what the
registry sends to a member stays as it is, unless the task of the member has ended. -/
structure RouteStep.KeepsMembers (e : RouteStep D) : Prop where
  adds : e.route.isSpawn → e.outcome.result = .ok () →
    e.outcome.driver.members.entries.length = e.driver.members.entries.length + 1
  channel : ∀ c t, e.driver.members.lookup c = some t →
    e.outcome.driver.members.lookup c = some t
  sender : e.AsAsked → ∀ c ∈ e.driver.members,
    e.outcome.scheduler.registry.senders.lookup c = e.scheduler.registry.senders.lookup c ∨
      c ∈ e.scheduler.registry.finishedAgents e.scheduler.finished ∧
        e.outcome.scheduler.registry.senders.lookup c = none

omit [LinearOrder D] in
/-- What reaping does to one agent. -/
theorem Registry.senders_reap (r : Registry D) (finished : List TaskId) (a : AgentId) :
    (r.reap finished).senders.lookup a =
      if a ∈ r.finishedAgents finished then none else r.senders.lookup a := by
  rw [reap, (foldl_reapOne _ r).1, AList.lookup_foldl_erase]

/-- A spawn of a member that is new. -/
theorem RouteStep.keepsMembers {e : RouteStep D}
    (h : e.driver.execute e.route e.scheduler e.answer = some e.outcome)
    (hnew : ∀ c ∈ e.route.child, c ∉ e.driver.members) :
    e.KeepsMembers ∧
      ∀ c ∈ e.outcome.driver.members, c ∈ e.driver.members ∨ e.route.child = some c := by
  obtain ⟨route, d, scheduler, answer, x⟩ := e
  dsimp only at h hnew ⊢
  have hsame : (route.isSpawn → x.result ≠ .ok ()) → x.driver.members = d.members →
      x.scheduler = scheduler → KeepsMembers ⟨route, d, scheduler, answer, x⟩ ∧
        ∀ c ∈ x.driver.members, c ∈ d.members ∨ route.child = some c := by
    intro hfail hmembers hscheduler
    refine ⟨⟨fun hspawn hok => absurd hok (hfail hspawn), ?_, ?_⟩, ?_⟩
    · exact fun c t ht => hmembers ▸ ht
    · exact fun _ c _ => .inl (by rw [hscheduler])
    · exact fun c hc => .inl (hmembers ▸ hc)
  cases route with
  | spawn templateIdx child payload cause =>
      obtain ⟨hfail, hd, hscheduler⟩ | ⟨inst, hanswer, hdriver, hscheduler⟩ :=
        RoutingDriver.execute_spawn h
      · exact hsame (fun _ => hfail) (by rw [hd]) hscheduler
      · have hchild : child ∉ d.members := hnew child rfl
        refine ⟨⟨fun _ _ => ?_, fun c t ht => ?_, fun hasked c hc => ?_⟩, fun c hc => ?_⟩
        · simp only [hdriver, AList.length_insert, if_neg hchild]
        · have hne : c ≠ child := by
            rintro rfl
            rw [AList.lookup_eq_none.mpr hchild] at ht
            cases ht
          simp only [hdriver, AList.lookup_insert_ne hne]
          exact ht
        · have hinst : child = inst.agentId := Option.some.inj (hasked inst hanswer)
          have hne : c ≠ inst.agentId := by
            rintro rfl
            exact hchild (hinst ▸ hc)
          simp only [hscheduler, Scheduler.senders_enroll, if_neg hne, Scheduler.reap,
            Registry.senders_reap]
          split_ifs with hfinished
          · exact .inr ⟨hfinished, rfl⟩
          · exact .inl rfl
        · simp only [hdriver, AList.mem_insert] at hc
          exact hc.elim (fun h => .inr (congrArg some h.symm)) .inl
  | sendRoot _ _ | sendCaused _ _ _ | close _ | done =>
      obtain ⟨hd, hs⟩ := RoutingDriver.execute_of_not_spawn rfl h
      exact hsame nofun (by rw [hd]) hs

/-- **Executing the routes**, when the members asked for are distinct and new. -/
theorem Executes.keepsMembers {members : AList fun _ : AgentId => TaskId}
    {routes : List (Route D)} {es : List (RouteStep D)} (h : Executes members routes es)
    (hnodup : (children routes).Nodup) (hnew : ∀ c ∈ children routes, c ∉ members) :
    ∀ e ∈ es, e.KeepsMembers := by
  induction h with
  | stop => exact fun e he => absurd he List.not_mem_nil
  | next executed rest ih =>
      rename_i e routes es
      have hchildren : children (e.route :: routes) = e.route.child.toList ++ children routes := by
        rcases hchild : e.route.child with _ | child <;> simp [children, hchild]
      rw [hchildren, List.nodup_append] at hnodup
      simp only [hchildren, List.mem_append, Option.mem_toList] at hnew
      obtain ⟨hkeeps, hmem⟩ := e.keepsMembers executed fun c hc => hnew c (.inl hc)
      refine List.forall_mem_cons.mpr ⟨hkeeps, ih hnodup.2.1 fun c hc hold => ?_⟩
      rcases hmem c hold with hold | hchild
      · exact hnew c (.inr hc) hold
      · exact hnodup.2.2 c (Option.mem_toList.mpr hchild) c hc rfl

/-- The members that a list of routes asks for are distinct, and a driver that starts without
members and executes the routes keeps them. -/
def MembersDistinct (routes : List (Route D)) : Prop :=
  (children routes).Nodup ∧ ∀ es, Executes ∅ routes es → ∀ e ∈ es, e.KeepsMembers

namespace DispatchRouter

/-- **The dispatched members** are distinct exactly when no more than 256 directives have been
accepted. -/
theorem dispatch_distinct_iff (table : AList fun _ : DirectiveKind => ℕ) (base : AgentId)
    (evs : List (RouterInput D)) :
    MembersDistinct (routes table base evs) ↔ evs.countP (accepts table) ≤ 256 := by
  rw [← nodup_childIds_iff base, ← (trace_children table base evs).1]
  refine ⟨And.left, fun hnodup => ⟨hnodup, fun es hes => ?_⟩⟩
  exact hes.keepsMembers hnodup fun c _ => AList.notMem_empty c

/-- An emission that escalates without a payload. -/
def escalation : RouterInput ℕ :=
  .emit 0 0 EmitType.event.asU8 (RouteDirective.encode ⟨.escalate, []⟩)

/-- The router comes back to its first member with the directive number 257. -/
theorem dispatch_comes_round :
    ¬ ∀ (table : AList fun _ : DirectiveKind => ℕ) (base : AgentId) (evs : List (RouterInput ℕ)),
      MembersDistinct (routes table base evs) := by
  intro h
  have hdistinct := h (AList.singleton .escalate 0) 0 (List.replicate 257 escalation)
  rw [dispatch_distinct_iff, List.countP_replicate] at hdistinct
  exact absurd hdistinct (by decide)

end DispatchRouter

end Execute

end Torpor
