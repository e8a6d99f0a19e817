import Torpor.Lib.Machine
import Torpor.Scheduler.Registry

/-!
# Tenants Across Eviction and Spawning

Runs of the scheduler in which every agent is registered once by its runner. The system
records which tenant each agent was built for (for a spawned child, the tenant of its parent)
and every message that the supervisor sent under the authority of a tenant. Tenants are stable
(`Tenancy.Stable`) when `tenant_of` gives that tenant for each active or dormant agent, and no
tenant supervised an agent of another.

## Main results

* `tenants_stable_iff`: tenants are stable in every state of a run if and only if every agent
  that the run wakes up was built for the default tenant, and so was the parent of every
  child that it spawns.
* `wake_resets_tenant`: an agent of another tenant is the default tenant's after one
  eviction and one wake-up.
-/

namespace Torpor

open Scheduler Machine

variable {D : Type}

/-- The scheduler, the tenant each agent was built for, and the messages sent under the
authority of a tenant. -/
structure Tenancy (D : Type) where
  scheduler : Scheduler D
  builtFor : AList fun _ : AgentId => Option TenantId
  supervised : List (TenantId × AgentId)

/-- What can happen next. -/
inductive SchedulerOp (D : Type)
  | register (inst : ActorInstance)
  | reap
  | finish (task : TaskId)
  | send (target : AgentId)
  | evictAgent (target : AgentId) (reply : Option (EvictedState D))
  | wakeAgent (target : AgentId) (restore : Restore D)
  | deliver (target : AgentId) (admission : Admission) (restore : Restore D)
  | spawnChild (parent child : AgentId) (grants : List CapGrant) (built : Bool)
  | supervise (target : AgentId) (authority : Authority)

namespace Tenancy

/-- A scheduler that knows no agent. -/
def init (capStorePtr : ℕ) : Tenancy D := ⟨.new capStorePtr, ∅, []⟩

/-- The tenant an agent was built for. -/
def tenantFor (s : Tenancy D) (a : AgentId) : Option TenantId := (s.builtFor.lookup a).join

/-- One step. Identifiers are used once: neither a runner nor a parent registers an agent
under an identifier that is taken. An agent replies to an eviction with its own state. -/
def step (s : Tenancy D) : SchedulerOp D → Option (Tenancy D)
  | .register inst =>
      if (s.builtFor.lookup inst.agentId).isSome then none
      else (s.scheduler.register inst).map fun scheduler =>
        { s with scheduler, builtFor := s.builtFor.insert inst.agentId (some inst.tenant) }
  | .reap => some { s with scheduler := s.scheduler.reap }
  | .finish task =>
      if task < s.scheduler.nextTask then
        some { s with scheduler := { s.scheduler with finished := task :: s.scheduler.finished } }
      else none
  | .send _ => some s
  | .evictAgent target reply =>
      if reply.all fun evicted => evicted.id == target then
        some { s with scheduler := (s.scheduler.evictAgent target reply).2 }
      else none
  | .wakeAgent target restore =>
      (s.scheduler.wakeAgent target restore).map fun r => { s with scheduler := r.2 }
  | .deliver target admission restore =>
      (s.scheduler.deliver target admission restore).map fun r => { s with scheduler := r.2 }
  | .spawnChild parent child grants built =>
      if (s.builtFor.lookup child).isSome then none
      else (s.scheduler.spawnChild parent child grants built).map fun r =>
        { s with
          scheduler := r.2
          builtFor := if r.2.registry.isActive child
            then s.builtFor.insert child (s.tenantFor parent) else s.builtFor }
  | .supervise _ .orchestrator => some s
  | .supervise target (.tenant t) =>
      match s.scheduler.supervise target (.tenant t) with
      | .ok () => some { s with supervised := (t, target) :: s.supervised }
      | .error _ => some s

/-- Every agent that is active or dormant has the tenant it was built for, and no tenant
supervised an agent built for another. -/
structure Stable (s : Tenancy D) : Prop where
  tenantOf : ∀ a t, s.tenantFor a = some t →
    s.scheduler.registry.isActive a ∨ s.scheduler.registry.isDormant a →
    s.scheduler.registry.tenantOf a = some t
  supervised : ∀ p ∈ s.supervised, ∀ t, s.tenantFor p.2 = some t → p.1 = t

/-- The condition on a step that does not panic: an agent that it wakes up was built for the
default tenant, or the parent of a child that it spawns was. -/
def KeepsTenant (s : Tenancy D) (op : SchedulerOp D) : Prop :=
  (s.step op).isSome → match op with
    | .wakeAgent target (.built _) =>
        s.scheduler.registry.isDormant target → ∀ t ∈ s.tenantFor target, t = TenantId.default
    | .deliver target .admitted (.built _) =>
        ¬ s.scheduler.registry.isActive target → s.scheduler.registry.isDormant target →
          ∀ t ∈ s.tenantFor target, t = TenantId.default
    | .spawnChild parent child grants true =>
        (delegateGrants s.scheduler.capStore parent child grants).1.isSome →
          ∀ t ∈ s.tenantFor parent, t = TenantId.default
    | _ => True

/-! ### The invariant of the directory -/

/-- What every run keeps: a dormant agent is entered under its own identifier and has neither
handle nor sender, and every agent that is in the directory or was supervised was built. -/
structure Inv (s : Tenancy D) : Prop where
  dormant_id : ∀ a ev, s.scheduler.registry.dormant.lookup a = some ev → ev.id = a
  dormant_handle : ∀ a, s.scheduler.registry.isDormant a →
    s.scheduler.registry.handles.lookup a = none
  dormant_sender : ∀ a, s.scheduler.registry.isDormant a →
    s.scheduler.registry.senders.lookup a = none
  known : ∀ a, s.scheduler.registry.isActive a ∨ s.scheduler.registry.isDormant a →
    (s.builtFor.lookup a).isSome
  supervised_known : ∀ p ∈ s.supervised, (s.builtFor.lookup p.2).isSome

theorem inv_init (capStorePtr : ℕ) : (init capStorePtr : Tenancy D).Inv where
  dormant_id a ev h := by cases h
  dormant_handle a h := by cases h
  dormant_sender a h := by cases h
  known a h := by rcases h with h | h <;> cases h
  supervised_known p h := by cases h

theorem stable_init (capStorePtr : ℕ) : (init capStorePtr : Tenancy D).Stable where
  tenantOf a t h := by cases h
  supervised p h := by cases h

/-- Forgetting agents whose task has ended keeps the invariant. -/
theorem Inv.forget {s : Tenancy D} (h : s.Inv) (scheduler : Scheduler D)
    (hf : s.scheduler.registry.Forgets scheduler.registry) :
    ({ s with scheduler } : Tenancy D).Inv := by
  refine ⟨fun a ev hev => ?_, fun a ha => ?_, fun a ha => ?_, fun a ha => ?_,
    h.supervised_known⟩
  · rw [hf.dormant] at hev
    exact h.dormant_id a ev hev
  · have hnone := h.dormant_handle a (hf.isDormant a ▸ ha)
    exact (hf.handles a).elim (fun heq => heq.trans hnone) id
  · have hnone := h.dormant_sender a (hf.isDormant a ▸ ha)
    exact (hf.senders a).elim (fun heq => heq.trans hnone) id
  · exact h.known a (ha.imp hf.isActive fun hd => hf.isDormant a ▸ hd)

theorem Stable.forget {s : Tenancy D} (h : s.Inv) (hstable : s.Stable)
    (scheduler : Scheduler D) (hf : s.scheduler.registry.Forgets scheduler.registry) :
    ({ s with scheduler } : Tenancy D).Stable := by
  refine ⟨fun a t ht ha => ?_, hstable.supervised⟩
  have hd := hf.isDormant a
  rcases ha with ha | ha
  · exact (hf.tenantOf (.inl ha)).trans (hstable.tenantOf a t ht (.inl (hf.isActive ha)))
  · rw [hd] at ha
    exact (hf.tenantOf (.inr (h.dormant_handle a ha))).trans
      (hstable.tenantOf a t ht (.inr ha))

/-! ### Registration -/

/-- `builtFor` enters the agent of `inst` as built for `owner`; it was not entered before, or
as the same. -/
structure Enters (s : Tenancy D) (inst : ActorInstance) (owner : Option TenantId)
    (builtFor : AList fun _ : AgentId => Option TenantId) : Prop where
  self : builtFor.lookup inst.agentId = some owner
  others : ∀ a, a ≠ inst.agentId → builtFor.lookup a = s.builtFor.lookup a
  before : (s.builtFor.lookup inst.agentId).isSome →
    s.builtFor.lookup inst.agentId = some owner

theorem Enters.isSome {s : Tenancy D} {inst : ActorInstance} {owner : Option TenantId}
    {builtFor : AList fun _ : AgentId => Option TenantId} (h : s.Enters inst owner builtFor)
    {a : AgentId} (ha : (s.builtFor.lookup a).isSome) : (builtFor.lookup a).isSome := by
  by_cases heq : a = inst.agentId
  · rw [heq, h.self]
    rfl
  · rwa [h.others a heq]

/-- Entering an agent that is not dormant keeps the invariant. -/
theorem Inv.enroll {s : Tenancy D} (h : s.Inv) {inst : ActorInstance}
    {owner : Option TenantId} {builtFor : AList fun _ : AgentId => Option TenantId}
    (hb : s.Enters inst owner builtFor)
    (hdormant : ¬ s.scheduler.registry.isDormant inst.agentId) :
    ({ s with scheduler := s.scheduler.enroll inst, builtFor } : Tenancy D).Inv := by
  have hne : ∀ a, s.scheduler.registry.isDormant a → a ≠ inst.agentId :=
    fun a ha heq => hdormant (heq ▸ ha)
  refine ⟨h.dormant_id, fun a ha => ?_, fun a ha => ?_, fun a ha => ?_, fun p hp => ?_⟩
  · rw [handles_enroll, if_neg (hne a ha)]
    exact h.dormant_handle a ha
  · rw [senders_enroll, if_neg (hne a ha)]
    exact h.dormant_sender a ha
  · by_cases heq : a = inst.agentId
    · have hself := hb.self
      rw [← heq] at hself
      simp only
      rw [hself]
      rfl
    · refine hb.isSome (h.known a (ha.imp (fun hact => ?_) id))
      rwa [Registry.isActive, senders_enroll, if_neg heq] at hact
  · exact hb.isSome (h.supervised_known p hp)

/-- Entering an agent under the tenant it was built for keeps tenants stable. -/
theorem Stable.enroll {s : Tenancy D} (h : s.Inv) (hstable : s.Stable) {inst : ActorInstance}
    {owner : Option TenantId} {builtFor : AList fun _ : AgentId => Option TenantId}
    (hb : s.Enters inst owner builtFor) (howner : ∀ t ∈ owner, t = inst.tenant) :
    ({ s with scheduler := s.scheduler.enroll inst, builtFor } : Tenancy D).Stable := by
  refine ⟨fun a t ht ha => ?_, fun p hp t ht => ?_⟩
  · simp only [tenantFor] at ht
    rw [tenantOf_enroll]
    by_cases heq : a = inst.agentId
    · rw [heq, hb.self] at ht
      rw [if_pos heq, howner t ht]
    · rw [hb.others a heq] at ht
      rw [if_neg heq]
      refine hstable.tenantOf a t ht (ha.imp (fun hact => ?_) id)
      rwa [Registry.isActive, senders_enroll, if_neg heq] at hact
  · simp only [tenantFor] at ht
    refine hstable.supervised p hp t ?_
    by_cases heq : p.2 = inst.agentId
    · have hold := hb.before (heq ▸ h.supervised_known p hp)
      rwa [tenantFor, heq, hold, ← hb.self, ← heq]
    · rwa [hb.others p.2 heq] at ht

/-- A registration that does not panic, of an agent that is not dormant. -/
theorem Inv.register {s : Tenancy D} (h : s.Inv) {inst : ActorInstance}
    {owner : Option TenantId} {builtFor : AList fun _ : AgentId => Option TenantId}
    {scheduler : Scheduler D} (hreg : s.scheduler.register inst = some scheduler)
    (hb : s.Enters inst owner builtFor)
    (hdormant : ¬ s.scheduler.registry.isDormant inst.agentId) :
    ({ s with scheduler, builtFor } : Tenancy D).Inv := by
  obtain rfl := register_eq_some hreg
  have hf := s.scheduler.registry.reap_forgets s.scheduler.finished
  refine (h.forget s.scheduler.reap hf).enroll ⟨hb.self, hb.others, hb.before⟩ ?_
  exact fun hd => hdormant (hf.isDormant inst.agentId ▸ hd)

theorem Stable.register {s : Tenancy D} (h : s.Inv) (hstable : s.Stable)
    {inst : ActorInstance} {owner : Option TenantId}
    {builtFor : AList fun _ : AgentId => Option TenantId} {scheduler : Scheduler D}
    (hreg : s.scheduler.register inst = some scheduler) (hb : s.Enters inst owner builtFor)
    (howner : ∀ t ∈ owner, t = inst.tenant) :
    ({ s with scheduler, builtFor } : Tenancy D).Stable := by
  obtain rfl := register_eq_some hreg
  have hf := s.scheduler.registry.reap_forgets s.scheduler.finished
  exact (hstable.forget h s.scheduler.reap hf).enroll (h.forget s.scheduler.reap hf)
    ⟨hb.self, hb.others, hb.before⟩ howner

/-! ### Steps -/

theorem isDormant_undormant {s : Scheduler D} {target a : AgentId}
    (h : (s.undormant target).registry.isDormant a) :
    a ≠ target ∧ s.registry.isDormant a := by
  by_cases heq : a = target
  · subst heq
    simp [undormant, Registry.isDormant] at h
  · exact ⟨heq, by simpa [undormant, Registry.isDormant, AList.lookup_erase_ne heq] using h⟩

/-- Taking an agent off the dormant table keeps the invariant. -/
theorem Inv.undormant {s : Tenancy D} (h : s.Inv) (target : AgentId) :
    ({ s with scheduler := s.scheduler.undormant target } : Tenancy D).Inv := by
  refine ⟨fun a ev hev => ?_, fun a ha => h.dormant_handle a (isDormant_undormant ha).2,
    fun a ha => h.dormant_sender a (isDormant_undormant ha).2,
    fun a ha => h.known a (ha.imp id fun hd => (isDormant_undormant hd).2),
    h.supervised_known⟩
  have hne : a ≠ target := by
    rintro rfl
    simp [Scheduler.undormant] at hev
  simp only [Scheduler.undormant] at hev
  rw [AList.lookup_erase_ne hne] at hev
  exact h.dormant_id a ev hev

theorem Stable.undormant {s : Tenancy D} (hstable : s.Stable) (target : AgentId) :
    ({ s with scheduler := s.scheduler.undormant target } : Tenancy D).Stable :=
  ⟨fun a t ht ha => hstable.tenantOf a t ht (ha.imp id fun hd => (isDormant_undormant hd).2),
    hstable.supervised⟩

/-- Waking up an agent enters it once more, as built for the same tenant. -/
theorem Inv.enters_woken {s : Tenancy D} (h : s.Inv) {target : AgentId} {ev : EvictedState D}
    (hev : s.scheduler.registry.dormant.lookup target = some ev) (ptr : ℕ) :
    ({ s with scheduler := s.scheduler.undormant target } : Tenancy D).Enters
      (restoreFromEvicted ev ptr) (s.tenantFor target) s.builtFor := by
  have hid : (restoreFromEvicted ev ptr).agentId = target := h.dormant_id target ev hev
  have hdormant : s.scheduler.registry.isDormant target := Registry.isDormant_of_lookup hev
  obtain ⟨owner, howner⟩ := Option.isSome_iff_exists.mp (h.known target (.inr hdormant))
  have hself : s.builtFor.lookup target = some (s.tenantFor target) := by
    rw [tenantFor, howner]
    rfl
  exact ⟨hid ▸ hself, fun _ _ => rfl, fun _ => hid ▸ hself⟩

theorem Inv.wakeAgent {s : Tenancy D} (h : s.Inv) {target : AgentId} {restore : Restore D}
    {r : Except (DeliverError D) AgentId × Scheduler D}
    (hwake : s.scheduler.wakeAgent target restore = some r) :
    ({ s with scheduler := r.2 } : Tenancy D).Inv := by
  rcases wakeAgent_cases hwake with ⟨-, heq⟩ | ⟨-, heq⟩ | ⟨ev, ptr, hev, rfl, hreg⟩
  · rw [heq]
    exact h
  · rw [heq]
    exact h.undormant target
  · refine (h.undormant target).register hreg (h.enters_woken hev ptr) fun hd => ?_
    exact (isDormant_undormant hd).1 (h.dormant_id target ev hev)

/-- A wake-up keeps tenants stable if the agent it rebuilds was built for the default
tenant. -/
theorem Stable.wakeAgent {s : Tenancy D} (h : s.Inv) (hstable : s.Stable)
    {target : AgentId} {restore : Restore D} {r : Except (DeliverError D) AgentId × Scheduler D}
    (hwake : s.scheduler.wakeAgent target restore = some r)
    (hkeeps : ∀ ptr, restore = .built ptr → s.scheduler.registry.isDormant target →
      ∀ t ∈ s.tenantFor target, t = TenantId.default) :
    ({ s with scheduler := r.2 } : Tenancy D).Stable := by
  rcases wakeAgent_cases hwake with ⟨-, heq⟩ | ⟨-, heq⟩ | ⟨ev, ptr, hev, rfl, hreg⟩
  · rw [heq]
    exact hstable
  · rw [heq]
    exact hstable.undormant target
  · refine (hstable.undormant target).register (h.undormant target) hreg
      (h.enters_woken hev ptr) (hkeeps ptr rfl (Registry.isDormant_of_lookup hev))

/-- The directory of an agent that has been evicted. -/
theorem evicted_lookups (r : Registry D) (ev : EvictedState D) (a : AgentId) :
    (r.handles.erase ev.id).lookup a = (if a = ev.id then none else r.handles.lookup a) ∧
      (r.senders.erase ev.id).lookup a = (if a = ev.id then none else r.senders.lookup a) ∧
      (r.dormant.insert ev.id ev).lookup a =
        (if a = ev.id then some ev else r.dormant.lookup a) := by
  by_cases heq : a = ev.id
  · subst heq
    simp
  · simp [heq, AList.lookup_erase_ne, AList.lookup_insert_ne]

theorem Inv.evictAgent {s : Tenancy D} (h : s.Inv) {target : AgentId}
    {reply : Option (EvictedState D)} (hid : ∀ ev ∈ reply, ev.id = target) :
    ({ s with scheduler := (s.scheduler.evictAgent target reply).2 } : Tenancy D).Inv := by
  rcases evictAgent_cases s.scheduler target reply with
    heq | ⟨ev, rfl, hactive, heq⟩
  · rw [heq]
    exact h
  · obtain rfl := hid ev rfl
    rw [heq]
    have hlookup := evicted_lookups s.scheduler.registry ev
    refine ⟨fun a e he => ?_, fun a ha => ?_, fun a ha => ?_, fun a ha => ?_,
      h.supervised_known⟩
    · simp only [(hlookup a).2.2] at he
      split_ifs at he with hself
      · rw [← Option.some.inj he, hself]
      · exact h.dormant_id a e he
    · simp only [Registry.isDormant, (hlookup a).2.2] at ha
      simp only [(hlookup a).1]
      split_ifs at ha ⊢
      · rfl
      · exact h.dormant_handle a ha
    · simp only [Registry.isDormant, (hlookup a).2.2] at ha
      simp only [(hlookup a).2.1]
      split_ifs at ha ⊢
      · rfl
      · exact h.dormant_sender a ha
    · simp only [Registry.isActive, Registry.isDormant, (hlookup a).2.1, (hlookup a).2.2] at ha
      split_ifs at ha with hself
      · exact h.known a (.inl (hself ▸ hactive))
      · exact h.known a ha

theorem Stable.evictAgent {s : Tenancy D} (hstable : s.Stable) {target : AgentId}
    {reply : Option (EvictedState D)} (hid : ∀ ev ∈ reply, ev.id = target) :
    ({ s with scheduler := (s.scheduler.evictAgent target reply).2 } : Tenancy D).Stable := by
  rcases evictAgent_cases s.scheduler target reply with
    heq | ⟨ev, rfl, hactive, heq⟩
  · rw [heq]
    exact hstable
  · obtain rfl := hid ev rfl
    rw [heq]
    have hlookup := evicted_lookups s.scheduler.registry ev
    refine ⟨fun a t ht ha => hstable.tenantOf a t ht ?_, hstable.supervised⟩
    simp only [Registry.isActive, Registry.isDormant, (hlookup a).2.1, (hlookup a).2.2] at ha
    split_ifs at ha with hself
    · exact .inl (hself ▸ hactive)
    · exact ha

/-- A runner or a parent enters an agent under a new identifier. -/
theorem enters_fresh {s : Tenancy D} (scheduler : Scheduler D) (inst : ActorInstance)
    (owner : Option TenantId) (hfresh : ¬ (s.builtFor.lookup inst.agentId).isSome) :
    ({ s with scheduler } : Tenancy D).Enters inst owner
      (s.builtFor.insert inst.agentId owner) :=
  ⟨AList.lookup_insert _, fun _ ha => AList.lookup_insert_ne ha, fun h => absurd h hfresh⟩

/-- What a step that spawns does: the directory stays as it is, or the child is entered with
the tenant of its parent as the one it is built for. -/
theorem spawnChild_step_cases {s s' : Tenancy D} {parent child : AgentId}
    {grants : List CapGrant} {built : Bool} (h : s.Inv)
    (hstep : s.step (.spawnChild parent child grants built) = some s') :
    ¬ (s.builtFor.lookup child).isSome ∧
      ((¬ (built = true ∧
          (delegateGrants s.scheduler.capStore parent child grants).1.isSome) ∧
          ∃ capStore, s' = { s with scheduler := { s.scheduler with capStore } }) ∨
        (built = true ∧
          (delegateGrants s.scheduler.capStore parent child grants).1.isSome ∧
          ∃ capStore scheduler, ({ s.scheduler with capStore } : Scheduler D).register
            ⟨child, TenantId.default, s.scheduler.capStorePtr⟩ = some scheduler ∧
            s' = { s with
              scheduler
              builtFor := s.builtFor.insert child (s.tenantFor parent) })) := by
  simp only [Tenancy.step] at hstep
  split_ifs at hstep with hfresh
  refine ⟨hfresh, ?_⟩
  obtain ⟨r, hspawn, rfl⟩ := Option.map_eq_some_iff.mp hstep
  rcases spawnChild_cases hspawn with ⟨hnot, capStore, heq⟩ | ⟨hbuilt, hgrants, capStore, hreg⟩
  · have hinactive : ¬ s.scheduler.registry.isActive child := fun ha =>
      hfresh (h.known child (.inl ha))
    refine .inl ⟨hnot, capStore, ?_⟩
    rw [heq, if_neg hinactive]
  · refine .inr ⟨hbuilt, hgrants, capStore, r.2, hreg, ?_⟩
    rw [if_pos (register_self hreg).1]

/-- What a step that supervises does: a message under the authority of a tenant is recorded
when it reaches its target. -/
theorem supervise_step_cases {s s' : Tenancy D} {target : AgentId} {authority : Authority}
    (hstep : s.step (.supervise target authority) = some s') :
    s' = s ∨ ∃ t, s.scheduler.registry.isActive target ∧
      s.scheduler.registry.tenantOf target = some t ∧
      s' = { s with supervised := (t, target) :: s.supervised } := by
  cases authority with
  | orchestrator =>
      obtain rfl := Option.some.inj hstep
      exact .inl rfl
  | tenant t =>
      simp only [Tenancy.step] at hstep
      rcases hsup : s.scheduler.supervise target (.tenant t) with e | u
      · rw [hsup] at hstep
        obtain rfl := Option.some.inj hstep
        exact .inl rfl
      · rw [hsup] at hstep
        obtain rfl := Option.some.inj hstep
        obtain ⟨hactive, htenant⟩ := supervise_tenant hsup
        exact .inr ⟨t, hactive, htenant, rfl⟩

/-- Every step keeps the invariant. -/
theorem Inv.step {s s' : Tenancy D} {op : SchedulerOp D} (h : s.Inv)
    (hstep : s.step op = some s') : s'.Inv := by
  cases op with
  | register inst =>
      simp only [Tenancy.step] at hstep
      split_ifs at hstep with hfresh
      obtain ⟨scheduler, hreg, rfl⟩ := Option.map_eq_some_iff.mp hstep
      exact h.register hreg (enters_fresh s.scheduler inst (some inst.tenant) hfresh)
        fun hd => hfresh (h.known _ (.inr hd))
  | reap =>
      obtain rfl := Option.some.inj hstep
      exact h.forget _ (s.scheduler.registry.reap_forgets s.scheduler.finished)
  | finish task =>
      simp only [Tenancy.step] at hstep
      split_ifs at hstep
      obtain rfl := Option.some.inj hstep
      exact ⟨h.1, h.2, h.3, h.4, h.5⟩
  | send target =>
      obtain rfl := Option.some.inj hstep
      exact h
  | evictAgent target reply =>
      simp only [Tenancy.step] at hstep
      split_ifs at hstep with hid
      obtain rfl := Option.some.inj hstep
      exact h.evictAgent fun ev hev => by simpa using Option.all_eq_true _ _ |>.mp hid ev hev
  | wakeAgent target restore =>
      obtain ⟨r, hwake, rfl⟩ := Option.map_eq_some_iff.mp hstep
      exact h.wakeAgent hwake
  | deliver target admission restore =>
      obtain ⟨r, hdeliver, rfl⟩ := Option.map_eq_some_iff.mp hstep
      rcases deliver_cases hdeliver with ⟨-, heq⟩ | ⟨-, -, -, w, hwake, heq⟩
      · rw [heq]
        exact h
      · rw [heq]
        exact h.wakeAgent hwake
  | spawnChild parent child grants built =>
      obtain ⟨hfresh, ⟨-, capStore, rfl⟩ | ⟨-, -, capStore, scheduler, hreg, rfl⟩⟩ :=
        spawnChild_step_cases h hstep
      · exact ⟨h.1, h.2, h.3, h.4, h.5⟩
      · have h' : ({ s with scheduler := { s.scheduler with capStore } } : Tenancy D).Inv :=
          ⟨h.1, h.2, h.3, h.4, h.5⟩
        exact h'.register hreg (enters_fresh _ _ (s.tenantFor parent) hfresh)
          fun hd => hfresh (h.known child (.inr hd))
  | supervise target authority =>
      rcases supervise_step_cases hstep with rfl | ⟨t, hactive, htenant, rfl⟩
      · exact h
      · refine ⟨h.1, h.2, h.3, h.4, fun p hp => ?_⟩
        rcases List.mem_cons.mp hp with rfl | hp
        · exact h.known target (.inl hactive)
        · exact h.5 p hp

/-- Every step that meets the condition keeps tenants stable. -/
theorem Stable.step {s s' : Tenancy D} {op : SchedulerOp D} (h : s.Inv) (hstable : s.Stable)
    (hkeeps : s.KeepsTenant op) (hstep : s.step op = some s') : s'.Stable := by
  have hkeeps := hkeeps (by rw [hstep]; rfl)
  cases op with
  | register inst =>
      simp only [Tenancy.step] at hstep
      split_ifs at hstep with hfresh
      obtain ⟨scheduler, hreg, rfl⟩ := Option.map_eq_some_iff.mp hstep
      exact hstable.register h hreg (enters_fresh s.scheduler inst (some inst.tenant) hfresh)
        fun t ht => (Option.some.inj ht).symm
  | reap =>
      obtain rfl := Option.some.inj hstep
      exact hstable.forget h _ (s.scheduler.registry.reap_forgets s.scheduler.finished)
  | finish task =>
      simp only [Tenancy.step] at hstep
      split_ifs at hstep
      obtain rfl := Option.some.inj hstep
      exact ⟨hstable.1, hstable.2⟩
  | send target =>
      obtain rfl := Option.some.inj hstep
      exact hstable
  | evictAgent target reply =>
      simp only [Tenancy.step] at hstep
      split_ifs at hstep with hid
      obtain rfl := Option.some.inj hstep
      exact hstable.evictAgent fun ev hev => by
        simpa using Option.all_eq_true _ _ |>.mp hid ev hev
  | wakeAgent target restore =>
      obtain ⟨r, hwake, rfl⟩ := Option.map_eq_some_iff.mp hstep
      refine hstable.wakeAgent h hwake fun ptr hrestore => ?_
      subst hrestore
      exact hkeeps
  | deliver target admission restore =>
      obtain ⟨r, hdeliver, rfl⟩ := Option.map_eq_some_iff.mp hstep
      rcases deliver_cases hdeliver with ⟨-, heq⟩ | ⟨hactive, hdormant, rfl, w, hwake, heq⟩
      · rw [heq]
        exact hstable
      · rw [heq]
        refine hstable.wakeAgent h hwake fun ptr hrestore => ?_
        subst hrestore
        exact hkeeps hactive
  | spawnChild parent child grants built =>
      obtain ⟨hfresh, ⟨-, capStore, rfl⟩ | ⟨rfl, hgrants, capStore, scheduler, hreg, rfl⟩⟩ :=
        spawnChild_step_cases h hstep
      · exact ⟨hstable.1, hstable.2⟩
      · have h' : ({ s with scheduler := { s.scheduler with capStore } } : Tenancy D).Inv :=
          ⟨h.1, h.2, h.3, h.4, h.5⟩
        have hstable' : ({ s with scheduler := { s.scheduler with capStore } } :
            Tenancy D).Stable := ⟨hstable.1, hstable.2⟩
        exact hstable'.register h' hreg (enters_fresh _ _ (s.tenantFor parent) hfresh)
          (hkeeps hgrants)
  | supervise target authority =>
      rcases supervise_step_cases hstep with rfl | ⟨t, hactive, htenant, rfl⟩
      · exact hstable
      · refine ⟨hstable.1, fun p hp t' ht' => ?_⟩
        rcases List.mem_cons.mp hp with rfl | hp
        · have hsame := hstable.tenantOf target t' ht' (.inl hactive)
          rw [htenant] at hsame
          exact Option.some.inj hsame
        · exact hstable.2 p hp t' ht'

/-- A wake-up that rebuilds an agent gives it the default tenant. -/
theorem default_of_woken {s : Tenancy D} (h : s.Inv) {target : AgentId} {ptr : ℕ}
    {r : Except (DeliverError D) AgentId × Scheduler D}
    (hwake : s.scheduler.wakeAgent target (.built ptr) = some r)
    (hdormant : s.scheduler.registry.isDormant target)
    (hstable : ({ s with scheduler := r.2 } : Tenancy D).Stable) :
    ∀ t ∈ s.tenantFor target, t = TenantId.default := by
  intro t ht
  rcases wakeAgent_cases hwake with ⟨hnone, -⟩ | ⟨hne, -⟩ | ⟨ev, ptr', hev, -, hreg⟩
  · rw [Registry.isDormant, hnone] at hdormant
    cases hdormant
  · exact absurd rfl (hne ptr)
  · obtain ⟨hactive, htenant⟩ := register_self hreg
    have hid : (restoreFromEvicted ev ptr').agentId = target := h.dormant_id target ev hev
    rw [hid] at hactive htenant
    have := hstable.tenantOf target t ht (.inl hactive)
    rw [htenant] at this
    exact (Option.some.inj this).symm

/-- If tenants are stable after a step, the step met the condition. -/
theorem keepsTenant_of_stable {s s' : Tenancy D} {op : SchedulerOp D} (h : s.Inv)
    (hstep : s.step op = some s') (hstable : s'.Stable) : s.KeepsTenant op := by
  intro _
  cases op with
  | wakeAgent target restore =>
      cases restore with
      | built ptr =>
          intro hdormant
          obtain ⟨r, hwake, rfl⟩ := Option.map_eq_some_iff.mp hstep
          exact default_of_woken h hwake hdormant hstable
      | missingBlock hash => trivial
      | failed => trivial
  | deliver target admission restore =>
      cases admission with
      | admitted =>
          cases restore with
          | built ptr =>
              intro hactive hdormant
              obtain ⟨r, hdeliver, rfl⟩ := Option.map_eq_some_iff.mp hstep
              rcases deliver_cases hdeliver with ⟨hnot, -⟩ | ⟨-, -, -, w, hwake, heq⟩
              · exact absurd ⟨hactive, hdormant, rfl⟩ hnot
              · rw [heq] at hstable
                exact default_of_woken h hwake hdormant hstable
          | missingBlock hash => trivial
          | failed => trivial
      | noSlot => trivial
      | cancelled => trivial
  | spawnChild parent child grants built =>
      cases built with
      | true =>
          intro hgrants t ht
          obtain ⟨-, ⟨hnot, -⟩ | ⟨-, -, capStore, scheduler, hreg, rfl⟩⟩ :=
            spawnChild_step_cases h hstep
          · exact absurd ⟨rfl, hgrants⟩ hnot
          · obtain ⟨hactive, htenant⟩ := register_self hreg
            have hstill := hstable.tenantOf child t
              (by rw [tenantFor, AList.lookup_insert]; exact ht) (.inl hactive)
            rw [htenant] at hstill
            exact (Option.some.inj hstill).symm
      | false => trivial
  | register _ => trivial
  | reap => trivial
  | finish _ => trivial
  | send _ => trivial
  | evictAgent _ _ => trivial
  | supervise _ _ => trivial

end Tenancy

/-! ### Runs -/

open Tenancy

/-- **Tenant stability.** Over every sequence of operations, tenants are stable in every state
reached if and only if every operation met the condition: it wakes up no agent, and spawns no
child of an agent, that was built for another tenant than the default one. -/
theorem tenants_stable_iff (capStorePtr : ℕ) (ops : List (SchedulerOp D)) :
    (∀ pre post s, ops = pre ++ post → run Tenancy.step (init capStorePtr) pre = some s →
      s.Stable) ↔ Along Tenancy.step KeepsTenant (init capStorePtr) ops := by
  have hinv : ∀ (s : Tenancy D) op s', s.Inv → s.step op = some s' → s'.Inv :=
    fun _ _ _ h hstep => h.step hstep
  have hiff : ∀ (s : Tenancy D) op s', s.Inv → s.Stable → s.step op = some s' →
      (s'.Stable ↔ s.KeepsTenant op) := fun _ _ _ h hstable hstep =>
    ⟨keepsTenant_of_stable h hstep, fun hkeeps => hstable.step h hkeeps hstep⟩
  have hstuck : ∀ (s : Tenancy D) op, s.Inv → s.step op = none → s.KeepsTenant op :=
    fun s op _ hnone hsome => by rw [hnone] at hsome; cases hsome
  exact always_iff_along hinv hiff hstuck (inv_init capStorePtr) (stable_init capStorePtr) ops

/-- An agent of tenant `1` is registered, evicted and woken up; then tenant `0` suspends it. -/
def wakeOps : List (SchedulerOp (List ℕ)) :=
  [.register ⟨7, 1, 100⟩, .evictAgent 7 (some ⟨7, 3, none, none⟩), .wakeAgent 7 (.built 200),
    .supervise 7 (.tenant 0)]

/-- Tenants are not stable in every run: after `wakeOps` the agent of tenant `1` has been
supervised by tenant `0`. -/
theorem wake_resets_tenant :
    ∃ s, run Tenancy.step (init 0) wakeOps = some s ∧ s.tenantFor 7 = some 1 ∧
      s.scheduler.registry.isActive 7 ∧ s.scheduler.registry.tenantOf 7 = some 0 ∧
      (0, 7) ∈ s.supervised ∧ ¬ s.Stable := by
  have hrun : (run Tenancy.step (init 0) wakeOps).any (fun s =>
      decide (s.tenantFor 7 = some 1 ∧ s.scheduler.registry.isActive 7 ∧
        s.scheduler.registry.tenantOf 7 = some 0 ∧ (0, 7) ∈ s.supervised)) = true := by
    decide +kernel
  obtain ⟨s, hs, hdata⟩ := (Option.any_eq_true _ _).mp hrun
  obtain ⟨hfor, hactive, htenant, hsup⟩ := of_decide_eq_true hdata
  refine ⟨s, hs, hfor, hactive, htenant, hsup, fun hstable => ?_⟩
  have := hstable.supervised (0, 7) hsup 1 hfor
  cases this

end Torpor
