import Torpor.Lib.Machine
import Torpor.Scheduler.Registry

/-!
# The Guard of the Capability Stores

The registry knows a capability store by its address. The system of this module gives every
store an identity besides, so that an address which the allocator hands out again can be told
from a store that is shared: `storeOf` is the store of the last instance that was registered
for an agent. Two stores that are held at once have two addresses, and a woken agent gets a
new store.

## Main results

* `sameTenant_run`: in every run, agents recorded under one address have one tenant.
* `wiring_run`: as long as no agent leaves an address that only it was recorded under, and no
  address that is left over from evicted agents of another tenant is used again for another
  store, every recorded address belongs to an agent, and a registration panics only for a store
  that an agent of another tenant has.
* `wake_leaves_address`: after an eviction and a wake-up, a new store at the old address makes
  `register` panic.
-/

namespace Torpor

open Scheduler Machine

variable {D : Type}

/-- A capability store, as opposed to its address. -/
abbrev StoreId := ℕ

/-- The agents that are recorded under an address. -/
def Registry.recorded (r : Registry D) (ptr : ℕ) : List AgentId :=
  (r.agentCapPtr.entries.filter (·.2 == ptr)).map Sigma.fst

/-- Agents recorded under one address have one tenant. -/
def Registry.SameTenant (r : Registry D) : Prop :=
  ∀ ptr, ∀ a ∈ r.recorded ptr, ∀ b ∈ r.recorded ptr, r.tenants.lookup a = r.tenants.lookup b

/-- Every address with a tenant is one that an agent is recorded under. -/
def Registry.NoLeftover (r : Registry D) : Prop :=
  ∀ ptr, (r.capStoreTenant.lookup ptr).isSome → ∃ a, a ∈ r.recorded ptr

/-- The scheduler, and the capability store of each agent. -/
structure Wiring (D : Type) where
  scheduler : Scheduler D
  storeOf : AList fun _ : AgentId => StoreId

/-- What can happen next; `store` is the store of the instance that is registered. -/
inductive WiringOp (D : Type)
  | register (inst : ActorInstance) (store : StoreId)
  | reap
  | finish (task : TaskId)
  | evictAgent (target : AgentId) (reply : Option (EvictedState D))
  | wakeAgent (target : AgentId) (restore : Restore D) (store : StoreId)
  | deliver (target : AgentId) (admission : Admission) (restore : Restore D) (store : StoreId)

namespace Wiring

/-- A scheduler that knows no agent. -/
def init (capStorePtr : ℕ) : Wiring D := ⟨.new capStorePtr, ∅⟩

/-- The instance that a wake-up registers. -/
def woken (s : Wiring D) (target : AgentId) (restore : Restore D) : Option ActorInstance :=
  match restore with
  | .built ptr => (s.scheduler.registry.dormant.lookup target).map (restoreFromEvicted · ptr)
  | _ => none

/-- The instance that an operation registers, with its store. -/
def presents (s : Wiring D) : WiringOp D → Option (ActorInstance × StoreId)
  | .register inst store => some (inst, store)
  | .wakeAgent target restore store => (s.woken target restore).map (·, store)
  | .deliver target admission restore store =>
      if s.scheduler.registry.isActive target ∨ admission ≠ .admitted then none
      else (s.woken target restore).map (·, store)
  | _ => none

/-- The address of a store is not that of another store that an agent runs with. -/
def allocated (s : Wiring D) (ptr : ℕ) (store : StoreId) : Bool :=
  (s.scheduler.reap.registry.recorded ptr).all fun a =>
    (s.scheduler.reap.registry.handles.lookup a).isNone || s.storeOf.lookup a == some store

/-- No agent has had the store. -/
def unused (s : Wiring D) (store : StoreId) : Bool := s.storeOf.entries.all (·.2 != store)

/-- What the allocator and the builder can bring about. -/
def possible (s : Wiring D) (op : WiringOp D) : Bool :=
  (s.presents op).all fun p => s.allocated p.1.capStorePtr p.2 &&
    match op with
    | .register _ _ => true
    | _ => s.unused p.2

/-- The directory after an operation. -/
def after (s : Wiring D) (op : WiringOp D) (scheduler : Scheduler D) : Wiring D :=
  match s.presents op with
  | some (inst, store) => ⟨scheduler, s.storeOf.insert inst.agentId store⟩
  | none => ⟨scheduler, s.storeOf⟩

/-- The registry after an operation, unless it panics. An agent replies to an eviction with its
own state. -/
def perform (s : Wiring D) : WiringOp D → Option (Scheduler D)
  | .register inst _ => s.scheduler.register inst
  | .reap => some s.scheduler.reap
  | .finish task =>
      some (if task < s.scheduler.nextTask then
        { s.scheduler with finished := task :: s.scheduler.finished } else s.scheduler)
  | .evictAgent target reply =>
      some (s.scheduler.evictAgent target (reply.filter (·.id == target))).2
  | .wakeAgent target restore _ => (s.scheduler.wakeAgent target restore).map Prod.snd
  | .deliver target admission restore _ =>
      (s.scheduler.deliver target admission restore).map Prod.snd

/-- One step. -/
def step (s : Wiring D) (op : WiringOp D) : Option (Wiring D) :=
  if s.possible op then (s.perform op).map (s.after op) else none

/-- If an operation panics, the store that it presents is the store of an agent of another
tenant in the directory. -/
def PanicsOnlyIfShared (s : Wiring D) (op : WiringOp D) : Prop :=
  s.possible op → s.perform op = none →
    ∃ inst store a t, s.presents op = some (inst, store) ∧ s.storeOf.lookup a = some store ∧
      s.scheduler.registry.tenants.lookup a = some t ∧ t ≠ inst.tenant

/-- If the agent of the instance is recorded under another address, it is not the only one. -/
def KeepsAddress (s : Wiring D) (inst : ActorInstance) : Prop :=
  ∀ ptr ∈ s.scheduler.reap.registry.agentCapPtr.lookup inst.agentId, ptr ≠ inst.capStorePtr →
    ∃ a ∈ s.scheduler.reap.registry.recorded ptr, a ≠ inst.agentId

/-- If the address of the store is recorded for another tenant, none of whose agents runs, then
the store is that of one of them. -/
def FreshAddress (s : Wiring D) (inst : ActorInstance) (store : StoreId) : Prop :=
  ∀ owner ∈ s.scheduler.reap.registry.capStoreTenant.lookup inst.capStorePtr,
    owner ≠ inst.tenant →
    (∀ a ∈ s.scheduler.reap.registry.recorded inst.capStorePtr,
      s.scheduler.reap.registry.handles.lookup a = none) →
    ∃ a ∈ s.scheduler.reap.registry.recorded inst.capStorePtr, s.storeOf.lookup a = some store

/-- The condition on a step, about the directory once the agents that have ended are
forgotten. -/
def Wired (s : Wiring D) (op : WiringOp D) : Prop :=
  ∀ p ∈ s.presents op, s.KeepsAddress p.1 ∧ s.FreshAddress p.1 p.2

instance decidableKeepsAddress (s : Wiring D) (inst : ActorInstance) :
    Decidable (s.KeepsAddress inst) := by
  -- over the recorded agents, not over all identifiers
  have hrecorded (l : List AgentId) : Decidable (∃ a ∈ l, a ≠ inst.agentId) :=
    List.decidableBEx _ l
  delta KeepsAddress
  infer_instance

instance decidableFreshAddress (s : Wiring D) (inst : ActorInstance) (store : StoreId) :
    Decidable (s.FreshAddress inst store) := by
  have hended (l : List AgentId) :
      Decidable (∀ a ∈ l, s.scheduler.reap.registry.handles.lookup a = none) :=
    List.decidableBAll _ l
  have hstore (l : List AgentId) : Decidable (∃ a ∈ l, s.storeOf.lookup a = some store) :=
    List.decidableBEx _ l
  delta FreshAddress
  infer_instance

/-- The condition can be decided. -/
instance decidableWired (s : Wiring D) (op : WiringOp D) : Decidable (s.Wired op) :=
  inferInstanceAs (Decidable (∀ p ∈ s.presents op, s.KeepsAddress p.1 ∧ s.FreshAddress p.1 p.2))

end Wiring

/-! ### The tables of the guard -/

namespace Registry

@[simp] theorem mem_recorded {r : Registry D} {ptr : ℕ} {a : AgentId} :
    a ∈ r.recorded ptr ↔ r.agentCapPtr.lookup a = some ptr := by
  simp only [recorded, List.mem_map, List.mem_filter, beq_iff_eq]
  constructor
  · rintro ⟨⟨b, q⟩, ⟨hmem, rfl⟩, rfl⟩
    exact AList.mem_lookup_iff.mpr hmem
  · intro h
    exact ⟨⟨a, ptr⟩, ⟨AList.mem_lookup_iff.mp h, rfl⟩, rfl⟩

/-- The address of every recorded agent has the tenant of the agent. -/
def Owned (r : Registry D) : Prop :=
  ∀ a ptr, r.agentCapPtr.lookup a = some ptr →
    ∃ t, r.tenants.lookup a = some t ∧ r.capStoreTenant.lookup ptr = some t

theorem Owned.sameTenant {r : Registry D} (h : r.Owned) : r.SameTenant := by
  intro ptr a ha b hb
  obtain ⟨t, ht, hptr⟩ := h a ptr (mem_recorded.mp ha)
  obtain ⟨u, hu, hptr'⟩ := h b ptr (mem_recorded.mp hb)
  rw [ht, hu, ← hptr, ← hptr']

/-- The two registries have the same tables of the guard. -/
structure SameWiring (r r' : Registry D) : Prop where
  agentCapPtr : r'.agentCapPtr = r.agentCapPtr
  capStoreTenant : r'.capStoreTenant = r.capStoreTenant
  tenants : r'.tenants = r.tenants

theorem Owned.congr {r r' : Registry D} (h : r.Owned) (heq : r.SameWiring r') : r'.Owned := by
  intro a ptr ha
  rw [heq.agentCapPtr] at ha
  rw [heq.tenants, heq.capStoreTenant]
  exact h a ptr ha

theorem NoLeftover.congr {r r' : Registry D} (h : r.NoLeftover) (heq : r.SameWiring r') :
    r'.NoLeftover := by
  intro ptr hptr
  rw [heq.capStoreTenant] at hptr
  obtain ⟨a, ha⟩ := h ptr hptr
  exact ⟨a, by rwa [mem_recorded, heq.agentCapPtr, ← mem_recorded]⟩

theorem agentCapPtr_reapOne (r : Registry D) (id a : AgentId) :
    (r.reapOne id).agentCapPtr.lookup a = if a = id then none else r.agentCapPtr.lookup a := by
  simp only [reapOne]
  rcases hid : r.agentCapPtr.lookup id with _ | ptr
  · split_ifs with ha
    · exact ha ▸ hid
    · rfl
  · simp only
    split_ifs with hany ha ha
    · exact ha ▸ AList.lookup_erase _ _
    · exact AList.lookup_erase_ne ha
    · exact ha ▸ AList.lookup_erase _ _
    · exact AList.lookup_erase_ne ha

theorem any_erase_iff (r : Registry D) (id : AgentId) (ptr : ℕ) :
    (r.agentCapPtr.erase id).entries.any (·.2 == ptr) = true ↔
      ∃ a, a ≠ id ∧ a ∈ r.recorded ptr := by
  rw [List.any_eq_true]
  constructor
  · rintro ⟨⟨a, q⟩, hmem, hq⟩
    obtain rfl := beq_iff_eq.mp hq
    have hlookup := AList.mem_lookup_iff.mpr hmem
    have hne : a ≠ id := by
      rintro rfl
      rw [AList.lookup_erase] at hlookup
      cases hlookup
    rw [AList.lookup_erase_ne hne] at hlookup
    exact ⟨a, hne, mem_recorded.mpr hlookup⟩
  · rintro ⟨a, hne, ha⟩
    refine ⟨⟨a, ptr⟩, AList.mem_lookup_iff.mp ?_, beq_self_eq_true ptr⟩
    rw [AList.lookup_erase_ne hne]
    exact mem_recorded.mp ha

/-- Forgetting an agent drops the tenant of its address, unless another agent is recorded
there. -/
theorem capStoreTenant_reapOne (r : Registry D) (id : AgentId) (ptr : ℕ) :
    (r.reapOne id).capStoreTenant.lookup ptr =
      if r.agentCapPtr.lookup id = some ptr ∧ ¬ ∃ a, a ≠ id ∧ a ∈ r.recorded ptr then none
      else r.capStoreTenant.lookup ptr := by
  simp only [reapOne]
  rcases hid : r.agentCapPtr.lookup id with _ | q
  · rw [if_neg (by simp)]
  · simp only [Option.some.injEq]
    by_cases hany : (r.agentCapPtr.erase id).entries.any (·.2 == q) = true
    · rw [if_pos hany, if_neg]
      rintro ⟨rfl, hnone⟩
      exact hnone ((r.any_erase_iff id q).mp hany)
    · rw [if_neg hany]
      by_cases hptr : ptr = q
      · subst hptr
        rw [AList.lookup_erase, if_pos ⟨rfl, fun h => hany ((r.any_erase_iff id ptr).mpr h)⟩]
      · rw [AList.lookup_erase_ne hptr, if_neg fun h => hptr h.1.symm]

theorem tenants_reapOne (r : Registry D) (id a : AgentId) :
    (r.reapOne id).tenants.lookup a = if a = id then none else r.tenants.lookup a := by
  rw [(r.reapOne_eq id).2.2.1]
  split_ifs with ha
  · exact ha ▸ AList.lookup_erase _ _
  · exact AList.lookup_erase_ne ha

theorem Owned.reapOne {r : Registry D} (h : r.Owned) (id : AgentId) : (r.reapOne id).Owned := by
  intro a ptr ha
  rw [agentCapPtr_reapOne] at ha
  split_ifs at ha with hid
  obtain ⟨t, ht, hptr⟩ := h a ptr ha
  refine ⟨t, by rw [tenants_reapOne, if_neg hid, ht], ?_⟩
  rw [capStoreTenant_reapOne, if_neg, hptr]
  exact fun hnone => hnone.2 ⟨a, hid, mem_recorded.mpr ha⟩

theorem NoLeftover.reapOne {r : Registry D} (h : r.NoLeftover) (id : AgentId) :
    (r.reapOne id).NoLeftover := by
  have hkept : ∀ a ptr, a ≠ id → a ∈ r.recorded ptr → a ∈ (r.reapOne id).recorded ptr := by
    intro a ptr hne ha
    rw [mem_recorded, agentCapPtr_reapOne, if_neg hne]
    exact mem_recorded.mp ha
  intro ptr hptr
  rw [capStoreTenant_reapOne] at hptr
  split_ifs at hptr with hnone
  · cases hptr
  · obtain ⟨a, ha⟩ := h ptr hptr
    by_cases hid : a = id
    · -- the agent that is forgotten was recorded there, so another one is as well
      obtain ⟨b, hne, hb⟩ : ∃ b, b ≠ id ∧ b ∈ r.recorded ptr := by
        by_contra hno
        exact hnone ⟨mem_recorded.mp (hid ▸ ha), hno⟩
      exact ⟨b, hkept b ptr hne hb⟩
    · exact ⟨a, hkept a ptr hid ha⟩

/-- What forgetting one agent keeps, `reap` keeps. -/
theorem reap_induction {P : Registry D → Prop} (hstep : ∀ r id, P r → P (r.reapOne id))
    {r : Registry D} (hr : P r) (finished : List TaskId) : P (r.reap finished) := by
  rw [Registry.reap]
  induction r.finishedAgents finished generalizing r with
  | nil => exact hr
  | cons id ids ih => exact ih (hstep r id hr)

/-- Forgetting agents does not depend on the dormant table. -/
theorem reap_dormant (r : Registry D) (dormant : AList fun _ : AgentId => EvictedState D)
    (finished : List TaskId) :
    ({ r with dormant } : Registry D).reap finished = { r.reap finished with dormant } := by
  have hone : ∀ (r : Registry D) id,
      ({ r with dormant } : Registry D).reapOne id = { r.reapOne id with dormant } := by
    intro r id
    simp only [reapOne]
    rcases r.agentCapPtr.lookup id with _ | ptr
    · rfl
    · simp only
      split_ifs <;> rfl
  have hfold : ∀ (ids : List AgentId) (r : Registry D),
      ids.foldl Registry.reapOne { r with dormant } =
        { ids.foldl Registry.reapOne r with dormant } := by
    intro ids
    induction ids with
    | nil => exact fun r => rfl
    | cons id ids ih =>
        intro r
        rw [List.foldl_cons, List.foldl_cons, hone, ih]
  exact hfold (r.finishedAgents finished) r

theorem tenants_of_reap {r : Registry D} {finished : List TaskId} {a : AgentId} {t : TenantId}
    (h : (r.reap finished).tenants.lookup a = some t) : r.tenants.lookup a = some t := by
  have hkept : ∀ (r' : Registry D) id,
      (∀ a t, r'.tenants.lookup a = some t → r.tenants.lookup a = some t) →
      ∀ a t, (r'.reapOne id).tenants.lookup a = some t → r.tenants.lookup a = some t := by
    intro r' id hr' a t ht
    rw [tenants_reapOne] at ht
    split_ifs at ht
    exact hr' a t ht
  exact reap_induction hkept (fun _ _ ht => ht) finished a t h

end Registry

namespace Scheduler

theorem agentCapPtr_enroll (s : Scheduler D) (inst : ActorInstance) (a : AgentId) :
    (s.enroll inst).registry.agentCapPtr.lookup a =
      if a = inst.agentId then some inst.capStorePtr else s.registry.agentCapPtr.lookup a := by
  simp only [enroll, AList.lookup_insert_ite]

theorem capStoreTenant_enroll (s : Scheduler D) (inst : ActorInstance) (ptr : ℕ) :
    (s.enroll inst).registry.capStoreTenant.lookup ptr =
      if ptr = inst.capStorePtr then some inst.tenant
      else s.registry.capStoreTenant.lookup ptr := by
  simp only [enroll, AList.lookup_insert_ite]

/-- Entering an instance whose address is not that of another tenant. -/
theorem owned_enroll {s : Scheduler D} (h : s.registry.Owned) {inst : ActorInstance}
    (hguard : ∀ owner ∈ s.registry.capStoreTenant.lookup inst.capStorePtr,
      owner = inst.tenant) : (s.enroll inst).registry.Owned := by
  intro a ptr ha
  rw [agentCapPtr_enroll] at ha
  have htenant := s.tenantOf_enroll inst a
  rw [Registry.tenantOf] at htenant
  rw [htenant, capStoreTenant_enroll]
  split_ifs at ha ⊢ with hid hptr hptr
  · exact ⟨inst.tenant, rfl, rfl⟩
  · exact absurd (Option.some.inj ha).symm hptr
  · subst hptr
    obtain ⟨t, ht, howner⟩ := h a inst.capStorePtr ha
    exact ⟨t, ht, by rw [hguard t howner]⟩
  · exact h a ptr ha

/-- Entering an instance leaves no address over unless it was the agent's alone. -/
theorem noLeftover_enroll {s : Scheduler D} (h : s.registry.NoLeftover) {inst : ActorInstance}
    (hkeep : ∀ ptr ∈ s.registry.agentCapPtr.lookup inst.agentId, ptr ≠ inst.capStorePtr →
      ∃ a ∈ s.registry.recorded ptr, a ≠ inst.agentId) :
    (s.enroll inst).registry.NoLeftover := by
  intro ptr hptr
  rw [capStoreTenant_enroll] at hptr
  by_cases heq : ptr = inst.capStorePtr
  · refine ⟨inst.agentId, ?_⟩
    rw [Registry.mem_recorded, agentCapPtr_enroll, if_pos rfl, heq]
  · rw [if_neg heq] at hptr
    obtain ⟨a, ha⟩ := h ptr hptr
    obtain ⟨b, hb, hne⟩ : ∃ b ∈ s.registry.recorded ptr, b ≠ inst.agentId := by
      by_cases hid : a = inst.agentId
      · exact hkeep ptr (hid ▸ Registry.mem_recorded.mp ha) heq
      · exact ⟨a, ha, hid⟩
    refine ⟨b, ?_⟩
    rw [Registry.mem_recorded, agentCapPtr_enroll, if_neg hne]
    exact Registry.mem_recorded.mp hb

/-- A registration that does not panic finds no other tenant under the address. -/
theorem register_guard {s s' : Scheduler D} {inst : ActorInstance}
    (h : s.register inst = some s') :
    ∀ owner ∈ s.reap.registry.capStoreTenant.lookup inst.capStorePtr, owner = inst.tenant := by
  intro owner howner
  simp only [register, Option.mem_def.mp howner] at h
  split_ifs at h with hne
  exact not_not.mp hne

/-- A registration panics only if it finds another tenant under the address. -/
theorem register_eq_none {s : Scheduler D} {inst : ActorInstance} (h : s.register inst = none) :
    ∃ owner ∈ s.reap.registry.capStoreTenant.lookup inst.capStorePtr, owner ≠ inst.tenant := by
  rcases hlookup : s.reap.registry.capStoreTenant.lookup inst.capStorePtr with _ | owner
  · simp [register, hlookup] at h
  · simp only [register, hlookup] at h
    split_ifs at h with hne
    exact ⟨owner, rfl, hne⟩

/-- Taking an agent off the dormant table and forgetting the agents that have ended. -/
theorem reap_undormant (s : Scheduler D) (target : AgentId) :
    (s.undormant target).reap = s.reap.undormant target := by
  have hdormant := s.registry.reap_dormant (s.registry.dormant.erase target) s.finished
  have hreap : (s.registry.reap s.finished).dormant = s.registry.dormant :=
    (s.registry.reap_forgets s.finished).dormant
  simp only [reap, undormant, hdormant, hreap]

end Scheduler

namespace Wiring

/-- The tables of the guard after an instance has been registered. -/
def Enters (s : Wiring D) (inst : ActorInstance) (scheduler : Scheduler D) : Prop :=
  (∀ owner ∈ s.scheduler.reap.registry.capStoreTenant.lookup inst.capStorePtr,
      owner = inst.tenant) ∧
    (s.scheduler.reap.enroll inst).registry.SameWiring scheduler.registry

/-- An instance finds another tenant under its address. -/
def Clashes (s : Wiring D) (inst : ActorInstance) : Prop :=
  ∃ owner ∈ s.scheduler.reap.registry.capStoreTenant.lookup inst.capStorePtr,
    owner ≠ inst.tenant

/-- A wake-up that does not panic registers the instance that it presents, or changes nothing
in the tables of the guard. -/
theorem wake_eq_some {s : Wiring D} {target : AgentId} {restore : Restore D}
    {r : Except (DeliverError D) AgentId × Scheduler D}
    (h : s.scheduler.wakeAgent target restore = some r) :
    (s.woken target restore = none ∧ s.scheduler.registry.SameWiring r.2.registry) ∨
      ∃ inst, s.woken target restore = some inst ∧ s.Enters inst r.2 := by
  rcases wakeAgent_cases h with ⟨hnone, heq⟩ | ⟨hne, heq⟩ | ⟨ev, ptr, hev, rfl, hreg⟩
  · refine .inl ⟨?_, heq ▸ ⟨rfl, rfl, rfl⟩⟩
    cases restore with
    | built ptr => rw [woken, hnone, Option.map_none]
    | missingBlock hash => rfl
    | failed => rfl
  · refine .inl ⟨?_, heq ▸ ⟨rfl, rfl, rfl⟩⟩
    cases restore with
    | built ptr => exact absurd rfl (hne ptr)
    | missingBlock hash => rfl
    | failed => rfl
  · refine .inr ⟨restoreFromEvicted ev ptr, by rw [woken, hev, Option.map_some], ?_, ?_⟩
    · have hguard := register_guard hreg
      rwa [reap_undormant] at hguard
    · rw [register_eq_some hreg, reap_undormant]
      exact ⟨rfl, rfl, rfl⟩

/-- A wake-up panics only if the instance that it presents finds another tenant. -/
theorem wake_eq_none {s : Wiring D} {target : AgentId} {restore : Restore D}
    (h : s.scheduler.wakeAgent target restore = none) :
    ∃ inst, s.woken target restore = some inst ∧ s.Clashes inst := by
  simp only [wakeAgent] at h
  rcases hev : s.scheduler.registry.dormant.lookup target with _ | ev
  · rw [hev] at h
    cases h
  · rw [hev] at h
    cases restore with
    | built ptr =>
        obtain ⟨owner, howner, hne⟩ := register_eq_none (Option.map_eq_none_iff.mp h)
        rw [reap_undormant] at howner
        exact ⟨_, by rw [woken, hev, Option.map_some], owner, howner, hne⟩
    | missingBlock hash => cases h
    | failed => cases h

/-- An operation that does not panic registers the instance that it presents; if it presents
none, it changes nothing in the tables of the guard, or forgets the agents that have ended. -/
theorem perform_eq_some {s : Wiring D} {op : WiringOp D} {scheduler : Scheduler D}
    (h : s.perform op = some scheduler) :
    (s.presents op = none ∧
      (s.scheduler.registry.SameWiring scheduler.registry ∨
        s.scheduler.reap.registry.SameWiring scheduler.registry)) ∨
      ∃ inst store, s.presents op = some (inst, store) ∧ s.Enters inst scheduler := by
  cases op with
  | register inst store =>
      refine .inr ⟨inst, store, rfl, register_guard h, ?_⟩
      rw [register_eq_some h]
      exact ⟨rfl, rfl, rfl⟩
  | reap =>
      obtain rfl := Option.some.inj h
      exact .inl ⟨rfl, .inr ⟨rfl, rfl, rfl⟩⟩
  | finish task =>
      obtain rfl := Option.some.inj h
      refine .inl ⟨rfl, .inl ?_⟩
      split_ifs <;> exact ⟨rfl, rfl, rfl⟩
  | evictAgent target reply =>
      obtain rfl := Option.some.inj h
      refine .inl ⟨rfl, .inl ?_⟩
      rcases s.scheduler.evictAgent_cases target (reply.filter (·.id == target)) with
        heq | ⟨ev, -, -, heq⟩
      · rw [heq]
        exact ⟨rfl, rfl, rfl⟩
      · rw [heq]
        exact ⟨rfl, rfl, rfl⟩
  | wakeAgent target restore store =>
      obtain ⟨r, hwake, rfl⟩ := Option.map_eq_some_iff.mp h
      rcases wake_eq_some hwake with ⟨hnone, hsame⟩ | ⟨inst, hwoken, henters⟩
      · exact .inl ⟨by rw [presents, hnone, Option.map_none], .inl hsame⟩
      · exact .inr ⟨inst, store, by rw [presents, hwoken, Option.map_some], henters⟩
  | deliver target admission restore store =>
      obtain ⟨r, hdeliver, rfl⟩ := Option.map_eq_some_iff.mp h
      rcases deliver_cases hdeliver with ⟨hnot, heq⟩ | ⟨hactive, -, hadmitted, w, hwake, heq⟩
      · refine .inl ⟨?_, .inl (heq ▸ ⟨rfl, rfl, rfl⟩)⟩
        rw [presents]
        split_ifs with hbranch
        · rfl
        · rw [not_or] at hbranch
          have hnone : s.scheduler.registry.dormant.lookup target = none :=
            Option.not_isSome_iff_eq_none.mp fun hd =>
              hnot ⟨hbranch.1, hd, not_not.mp hbranch.2⟩
          cases restore with
          | built ptr => rw [woken, hnone, Option.map_none, Option.map_none]
          | missingBlock hash => rfl
          | failed => rfl
      · have hbranch : ¬ (s.scheduler.registry.isActive target ∨ admission ≠ .admitted) := by
          simp [hactive, hadmitted]
        rw [heq]
        rcases wake_eq_some hwake with ⟨hnone, hsame⟩ | ⟨inst, hwoken, henters⟩
        · exact .inl ⟨by rw [presents, if_neg hbranch, hnone, Option.map_none], .inl hsame⟩
        · exact .inr ⟨inst, store,
            by rw [presents, if_neg hbranch, hwoken, Option.map_some], henters⟩

/-- An operation panics only if the instance that it presents finds another tenant. -/
theorem perform_eq_none {s : Wiring D} {op : WiringOp D} (h : s.perform op = none) :
    ∃ inst store, s.presents op = some (inst, store) ∧ s.Clashes inst := by
  cases op with
  | register inst store => exact ⟨inst, store, rfl, register_eq_none h⟩
  | reap => cases h
  | finish task => cases h
  | evictAgent target reply => cases h
  | wakeAgent target restore store =>
      obtain ⟨inst, hwoken, hclash⟩ := wake_eq_none (Option.map_eq_none_iff.mp h)
      exact ⟨inst, store, by rw [presents, hwoken, Option.map_some], hclash⟩
  | deliver target admission restore store =>
      have hdeliver := Option.map_eq_none_iff.mp h
      simp only [deliver] at hdeliver
      split_ifs at hdeliver with hactive hdormant
      cases admission with
      | noSlot => cases hdeliver
      | cancelled => cases hdeliver
      | admitted =>
          rcases hwake : s.scheduler.wakeAgent target restore with _ | ⟨result, s'⟩
          · obtain ⟨inst, hwoken, hclash⟩ := wake_eq_none hwake
            refine ⟨inst, store, ?_, hclash⟩
            rw [presents, if_neg (by simp [hactive]), hwoken, Option.map_some]
          · rw [hwake] at hdeliver
            cases result <;> cases hdeliver

/-! ### Steps and runs -/

theorem step_eq_some {s s' : Wiring D} {op : WiringOp D} (h : s.step op = some s') :
    s.possible op = true ∧ ∃ scheduler, s.perform op = some scheduler ∧
      s'.scheduler = scheduler := by
  simp only [step] at h
  split_ifs at h with hpossible
  obtain ⟨scheduler, hperform, rfl⟩ := Option.map_eq_some_iff.mp h
  refine ⟨hpossible, scheduler, hperform, ?_⟩
  simp only [after]
  rcases s.presents op with _ | ⟨inst, store⟩ <;> rfl

/-- Every step keeps the tenants of the recorded addresses. -/
theorem owned_step {s s' : Wiring D} {op : WiringOp D} (h : s.scheduler.registry.Owned)
    (hstep : s.step op = some s') : s'.scheduler.registry.Owned := by
  obtain ⟨-, scheduler, hperform, heq⟩ := step_eq_some hstep
  have hreap : s.scheduler.reap.registry.Owned :=
    Registry.reap_induction (fun _ id hr => hr.reapOne id) h _
  rw [heq]
  rcases perform_eq_some hperform with ⟨-, hsame | hsame⟩ | ⟨inst, store, -, hguard, hsame⟩
  · exact h.congr hsame
  · exact hreap.congr hsame
  · exact (owned_enroll hreap hguard).congr hsame

/-- A step under the condition leaves no address over. -/
theorem noLeftover_step {s s' : Wiring D} {op : WiringOp D}
    (h : s.scheduler.registry.NoLeftover) (hwired : s.Wired op)
    (hstep : s.step op = some s') : s'.scheduler.registry.NoLeftover := by
  obtain ⟨-, scheduler, hperform, heq⟩ := step_eq_some hstep
  have hreap : s.scheduler.reap.registry.NoLeftover :=
    Registry.reap_induction (fun _ id hr => hr.reapOne id) h _
  rw [heq]
  rcases perform_eq_some hperform with ⟨-, hsame | hsame⟩ | ⟨inst, store, hpresents, -, hsame⟩
  · exact h.congr hsame
  · exact hreap.congr hsame
  · exact (noLeftover_enroll hreap (hwired (inst, store) hpresents).1).congr hsame

/-- An operation under the condition panics only for a store that is shared. -/
theorem panicsOnlyIfShared {s : Wiring D} {op : WiringOp D} (hown : s.scheduler.registry.Owned)
    (hleft : s.scheduler.registry.NoLeftover) (hwired : s.Wired op) :
    s.PanicsOnlyIfShared op := by
  intro hpossible hpanic
  obtain ⟨inst, store, hpresents, owner, howner, hne⟩ := perform_eq_none hpanic
  have hreapOwned : s.scheduler.reap.registry.Owned :=
    Registry.reap_induction (fun _ id hr => hr.reapOne id) hown _
  have hreapLeft : s.scheduler.reap.registry.NoLeftover :=
    Registry.reap_induction (fun _ id hr => hr.reapOne id) hleft _
  -- the agent whose store it is: one that runs, or else one that the condition names
  obtain ⟨a, ha, hstore⟩ : ∃ a ∈ s.scheduler.reap.registry.recorded inst.capStorePtr,
      s.storeOf.lookup a = some store := by
    by_cases hruns : ∀ a ∈ s.scheduler.reap.registry.recorded inst.capStorePtr,
        s.scheduler.reap.registry.handles.lookup a = none
    · exact (hwired (inst, store) hpresents).2 owner howner hne hruns
    · push Not at hruns
      obtain ⟨a, ha, hhandle⟩ := hruns
      rw [possible, hpresents, Option.all_some, Bool.and_eq_true] at hpossible
      have hallocated := List.all_eq_true.mp hpossible.1 a ha
      rw [Bool.or_eq_true, Option.isNone_iff_eq_none, beq_iff_eq] at hallocated
      exact ⟨a, ha, hallocated.resolve_left hhandle⟩
  obtain ⟨t, ht, howner'⟩ := hreapOwned a inst.capStorePtr (Registry.mem_recorded.mp ha)
  rw [Option.mem_def.mp howner] at howner'
  obtain rfl := Option.some.inj howner'
  exact ⟨inst, store, a, owner, hpresents, hstore, Registry.tenants_of_reap ht, hne⟩

theorem owned_init (capStorePtr : ℕ) :
    (init capStorePtr : Wiring D).scheduler.registry.Owned := by
  intro a ptr h
  cases h

theorem noLeftover_init (capStorePtr : ℕ) :
    (init capStorePtr : Wiring D).scheduler.registry.NoLeftover := by
  intro ptr h
  cases h

end Wiring

open Wiring

/-- In every run, agents recorded under one address have one tenant. -/
theorem sameTenant_run {capStorePtr : ℕ} {ops : List (WiringOp D)} {s : Wiring D}
    (hrun : run Wiring.step (init capStorePtr) ops = some s) :
    s.scheduler.registry.SameTenant := by
  have hstep : ∀ (s : Wiring D) op s', s.scheduler.registry.Owned → s.step op = some s' →
      s'.scheduler.registry.Owned := fun _ _ _ h hs => owned_step h hs
  exact (run_invariant hstep (owned_init capStorePtr) hrun).sameTenant

/-- **The guard of the capability stores.** In every run whose steps meet the condition, agents
recorded under one address have one tenant, every address with a tenant is one that an agent is
recorded under, and a further operation that meets the condition panics only if it presents a
store that an agent of another tenant has. -/
theorem wiring_run {capStorePtr : ℕ} {ops : List (WiringOp D)} {s : Wiring D}
    (hwired : Along Wiring.step Wired (init capStorePtr) ops)
    (hrun : run Wiring.step (init capStorePtr) ops = some s) :
    s.scheduler.registry.SameTenant ∧ s.scheduler.registry.NoLeftover ∧
      ∀ op, s.Wired op → s.PanicsOnlyIfShared op := by
  have hstep : ∀ (s : Wiring D) op s',
      s.scheduler.registry.Owned ∧ s.scheduler.registry.NoLeftover → s.Wired op →
      s.step op = some s' → s'.scheduler.registry.Owned ∧ s'.scheduler.registry.NoLeftover :=
    fun _ _ _ h hw hs => ⟨owned_step h.1 hs, noLeftover_step h.2 hw hs⟩
  obtain ⟨hown, hleft⟩ := run_invariant_along hstep
    ⟨owned_init capStorePtr, noLeftover_init capStorePtr⟩ hwired hrun
  exact ⟨hown.sameTenant, hleft, fun op hop => panicsOnlyIfShared hown hleft hop⟩

/-- An agent of the default tenant is evicted and woken up; its new store lies where the old
one was. -/
def sameAddressOps : List (WiringOp (List ℕ)) :=
  [.register ⟨7, 0, 100⟩ 1, .evictAgent 7 (some ⟨7, 0, none, none⟩),
    .wakeAgent 7 (.built 100) 2]

theorem wiring_run_sameAddress : ∃ s, run Wiring.step (init 0) sameAddressOps = some s ∧
    s.scheduler.registry.SameTenant ∧ s.scheduler.registry.NoLeftover ∧
      ∀ op, s.Wired op → s.PanicsOnlyIfShared op := by
  have hsome : (run Wiring.step (init 0) sameAddressOps).isSome = true := by decide +kernel
  have hwired : Along Wiring.step Wired (init 0) sameAddressOps := by decide +kernel
  obtain ⟨s, hs⟩ := Option.isSome_iff_exists.mp hsome
  exact ⟨s, hs, wiring_run hwired hs⟩

namespace Wiring

/-- A panic over a store that no agent has had. -/
theorem not_panicsOnlyIfShared {s : Wiring D} {op : WiringOp D} {inst : ActorInstance}
    {store : StoreId} (hpossible : s.possible op = true) (hpanic : (s.perform op).isNone = true)
    (hpresents : s.presents op = some (inst, store)) (hunused : s.unused store = true) :
    ¬ s.PanicsOnlyIfShared op := by
  intro h
  obtain ⟨inst', store', a, t, hpresents', hstore, -, -⟩ :=
    h hpossible (Option.isNone_iff_eq_none.mp hpanic)
  rw [hpresents] at hpresents'
  cases hpresents'
  have hne := List.all_eq_true.mp hunused ⟨a, store⟩ (AList.mem_lookup_iff.mp hstore)
  simp at hne

end Wiring

/-- An agent of tenant `1` is registered and evicted. -/
def leftoverOps : List (WiringOp (List ℕ)) :=
  [.register ⟨7, 1, 100⟩ 1, .evictAgent 7 (some ⟨7, 0, none, none⟩)]

/-- Once an agent of tenant `1` has been evicted, the registration of an agent of tenant `2`
panics because its new store lies at the address of the one that was freed. The wake-up of the
evicted agent leaves this address over: nobody is recorded under it, and it makes a
registration panic all the same. -/
theorem wake_leaves_address :
    ∃ s₁ s₂, run Wiring.step (init 0) leftoverOps = some s₁ ∧
      ¬ s₁.PanicsOnlyIfShared (.register ⟨8, 2, 100⟩ 2) ∧
      s₁.step (.wakeAgent 7 (.built 200) 2) = some s₂ ∧
      ¬ s₂.scheduler.registry.NoLeftover ∧ ¬ s₂.PanicsOnlyIfShared (.register ⟨8, 2, 100⟩ 3) := by
  have hrun : (run Wiring.step (init 0) leftoverOps).any (fun s₁ : Wiring (List ℕ) =>
      decide (s₁.possible (.register ⟨8, 2, 100⟩ 2) ∧
        (s₁.perform (.register ⟨8, 2, 100⟩ 2)).isNone ∧ s₁.unused 2) &&
      (s₁.step (.wakeAgent 7 (.built 200) 2)).any fun s₂ : Wiring (List ℕ) =>
        decide ((s₂.scheduler.registry.capStoreTenant.lookup 100).isSome ∧
          s₂.scheduler.registry.recorded 100 = [] ∧ s₂.possible (.register ⟨8, 2, 100⟩ 3) ∧
          (s₂.perform (.register ⟨8, 2, 100⟩ 3)).isNone ∧ s₂.unused 3)) = true := by
    decide +kernel
  obtain ⟨s₁, hs₁, hany⟩ := (Option.any_eq_true _ _).mp hrun
  obtain ⟨hfirst, hany⟩ := Bool.and_eq_true_iff.mp hany
  obtain ⟨hpossible, hpanic, hunused⟩ := of_decide_eq_true hfirst
  obtain ⟨s₂, hs₂, hsecond⟩ := (Option.any_eq_true _ _).mp hany
  obtain ⟨htenant, hnobody, hpossible', hpanic', hunused'⟩ := of_decide_eq_true hsecond
  refine ⟨s₁, s₂, hs₁, not_panicsOnlyIfShared hpossible hpanic rfl hunused, hs₂, fun h => ?_,
    not_panicsOnlyIfShared hpossible' hpanic' rfl hunused'⟩
  obtain ⟨a, ha⟩ := h 100 htenant
  rw [hnobody] at ha
  cases ha

end Torpor
