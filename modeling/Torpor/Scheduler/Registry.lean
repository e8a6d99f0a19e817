import Torpor.Capabilities.Basic

/-!
# The Registry and the Supervisor

The directory of agents (`Registry`: senders, task handles, dormant agents, tenants) and the
supervision of agents under an authority (`Supervisor`), with the facade `Scheduler`.

A task is a number; the environment decides when the task of an agent ends (`finished`). What
an operation learns from the agent, from the content store or from the admission queue is an
argument: the reply to an eviction, the outcome of a restoration, the outcome of an admission.
A panic is `none`. What a message does to its receiver is not part of this model; sending one
succeeds as long as the task of the receiver has not ended.
-/

namespace Torpor

/-- A Tokio task that runs an agent. -/
abbrev TaskId := ℕ

/-- What `register` reads of an instance: `cap_store_ptr` is the address of its capability
store. -/
structure ActorInstance where
  agentId : AgentId
  tenant : TenantId
  capStorePtr : ℕ
  deriving DecidableEq, Repr

/-- `Registry`. -/
structure Registry (D : Type) where
  senders : AList fun _ : AgentId => TaskId
  handles : AList fun _ : AgentId => TaskId
  dormant : AList fun _ : AgentId => EvictedState D
  tenants : AList fun _ : AgentId => TenantId
  capStoreTenant : AList fun _ : ℕ => TenantId
  agentCapPtr : AList fun _ : AgentId => ℕ

/-- `Scheduler`: the registry, the capability store shared with the supervisor, and the tasks
that have ended. -/
structure Scheduler (D : Type) where
  registry : Registry D
  capStore : CapabilityStore
  capStorePtr : ℕ
  finished : List TaskId
  nextTask : TaskId

variable {D : Type}

/-! ### The registry -/

namespace Registry

/-- `Registry::new`. -/
def new : Registry D := ⟨∅, ∅, ∅, ∅, ∅, ∅⟩

/-- `tenant_of`. -/
def tenantOf (r : Registry D) (agent : AgentId) : Option TenantId := r.tenants.lookup agent

/-- `is_active`. -/
def isActive (r : Registry D) (agent : AgentId) : Bool := (r.senders.lookup agent).isSome

/-- `is_dormant`. -/
def isDormant (r : Registry D) (agent : AgentId) : Bool := (r.dormant.lookup agent).isSome

theorem isDormant_of_lookup {r : Registry D} {agent : AgentId} {ev : EvictedState D}
    (h : r.dormant.lookup agent = some ev) : r.isDormant agent := by
  rw [isDormant, h]
  rfl

/-- One round of the loop of `reap`: forget an agent whose task has ended, and its capability
store unless another agent uses it. -/
def reapOne (r : Registry D) (id : AgentId) : Registry D :=
  let r := { r with
    handles := r.handles.erase id
    senders := r.senders.erase id
    tenants := r.tenants.erase id }
  match r.agentCapPtr.lookup id with
  | none => r
  | some ptr =>
      let r := { r with agentCapPtr := r.agentCapPtr.erase id }
      if r.agentCapPtr.entries.any (·.2 == ptr) then r
      else { r with capStoreTenant := r.capStoreTenant.erase ptr }

/-- The agents whose task has ended; the order in which `reap` meets them does not matter. -/
def finishedAgents (r : Registry D) (finished : List TaskId) : List AgentId :=
  (r.handles.entries.filter fun e => e.2 ∈ finished).map Sigma.fst

/-- `reap`. -/
def reap (r : Registry D) (finished : List TaskId) : Registry D :=
  (r.finishedAgents finished).foldl reapOne r

end Registry

/-! ### Operations of the registry, on the scheduler -/

namespace Scheduler

/-- `Scheduler::new`. -/
def new (capStorePtr : ℕ) : Scheduler D :=
  { registry := .new, capStore := .new, capStorePtr, finished := [], nextTask := 0 }

/-- `reap`. -/
def reap (s : Scheduler D) : Scheduler D := { s with registry := s.registry.reap s.finished }

/-- The tables of `register` after its guard has passed. -/
def enroll (s : Scheduler D) (inst : ActorInstance) : Scheduler D :=
  { s with
    registry := { s.registry with
      capStoreTenant := s.registry.capStoreTenant.insert inst.capStorePtr inst.tenant
      agentCapPtr := s.registry.agentCapPtr.insert inst.agentId inst.capStorePtr
      tenants := s.registry.tenants.insert inst.agentId inst.tenant
      senders := s.registry.senders.insert inst.agentId s.nextTask
      handles := s.registry.handles.insert inst.agentId s.nextTask }
    nextTask := s.nextTask + 1 }

/-- `register`: panics when the capability store of the instance belongs to another tenant. -/
def register (s : Scheduler D) (inst : ActorInstance) : Option (Scheduler D) :=
  let s := s.reap
  match s.registry.capStoreTenant.lookup inst.capStorePtr with
  | some owner => if owner ≠ inst.tenant then none else some (s.enroll inst)
  | none => some (s.enroll inst)

/-- `send`: whether a message reaches the inbox of its target. -/
def send (s : Scheduler D) (target : AgentId) : Bool :=
  match s.registry.senders.lookup target with
  | none => false
  | some task => task ∉ s.finished

/-- `evict_agent`. The agent replies with its state and ends its task, or ends without a
reply. -/
def evictAgent (s : Scheduler D) (target : AgentId) (reply : Option (EvictedState D)) :
    Option (EvictedState D) × Scheduler D :=
  if !s.send target then (none, s)
  else match reply with
    | none => (none, s)
    | some evicted =>
        (some evicted, { s with
          registry := { s.registry with
            handles := s.registry.handles.erase target
            senders := s.registry.senders.erase target
            dormant := s.registry.dormant.insert evicted.id evicted }
          finished := (s.registry.handles.lookup target).toList ++ s.finished })

/-- `DeliverError`; the reason of a failed wake-up is a text in the source. -/
inductive DeliverError (D : Type)
  | unknown
  | ioCongested
  | wakeFailed
  | danglingSnapshot (hash : D)
  deriving DecidableEq, Repr

/-- How `restore_from_evicted` ends: with an instance whose new capability store is at the
given address, or with an error. -/
inductive Restore (D : Type)
  | built (capStorePtr : ℕ)
  | missingBlock (hash : D)
  | failed
  deriving DecidableEq, Repr

/-- The instance that `restore_from_evicted` builds: the builder's defaults, then
`copy_evicted_fields`, which copies the sequence number, the last snapshot and the last
action. -/
def restoreFromEvicted (evicted : EvictedState D) (capStorePtr : ℕ) : ActorInstance :=
  { agentId := evicted.id, tenant := TenantId.default, capStorePtr }

/-- Take an agent off the dormant table. -/
def undormant (s : Scheduler D) (target : AgentId) : Scheduler D :=
  { s with registry := { s.registry with dormant := s.registry.dormant.erase target } }

/-- `wake_agent`. -/
def wakeAgent (s : Scheduler D) (target : AgentId) (restore : Restore D) :
    Option (Except (DeliverError D) AgentId × Scheduler D) :=
  match s.registry.dormant.lookup target with
  | none => some (.error .wakeFailed, s)
  | some evicted =>
      let s := s.undormant target
      match restore with
      | .missingBlock hash => some (.error (.danglingSnapshot hash), s)
      | .failed => some (.error .wakeFailed, s)
      | .built ptr => (s.register (restoreFromEvicted evicted ptr)).map fun s => (.ok target, s)

/-- How `IoAdmissionQueue::acquire` ends. -/
inductive Admission
  | admitted
  | noSlot
  | cancelled
  deriving DecidableEq, Repr

/-- `deliver`. -/
def deliver (s : Scheduler D) (target : AgentId) (admission : Admission)
    (restore : Restore D) : Option (Except (DeliverError D) Unit × Scheduler D) :=
  if s.registry.isActive target then
    some (if s.send target then .ok () else .error .unknown, s)
  else if s.registry.isDormant target then
    match admission with
    | .noSlot => some (.error .ioCongested, s)
    | .cancelled => some (.error .wakeFailed, s)
    | .admitted =>
        match s.wakeAgent target restore with
        | none => none
        | some (.error e, s) => some (.error e, s)
        | some (.ok _, s) => some (if s.send target then .ok () else .error .wakeFailed, s)
  else some (.error .unknown, s)

/-! ### The supervisor -/

/-- A capability to delegate to a child, with the reading of the clock it meets. -/
structure CapGrant where
  capId : CapabilityId
  permissions : Permissions
  resource : List Char
  nowMs : ℕ
  deriving DecidableEq, Repr

/-- The loop of `spawn_child` that delegates the grants, up to the first refusal. -/
def delegateGrants (store : CapabilityStore) (parent child : AgentId) :
    List CapGrant → Option (List CapabilityId) × CapabilityStore
  | [] => (some [], store)
  | g :: grants =>
      match store.delegate g.nowMs g.capId parent child g.permissions g.resource with
      | (.error _, store) => (none, store)
      | (.ok capId, store) =>
          let (caps, store) := delegateGrants store parent child grants
          (caps.map (capId :: ·), store)

/-- `spawn_child`; `built` tells whether the instance could be built. The instance is built
with the capability store of the supervisor and the builder's default tenant. -/
def spawnChild (s : Scheduler D) (parent child : AgentId) (grants : List CapGrant)
    (built : Bool) : Option (Option (List CapabilityId) × Scheduler D) :=
  match delegateGrants s.capStore parent child grants with
  | (none, capStore) => some (none, { s with capStore })
  | (some caps, capStore) =>
      let s := { s with capStore }
      if !built then some (none, s)
      else
        (s.register ⟨child, TenantId.default, s.capStorePtr⟩).map fun s =>
          (if s.send child then some caps else none, s)

/-- `SupervisionAuthority`. -/
inductive Authority
  | orchestrator
  | tenant (t : TenantId)
  deriving DecidableEq, Repr

/-- `authorize`: under the authority of a tenant, only an agent known to be of that tenant. -/
def authorize (s : Scheduler D) (target : AgentId) : Authority → Bool
  | .orchestrator => true
  | .tenant t => s.registry.tenantOf target == some t

/-- `SupervisionError`. -/
inductive SupervisionError
  | crossTenantDenied
  | routing
  deriving DecidableEq, Repr

/-- `checkpoint`, `suspend` and the message of `rollback`: each authorizes, then sends its
own message. -/
def supervise (s : Scheduler D) (target : AgentId) (authority : Authority) :
    Except SupervisionError Unit :=
  if !s.authorize target authority then .error .crossTenantDenied
  else if s.send target then .ok () else .error .routing

end Scheduler

/-! ### What the operations do to the directory -/

namespace Registry

theorem reapOne_eq (r : Registry D) (id : AgentId) :
    (r.reapOne id).senders = r.senders.erase id ∧
      (r.reapOne id).handles = r.handles.erase id ∧
      (r.reapOne id).tenants = r.tenants.erase id ∧
      (r.reapOne id).dormant = r.dormant := by
  simp only [reapOne]
  rcases r.agentCapPtr.lookup id with _ | ptr
  · exact ⟨rfl, rfl, rfl, rfl⟩
  · simp only
    split_ifs <;> exact ⟨rfl, rfl, rfl, rfl⟩

theorem foldl_reapOne (ids : List AgentId) (r : Registry D) :
    (ids.foldl reapOne r).senders = ids.foldl (fun m id => m.erase id) r.senders ∧
      (ids.foldl reapOne r).handles = ids.foldl (fun m id => m.erase id) r.handles ∧
      (ids.foldl reapOne r).tenants = ids.foldl (fun m id => m.erase id) r.tenants ∧
      (ids.foldl reapOne r).dormant = r.dormant := by
  induction ids generalizing r with
  | nil => exact ⟨rfl, rfl, rfl, rfl⟩
  | cons id ids ih =>
      obtain ⟨hs, hh, ht, hd⟩ := r.reapOne_eq id
      obtain ⟨ihs, ihh, iht, ihd⟩ := ih (r.reapOne id)
      simp only [List.foldl_cons]
      exact ⟨by rw [ihs, hs], by rw [ihh, hh], by rw [iht, ht], by rw [ihd, hd]⟩

/-- Only an agent with a handle has a task that has ended. -/
theorem handle_of_mem_finishedAgents {r : Registry D} {finished : List TaskId} {a : AgentId}
    (h : a ∈ r.finishedAgents finished) : (r.handles.lookup a).isSome := by
  obtain ⟨e, he, rfl⟩ := List.mem_map.mp h
  have hmem := List.mem_map_of_mem (f := Sigma.fst) (List.mem_filter.mp he).1
  exact AList.lookup_isSome.mpr hmem

/-- `r'` is `r` less some agents that had a handle. -/
structure Forgets (r r' : Registry D) : Prop where
  dormant : r'.dormant = r.dormant
  senders : ∀ a, r'.senders.lookup a = r.senders.lookup a ∨ r'.senders.lookup a = none
  handles : ∀ a, r'.handles.lookup a = r.handles.lookup a ∨ r'.handles.lookup a = none
  tenants : ∀ a, (r'.senders.lookup a).isSome ∨ r.handles.lookup a = none →
    r'.tenants.lookup a = r.tenants.lookup a

theorem Forgets.isDormant {r r' : Registry D} (h : r.Forgets r') (a : AgentId) :
    r'.isDormant a = r.isDormant a := by
  rw [Registry.isDormant, h.dormant]
  rfl

theorem Forgets.isActive {r r' : Registry D} (h : r.Forgets r') {a : AgentId}
    (ha : r'.isActive a) : r.isActive a := by
  rcases h.senders a with heq | heq
  · rwa [Registry.isActive, heq] at ha
  · rw [Registry.isActive, heq] at ha
    cases ha

/-- The tenant of an agent that is still in the directory is the one it had. -/
theorem Forgets.tenantOf {r r' : Registry D} (h : r.Forgets r') {a : AgentId}
    (ha : r'.isActive a ∨ r.handles.lookup a = none) : r'.tenantOf a = r.tenantOf a :=
  h.tenants a ha

theorem reap_forgets (r : Registry D) (finished : List TaskId) :
    r.Forgets (r.reap finished) := by
  obtain ⟨hs, hh, ht, hd⟩ := foldl_reapOne (r.finishedAgents finished) r
  refine ⟨hd, fun a => ?_, fun a => ?_, fun a ha => ?_⟩
  · rw [reap, hs, AList.lookup_foldl_erase]
    split_ifs
    · exact .inr rfl
    · exact .inl rfl
  · rw [reap, hh, AList.lookup_foldl_erase]
    split_ifs
    · exact .inr rfl
    · exact .inl rfl
  · rw [reap, hs, AList.lookup_foldl_erase] at ha
    rw [reap, ht, AList.lookup_foldl_erase]
    split_ifs at ha ⊢ with hmem
    · have hhandle := handle_of_mem_finishedAgents hmem
      rcases ha with ha | ha
      · cases ha
      · rw [ha] at hhandle
        cases hhandle
    · rfl

end Registry

section Enroll

variable (s : Scheduler D) (inst : ActorInstance)

@[simp] theorem Scheduler.dormant_enroll :
    (s.enroll inst).registry.dormant = s.registry.dormant := rfl

@[simp] theorem Scheduler.isDormant_enroll (a : AgentId) :
    (s.enroll inst).registry.isDormant a = s.registry.isDormant a := rfl

theorem Scheduler.tenantOf_enroll (a : AgentId) : (s.enroll inst).registry.tenantOf a =
    if a = inst.agentId then some inst.tenant else s.registry.tenantOf a := by
  simp only [enroll, Registry.tenantOf, AList.lookup_insert_ite]

theorem Scheduler.senders_enroll (a : AgentId) : (s.enroll inst).registry.senders.lookup a =
    if a = inst.agentId then some s.nextTask else s.registry.senders.lookup a := by
  simp only [enroll, AList.lookup_insert_ite]

theorem Scheduler.handles_enroll (a : AgentId) : (s.enroll inst).registry.handles.lookup a =
    if a = inst.agentId then some s.nextTask else s.registry.handles.lookup a := by
  simp only [enroll, AList.lookup_insert_ite]

end Enroll

/-- What a registration that does not panic does: the tasks that have ended are forgotten, and
the instance is entered under its own tenant. -/
theorem Scheduler.register_eq_some {s s' : Scheduler D} {inst : ActorInstance}
    (h : s.register inst = some s') : s' = s.reap.enroll inst := by
  simp only [register] at h
  rcases hlookup : s.reap.registry.capStoreTenant.lookup inst.capStorePtr with _ | owner
  · rw [hlookup] at h
    exact (Option.some.inj h).symm
  · rw [hlookup] at h
    simp only at h
    split_ifs at h
    exact (Option.some.inj h).symm

namespace Scheduler

/-- Messages reach active agents only. -/
theorem isActive_of_send {s : Scheduler D} {target : AgentId} (h : s.send target) :
    s.registry.isActive target := by
  rcases hlookup : s.registry.senders.lookup target with _ | task
  · simp [send, hlookup] at h
  · rw [Registry.isActive, hlookup]
    rfl

/-- A message under the authority of a tenant reaches only an active agent that has this
tenant in the directory. -/
theorem supervise_tenant {s : Scheduler D} {target : AgentId} {t : TenantId}
    (h : s.supervise target (.tenant t) = .ok ()) :
    s.registry.isActive target ∧ s.registry.tenantOf target = some t := by
  by_cases hauth : s.registry.tenantOf target = some t
  · by_cases hsend : s.send target
    · exact ⟨isActive_of_send hsend, hauth⟩
    · simp [supervise, authorize, hauth, hsend] at h
  · simp [supervise, authorize, hauth] at h

/-- An eviction changes nothing, or moves an active agent to the dormant table. -/
theorem evictAgent_cases (s : Scheduler D) (target : AgentId)
    (reply : Option (EvictedState D)) :
    (s.evictAgent target reply).2 = s ∨ ∃ ev, reply = some ev ∧ s.registry.isActive target ∧
      (s.evictAgent target reply).2 = { s with
        registry := { s.registry with
          handles := s.registry.handles.erase target
          senders := s.registry.senders.erase target
          dormant := s.registry.dormant.insert ev.id ev }
        finished := (s.registry.handles.lookup target).toList ++ s.finished } := by
  by_cases hsend : s.send target
  · rcases reply with _ | ev
    · simp [evictAgent, hsend]
    · exact .inr ⟨ev, rfl, isActive_of_send hsend, by simp [evictAgent, hsend]⟩
  · simp [evictAgent, hsend]

/-- A wake-up that does not panic: the agent is not dormant and nothing changes, or it cannot
be restored and only leaves the dormant table, or it is rebuilt. -/
theorem wakeAgent_cases {s : Scheduler D} {target : AgentId} {restore : Restore D}
    {r : Except (DeliverError D) AgentId × Scheduler D}
    (h : s.wakeAgent target restore = some r) :
    (s.registry.dormant.lookup target = none ∧ r.2 = s) ∨
      ((∀ ptr, restore ≠ .built ptr) ∧ r.2 = s.undormant target) ∨
      ∃ ev ptr, s.registry.dormant.lookup target = some ev ∧ restore = .built ptr ∧
        (s.undormant target).register (restoreFromEvicted ev ptr) = some r.2 := by
  simp only [wakeAgent] at h
  rcases hev : s.registry.dormant.lookup target with _ | ev
  · rw [hev] at h
    obtain rfl := Option.some.inj h
    exact .inl ⟨rfl, rfl⟩
  · rw [hev] at h
    cases restore with
    | built ptr =>
        obtain ⟨s', hreg, rfl⟩ := Option.map_eq_some_iff.mp h
        exact .inr (.inr ⟨ev, ptr, rfl, rfl, hreg⟩)
    | missingBlock hash =>
        obtain rfl := Option.some.inj h
        exact .inr (.inl ⟨fun ptr => by simp, rfl⟩)
    | failed =>
        obtain rfl := Option.some.inj h
        exact .inr (.inl ⟨fun ptr => by simp, rfl⟩)

/-- A delivery that does not panic wakes up an agent that is dormant and admitted, and changes
nothing otherwise. -/
theorem deliver_cases {s : Scheduler D} {target : AgentId} {admission : Admission}
    {restore : Restore D} {r : Except (DeliverError D) Unit × Scheduler D}
    (h : s.deliver target admission restore = some r) :
    (¬ (¬ s.registry.isActive target ∧ s.registry.isDormant target ∧
        admission = .admitted) ∧ r.2 = s) ∨
      (¬ s.registry.isActive target ∧ s.registry.isDormant target ∧
        admission = .admitted ∧ ∃ w, s.wakeAgent target restore = some w ∧ r.2 = w.2) := by
  simp only [deliver] at h
  split_ifs at h with hactive hsend hdormant
  · obtain rfl := Option.some.inj h
    exact .inl ⟨fun hn => hn.1 hactive, rfl⟩
  · obtain rfl := Option.some.inj h
    exact .inl ⟨fun hn => hn.1 hactive, rfl⟩
  · cases admission with
    | noSlot =>
        obtain rfl := Option.some.inj h
        exact .inl ⟨by simp, rfl⟩
    | cancelled =>
        obtain rfl := Option.some.inj h
        exact .inl ⟨by simp, rfl⟩
    | admitted =>
        refine .inr ⟨hactive, hdormant, rfl, ?_⟩
        rcases hw : s.wakeAgent target restore with _ | ⟨result, s'⟩
        · rw [hw] at h
          cases h
        · rw [hw] at h
          refine ⟨_, rfl, ?_⟩
          cases result with
          | error e =>
              obtain rfl := Option.some.inj h
              rfl
          | ok id =>
              obtain rfl := Option.some.inj h
              rfl
  · obtain rfl := Option.some.inj h
    exact .inl ⟨fun hn => hdormant hn.2.1, rfl⟩

/-- A spawn that does not panic enters the child under the default tenant when the grants are
delegated and the instance is built, and leaves the directory alone otherwise. -/
theorem spawnChild_cases {s : Scheduler D} {parent child : AgentId} {grants : List CapGrant}
    {built : Bool} {r : Option (List CapabilityId) × Scheduler D}
    (h : s.spawnChild parent child grants built = some r) :
    (¬ (built = true ∧ (delegateGrants s.capStore parent child grants).1.isSome) ∧
        ∃ capStore, r.2 = { s with capStore }) ∨
      (built = true ∧ (delegateGrants s.capStore parent child grants).1.isSome ∧
        ∃ capStore, ({ s with capStore } : Scheduler D).register
          ⟨child, TenantId.default, s.capStorePtr⟩ = some r.2) := by
  simp only [spawnChild] at h
  rcases hgrants : delegateGrants s.capStore parent child grants with ⟨caps, capStore⟩
  rw [hgrants] at h
  rcases caps with _ | caps
  · obtain rfl := Option.some.inj h
    exact .inl ⟨by simp, capStore, rfl⟩
  · cases built with
    | false =>
        obtain rfl := Option.some.inj h
        exact .inl ⟨by simp, capStore, rfl⟩
    | true =>
        obtain ⟨s', hreg, rfl⟩ := Option.map_eq_some_iff.mp h
        exact .inr ⟨rfl, rfl, capStore, hreg⟩

/-- A registration starts a task. -/
theorem nextTask_register {s s' : Scheduler D} {inst : ActorInstance}
    (h : s.register inst = some s') : s'.nextTask = s.nextTask + 1 := by
  obtain rfl := register_eq_some h
  rfl

theorem capStore_register {s s' : Scheduler D} {inst : ActorInstance}
    (h : s.register inst = some s') : s'.capStore = s.capStore := by
  obtain rfl := register_eq_some h
  rfl

/-- Registered agents are active, under the tenant of their instance. -/
theorem register_self {s s' : Scheduler D} {inst : ActorInstance}
    (h : s.register inst = some s') :
    s'.registry.isActive inst.agentId ∧
      s'.registry.tenantOf inst.agentId = some inst.tenant := by
  obtain rfl := register_eq_some h
  refine ⟨?_, by rw [tenantOf_enroll, if_pos rfl]⟩
  rw [Registry.isActive, senders_enroll, if_pos rfl]
  rfl

end Scheduler

end Torpor
