import Torpor.Actor.Steps
import Torpor.Lib.Machine
import Torpor.Scheduler.Registry

/-!
# Active and Dormant Agents

What a wake-up that fails does to the directory, and runs in which agents are registered,
evicted and woken up. In the system of the second part every task runs an agent (`Actor`), which
takes its own steps; the system records the last state that each agent reached, the sequence
numbers that it committed, and each state that a wake-up restored, with the last state that
the agent had reached.

## Main results

* `wake_deliver_atomic_iff`: a wake-up or a delivery that fails leaves the directory as it was
  if and only if it does not fail to rebuild a dormant agent.
* `dormancy_run`: as long as no agent is registered that is dormant, that a task still runs, or
  whose sequence number lies behind, no agent is active and dormant at once, a wake-up restores
  the last state, and no sequence number is committed twice.
* `register_keeps_dormant`: an evicted agent that its runner rebuilds and registers stays
  dormant, and is later woken up from the state of its eviction.
-/

namespace Torpor

open Scheduler Machine

variable {D : Type}

/-! ### Failure -/

namespace Scheduler

/-- `restore_from_evicted`: the lookup of the last snapshot, which may fail, and the builder,
which may fail as well. -/
def restoreResult (hasSnapshot : D → Option Bool) (build : Option ℕ) (ev : EvictedState D) :
    Restore D :=
  let built : Restore D := match build with
    | some ptr => .built ptr
    | none => .failed
  match ev.lastSnapshot with
  | none => built
  | some snap =>
      match hasSnapshot snap with
      | none => .failed
      | some false => .missingBlock snap
      | some true => built

/-- How the restoration of a dormant agent ends. -/
def restoreDormant (s : Scheduler D) (target : AgentId) (hasSnapshot : D → Option Bool)
    (build : Option ℕ) : Restore D :=
  match s.registry.dormant.lookup target with
  | none => .failed
  | some ev => restoreResult hasSnapshot build ev

/-- If the outcome is an error and no task was started, the directory is as before. -/
def AtomicOnFailure {α : Type} (s : Scheduler D) (r : Except (DeliverError D) α × Scheduler D) :
    Prop :=
  (∃ e, r.1 = .error e) → r.2.nextTask = s.nextTask →
    r.2.registry.dormant = s.registry.dormant ∧ r.2.registry.senders = s.registry.senders ∧
      r.2.registry.handles = s.registry.handles ∧ r.2.registry.tenants = s.registry.tenants

/-- The agent is dormant, and its last snapshot cannot be found or its instance cannot be
built. -/
def Unrestorable (s : Scheduler D) (target : AgentId) (hasSnapshot : D → Option Bool)
    (build : Option ℕ) : Prop :=
  ∃ ev, s.registry.dormant.lookup target = some ev ∧
    ((∃ snap, ev.lastSnapshot = some snap ∧ hasSnapshot snap ≠ some true) ∨ build = none)

/-- The restoration ends with an instance if the last snapshot is found and the instance is
built. -/
theorem restoreResult_built_iff {hasSnapshot : D → Option Bool} {build : Option ℕ}
    {ev : EvictedState D} : (∃ ptr, restoreResult hasSnapshot build ev = .built ptr) ↔
      ¬ ((∃ snap, ev.lastSnapshot = some snap ∧ hasSnapshot snap ≠ some true) ∨
        build = none) := by
  rcases build with _ | ptr
  · rcases hlast : ev.lastSnapshot with _ | snap
    · simp [restoreResult, hlast]
    · rcases hfound : hasSnapshot snap with _ | _ | _ <;> simp [restoreResult, hlast, hfound]
  · rcases hlast : ev.lastSnapshot with _ | snap
    · simp [restoreResult, hlast]
    · rcases hfound : hasSnapshot snap with _ | _ | _ <;> simp [restoreResult, hlast, hfound]

/-- The dormant table is not what it was once an entry has been taken off. -/
theorem dormant_undormant_ne {s : Scheduler D} {target : AgentId} {ev : EvictedState D}
    (hev : s.registry.dormant.lookup target = some ev) :
    (s.undormant target).registry.dormant ≠ s.registry.dormant := by
  intro heq
  have hnone : (s.undormant target).registry.dormant.lookup target = none := by
    simp [undormant]
  rw [heq, hev] at hnone
  cases hnone

/-- A wake-up is atomic if it cannot fail to rebuild the agent. -/
theorem wakeAgent_atomic {s : Scheduler D} {target : AgentId} {restore : Restore D}
    {r : Except (DeliverError D) AgentId × Scheduler D}
    (hwake : s.wakeAgent target restore = some r)
    (h : s.registry.isDormant target → ∃ ptr, restore = .built ptr)
    (hnext : r.2.nextTask = s.nextTask) : r.2 = s := by
  rcases wakeAgent_cases hwake with ⟨-, heq⟩ | ⟨hne, heq⟩ | ⟨ev, ptr, hev, -, hreg⟩
  · exact heq
  · by_cases hdormant : s.registry.isDormant target
    · obtain ⟨ptr, rfl⟩ := h hdormant
      exact absurd rfl (hne ptr)
    · rcases hlookup : s.registry.dormant.lookup target with _ | ev
      · rw [wakeAgent, hlookup] at hwake
        obtain rfl := Option.some.inj hwake
        rfl
      · exact absurd (Registry.isDormant_of_lookup hlookup) hdormant
  · rw [nextTask_register hreg] at hnext
    simp [undormant] at hnext

/-- A wake-up that fails to rebuild a dormant agent takes it off the dormant table. -/
theorem wakeAgent_unrestorable {s : Scheduler D} {target : AgentId} {restore : Restore D}
    {ev : EvictedState D} (hev : s.registry.dormant.lookup target = some ev)
    (hne : ∀ ptr, restore ≠ .built ptr) :
    ∃ e, s.wakeAgent target restore = some (.error e, s.undormant target) := by
  cases restore with
  | built ptr => exact absurd rfl (hne ptr)
  | missingBlock hash => exact ⟨.danglingSnapshot hash, by rw [wakeAgent, hev]⟩
  | failed => exact ⟨.wakeFailed, by rw [wakeAgent, hev]⟩

theorem atomicOnFailure_self {α : Type} {s : Scheduler D}
    {r : Except (DeliverError D) α × Scheduler D} (h : r.2.nextTask = s.nextTask → r.2 = s) :
    s.AtomicOnFailure r := by
  intro _ hnext
  rw [h hnext]
  exact ⟨rfl, rfl, rfl, rfl⟩

theorem not_atomicOnFailure_undormant {α : Type} {s : Scheduler D} {target : AgentId}
    {ev : EvictedState D} (hev : s.registry.dormant.lookup target = some ev)
    (e : DeliverError D) :
    ¬ s.AtomicOnFailure ((.error e, s.undormant target) :
      Except (DeliverError D) α × Scheduler D) :=
  fun h => dormant_undormant_ne hev (h ⟨e, rfl⟩ rfl).1

section

variable {s : Scheduler D} {target : AgentId} {hasSnapshot : D → Option Bool}
  {build : Option ℕ}

theorem restoreDormant_eq {ev : EvictedState D}
    (hev : s.registry.dormant.lookup target = some ev) :
    s.restoreDormant target hasSnapshot build = restoreResult hasSnapshot build ev := by
  rw [restoreDormant, hev]

/-- A dormant agent that can be restored is rebuilt. -/
theorem restoreDormant_built (h : ¬ s.Unrestorable target hasSnapshot build)
    (hdormant : s.registry.isDormant target) :
    ∃ ptr, s.restoreDormant target hasSnapshot build = .built ptr := by
  obtain ⟨ev, hev⟩ := Option.isSome_iff_exists.mp hdormant
  rw [restoreDormant_eq hev]
  exact restoreResult_built_iff.mpr fun hbad => h ⟨ev, hev, hbad⟩

theorem restoreDormant_not_built (h : s.Unrestorable target hasSnapshot build) (ptr : ℕ) :
    s.restoreDormant target hasSnapshot build ≠ .built ptr := by
  obtain ⟨ev, hev, hbad⟩ := h
  rw [restoreDormant_eq hev]
  exact fun hbuilt => restoreResult_built_iff.mp ⟨ptr, hbuilt⟩ hbad

end

end Scheduler

/-- **Failed wake-ups.** Whatever the directory holds and whatever the steps of the restoration
come to, a wake-up that fails leaves the directory as it was if and only if it does not fail to
rebuild a dormant agent; and so does a delivery, which wakes up agents that are not active, once
they are admitted. -/
theorem wake_deliver_atomic_iff (s : Scheduler D) (target : AgentId)
    (hasSnapshot : D → Option Bool) (build : Option ℕ) :
    ((∀ r, s.wakeAgent target (s.restoreDormant target hasSnapshot build) = some r →
        s.AtomicOnFailure r) ↔ ¬ s.Unrestorable target hasSnapshot build) ∧
      ∀ admission,
        ((∀ r, s.deliver target admission (s.restoreDormant target hasSnapshot build) = some r →
          s.AtomicOnFailure r) ↔ ¬ (¬ s.registry.isActive target ∧ admission = .admitted ∧
            s.Unrestorable target hasSnapshot build)) := by
  refine ⟨⟨fun h hbad => ?_, fun h r hwake => ?_⟩, fun admission => ⟨?_, fun h r hdeliver => ?_⟩⟩
  · obtain ⟨ev, hev, -⟩ := id hbad
    obtain ⟨e, hwake⟩ := wakeAgent_unrestorable hev (restoreDormant_not_built hbad)
    exact not_atomicOnFailure_undormant hev e (h _ hwake)
  · exact atomicOnFailure_self (wakeAgent_atomic hwake (restoreDormant_built h))
  · rintro h ⟨hactive, rfl, hbad⟩
    obtain ⟨ev, hev, -⟩ := id hbad
    obtain ⟨e, hwake⟩ := wakeAgent_unrestorable hev (restoreDormant_not_built hbad)
    have hdormant : s.registry.isDormant target := Registry.isDormant_of_lookup hev
    refine not_atomicOnFailure_undormant hev e (h _ ?_)
    rw [deliver, if_neg hactive, if_pos hdormant]
    simp only [hwake]
  · refine atomicOnFailure_self fun hnext => ?_
    rcases deliver_cases hdeliver with ⟨-, heq⟩ | ⟨hactive, -, hadmitted, w, hwake, heq⟩
    · exact heq
    · rw [heq] at hnext ⊢
      refine wakeAgent_atomic hwake (restoreDormant_built fun hbad => ?_) hnext
      exact h ⟨hactive, hadmitted, hbad⟩

/-- Agent `7` has been registered and evicted. -/
def evictedSample : Scheduler (List ℕ) :=
  (((Scheduler.new 0).register ⟨7, 0, 100⟩).map fun s =>
    (s.evictAgent 7 (some ⟨7, 1, some [5], none⟩)).2).getD (.new 0)

/-- A wake-up that does not find the snapshot loses the agent: the next one fails although the
snapshot is back. -/
theorem failed_wake_loses_agent :
    evictedSample.registry.isDormant 7 ∧
      ∃ s, evictedSample.wakeAgent 7
          (evictedSample.restoreDormant 7 (fun _ => some false) (some 200)) =
            some (.error (.danglingSnapshot [5]), s) ∧
        s.nextTask = evictedSample.nextTask ∧
        s.registry.dormant ≠ evictedSample.registry.dormant ∧
        (s.wakeAgent 7 (s.restoreDormant 7 (fun _ => some true) (some 200))).map Prod.fst =
          some (.error .wakeFailed) := by
  refine ⟨by decide, evictedSample.undormant 7, rfl, rfl, ?_, rfl⟩
  have hev : evictedSample.registry.dormant.lookup 7 = some ⟨7, 1, some [5], none⟩ := by decide
  exact dormant_undormant_ne hev

/-! ### Runs -/

/-- The instance that `register` is given. -/
def Actor.toInstance (a : Actor D) : ActorInstance :=
  ⟨a.caller.data.id, a.caller.data.tenant, a.caller.data.capStore⟩

/-- What a builder makes an instance from, besides the evicted state. -/
structure Rebuild (D : Type) where
  params : BuildParams
  memory : List UInt8
  world : World D

/-- The instance that `restore_from_evicted` builds. -/
def Rebuild.actor (b : Rebuild D) (ev : EvictedState D) : Actor D :=
  { caller := Caller.restore b.world b.params b.memory ev
    phase := .spawned
    pendingMsg := none }

/-- How a restoration ends. -/
inductive RestoreOutcome (D : Type)
  | rebuilt (b : Rebuild D)
  | missingBlock (hash : D)
  | failed

/-- What the registry learns from a restoration. -/
def RestoreOutcome.restore : RestoreOutcome D → Restore D
  | rebuilt b => .built b.params.capStore
  | missingBlock hash => .missingBlock hash
  | failed => .failed

/-- The scheduler and the agents that its tasks run, with the last state that each agent
reached, the sequence numbers that were committed, and every state that was restored beside
the last state of its agent at that time. -/
structure Dormancy (D : Type) where
  scheduler : Scheduler D
  tasks : AList fun _ : TaskId => Actor D
  latest : AgentId → Option (EvictedState D)
  committed : List (AgentId × ℕ)
  restored : List (EvictedState D × Option (EvictedState D))

/-- What can happen next. -/
inductive DormancyOp (D : Type)
  | register (a : Actor D)
  | act (task : TaskId) (event : Event D)
  | finish (task : TaskId)
  | evictAgent (target : AgentId) (order : List CapabilityId)
  | wakeAgent (target : AgentId) (outcome : RestoreOutcome D)
  | deliver (target : AgentId) (admission : Admission) (outcome : RestoreOutcome D)
  | reap

namespace Dormancy

/-- A scheduler that knows no agent. -/
def init (capStorePtr : ℕ) : Dormancy D := ⟨.new capStorePtr, ∅, fun _ => none, [], []⟩

/-- The agent has reached a state. -/
def reach (s : Dormancy D) (a : Actor D) : Dormancy D :=
  { s with latest := Function.update s.latest a.caller.data.id (some a.evictedState) }

/-- The directory after a registration, whose task runs the agent. -/
def launch (s : Dormancy D) (scheduler : Scheduler D) (a : Actor D) : Dormancy D :=
  { s.reach a with scheduler, tasks := s.tasks.insert s.scheduler.nextTask a }

/-- The directory after a wake-up. -/
def wake (s : Dormancy D) (target : AgentId) (outcome : RestoreOutcome D)
    (scheduler : Scheduler D) : Dormancy D :=
  match s.scheduler.registry.dormant.lookup target, outcome with
  | some ev, .rebuilt b =>
      { s.launch scheduler (b.actor ev) with restored := (ev, s.latest ev.id) :: s.restored }
  | _, _ => { s with scheduler }

/-- The sequence numbers that an agent commits in a step. -/
def commits (a a' : Actor D) : List (AgentId × ℕ) :=
  (List.range' a.caller.data.seq (a'.caller.data.seq - a.caller.data.seq)).map
    (a.caller.data.id, ·)

/-- The agent of a task has taken a step. -/
def advance (s : Dormancy D) (task : TaskId) (a a' : Actor D) : Dormancy D :=
  { s.reach a' with
    tasks := s.tasks.insert task a'
    committed := commits a a' ++ s.committed }

/-- The task has not ended, and runs the agent. -/
def Runs (s : Dormancy D) (task : TaskId) (a : Actor D) : Prop :=
  task ∉ s.scheduler.finished ∧ s.tasks.lookup task = some a

variable [LinearOrder D] [ContentHash D]

/-- The task that takes up `Message::Evict`, its agent before and after that, and the answer;
`none` if there is no such task or it does not come to answer. -/
def evicted (s : Dormancy D) (target : AgentId) (order : List CapabilityId) :
    Option (TaskId × Actor D × Actor D × EvictedState D) :=
  (s.scheduler.registry.senders.lookup target).bind fun task =>
    if task ∈ s.scheduler.finished then none
    else (s.tasks.lookup task).bind fun a =>
      (a.step (.recv .evict order)).bind fun a' =>
        match a'.phase with
        | .evicted ev => some (task, a, a', ev)
        | _ => none

/-- One step. A task only ends or takes a step of its agent while it has not ended, and what
it runs once evicted is never woken up inside of it. -/
def step (s : Dormancy D) : DormancyOp D → Option (Dormancy D)
  | .register a =>
      match a.phase with
      | .spawned => (s.scheduler.register a.toInstance).map fun scheduler => s.launch scheduler a
      | _ => none
  | .act task event =>
      if task ∈ s.scheduler.finished then none
      else match s.tasks.lookup task, event with
        | none, _ => none
        | some _, .wake _ _ => none
        | some a, event => (a.step event).map fun a' => s.advance task a a'
  | .finish task =>
      if task < s.scheduler.nextTask then
        some { s with scheduler := { s.scheduler with finished := task :: s.scheduler.finished } }
      else none
  | .evictAgent target order =>
      match s.evicted target order with
      | none => some { s with scheduler := (s.scheduler.evictAgent target none).2 }
      | some (task, a, a', ev) => some { s.advance task a a' with
          scheduler := (s.scheduler.evictAgent target (some ev)).2 }
  | .wakeAgent target outcome =>
      (s.scheduler.wakeAgent target outcome.restore).map fun r => s.wake target outcome r.2
  | .deliver target admission outcome =>
      (s.scheduler.deliver target admission outcome.restore).map fun r =>
        if s.scheduler.registry.isActive target ∨ admission ≠ .admitted then
          { s with scheduler := r.2 }
        else s.wake target outcome r.2
  | .reap => some { s with scheduler := s.scheduler.reap }

omit [LinearOrder D] [ContentHash D] in
/-- No agent is active and dormant at once, every wake-up restored the last state of its agent,
and no agent committed a sequence number twice. -/
structure Exclusive (s : Dormancy D) : Prop where
  active : ∀ a, ¬ (s.scheduler.registry.isActive a ∧ s.scheduler.registry.isDormant a)
  restored : ∀ p ∈ s.restored, p.2 = some p.1
  committed : s.committed.Nodup

omit [LinearOrder D] [ContentHash D] in
/-- The condition on a step: an agent that it registers is not dormant, no task that has not
ended runs it, and its sequence number is not behind the last one that the agent reached. -/
def Fresh (s : Dormancy D) : DormancyOp D → Prop
  | .register a =>
      ¬ s.scheduler.registry.isDormant a.caller.data.id ∧
        (∀ e ∈ s.tasks.entries, e.1 ∉ s.scheduler.finished →
          e.2.caller.data.id ≠ a.caller.data.id) ∧
        ∀ ev ∈ s.latest a.caller.data.id, ev.seq ≤ a.caller.data.seq
  | _ => True

/-! ### The invariant of the tasks -/

/-- What runs under the condition keep: handles and senders agree, a task that has not ended is
the only one of its agent, whose last state it carries, and a dormant agent has left its last
state and has neither sender nor task. -/
structure Inv (s : Dormancy D) : Prop where
  handles : ∀ id, s.scheduler.registry.handles.lookup id =
    s.scheduler.registry.senders.lookup id
  task_lt : ∀ t a, s.tasks.lookup t = some a → t < s.scheduler.nextTask
  coherent : ∀ t a, s.tasks.lookup t = some a → a.Coherent
  sender : ∀ id t, s.scheduler.registry.senders.lookup id = some t →
    ∃ a, s.tasks.lookup t = some a ∧ a.caller.data.id = id
  runs_latest : ∀ t a, s.Runs t a → s.latest a.caller.data.id = some a.evictedState
  runs_unique : ∀ t u a b, s.Runs t a → s.Runs u b → a.caller.data.id = b.caller.data.id →
    t = u
  dormant_id : ∀ id ev, s.scheduler.registry.dormant.lookup id = some ev → ev.id = id
  dormant_latest : ∀ id ev, s.scheduler.registry.dormant.lookup id = some ev →
    s.latest id = some ev
  dormant_sender : ∀ id, s.scheduler.registry.isDormant id →
    s.scheduler.registry.senders.lookup id = none
  dormant_runs : ∀ id, s.scheduler.registry.isDormant id → ∀ t a, s.Runs t a →
    a.caller.data.id ≠ id
  committed_lt : ∀ p ∈ s.committed, ∃ ev, s.latest p.1 = some ev ∧ p.2 < ev.seq
  restored : ∀ p ∈ s.restored, p.2 = some p.1
  nodup : s.committed.Nodup

omit [LinearOrder D] in
theorem Inv.exclusive {s : Dormancy D} (h : s.Inv) : s.Exclusive := by
  refine ⟨fun a ha => ?_, h.restored, h.nodup⟩
  have hactive := ha.1
  rw [Registry.isActive, h.dormant_sender a ha.2] at hactive
  cases hactive

omit [LinearOrder D] in
theorem inv_init (capStorePtr : ℕ) : (init capStorePtr : Dormancy D).Inv where
  handles id := rfl
  task_lt t a h := by cases h
  coherent t a h := by cases h
  sender id t h := by cases h
  runs_latest t a h := by cases h.2
  runs_unique t u a b h := by cases h.2
  dormant_id id ev h := by cases h
  dormant_latest id ev h := by cases h
  dormant_sender id h := by cases h
  dormant_runs id h := by cases h
  committed_lt p h := by cases h
  restored p h := by cases h
  nodup := List.nodup_nil

omit [LinearOrder D] in
/-- Forgetting the agents whose task has ended keeps the invariant. -/
theorem Inv.reap {s : Dormancy D} (h : s.Inv) :
    ({ s with scheduler := s.scheduler.reap } : Dormancy D).Inv := by
  obtain ⟨hs, hh, -, hd⟩ := Registry.foldl_reapOne
    (s.scheduler.registry.finishedAgents s.scheduler.finished) s.scheduler.registry
  have hsender : ∀ id t, s.scheduler.reap.registry.senders.lookup id = some t →
      s.scheduler.registry.senders.lookup id = some t := by
    intro id t ht
    rw [Scheduler.reap, Registry.reap, hs, AList.lookup_foldl_erase] at ht
    split_ifs at ht
    exact ht
  have hdormant : s.scheduler.reap.registry.dormant = s.scheduler.registry.dormant := hd
  have hisDormant : ∀ id, s.scheduler.reap.registry.isDormant id =
      s.scheduler.registry.isDormant id := fun id => by
    rw [Registry.isDormant, hdormant]
    rfl
  refine ⟨fun id => ?_, h.task_lt, h.coherent, fun id t ht => h.sender id t (hsender id t ht),
    h.runs_latest, h.runs_unique, fun id ev hev => ?_, fun id ev hev => ?_, fun id hid => ?_,
    fun id hid => h.dormant_runs id (hisDormant id ▸ hid), h.committed_lt, h.restored, h.nodup⟩
  · simp only [Scheduler.reap, Registry.reap]
    rw [hs, hh, AList.lookup_foldl_erase, AList.lookup_foldl_erase, h.handles id]
  · rw [hdormant] at hev
    exact h.dormant_id id ev hev
  · rw [hdormant] at hev
    exact h.dormant_latest id ev hev
  · have hnone := h.dormant_sender id (hisDormant id ▸ hid)
    rcases ht : s.scheduler.reap.registry.senders.lookup id with _ | t
    · rfl
    · rw [hsender id t ht] at hnone
      cases hnone

omit [LinearOrder D] in
/-- Taking an agent off the dormant table keeps the invariant. -/
theorem Inv.undormant {s : Dormancy D} (h : s.Inv) (target : AgentId) :
    ({ s with scheduler := s.scheduler.undormant target } : Dormancy D).Inv := by
  have hlookup : ∀ id ev, (s.scheduler.undormant target).registry.dormant.lookup id = some ev →
      s.scheduler.registry.dormant.lookup id = some ev := by
    intro id ev hev
    have hne : id ≠ target := by
      rintro rfl
      simp [Scheduler.undormant] at hev
    rwa [Scheduler.undormant, AList.lookup_erase_ne hne] at hev
  have hisDormant : ∀ id, (s.scheduler.undormant target).registry.isDormant id →
      s.scheduler.registry.isDormant id := by
    intro id hid
    obtain ⟨ev, hev⟩ := Option.isSome_iff_exists.mp hid
    exact Registry.isDormant_of_lookup (hlookup id ev hev)
  exact ⟨h.handles, h.task_lt, h.coherent, h.sender, h.runs_latest, h.runs_unique,
    fun id ev hev => h.dormant_id id ev (hlookup id ev hev),
    fun id ev hev => h.dormant_latest id ev (hlookup id ev hev),
    fun id hid => h.dormant_sender id (hisDormant id hid),
    fun id hid => h.dormant_runs id (hisDormant id hid), h.committed_lt, h.restored, h.nodup⟩

omit [LinearOrder D] [ContentHash D] in
/-- What runs once a task runs an agent: this agent, and what ran before. -/
theorem runs_insert {s s' : Dormancy D} {task t : TaskId} {a b : Actor D}
    (h : s'.Runs t b) (hfinished : s'.scheduler.finished = s.scheduler.finished)
    (htasks : s'.tasks = s.tasks.insert task a) :
    (t = task ∧ b = a) ∨ (t ≠ task ∧ s.Runs t b) := by
  obtain ⟨hrunning, hlookup⟩ := h
  rw [htasks, AList.lookup_insert_ite] at hlookup
  split_ifs at hlookup with ht
  · exact .inl ⟨ht, (Option.some.inj hlookup).symm⟩
  · exact .inr ⟨ht, hfinished ▸ hrunning, hlookup⟩

omit [LinearOrder D] [ContentHash D] in
/-- What runs after a registration. -/
theorem runs_launch {s : Dormancy D} {a b : Actor D} {t : TaskId}
    (h : (s.launch (s.scheduler.enroll a.toInstance) a).Runs t b) :
    (t = s.scheduler.nextTask ∧ b = a) ∨ (t ≠ s.scheduler.nextTask ∧ s.Runs t b) :=
  runs_insert (s := s) h rfl rfl

omit [LinearOrder D] [ContentHash D] in
theorem latest_reach (s : Dormancy D) (a : Actor D) (id : AgentId) :
    (s.reach a).latest id =
      if id = a.caller.data.id then some a.evictedState else s.latest id := by
  simp only [reach, Function.update_apply]

omit [LinearOrder D] [ContentHash D] in
theorem latest_launch (s : Dormancy D) (scheduler : Scheduler D) (a : Actor D) (id : AgentId) :
    (s.launch scheduler a).latest id =
      if id = a.caller.data.id then some a.evictedState else s.latest id :=
  s.latest_reach a id

omit [LinearOrder D] in
/-- Entering an agent that is neither dormant nor run by a task, and that is not behind, keeps
the invariant. -/
theorem Inv.launch {s : Dormancy D} (h : s.Inv) {a : Actor D} (hc : a.Coherent)
    (hdormant : ¬ s.scheduler.registry.isDormant a.caller.data.id)
    (hruns : ∀ t b, s.Runs t b → b.caller.data.id ≠ a.caller.data.id)
    (hseq : ∀ ev, s.latest a.caller.data.id = some ev → ev.seq ≤ a.caller.data.seq) :
    (s.launch (s.scheduler.enroll a.toInstance) a).Inv := by
  have hne : ∀ id, s.scheduler.registry.isDormant id → id ≠ a.caller.data.id :=
    fun id hid heq => hdormant (heq ▸ hid)
  have hlookup : ∀ t, (s.launch (s.scheduler.enroll a.toInstance) a).tasks.lookup t =
      if t = s.scheduler.nextTask then some a else s.tasks.lookup t :=
    AList.lookup_insert_ite s.tasks s.scheduler.nextTask a
  constructor
  case handles =>
    intro id
    simp only [Dormancy.launch]
    rw [handles_enroll, senders_enroll, h.handles id]
  case task_lt =>
    intro t b hb
    rw [hlookup] at hb
    split_ifs at hb with ht
    · exact ht ▸ Nat.lt_succ_self _
    · exact Nat.lt_succ_of_lt (h.task_lt t b hb)
  case coherent =>
    intro t b hb
    rw [hlookup] at hb
    split_ifs at hb with ht
    · exact Option.some.inj hb ▸ hc
    · exact h.coherent t b hb
  case sender =>
    intro id t ht
    simp only [Dormancy.launch] at ht
    rw [senders_enroll] at ht
    split_ifs at ht with hid
    · obtain rfl := Option.some.inj ht
      exact ⟨a, by rw [hlookup, if_pos rfl], hid.symm⟩
    · obtain ⟨b, hb, hbid⟩ := h.sender id t ht
      exact ⟨b, by rw [hlookup, if_neg (Nat.ne_of_lt (h.task_lt t b hb)), hb], hbid⟩
  case runs_latest =>
    intro t b hb
    rw [latest_launch]
    rcases runs_launch hb with ⟨-, rfl⟩ | ⟨-, hb⟩
    · rw [if_pos rfl]
    · rw [if_neg (hruns t b hb)]
      exact h.runs_latest t b hb
  case runs_unique =>
    intro t u b c hb hc' hid
    rcases runs_launch hb with ⟨ht, rfl⟩ | ⟨-, hb'⟩
    · rcases runs_launch hc' with ⟨hu, -⟩ | ⟨-, hc''⟩
      · exact ht.trans hu.symm
      · exact absurd hid.symm (hruns u c hc'')
    · rcases runs_launch hc' with ⟨-, rfl⟩ | ⟨-, hc''⟩
      · exact absurd hid (hruns t b hb')
      · exact h.runs_unique t u b c hb' hc'' hid
  case dormant_id => exact h.dormant_id
  case dormant_latest =>
    intro id ev hev
    rw [latest_launch, if_neg (hne id (Registry.isDormant_of_lookup hev))]
    exact h.dormant_latest id ev hev
  case dormant_sender =>
    intro id hid
    exact (senders_enroll _ _ id).trans ((if_neg (hne id hid)).trans (h.dormant_sender id hid))
  case dormant_runs =>
    intro id hid t b hb
    rcases runs_launch hb with ⟨-, rfl⟩ | ⟨-, hb⟩
    · exact (hne id hid).symm
    · exact h.dormant_runs id hid t b hb
  case committed_lt =>
    intro p hp
    obtain ⟨ev, hev, hlt⟩ := h.committed_lt p hp
    rw [latest_launch]
    split_ifs with hid
    · exact ⟨a.evictedState, rfl, lt_of_lt_of_le hlt (hseq ev (hid ▸ hev))⟩
    · exact ⟨ev, hev, hlt⟩
  case restored => exact h.restored
  case nodup => exact h.nodup

/-! ### Steps of the tasks -/

/-- A step of an agent changes neither who it is nor takes its sequence number back. -/
theorem actor_step {a a' : Actor D} {event : Event D} (hc : a.Coherent)
    (h : a.step event = some a') :
    a'.Coherent ∧ a'.caller.data.id = a.caller.data.id ∧
      a.caller.data.seq ≤ a'.caller.data.seq := by
  refine ⟨Actor.step_coherent hc h, Actor.step_id hc h, ?_⟩
  rcases Actor.step_ledger hc h with hsteps | ⟨ws, _, _, _, _, _, hext⟩
  · exact hsteps.invariant (P := fun l => a.ledger.seq ≤ l.seq)
      (fun _ _ hl hmove => hl.trans hmove.seq_le) (Nat.le_refl _)
  · have hseq : a'.ledger.seq = a.ledger.seq := by
      rw [hext]
      rfl
    exact Nat.le_of_eq hseq.symm

omit [LinearOrder D] [ContentHash D] in
theorem mem_commits {a a' : Actor D} {p : AgentId × ℕ} (h : p ∈ commits a a') :
    p.1 = a.caller.data.id ∧ a.caller.data.seq ≤ p.2 ∧ p.2 < a'.caller.data.seq := by
  obtain ⟨n, hn, rfl⟩ := List.mem_map.mp h
  rw [List.mem_range'_1] at hn
  exact ⟨rfl, hn.1, by omega⟩

omit [LinearOrder D] [ContentHash D] in
theorem nodup_commits (a a' : Actor D) : (commits a a').Nodup :=
  (List.nodup_range' 1 Nat.one_pos).map fun _ _ h => congrArg Prod.snd h

omit [LinearOrder D] [ContentHash D] in
/-- What runs after a step of a task: its agent, and what the other tasks ran before. -/
theorem runs_advance {s : Dormancy D} {task t : TaskId} {a a' b : Actor D}
    (h : (s.advance task a a').Runs t b) :
    (t = task ∧ b = a') ∨ (t ≠ task ∧ s.Runs t b) :=
  runs_insert (s := s) h rfl rfl

omit [LinearOrder D] [ContentHash D] in
theorem latest_advance (s : Dormancy D) (task : TaskId) (a a' : Actor D) (id : AgentId) :
    (s.advance task a a').latest id =
      if id = a'.caller.data.id then some a'.evictedState else s.latest id :=
  s.latest_reach a' id

omit [LinearOrder D] in
/-- A step of the agent of a task that has not ended keeps the invariant. -/
theorem Inv.advance {s : Dormancy D} (h : s.Inv) {task : TaskId} {a a' : Actor D}
    (hruns : s.Runs task a) (hc : a'.Coherent) (hid : a'.caller.data.id = a.caller.data.id)
    (hseq : a.caller.data.seq ≤ a'.caller.data.seq) : (s.advance task a a').Inv := by
  have hlatest := h.runs_latest task a hruns
  have hlookup : ∀ t, (s.advance task a a').tasks.lookup t =
      if t = task then some a' else s.tasks.lookup t :=
    AList.lookup_insert_ite s.tasks task a'
  have hne : ∀ id, s.scheduler.registry.isDormant id → id ≠ a'.caller.data.id :=
    fun id hdormant heq => h.dormant_runs id hdormant task a hruns (hid ▸ heq.symm)
  have hold : ∀ p ∈ s.committed, p.1 = a.caller.data.id → p.2 < a.caller.data.seq := by
    intro p hp hpid
    obtain ⟨ev, hev, hlt⟩ := h.committed_lt p hp
    rw [hpid, hlatest] at hev
    obtain rfl := Option.some.inj hev
    exact hlt
  constructor
  case handles => exact h.handles
  case task_lt =>
    intro t b hb
    rw [hlookup] at hb
    split_ifs at hb with ht
    · exact ht ▸ h.task_lt task a hruns.2
    · exact h.task_lt t b hb
  case coherent =>
    intro t b hb
    rw [hlookup] at hb
    split_ifs at hb with ht
    · exact Option.some.inj hb ▸ hc
    · exact h.coherent t b hb
  case sender =>
    intro id t ht
    obtain ⟨b, hb, hbid⟩ := h.sender id t ht
    rw [hlookup]
    split_ifs with heq
    · obtain rfl : a = b := Option.some.inj (hruns.2.symm.trans (heq ▸ hb))
      exact ⟨a', rfl, hid.trans hbid⟩
    · exact ⟨b, hb, hbid⟩
  case runs_latest =>
    intro t b hb
    rw [latest_advance]
    rcases runs_advance hb with ⟨-, rfl⟩ | ⟨ht, hb'⟩
    · rw [if_pos rfl]
    · have hother : b.caller.data.id ≠ a'.caller.data.id := fun heq =>
        ht (h.runs_unique t task b a hb' hruns (heq.trans hid))
      rw [if_neg hother]
      exact h.runs_latest t b hb'
  case runs_unique =>
    intro t u b c hb hc' heq
    rcases runs_advance hb with ⟨ht, rfl⟩ | ⟨-, hb'⟩
    · rcases runs_advance hc' with ⟨hu, -⟩ | ⟨-, hc''⟩
      · exact ht.trans hu.symm
      · exact ht.trans (h.runs_unique task u a c hruns hc'' (hid.symm.trans heq))
    · rcases runs_advance hc' with ⟨hu, rfl⟩ | ⟨-, hc''⟩
      · exact (h.runs_unique t task b a hb' hruns (heq.trans hid)).trans hu.symm
      · exact h.runs_unique t u b c hb' hc'' heq
  case dormant_id => exact h.dormant_id
  case dormant_latest =>
    intro id ev hev
    rw [latest_advance, if_neg (hne id (Registry.isDormant_of_lookup hev))]
    exact h.dormant_latest id ev hev
  case dormant_sender => exact h.dormant_sender
  case dormant_runs =>
    intro id hdormant t b hb
    rcases runs_advance hb with ⟨-, rfl⟩ | ⟨-, hb'⟩
    · exact (hne id hdormant).symm
    · exact h.dormant_runs id hdormant t b hb'
  case committed_lt =>
    intro p hp
    rw [latest_advance]
    rcases List.mem_append.mp hp with hnew | hp'
    · obtain ⟨hpid, -, hlt⟩ := mem_commits hnew
      rw [if_pos (hpid.trans hid.symm)]
      exact ⟨a'.evictedState, rfl, hlt⟩
    · split_ifs with hpid
      · exact ⟨a'.evictedState, rfl, (hold p hp' (hpid.trans hid)).trans_le hseq⟩
      · exact h.committed_lt p hp'
  case restored => exact h.restored
  case nodup =>
    refine List.Nodup.append (nodup_commits a a') h.nodup fun p hnew hp => ?_
    obtain ⟨hpid, hle, -⟩ := mem_commits hnew
    exact absurd (hold p hp hpid) (Nat.not_lt.mpr hle)

omit [LinearOrder D] [ContentHash D] in
/-- The end of a task keeps the invariant. -/
theorem Inv.finish [ContentHash D] {s : Dormancy D} (h : s.Inv) (task : TaskId) :
    ({ s with scheduler := { s.scheduler with finished := task :: s.scheduler.finished } } :
      Dormancy D).Inv := by
  have hruns : ∀ t a, ({ s with scheduler := { s.scheduler with
      finished := task :: s.scheduler.finished } } : Dormancy D).Runs t a → s.Runs t a :=
    fun t a ha => ⟨fun hmem => ha.1 (List.mem_cons_of_mem task hmem), ha.2⟩
  exact ⟨h.handles, h.task_lt, h.coherent, h.sender, fun t a ha => h.runs_latest t a (hruns t a ha),
    fun t u a b ha hb => h.runs_unique t u a b (hruns t a ha) (hruns u b hb), h.dormant_id,
    h.dormant_latest, h.dormant_sender,
    fun id hid t a ha => h.dormant_runs id hid t a (hruns t a ha), h.committed_lt, h.restored,
    h.nodup⟩

/-! ### Steps of the registry -/

/-- The agent that answers to an eviction is the one that a task of the target runs; it takes
a step, and answers with the state it is then in. -/
theorem evicted_eq_some {s : Dormancy D} {target : AgentId} {order : List CapabilityId}
    {task : TaskId} {a a' : Actor D} {ev : EvictedState D}
    (h : s.evicted target order = some (task, a, a', ev)) :
    s.scheduler.registry.senders.lookup target = some task ∧ s.Runs task a ∧
      a.step (.recv .evict order) = some a' ∧ a'.phase = .evicted ev := by
  obtain ⟨t, hsender, h⟩ := Option.bind_eq_some_iff.mp h
  split_ifs at h with hfinished
  obtain ⟨b, hb, h⟩ := Option.bind_eq_some_iff.mp h
  obtain ⟨b', hstep, hphase⟩ := Option.bind_eq_some_iff.mp h
  split at hphase
  · rename_i ev' hev'
    simp only [Option.some.injEq, Prod.mk.injEq] at hphase
    obtain ⟨rfl, rfl, rfl, rfl⟩ := hphase
    exact ⟨hsender, ⟨hfinished, hb⟩, hstep, hev'⟩
  · cases hphase

omit [LinearOrder D] in
/-- The agent of a task leaves its last state in the dormant table, and its task ends. -/
theorem Inv.evict {s : Dormancy D} (h : s.Inv) {target : AgentId} {task : TaskId} {a : Actor D}
    (hsender : s.scheduler.registry.senders.lookup target = some task) (hruns : s.Runs task a) :
    ({ s with scheduler := (s.scheduler.evictAgent target (some a.evictedState)).2 } :
      Dormancy D).Inv := by
  have hid : a.caller.data.id = target := by
    obtain ⟨b, hb, hbid⟩ := h.sender target task hsender
    obtain rfl : a = b := Option.some.inj (hruns.2.symm.trans hb)
    exact hbid
  have hsend : s.scheduler.send target = true := by
    simp only [Scheduler.send, hsender]
    exact decide_eq_true hruns.1
  have hhandle : s.scheduler.registry.handles.lookup target = some task :=
    (h.handles target).trans hsender
  have hevict : (s.scheduler.evictAgent target (some a.evictedState)).2 = { s.scheduler with
      registry := { s.scheduler.registry with
        handles := s.scheduler.registry.handles.erase target
        senders := s.scheduler.registry.senders.erase target
        dormant := s.scheduler.registry.dormant.insert target a.evictedState }
      finished := task :: s.scheduler.finished } := by
    simp [Scheduler.evictAgent, hsend, hhandle, Actor.evictedState, hid]
  rw [hevict]
  have hruns' : ∀ t b, t ∉ task :: s.scheduler.finished ∧ s.tasks.lookup t = some b →
      t ≠ task ∧ s.Runs t b := fun t b hb =>
    ⟨fun heq => hb.1 (heq ▸ List.mem_cons_self), fun hmem => hb.1 (List.mem_cons_of_mem _ hmem),
      hb.2⟩
  have hdormant : ∀ id, id ≠ target → ((s.scheduler.registry.dormant.insert target
      a.evictedState).lookup id).isSome → s.scheduler.registry.isDormant id := by
    intro id hne hid'
    rwa [AList.lookup_insert_ne hne] at hid'
  constructor
  case handles =>
    intro id
    simp only [AList.lookup_erase_ite]
    rw [h.handles id]
  case task_lt => exact h.task_lt
  case coherent => exact h.coherent
  case sender =>
    intro id t ht
    simp only [AList.lookup_erase_ite] at ht
    split_ifs at ht
    exact h.sender id t ht
  case runs_latest => exact fun t b hb => h.runs_latest t b (hruns' t b hb).2
  case runs_unique =>
    exact fun t u b c hb hc => h.runs_unique t u b c (hruns' t b hb).2 (hruns' u c hc).2
  case dormant_id =>
    intro id ev hev
    simp only [AList.lookup_insert_ite] at hev
    split_ifs at hev with heq
    · obtain rfl := Option.some.inj hev
      exact hid.trans heq.symm
    · exact h.dormant_id id ev hev
  case dormant_latest =>
    intro id ev hev
    simp only [AList.lookup_insert_ite] at hev
    split_ifs at hev with heq
    · obtain rfl := Option.some.inj hev
      rw [heq, ← hid]
      exact h.runs_latest task a hruns
    · exact h.dormant_latest id ev hev
  case dormant_sender =>
    intro id hdorm
    simp only [AList.lookup_erase_ite]
    split_ifs with heq
    · rfl
    · exact h.dormant_sender id (hdormant id heq hdorm)
  case dormant_runs =>
    intro id hdorm t b hb hbid
    obtain ⟨hne, hb⟩ := hruns' t b hb
    by_cases heq : id = target
    · exact hne (h.runs_unique t task b a hb hruns (hbid.trans (heq.trans hid.symm)))
    · exact h.dormant_runs id (hdormant id heq hdorm) t b hb hbid
  case committed_lt => exact h.committed_lt
  case restored => exact h.restored
  case nodup => exact h.nodup

omit [LinearOrder D] in
/-- A registration under the condition keeps the invariant. -/
theorem Inv.register {s : Dormancy D} (h : s.Inv) {a : Actor D} {scheduler : Scheduler D}
    (hreg : s.scheduler.register a.toInstance = some scheduler) (hc : a.Coherent)
    (hdormant : ¬ s.scheduler.registry.isDormant a.caller.data.id)
    (hruns : ∀ t b, s.Runs t b → b.caller.data.id ≠ a.caller.data.id)
    (hseq : ∀ ev, s.latest a.caller.data.id = some ev → ev.seq ≤ a.caller.data.seq) :
    (s.launch scheduler a).Inv := by
  obtain rfl := register_eq_some hreg
  refine h.reap.launch hc (fun hd => hdormant ?_) hruns hseq
  have hf := s.scheduler.registry.reap_forgets s.scheduler.finished
  exact hf.isDormant a.caller.data.id ▸ hd

omit [LinearOrder D] [ContentHash D] in
theorem wake_of_not_dormant {s : Dormancy D} {target : AgentId}
    (h : s.scheduler.registry.dormant.lookup target = none) (outcome : RestoreOutcome D)
    (scheduler : Scheduler D) : s.wake target outcome scheduler = { s with scheduler } := by
  simp only [wake, h]

omit [LinearOrder D] [ContentHash D] in
theorem wake_of_not_built {outcome : RestoreOutcome D} (h : ∀ ptr, outcome.restore ≠ .built ptr)
    (s : Dormancy D) (target : AgentId) (scheduler : Scheduler D) :
    s.wake target outcome scheduler = { s with scheduler } := by
  cases outcome with
  | rebuilt b => exact absurd rfl (h b.params.capStore)
  | missingBlock hash =>
      rcases hev : s.scheduler.registry.dormant.lookup target with _ | ev <;>
        simp only [wake, hev]
  | failed =>
      rcases hev : s.scheduler.registry.dormant.lookup target with _ | ev <;>
        simp only [wake, hev]

omit [LinearOrder D] in
/-- A wake-up keeps the invariant. -/
theorem Inv.wake {s : Dormancy D} (h : s.Inv) {target : AgentId} {outcome : RestoreOutcome D}
    {r : Except (DeliverError D) AgentId × Scheduler D}
    (hwake : s.scheduler.wakeAgent target outcome.restore = some r) :
    (s.wake target outcome r.2).Inv := by
  rcases wakeAgent_cases hwake with ⟨hnone, heq⟩ | ⟨hne, heq⟩ | ⟨ev, ptr, hev, hbuilt, hreg⟩
  · rw [wake_of_not_dormant hnone, heq]
    exact h
  · rw [wake_of_not_built hne, heq]
    exact h.undormant target
  · cases outcome with
    | missingBlock hash => cases hbuilt
    | failed => cases hbuilt
    | rebuilt b =>
        obtain rfl := Restore.built.inj hbuilt
        have hid := h.dormant_id target ev hev
        have hlatest := h.dormant_latest target ev hev
        have hdormant : s.scheduler.registry.isDormant target :=
          Registry.isDormant_of_lookup hev
        have hlaunch := (h.undormant target).register (a := b.actor ev) hreg trivial
          (fun hd => by
            have hid' : (b.actor ev).caller.data.id = target := hid
            rw [hid'] at hd
            simp [Scheduler.undormant, Registry.isDormant] at hd)
          (fun t c hc heq => h.dormant_runs target hdormant t c hc (heq.trans hid))
          (fun ev' hev' => by
            have hid' : (b.actor ev).caller.data.id = target := hid
            rw [hid', hlatest] at hev'
            exact Option.some.inj hev' ▸ Nat.le_refl _)
        simp only [Dormancy.wake, hev]
        refine { hlaunch with restored := fun p hp => ?_ }
        rcases List.mem_cons.mp hp with rfl | hp
        · exact hid ▸ hlatest
        · exact h.restored p hp

/-- Every step under the condition keeps the invariant. -/
theorem Inv.step {s s' : Dormancy D} (h : s.Inv) {op : DormancyOp D} (hfresh : s.Fresh op)
    (hstep : s.step op = some s') : s'.Inv := by
  cases op with
  | register a =>
      simp only [Dormancy.step] at hstep
      split at hstep
      · rename_i hphase
        obtain ⟨scheduler, hreg, rfl⟩ := Option.map_eq_some_iff.mp hstep
        obtain ⟨hdormant, hruns, hseq⟩ := hfresh
        have hc : a.Coherent := by simp only [Actor.Coherent, hphase]
        refine h.register hreg hc hdormant (fun t b hb => ?_) hseq
        exact hruns ⟨t, b⟩ (AList.mem_lookup_iff.mp hb.2) hb.1
      · cases hstep
  | act task event =>
      simp only [Dormancy.step] at hstep
      split_ifs at hstep with hfinished
      split at hstep
      · cases hstep
      · cases hstep
      · rename_i a ha hnot
        obtain ⟨a', hact, rfl⟩ := Option.map_eq_some_iff.mp hstep
        obtain ⟨hc, hid, hseq⟩ := actor_step (h.coherent task a ha) hact
        exact h.advance ⟨hfinished, ha⟩ hc hid hseq
  | finish task =>
      simp only [Dormancy.step] at hstep
      split_ifs at hstep
      obtain rfl := Option.some.inj hstep
      exact h.finish task
  | evictAgent target order =>
      simp only [Dormancy.step] at hstep
      rcases hevicted : s.evicted target order with _ | ⟨task, a, a', ev⟩
      · rw [hevicted] at hstep
        obtain rfl := Option.some.inj hstep
        rcases s.scheduler.evictAgent_cases target none with heq | ⟨ev, hnone, -⟩
        · rw [heq]
          exact h
        · cases hnone
      · rw [hevicted] at hstep
        obtain rfl := Option.some.inj hstep
        obtain ⟨hsender, hruns, hact, hphase⟩ := evicted_eq_some hevicted
        obtain ⟨hc, hid, hseq⟩ := actor_step (h.coherent task a hruns.2) hact
        have hev : ev = a'.evictedState := by simpa only [Actor.Coherent, hphase] using hc
        have hruns' : (s.advance task a a').Runs task a' :=
          ⟨hruns.1, by simp only [Dormancy.advance, AList.lookup_insert]⟩
        rw [hev]
        exact (h.advance hruns hc hid hseq).evict hsender hruns'
  | wakeAgent target outcome =>
      obtain ⟨r, hwake, rfl⟩ := Option.map_eq_some_iff.mp hstep
      exact h.wake hwake
  | deliver target admission outcome =>
      obtain ⟨r, hdeliver, rfl⟩ := Option.map_eq_some_iff.mp hstep
      rcases deliver_cases hdeliver with ⟨hnot, heq⟩ | ⟨hactive, -, hadmitted, w, hwake, heq⟩
      · rw [heq]
        split_ifs with hbranch
        · exact h
        · rw [not_or] at hbranch
          have hnone : s.scheduler.registry.dormant.lookup target = none :=
            Option.not_isSome_iff_eq_none.mp fun hd =>
              hnot ⟨hbranch.1, hd, not_not.mp hbranch.2⟩
          rw [wake_of_not_dormant hnone]
          exact h
      · rw [heq, if_neg (by simp [hactive, hadmitted])]
        exact h.wake hwake
  | reap =>
      obtain rfl := Option.some.inj hstep
      exact h.reap

omit [LinearOrder D] [ContentHash D] in
/-- The condition can be decided. -/
instance decidableFresh (s : Dormancy D) (op : DormancyOp D) : Decidable (s.Fresh op) :=
  match op with
  | .register a => inferInstanceAs (Decidable (¬ s.scheduler.registry.isDormant
      a.caller.data.id ∧ (∀ e ∈ s.tasks.entries, e.1 ∉ s.scheduler.finished →
        e.2.caller.data.id ≠ a.caller.data.id) ∧
      ∀ ev ∈ s.latest a.caller.data.id, ev.seq ≤ a.caller.data.seq))
  | .act _ _ => .isTrue trivial
  | .finish _ => .isTrue trivial
  | .evictAgent _ _ => .isTrue trivial
  | .wakeAgent _ _ => .isTrue trivial
  | .deliver _ _ _ => .isTrue trivial
  | .reap => .isTrue trivial

end Dormancy

/-! ### Runs under the condition -/

open Dormancy

variable [LinearOrder D] [ContentHash D]

/-- **Active or dormant.** In every run whose registrations are of agents that are not dormant,
that no task still runs, and that are not behind their last state, no agent is active and
dormant at once, every wake-up restores the last state of its agent, and no agent commits a
sequence number twice. -/
theorem dormancy_run {capStorePtr : ℕ} {ops : List (DormancyOp D)} {s : Dormancy D}
    (hfresh : Along Dormancy.step Fresh (init capStorePtr) ops)
    (hrun : run Dormancy.step (init capStorePtr) ops = some s) : s.Exclusive := by
  have hstep : ∀ (t : Dormancy D) op t', t.Inv → t.Fresh op → t.step op = some t' → t'.Inv :=
    fun _ _ _ h hf hs => h.step hf hs
  exact (run_invariant_along hstep (inv_init capStorePtr) hfresh hrun).exclusive

/-- The steps of a task that starts and commits once. -/
def committing (task : TaskId) : List (DormancyOp (List ℕ)) :=
  (Event.start :: Actor.dataCycle [.commitBarrier]).map (.act task)

/-- Agent `10` is registered, commits, and is evicted. -/
def evictionOps : List (DormancyOp (List ℕ)) :=
  .register Actor.sampleAgent :: committing 0 ++ [.evictAgent 10 []]

/-- What agent `10` is rebuilt with. -/
def sampleRebuild : Rebuild (List ℕ) :=
  { params := { clock := fun n => n + 100, capStore := 1, kvStore := 1, causeHandleRegistry := 1 }
    memory := [0, 0, 0, 0]
    world := Actor.blankWorld }

theorem dormancy_run_wake : ∃ s, run Dormancy.step (init 0) (evictionOps ++
    .wakeAgent 10 (.rebuilt sampleRebuild) :: committing 1) = some s ∧ s.Exclusive := by
  have hsome : (run Dormancy.step (init 0) (evictionOps ++
      .wakeAgent 10 (.rebuilt sampleRebuild) :: committing 1)).isSome = true := by
    decide +kernel
  have hfresh : Along Dormancy.step Fresh (init 0) (evictionOps ++
      .wakeAgent 10 (.rebuilt sampleRebuild) :: committing 1) := by
    decide +kernel
  obtain ⟨s, hs⟩ := Option.isSome_iff_exists.mp hsome
  exact ⟨s, hs, dormancy_run hfresh hs⟩

/-- The agent that its runner has rebuilt commits, and ends; then the registry wakes it up from
the dormant table, and it commits. -/
def staleOps : List (DormancyOp (List ℕ)) :=
  committing 1 ++ [.finish 1, .reap, .wakeAgent 10 (.rebuilt sampleRebuild)] ++ committing 2

/-- A runner registers the agent that it has rebuilt from its evicted state: the agent is
active and dormant at once, and is later woken up from the same state again, whose sequence
number it commits twice. -/
theorem register_keeps_dormant :
    ∃ s ev s₁ s₂, run Dormancy.step (init 0) evictionOps = some s ∧
      s.scheduler.registry.dormant.lookup 10 = some ev ∧
      s.step (.register (sampleRebuild.actor ev)) = some s₁ ∧
      s₁.scheduler.registry.isActive 10 ∧ s₁.scheduler.registry.isDormant 10 ∧
      run Dormancy.step s₁ staleOps = some s₂ ∧
      (∃ p ∈ s₂.restored, p.2 ≠ some p.1) ∧ ¬ s₂.committed.Nodup := by
  have hrun : (run Dormancy.step (init 0) evictionOps).any (fun s : Dormancy (List ℕ) =>
      (s.scheduler.registry.dormant.lookup 10).any fun ev =>
        (s.step (.register (sampleRebuild.actor ev))).any fun s₁ : Dormancy (List ℕ) =>
          decide (s₁.scheduler.registry.isActive 10 ∧ s₁.scheduler.registry.isDormant 10) &&
          (run Dormancy.step s₁ staleOps).any fun s₂ : Dormancy (List ℕ) =>
            decide ((∃ p ∈ s₂.restored, p.2 ≠ some p.1) ∧ ¬ s₂.committed.Nodup)) = true := by
    decide +kernel
  obtain ⟨s, hs, hany⟩ := (Option.any_eq_true _ _).mp hrun
  obtain ⟨ev, hev, hany⟩ := (Option.any_eq_true _ _).mp hany
  obtain ⟨s₁, hs₁, hany⟩ := (Option.any_eq_true _ _).mp hany
  obtain ⟨hboth, hany⟩ := Bool.and_eq_true_iff.mp hany
  obtain ⟨hactive, hdormant⟩ := of_decide_eq_true hboth
  obtain ⟨s₂, hs₂, hbad⟩ := (Option.any_eq_true _ _).mp hany
  obtain ⟨hstale, htwice⟩ := of_decide_eq_true hbad
  exact ⟨s, ev, s₁, s₂, hs, hev, hs₁, hactive, hdormant, hs₂, hstale, htwice⟩

end Torpor
