import Torpor.Actor.Steps
import Torpor.Compensation

/-!
# Agents and Their Supervisor

Any number of agents that share one world, with their inboxes, and the calls of
`Supervisor::rollback` in progress. Every step is one of an agent's task, of a sender, or of
a supervisor's task; the order is up to the list of events. A crash of the process loses
everything but a prefix of the journal.

`Supervisor::rollback` takes three steps once it is authorised: the `CompensationOpen`, the send
of the message, and the `CompensationClose` with the outcome of the send. What `cancel_fn` does
is part of the answer that the backend gives to the agent; a refused call has no effect and is
no event. A send fails if the registry does not know the agent or its task has ended.

A request is a number. Two fields are there for what is said about the system only: `tagged` is
the journal with the request that a write belongs to, and `served` lists the requests that an
agent has taken up at the top of its loop when it could roll back to their target.

## Main results

* `System.trans_of_step`: what a step can be.
* `AgentInvariant.holds_of_run`: what every agent keeps, in a journal that only grows, holds
  of all agents in every run of the system.
-/

namespace Torpor

open ContentHash

variable {D : Type}

/-! ### Processes -/

namespace Actor

/-- The agent in the world as it is now. -/
def inWorld (a : Actor D) (w : World D) : Actor D := a.setCaller { a.caller with world := w }

/-- The receiver of the inbox exists. -/
def receives (a : Actor D) : Bool :=
  match a.phase with
  | .stopped => false
  | .evicted _ => false
  | _ => true

/-- The target of the rollback that a step takes up at the top of the loop. -/
def takesUp (a : Actor D) : Event D → Option ℕ
  | .recv (.rollback targetSeq) _ =>
      match a.phase, a.pendingMsg with
      | .idle, none => some targetSeq
      | _, _ => none
  | .resume _ =>
      match a.phase, a.pendingMsg with
      | .idle, some (.rollback targetSeq) => some targetSeq
      | _, _ => none
  | _ => none

end Actor

/-- A rollback to the target finds it: it is below the sequence number, on an ancestor of the
last snapshot, and neither the lookups nor the append of the entry fail. -/
def Caller.canRollBack [LinearOrder D] [ContentHash D] (c : Caller D) (targetSeq : ℕ) : Bool :=
  match c.data.lastSnapshot with
  | none => false
  | some tip =>
      let (path, c') := c.rollbackPath tip targetSeq
      decide (targetSeq < c.data.seq) && path.toBool && !c'.world.fault (c'.world.ios + 1)

/-- An agent with its inbox; `held` is the request of the message that was put back. -/
structure Process (D : Type) where
  actor : Actor D
  inbox : List (Option ℕ × Message D)
  held : Option ℕ

namespace Process

/-- The process with a further message. -/
def push (p : Process D) (tag : Option ℕ) (message : Message D) : Process D :=
  { p with inbox := p.inbox ++ [(tag, message)] }

/-- The events of an agent that do not come from its inbox or from other agents. -/
def enabled (p : Process D) : Event D → Bool
  | .recv _ _ => false
  | .others _ _ _ _ => false
  | .closed => p.inbox.isEmpty
  | _ => true

/-- The request that such an event belongs to. -/
def tagOf (p : Process D) : Event D → Option ℕ
  | .resume _ => p.held
  | _ => none

/-- The process after a step of its agent for a request: an agent that has left its loop has
dropped its inbox. -/
def after (p : Process D) (tag : Option ℕ) (a : Actor D) : Process D :=
  { actor := a
    inbox := if a.receives then p.inbox else []
    held := if a.pendingMsg.isSome then tag else none }

end Process

/-! ### The system -/

/-- How far a call of `Supervisor::rollback` has come. -/
inductive Stage
  | opened
  | sent (ok : Bool)
  | closed
  deriving DecidableEq, Repr

/-- A call of `Supervisor::rollback`. -/
structure SupervisorCall where
  target : AgentId
  targetSeq : ℕ
  stage : Stage
  deriving DecidableEq, Repr

/-- The agents, the world they share, and the calls of the supervisor. -/
structure System (D : Type) where
  world : World D
  processes : ℕ → Option (Process D)
  calls : ℕ → Option SupervisorCall
  tagged : List (Write D × Option ℕ)
  served : List ℕ

/-- What can happen. -/
inductive SystemEvent (D : Type)
  | spawn (slot : ℕ) (id : AgentId) (params : BuildParams) (memory : List UInt8)
  | post (slot : ℕ) (message : Message D)
  | deliver (slot : ℕ) (order : List CapabilityId)
  | act (slot : ℕ) (event : Event D)
  | rollbackOpen (request : ℕ) (target : AgentId) (targetSeq : ℕ) (now : Reading)
  | rollbackSend (request : ℕ) (slot : Option ℕ)
  | rollbackClose (request : ℕ) (now : Reading)
  | crash (kept : ℕ)

namespace System

/-- Two new databases, and no agent yet. -/
def boot (w : World D) : System D :=
  { world := { w with writes := [] }
    processes := fun _ => none
    calls := fun _ => none
    tagged := []
    served := [] }

/-- The system with another process in a slot. -/
def setProcess (s : System D) (slot : ℕ) (p : Process D) : System D :=
  { s with processes := Function.update s.processes slot (some p) }

/-- The system with a call at another stage. -/
def setCall (s : System D) (request : ℕ) (call : SupervisorCall) : System D :=
  { s with calls := Function.update s.calls request (some call) }

/-- The system in a later world, whose further writes belong to a request. -/
def advance (s : System D) (w : World D) (tag : Option ℕ) : System D :=
  { s with
    world := w
    tagged := s.tagged ++ (w.writes.drop s.world.writes.length).map fun x => (x, tag) }

/-- An entry of the scheduler. -/
def append (s : System D) (request : ℕ) (e : LogEntry D) : System D :=
  s.advance (s.world.write (.append .scheduler e)).2 (some request)

/-- The byte of `CompensationClose` for the outcome of a send. -/
def outcome (ok : Bool) : UInt8 := if ok then 0x00 else 0x02

/-- Everything but a prefix of the journal is lost. -/
def crash (s : System D) (kept : ℕ) : System D :=
  { world := { s.world with writes := s.world.writes.take kept }
    processes := fun _ => none
    calls := fun r => (s.calls r).map fun call => { call with stage := .closed }
    tagged := s.tagged.take kept
    served := s.served }

variable [LinearOrder D] [ContentHash D]

/-- The requests that have been served after a step of the agent of a process. -/
def servedAfter (s : System D) (p : Process D) (tag : Option ℕ) (event : Event D) : List ℕ :=
  match p.actor.takesUp event with
  | none => s.served
  | some targetSeq =>
      if (p.actor.inWorld s.world).caller.canRollBack targetSeq then tag.toList ++ s.served
      else s.served

/-- A step of the agent of a process, for a request. -/
def run (s : System D) (slot : ℕ) (p : Process D) (tag : Option ℕ) (event : Event D) :
    Option (System D) :=
  ((p.actor.inWorld s.world).step event).map fun a =>
    { (s.advance a.caller.world tag).setProcess slot (p.after tag a) with
      served := s.servedAfter p tag event }

/-- One step. -/
def step (s : System D) : SystemEvent D → Option (System D)
  | .spawn slot id params memory =>
      match s.processes slot with
      | some _ => none
      | none => some (s.setProcess slot
          { actor := .new id params memory s.world, inbox := [], held := none })
  | .post slot message =>
      match s.processes slot with
      | none => none
      | some p => if p.actor.receives then some (s.setProcess slot (p.push none message)) else none
  | .deliver slot order =>
      match s.processes slot with
      | none => none
      | some p =>
          match p.inbox with
          | [] => none
          | (tag, message) :: inbox => s.run slot { p with inbox } tag (.recv message order)
  | .act slot event =>
      match s.processes slot with
      | none => none
      | some p => if p.enabled event then s.run slot p (p.tagOf event) event else none
  | .rollbackOpen request target targetSeq now =>
      match s.calls request with
      | some _ => none
      | none => some ((s.append request (compensationOpen target now)).setCall request
          { target, targetSeq, stage := .opened })
  | .rollbackSend request slot =>
      match s.calls request with
      | some { target, targetSeq, stage := .opened } =>
          match slot with
          | none => some (s.setCall request { target, targetSeq, stage := .sent false })
          | some slot =>
              match s.processes slot with
              | none => none
              | some p =>
                  if p.actor.caller.data.id = target ∧ p.actor.receives = true then
                    some ((s.setProcess slot (p.push (some request) (.rollback targetSeq))).setCall
                      request { target, targetSeq, stage := .sent true })
                  else none
      | _ => none
  | .rollbackClose request now =>
      match s.calls request with
      | some { target, targetSeq, stage := .sent ok } =>
          some ((s.append request (compensationClose target targetSeq (outcome ok) now)).setCall
            request { target, targetSeq, stage := .closed })
      | _ => none
  | .crash kept => some (s.crash kept)

/-- What a step can be. -/
inductive Trans (s : System D) : SystemEvent D → System D → Prop
  | spawn {slot id params memory} : s.processes slot = none →
      Trans s (.spawn slot id params memory) (s.setProcess slot
        { actor := .new id params memory s.world, inbox := [], held := none })
  | post {slot message p} : s.processes slot = some p → p.actor.receives = true →
      Trans s (.post slot message) (s.setProcess slot (p.push none message))
  | deliver {slot order p tag message inbox s'} : s.processes slot = some p →
      p.inbox = (tag, message) :: inbox →
      s.run slot { p with inbox } tag (.recv message order) = some s' →
      Trans s (.deliver slot order) s'
  | act {slot event p s'} : s.processes slot = some p → p.enabled event = true →
      s.run slot p (p.tagOf event) event = some s' → Trans s (.act slot event) s'
  | opened {request target targetSeq now} : s.calls request = none →
      Trans s (.rollbackOpen request target targetSeq now)
        ((s.append request (compensationOpen target now)).setCall request
          { target, targetSeq, stage := .opened })
  | unsent {request target targetSeq} :
      s.calls request = some { target, targetSeq, stage := .opened } →
      Trans s (.rollbackSend request none)
        (s.setCall request { target, targetSeq, stage := .sent false })
  | sent {request target targetSeq slot p} :
      s.calls request = some { target, targetSeq, stage := .opened } →
      s.processes slot = some p → p.actor.caller.data.id = target → p.actor.receives = true →
      Trans s (.rollbackSend request (some slot))
        ((s.setProcess slot (p.push (some request) (.rollback targetSeq))).setCall request
          { target, targetSeq, stage := .sent true })
  | closed {request target targetSeq ok now} :
      s.calls request = some { target, targetSeq, stage := .sent ok } →
      Trans s (.rollbackClose request now)
        ((s.append request (compensationClose target targetSeq (outcome ok) now)).setCall request
          { target, targetSeq, stage := .closed })
  | crash {kept} : Trans s (.crash kept) (s.crash kept)

/-- Every step is one of these. -/
theorem trans_of_step {s s' : System D} {ev : SystemEvent D} (h : s.step ev = some s') :
    s.Trans ev s' := by
  cases ev with
  | spawn slot id params memory =>
      simp only [step] at h
      split at h
      · cases h
      · cases h
        exact .spawn ‹_›
  | post slot message =>
      simp only [step] at h
      split at h
      · cases h
      · split_ifs at h with hreceives
        cases h
        exact .post ‹_› hreceives
  | deliver slot order =>
      simp only [step] at h
      split at h
      · cases h
      · split at h
        · cases h
        · exact .deliver ‹_› ‹_› h
  | act slot event =>
      simp only [step] at h
      split at h
      · cases h
      · split_ifs at h with henabled
        exact .act ‹_› henabled h
  | rollbackOpen request target targetSeq now =>
      simp only [step] at h
      split at h
      · cases h
      · cases h
        exact .opened ‹_›
  | rollbackSend request slot =>
      simp only [step] at h
      split at h
      · split at h
        · cases h
          exact .unsent ‹_›
        · split at h
          · cases h
          · split_ifs at h with hp
            cases h
            exact .sent ‹_› ‹_› hp.1 hp.2
      · cases h
  | rollbackClose request now =>
      simp only [step] at h
      split at h
      · cases h
        exact .closed ‹_›
      · cases h
  | crash kept =>
      cases h
      exact .crash

theorem run_eq_some {s s' : System D} {slot : ℕ} {p : Process D} {tag : Option ℕ}
    {event : Event D} (h : s.run slot p tag event = some s') :
    ∃ a, (p.actor.inWorld s.world).step event = some a ∧ s'.world = a.caller.world ∧
      s'.processes = Function.update s.processes slot (some (p.after tag a)) ∧
      s'.calls = s.calls ∧
      s'.tagged = s.tagged ++
        (a.caller.world.writes.drop s.world.writes.length).map fun x => (x, tag) := by
  obtain ⟨a, hstep, rfl⟩ := Option.map_eq_some_iff.mp h
  exact ⟨a, hstep, rfl, rfl, rfl, rfl⟩

end System

/-! ### Invariants of all agents -/

section

variable [LinearOrder D] [ContentHash D]

/-- A property `J` of the journal and a property `A` of an agent in its world that every step
of an agent keeps, as long as the messages it gets have the property `M`. -/
structure AgentInvariant (J : List (Write D) → Prop) (M : List (Write D) → Message D → Prop)
    (A : Actor D → Prop) : Prop where
  coherent : ∀ a, A a → a.Coherent
  nil : J []
  cut : ∀ ws ws', ws' <+: ws → J ws → J ws'
  scheduler : ∀ ws t now payload, J ws →
    J (ws ++ [.append .scheduler (schedulerEntry t now payload)])
  rollback : ∀ ws targetSeq, M ws (.rollback targetSeq)
  message : ∀ ws ws' m, ws <+: ws' → M ws m → M ws' m
  new : ∀ id params memory (w : World D), J w.writes → A (.new id params memory w)
  grow : ∀ (a : Actor D) (w w' : World D), w.writes <+: w'.writes → J w'.writes →
    A (a.inWorld w) → A (a.inWorld w')
  kept : ∀ a ev a', J a.ledger.writes → A a →
    (∀ message order, ev = .recv message order → M a.ledger.writes message) →
    (∀ ws c k h, ev ≠ .others ws c k h) → a.step ev = some a' → J a'.ledger.writes ∧ A a'

namespace System

/-- The journal, every agent and every message on its way have their properties. -/
structure Holds (J : List (Write D) → Prop) (M : List (Write D) → Message D → Prop)
    (A : Actor D → Prop) (s : System D) : Prop where
  journal : J s.world.writes
  agents : ∀ slot p, s.processes slot = some p → A (p.actor.inWorld s.world)
  inboxes : ∀ slot p, s.processes slot = some p → ∀ m ∈ p.inbox, M s.world.writes m.2

omit [LinearOrder D] [ContentHash D] in
theorem Holds.setCall {J : List (Write D) → Prop} {M : List (Write D) → Message D → Prop}
    {A : Actor D → Prop} {s : System D} (hs : s.Holds J M A) (request : ℕ)
    (call : SupervisorCall) : (s.setCall request call).Holds J M A :=
  ⟨hs.journal, hs.agents, hs.inboxes⟩

/-- What is sent to an agent from outside has the property of messages. -/
def PostsHave (M : List (Write D) → Message D → Prop) (s : System D) (ev : SystemEvent D) :
    Prop :=
  ∀ slot message, ev = .post slot message → M s.world.writes message

end System

namespace AgentInvariant

variable {J : List (Write D) → Prop} {M : List (Write D) → Message D → Prop}
  {A : Actor D → Prop}

theorem boot (hi : AgentInvariant J M A) (w : World D) : (System.boot w).Holds J M A :=
  ⟨hi.nil, fun _ _ h => (by cases h), fun _ _ h => (by cases h)⟩

/-- Steps of an agent only add to the journal. -/
theorem writes_prefix (hi : AgentInvariant J M A) {a a' : Actor D} {ev : Event D} (ha : A a)
    (h : a.step ev = some a') : a.ledger.writes <+: a'.ledger.writes := by
  rcases Actor.step_ledger (hi.coherent a ha) h with hsteps | ⟨ws, _, _, _, _, _, hext⟩
  · obtain ⟨ws, hws⟩ := hsteps.exists_writes
    exact ⟨ws, hws.symm⟩
  · rw [hext]
    exact List.prefix_append _ _

/-- In a world that has grown, all other processes are as well off as before. -/
theorem holds_of_grow (hi : AgentInvariant J M A) {s s' : System D} (hs : s.Holds J M A)
    (hgrow : s.world.writes <+: s'.world.writes) (hjournal : J s'.world.writes)
    {slot : ℕ} {p : Process D}
    (hprocesses : s'.processes = Function.update s.processes slot (some p))
    (hp : A (p.actor.inWorld s'.world)) (hinbox : ∀ m ∈ p.inbox, M s'.world.writes m.2) :
    s'.Holds J M A := by
  refine ⟨hjournal, fun slot' q hq => ?_, fun slot' q hq => ?_⟩
  all_goals
    rw [hprocesses, Function.update_apply] at hq
    split_ifs at hq with hslot
  · obtain rfl := Option.some.inj hq
    exact hp
  · exact hi.grow _ _ _ hgrow hjournal (hs.agents slot' q hq)
  · obtain rfl := Option.some.inj hq
    exact hinbox
  · exact fun m hm => hi.message _ _ _ hgrow (hs.inboxes slot' q hq m hm)

/-- A step of the agent of a process, with a message that has the property of messages. -/
theorem run (hi : AgentInvariant J M A) {s s' : System D} (hs : s.Holds J M A) {slot : ℕ}
    {p : Process D} {tag : Option ℕ} {event : Event D} (hp : A (p.actor.inWorld s.world))
    (hinbox : ∀ m ∈ p.inbox, M s.world.writes m.2)
    (hmessage : ∀ message order, event = .recv message order → M s.world.writes message)
    (hothers : ∀ ws c k h, event ≠ .others ws c k h)
    (h : s.run slot p tag event = some s') : s'.Holds J M A := by
  obtain ⟨a, hstep, hworld, hprocesses, -, -⟩ := System.run_eq_some h
  have hkept := hi.kept (p.actor.inWorld s.world) event a hs.journal hp hmessage hothers hstep
  have hgrow : s.world.writes <+: a.caller.world.writes := hi.writes_prefix hp hstep
  rw [← hworld] at hgrow
  refine hi.holds_of_grow hs hgrow ?_ hprocesses ?_ ?_
  · rw [hworld]
    exact hkept.1
  · rw [hworld]
    exact hkept.2
  · intro m hm
    simp only [Process.after] at hm
    split_ifs at hm
    · exact hi.message _ _ _ hgrow (hinbox m hm)
    · cases hm

/-- An entry of the scheduler. -/
theorem append (hi : AgentInvariant J M A) {s : System D} (hs : s.Holds J M A) (request : ℕ)
    (t : EmitType) (now : Reading) (payload : List UInt8) :
    (s.append request (schedulerEntry t now payload)).Holds J M A := by
  have hgrow : s.world.writes <+:
      (s.append request (schedulerEntry t now payload)).world.writes := by
    simp only [System.append, System.advance, World.write]
    split_ifs
    · exact List.prefix_rfl
    · exact List.prefix_append _ _
  have hjournal : J (s.append request (schedulerEntry t now payload)).world.writes := by
    simp only [System.append, System.advance, World.write]
    split_ifs
    · exact hs.journal
    · exact hi.scheduler _ _ _ _ hs.journal
  exact ⟨hjournal, fun slot p hp => hi.grow _ _ _ hgrow hjournal (hs.agents slot p hp),
    fun slot p hp m hm => hi.message _ _ _ hgrow (hs.inboxes slot p hp m hm)⟩

/-- Every step keeps the properties of the journal, of all agents and of all messages. -/
theorem step (hi : AgentInvariant J M A) {s s' : System D} {ev : SystemEvent D}
    (hs : s.Holds J M A) (hpost : s.PostsHave M ev) (h : s.step ev = some s') :
    s'.Holds J M A := by
  cases System.trans_of_step h with
  | spawn hslot =>
      exact hi.holds_of_grow hs List.prefix_rfl hs.journal rfl (hi.new _ _ _ _ hs.journal)
        (by simp)
  | @post slot message p hp _ =>
      refine hi.holds_of_grow hs List.prefix_rfl hs.journal rfl (hs.agents slot p hp) ?_
      intro m hm
      rcases List.mem_append.mp hm with hm | hm
      · exact hs.inboxes slot p hp m hm
      · rw [List.mem_singleton.mp hm]
        exact hpost slot message rfl
  | @deliver slot order p tag message inbox s' hp hinbox hrun =>
      have hall := hs.inboxes slot p hp
      rw [hinbox] at hall
      refine hi.run (p := { p with inbox }) hs (hs.agents slot p hp)
        (fun m hm => hall m (List.mem_cons_of_mem _ hm)) ?_ (by simp) hrun
      intro message' order' heq
      cases heq
      exact hall (tag, message) List.mem_cons_self
  | @act slot event p s' hp henabled hrun =>
      refine hi.run hs (hs.agents slot p hp) (hs.inboxes slot p hp) ?_ ?_ hrun
      · rintro message order rfl
        cases henabled
      · rintro ws c k h' rfl
        cases henabled
  | opened _ => exact (hi.append hs _ _ _ _).setCall _ _
  | unsent _ => exact hs.setCall _ _
  | @sent request target targetSeq slot p _ hp _ _ =>
      refine System.Holds.setCall ?_ _ _
      refine hi.holds_of_grow hs List.prefix_rfl hs.journal rfl (hs.agents slot p hp) ?_
      intro m hm
      rcases List.mem_append.mp hm with hm | hm
      · exact hs.inboxes slot p hp m hm
      · rw [List.mem_singleton.mp hm]
        exact hi.rollback _ _
  | closed _ => exact (hi.append hs _ _ _ _).setCall _ _
  | crash =>
      exact ⟨hi.cut _ _ (List.take_prefix _ _) hs.journal, fun _ _ hp => (by cases hp),
        fun _ _ hp => (by cases hp)⟩

/-- Every run whose posts have the property of messages keeps the properties of the journal,
of all agents and of all messages. -/
theorem holds_of_run (hi : AgentInvariant J M A) {w : World D} {evs : List (SystemEvent D)}
    {s : System D} (hposts : Machine.Along System.step (System.PostsHave M) (System.boot w) evs)
    (hrun : Machine.run System.step (System.boot w) evs = some s) : s.Holds J M A :=
  Machine.run_invariant_along (fun _ _ _ hs hpost h => hi.step hs hpost h) (hi.boot w) hposts
    hrun

end AgentInvariant

end

/-! ### Concrete runs -/

/-- The defaults of the builder, with a clock that advances at every reading. -/
def sampleParams : BuildParams :=
  { clock := fun n => n + 1, capStore := 0, kvStore := 0, causeHandleRegistry := 0 }

end Torpor
