import Torpor.Actor.Alike
import Torpor.Lib.Interleaving
import Torpor.System.Basic

/-!
# Independent Agents

Agents that share the two databases and nothing else: each has its own clock, capability store,
key-value store and registry of cause handles, and holds no handle on an action of another. A
society runs their loops and their guests, a step of one agent at a time, in any order.

A guest is any function of what has happened to its agent: the messages, what its calls have
returned, and its memory after each step. The order of the turns, the messages, the verdicts and
the timeouts are inputs, as are the answers of a backend.

## Main results

* `Society.Split`: the state of a society, by the states of its agents, each alone in a world of
  its own.
* `Society.decomposes`: a society decomposes into its agents.
* `independent_agents_commute`: every interleaving of two independent agents leaves the databases
  and the agents, and has returned to the guests, what running one agent to the end and then the
  other does.
-/

namespace Torpor

open ContentHash

variable {D : Type}

/-! ### Guests -/

/-- What a guest does next, with its memory at that moment. -/
inductive Move
  | call (memory : List UInt8) (call : HostCall)
  | ret (memory : List UInt8)
  | trap (memory : List UInt8) (interrupt : Bool)
  deriving DecidableEq, Repr

/-- The step of the agent. -/
def Move.event : Move → Event D
  | .call memory hostCall => .host memory hostCall
  | .ret memory => .ret memory
  | .trap memory interrupt => .trap memory interrupt

/-- A step of an agent as its guest may know it: what it was, what the call returned, and the
memory after it. -/
structure Episode (D : Type) where
  event : Event D
  result : Option Int32
  memory : List UInt8

/-- A guest: what has happened to its agent decides what it does next. -/
abbrev Guest (D : Type) := List (Episode D) → Move

/-- What makes an agent take a step: an input of its loop, or its guest. -/
inductive Turn (D : Type)
  | start
  | recv (message : Message D) (order : List CapabilityId)
  | resume (order : List CapabilityId)
  | closed
  | timeout
  | inferDone (result : Except InferError InferResponse) (durationMs : ℕ)
  | guest

/-- The step of the agent in a turn. -/
def Turn.event (g : Guest D) (past : List (Episode D)) : Turn D → Event D
  | start => .start
  | recv message order => .recv message order
  | resume order => .resume order
  | closed => .closed
  | timeout => .timeout
  | inferDone result durationMs => .inferDone result durationMs
  | guest => (g past).event

theorem Turn.event_ofLoop (g : Guest D) (past : List (Episode D)) (turn : Turn D) :
    (turn.event g past).ofLoop = true := by
  cases turn with
  | guest =>
      simp only [event]
      cases g past <;> rfl
  | _ => rfl

/-- An agent and what has happened to it. -/
structure Player (D : Type) where
  actor : Actor D
  past : List (Episode D)

/-- What is left of an agent: its state with the memory of its guest and its own objects, where
it is in its loop, and all that has happened to it. -/
structure Player.Outcome (D : Type) where
  view : View D
  phase : Phase D
  pendingMsg : Option (Message D)
  past : List (Episode D)

namespace Player

def outcome (p : Player D) : Outcome D :=
  { view := p.actor.caller.view
    phase := p.actor.phase
    pendingMsg := p.actor.pendingMsg
    past := p.past }

/-- The agent in the world as it is now. -/
def inWorld (p : Player D) (w : World D) : Player D := { p with actor := p.actor.inWorld w }

/-- Who the agent is. -/
def identity (p : Player D) : Identity := p.actor.caller.data.identity

/-- The world of the agent. -/
def world (p : Player D) : World D := p.actor.caller.world

variable [LinearOrder D] [ContentHash D]

/-- A turn of the agent. -/
def play (g : Guest D) (p : Player D) (turn : Turn D) : Option (Player D) :=
  let event := turn.event g p.past
  (p.actor.step event).map fun a =>
    { actor := a
      past := p.past ++
        [{ event, result := p.actor.returned event, memory := a.caller.memory }] }

end Player

/-! ### Societies -/

/-- Agents in one world. -/
structure Society (κ D : Type) where
  world : World D
  players : κ → Player D

namespace Society

variable {κ : Type}

/-- An agent in the world as it is now. -/
def player (s : Society κ D) (k : κ) : Player D := (s.players k).inWorld s.world

variable [LinearOrder D] [ContentHash D]

/-- A turn of one of the agents. -/
def step [DecidableEq κ] (guests : κ → Guest D) (s : Society κ D) (turn : κ × Turn D) :
    Option (Society κ D) :=
  ((s.player turn.1).play (guests turn.1) turn.2).map fun p =>
    { world := p.world, players := Function.update s.players turn.1 p }

/-- What is left of a society: what can be read from the databases, and the agents. -/
structure Outcome (κ D : Type) where
  contents : Disk.Contents D
  agents : κ → Player.Outcome D

def outcome (s : Society κ D) : Outcome κ D :=
  { contents := (Disk.replay s.world.writes).contents
    agents := fun k => (s.player k).outcome }

/-- The agents are in any states that they can have reached without failing accesses. They have
different identifiers and own objects, and none holds a handle on an action of another. -/
structure Independent (s : Society κ D) : Prop where
  noFault : s.world.fault = fun _ => false
  reachable : ∀ k, (s.player k).actor.Reachable
  id : ∀ j k, j ≠ k → (s.player j).identity.id ≠ (s.player k).identity.id
  capStore : ∀ j k, j ≠ k → (s.player j).identity.capStore ≠ (s.player k).identity.capStore
  kvStore : ∀ j k, j ≠ k → (s.player j).identity.kvStore ≠ (s.player k).identity.kvStore
  causeHandleRegistry : ∀ j k, j ≠ k → (s.player j).identity.causeHandleRegistry ≠
    (s.player k).identity.causeHandleRegistry
  noHandle : ∀ j k, j ≠ k → ∀ e : LogEntry D, e.agentId = (s.player k).identity.id →
    containsHandle (s.world.causeHandles (s.player j).identity.causeHandleRegistry
      (s.player j).identity.tenant) (s.player j).identity.id (actionId e) = false

/-- A society `s` that began as `s₀`, and its agents, each of which began in the world of `s₀`
and has been alone in it since. -/
structure Split (s₀ s : Society κ D) (solo : κ → Player D) : Prop where
  noFault : s.world.fault = fun _ => false
  agents : ∀ k, (solo k).outcome = (s.player k).outcome
  sound : ∀ k, (solo k).actor.Sound
  identity : ∀ k, (solo k).identity = (s₀.player k).identity
  own : ∀ k, ∃ ws, (solo k).world.writes = s₀.world.writes ++ ws ∧
    ∀ e ∈ entriesOf ws, e.agentId = (s₀.player k).identity.id
  writes : ∀ x, x ∈ s.world.writes ↔ x ∈ s₀.world.writes ∨ ∃ k, x ∈ (solo k).world.writes
  fewer : ∀ k t, ∀ x ∈ (solo k).world.causeHandles (s₀.player k).identity.causeHandleRegistry t,
    x ∈ s₀.world.causeHandles (s₀.player k).identity.causeHandleRegistry t

variable {s₀ s : Society κ D} {solo : κ → Player D}

theorem Split.start (h : s₀.Independent) : s₀.Split s₀ s₀.player where
  noFault := h.noFault
  agents _ := rfl
  sound k := (h.reachable k).sound
  identity _ := rfl
  own _ := ⟨[], by simp [player, Player.inWorld, Player.world, Actor.inWorld, Actor.setCaller],
    by simp [entriesOf]⟩
  writes x := ⟨.inl, fun hx => hx.elim (fun hx => hx) fun ⟨_, hk⟩ => hk⟩
  fewer _ _ _ hx := hx

/-- An agent is alike in the society and alone. -/
theorem Split.alike (hs : s₀.Split s solo) (k : κ) :
    Actor.Alike (s₀.player k).identity s.world (solo k).world (s.player k).actor
      (solo k).actor := by
  have houtcome := hs.agents k
  have hview := congrArg Player.Outcome.view houtcome
  have hdata : (solo k).actor.caller.data = (s.player k).actor.caller.data :=
    congrArg View.data hview
  have hid : (s.player k).actor.caller.data.identity = (s₀.player k).identity := by
    rw [← hdata]
    exact hs.identity k
  exact ⟨.refl hview hid hs.noFault (hs.sound k).noFault, congrArg Player.Outcome.phase houtcome,
    congrArg Player.Outcome.pendingMsg houtcome⟩

/-- What another agent has written is nothing that an agent may cite. -/
theorem Split.not_mayCite (hs : s₀.Split s solo) (h : s₀.Independent) {j k : κ} (hne : j ≠ k)
    {e : LogEntry D} (he : e.agentId = (s₀.player k).identity.id) :
    (solo j).actor.caller.mayCite e (actionId e) = false := by
  have hid := hs.identity j
  have hagent : e.agentId ≠ (solo j).actor.caller.data.id := by
    rw [he, show (solo j).actor.caller.data.id = _ from congrArg Identity.id hid]
    exact fun heq => h.id j k hne heq.symm
  have hregistry : (solo j).actor.caller.data.causeHandleRegistry =
      (s₀.player j).identity.causeHandleRegistry := congrArg Identity.causeHandleRegistry hid
  simp only [Caller.mayCite, Bool.or_eq_false_iff, beq_eq_false_iff_ne]
  refine ⟨hagent, ?_⟩
  have hnone := h.noHandle j k hne e he
  rw [← hid] at hnone
  simp only [containsHandle, List.any_eq_false] at hnone ⊢
  intro x hx
  refine hnone x ?_
  rw [hregistry, show (solo j).actor.caller.data.tenant = _ from congrArg Identity.tenant hid]
    at hx
  rw [hid]
  exact hs.fewer j _ x hx

/-- What an agent may cite, and its snapshots, are in the world in which it is alone. -/
theorem Split.sees (hs : s₀.Split s solo) (h : s₀.Independent) (k : κ) :
    Caller.Sees (s.player k).actor.caller (solo k).actor.caller := by
  refine ⟨fun x hx => (hs.writes x).mpr (.inr ⟨k, hx⟩), fun e he => ?_, fun tip htip => ?_⟩
  · obtain ⟨writer, hwrite⟩ := mem_entriesOf.mp he
    obtain ⟨wsk, hwsk, -⟩ := hs.own k
    rcases (hs.writes _).mp hwrite with hold | ⟨j, hj⟩
    · refine .inl (mem_entriesOf.mpr ⟨writer, ?_⟩)
      exact hwsk ▸ List.mem_append_left _ hold
    · obtain rfl | hne := eq_or_ne k j
      · exact .inl (mem_entriesOf.mpr ⟨writer, hj⟩)
      · obtain ⟨wsj, hwsj, hown⟩ := hs.own j
        rw [hwsj, List.mem_append] at hj
        rcases hj with hold | hnew
        · exact .inl (mem_entriesOf.mpr ⟨writer, hwsk ▸ List.mem_append_left _ hold⟩)
        · right
          rw [← (hs.alike k).caller.mayCite]
          exact hs.not_mayCite h hne (hown e (mem_entriesOf.mpr ⟨writer, hnew⟩))
  · obtain ⟨header, hchain, -⟩ := (hs.sound k).anchored tip htip
    exact ⟨header, hchain⟩

/-- A step of another agent takes nothing away from an agent. -/
theorem Split.outcome_of_ne (hs : s₀.Split s solo) (h : s₀.Independent) {j k : κ} (hne : j ≠ k)
    {c : Caller D} {ws : List (Write D)}
    (hsince : c.Since (s₀.player k).identity s.world ws) :
    ((s.players j).inWorld c.world).outcome = (s.player j).outcome := by
  have hid : (s.players j).identity = (s₀.player j).identity :=
    (hs.alike j).caller.identity
  have hcap : c.world.capStores (s.players j).actor.caller.data.capStore =
      s.world.capStores (s.players j).actor.caller.data.capStore := by
    refine hsince.capStores _ ?_
    rw [show (s.players j).actor.caller.data.capStore = _ from congrArg Identity.capStore hid]
    exact h.capStore j k hne
  have hkv : c.world.kvStores (s.players j).actor.caller.data.kvStore =
      s.world.kvStores (s.players j).actor.caller.data.kvStore := by
    refine hsince.kvStores _ ?_
    rw [show (s.players j).actor.caller.data.kvStore = _ from congrArg Identity.kvStore hid]
    exact h.kvStore j k hne
  have hreg : c.world.causeHandles (s.players j).actor.caller.data.causeHandleRegistry =
      s.world.causeHandles (s.players j).actor.caller.data.causeHandleRegistry := by
    refine hsince.causeHandles _ ?_
    rw [show (s.players j).actor.caller.data.causeHandleRegistry = _ from
      congrArg Identity.causeHandleRegistry hid]
    exact h.causeHandleRegistry j k hne
  simp only [player, Player.outcome, Player.inWorld, Actor.inWorld, Actor.setCaller, Caller.view,
    hcap, hkv, hreg]

/-- What has been written, after a step of an agent. -/
theorem Split.mem_writes [DecidableEq κ] (hs : s₀.Split s solo) {k : κ} {a a' : Actor D}
    {past : List (Episode D)} {ws : List (Write D)}
    (ha : a.caller.world.writes = s.world.writes ++ ws)
    (ha' : a'.caller.world.writes = (solo k).world.writes ++ ws) (x : Write D) :
    x ∈ a.caller.world.writes ↔ x ∈ s₀.world.writes ∨
      ∃ j, x ∈ (Function.update solo k ⟨a', past⟩ j).world.writes := by
  rw [ha, List.mem_append, hs.writes]
  constructor
  · rintro ((hold | ⟨j, hj⟩) | hnew)
    · exact .inl hold
    · refine .inr ⟨j, ?_⟩
      obtain rfl | hne := eq_or_ne j k
      · rw [Function.update_self, Player.world, ha']
        exact List.mem_append_left _ hj
      · rwa [Function.update_of_ne hne]
    · refine .inr ⟨k, ?_⟩
      rw [Function.update_self, Player.world, ha']
      exact List.mem_append_right _ hnew
  · rintro (hold | ⟨j, hj⟩)
    · exact .inl (.inl hold)
    · obtain rfl | hne := eq_or_ne j k
      · rw [Function.update_self, Player.world, ha', List.mem_append] at hj
        exact hj.elim (fun hj => .inl (.inr ⟨j, hj⟩)) .inr
      · rw [Function.update_of_ne hne] at hj
        exact .inl (.inr ⟨j, hj⟩)

/-- A step of an agent, in the society and alone. -/
theorem Split.step [DecidableEq κ] (hs : s₀.Split s solo) (h : s₀.Independent) {k : κ}
    {a a' : Actor D} {past : List (Episode D)}
    (ha : Actor.Alike (s₀.player k).identity s.world (solo k).world a a') (hsound : a'.Sound) :
    s₀.Split { world := a.caller.world, players := Function.update s.players k ⟨a, past⟩ }
      (Function.update solo k ⟨a', past⟩) := by
  obtain ⟨ws, hws, hsince, hsince'⟩ := ha.caller.since
  refine ⟨hsince.noFault, fun j => ?_, fun j => ?_, fun j => ?_, fun j => ?_,
    hs.mem_writes hsince.writes hsince'.writes, fun j => ?_⟩
  · obtain rfl | hne := eq_or_ne j k
    · simp only [player, Function.update_self, Player.outcome, ha.caller.view, ha.phase,
        ha.pendingMsg]
      rfl
    · simp only [player, Function.update_of_ne hne]
      exact (hs.agents j).trans (hs.outcome_of_ne h hne hsince).symm
  · rw [Function.update_apply]
    split_ifs
    · exact hsound
    · exact hs.sound j
  · rw [Function.update_apply]
    split_ifs with hj
    · rw [hj]
      exact hsince'.identity
    · exact hs.identity j
  · rw [Function.update_apply]
    split_ifs with hj
    · obtain ⟨ws', hws', hown⟩ := hs.own j
      subst hj
      refine ⟨ws' ++ ws, ?_, fun e he => ?_⟩
      · rw [Player.world, hsince'.writes, hws', List.append_assoc]
      · rw [entriesOf_append, List.mem_append] at he
        exact he.elim (hown e) (hws e)
    · exact hs.own j
  · rw [Function.update_apply]
    split_ifs with hj
    · subst hj
      exact fun t x hx => hs.fewer j t x (hsince'.fewer t x hx)
    · exact hs.fewer j

/-- **Decomposition.** A society of independent agents decomposes into its agents, each alone. -/
theorem decomposes [DecidableEq κ] (h : s₀.Independent) (guests : κ → Guest D) :
    Machine.Decomposes (step guests) (fun k => Player.play (guests k)) s₀.Split := by
  intro s solo k turn hs
  have hpast : (solo k).past = (s.player k).past :=
    congrArg Player.Outcome.past (hs.agents k)
  have hof := turn.event_ofLoop (guests k) (s.player k).past
  have hstep := Actor.step_alike (hs.alike k) (hs.sees h k) hof
  have hreturned := Actor.returned_alike (hs.alike k) (hs.sees h k)
    (turn.event (guests k) (s.player k).past)
  simp only [step, Player.play, hpast, hreturned]
  cases hb : (s.player k).actor.step (turn.event (guests k) (s.player k).past) with
  | none =>
      rw [hb] at hstep
      generalize (solo k).actor.step _ = o at hstep
      cases hstep
      exact .none
  | some b =>
      cases hb' : (solo k).actor.step (turn.event (guests k) (s.player k).past) with
      | none =>
          rw [hb, hb'] at hstep
          cases hstep
      | some b' =>
          rw [hb, hb'] at hstep
          cases hstep with
          | some hb'' =>
              refine .some ?_
              simp only [hb''.caller.memory]
              exact hs.step h hb'' ((hs.sound k).step hb')

/-- What is left of a society is determined by its agents, each alone. -/
theorem Split.outcome_eq {s' : Society κ D} (hs : s₀.Split s solo) (hs' : s₀.Split s' solo) :
    s.outcome = s'.outcome := by
  have hwrites : ∀ x, x ∈ s.world.writes ↔ x ∈ s'.world.writes := fun x =>
    (hs.writes x).trans (hs'.writes x).symm
  have hagents : (fun k => (s.player k).outcome) = fun k => (s'.player k).outcome :=
    funext fun k => (hs.agents k).symm.trans (hs'.agents k)
  simp only [outcome, Disk.contents_replay_eq hwrites, hagents]

/-- Two schedules that give each of any number of independent agents the same turns have the
same outcome. -/
theorem outcome_eq_of_parts [DecidableEq κ] (h : s₀.Independent) (guests : κ → Guest D)
    {turns turns' : List (κ × Turn D)}
    (hparts : ∀ k, Machine.part k turns = Machine.part k turns') :
    (Machine.run (step guests) s₀ turns).map outcome =
      (Machine.run (step guests) s₀ turns').map outcome :=
  (decomposes h guests).run_map_eq (fun _ _ _ hs hs' => hs.outcome_eq hs') (.start h) hparts

end Society

/-! ### Interleavings -/

/-- The turns of one of two agents, by itself. -/
def alone (k : Bool) (turns : List (Bool × Turn D)) : List (Bool × Turn D) :=
  (Machine.part k turns).map fun turn => (k, turn)

/-- **Independent agents commute.** Whatever the guests of two independent agents do, whatever
messages, verdicts and timeouts the agents get, and in whatever order their turns come: the
databases hold the same, the agents end in the same states, and every call has returned the same,
as when one agent runs to the end and then the other. -/
theorem independent_agents_commute [LinearOrder D] [ContentHash D] {s : Society Bool D}
    (h : s.Independent) (guests : Bool → Guest D) (turns : List (Bool × Turn D))
    (first : Bool) :
    (Machine.run (Society.step guests) s turns).map Society.outcome =
      (Machine.run (Society.step guests) s
        (alone first turns ++ alone (!first) turns)).map Society.outcome :=
  Society.outcome_eq_of_parts h guests fun k => (Machine.part_serial turns first k).symm

/-! ### A concrete society -/

/-- Agents `10` and `11` with 32 bytes of memory each, in a world in which nothing has happened. -/
def sampleSociety : Society Bool (List ℕ) :=
  { world := Actor.blankWorld
    players := fun k =>
      { actor := .new (if k then 11 else 10)
          { clock := fun n => n + 1, capStore := k.toNat, kvStore := k.toNat,
            causeHandleRegistry := k.toNat }
          (List.replicate 32 0) Actor.blankWorld
        past := [] } }

/-- A guest that commits, tries to cite the action that its memory names, emits, and returns. -/
def citingGuest : Guest (List ℕ) := fun past =>
  let memory := List.replicate 32 7
  let calls : List HostCall := [.commitBarrier, .agentAddCause 0, .emit 1 0 4]
  match calls[past.length - 2]? with
  | some call => .call memory call
  | none => .ret memory

/-- The two agents take turns. -/
def takingTurns : List (Bool × Turn (List ℕ)) :=
  [.start, .recv (.data [] none) [], .guest, .guest, .guest, .guest].flatMap fun turn =>
    [(false, turn), (true, turn)]

theorem sampleSociety_independent : sampleSociety.Independent where
  noFault := rfl
  reachable _ := ⟨_, _, _, Actor.blankWorld, [], rfl, rfl⟩
  id := by decide
  capStore := by decide
  kvStore := by decide
  causeHandleRegistry := by decide
  noHandle _ _ _ _ _ := rfl

/-- The two agents can take turns, and then are where one after the other would be. -/
theorem sampleSociety_commutes :
    (Machine.run (Society.step fun _ => citingGuest) sampleSociety takingTurns).isSome = true ∧
      (Machine.run (Society.step fun _ => citingGuest) sampleSociety takingTurns).map
          Society.outcome =
        (Machine.run (Society.step fun _ => citingGuest) sampleSociety
          (alone true takingTurns ++ alone false takingTurns)).map Society.outcome :=
  ⟨by decide +kernel,
    independent_agents_commute sampleSociety_independent (fun _ => citingGuest) takingTurns true⟩

end Torpor
