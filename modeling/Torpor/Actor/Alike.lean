import Torpor.Actor.Rollback

/-!
# The World as an Agent Sees It

An agent meets the world it shares in few places: it appends to the journal, it works on its own
capability store, key-value store and registry of cause handles, it looks up the entry that
`agent_add_cause` is given, and it reads headers along its own snapshots. Two worlds that agree
there are the same to it: the agent takes the same steps in both, its calls return the same, and
it writes the same (`Actor.step_alike`). Nothing is said of the parts that belong to others, but
that a step leaves them alone.

No access to the databases fails here.

## Main results

* `Caller.Alike`, `Actor.Alike`: one agent in two worlds, since a moment.
* `ContentStore.Chain.rollbackPath_eq`: a walk along a chain is the same in every store that
  keeps its headers.
* `Caller.Alike.host`: every host function does and returns the same.
* `Actor.step_alike`: so does every step of `run_loop`.
-/

namespace Torpor

open ContentHash

variable {D : Type}

/-! ### Agents and their own objects -/

/-- Who an agent is, and where the objects are that it does not share. -/
structure Identity where
  id : AgentId
  tenant : TenantId
  capStore : ℕ
  kvStore : ℕ
  causeHandleRegistry : ℕ
  deriving DecidableEq, Repr

/-- The identity of an agent, which it keeps. -/
def AgentState.identity (s : AgentState D) : Identity :=
  { id := s.id
    tenant := s.tenant
    capStore := s.capStore
    kvStore := s.kvStore
    causeHandleRegistry := s.causeHandleRegistry }

/-- What an agent has to itself: its state, the memory of its guest, and its own objects. -/
structure View (D : Type) where
  data : AgentState D
  memory : List UInt8
  capStore : CapabilityStore
  kvStore : KvStore
  causeHandles : CauseHandleRegistry D

namespace Caller

/-- The view of the agent. -/
def view (c : Caller D) : View D :=
  { data := c.data
    memory := c.memory
    capStore := c.world.capStores c.data.capStore
    kvStore := c.world.kvStores c.data.kvStore
    causeHandles := c.world.causeHandles c.data.causeHandleRegistry }

/-- What the agent `o` has done to a world: it has written `ws`, left the objects of others
alone, and issued no cause handle. -/
structure Since (o : Identity) (w : World D) (ws : List (Write D)) (c : Caller D) : Prop where
  identity : c.data.identity = o
  noFault : c.world.fault = fun _ => false
  writes : c.world.writes = w.writes ++ ws
  capStores : ∀ a, a ≠ o.capStore → c.world.capStores a = w.capStores a
  kvStores : ∀ a, a ≠ o.kvStore → c.world.kvStores a = w.kvStores a
  causeHandles : ∀ a, a ≠ o.causeHandleRegistry → c.world.causeHandles a = w.causeHandles a
  fewer : ∀ t, ∀ x ∈ c.world.causeHandles o.causeHandleRegistry t,
    x ∈ w.causeHandles o.causeHandleRegistry t

/-- One agent in two worlds, which were `w` and `w'`: it has the same view, and has written the
same to both. -/
structure Alike (o : Identity) (w w' : World D) (c c' : Caller D) : Prop where
  view : c'.view = c.view
  since : ∃ ws, (∀ e ∈ entriesOf ws, e.agentId = o.id) ∧ c.Since o w ws ∧ c'.Since o w' ws

/-- Two calls return the same, and leave the agent alike. -/
structure Agree (o : Identity) (w w' : World D) {α : Type} (x x' : α × Caller D) : Prop where
  fst : x'.1 = x.1
  snd : Alike o w w' x.2 x'.2

variable {o : Identity} {w w' : World D} {c c' : Caller D}

/-- What two calls return, and the callers they leave. -/
theorem Agree.exists_eq {α : Type} {x x' : α × Caller D} (h : Agree o w w' x x') :
    ∃ a d d', x = (a, d) ∧ x' = (a, d') ∧ Alike o w w' d d' :=
  ⟨x.1, x.2, x'.2, rfl, Prod.ext h.fst rfl, h.snd⟩

/-- At the start the agent is alike in worlds that look the same to it. -/
theorem Alike.refl (hview : c'.view = c.view) (hid : c.data.identity = o)
    (hfault : c.world.fault = fun _ => false) (hfault' : c'.world.fault = fun _ => false) :
    Alike o c.world c'.world c c' := by
  have hid' : c'.data.identity = o := by
    rw [show c'.data = c.data from congrArg View.data hview, hid]
  exact ⟨hview, [], by simp [entriesOf],
    ⟨hid, hfault, by simp, fun _ _ => rfl, fun _ _ => rfl, fun _ _ => rfl, fun _ _ h => h⟩,
    ⟨hid', hfault', by simp, fun _ _ => rfl, fun _ _ => rfl, fun _ _ => rfl, fun _ _ h => h⟩⟩

namespace Alike

theorem data (h : Alike o w w' c c') : c'.data = c.data := congrArg View.data h.view

theorem memory (h : Alike o w w' c c') : c'.memory = c.memory := congrArg View.memory h.view

theorem capStore (h : Alike o w w' c c') :
    c'.world.capStores c'.data.capStore = c.world.capStores c.data.capStore :=
  congrArg View.capStore h.view

theorem kvStore (h : Alike o w w' c c') :
    c'.world.kvStores c'.data.kvStore = c.world.kvStores c.data.kvStore :=
  congrArg View.kvStore h.view

theorem causeHandles (h : Alike o w w' c c') :
    c'.world.causeHandles c'.data.causeHandleRegistry =
      c.world.causeHandles c.data.causeHandleRegistry :=
  congrArg View.causeHandles h.view

theorem identity (h : Alike o w w' c c') : c.data.identity = o := by
  obtain ⟨ws, -, hs, -⟩ := h.since
  exact hs.identity

theorem id (h : Alike o w w' c c') : c.data.id = o.id := congrArg Identity.id h.identity

/-- The two callers differ in their worlds only. -/
theorem exists_world (h : Alike o w w' c c') : ∃ world, c' = { c with world } := by
  refine ⟨c'.world, ?_⟩
  obtain ⟨data', memory', world'⟩ := c'
  obtain rfl : data' = c.data := h.data
  obtain rfl : memory' = c.memory := h.memory
  rfl

end Alike

/-! ### Elementary changes -/

/-- The agent with another capability store. -/
def setCapStore (c : Caller D) (store : CapabilityStore) : Caller D :=
  { c with world := { c.world with
    capStores := Function.update c.world.capStores c.data.capStore store } }

/-- The agent with another key-value store. -/
def setKvStore (c : Caller D) (store : KvStore) : Caller D :=
  { c with world := { c.world with
    kvStores := Function.update c.world.kvStores c.data.kvStore store } }

/-- The agent with other cause handles. -/
def setCauseHandles (c : Caller D) (registry : CauseHandleRegistry D) : Caller D :=
  { c with world := { c.world with
    causeHandles := Function.update c.world.causeHandles c.data.causeHandleRegistry registry } }

/-- The agent with another memory of its guest. -/
def setMemory (c : Caller D) (memory : List UInt8) : Caller D := { c with memory }

/-- What `emit_cap_denied` logs, at the time of the refusal. -/
def logCapDenied [ContentHash D] (c : Caller D) (nowMs : ℕ) : Option (List UInt8) → Caller D
  | none => c
  | some payload =>
      (c.now.2.append .runtime (c.now.2.entry .capabilityDenied c.data.seq nowMs c.now.1
        c.tipHash c.tipHash payload)).2

/-- The world after any number of accesses. -/
def setIos (c : Caller D) (ios : ℕ) : Caller D := { c with world := { c.world with ios } }

namespace Since

variable {ws : List (Write D)}

theorem setData (h : c.Since o w ws) {f : AgentState D → AgentState D}
    (hf : ∀ s, (f s).identity = s.identity) : (c.setData f).Since o w ws :=
  { h with identity := (hf c.data).trans h.identity }

theorem setMemory (h : c.Since o w ws) (memory : List UInt8) :
    (c.setMemory memory).Since o w ws :=
  { h with }

theorem setIos (h : c.Since o w ws) (ios : ℕ) : (c.setIos ios).Since o w ws := { h with }

theorem setCapStore (h : c.Since o w ws) (store : CapabilityStore) :
    (c.setCapStore store).Since o w ws :=
  { h with
    capStores := fun a ha => by
      have hown : a ≠ c.data.capStore := by
        rwa [show c.data.capStore = o.capStore from congrArg Identity.capStore h.identity]
      exact (Function.update_of_ne hown _ _).trans (h.capStores a ha) }

theorem setKvStore (h : c.Since o w ws) (store : KvStore) :
    (c.setKvStore store).Since o w ws :=
  { h with
    kvStores := fun a ha => by
      have hown : a ≠ c.data.kvStore := by
        rwa [show c.data.kvStore = o.kvStore from congrArg Identity.kvStore h.identity]
      exact (Function.update_of_ne hown _ _).trans (h.kvStores a ha) }

theorem setCauseHandles (h : c.Since o w ws) {registry : CauseHandleRegistry D}
    (hfewer : ∀ t, ∀ x ∈ registry t, x ∈ c.world.causeHandles c.data.causeHandleRegistry t) :
    (c.setCauseHandles registry).Since o w ws := by
  have hreg : c.data.causeHandleRegistry = o.causeHandleRegistry :=
    congrArg Identity.causeHandleRegistry h.identity
  refine { h with causeHandles := fun a ha => ?_, fewer := fun t x hx => ?_ }
  · have hown : a ≠ c.data.causeHandleRegistry := by rwa [hreg]
    exact (Function.update_of_ne hown _ _).trans (h.causeHandles a ha)
  · simp only [Caller.setCauseHandles, ← hreg, Function.update_self] at hx
    have hold := hfewer t x hx
    rw [hreg] at hold
    exact h.fewer t x hold

end Since

namespace Alike

/-- The agent changes its state. -/
theorem setData (h : Alike o w w' c c') (f : AgentState D → AgentState D)
    (hf : ∀ s, (f s).identity = s.identity) : Alike o w w' (c.setData f) (c'.setData f) := by
  obtain ⟨ws, hws, hs, hs'⟩ := h.since
  refine ⟨?_, ws, hws, hs.setData hf, hs'.setData hf⟩
  have hid := hf c.data
  simp only [AgentState.identity, Identity.mk.injEq] at hid
  obtain ⟨-, -, hcap, hkv, hreg⟩ := hid
  have hcap' := h.capStore
  have hkv' := h.kvStore
  have hreg' := h.causeHandles
  rw [h.data] at hcap' hkv' hreg'
  simp only [Caller.view, Caller.setData, h.data, h.memory, hcap, hkv, hreg, hcap', hkv', hreg']

theorem setHostError (h : Alike o w w' c c') (error : String) :
    Alike o w w' (c.setHostError error) (c'.setHostError error) :=
  h.setData (fun s => { s with hostError := some error }) fun _ => rfl

theorem takePending (h : Alike o w w' c c') : Alike o w w' c.takePending c'.takePending :=
  h.setData (fun s => { s with pendingCommit := none }) fun _ => rfl

/-- The guest's memory changes. -/
theorem setMemory (h : Alike o w w' c c') (memory : List UInt8) :
    Alike o w w' (c.setMemory memory) (c'.setMemory memory) := by
  obtain ⟨ws, hws, hs, hs'⟩ := h.since
  refine ⟨?_, ws, hws, hs.setMemory memory, hs'.setMemory memory⟩
  exact congrArg (fun v : View D => { v with memory }) h.view

/-- Accesses that write nothing. -/
theorem setIos (h : Alike o w w' c c') (ios ios' : ℕ) :
    Alike o w w' (c.setIos ios) (c'.setIos ios') := by
  obtain ⟨ws, hws, hs, hs'⟩ := h.since
  exact ⟨h.view, ws, hws, hs.setIos ios, hs'.setIos ios'⟩

theorem setCapStore (h : Alike o w w' c c') (store : CapabilityStore) :
    Alike o w w' (c.setCapStore store) (c'.setCapStore store) := by
  obtain ⟨ws, hws, hs, hs'⟩ := h.since
  refine ⟨?_, ws, hws, hs.setCapStore store, hs'.setCapStore store⟩
  simpa only [Caller.view, Caller.setCapStore, Function.update_self] using
    congrArg (fun v : View D => { v with capStore := store }) h.view

theorem setKvStore (h : Alike o w w' c c') (store : KvStore) :
    Alike o w w' (c.setKvStore store) (c'.setKvStore store) := by
  obtain ⟨ws, hws, hs, hs'⟩ := h.since
  refine ⟨?_, ws, hws, hs.setKvStore store, hs'.setKvStore store⟩
  simpa only [Caller.view, Caller.setKvStore, Function.update_self] using
    congrArg (fun v : View D => { v with kvStore := store }) h.view

theorem setCauseHandles (h : Alike o w w' c c') (registry : CauseHandleRegistry D)
    (hfewer : ∀ t, ∀ x ∈ registry t, x ∈ c.world.causeHandles c.data.causeHandleRegistry t) :
    Alike o w w' (c.setCauseHandles registry) (c'.setCauseHandles registry) := by
  obtain ⟨ws, hws, hs, hs'⟩ := h.since
  refine ⟨?_, ws, hws, hs.setCauseHandles hfewer, hs'.setCauseHandles ?_⟩
  · simpa only [Caller.view, Caller.setCauseHandles, Function.update_self] using
      congrArg (fun v : View D => { v with causeHandles := registry }) h.view
  · rw [h.causeHandles]
    exact hfewer

/-- The next reading of the clock, which the agent does not share. -/
theorem now (h : Alike o w w' c c') : Agree o w w' c.now c'.now :=
  ⟨by simp only [Caller.now, h.data],
    h.setData (fun s => { s with reads := s.reads + 1 }) fun _ => rfl⟩

/-- A write is made in both worlds. -/
theorem write (h : Alike o w w' c c') (x : Write D)
    (hx : ∀ e ∈ entriesOf [x], e.agentId = o.id) :
    Agree o w w' (c.write x) (c'.write x) := by
  obtain ⟨ws, hws, hs, hs'⟩ := h.since
  have heq : ∀ {c : Caller D}, c.world.fault = (fun _ => false) → c.write x =
      (true, { c with world := { c.world with
        ios := c.world.ios + 1, writes := c.world.writes ++ [x] } }) := by
    intro c hfault
    simp only [Caller.write, World.write, hfault, Bool.false_eq_true, if_false]
  rw [heq hs.noFault, heq hs'.noFault]
  refine ⟨rfl, h.view, ws ++ [x], ?_, ?_, ?_⟩
  · intro e he
    rw [entriesOf_append, List.mem_append] at he
    exact he.elim (hws e) (hx e)
  · exact { hs with writes := by simp [hs.writes] }
  · exact { hs' with writes := by simp [hs'.writes] }

/-- A lookup of the agent does not fail. -/
theorem access (h : Alike o w w' c c') :
    c.access = (false, c.setIos (c.world.ios + 1)) ∧
      c'.access = (false, c'.setIos (c'.world.ios + 1)) := by
  obtain ⟨ws, -, hs, hs'⟩ := h.since
  exact ⟨Prod.ext (congrFun hs.noFault _) rfl, Prod.ext (congrFun hs'.noFault _) rfl⟩

/-! ### Logging -/

variable [ContentHash D]

/-- An entry of the agent is appended in both worlds. -/
theorem append (h : Alike o w w' c c') (writer : Writer) {e : LogEntry D}
    (he : e.agentId = o.id) : Agree o w w' (c.append writer e) (c'.append writer e) := by
  have hw := h.write (.append writer e) (by
    intro e' he'
    rw [List.mem_singleton.mp he', he])
  refine ⟨hw.fst, ?_⟩
  simp only [Caller.append, hw.fst]
  split_ifs
  · exact hw.snd.setData (fun s => { s with lastAction := some (actionId e) }) fun _ => rfl
  · exact hw.snd

omit [ContentHash D] in
theorem entry (h : Alike o w w' c c') (t : EmitType) (seq tsMs tsUs : ℕ) (before after : D)
    (payload : List UInt8) : c'.entry t seq tsMs tsUs before after payload =
      c.entry t seq tsMs tsUs before after payload := by
  simp only [Caller.entry, h.data]

theorem logQuiet (h : Alike o w w' c c') (t : EmitType) (payload : List UInt8) :
    Agree o w w' (c.logQuiet t payload) (c'.logQuiet t payload) := by
  obtain ⟨world, rfl⟩ := h.exists_world
  exact h.now.snd.now.snd.append .runtime h.id

theorem logLifecycleEvent (h : Alike o w w' c c') (newState : LifecycleState) :
    Alike o w w' (c.logLifecycleEvent newState) (c'.logLifecycleEvent newState) := by
  obtain ⟨world, rfl⟩ := h.exists_world
  have hset := h.setData (fun s => { s with lifecycle := newState }) fun _ => rfl
  simp only [Caller.logLifecycleEvent]
  split_ifs
  · exact h
  · exact (hset.logQuiet _ _).snd
  · exact (hset.logQuiet _ _).snd

theorem logAgentCrash (h : Alike o w w' c c') (cause : CrashCause) :
    Alike o w w' (c.logAgentCrash cause) (c'.logAgentCrash cause) := by
  obtain ⟨world, rfl⟩ := h.exists_world
  exact (h.logQuiet _ _).snd.setData (fun s => { s with lifecycle := .terminated }) fun _ => rfl

theorem recordValidationResponse (h : Alike o w w' c c') (verdict : ValidationVerdict) :
    Alike o w w' (c.recordValidationResponse verdict) (c'.recordValidationResponse verdict) := by
  obtain ⟨world, rfl⟩ := h.exists_world
  have hset := h.setData (fun s => { s with lastVerdict := some verdict }) fun _ => rfl
  simp only [Caller.recordValidationResponse]
  split_ifs
  · exact h
  · exact (hset.logQuiet _ _).snd.logLifecycleEvent _

theorem logSessionBoundary (h : Alike o w w' c c') :
    Alike o w w' c.logSessionBoundary c'.logSessionBoundary := by
  obtain ⟨world, rfl⟩ := h.exists_world
  have hboundary := (h.logQuiet .sessionBoundary (leBytes 8 c.data.sessionId ++
    leBytes 8 (c.data.seq - c.data.sessionStartSeq))).snd.setData (fun s => { s with
      sessionId := s.sessionId + 1
      sessionStartSeq := s.seq
      sessionStartedAtMs := 0 }) fun _ => rfl
  exact hboundary.logLifecycleEvent .checkpointed

/-- The event of a refusal, if the limiter lets it through. -/
theorem logCapDenied (h : Alike o w w' c c') (nowMs : ℕ) (payload : Option (List UInt8)) :
    Alike o w w' (c.logCapDenied nowMs payload) (c'.logCapDenied nowMs payload) := by
  obtain ⟨world, rfl⟩ := h.exists_world
  cases payload with
  | none => exact h
  | some payload => exact (h.now.snd.append .runtime h.id).snd

theorem emitCapDenied (h : Alike o w w' c c') (capId : UInt64) (resource : List Char)
    (permFlags : UInt8) : Alike o w w' (c.emitCapDenied capId resource permFlags)
      (c'.emitCapDenied capId resource permFlags) := by
  obtain ⟨world, rfl⟩ := h.exists_world
  let admitted := c.data.capDenied.admit c.now.1 resource
  have hset := h.now.snd.setData (fun s => { s with capDenied := admitted.2 }) fun _ => rfl
  exact hset.logCapDenied c.now.1 _

/-! ### Host functions that look nothing up -/

omit [ContentHash D] in
/-- The check of a capability depends on the agent's own store. -/
theorem checkCap (h : Alike o w w' c c') (capId : UInt64) (resource : List Char)
    (perm : Permissions) : c'.checkCap capId resource perm = c.checkCap capId resource perm := by
  have hcap := h.capStore
  rw [h.data] at hcap
  simp only [Caller.checkCap, h.data, hcap]

omit [ContentHash D] in
theorem writeOut (h : Alike o w w' c c') (outPtr outMaxLen : Int32) (buf : List UInt8) :
    Agree o w w' (c.writeOut outPtr outMaxLen buf) (c'.writeOut outPtr outMaxLen buf) := by
  obtain ⟨world, rfl⟩ := h.exists_world
  simp only [Caller.writeOut]
  split_ifs
  · exact ⟨rfl, h⟩
  · exact ⟨rfl, h.setMemory _⟩
  · exact ⟨rfl, h⟩

theorem agentIntrospect (h : Alike o w w' c c') (outPtr outMaxLen : Int32) :
    Agree o w w' (c.agentIntrospect outPtr outMaxLen) (c'.agentIntrospect outPtr outMaxLen) := by
  obtain ⟨world, rfl⟩ := h.exists_world
  exact h.writeOut _ _ _

omit [ContentHash D] in
theorem agentSessionInfo (h : Alike o w w' c c') (outPtr outMaxLen : Int32) :
    Agree o w w' (c.agentSessionInfo outPtr outMaxLen)
      (c'.agentSessionInfo outPtr outMaxLen) := by
  obtain ⟨world, rfl⟩ := h.exists_world
  exact h.writeOut _ _ _

theorem recordCommit (h : Alike o w w' c c') (snapId : D) (nowMs : ℕ) :
    Alike o w w' (c.recordCommit snapId nowMs) (c'.recordCommit snapId nowMs) := by
  refine h.setData _ ?_
  intro s
  rfl

theorem commitBarrier (h : Alike o w w' c c') :
    Alike o w w' c.commitBarrier c'.commitBarrier := by
  have h1 := h.now
  have h2 := h1.snd.now
  have hbytes : c'.now.2.now.2.stateBytes = c.now.2.now.2.stateBytes := by
    simp only [Caller.stateBytes, h2.snd.data]
  have hquiet : ∀ x : Write D, x.entry? = none → ∀ e ∈ entriesOf [x], e.agentId = o.id := by
    intro x hx
    simp [entriesOf, hx]
  obtain ⟨ok, d, d', hd, hd', hblock⟩ :=
    (h2.snd.write (.putBlock c.now.2.now.2.stateBytes) (hquiet _ rfl)).exists_eq
  have hheader : d'.commitHeader c.now.1 = d.commitHeader c.now.1 := by
    simp only [Caller.commitHeader, Caller.stateBytes, hblock.data]
  obtain ⟨ok', e, e', he, he', hsnap⟩ :=
    (hblock.write (.putSnapshot (d.commitHeader c.now.1)) (hquiet _ rfl)).exists_eq
  simp only [Caller.commitBarrier, h.data, h1.fst, h2.fst, hbytes, hd, hd', hheader, he, he']
  split_ifs
  · exact h
  · exact hblock.setHostError _
  · exact hsnap.setHostError _
  · exact hsnap.recordCommit _ _

theorem agentCheckpoint (h : Alike o w w' c c') :
    Agree o w w' c.agentCheckpoint c'.agentCheckpoint := by
  obtain ⟨world, rfl⟩ := h.exists_world
  simp only [Caller.agentCheckpoint]
  split_ifs
  · exact ⟨rfl, h⟩
  · exact ⟨rfl, h.logLifecycleEvent _⟩

theorem agentTerminate (h : Alike o w w' c c') :
    Alike o w w' c.agentTerminate c'.agentTerminate :=
  (h.setData (fun s => { s with terminationRequested := true }) fun _ => rfl).logLifecycleEvent _

theorem moveTip (h : Alike o w w' c c') (t : EmitType) (tip target : D) (nowMs nowUs : ℕ)
    (payload : List UInt8) : Alike o w w' (c.moveTip t tip target nowMs nowUs payload)
      (c'.moveTip t tip target nowMs nowUs payload) := by
  obtain ⟨ok, d, d', hd, hd', happend⟩ := (h.append .runtime
    (e := c.entry t c.data.seq nowMs nowUs tip target payload) h.id).exists_eq
  simp only [Caller.moveTip, h.data, h.entry, hd, hd']
  split_ifs
  · exact happend.setData (fun s => { s with lastSnapshot := some target }) fun _ => rfl
  · exact happend

theorem agentRequestValidation (h : Alike o w w' c c') (riskLevel : Int32) :
    Agree o w w' (c.agentRequestValidation riskLevel) (c'.agentRequestValidation riskLevel) := by
  obtain ⟨world, rfl⟩ := h.exists_world
  have hlog := h.logQuiet .validationRequest [UInt8.ofNat (usize riskLevel)]
  simp only [Caller.agentRequestValidation, hlog.fst]
  split_ifs
  · exact ⟨rfl, h⟩
  · exact ⟨rfl, h⟩
  · exact ⟨rfl, hlog.snd.setData (fun s => { s with lifecycle := .awaitingValidation })
      fun _ => rfl⟩
  · exact ⟨rfl, hlog.snd⟩

theorem agentStoreGet (h : Alike o w w' c c') (resourcePtr resourceLen : Int32)
    (capId : UInt64) (outPtr : Int32) :
    Agree o w w' (c.agentStoreGet resourcePtr resourceLen capId outPtr)
      (c'.agentStoreGet resourcePtr resourceLen capId outPtr) := by
  have hkv := h.kvStore
  simp only [Caller.agentStoreGet, h.memory, h.checkCap, hkv]
  cases readStr c.memory (usize resourcePtr) (usize resourceLen) with
  | none => exact ⟨rfl, h⟩
  | some resource =>
      simp only
      split_ifs
      · exact ⟨rfl, h.emitCapDenied _ _ _⟩
      · cases (c.world.kvStores c.data.kvStore).lookup resource with
        | none => exact ⟨rfl, h⟩
        | some value =>
            simp only
            split_ifs
            · exact ⟨rfl, h.setMemory _⟩
            · exact ⟨rfl, h⟩

theorem agentStorePut (h : Alike o w w' c c') (resourcePtr resourceLen : Int32)
    (capId : UInt64) (valPtr valLen : Int32) :
    Agree o w w' (c.agentStorePut resourcePtr resourceLen capId valPtr valLen)
      (c'.agentStorePut resourcePtr resourceLen capId valPtr valLen) := by
  have hargs : c'.storePutArgs resourcePtr resourceLen valPtr valLen =
      c.storePutArgs resourcePtr resourceLen valPtr valLen := by
    simp only [storePutArgs, h.memory]
  simp only [Caller.agentStorePut, hargs, h.checkCap]
  cases c.storePutArgs resourcePtr resourceLen valPtr valLen with
  | none => exact ⟨rfl, h⟩
  | some args =>
      obtain ⟨resource, value⟩ := args
      simp only
      split_ifs
      · exact ⟨rfl, h.emitCapDenied _ _ _⟩
      · refine ⟨rfl, ?_⟩
        have hput := h.setKvStore
          ((c.world.kvStores c.data.kvStore).insert resource value)
        have heq : c'.kvInsert resource value =
            c'.setKvStore ((c.world.kvStores c.data.kvStore).insert resource value) := by
          rw [← h.kvStore]
          rfl
        rw [heq]
        exact hput

omit [ContentHash D] in
theorem commitEntry (h : Alike o w w' c c') (p : PendingCommit D)
    (payload : Option EmitEnvelope) : c'.commitEntry p payload = c.commitEntry p payload := by
  simp only [Caller.commitEntry, h.data]

theorem emit (h : Alike o w w' c c') (emitType ptr len : Int32) :
    Alike o w w' (c.emit emitType ptr len) (c'.emit emitType ptr len) := by
  have hnow := h.takePending.now
  simp only [Caller.emit, h.data]
  cases c.data.pendingCommit with
  | none =>
      simp only
      split_ifs
      · exact h
      · exact h
      · exact h.setHostError _
  | some p =>
      simp only [hnow.fst, hnow.snd.data, hnow.snd.memory, hnow.snd.commitEntry]
      have happend := fun payload => (hnow.snd.append .guest
        (e := c.takePending.now.2.commitEntry p (some payload)) h.id)
      simp only [fun payload => (happend payload).fst]
      split_ifs
      · exact h
      · exact h
      · exact hnow.snd.setHostError _
      · exact (happend _).snd
      · exact (happend _).snd.setHostError _

omit [ContentHash D] in
theorem inferRefused (h : Alike o w w' c c')
    (promptPtr promptLen responseLenOutPtr : Int32) :
    Alike o w w' (c.inferRefused promptPtr promptLen responseLenOutPtr)
      (c'.inferRefused promptPtr promptLen responseLenOutPtr) := by
  obtain ⟨world, rfl⟩ := h.exists_world
  simp only [Caller.inferRefused]
  split_ifs
  · exact h.setMemory _
  · exact h

omit [ContentHash D] in
theorem inferArgsOk (h : Alike o w w' c c') (promptPtr promptLen responseBufPtr responseBufCap
    responseLenOutPtr : Int32) :
    c'.inferArgsOk promptPtr promptLen responseBufPtr responseBufCap responseLenOutPtr =
      c.inferArgsOk promptPtr promptLen responseBufPtr responseBufCap responseLenOutPtr := by
  simp only [Caller.inferArgsOk, h.memory]

theorem inferStart (h : Alike o w w' c c') (promptPtr promptLen responseBufPtr responseBufCap
    responseLenOutPtr timeoutMsReq : Int32) :
    Agree o w w'
      (c.inferStart promptPtr promptLen responseBufPtr responseBufCap responseLenOutPtr
        timeoutMsReq)
      (c'.inferStart promptPtr promptLen responseBufPtr responseBufCap responseLenOutPtr
        timeoutMsReq) := by
  obtain ⟨world, rfl⟩ := h.exists_world
  exact ⟨rfl, h.now.snd.logLifecycleEvent _⟩

omit [ContentHash D] in
theorem writeResponse (h : Alike o w w' c c') (call : InferCall D) (written : List UInt8) :
    Alike o w w' (c.writeResponse call written) (c'.writeResponse call written) := by
  obtain ⟨world, rfl⟩ := h.exists_world
  exact h.setMemory _

omit [ContentHash D] in
theorem inferEntry (h : Alike o w w' c c') (call : InferCall D) (t : EmitType) (tsMs : ℕ)
    (hash : D) (parents : List D) (payload : List UInt8) :
    c'.inferEntry call t tsMs hash parents payload =
      c.inferEntry call t tsMs hash parents payload := by
  simp only [Caller.inferEntry, h.data]

theorem logInferenceRequest (h : Alike o w w' c c') (call : InferCall D)
    (slotInfo : Option SlotAcquiredInfo) :
    Alike o w w' (c.logInferenceRequest call slotInfo)
      (c'.logInferenceRequest call slotInfo) := by
  simp only [Caller.logInferenceRequest, h.inferEntry]
  exact (h.append .runtime h.id).snd

theorem agentInferFinish (h : Alike o w w' c c') (call : InferCall D)
    (result : Except InferError InferResponse) (durationMs : ℕ) :
    Agree o w w' (c.agentInferFinish call result durationMs)
      (c'.agentInferFinish call result durationMs) := by
  have hnow := h.now
  have hrequest := hnow.snd.logInferenceRequest call (slotInfoOf result)
  have hwritten := fun written => hrequest.writeResponse call written
  have htip : c'.now.2.tipHash = c.now.2.tipHash := by
    simp only [Caller.tipHash, hnow.snd.data]
  simp only [Caller.agentInferFinish, hnow.fst, hnow.snd.data, htip,
    fun written => (hwritten written).inferEntry]
  exact ⟨rfl, ((hwritten _).append .runtime (hwritten _).id).snd.logLifecycleEvent _⟩

/-! ### The end of a cycle -/

theorem checkSession (h : Alike o w w' c c') : Alike o w w' c.checkSession c'.checkSession := by
  have hnow := h.now
  have hexceeded : ∀ {d d' : Caller D}, Alike o w w' d d' → ∀ nowMs,
      d'.sessionExceeded nowMs = d.sessionExceeded nowMs := by
    intro d d' hd nowMs
    simp only [Caller.sessionExceeded, hd.data]
  have hread : Agree o w w' (if 0 < c.data.sessionStartedAtMs then c.now else (0, c))
      (if 0 < c.data.sessionStartedAtMs then c'.now else (0, c')) := by
    split_ifs
    · exact hnow
    · exact ⟨rfl, h⟩
  obtain ⟨nowMs, d, d', hd, hd', hread⟩ := hread.exists_eq
  simp only [Caller.checkSession, h.data, hd, hd', hexceeded hread]
  split_ifs
  · exact hread.logSessionBoundary
  · exact hread

theorem processEnd (h : Alike o w w' c c') : Agree o w w' c.processEnd c'.processEnd := by
  simp only [Caller.processEnd, h.data, h.commitEntry]
  cases c.data.hostError with
  | some error => exact ⟨rfl, h.setData (fun s => { s with hostError := none }) fun _ => rfl⟩
  | none =>
      cases c.data.pendingCommit with
      | none => exact ⟨rfl, h.checkSession⟩
      | some p =>
          obtain ⟨ok, d, d', hd, hd', happend⟩ :=
            (h.takePending.append .runtime (e := c.commitEntry p none) h.id).exists_eq
          simp only [hd, hd']
          split_ifs
          · exact ⟨rfl, happend.checkSession⟩
          · exact ⟨rfl, happend⟩

end Alike

/-! ### Lookups -/

section Lookups

variable [LinearOrder D] [ContentHash D]

/-- What a call returns to the guest; nothing if it has no result, or suspends the guest. -/
def returned (c : Caller D) : HostCall → Option Int32
  | .commitBarrier => none
  | .agentAddCause actionIdPtr => some (c.agentAddCause actionIdPtr).1
  | .agentCheckpoint => some c.agentCheckpoint.1
  | .agentTerminate => none
  | .agentIntrospect outPtr outMaxLen => some (c.agentIntrospect outPtr outMaxLen).1
  | .agentSelfRollback depth => some (c.agentSelfRollback depth).1
  | .agentSessionInfo outPtr outMaxLen => some (c.agentSessionInfo outPtr outMaxLen).1
  | .agentRequestValidation riskLevel => some (c.agentRequestValidation riskLevel).1
  | .agentGetVerdict => some c.agentGetVerdict
  | .agentCheckCap capId resourcePtr resourceLen permFlags =>
      some (c.agentCheckCap capId resourcePtr resourceLen permFlags)
  | .agentStoreGet resourcePtr resourceLen capId outPtr =>
      some (c.agentStoreGet resourcePtr resourceLen capId outPtr).1
  | .agentStorePut resourcePtr resourceLen capId valPtr valLen =>
      some (c.agentStorePut resourcePtr resourceLen capId valPtr valLen).1
  | .emit _ _ _ => none
  | .agentInfer promptPtr promptLen responseBufPtr responseBufCap responseLenOutPtr _ =>
      if c.inferArgsOk promptPtr promptLen responseBufPtr responseBufCap responseLenOutPtr then
        none
      else some 2

/-- Beyond the world of `c'`, in which the snapshots of the agent are, the world of `c` has
nothing that the agent may cite. -/
structure Sees (c c' : Caller D) : Prop where
  sub : ∀ x ∈ c'.world.writes, x ∈ c.world.writes
  strange : ∀ e ∈ entriesOf c.world.writes,
    e ∈ entriesOf c'.world.writes ∨ c.mayCite e (actionId e) = false
  chain : ∀ tip, c'.data.lastSnapshot = some tip → ∃ header, c'.world.store.Chain tip header

namespace Sees

/-- What the smaller world stores, the larger one does. -/
theorem getHeader (hs : Sees c c') (id : D) (header : SnapshotHeader D)
    (hid : c'.world.store.getHeader id = some header) :
    c.world.store.getHeader id = some header := by
  obtain ⟨hmem, hid'⟩ := Disk.replay_getHeader_eq_some.mp hid
  exact Disk.replay_getHeader_eq_some.mpr ⟨hs.sub _ hmem, hid'⟩

/-- An entry that is found in the larger world only is one that the agent may not cite. -/
theorem get (hs : Sees c c') (id : D) :
    c'.world.log.get id = c.world.log.get id ∨
      c'.world.log.get id = none ∧ ∃ e, c.world.log.get id = some e ∧ c.mayCite e id = false := by
  cases hget : c.world.log.get id with
  | none =>
      left
      refine Option.eq_none_iff_forall_ne_some.mpr fun e he => ?_
      obtain ⟨hmem, hid⟩ := Disk.replay_get_eq_some.mp he
      obtain ⟨writer, hwrite⟩ := mem_entriesOf.mp hmem
      have hfound : c.world.log.get id = some e :=
        Disk.replay_get_eq_some.mpr ⟨mem_entriesOf.mpr ⟨writer, hs.sub _ hwrite⟩, hid⟩
      rw [hget] at hfound
      cases hfound
  | some e =>
      obtain ⟨hmem, rfl⟩ := Disk.replay_get_eq_some.mp hget
      cases hget' : c'.world.log.get (actionId e) with
      | some e' =>
          have heq := actionId_injective (Disk.replay_get_eq_some.mp hget').2
          exact .inl (by rw [heq])
      | none =>
          right
          refine ⟨rfl, e, rfl, (hs.strange e hmem).resolve_left fun hown => ?_⟩
          have hfound : c'.world.log.get (actionId e) = some e :=
            Disk.replay_get_eq_some.mpr ⟨hown, rfl⟩
          rw [hget'] at hfound
          cases hfound

end Sees

namespace Alike

omit [ContentHash D] in
/-- What the agent may cite depends on its own cause handles. -/
theorem mayCite (h : Alike o w w' c c') (e : LogEntry D) (id : D) :
    c'.mayCite e id = c.mayCite e id := by
  have hreg := h.causeHandles
  rw [h.data] at hreg
  simp only [Caller.mayCite, h.data, hreg]

/-- An action that the agent does not know and one that it may not cite are refused alike. -/
theorem agentAddCause (h : Alike o w w' c c') (hs : Sees c c') (actionIdPtr : Int32) :
    Agree o w w' (c.agentAddCause actionIdPtr) (c'.agentAddCause actionIdPtr) := by
  obtain ⟨haccess, haccess'⟩ := h.access
  have hios := h.setIos (c.world.ios + 1) (c'.world.ios + 1)
  simp only [Caller.agentAddCause, h.data, h.memory, haccess, haccess', Bool.false_eq_true,
    if_false]
  split_ifs
  · exact ⟨rfl, h⟩
  · exact ⟨rfl, h⟩
  · exact ⟨rfl, h⟩
  · have hlog : ∀ (c : Caller D) ios, (c.setIos ios).world.log = c.world.log := fun _ _ => rfl
    have hset : ∀ (c : Caller D) ios e id, (c.setIos ios).mayCite e id = c.mayCite e id :=
      fun _ _ _ _ => rfl
    simp only [hlog, hset, h.mayCite]
    obtain heq | ⟨hnone, e, hsome, hmay⟩ :=
      hs.get (ContentHash.ofBytes (readMem c.memory (usize actionIdPtr) 32))
    · rw [heq]
      split
      · exact ⟨rfl, hios⟩
      · split_ifs
        · exact ⟨rfl, hios.setData (fun s => { s with
            pendingExtraCauses := s.pendingExtraCauses ++
              [ContentHash.ofBytes (readMem c.memory (usize actionIdPtr) 32)] }) fun _ => rfl⟩
        · exact ⟨rfl, hios⟩
    · simp only [hnone, hsome, hmay, Bool.false_eq_true, if_false]
      exact ⟨rfl, hios⟩

theorem rollbackPath (h : Alike o w w' c c') (hs : Sees c c') {tip : D}
    (htip : c.data.lastSnapshot = some tip) (targetSeq : ℕ) :
    Agree o w w' (c.rollbackPath tip targetSeq) (c'.rollbackPath tip targetSeq) := by
  obtain ⟨ws, -, hsince, hsince'⟩ := h.since
  have hios := h.setIos (c.world.ios + c.world.store.walkBound)
    (c'.world.ios + c'.world.store.walkBound)
  refine ⟨?_, hios⟩
  obtain ⟨header, hchain⟩ := hs.chain tip (by rw [h.data, htip])
  simp only [Caller.rollbackPath, World.rollbackPath, hsince.noFault, hsince'.noFault]
  exact (hchain.rollbackPath_eq hs.getHeader targetSeq).symm

theorem agentSelfRollback (h : Alike o w w' c c') (hs : Sees c c') (depth : Int32) :
    Agree o w w' (c.agentSelfRollback depth) (c'.agentSelfRollback depth) := by
  simp only [Caller.agentSelfRollback, h.data]
  cases htip : c.data.lastSnapshot with
  | none =>
      simp only
      split_ifs
      · exact ⟨rfl, h⟩
      · exact ⟨rfl, h⟩
      · exact ⟨rfl, h⟩
  | some tip =>
      simp only
      split_ifs
      · exact ⟨rfl, h⟩
      · exact ⟨rfl, h⟩
      · exact ⟨rfl, h⟩
      · obtain ⟨path, d, d', hd, hd', hpath⟩ :=
          (h.rollbackPath hs htip (c.data.seq - 1 - usize depth)).exists_eq
        simp only [hd, hd']
        cases path with
        | error e => exact ⟨rfl, hpath⟩
        | ok path =>
            have hnow := hpath.now
            have hnow' := hnow.snd.now
            simp only [hnow.fst, hnow'.fst]
            exact ⟨rfl, hnow'.snd.moveTip _ _ _ _ _ _⟩

/-! ### Message::Rollback -/

omit [LinearOrder D] [ContentHash D] in
theorem revokeAfter (h : Alike o w w' c c') (order : List CapabilityId) (afterMs : ℕ) :
    Agree o w w' (c.revokeAfter order afterMs) (c'.revokeAfter order afterMs) := by
  have hcap := h.capStore
  have hreg := h.causeHandles
  obtain ⟨world, rfl⟩ := h.exists_world
  dsimp only at hcap hreg
  simp only [Caller.revokeAfter, hcap, hreg]
  refine ⟨rfl, (h.setCapStore _).setCauseHandles _ ?_⟩
  intro t x hx
  exact (List.mem_filter.mp hx).1

theorem revokeForTarget (h : Alike o w w' c c') (order : List CapabilityId) {target : D}
    (htarget : c'.world.store.getHeader target = c.world.store.getHeader target) :
    Agree o w w' (c.revokeForTarget order target) (c'.revokeForTarget order target) := by
  obtain ⟨haccess, haccess'⟩ := h.access
  have hios := h.setIos (c.world.ios + 1) (c'.world.ios + 1)
  have hstore : ∀ (c : Caller D) ios, (c.setIos ios).world.store = c.world.store :=
    fun _ _ => rfl
  simp only [Caller.revokeForTarget, haccess, haccess', hstore, htarget, Bool.false_eq_true,
    if_false]
  cases c.world.store.getHeader target with
  | none => exact ⟨rfl, hios⟩
  | some header => exact hios.revokeAfter _ _

theorem rollbackAlong (h : Alike o w w' c c') (order : List CapabilityId) (targetSeq : ℕ)
    (tip : D) {path : List D} (htarget : c'.world.store.getHeader (path.getLastD tip) =
      c.world.store.getHeader (path.getLastD tip)) :
    Alike o w w' (c.rollbackAlong order targetSeq tip path)
      (c'.rollbackAlong order targetSeq tip path) := by
  have hnow := h.now
  have hnow' := hnow.snd.now
  obtain ⟨revoked, d, d', hd, hd', hrevoke⟩ :=
    (hnow'.snd.revokeForTarget order htarget).exists_eq
  simp only [Caller.rollbackAlong, hnow.fst, hnow'.fst, hd, hd']
  exact (hrevoke.moveTip _ _ _ _ _ _).logLifecycleEvent _

theorem rollback (h : Alike o w w' c c') (hs : Sees c c') (order : List CapabilityId)
    (targetSeq : ℕ) : Agree o w w' (c.rollback order targetSeq) (c'.rollback order targetSeq) := by
  simp only [Caller.rollback, h.data]
  cases htip : c.data.lastSnapshot with
  | none => exact ⟨rfl, h⟩
  | some tip =>
      simp only
      split_ifs
      · exact ⟨rfl, h⟩
      · obtain ⟨path, d, d', hd, hd', hpath⟩ := (h.rollbackPath hs htip targetSeq).exists_eq
        simp only [hd, hd']
        cases path with
        | error e => exact ⟨rfl, hpath⟩
        | ok path =>
            refine ⟨rfl, hpath.rollbackAlong order targetSeq tip ?_⟩
            have hstore : d.world.store = c.world.store :=
              congrArg (fun x => x.2.world.store) hd.symm
            have hstore' : d'.world.store = c'.world.store :=
              congrArg (fun x => x.2.world.store) hd'.symm
            obtain ⟨x, hlast, -, header, hid, -⟩ :=
              ContentStore.walk_eq_ok (congrArg Prod.fst hd')
            have htarget : path.getLastD tip = x := by simp [hlast]
            rw [htarget, hstore, hstore', hid, hs.getHeader x header hid]

/-! ### Every host function -/

/-- A call of the guest does the same. -/
theorem host (h : Alike o w w' c c') (hs : Sees c c') (call : HostCall) :
    Agree o w w' (c.host call) (c'.host call) := by
  cases call with
  | commitBarrier => exact ⟨rfl, h.commitBarrier⟩
  | agentAddCause actionIdPtr => exact ⟨rfl, (h.agentAddCause hs _).snd⟩
  | agentCheckpoint => exact ⟨rfl, h.agentCheckpoint.snd⟩
  | agentTerminate => exact ⟨rfl, h.agentTerminate⟩
  | agentIntrospect outPtr outMaxLen => exact ⟨rfl, (h.agentIntrospect _ _).snd⟩
  | agentSelfRollback depth => exact ⟨rfl, (h.agentSelfRollback hs _).snd⟩
  | agentSessionInfo outPtr outMaxLen => exact ⟨rfl, (h.agentSessionInfo _ _).snd⟩
  | agentRequestValidation riskLevel => exact ⟨rfl, (h.agentRequestValidation _).snd⟩
  | agentGetVerdict => exact ⟨rfl, h⟩
  | agentCheckCap capId resourcePtr resourceLen permFlags => exact ⟨rfl, h⟩
  | agentStoreGet resourcePtr resourceLen capId outPtr =>
      exact ⟨rfl, (h.agentStoreGet _ _ _ _).snd⟩
  | agentStorePut resourcePtr resourceLen capId valPtr valLen =>
      exact ⟨rfl, (h.agentStorePut _ _ _ _ _).snd⟩
  | emit emitType ptr len => exact ⟨rfl, h.emit _ _ _⟩
  | agentInfer promptPtr promptLen responseBufPtr responseBufCap responseLenOutPtr
      timeoutMsReq =>
      simp only [Caller.host, h.inferArgsOk]
      split_ifs
      · have hstart := h.inferStart promptPtr promptLen responseBufPtr responseBufCap
          responseLenOutPtr timeoutMsReq
        exact ⟨congrArg some hstart.fst, hstart.snd⟩
      · exact ⟨rfl, h.inferRefused _ _ _⟩

/-- A call of the guest returns the same. -/
theorem returned (h : Alike o w w' c c') (hs : Sees c c') (call : HostCall) :
    c'.returned call = c.returned call := by
  cases call with
  | agentAddCause actionIdPtr => exact congrArg some (h.agentAddCause hs _).fst
  | agentCheckpoint => exact congrArg some h.agentCheckpoint.fst
  | agentIntrospect outPtr outMaxLen => exact congrArg some (h.agentIntrospect _ _).fst
  | agentSelfRollback depth => exact congrArg some (h.agentSelfRollback hs _).fst
  | agentSessionInfo outPtr outMaxLen => exact congrArg some (h.agentSessionInfo _ _).fst
  | agentRequestValidation riskLevel => exact congrArg some (h.agentRequestValidation _).fst
  | agentGetVerdict => simp only [Caller.returned, Caller.agentGetVerdict, h.data]
  | agentCheckCap capId resourcePtr resourceLen permFlags =>
      simp only [Caller.returned, Caller.agentCheckCap, h.memory, h.checkCap]
  | agentStoreGet resourcePtr resourceLen capId outPtr =>
      exact congrArg some (h.agentStoreGet _ _ _ _).fst
  | agentStorePut resourcePtr resourceLen capId valPtr valLen =>
      exact congrArg some (h.agentStorePut _ _ _ _ _).fst
  | agentInfer promptPtr promptLen responseBufPtr responseBufCap responseLenOutPtr
      timeoutMsReq => simp only [Caller.returned, h.inferArgsOk]
  | _ => rfl

end Alike

end Lookups

end Caller

/-! ### The loop -/

namespace Actor

/-- One agent in two worlds, which were `w` and `w'`: at the same place of its loop. -/
structure Alike (o : Identity) (w w' : World D) (a a' : Actor D) : Prop where
  caller : Caller.Alike o w w' a.caller a'.caller
  phase : a'.phase = a.phase
  pendingMsg : a'.pendingMsg = a.pendingMsg

/-- What a step returns to the guest. -/
def returned [LinearOrder D] [ContentHash D] (a : Actor D) : Event D → Option Int32
  | .host memory call =>
      match a.phase with
      | .guest _ => (a.setMemory memory).caller.returned call
      | _ => none
  | .inferDone result durationMs =>
      match a.phase with
      | .infer _ call => some (a.caller.agentInferFinish call result durationMs).1
      | _ => none
  | _ => none

variable {o : Identity} {w w' : World D} {a a' : Actor D}

namespace Alike

theorem setCaller (h : Alike o w w' a a') {c c' : Caller D} (hc : Caller.Alike o w w' c c') :
    Alike o w w' (a.setCaller c) (a'.setCaller c') :=
  ⟨hc, h.phase, h.pendingMsg⟩

theorem setPhase (h : Alike o w w' a a') (phase : Phase D) :
    Alike o w w' { a with phase } { a' with phase } :=
  ⟨h.caller, rfl, h.pendingMsg⟩

theorem setMemory (h : Alike o w w' a a') (memory : List UInt8) :
    Alike o w w' (a.setMemory memory) (a'.setMemory memory) :=
  h.setCaller (h.caller.setMemory memory)

/-- An agent that leaves its loop revokes handles in its own registry. -/
theorem leave (h : Alike o w w' a a') (phase : Phase D) :
    Alike o w w' (a.leave phase) (a'.leave phase) := by
  have heq : (a'.leave phase).caller = a'.caller.setCauseHandles
      ((a.caller.world.causeHandles a.caller.data.causeHandleRegistry).revokeIssuedByAll
        a.caller.data.id) := by
    rw [← h.caller.causeHandles, ← h.caller.data]
    rfl
  refine ⟨?_, rfl, rfl⟩
  rw [heq]
  exact h.caller.setCauseHandles _ fun t x hx => (List.mem_filter.mp hx).1

theorem afterData (h : Alike o w w' a a') : Alike o w w' a.afterData a'.afterData := by
  simp only [Actor.afterData, h.caller.data]
  split_ifs
  · exact h.leave .stopped
  · exact h.setPhase .idle

variable [ContentHash D]

theorem crash (h : Alike o w w' a a') (cause : CrashCause) :
    Alike o w w' (a.crash cause) (a'.crash cause) :=
  (h.setCaller (h.caller.logAgentCrash cause)).leave .stopped

theorem exitLoop (h : Alike o w w' a a') : Alike o w w' a.exitLoop a'.exitLoop := by
  simp only [Actor.exitLoop, h.caller.data]
  split_ifs
  · exact (h.setCaller (h.caller.logLifecycleEvent .terminated)).leave .stopped
  · exact h.leave .stopped

theorem enter (h : Alike o w w' a a') (kind : CycleKind) (data : List UInt8) :
    Alike o w w' (a.enter kind data) (a'.enter kind data) := by
  simp only [Actor.enter, Caller.processStart, h.caller.memory]
  split_ifs
  · exact h.crash _
  · exact h.crash _
  · exact ⟨h.caller.setMemory _, rfl, h.pendingMsg⟩

theorem endCycle (h : Alike o w w' a a') (kind : CycleKind) :
    Alike o w w' (a.endCycle kind) (a'.endCycle kind) := by
  obtain ⟨result, d, d', hd, hd', hend⟩ := h.caller.processEnd.exists_eq
  have hset := h.setCaller hend
  have hlifecycle : (a'.setCaller d').caller.data.lifecycle =
      (a.setCaller d).caller.data.lifecycle := congrArg AgentState.lifecycle hset.caller.data
  simp only [Actor.endCycle, hd, hd', hlifecycle]
  cases result with
  | error e => exact hset.crash _
  | ok u =>
      cases kind with
      | sessionResume => exact hset.setPhase .idle
      | data =>
          simp only
          split_ifs
          · exact hset.setPhase .awaiting
          · exact hset.afterData

theorem recordVerdict (h : Alike o w w' a a') (verdict : ValidationVerdict) :
    Alike o w w' (a.recordVerdict verdict) (a'.recordVerdict verdict) :=
  (h.setCaller (h.caller.recordValidationResponse verdict)).afterData

theorem await (h : Alike o w w' a a') (message : Message D) :
    Alike o w w' (a.await message) (a'.await message) := by
  cases message with
  | validationResponse verdict => exact h.recordVerdict verdict
  | suspend => exact h.leave .stopped
  | rollback targetSeq =>
      have hput : Alike o w w' { a with pendingMsg := some (.rollback targetSeq) }
          { a' with pendingMsg := some (.rollback targetSeq) } := ⟨h.caller, h.phase, rfl⟩
      exact hput.recordVerdict .cancelled
  | _ => exact h

variable [LinearOrder D]

theorem handle (h : Alike o w w' a a') (hs : Caller.Sees a.caller a'.caller)
    (order : List CapabilityId) (message : Message D) :
    Alike o w w' (a.handle order message) (a'.handle order message) := by
  cases message with
  | data payload cause =>
      have hcauses := (h.caller.logLifecycleEvent .active).setData (fun s => { s with
        pendingExtraCauses := s.pendingExtraCauses ++ cause.toList }) fun _ => rfl
      exact (h.setCaller hcauses).enter .data payload
  | suspend => exact (h.setCaller (h.caller.logLifecycleEvent .suspended)).exitLoop
  | checkpoint => exact h.setCaller (h.caller.logLifecycleEvent .checkpointed)
  | evict =>
      have hset := h.setCaller (h.caller.logLifecycleEvent .suspended)
      have hstate : (a'.setCaller (a'.caller.logLifecycleEvent .suspended)).evictedState =
          (a.setCaller (a.caller.logLifecycleEvent .suspended)).evictedState := by
        simp only [evictedState, hset.caller.data]
      simp only [Actor.handle, hstate]
      exact hset.leave _
  | rollback targetSeq =>
      obtain ⟨cause, d, d', hd, hd', hrollback⟩ :=
        (h.caller.rollback hs order targetSeq).exists_eq
      simp only [Actor.handle, hd, hd']
      cases cause with
      | none => exact h.setCaller hrollback
      | some cause => exact (h.setCaller hrollback).crash cause
  | validationResponse verdict => exact h
  | sessionResume summary =>
      exact (h.setCaller (h.caller.logLifecycleEvent .active)).enter .sessionResume summary

theorem hostCall (h : Alike o w w' a a') (hs : Caller.Sees a.caller a'.caller)
    (kind : CycleKind) (call : HostCall) :
    Alike o w w' (a.hostCall kind call) (a'.hostCall kind call) := by
  obtain ⟨suspended, d, d', hd, hd', hhost⟩ := (h.caller.host hs call).exists_eq
  simp only [Actor.hostCall, hd, hd']
  cases suspended with
  | none => exact h.setCaller hhost
  | some call => exact ⟨hhost, rfl, h.pendingMsg⟩

end Alike

/-- The memory of the guest has nothing to do with what the agent sees of the world. -/
theorem sees_setMemory [LinearOrder D] [ContentHash D]
    (hs : Caller.Sees a.caller a'.caller) (memory : List UInt8) :
    Caller.Sees (a.setMemory memory).caller (a'.setMemory memory).caller :=
  ⟨hs.sub, hs.strange, hs.chain⟩

end Actor

/-- The event is a step of `run_loop`, of its guest or of what it waits for. -/
def Event.ofLoop : Event D → Bool
  | .wake _ _ => false
  | .others _ _ _ _ => false
  | _ => true

namespace Actor

variable [LinearOrder D] [ContentHash D] {o : Identity} {w w' : World D} {a a' : Actor D}

/-- **One step.** In two worlds that it sees alike an agent takes the same steps. -/
theorem step_alike (h : Alike o w w' a a') (hs : Caller.Sees a.caller a'.caller) {ev : Event D}
    (hev : ev.ofLoop = true) : Option.Rel (Alike o w w') (a.step ev) (a'.step ev) := by
  obtain ⟨c, phase, pendingMsg⟩ := a
  obtain ⟨c', phase', pendingMsg'⟩ := a'
  obtain rfl : phase' = phase := h.phase
  obtain rfl : pendingMsg' = pendingMsg := h.pendingMsg
  have hmemory : c'.memory = c.memory := h.caller.memory
  cases ev with
  | start =>
      cases phase' with
      | spawned => exact .some ⟨h.caller.logLifecycleEvent .spawned, rfl, rfl⟩
      | _ => exact .none
  | recv message order =>
      cases pendingMsg' with
      | some held => cases phase' <;> exact .none
      | none =>
          cases phase' with
          | idle => exact .some (h.handle hs order message)
          | awaiting => exact .some (h.await message)
          | _ => exact .none
  | resume order =>
      cases pendingMsg' with
      | none => cases phase' <;> exact .none
      | some message =>
          cases phase' with
          | idle =>
              have htaken : Alike o w w' ⟨c, .idle, none⟩ ⟨c', .idle, none⟩ :=
                ⟨h.caller, rfl, rfl⟩
              exact .some (htaken.handle hs order message)
          | _ => exact .none
  | closed =>
      cases pendingMsg' with
      | some held => cases phase' <;> exact .none
      | none =>
          cases phase' with
          | idle => exact .some h.exitLoop
          | awaiting => exact .some (h.leave .stopped)
          | _ => exact .none
  | timeout =>
      cases phase' with
      | awaiting => exact .some (h.recordVerdict .timeout)
      | _ => exact .none
  | host memory call =>
      cases phase' with
      | guest kind =>
          simp only [step, hmemory]
          split_ifs
          · exact .some ((h.setMemory memory).hostCall (sees_setMemory hs memory) kind call)
          · exact .none
      | _ => exact .none
  | inferDone result durationMs =>
      cases phase' with
      | infer kind call =>
          exact .some ⟨(h.caller.agentInferFinish call result durationMs).snd, rfl, rfl⟩
      | _ => exact .none
  | ret memory =>
      cases phase' with
      | guest kind =>
          simp only [step, hmemory]
          split_ifs
          · exact .some ((h.setMemory memory).endCycle kind)
          · exact .none
      | _ => exact .none
  | trap memory interrupt =>
      cases phase' with
      | guest kind =>
          simp only [step, hmemory]
          split_ifs
          · exact .some ((h.setMemory memory).crash _)
          · exact .none
      | _ => exact .none
  | wake params memory => cases hev
  | others writes capStores kvStores causeHandles => cases hev

/-- In two worlds that it sees alike a step returns the same to the guest. -/
theorem returned_alike (h : Alike o w w' a a') (hs : Caller.Sees a.caller a'.caller)
    (ev : Event D) : a'.returned ev = a.returned ev := by
  cases ev with
  | host memory call =>
      simp only [returned, h.phase]
      split
      · exact (h.setMemory memory).caller.returned (sees_setMemory hs memory) call
      · rfl
  | inferDone result durationMs =>
      simp only [returned, h.phase]
      split
      · exact congrArg some (h.caller.agentInferFinish _ result durationMs).fst
      · rfl
  | _ => rfl

end Actor

end Torpor
