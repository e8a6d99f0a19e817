import Torpor.Actor.CauseHandles
import Torpor.Actor.RunLoop

/-!
# Citations Across Agents

The agents of any number of tenants, built on one registry of cause handles, with whoever mints
handles for them. A revocation is a sweep: it holds the lock of the registry for reading, which
keeps new stores out, and takes the stores one by one, so that mints and citations come in
between. `run_loop` begins one for its agent when it ends, and a rollback begins one too.

What an agent does besides citing, and what happens to the databases, is up to the environment;
an agent keeps its identity, its tenant and the `Arc` of its store for life.

`history` is there for what is said about the system only: the mints, and the sweeps with the
points at which they began and ended.

## Main results

* `Consistent.step`: a handle stands for the latest mint of its key, and no sweep that has begun
  since then has come past it.
* `citation_run`: the authority of a citation, along every run.
-/

namespace Torpor

open Machine ContentHash

variable {D : Type}

namespace Caller

variable [LinearOrder D] [ContentHash D] (c : Caller D) (actionIdPtr : Int32)

/-- The action that a call of `agent_add_cause` names. -/
def cited (memory : List UInt8) (actionIdPtr : Int32) : D :=
  ofBytes (readMem memory (usize actionIdPtr) 32)

/-- `agent_add_cause` accepts an action only if it is in the log and the agent may cite it. -/
theorem mayCite_of_agentAddCause (h : (c.agentAddCause actionIdPtr).1 = 0) :
    ∃ entry, c.world.log.get (cited c.memory actionIdPtr) = some entry ∧
      c.mayCite entry (cited c.memory actionIdPtr) = true := by
  simp only [agentAddCause] at h
  split_ifs at h
  -- Every branch but one answers with a negative code.
  · exact absurd h (by simp)
  · exact absurd h (by simp)
  · exact absurd h (by simp)
  · exact absurd h (by simp)
  · split at h
    · exact absurd h (by simp)
    · split_ifs at h with hmay
      · exact ⟨_, ‹_›, hmay⟩
      · exact absurd h (by simp)

/-- `agent_add_cause` adds to the pending causes at most. -/
theorem agentAddCause_data : ∃ causes,
    (c.agentAddCause actionIdPtr).2.data = { c.data with pendingExtraCauses := causes } := by
  simp only [agentAddCause]
  split_ifs
  · exact ⟨_, rfl⟩
  · exact ⟨_, rfl⟩
  · exact ⟨_, rfl⟩
  · exact ⟨_, rfl⟩
  · split
    · exact ⟨_, rfl⟩
    · split_ifs
      · exact ⟨_, rfl⟩
      · exact ⟨_, rfl⟩

end Caller

/-- A call of `revoke_issued_by_all` or `revoke_issued_after_all` between two stores. -/
structure Sweep where
  revocation : Revocation
  todo : List ℕ
  deriving DecidableEq, Repr

/-- An agent, with its `cause_handle_store`. -/
structure CitingAgent (D : Type) where
  data : AgentState D
  store : ℕ

/-- What the history keeps: a mint into a store, and the beginning and the end of a sweep. -/
inductive HandleEvent (D : Type)
  | minted (store : ℕ) (handle : CauseHandle D)
  | began (sweep : ℕ) (revocation : Revocation)
  | ended (sweep : ℕ)
  deriving DecidableEq, Repr

/-- The agents of a registry. `begun` numbers the sweeps. -/
structure Citations (D : Type) where
  registry : SharedRegistry D
  world : World D
  agents : ℕ → Option (CitingAgent D)
  sweeps : ℕ → Option Sweep
  begun : ℕ
  history : List (HandleEvent D)

/-- What can happen. -/
inductive CitationOp (D : Type)
  | getOrCreate (tenant : TenantId)
  /-- `ActorInstanceBuilder::build`, given the registry. -/
  | build (slot : ℕ) (id : AgentId) (params : BuildParams)
  | mint (store : ℕ) (actionId : D) (grantee issuer : AgentId) (issuedAtMs : ℕ)
  | sweep (revocation : Revocation) (order : List ℕ)
  /-- A sweep takes its next store, or ends. -/
  | visit (sweep : ℕ)
  /-- `run_loop` ends. -/
  | leave (slot : ℕ) (order : List ℕ)
  | addCause (slot : ℕ) (memory : List UInt8) (actionIdPtr : Int32)
  /-- Whatever else an agent does to its state. -/
  | live (slot : ℕ) (data : AgentState D)
  /-- Whatever happens to the databases. -/
  | databases (world : World D)

namespace Citations

/-- A new registry. -/
def boot (world : World D) : Citations D :=
  { registry := .new, world, agents := fun _ => none, sweeps := fun _ => none, begun := 0,
    history := [] }

/-- No sweep holds the lock of the registry. -/
def unlocked (s : Citations D) : Bool := (List.range s.begun).all fun k => (s.sweeps k).isNone

/-- `get_or_create`, which waits for the sweeps if it has to make a store. -/
def getOrCreate (s : Citations D) (tenant : TenantId) : Option (ℕ × Citations D) :=
  if (s.registry.stores.lookup tenant).isSome || s.unlocked then
    some ((s.registry.getOrCreate tenant).1,
      { s with registry := (s.registry.getOrCreate tenant).2 })
  else none

/-- Put an agent in a slot. -/
def setAgent (s : Citations D) (slot : ℕ) (agent : CitingAgent D) : Citations D :=
  { s with agents := Function.update s.agents slot (some agent) }

/-- Begin a sweep. -/
def begin (s : Citations D) (revocation : Revocation) (order : List ℕ) : Option (Citations D) :=
  if order.Perm s.registry.values then
    some { s with
      sweeps := Function.update s.sweeps s.begun (some { revocation, todo := order })
      begun := s.begun + 1
      history := s.history ++ [.began s.begun revocation] }
  else none

/-- A call of an agent. The handles it consults are those of its own `Arc`. -/
def caller (s : Citations D) (agent : CitingAgent D) (memory : List UInt8) : Caller D :=
  { data := agent.data
    memory
    world := { s.world with causeHandles := fun _ _ => s.registry.handlesAt agent.store } }

variable [LinearOrder D] [ContentHash D]

/-- One step. -/
def step (s : Citations D) : CitationOp D → Option (Citations D)
  | .getOrCreate tenant => (s.getOrCreate tenant).map (·.2)
  | .build slot id params =>
      match s.agents slot with
      | some _ => none
      | none => (s.getOrCreate params.tenant).map fun made =>
          made.2.setAgent slot { data := .build id params, store := made.1 }
  | .mint store actionId grantee issuer issuedAtMs =>
      if store < s.registry.heap.length then
        some { s with
          registry := s.registry.modify store fun st => (st.mint actionId grantee issuer issuedAtMs).2
          history := s.history ++ [.minted store { grantee, actionId, issuer, issuedAtMs }] }
      else none
  | .sweep revocation order => s.begin revocation order
  | .visit sweep =>
      match s.sweeps sweep with
      | none => none
      | some { revocation := _, todo := [] } =>
          some { s with
            sweeps := Function.update s.sweeps sweep none
            history := s.history ++ [.ended sweep] }
      | some { revocation, todo := store :: todo } =>
          some { s with
            registry := s.registry.revokeAt revocation store
            sweeps := Function.update s.sweeps sweep (some { revocation, todo }) }
  | .leave slot order =>
      match s.agents slot with
      | none => none
      | some agent =>
          { s with agents := Function.update s.agents slot none }.begin
            (.issuedBy agent.data.id) order
  | .addCause slot memory actionIdPtr =>
      match s.agents slot with
      | none => none
      | some agent =>
          let c := ((s.caller agent memory).agentAddCause actionIdPtr).2
          some { s.setAgent slot { agent with data := c.data } with
            world := { c.world with causeHandles := s.world.causeHandles } }
  | .live slot data =>
      match s.agents slot with
      | none => none
      | some agent =>
          if data.id = agent.data.id ∧ data.tenant = agent.data.tenant then
            some (s.setAgent slot { agent with data })
          else none
  | .databases world => some { s with world }

omit [ContentHash D] in
/-- A handle is what the latest mint of its key into its store has made. -/
def Latest (history : List (HandleEvent D)) (store : ℕ) (h : CauseHandle D) : Prop :=
  ∃ before after, history = before ++ .minted store h :: after ∧
    ∀ h', .minted store h' ∈ after → h'.sameKey h = false

omit [LinearOrder D] [ContentHash D] in
/-- A mint into a store lets an agent cite an action, and no sweep that began after it and has
ended revokes it. -/
def Authorised (history : List (HandleEvent D)) (store : ℕ) (grantee : AgentId) (actionId : D) :
    Prop :=
  ∃ before h after, history = before ++ .minted store h :: after ∧ h.grantee = grantee ∧
    h.actionId = actionId ∧
    ∀ k r, .began k r ∈ after → .ended k ∈ after → r.revokes h = false

omit [ContentHash D] in
/-- A handle that is there: it was minted last, and every sweep since then that revokes it is
still to come past its store. -/
def Stands (s : Citations D) (store : ℕ) (h : CauseHandle D) : Prop :=
  ∃ before after, s.history = before ++ .minted store h :: after ∧
    (∀ h', .minted store h' ∈ after → h'.sameKey h = false) ∧
    ∀ k r, .began k r ∈ after → r.revokes h = true →
      ∃ todo, s.sweeps k = some { revocation := r, todo } ∧ store ∈ todo

/-- What holds of the registry and the history at every moment. -/
structure Consistent (s : Citations D) : Prop where
  wellFormed : s.registry.WellFormed
  /-- The `Arc` of an agent is the one of its tenant. -/
  own : ∀ slot agent, s.agents slot = some agent →
    s.registry.stores.lookup agent.data.tenant = some agent.store
  fresh : ∀ k, s.begun ≤ k → s.sweeps k = none ∧ .ended k ∉ s.history
  running : ∀ k sweep, s.sweeps k = some sweep → .ended k ∉ s.history
  stands : ∀ store, ∀ h ∈ s.registry.handlesAt store, s.Stands store h

variable {s s' : Citations D} {store : ℕ} {h : CauseHandle D}

omit [ContentHash D] in
/-- A handle that stands still does after further events: no mint of its key, and no sweep
that revokes it and has come past its store. -/
theorem Stands.extend (hs : s.Stands store h) (evs : List (HandleEvent D))
    (hhistory : s'.history = s.history ++ evs)
    (hkey : ∀ h', .minted store h' ∈ evs → h'.sameKey h = false)
    (hsweeps : ∀ k r todo, s.sweeps k = some { revocation := r, todo } → r.revokes h = true →
      store ∈ todo → ∃ todo', s'.sweeps k = some { revocation := r, todo := todo' } ∧
        store ∈ todo')
    (hbegan : ∀ k r, .began k r ∈ evs → r.revokes h = true →
      ∃ todo, s'.sweeps k = some { revocation := r, todo } ∧ store ∈ todo) :
    s'.Stands store h := by
  obtain ⟨before, after, hsplit, hlatest, hpending⟩ := hs
  refine ⟨before, after ++ evs, ?_, ?_, ?_⟩
  · rw [hhistory, hsplit, List.append_assoc, List.cons_append]
  · intro h' hmem
    obtain hold | hnew := List.mem_append.mp hmem
    · exact hlatest h' hold
    · exact hkey h' hnew
  · intro k r hmem hr
    obtain hold | hnew := List.mem_append.mp hmem
    · obtain ⟨todo, hk, htodo⟩ := hpending k r hold hr
      exact hsweeps k r todo hk hr htodo
    · exact hbegan k r hnew hr

omit [ContentHash D] in
/-- A handle that stands does not depend on agents, registry or databases. -/
theorem Stands.congr (hs : s.Stands store h) (hhistory : s'.history = s.history)
    (hsweeps : s'.sweeps = s.sweeps) : s'.Stands store h := by
  obtain ⟨before, after, hsplit, hlatest, hpending⟩ := hs
  exact ⟨before, after, hhistory.trans hsplit, hlatest, by rwa [hsweeps]⟩

omit [LinearOrder D] [ContentHash D] in
/-- A store with a handle in it is one that every sweep meets. -/
theorem mem_values_of_mem_handlesAt {r : SharedRegistry D} (hr : r.WellFormed)
    (hmem : h ∈ r.handlesAt store) : store ∈ r.values := by
  have hlt : store < r.heap.length := by
    by_contra hge
    rw [SharedRegistry.handlesAt, List.getElem?_eq_none (Nat.le_of_not_lt hge)] at hmem
    cases hmem
  exact SharedRegistry.mem_values.mpr (hr.covered store hlt)

namespace Consistent

omit [ContentHash D] in
theorem boot (world : World D) : (Citations.boot world).Consistent := by
  refine ⟨.new, fun _ _ h => (by cases h), fun _ _ => ⟨rfl, by simp [Citations.boot]⟩,
    fun _ _ h => (by cases h), fun store h hmem => ?_⟩
  simp [Citations.boot, SharedRegistry.handlesAt, SharedRegistry.new] at hmem

omit [ContentHash D] in
/-- What leaves the registry alone keeps the agents on their stores. -/
theorem quiet (hs : s.Consistent) (hregistry : s'.registry = s.registry)
    (hsweeps : s'.sweeps = s.sweeps) (hbegun : s'.begun = s.begun)
    (hhistory : s'.history = s.history)
    (hown : ∀ slot agent, s'.agents slot = some agent →
      s.registry.stores.lookup agent.data.tenant = some agent.store) : s'.Consistent := by
  refine ⟨hregistry ▸ hs.wellFormed, ?_, ?_, ?_, ?_⟩
  · rwa [hregistry]
  · rw [hsweeps, hbegun, hhistory]
    exact hs.fresh
  · rw [hsweeps, hhistory]
    exact hs.running
  · rw [hregistry]
    exact fun store h hmem => (hs.stands store h hmem).congr hhistory hsweeps

omit [ContentHash D] in
/-- An agent that goes on, as the same agent of the same tenant. -/
theorem setAgent (hs : s.Consistent) {slot : ℕ} {agent : CitingAgent D}
    (hagent : s.agents slot = some agent) {data : AgentState D}
    (htenant : data.tenant = agent.data.tenant) :
    (s.setAgent slot { agent with data }).Consistent := by
  refine hs.quiet rfl rfl rfl rfl fun slot' agent' h => ?_
  simp only [Citations.setAgent, Function.update_apply] at h
  split_ifs at h
  · cases h
    exact htenant ▸ hs.own slot agent hagent
  · exact hs.own slot' agent' h

omit [ContentHash D] in
/-- `get_or_create` returns the store of the tenant. -/
theorem getOrCreate (hs : s.Consistent) {tenant : TenantId} {made : ℕ × Citations D}
    (hmade : s.getOrCreate tenant = some made) :
    made.2.Consistent ∧ made.2.registry.stores.lookup tenant = some made.1 := by
  simp only [Citations.getOrCreate] at hmade
  split_ifs at hmade
  cases hmade
  refine ⟨⟨hs.wellFormed.getOrCreate tenant, fun slot agent hagent => ?_, hs.fresh, hs.running,
    fun store h hmem => ?_⟩, SharedRegistry.lookup_getOrCreate s.registry tenant⟩
  · exact SharedRegistry.lookup_getOrCreate_of_some (hs.own slot agent hagent)
  · simp only [SharedRegistry.handlesAt_getOrCreate] at hmem
    exact (hs.stands store h hmem).congr rfl rfl

omit [ContentHash D] in
/-- A mint: the new handle stands, and those of other keys go on standing. -/
theorem mint (hs : s.Consistent) {minted : ℕ} (hstore : minted < s.registry.heap.length)
    (actionId : D) (grantee issuer : AgentId) (issuedAtMs : ℕ) :
    Consistent { s with
      registry := s.registry.modify minted fun st => (st.mint actionId grantee issuer issuedAtMs).2
      history := s.history ++ [.minted minted { grantee, actionId, issuer, issuedAtMs }] } := by
  have hnoEnd : ∀ k, .ended k ∉ s.history → (HandleEvent.ended k : HandleEvent D) ∉
      s.history ++ [.minted minted { grantee, actionId, issuer, issuedAtMs }] := by
    intro k hk hmem
    simpa using (List.mem_append.mp hmem).resolve_left hk
  refine ⟨hs.wellFormed.modify _ _, hs.own, fun k hk => ⟨(hs.fresh k hk).1, ?_⟩,
    fun k sweep hk => hnoEnd k (hs.running k sweep hk), fun store h hmem => ?_⟩
  · exact hnoEnd k (hs.fresh k hk).2
  · simp only [SharedRegistry.handlesAt_modify, List.getElem?_eq_getElem hstore, Option.map_some,
      Option.getD_some, CauseHandleStore.mint] at hmem
    have hnew : h = { grantee, actionId, issuer, issuedAtMs } ∧ store = minted ∨
        h ∈ s.registry.handlesAt store ∧
          (store = minted → h.sameKey { grantee, actionId, issuer, issuedAtMs } = false) := by
      split_ifs at hmem with heq
      · subst heq
        obtain rfl | hold := List.mem_cons.mp hmem
        · exact .inl ⟨rfl, rfl⟩
        · obtain ⟨hmem', hkey⟩ := List.mem_filter.mp hold
          refine .inr ⟨?_, fun _ => by simpa using hkey⟩
          simpa [SharedRegistry.handlesAt, List.getElem?_eq_getElem hstore] using hmem'
      · exact .inr ⟨hmem, fun h => absurd h heq⟩
    obtain ⟨rfl, rfl⟩ | ⟨hold, hkey⟩ := hnew
    · exact ⟨s.history, [], rfl, by simp, by simp⟩
    · refine (hs.stands store h hold).extend _ rfl ?_ (fun k r todo hk _ htodo => ⟨todo, hk, htodo⟩)
        (by simp)
      intro h' hmem'
      simp only [List.mem_singleton, HandleEvent.minted.injEq] at hmem'
      obtain ⟨rfl, rfl⟩ := hmem'
      -- Having one key is symmetric.
      have hne := hkey rfl
      simp only [CauseHandle.sameKey, Bool.and_eq_false_iff, beq_eq_false_iff_ne] at hne ⊢
      exact hne.imp Ne.symm Ne.symm

omit [ContentHash D] in
/-- A sweep begins: it has every store with a handle before it. -/
theorem begin (hs : s.Consistent) {revocation : Revocation} {order : List ℕ}
    (hbegin : s.begin revocation order = some s') : s'.Consistent := by
  simp only [Citations.begin] at hbegin
  split_ifs at hbegin with horder
  cases hbegin
  have hnoEnd : ∀ k, .ended k ∉ s.history → (HandleEvent.ended k : HandleEvent D) ∉
      s.history ++ [.began s.begun revocation] := by
    intro k hk hmem
    simpa using (List.mem_append.mp hmem).resolve_left hk
  refine ⟨hs.wellFormed, hs.own, fun k hk => ?_, fun k sweep hk => ?_, fun store h hmem => ?_⟩
  · have hne : k ≠ s.begun := by
      rintro rfl
      exact Nat.not_succ_le_self _ hk
    have hk' : s.begun ≤ k := Nat.le_of_succ_le hk
    exact ⟨(Function.update_of_ne hne _ _).trans (hs.fresh k hk').1,
      hnoEnd k (hs.fresh k hk').2⟩
  · obtain rfl | hne := eq_or_ne k s.begun
    · exact hnoEnd _ (hs.fresh _ le_rfl).2
    · simp only [Function.update_of_ne hne] at hk
      exact hnoEnd k (hs.running k sweep hk)
  · refine (hs.stands store h hmem).extend _ rfl (by simp) ?_ ?_
    · intro k r todo hk _ htodo
      have hne : k ≠ s.begun := by
        rintro rfl
        rw [(hs.fresh _ le_rfl).1] at hk
        cases hk
      exact ⟨todo, (Function.update_of_ne hne _ _).trans hk, htodo⟩
    · intro k r hmem' _
      simp only [List.mem_singleton, HandleEvent.began.injEq] at hmem'
      obtain ⟨rfl, rfl⟩ := hmem'
      refine ⟨order, Function.update_self _ _ _, ?_⟩
      exact horder.mem_iff.mpr (mem_values_of_mem_handlesAt hs.wellFormed hmem)

omit [ContentHash D] in
/-- A sweep takes a store: what it leaves there it does not revoke. -/
theorem visit (hs : s.Consistent) {k visited : ℕ} {revocation : Revocation} {todo : List ℕ}
    (hk : s.sweeps k = some { revocation, todo := visited :: todo }) :
    Consistent { s with
      registry := s.registry.revokeAt revocation visited
      sweeps := Function.update s.sweeps k (some { revocation, todo }) } := by
  refine ⟨hs.wellFormed.modify _ _, hs.own, fun k' hk' => ⟨?_, (hs.fresh k' hk').2⟩,
    fun k' sweep hk' => ?_, fun store h hmem => ?_⟩
  · have hne : k' ≠ k := by
      rintro rfl
      rw [(hs.fresh _ hk').1] at hk
      cases hk
    exact (Function.update_of_ne hne _ _).trans (hs.fresh k' hk').1
  · obtain rfl | hne := eq_or_ne k' k
    · exact hs.running _ _ hk
    · simp only [Function.update_of_ne hne] at hk'
      exact hs.running k' sweep hk'
  · rw [SharedRegistry.handlesAt_revokeAt] at hmem
    have hleft : h ∈ s.registry.handlesAt store ∧
        (store = visited → revocation.revokes h = false) := by
      split_ifs at hmem with heq
      · subst heq
        obtain ⟨hmem', hkept⟩ := List.mem_filter.mp hmem
        exact ⟨hmem', fun _ => by simpa using hkept⟩
      · exact ⟨hmem, fun h => absurd h heq⟩
    have hstands := hs.stands store h hleft.1
    refine hstands.extend [] (List.append_nil _).symm (by simp) ?_ (by simp)
    intro k' r todo' hk' hr htodo
    obtain rfl | hne := eq_or_ne k' k
    · cases hk.symm.trans hk'
      refine ⟨todo, Function.update_self _ _ _, ?_⟩
      obtain rfl | hrest := List.mem_cons.mp htodo
      · exact absurd (hr.symm.trans (hleft.2 rfl)) (by decide)
      · exact hrest
    · exact ⟨todo', (Function.update_of_ne hne _ _).trans hk', htodo⟩

omit [ContentHash D] in
/-- A sweep ends: it has been at every store. -/
theorem finish (hs : s.Consistent) {k : ℕ} {revocation : Revocation}
    (hk : s.sweeps k = some { revocation, todo := [] }) :
    Consistent { s with
      sweeps := Function.update s.sweeps k none
      history := s.history ++ [.ended k] } := by
  have hnoEnd : ∀ k', k' ≠ k → .ended k' ∉ s.history → (HandleEvent.ended k' : HandleEvent D) ∉
      s.history ++ [.ended k] := by
    intro k' hne hk' hmem
    have hsame := (List.mem_append.mp hmem).resolve_left hk'
    simp only [List.mem_singleton, HandleEvent.ended.injEq] at hsame
    exact hne hsame
  refine ⟨hs.wellFormed, hs.own, fun k' hk' => ?_, fun k' sweep hk' => ?_,
    fun store h hmem => ?_⟩
  · have hne : k' ≠ k := by
      rintro rfl
      rw [(hs.fresh _ hk').1] at hk
      cases hk
    exact ⟨(Function.update_of_ne hne _ _).trans (hs.fresh k' hk').1,
      hnoEnd k' hne (hs.fresh k' hk').2⟩
  · have hne : k' ≠ k := by
      rintro rfl
      simp at hk'
    simp only [Function.update_of_ne hne] at hk'
    exact hnoEnd k' hne (hs.running k' sweep hk')
  · refine (hs.stands store h hmem).extend _ rfl (by simp) ?_ (by simp)
    intro k' r todo hk' _ htodo
    have hne : k' ≠ k := by
      rintro rfl
      cases hk.symm.trans hk'
      cases htodo
    exact ⟨todo, (Function.update_of_ne hne _ _).trans hk', htodo⟩

/-- **Step.** Every step keeps the registry and the history consistent. -/
theorem step (hs : s.Consistent) {op : CitationOp D} (hstep : s.step op = some s') :
    s'.Consistent := by
  cases op with
  | getOrCreate tenant =>
      obtain ⟨made, hmade, rfl⟩ := Option.map_eq_some_iff.mp hstep
      exact (hs.getOrCreate hmade).1
  | build slot id params =>
      simp only [Citations.step] at hstep
      split at hstep
      · cases hstep
      · obtain ⟨made, hmade, rfl⟩ := Option.map_eq_some_iff.mp hstep
        obtain ⟨hmade', hlookup⟩ := hs.getOrCreate hmade
        refine hmade'.quiet rfl rfl rfl rfl fun slot' agent h => ?_
        simp only [Citations.setAgent, Function.update_apply] at h
        split_ifs at h
        · cases h
          exact hlookup
        · exact hmade'.own slot' agent h
  | mint store actionId grantee issuer issuedAtMs =>
      simp only [Citations.step] at hstep
      split_ifs at hstep with hstore
      cases hstep
      exact hs.mint hstore actionId grantee issuer issuedAtMs
  | sweep revocation order => exact hs.begin hstep
  | visit k =>
      simp only [Citations.step] at hstep
      split at hstep
      · cases hstep
      case h_2 revocation hk =>
          cases hstep
          exact hs.finish hk
      case h_3 revocation store todo hk =>
          cases hstep
          exact hs.visit hk
  | leave slot order =>
      simp only [Citations.step] at hstep
      split at hstep
      · cases hstep
      case h_2 agent hagent =>
          refine Consistent.begin (s := { s with agents := Function.update s.agents slot none })
            (hs.quiet rfl rfl rfl rfl fun slot' agent' h => ?_) hstep
          simp only [Function.update_apply] at h
          split_ifs at h
          exact hs.own slot' agent' h
  | addCause slot memory actionIdPtr =>
      simp only [Citations.step] at hstep
      split at hstep
      · cases hstep
      case h_2 agent hagent =>
          cases hstep
          have htenant : ((s.caller agent memory).agentAddCause actionIdPtr).2.data.tenant =
              agent.data.tenant := by
            obtain ⟨causes, hdata⟩ := (s.caller agent memory).agentAddCause_data actionIdPtr
            rw [hdata]
            rfl
          exact (hs.setAgent hagent htenant).quiet rfl rfl rfl rfl
            (hs.setAgent hagent htenant).own
  | live slot data =>
      simp only [Citations.step] at hstep
      split at hstep
      · cases hstep
      case h_2 agent hagent =>
          split_ifs at hstep with hsame
          cases hstep
          exact hs.setAgent hagent hsame.2
  | databases world =>
      cases hstep
      exact hs.quiet rfl rfl rfl rfl hs.own

end Consistent

/-! ### The authority of a citation -/

/-- **Run.** -/
theorem consistent_of_run {world : World D} {ops : List (CitationOp D)}
    (hrun : Machine.run Citations.step (boot world) ops = some s) : s.Consistent := by
  have hkept : ∀ (s : Citations D) op s', s.Consistent → s.step op = some s' → s'.Consistent :=
    fun s op s' hs hstep => hs.step hstep
  exact run_invariant hkept (.boot world) hrun

omit [ContentHash D] in
/-- A handle that stands authorises its grantee. -/
theorem Consistent.authorised (hs : s.Consistent) (hstands : s.Stands store h) :
    Authorised s.history store h.grantee h.actionId := by
  obtain ⟨before, after, hsplit, -, hpending⟩ := hstands
  refine ⟨before, h, after, hsplit, rfl, rfl, fun k r hbegan hended => ?_⟩
  by_contra hr
  obtain ⟨todo, hk, -⟩ := hpending k r hbegan (by simpa using hr)
  refine hs.running k _ hk ?_
  rw [hsplit]
  exact List.mem_append_right _ (List.mem_cons_of_mem _ hended)

omit [ContentHash D] in
/-- Every handle is what the latest mint of its key has made. -/
theorem Consistent.latest (hs : s.Consistent) (hmem : h ∈ s.registry.handlesAt store) :
    Latest s.history store h := by
  obtain ⟨before, after, hsplit, hlatest, -⟩ := hs.stands store h hmem
  exact ⟨before, after, hsplit, hlatest⟩

/-- A sweep takes the handles of its issuer only. -/
theorem mem_handlesAt_of_visit {k : ℕ} {sweep : Sweep} (hk : s.sweeps k = some sweep)
    (hstep : s.step (.visit k) = some s') (hmem : h ∈ s.registry.handlesAt store)
    (hissuer : h.issuer ≠ sweep.revocation.issuer) : h ∈ s'.registry.handlesAt store := by
  simp only [step] at hstep
  split at hstep
  · cases hstep
  case h_2 => cases hstep; exact hmem
  case h_3 revocation visited todo hk' =>
      cases hk.symm.trans hk'
      cases hstep
      rw [SharedRegistry.handlesAt_revokeAt]
      split_ifs with heq
      · subst heq
        refine List.mem_filter.mpr ⟨hmem, ?_⟩
        rw [Bool.not_eq_true', Bool.eq_false_iff]
        exact fun hr => hissuer (Revocation.issuer_eq_of_revokes hr)
      · exact hmem

/-- **Citation authority**, for any number of tenants and agents on one registry and any
interleaving. An agent is let cite an action of another agent only if the action is in the log
and a mint into the store of its tenant lets it, which no sweep that began later and has ended
revokes. Two agents consult one store exactly if they are of one tenant. Every handle is what
the latest mint of its key has made, and a sweep takes no handle of another issuer than its
own. -/
theorem citation_run {world : World D} {ops : List (CitationOp D)}
    (hrun : Machine.run Citations.step (boot world) ops = some s) :
    (∀ slot agent memory actionIdPtr, s.agents slot = some agent →
      ((s.caller agent memory).agentAddCause actionIdPtr).1 = 0 →
        ∃ entry, s.world.log.get (Caller.cited memory actionIdPtr) = some entry ∧
          (entry.agentId = agent.data.id ∨
            Authorised s.history agent.store agent.data.id (Caller.cited memory actionIdPtr))) ∧
      (∀ slot agent, s.agents slot = some agent →
        s.registry.stores.lookup agent.data.tenant = some agent.store) ∧
      (∀ slot slot' agent agent', s.agents slot = some agent → s.agents slot' = some agent' →
        (agent.store = agent'.store ↔ agent.data.tenant = agent'.data.tenant)) ∧
      ∀ k sweep s', s.sweeps k = some sweep → s.step (.visit k) = some s' →
        ∀ store, ∀ h ∈ s.registry.handlesAt store, Latest s.history store h ∧
          (h.issuer ≠ sweep.revocation.issuer → h ∈ s'.registry.handlesAt store) := by
  have hs : s.Consistent := consistent_of_run hrun
  refine ⟨?_, hs.own, ?_, ?_⟩
  · intro slot agent memory actionIdPtr hagent hzero
    obtain ⟨entry, hentry, hmay⟩ := Caller.mayCite_of_agentAddCause _ actionIdPtr hzero
    refine ⟨entry, hentry, ?_⟩
    simp only [Caller.mayCite, Bool.or_eq_true, beq_iff_eq] at hmay
    refine hmay.imp_right fun hcontains => ?_
    obtain ⟨h, hmem, hgrantee, haction⟩ := CauseHandleStore.contains_eq_true
      (s := { nextId := 0, handles := s.registry.handlesAt agent.store }).mp hcontains
    have hauthorised := hs.authorised (hs.stands _ h hmem)
    rw [hgrantee, haction] at hauthorised
    exact hauthorised
  · intro slot slot' agent agent' hagent hagent'
    have hown := hs.own slot agent hagent
    have hown' := hs.own slot' agent' hagent'
    constructor
    · intro hstore
      rw [hstore] at hown
      exact hs.wellFormed.apart _ _ _ hown hown'
    · intro htenant
      rw [htenant] at hown
      exact Option.some.inj (hown.symm.trans hown')
  · exact fun k sweep s' hk hstep store h hmem =>
      ⟨hs.latest hmem, mem_handlesAt_of_visit hk hstep hmem⟩

/-- An action of agent `20` whose digest is 32 bytes long. -/
def foreignAction : LogEntry (List ℕ) :=
  { agentId := 20, tsMs := 1, parentIds := [], hashBefore := List.replicate 26 0, hashAfter := [],
    emitPayload := none }

/-- The memory of a guest that holds its digest. -/
def citingMemory : List UInt8 := (actionId foreignAction).map UInt8.ofNat

/-- Agent `10` of tenant `1` is given a handle by agent `20`, and a sweep for agent `30` goes past
it. -/
def oneHandle : List (CitationOp (List ℕ)) :=
  let params : BuildParams :=
    { tenant := 1, clock := id, capStore := 0, kvStore := 0, causeHandleRegistry := 0 }
  [.build 0 10 params, .mint 0 (actionId foreignAction) 10 20 5, .sweep (.issuedBy 30) [0],
    .visit 0, .visit 0]

theorem citation_oneHandle :
    ∃ s agent, Machine.run Citations.step
        (boot { Actor.blankWorld with writes := [.append .guest foreignAction] }) oneHandle = some s ∧
      s.agents 0 = some agent ∧ ((s.caller agent citingMemory).agentAddCause 0).1 = 0 ∧
      ∃ entry, s.world.log.get (Caller.cited citingMemory 0) = some entry ∧
        (entry.agentId = agent.data.id ∨
          Authorised s.history agent.store agent.data.id (Caller.cited citingMemory 0)) := by
  have hend : ((Machine.run Citations.step
      (boot { Actor.blankWorld with writes := [.append .guest foreignAction] }) oneHandle).any
        fun s : Citations (List ℕ) => (s.agents 0).any fun agent =>
          ((s.caller agent citingMemory).agentAddCause 0).1 = 0) = true := by decide +kernel
  obtain ⟨s, hrun, hend⟩ := (Option.any_eq_true _ _).mp hend
  obtain ⟨agent, hagent, hzero⟩ := (Option.any_eq_true _ _).mp hend
  have hzero := of_decide_eq_true hzero
  exact ⟨s, agent, hrun, hagent, hzero,
    (citation_run hrun).1 0 agent citingMemory 0 hagent hzero⟩

end Citations

end Torpor
