import Torpor.Capabilities.Tree
import Torpor.Scheduler.Registry

/-!
# Spawning a Child with Delegated Capabilities

`spawn_child` delegates the grants one by one, then builds the instance. A delegation that has
been made stays when a later grant is refused or when the instance cannot be built.

## Main results

* `spawnChild_allOrNothing_iff`: a spawn is all or nothing on the capabilities if and only if
  its first grant is refused, or there is none, or every grant is accepted and the instance is
  built.
* `failed_spawn_leaves_capability`: a second grant that is refused leaves the first one.
-/

namespace Torpor

open CapabilityStore Machine

variable {D : Type}

namespace Scheduler

/-- The tests of `delegate` for a grant. -/
def CapGrant.Accepted (g : CapGrant) (store : CapabilityStore) (parent : AgentId) : Prop :=
  ∃ source, store.get g.capId = some source ∧ source.owner = parent ∧
    source.permissions.delegate = true ∧ escalates g.permissions source.permissions = false

/-- The store after the delegation of a grant. -/
def CapGrant.delegated (g : CapGrant) (store : CapabilityStore) (parent child : AgentId) :
    CapabilityStore :=
  (store.delegate g.nowMs g.capId parent child g.permissions g.resource).2

/-- Every grant passes the tests of `delegate`, on the store that those before it leave. -/
def AllAccepted (parent child : AgentId) : CapabilityStore → List CapGrant → Prop
  | _, [] => True
  | store, g :: grants =>
      g.Accepted store parent ∧ AllAccepted parent child (g.delegated store parent child) grants

/-- The capability is derived from the one that the grant names, and belongs to the child. -/
structure DerivedFrom (store : CapabilityStore) (child : AgentId) (id : CapabilityId)
    (g : CapGrant) : Prop where
  live : ∃ c, store.get id = some c ∧ c.owner = child ∧ c.parent = some g.capId ∧
    c.permissions = g.permissions ∧ c.resource = g.resource
  listed : ∃ set, store.children.lookup g.capId = some set ∧ id ∈ set

/-- `store'` is `store` with one new capability for each grant. -/
structure Extends (store : CapabilityStore) (child : AgentId) (grants : List CapGrant)
    (caps : List CapabilityId) (store' : CapabilityStore) : Prop where
  nodup : caps.Nodup
  fresh : ∀ id ∈ caps, store.get id = none
  derived : List.Forall₂ (DerivedFrom store' child) caps grants
  others : ∀ id, id ∉ caps → store'.get id = store.get id
  listed : ∀ p set, store.children.lookup p = some set →
    ∃ set', store'.children.lookup p = some set' ∧ set ⊆ set'

/-- A spawn that fails without having registered the child leaves the live capabilities and
the derivation tree as they were; one that succeeds adds one capability for each grant. -/
structure AllOrNothing (s : Scheduler D) (child : AgentId) (grants : List CapGrant)
    (r : Option (List CapabilityId) × Scheduler D) : Prop where
  nothing : r.1 = none → r.2.nextTask = s.nextTask →
    (∀ id, r.2.capStore.get id = s.capStore.get id) ∧
      ∀ p, r.2.capStore.children.lookup p = s.capStore.children.lookup p
  all : ∀ caps, r.1 = some caps → Extends s.capStore child grants caps r.2.capStore

/-! ### The delegations -/

section Delegate

variable {store : CapabilityStore} {parent child : AgentId} {g : CapGrant}

/-- An accepted grant adds a capability under the next identifier. -/
theorem CapGrant.Accepted.delegate_eq (h : g.Accepted store parent) (child : AgentId) :
    store.delegate g.nowMs g.capId parent child g.permissions g.resource = (.ok store.nextId,
      ⟨store.caps.insert store.nextId
          ⟨store.nextId, child, g.permissions, g.resource, some g.capId, g.nowMs⟩,
        addChild store.children g.capId store.nextId, store.nextId + 1⟩) := by
  obtain ⟨source, hsource, howner, hdelegate, hescalates⟩ := h
  simp [delegate, hsource, howner, hdelegate, hescalates]

/-- A grant that is not accepted changes nothing. -/
theorem CapGrant.delegate_of_not_accepted (h : ¬ g.Accepted store parent) (child : AgentId) :
    ∃ e, store.delegate g.nowMs g.capId parent child g.permissions g.resource =
      (.error e, store) := by
  rcases hsource : store.get g.capId with _ | source
  · exact ⟨.notFound g.capId, by simp [delegate, hsource]⟩
  · by_cases howner : source.owner = parent
    · by_cases hdelegate : source.permissions.delegate = true
      · by_cases hescalates : escalates g.permissions source.permissions = true
        · exact ⟨.permissionEscalation,
            by simp [delegate, hsource, howner, hdelegate, hescalates]⟩
        · exact absurd ⟨source, hsource, howner, hdelegate, by simpa using hescalates⟩ h
      · exact ⟨.delegationNotAllowed, by simp [delegate, hsource, howner, hdelegate]⟩
    · exact ⟨.notOwner, by simp [delegate, hsource, howner]⟩

theorem CapGrant.Accepted.delegated_eq (h : g.Accepted store parent) (child : AgentId) :
    g.delegated store parent child = ⟨store.caps.insert store.nextId
        ⟨store.nextId, child, g.permissions, g.resource, some g.capId, g.nowMs⟩,
      addChild store.children g.capId store.nextId, store.nextId + 1⟩ := by
  rw [delegated, h.delegate_eq child]

/-- The live capabilities after an accepted grant. -/
theorem CapGrant.Accepted.get_delegated (h : g.Accepted store parent) (child : AgentId)
    (id : CapabilityId) : (g.delegated store parent child).get id =
      if id = store.nextId then
        some ⟨store.nextId, child, g.permissions, g.resource, some g.capId, g.nowMs⟩
      else store.get id := by
  rw [h.delegated_eq child, get_insert]

theorem get_nextId (h : store.TreeInv) : store.get store.nextId = none := by
  rcases hget : store.get store.nextId with _ | c
  · rfl
  · exact absurd (h.lt_nextId _ c hget) (Nat.lt_irrefl _)

theorem CapGrant.treeInv_delegated (g : CapGrant) (h : store.TreeInv) (parent child : AgentId) :
    (g.delegated store parent child).TreeInv :=
  h.delegate g.nowMs g.capId parent child g.permissions g.resource

/-- One more grant before the others. -/
theorem Extends.cons {grants : List CapGrant} {caps : List CapabilityId}
    {store' : CapabilityStore} (hinv : store.TreeInv) (hg : g.Accepted store parent)
    (h : Extends (g.delegated store parent child) child grants caps store') :
    Extends store child (g :: grants) (store.nextId :: caps) store' := by
  have hnew : store.nextId ∉ caps := fun hmem => by
    have hnone := h.fresh store.nextId hmem
    rw [hg.get_delegated child, if_pos rfl] at hnone
    cases hnone
  have hlisted : ∃ set, store'.children.lookup g.capId = some set ∧ store.nextId ∈ set := by
    obtain ⟨set, hset, hmem⟩ := exists_lookup_addChild store.children g.capId store.nextId
    obtain ⟨set', hset', hsub⟩ := h.listed g.capId set (by rw [hg.delegated_eq child]; exact hset)
    exact ⟨set', hset', hsub hmem⟩
  constructor
  · exact List.nodup_cons.mpr ⟨hnew, h.nodup⟩
  · intro id hid
    rcases List.mem_cons.mp hid with rfl | hid
    · exact get_nextId hinv
    · have hnone := h.fresh id hid
      rw [hg.get_delegated child] at hnone
      split_ifs at hnone
      exact hnone
  · refine .cons ⟨?_, hlisted⟩ h.derived
    refine ⟨⟨store.nextId, child, g.permissions, g.resource, some g.capId, g.nowMs⟩, ?_, rfl, rfl,
      rfl, rfl⟩
    rw [h.others _ hnew, hg.get_delegated child, if_pos rfl]
  · intro id hid
    rw [List.mem_cons, not_or] at hid
    rw [h.others id hid.2, hg.get_delegated child, if_neg hid.1]
  · intro p set hset
    obtain ⟨set', hset', hsub⟩ := subset_lookup_addChild hset g.capId store.nextId
    obtain ⟨set'', hset'', hsub'⟩ := h.listed p set' (by rw [hg.delegated_eq child]; exact hset')
    exact ⟨set'', hset'', fun _ hx => hsub' (hsub hx)⟩

end Delegate

/-- No grant, no new capability. -/
theorem Extends.nil (store : CapabilityStore) (child : AgentId) :
    Extends store child [] [] store where
  nodup := List.nodup_nil
  fresh id h := by cases h
  derived := .nil
  others _ _ := rfl
  listed _ set h := ⟨set, h, List.Subset.refl _⟩

/-- The loop over the grants, one grant at a time. -/
theorem delegateGrants_cons {store : CapabilityStore} {parent child : AgentId} {g : CapGrant}
    (h : g.Accepted store parent) (grants : List CapGrant) :
    delegateGrants store parent child (g :: grants) =
      ((delegateGrants (g.delegated store parent child) parent child grants).1.map
        (store.nextId :: ·),
        (delegateGrants (g.delegated store parent child) parent child grants).2) := by
  rw [h.delegated_eq child]
  simp only [delegateGrants, h.delegate_eq child]

/-- If all grants are accepted, the loop adds one capability for each. -/
theorem delegateGrants_of_allAccepted {store : CapabilityStore} {parent child : AgentId}
    {grants : List CapGrant} (hinv : store.TreeInv)
    (h : AllAccepted parent child store grants) :
    ∃ caps, (delegateGrants store parent child grants).1 = some caps ∧
      Extends store child grants caps (delegateGrants store parent child grants).2 := by
  induction grants generalizing store with
  | nil => exact ⟨[], rfl, .nil store child⟩
  | cons g grants ih =>
      obtain ⟨hg, hgrants⟩ := h
      obtain ⟨caps, hcaps, hextends⟩ := ih (g.treeInv_delegated hinv parent child) hgrants
      rw [delegateGrants_cons hg]
      exact ⟨store.nextId :: caps, by rw [hcaps, Option.map_some], hextends.cons hinv hg⟩

/-- If a grant is refused, so is the whole list. -/
theorem delegateGrants_of_not_allAccepted {store : CapabilityStore} {parent child : AgentId}
    {grants : List CapGrant} (h : ¬ AllAccepted parent child store grants) :
    (delegateGrants store parent child grants).1 = none := by
  induction grants generalizing store with
  | nil => exact absurd trivial h
  | cons g grants ih =>
      by_cases hg : g.Accepted store parent
      · rw [delegateGrants_cons hg, ih fun hgrants => h ⟨hg, hgrants⟩, Option.map_none]
      · obtain ⟨e, he⟩ := CapGrant.delegate_of_not_accepted hg child
        simp only [delegateGrants, he]

/-- Whatever becomes of the grants, no capability is lost. -/
theorem delegateGrants_keeps {store : CapabilityStore} {parent child : AgentId}
    {grants : List CapGrant} (hinv : store.TreeInv) {id : CapabilityId} {c : Capability}
    (hc : store.get id = some c) :
    (delegateGrants store parent child grants).2.get id = some c := by
  induction grants generalizing store with
  | nil => exact hc
  | cons g grants ih =>
      by_cases hg : g.Accepted store parent
      · rw [delegateGrants_cons hg]
        refine ih (g.treeInv_delegated hinv parent child) ?_
        rw [hg.get_delegated child, if_neg (hinv.lt_nextId id c hc).ne, hc]
      · obtain ⟨e, he⟩ := CapGrant.delegate_of_not_accepted hg child
        simp only [delegateGrants, he]
        exact hc

/-! ### The spawn -/

/-- What a spawn that does not panic comes to. -/
theorem spawnChild_result {s : Scheduler D} {parent child : AgentId} {grants : List CapGrant}
    {built : Bool} {r : Option (List CapabilityId) × Scheduler D}
    (h : s.spawnChild parent child grants built = some r) :
    r.2.capStore = (delegateGrants s.capStore parent child grants).2 ∧
      (r.1 = none ∧ r.2.nextTask = s.nextTask ∧
          ¬ (built = true ∧ (delegateGrants s.capStore parent child grants).1.isSome) ∨
        s.nextTask < r.2.nextTask ∧
          ∀ caps, r.1 = some caps →
            (delegateGrants s.capStore parent child grants).1 = some caps) := by
  simp only [spawnChild] at h
  rcases hgrants : delegateGrants s.capStore parent child grants with ⟨caps, capStore⟩
  rw [hgrants] at h
  rcases caps with _ | caps
  · obtain rfl := Option.some.inj h
    exact ⟨rfl, .inl ⟨rfl, rfl, by simp⟩⟩
  · cases built with
    | false =>
        obtain rfl := Option.some.inj h
        exact ⟨rfl, .inl ⟨rfl, rfl, by simp⟩⟩
    | true =>
        obtain ⟨s', hreg, rfl⟩ := Option.map_eq_some_iff.mp h
        have hlt := Nat.lt_of_succ_le (nextTask_register hreg).ge
        refine ⟨capStore_register hreg, .inr ⟨hlt, fun caps' hcaps => ?_⟩⟩
        simp only at hcaps
        split_ifs at hcaps
        exact hcaps

/-- A spawn that is refused or that cannot build the instance fails without panic. -/
theorem spawnChild_fails {s : Scheduler D} {parent child : AgentId} {grants : List CapGrant}
    {built : Bool}
    (h : ¬ (built = true ∧ (delegateGrants s.capStore parent child grants).1.isSome)) :
    s.spawnChild parent child grants built = some (none,
      { s with capStore := (delegateGrants s.capStore parent child grants).2 }) := by
  simp only [spawnChild]
  rcases hgrants : delegateGrants s.capStore parent child grants with ⟨caps, capStore⟩
  rw [hgrants] at h
  rcases caps with _ | caps
  · rfl
  · cases built with
    | false => rfl
    | true => exact absurd ⟨rfl, rfl⟩ h

/-- If the first grant is accepted, but not all are or the instance is not built, the spawn
leaves a capability behind. -/
theorem not_allOrNothing {s : Scheduler D} {parent child : AgentId} {g : CapGrant}
    {grants : List CapGrant} {built : Bool} (hinv : s.capStore.TreeInv)
    (hg : g.Accepted s.capStore parent)
    (h : ¬ (AllAccepted parent child s.capStore (g :: grants) ∧ built = true)) :
    ∃ r, s.spawnChild parent child (g :: grants) built = some r ∧
      ¬ s.AllOrNothing child (g :: grants) r := by
  have hfails : ¬ (built = true ∧
      (delegateGrants s.capStore parent child (g :: grants)).1.isSome) := by
    rintro ⟨hbuilt, hsome⟩
    by_cases hall : AllAccepted parent child s.capStore (g :: grants)
    · exact h ⟨hall, hbuilt⟩
    · rw [delegateGrants_of_not_allAccepted hall] at hsome
      cases hsome
  refine ⟨_, spawnChild_fails hfails, fun hnothing => ?_⟩
  have hsame := (hnothing.nothing rfl rfl).1 s.capStore.nextId
  have hleft : (delegateGrants s.capStore parent child (g :: grants)).2.get s.capStore.nextId =
      some ⟨s.capStore.nextId, child, g.permissions, g.resource, some g.capId, g.nowMs⟩ := by
    rw [delegateGrants_cons hg]
    refine delegateGrants_keeps (g.treeInv_delegated hinv parent child) ?_
    rw [hg.get_delegated child, if_pos rfl]
  rw [hleft, get_nextId hinv] at hsame
  cases hsame

/-- If there is no grant, or the first one is refused, the store stays as it is. -/
theorem delegateGrants_of_first_refused {store : CapabilityStore} {parent : AgentId}
    (child : AgentId) {grants : List CapGrant} (h : ∀ g ∈ grants.head?, ¬ g.Accepted store parent) :
    (delegateGrants store parent child grants).2 = store ∧
      ∀ caps, (delegateGrants store parent child grants).1 = some caps →
        grants = [] ∧ caps = [] := by
  rcases grants with _ | ⟨g, grants⟩
  · exact ⟨rfl, fun caps hcaps => ⟨rfl, (Option.some.inj hcaps).symm⟩⟩
  · obtain ⟨e, he⟩ := CapGrant.delegate_of_not_accepted (h g rfl) child
    simp [delegateGrants, he]

end Scheduler

open Scheduler

/-- **Spawning.** On every store that its operations can reach, a spawn that does not panic is
all or nothing on the capabilities if and only if there is no grant or the first one is refused,
or all grants are accepted and the instance is built. -/
theorem spawnChild_allOrNothing_iff {s : Scheduler D} {ops : List CapOp}
    (hstore : run CapabilityStore.step .new ops = some s.capStore) (parent child : AgentId)
    (grants : List CapGrant) (built : Bool) :
    (∀ r, s.spawnChild parent child grants built = some r → s.AllOrNothing child grants r) ↔
      (∀ g ∈ grants.head?, ¬ g.Accepted s.capStore parent) ∨
        AllAccepted parent child s.capStore grants ∧ built = true := by
  have hinv : s.capStore.TreeInv := treeInv_run hstore
  constructor
  · intro h
    rcases grants with _ | ⟨g, grants⟩
    · exact .inl fun g hg => by cases hg
    · by_contra hnot
      rw [not_or] at hnot
      have hg : g.Accepted s.capStore parent := by
        by_contra hrefused
        exact hnot.1 fun g' hg' => Option.some.inj hg' ▸ hrefused
      obtain ⟨r, hr, hbad⟩ := not_allOrNothing hinv hg hnot.2
      exact hbad (h r hr)
  · intro h r hr
    obtain ⟨hcap, hresult⟩ := spawnChild_result hr
    rcases h with hrefused | ⟨hall, hbuilt⟩
    · obtain ⟨hsame, hnone⟩ := delegateGrants_of_first_refused child hrefused
      rw [hsame] at hcap
      refine ⟨fun _ _ => ⟨fun id => by rw [hcap], fun p => by rw [hcap]⟩, fun caps hcaps => ?_⟩
      rcases hresult with ⟨hfail, -⟩ | ⟨-, hgiven⟩
      · rw [hfail] at hcaps
        cases hcaps
      · obtain ⟨rfl, rfl⟩ := hnone caps (hgiven caps hcaps)
        rw [hcap]
        exact .nil s.capStore child
    · obtain ⟨caps, hcaps, hextends⟩ := delegateGrants_of_allAccepted hinv hall
      rcases hresult with ⟨-, -, hnot⟩ | ⟨hlt, hgiven⟩
      · exact absurd ⟨hbuilt, by rw [hcaps]; rfl⟩ hnot
      · refine ⟨fun _ hnext => absurd hnext hlt.ne', fun caps' hcaps' => ?_⟩
        obtain rfl := Option.some.inj (hcaps.symm.trans (hgiven caps' hcaps'))
        rw [hcap]
        exact hextends

/-- A supervisor whose store holds one capability of agent `1`, which may be delegated. -/
def delegatingSample : Scheduler (List ℕ) :=
  { Scheduler.new 0 with
    capStore := (CapabilityStore.new.grantRoot 5 1 ⟨true, false, false, true⟩ ['r']).2 }

/-- A grant of the capability of agent `1`. -/
def readGrant : CapGrant := ⟨0, ⟨true, false, false, false⟩, ['r'], 6⟩

/-- A grant of a capability that does not exist. -/
def missingGrant : CapGrant := ⟨9, ⟨true, false, false, false⟩, ['r'], 7⟩

theorem spawnChild_allOrNothing_sample :
    (∀ r, delegatingSample.spawnChild 1 2 [readGrant] true = some r →
        delegatingSample.AllOrNothing 2 [readGrant] r) ↔
      (∀ g ∈ [readGrant].head?, ¬ g.Accepted delegatingSample.capStore 1) ∨
        AllAccepted 1 2 delegatingSample.capStore [readGrant] ∧ true = true := by
  have hstore : run CapabilityStore.step .new [.grantRoot 5 1 ⟨true, false, false, true⟩ ['r']] =
      some delegatingSample.capStore := rfl
  exact spawnChild_allOrNothing_iff hstore 1 2 [readGrant] true

/-- Of two grants the second is refused: the spawn fails, no child is registered, and the
capability that the first grant made for the child stays. -/
theorem failed_spawn_leaves_capability :
    ∃ s, delegatingSample.spawnChild 1 2 [readGrant, missingGrant] true = some (none, s) ∧
      s.nextTask = delegatingSample.nextTask ∧ s.registry.isActive 2 = false ∧
      delegatingSample.capStore.get 1 = none ∧
      s.capStore.get 1 = some ⟨1, 2, ⟨true, false, false, false⟩, ['r'], some 0, 6⟩ ∧
      ¬ delegatingSample.AllOrNothing 2 [readGrant, missingGrant] (none, s) := by
  refine ⟨_, rfl, rfl, rfl, rfl, rfl, fun h => ?_⟩
  have hsame := (h.nothing rfl rfl).1 1
  cases hsame

end Torpor
