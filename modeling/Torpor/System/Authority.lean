import Torpor.Actor.SnapshotTree
import Torpor.System.Revocation

/-!
# Rollbacks and Authority

A rollback takes back what the agent was given after the commit that it returns to. It compares
two clocks: the header of the snapshot has a reading of the clock of the agent, a capability has
a reading of the clock of the capability store, which is the wall clock. A history interleaves
the steps of an agent with the use of the capability stores and the passing of time, and notes
when each capability was granted and when each commit began.

If the clock of the agent agrees with the wall clock to the millisecond whenever a commit reads
it, as `SystemClock` does, a rollback takes back nothing older than the commit and everything
that is a millisecond younger (`Authority.TakesBack`), whatever the order of grants, delegations,
revocations, commits, rollbacks and wakes. `LogicalClock` counts its readings: it is far behind
the wall clock, and a rollback takes back everything.

## Main results

* `Authority.Inv`: what every step of a history keeps.
* `rollbacks_take_back`: rollbacks in the histories whose steps agree with the wall clock.
* `logical_clock_takes_back_older`: a rollback with `LogicalClock`.
-/

namespace Torpor

open ContentHash

variable {D : Type}

/-! ### Histories -/

/-- The operation, with the reading of `now_ms` that it meets. -/
def CapOp.atMs (nowMs : ℕ) : CapOp → CapOp
  | .grantRoot _ owner permissions resource => .grantRoot nowMs owner permissions resource
  | .delegate _ sourceId fromAgent toAgent permissions resource =>
      .delegate nowMs sourceId fromAgent toAgent permissions resource
  | op => op

namespace CapabilityStore

variable {s t : CapabilityStore} {op : CapOp} {nowMs : ℕ} {id : CapabilityId} {c : Capability}

/-- A capability that lives after one is added lived before, or is the new one. -/
theorem get_of_insert {new : Capability} (hnew : new.issuedAtMs = nowMs)
    (children : AList fun _ : CapabilityId => List CapabilityId) (n : CapabilityId)
    (hc : CapabilityStore.get ⟨s.caps.insert s.nextId new, children, n⟩ id = some c) :
    s.get id = some c ∧ s.nextId ≠ id ∨ s.nextId = id ∧ c.issuedAtMs = nowMs := by
  rw [get_insert] at hc
  split_ifs at hc with hid
  · obtain rfl := Option.some.inj hc
    exact .inr ⟨hid.symm, hnew⟩
  · exact .inl ⟨hc, Ne.symm hid⟩

/-- A capability that lives after an operation lived before it, or is the one that the operation
issues. -/
theorem get_of_step (ht : s.TreeInv) (hs : s.step (op.atMs nowMs) = some t)
    (hc : t.get id = some c) :
    s.get id = some c ∧ s.allocated (op.atMs nowMs) ≠ some id ∨
      s.allocated (op.atMs nowMs) = some id ∧ c.issuedAtMs = nowMs := by
  cases op with
  | grantRoot _ owner permissions resource =>
      obtain rfl := Option.some.inj hs
      have hnew := get_of_insert rfl s.children _ hc
      simpa [CapOp.atMs, allocated, grantRoot] using hnew
  | delegate _ sourceId fromAgent toAgent permissions resource =>
      obtain rfl := Option.some.inj hs
      cases hr : (s.delegate nowMs sourceId fromAgent toAgent permissions resource).1 with
      | error e =>
          rw [delegate_eq_error hr] at hc
          exact .inl ⟨hc, by simp [CapOp.atMs, allocated, hr, Except.toOption]⟩
      | ok id' =>
          obtain ⟨source, -, -, -, rfl, heq⟩ := delegate_eq_ok hr
          rw [heq] at hc
          have hnew := get_of_insert rfl _ _ hc
          simpa [CapOp.atMs, allocated, hr, Except.toOption] using hnew
  | revoke id' =>
      obtain rfl := Option.some.inj hs
      exact .inl ⟨(revoke_remains ht id').1.get_of id c hc, by
        simp [CapOp.atMs, allocated]⟩
  | revokeOwnedAfter order owner afterTsMs =>
      simp only [CapOp.atMs, step] at hs
      split_ifs at hs with hperm
      obtain rfl := Option.some.inj hs
      exact .inl ⟨(revokeOwnedAfter_remains ht order owner afterTsMs).1.get_of id c
        hc, by simp [CapOp.atMs, allocated]⟩

end CapabilityStore

namespace Actor

/-- The agent after someone has used the capability stores. -/
def withStores (a : Actor D) (capStores : ℕ → CapabilityStore) : Actor D :=
  a.inWorld { a.caller.world with capStores }

/-- The event without what others do to the capability stores. -/
def keepStores (a : Actor D) : Event D → Event D
  | .others ws _ kvStores causeHandles =>
      .others ws a.caller.world.capStores kvStores causeHandles
  | ev => ev

end Actor

/-- A point of a history: how many steps came before, and the wall clock in microseconds. -/
structure Moment where
  step : ℕ
  wallUs : ℕ
  deriving DecidableEq, Repr

/-- A commit: the header that it put, and when its `commit_barrier` began. -/
structure Commitment (D : Type) where
  header : SnapshotHeader D
  begun : Moment

/-- An agent, the wall clock, the commits of the agent, and when each capability of each store
was granted. -/
structure Authority (D : Type) where
  actor : Actor D
  now : Moment
  granted : ℕ → CapabilityId → Option Moment
  commits : List (Commitment D)

/-- What happens in a history: time passes, someone uses a capability store, or the agent takes
a step. -/
inductive AuthorityOp (D : Type)
  | wait (us : ℕ)
  | store (i : ℕ) (op : CapOp)
  | act (ev : Event D)

namespace Authority

/-- A history that starts with a newly built agent. -/
def init (a : Actor D) (wallUs : ℕ) : Authority D :=
  { actor := a, now := ⟨0, wallUs⟩, granted := fun _ _ => none, commits := [] }

/-- The capability stores. -/
def stores (s : Authority D) : ℕ → CapabilityStore := s.actor.caller.world.capStores

/-- The grants with the capability that an operation issues, if it issues one. -/
def grant (s : Authority D) (i : ℕ) (allocated : Option CapabilityId) :
    ℕ → CapabilityId → Option Moment :=
  fun j id => if j = i ∧ allocated = some id then some s.now else s.granted j id

variable [LinearOrder D] [ContentHash D]

/-- A step of a history. -/
def step (s : Authority D) : AuthorityOp D → Option (Authority D)
  | .wait us => some { s with now := ⟨s.now.step + 1, s.now.wallUs + us⟩ }
  | .store i op =>
      let op := op.atMs (s.now.wallUs / 1000)
      ((s.stores i).step op).map fun store =>
        { s with
          actor := s.actor.withStores (Function.update s.stores i store)
          now := ⟨s.now.step + 1, s.now.wallUs⟩
          granted := s.grant i ((s.stores i).allocated op) }
  | .act ev =>
      let ev := s.actor.keepStores ev
      (s.actor.step ev).map fun a =>
        { s with
          actor := a
          now := ⟨s.now.step + 1, s.now.wallUs⟩
          commits := s.commits ++ (headersOf (s.actor.written ev a)).map fun h => ⟨h, s.now⟩ }

/-- What a rollback to a snapshot is for: it removes a capability from the store of the agent
only if the agent was given it, or one that it is derived from, after the commit of the
snapshot had begun; and it removes whatever the agent was given at least a millisecond after
that. -/
structure TakesBack (s s' : Authority D) (target : D) : Prop where
  committed : ∃ k ∈ s.commits, snapshotId k.header = target
  elsewhere : ∀ i, i ≠ s.actor.caller.data.capStore → s'.stores i = s.stores i
  only_later : ∀ k ∈ s.commits, snapshotId k.header = target → ∀ id c,
    (s.stores s.actor.caller.data.capStore).get id = some c →
    (s'.stores s.actor.caller.data.capStore).get id = none →
    ∃ v cv g, (v = id ∨ (s.stores s.actor.caller.data.capStore).Ancestor id v) ∧
      (s.stores s.actor.caller.data.capStore).get v = some cv ∧
      cv.owner = s.actor.caller.data.id ∧
      s.granted s.actor.caller.data.capStore v = some g ∧ k.begun.step < g.step
  all_later : ∀ k ∈ s.commits, snapshotId k.header = target → ∀ id c g,
    (s.stores s.actor.caller.data.capStore).get id = some c →
    c.owner = s.actor.caller.data.id →
    s.granted s.actor.caller.data.capStore id = some g → k.begun.wallUs + 1000 ≤ g.wallUs →
    (s'.stores s.actor.caller.data.capStore).get id = none

/-- Every rollback of a history takes back what it is for. -/
def TakenBack (s : Authority D) (ops : List (AuthorityOp D)) : Prop :=
  ∀ before ev after t t' target, ops = before ++ .act ev :: after →
    Machine.run step s before = some t → t.step (.act ev) = some t' →
    t.actor.rollsBackTo ev = some target → t.TakesBack t' target

/-- At `commit_barrier` the clock of the agent is within the millisecond of the wall clock, and
a rollback can read the header of its target. -/
def Agrees (s : Authority D) : AuthorityOp D → Prop
  | .act (.host _ .commitBarrier) =>
      s.actor.caller.data.clock s.actor.caller.data.reads / 1000 = s.now.wallUs / 1000
  | .act ev => (s.actor.rollsBackTo ev).isSome →
      s.actor.caller.world.fault
        (s.actor.caller.world.ios + s.actor.caller.world.store.walkBound) = false
  | _ => True

instance decidableAgrees (s : Authority D) (op : AuthorityOp D) : Decidable (s.Agrees op) := by
  unfold Agrees
  split <;> infer_instance

/-! ### What every step keeps -/

/-- What holds in a history whose steps all agree with the wall clock. -/
structure Inv (s : Authority D) : Prop where
  coherent : s.actor.Coherent
  tree : ∃ own, headersOf own = s.commits.map Commitment.header ∧ s.actor.ledger.Tree own
  trees : ∀ i, (s.stores i).TreeInv
  issued : ∀ i id c, (s.stores i).get id = some c →
    ∃ g, s.granted i id = some g ∧ c.issuedAtMs = g.wallUs / 1000
  granted_past : ∀ i id g, s.granted i id = some g →
    g.step < s.now.step ∧ g.wallUs ≤ s.now.wallUs
  commits_past : ∀ k ∈ s.commits, k.begun.step < s.now.step
  in_order : ∀ k ∈ s.commits, ∀ i id g, s.granted i id = some g → g.step ≤ k.begun.step →
    g.wallUs ≤ k.begun.wallUs
  clocked : ∀ k ∈ s.commits, k.header.tsUs / 1000 = k.begun.wallUs / 1000

variable {s s' : Authority D}

theorem inv_init (id : AgentId) (params : BuildParams) (memory : List UInt8) {w : World D}
    (hstores : ∀ i, w.capStores i = .new) (wallUs : ℕ) :
    (init (Actor.new id params memory w) wallUs).Inv where
  coherent := Actor.coherent_new id params memory w
  tree := ⟨[], rfl, Actor.tree_new id params memory w⟩
  trees i := by
    have hi : (init (Actor.new id params memory w) wallUs).stores i = .new := hstores i
    rw [hi]
    exact CapabilityStore.treeInv_new
  issued i id' c hc := by
    have hi : (init (Actor.new id params memory w) wallUs).stores i = .new := hstores i
    rw [hi] at hc
    simp [CapabilityStore.get, CapabilityStore.new] at hc
  granted_past i id' g hg := by cases hg
  commits_past k hk := by cases hk
  in_order k hk := by cases hk
  clocked k hk := by cases hk

theorem Inv.wait (h : s.Inv) (us : ℕ) :
    ({ s with now := ⟨s.now.step + 1, s.now.wallUs + us⟩ } : Authority D).Inv :=
  { h with
    granted_past := fun i id g hg =>
      ⟨Nat.lt_succ_of_lt (h.granted_past i id g hg).1,
        (h.granted_past i id g hg).2.trans (Nat.le_add_right _ _)⟩
    commits_past := fun k hk => Nat.lt_succ_of_lt (h.commits_past k hk) }

/-- A use of a capability store. -/
theorem Inv.store (h : s.Inv) {i : ℕ} {op : CapOp} {store : CapabilityStore}
    (hstep : (s.stores i).step (op.atMs (s.now.wallUs / 1000)) = some store) :
    ({ s with
      actor := s.actor.withStores (Function.update s.stores i store)
      now := ⟨s.now.step + 1, s.now.wallUs⟩
      granted := s.grant i ((s.stores i).allocated (op.atMs (s.now.wallUs / 1000))) } :
        Authority D).Inv := by
  have hgrant : ∀ j id g,
      s.grant i ((s.stores i).allocated (op.atMs (s.now.wallUs / 1000))) j id = some g →
        g = s.now ∨ s.granted j id = some g := by
    intro j id g hg
    simp only [grant] at hg
    split_ifs at hg
    · exact .inl (Option.some.inj hg).symm
    · exact .inr hg
  refine ⟨h.coherent, h.tree, fun j => ?_, fun j id c hc => ?_, fun j id g hg => ?_, fun k hk =>
    Nat.lt_succ_of_lt (h.commits_past k hk), fun k hk j id g hg hle => ?_, h.clocked⟩
  · change (Function.update s.stores i store j).TreeInv
    by_cases hji : j = i
    · subst hji
      rw [Function.update_self]
      exact (h.trees j).step hstep
    · rw [Function.update_of_ne hji]
      exact h.trees j
  · change (Function.update s.stores i store j).get id = some c at hc
    simp only [grant]
    by_cases hji : j = i
    · subst hji
      rw [Function.update_self] at hc
      rcases CapabilityStore.get_of_step (h.trees j) hstep hc with ⟨hold, hne⟩ | ⟨hnew, htime⟩
      · rw [if_neg (fun hand => hne hand.2)]
        exact h.issued j id c hold
      · rw [if_pos ⟨rfl, hnew⟩]
        exact ⟨s.now, rfl, htime⟩
    · rw [Function.update_of_ne hji] at hc
      rw [if_neg (fun hand => hji hand.1)]
      exact h.issued j id c hc
  · rcases hgrant j id g hg with rfl | hg
    · exact ⟨Nat.lt_succ_self _, le_rfl⟩
    · exact ⟨Nat.lt_succ_of_lt (h.granted_past j id g hg).1, (h.granted_past j id g hg).2⟩
  · rcases hgrant j id g hg with rfl | hg
    · exact absurd (h.commits_past k hk) (not_lt.mpr hle)
    · exact h.in_order k hk j id g hg hle

/-- What a step of the agent does, apart from what others do meanwhile. -/
theorem Inv.act_books (h : s.Inv) {ev : Event D} (hagrees : s.Agrees (.act ev)) {a : Actor D}
    (hstep : s.actor.step (s.actor.keepStores ev) = some a) :
    (headersOf (s.actor.written (s.actor.keepStores ev) a) = [] ∨ ∃ header : SnapshotHeader D,
        headersOf (s.actor.written (s.actor.keepStores ev) a) = [header] ∧
          header.tsUs / 1000 = s.now.wallUs / 1000) ∧
      Actor.IssuesNothing s.stores a.caller.world.capStores := by
  by_cases hev : ∃ ws c k r, ev = .others ws c k r
  · obtain ⟨ws, c, k, r, rfl⟩ := hev
    cases Actor.trans_of_step hstep with
    | others _ => exact ⟨.inl rfl, fun i => ⟨h.trees i, fun _ _ hc => hc⟩⟩
  · have hothers : ∀ ws c k r, ev ≠ .others ws c k r := by simpa using hev
    have hkeep : s.actor.keepStores ev = ev := by
      cases ev with
      | others ws c k r => exact absurd rfl (hothers ws c k r)
      | _ => rfl
    rw [hkeep] at hstep ⊢
    refine ⟨?_, Actor.step_stores hothers hstep h.trees⟩
    rcases Actor.step_headers hothers hstep with hnone | ⟨memory, header, rfl, hone, htime⟩
    · exact .inl hnone
    · refine .inr ⟨header, hone, ?_⟩
      rw [htime]
      exact hagrees

/-- A step of the agent. -/
theorem Inv.act (h : s.Inv) {ev : Event D} (hagrees : s.Agrees (.act ev)) {a : Actor D}
    (hstep : s.actor.step (s.actor.keepStores ev) = some a) :
    ({ s with
      actor := a
      now := ⟨s.now.step + 1, s.now.wallUs⟩
      commits := s.commits ++
        (headersOf (s.actor.written (s.actor.keepStores ev) a)).map fun h => ⟨h, s.now⟩ } :
        Authority D).Inv := by
  obtain ⟨hheaders, hissues⟩ := h.act_books hagrees hstep
  have hnew : ∀ k ∈ s.commits ++
      (headersOf (s.actor.written (s.actor.keepStores ev) a)).map fun h => ⟨h, s.now⟩,
      k ∈ s.commits ∨ k.begun = s.now ∧ k.header.tsUs / 1000 = s.now.wallUs / 1000 := by
    intro k hk
    rcases List.mem_append.mp hk with hk | hk
    · exact .inl hk
    · rcases hheaders with hnone | ⟨header, hone, htime⟩
      · simp [hnone] at hk
      · rw [hone] at hk
        obtain rfl := List.mem_singleton.mp hk
        exact .inr ⟨rfl, htime⟩
  refine ⟨Actor.step_coherent h.coherent hstep, ?_, fun i => (hissues i).1, fun i id c hc =>
    h.issued i id c ((hissues i).2 id c hc), fun i id g hg => ?_, fun k hk => ?_,
    fun k hk i id g hg hle => ?_, fun k hk => ?_⟩
  · obtain ⟨own, hown, htree⟩ := h.tree
    refine ⟨own ++ s.actor.written (s.actor.keepStores ev) a, ?_,
      Actor.tree_step h.coherent htree hstep⟩
    rw [headersOf_append, hown, List.map_append, List.map_map]
    simp [Function.comp_def]
  · exact ⟨Nat.lt_succ_of_lt (h.granted_past i id g hg).1, (h.granted_past i id g hg).2⟩
  · rcases hnew k hk with hk | ⟨hnow, -⟩
    · exact Nat.lt_succ_of_lt (h.commits_past k hk)
    · rw [hnow]
      exact Nat.lt_succ_self _
  · rcases hnew k hk with hk | ⟨hnow, -⟩
    · exact h.in_order k hk i id g hg hle
    · rw [hnow]
      exact (h.granted_past i id g hg).2
  · rcases hnew k hk with hk | ⟨hnow, htime⟩
    · exact h.clocked k hk
    · rw [htime, hnow]

theorem Inv.step (h : s.Inv) {op : AuthorityOp D} (hagrees : s.Agrees op)
    (hstep : s.step op = some s') : s'.Inv := by
  cases op with
  | wait us =>
      obtain rfl := Option.some.inj hstep
      exact h.wait us
  | store i op =>
      obtain ⟨store, hop, rfl⟩ := Option.map_eq_some_iff.mp hstep
      exact h.store hop
  | act ev =>
      obtain ⟨a, ha, rfl⟩ := Option.map_eq_some_iff.mp hstep
      exact h.act hagrees ha

/-! ### Rollbacks -/

/-- A rollback is an event of the agent itself, which can read the header of the target. -/
theorem Agrees.rollback {ev : Event D} (hagrees : s.Agrees (.act ev)) {target : D}
    (hback : s.actor.rollsBackTo ev = some target) :
    s.actor.keepStores ev = ev ∧ s.actor.caller.world.fault
      (s.actor.caller.world.ios + s.actor.caller.world.store.walkBound) = false := by
  obtain ⟨targetSeq, -, -, htakes, -⟩ := Actor.rollback_of_rollsBackTo hback
  have hsome : (s.actor.rollsBackTo ev).isSome := by rw [hback]; rfl
  cases ev with
  | recv message order => exact ⟨rfl, hagrees hsome⟩
  | resume order => exact ⟨rfl, hagrees hsome⟩
  | _ => cases htakes

/-- The snapshot of a rollback is that of a commit of the agent. -/
theorem Inv.committed (h : s.Inv) {ev : Event D} {target : D}
    (hback : s.actor.rollsBackTo ev = some target) :
    ∃ k ∈ s.commits, snapshotId k.header = target := by
  obtain ⟨targetSeq, tip, path, -, htip, hpath, rfl, -⟩ := Actor.rollback_of_rollsBackTo hback
  obtain ⟨own, hown, htree⟩ := h.tree
  obtain ⟨header, hheader, rfl⟩ := htree.tip tip htip
  obtain ⟨target, htarget, heq⟩ := htree.ancestor_mem hheader (Caller.rollbackPath_ok hpath).1
  rw [hown] at htarget
  obtain ⟨k, hk, rfl⟩ := List.mem_map.mp htarget
  exact ⟨k, hk, heq⟩

/-- The header of every commit is stored. -/
theorem Inv.stored (h : s.Inv) {k : Commitment D} (hk : k ∈ s.commits) :
    s.actor.caller.world.store.getHeader (snapshotId k.header) = some k.header := by
  obtain ⟨own, hown, htree⟩ := h.tree
  refine htree.stored k.header ?_
  rw [hown]
  exact List.mem_map_of_mem hk

/-- A rollback takes back what it is for. -/
theorem Inv.takesBack (h : s.Inv) {ev : Event D} (hagrees : s.Agrees (.act ev))
    (hstep : s.step (.act ev) = some s') {target : D}
    (hback : s.actor.rollsBackTo ev = some target) : s.TakesBack s' target := by
  obtain ⟨a, ha, rfl⟩ := Option.map_eq_some_iff.mp hstep
  obtain ⟨hkeep, hread⟩ := hagrees.rollback hback
  rw [hkeep] at ha
  -- the cascade of the revocation, for each commit of the target
  have hremoves : ∀ k ∈ s.commits, snapshotId k.header = target →
      ∃ order, order.Perm (s.stores s.actor.caller.data.capStore).caps.keys ∧
        a.caller.world.capStores = Function.update s.stores s.actor.caller.data.capStore
          ((s.stores s.actor.caller.data.capStore).revokeOwnedAfter order
            s.actor.caller.data.id (k.header.tsUs / 1000)).2 := by
    rintro k hk rfl
    exact Actor.stores_of_rollsBackTo hback ha hread (h.stored hk)
  refine ⟨h.committed hback, fun i hi => ?_, fun k hk htarget id c hc hgone => ?_,
    fun k hk htarget id c g hc howner hg hlater => ?_⟩
  · obtain ⟨k, hk, htarget⟩ := h.committed hback
    obtain ⟨order, -, hstores⟩ := hremoves k hk htarget
    change a.caller.world.capStores i = s.stores i
    rw [hstores, Function.update_of_ne hi]
  · obtain ⟨order, hperm, hstores⟩ := hremoves k hk htarget
    change (a.caller.world.capStores s.actor.caller.data.capStore).get id = none at hgone
    rw [hstores, Function.update_self, CapabilityStore.revokeOwnedAfter_get_eq_none (h.trees _)
      hperm hc] at hgone
    obtain ⟨v, cv, hunder, hcv, howner, hlater⟩ := hgone
    obtain ⟨g, hg, htime⟩ := h.issued _ v cv hcv
    refine ⟨v, cv, g, hunder, hcv, howner, hg, ?_⟩
    rw [h.clocked k hk, htime] at hlater
    by_contra hbefore
    have hwall := h.in_order k hk _ v g hg (not_lt.mp hbefore)
    exact absurd hlater (not_lt.mpr (Nat.div_le_div_right hwall))
  · obtain ⟨order, hperm, hstores⟩ := hremoves k hk htarget
    change (a.caller.world.capStores s.actor.caller.data.capStore).get id = none
    rw [hstores, Function.update_self, CapabilityStore.revokeOwnedAfter_get_eq_none (h.trees _)
      hperm hc]
    obtain ⟨g', hg', htime⟩ := h.issued _ id c hc
    obtain rfl : g' = g := Option.some.inj (hg'.symm.trans hg)
    refine ⟨id, c, .inl rfl, hc, howner, ?_⟩
    rw [h.clocked k hk, htime]
    omega

end Authority

/-- **Rollbacks and authority.** In every history in which the clock of the agent agrees with
the wall clock, and whatever the order of grants, commits and rollbacks, every rollback takes
back what it is for: nothing but what comes from after the commit of its target, and all that
the agent was given a millisecond after that commit. -/
theorem rollbacks_take_back [LinearOrder D] [ContentHash D] {id : AgentId}
    {params : BuildParams} {memory : List UInt8} {w : World D} {wallUs : ℕ}
    {ops : List (AuthorityOp D)}
    (hstores : ∀ i, w.capStores i = .new)
    (hagrees : Machine.Along Authority.step Authority.Agrees
      (.init (.new id params memory w) wallUs) ops) :
    (Authority.init (Actor.new id params memory w) wallUs).TakenBack ops := by
  rintro before ev after t t' target rfl hrun hstep hback
  have ht : t.Inv := Machine.run_invariant_along (fun _ _ _ hinv hagree hstep =>
    hinv.step hagree hstep) (Authority.inv_init id params memory hstores wallUs) hagrees.left hrun
  exact ht.takesBack (hagrees.at_step hrun) hstep hback

/-! ### Two clocks -/

/-- The agent with a clock, and with the capability store `0`. -/
def agentWithClock (clock : ℕ → ℕ) : Actor (List ℕ) :=
  .new 10 { clock, capStore := 0, kvStore := 0, causeHandleRegistry := 0 } [0, 0, 0, 0]
    Actor.blankWorld

/-- A capability for the agent, and its first commit five milliseconds later. -/
def grantAndCommit : List (AuthorityOp (List ℕ)) :=
  .store 0 (.grantRoot 0 10 ⟨true, true, true, true⟩ ['r']) :: .wait 5000 ::
    (Event.start :: Actor.dataCycle [.commitBarrier, .emit 1 0 4]).map .act

/-- Another capability, one that is derived from it, and a rollback to the first commit. -/
def grantAndRollBack : List (AuthorityOp (List ℕ)) :=
  [.wait 1000, .store 0 (.grantRoot 0 10 ⟨true, true, true, true⟩ ['r']),
    .store 0 (.delegate 0 1 10 11 ⟨true, false, false, false⟩ ['r']),
    .act (.recv (.rollback 0) [0, 1, 2])]

/-- With a clock that reads the wall clock, the rollback removes the two later capabilities. -/
theorem rollbacks_take_back_grantAndRollBack :
    (Authority.init (agentWithClock fun _ => 5000) 0).TakenBack
        (grantAndCommit ++ grantAndRollBack) ∧
      (Machine.run Authority.step (.init (agentWithClock fun _ => 5000) 0)
        (grantAndCommit ++ grantAndRollBack)).any (fun s : Authority (List ℕ) =>
          ((s.stores 0).get 0).isSome && ((s.stores 0).get 1).isNone &&
            ((s.stores 0).get 2).isNone) = true := by
  have hstores : ∀ i, (Actor.blankWorld : World (List ℕ)).capStores i = .new := fun _ => rfl
  exact ⟨rollbacks_take_back hstores (by decide +kernel), by decide +kernel⟩

/-- `LogicalClock` counts its readings from `1700000000000` on. -/
def logicalClock (reads : ℕ) : ℕ := 1700000000000 + reads

/-- With `LogicalClock`, the rollback removes the capability from before the commit. -/
theorem logical_clock_takes_back_older :
    ¬ (Authority.init (agentWithClock logicalClock) 1750000000000000).TakenBack
      (grantAndCommit ++ [.act (.recv (.rollback 0) [0])]) := by
  intro htaken
  have hrun : (Machine.run Authority.step
      (.init (agentWithClock logicalClock) 1750000000000000) grantAndCommit).any
      (fun t : Authority (List ℕ) => decide (t.actor.caller.data.capStore = 0 ∧
          t.granted 0 0 = some ⟨0, 1750000000000000⟩ ∧
          ((t.stores 0).get 0).map Capability.parent = some none ∧
          (t.actor.rollsBackTo (.recv (.rollback 0) [0])).isSome = true) &&
        (t.step (.act (.recv (.rollback 0) [0]))).any fun t' : Authority (List ℕ) =>
          ((t'.stores 0).get 0).isNone) = true := by
    decide +kernel
  obtain ⟨t, ht, hdecided⟩ := (Option.any_eq_true _ _).mp hrun
  obtain ⟨hbefore, hafter⟩ := Bool.and_eq_true_iff.mp hdecided
  obtain ⟨hstore, hgranted, hroot, hback⟩ := of_decide_eq_true hbefore
  obtain ⟨t', ht', hgone⟩ := (Option.any_eq_true _ _).mp hafter
  obtain ⟨target, htarget⟩ := Option.isSome_iff_exists.mp hback
  obtain ⟨c, hc, hparent⟩ := Option.map_eq_some_iff.mp hroot
  have htakes := htaken grantAndCommit _ [] t t' target rfl ht ht' htarget
  obtain ⟨k, hk, hcommit⟩ := htakes.committed
  obtain ⟨v, cv, g, hunder, -, -, hg, hlater⟩ := htakes.only_later k hk hcommit 0 c
    (by rw [hstore]; exact hc) (by rw [hstore]; exact Option.isNone_iff_eq_none.mp hgone)
  rw [hstore] at hunder hg
  rcases hunder with rfl | hanc
  · obtain rfl := Option.some.inj (hgranted.symm.trans hg)
    exact absurd hlater (Nat.not_lt_zero _)
  · -- a root capability has no ancestors
    obtain ⟨p, ⟨c', hc', hp⟩, -⟩ := Relation.TransGen.head'_iff.mp hanc
    obtain rfl : c = c' := Option.some.inj (hc.symm.trans hc')
    exact absurd (hparent.symm.trans hp) (by simp)

end Torpor
