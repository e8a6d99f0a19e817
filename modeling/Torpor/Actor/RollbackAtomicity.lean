import Torpor.Actor.Books
import Torpor.Actor.Rollback
import Torpor.Capabilities.Cascade

/-!
# Whether a Rollback Is All or Nothing

`Message::Rollback` revokes the capabilities and the cause handles of the agent before it
appends its `SchedulerRollback`, and moves the last snapshot only if the append succeeds. The
revocation reads the header of the target once more, and is left out if that fails. So two
accesses decide which half takes place, and they may fail independently of one another.

## Main results

* `Caller.revokeAfter_same_iff`: a revocation changes nothing exactly if nothing of the agent is
  younger than the target.
* `Caller.rollbackAlong_spec`: what happens along a path, for every pattern of failures.
* `Actor.rollback_atomic_iff`: a rollback is all or nothing exactly if both accesses fail or
  neither does, or there is nothing to revoke; and, where it finds no path, if the agent that
  crashes has no handle out.
* `Actor.revoked_without_rollback`: a capability is revoked by a rollback that did not happen.
-/

namespace Torpor

open ContentHash

variable {D : Type} [LinearOrder D] [ContentHash D]

/-! ### Revocations that change nothing -/

/-- `revoke_owned_after` changes nothing exactly if the owner has nothing younger. -/
theorem CapabilityStore.revokeOwnedAfter_eq_iff {s : CapabilityStore}
    {order : List CapabilityId} (hperm : order.Perm s.caps.keys) {owner : AgentId}
    {afterTsMs : ℕ} :
    (s.revokeOwnedAfter order owner afterTsMs).2 = s ↔
      ∀ id c, s.get id = some c → c.owner = owner → c.issuedAtMs ≤ afterTsMs := by
  constructor
  · intro hsame id c hc howner
    by_contra hlate
    obtain ⟨v, hv, rfl⟩ := List.mem_map.mp
      ((mem_victims hperm).mpr ⟨c, hc, howner, Nat.lt_of_not_le hlate⟩)
    have hgone := (revokeVictims_clears (s.victims order owner afterTsMs) 0 s).2 v hv
    have hleft : (s.revokeOwnedAfter order owner afterTsMs).2.get v.1 = none := hgone
    rw [hsame, hc] at hleft
    cases hleft
  · intro hold
    have hnone : s.victims order owner afterTsMs = [] := by
      refine List.eq_nil_iff_forall_not_mem.mpr fun v hv => ?_
      obtain ⟨c, hc, howner, hlate⟩ := (mem_victims hperm).mp (List.mem_map_of_mem hv)
      exact Nat.not_le.mpr hlate (hold v.1 c hc howner)
    simp only [revokeOwnedAfter, hnone]
    rfl

omit [LinearOrder D] [ContentHash D] in
/-- `revoke_issued_after_all` changes nothing exactly if no handle of the issuer is younger. -/
theorem CauseHandleRegistry.revokeIssuedAfterAll_eq_iff {r : CauseHandleRegistry D}
    {issuer : AgentId} {afterMs : ℕ} : r.revokeIssuedAfterAll issuer afterMs = r ↔
      ∀ tenant, ∀ h ∈ r tenant, h.issuer = issuer → h.issuedAtMs ≤ afterMs := by
  simp only [funext_iff, revokeIssuedAfterAll, List.filter_eq_self]
  simp [imp_iff_not_or]

omit [LinearOrder D] [ContentHash D] in
/-- `revoke_issued_by_all` changes nothing exactly if the issuer has no handle out. -/
theorem CauseHandleRegistry.revokeIssuedByAll_eq_iff {r : CauseHandleRegistry D}
    {issuer : AgentId} : r.revokeIssuedByAll issuer = r ↔
      ∀ tenant, ∀ h ∈ r tenant, h.issuer ≠ issuer := by
  simp only [funext_iff, revokeIssuedByAll, List.filter_eq_self]
  simp

namespace Caller

/-! ### All or nothing -/

/-- The last snapshot moved from `tip` to `x`: one `SchedulerRollback` says so, and the last
action is that one, or a lifecycle entry that follows it. -/
def Moved (c c' : Caller D) (tip x : D) : Prop :=
  c'.data.lastSnapshot = some x ∧ ∃ e es,
    e.HasType .schedulerRollback ∧ e.hashBefore = tip ∧ e.hashAfter = x ∧
    (∀ e' ∈ es, e'.HasType .lifecycle) ∧
    c'.world.writes = c.world.writes ++ (e :: es).map (.append .runtime) ∧
    Chained c.data.lastAction (e :: es) c'.data.lastAction

omit [LinearOrder D] [ContentHash D] in
/-- The last snapshot is where it was, and no `SchedulerRollback` was appended. -/
def Stayed (c c' : Caller D) : Prop :=
  c'.data.lastSnapshot = c.data.lastSnapshot ∧ ∃ es : List (LogEntry D),
    (∀ e ∈ es, ¬ e.HasType .schedulerRollback) ∧
    c'.world.writes = c.world.writes ++ es.map (.append .runtime)

omit [LinearOrder D] [ContentHash D] in
/-- The capability stores and the cause handles of all tenants are the same. -/
def SameGrants (w w' : World D) : Prop :=
  w'.capStores = w.capStores ∧ w'.causeHandles = w.causeHandles

/-- From `c` to `c'` the rollback was applied as a whole, or left out as a whole. -/
def RollbackAtomic (c c' : Caller D) (order : List CapabilityId) (targetSeq : ℕ) : Prop :=
  (∃ tip x h, c.data.lastSnapshot = some tip ∧ c.world.store.AncestorOrSelf tip x ∧
      c.world.store.getHeader x = some h ∧ h.seq = targetSeq ∧ Moved c c' tip x ∧
      SameGrants (c.revokeAfter order (h.tsUs / 1000)).2.world c'.world) ∨
    (Stayed c c' ∧ SameGrants c.world c'.world)

omit [LinearOrder D] [ContentHash D] in
/-- Nothing that the agent owns or has issued is younger than the given time. -/
def NothingToRevoke (c : Caller D) (afterMs : ℕ) : Prop :=
  (∀ id cap, (c.world.capStores c.data.capStore).get id = some cap → cap.owner = c.data.id →
      cap.issuedAtMs ≤ afterMs) ∧
    ∀ tenant, ∀ h ∈ c.world.causeHandles c.data.causeHandleRegistry tenant,
      h.issuer = c.data.id → h.issuedAtMs ≤ afterMs

/-- The path of a rollback is found and leads to a snapshot with the given header. -/
structure FindsTarget (c : Caller D) (targetSeq : ℕ) (tip : D) (path : List D)
    (h : SnapshotHeader D) : Prop where
  last : c.data.lastSnapshot = some tip
  below : targetSeq < c.data.seq
  found : (c.rollbackPath tip targetSeq).1 = .ok path
  header : c.world.store.getHeader (path.getLastD tip) = some h

/-- The condition. The second lookup of the header and the append are the two accesses after
the walk. -/
structure RollbackSteady (c : Caller D) (targetSeq : ℕ) : Prop where
  found : ∀ tip path h, c.FindsTarget targetSeq tip path h →
    c.world.fault (c.world.ios + c.world.store.walkBound) =
        c.world.fault (c.world.ios + c.world.store.walkBound + 1) ∨
      c.NothingToRevoke (h.tsUs / 1000)
  lost : ∀ tip error, c.data.lastSnapshot = some tip → targetSeq < c.data.seq →
    (c.rollbackPath tip targetSeq).1 = .error error →
      ∀ tenant, ∀ h ∈ c.world.causeHandles c.data.causeHandleRegistry tenant,
        h.issuer ≠ c.data.id

variable {c c' : Caller D} {tip x : D}

omit [LinearOrder D] in
/-- A move appends a `SchedulerRollback`. -/
theorem Moved.not_stayed (hmoved : Moved c c' tip x) : ¬ Stayed c c' := by
  rintro ⟨-, es, hnone, hwrites⟩
  obtain ⟨-, e, es', htype, -, -, -, hwrites', -⟩ := hmoved
  have hsame := List.append_cancel_left (hwrites'.symm.trans hwrites)
  have hmem : (Write.append Writer.runtime e) ∈ es.map (Write.append Writer.runtime) := by
    rw [← hsame]
    exact List.mem_cons_self
  obtain ⟨e', he', heq⟩ := List.mem_map.mp hmem
  cases heq
  exact hnone e he' htype

omit [LinearOrder D] [ContentHash D] in
theorem revokeAfter_same_iff (order : List CapabilityId) (afterMs : ℕ) :
    SameGrants c.world (c.revokeAfter order afterMs).2.world ↔ c.NothingToRevoke afterMs := by
  have hperm : (if order.Perm (c.world.capStores c.data.capStore).caps.keys then order
      else (c.world.capStores c.data.capStore).caps.keys).Perm
        (c.world.capStores c.data.capStore).caps.keys := by
    split_ifs with h
    · exact h
    · exact .refl _
  simp only [SameGrants, revokeAfter, Function.update_eq_self_iff, NothingToRevoke,
    CapabilityStore.revokeOwnedAfter_eq_iff hperm,
    CauseHandleRegistry.revokeIssuedAfterAll_eq_iff]

/-! ### Logging -/

/-- From `c` to `c'` entries of one type were logged, each of which follows the one before. -/
structure LogsOnly (t : EmitType) (c c' : Caller D) : Prop where
  lastSnapshot : c'.data.lastSnapshot = c.data.lastSnapshot
  issues : c'.data.id = c.data.id ∧
    c'.data.causeHandleRegistry = c.data.causeHandleRegistry
  grants : SameGrants c.world c'.world
  logged : ∃ es, (∀ e ∈ es, e.HasType t) ∧
    c'.world.writes = c.world.writes ++ es.map (.append .runtime) ∧
    Chained c.data.lastAction es c'.data.lastAction

omit [LinearOrder D] in
theorem append_logsOnly {t : EmitType} {e : LogEntry D} (htype : e.HasType t)
    (hwriter : t.writer = .runtime) (hparents : e.parentIds = c.data.lastAction.toList) :
    LogsOnly t c (c.append .runtime e).2 := by
  cases hfault : c.world.fault c.world.ios with
  | true =>
      rw [(append_of_fault hfault .runtime e).2]
      exact ⟨rfl, ⟨rfl, rfl⟩, ⟨rfl, rfl⟩, [], by simp, (List.append_nil _).symm, .nil⟩
  | false =>
      simp only [append, write, World.write, hfault]
      exact ⟨rfl, ⟨rfl, rfl⟩, ⟨rfl, rfl⟩, [e], by simpa using htype, rfl,
        .cons hparents htype hwriter .nil⟩

omit [LinearOrder D] in
theorem logQuiet_logsOnly {t : EmitType} (hwriter : t.writer = .runtime)
    (payload : List UInt8) : LogsOnly t c (c.logQuiet t payload).2 := by
  have h := append_logsOnly (c := c.now.2.now.2) (t := t)
    (e := c.now.2.now.2.entry t c.data.seq c.now.1 c.now.2.now.1 c.tipHash c.tipHash payload)
    ⟨_, rfl, rfl⟩ hwriter rfl
  exact ⟨h.lastSnapshot, h.issues, h.grants, h.logged⟩

omit [LinearOrder D] in
theorem logLifecycleEvent_logsOnly (s : LifecycleState) :
    LogsOnly .lifecycle c (c.logLifecycleEvent s) := by
  simp only [logLifecycleEvent]
  split_ifs
  · exact ⟨rfl, ⟨rfl, rfl⟩, ⟨rfl, rfl⟩, [], by simp, (List.append_nil _).symm, .nil⟩
  · have h := logQuiet_logsOnly (c := c.setData fun d => { d with lifecycle := s })
      (t := .lifecycle) rfl (s.asU8 :: leBytes 8 c.data.seq ++ [c.data.agentProfile.asU8])
    exact ⟨h.lastSnapshot, h.issues, h.grants, h.logged⟩
  · have h := logQuiet_logsOnly (c := c.setData fun d => { d with lifecycle := s })
      (t := .lifecycle) rfl (s.asU8 :: leBytes 8 c.data.seq ++ [])
    exact ⟨h.lastSnapshot, h.issues, h.grants, h.logged⟩

omit [LinearOrder D] in
theorem logAgentCrash_logsOnly (cause : CrashCause) :
    LogsOnly .agentCrash c (c.logAgentCrash cause) := by
  have h := logQuiet_logsOnly (c := c) (t := .agentCrash) rfl
    (cause.asU8 :: agentBytes (c.data.parentAgentId.getD 0) ++
      bytes (c.data.lastAction.getD zero))
  exact ⟨h.lastSnapshot, h.issues, h.grants, h.logged⟩

omit [LinearOrder D] in
/-- Logging anything but a `SchedulerRollback` leaves the last snapshot where it is. -/
theorem LogsOnly.stayed {t : EmitType} (h : LogsOnly t c c') (ht : t ≠ .schedulerRollback) :
    Stayed c c' := by
  obtain ⟨es, htypes, hwrites, -⟩ := h.logged
  exact ⟨h.lastSnapshot, es, fun e he hroll => ht ((htypes e he).unique hroll), hwrites⟩

/-! ### Along a path -/

omit [LinearOrder D] in
/-- A move of the tip that is logged, and the lifecycle entry after it. -/
theorem moveTip_moved (tip x : D) (hfault : c.world.fault c.world.ios = false)
    (nowMs nowUs : ℕ) (payload : List UInt8) (s : LifecycleState) :
    Moved c ((c.moveTip .schedulerRollback tip x nowMs nowUs payload).logLifecycleEvent s)
      tip x := by
  obtain ⟨hlast, hwrites⟩ := moveTip_of_noFault hfault .schedulerRollback tip x nowMs nowUs
    payload
  have hlogs := logLifecycleEvent_logsOnly
    (c := c.moveTip .schedulerRollback tip x nowMs nowUs payload) s
  obtain ⟨es, htypes, hwrites', hchain⟩ := hlogs.logged
  have haction : (c.moveTip .schedulerRollback tip x nowMs nowUs payload).data.lastAction =
      some (actionId (c.entry .schedulerRollback c.data.seq nowMs nowUs tip x payload)) := by
    simp [moveTip, append, write, World.write, hfault, setData]
  rw [haction] at hchain
  refine ⟨hlogs.lastSnapshot.trans hlast, _, es, ⟨_, rfl, rfl⟩, rfl, rfl, htypes, ?_,
    .cons (k := .schedulerRollback) rfl ⟨_, rfl, rfl⟩ rfl hchain⟩
  rw [hwrites', hwrites, List.append_assoc]
  rfl

omit [LinearOrder D] in
/-- A move of the tip does not touch capabilities and handles. -/
theorem moveTip_sameGrants (tip x : D) (t : EmitType) (nowMs nowUs : ℕ)
    (payload : List UInt8) :
    SameGrants c.world (c.moveTip t tip x nowMs nowUs payload).world := by
  cases hfault : c.world.fault c.world.ios with
  | true =>
      rw [moveTip_of_fault hfault]
      exact ⟨rfl, rfl⟩
  | false =>
      simp only [moveTip, append, write, World.write, hfault]
      exact ⟨rfl, rfl⟩

/-- The revocation of a target whose header is stored: one lookup, and, if that does not fail,
what the target asks for. -/
theorem revokeForTarget_of_header {h : SnapshotHeader D} (order : List CapabilityId)
    (hheader : c.world.store.getHeader x = some h) :
    (c.revokeForTarget order x).2.data = c.data ∧
      (c.revokeForTarget order x).2.world.writes = c.world.writes ∧
      (c.revokeForTarget order x).2.world.fault = c.world.fault ∧
      (c.revokeForTarget order x).2.world.ios = c.world.ios + 1 ∧
      SameGrants (if c.world.fault c.world.ios then c.world
        else (c.revokeAfter order (h.tsUs / 1000)).2.world)
        (c.revokeForTarget order x).2.world := by
  have hheader' : c.access.2.world.store.getHeader x = some h := hheader
  simp only [revokeForTarget]
  cases hfault : c.world.fault c.world.ios with
  | true =>
      rw [if_pos (show c.access.1 = true from hfault)]
      exact ⟨rfl, rfl, rfl, rfl, rfl, rfl⟩
  | false =>
      rw [if_neg (show ¬ c.access.1 = true from by simpa [access, World.access] using hfault)]
      simp only [hheader']
      exact ⟨rfl, rfl, rfl, rfl, rfl, rfl⟩

/-- Along a path, the second lookup of the header decides about the revocation and the append
about the rest. -/
theorem rollbackAlong_spec {h : SnapshotHeader D} {path : List D}
    (order : List CapabilityId) (targetSeq : ℕ)
    (hheader : c.world.store.getHeader (path.getLastD tip) = some h) :
    SameGrants (if c.world.fault c.world.ios then c.world
        else (c.revokeAfter order (h.tsUs / 1000)).2.world)
        (c.rollbackAlong order targetSeq tip path).world ∧
      if c.world.fault (c.world.ios + 1) then
        Stayed c (c.rollbackAlong order targetSeq tip path)
      else Moved c (c.rollbackAlong order targetSeq tip path) tip (path.getLastD tip) := by
  obtain ⟨hdata, hwrites, hfaults, hios, hgrants⟩ :=
    revokeForTarget_of_header (c := c.now.2.now.2) order hheader
  simp only [rollbackAlong]
  generalize c.now.2.now.2.revokeForTarget order (path.getLastD tip) = r at *
  generalize rollbackPayload (path.length - 1) targetSeq r.1 = payload
  have hlogs := logLifecycleEvent_logsOnly (c := r.2.moveTip .schedulerRollback tip
    (path.getLastD tip) c.now.1 c.now.2.now.1 payload) .active
  have hmove : SameGrants r.2.world _ :=
    moveTip_sameGrants tip (path.getLastD tip) .schedulerRollback c.now.1 c.now.2.now.1 payload
  have hnext : r.2.world.fault r.2.world.ios = c.world.fault (c.world.ios + 1) := by
    rw [hfaults, hios]
    rfl
  have hstart : r.2.data.lastSnapshot = c.data.lastSnapshot := by
    rw [hdata]
    rfl
  refine ⟨⟨?_, ?_⟩, ?_⟩
  · exact hlogs.grants.1.trans (hmove.1.trans hgrants.1)
  · exact hlogs.grants.2.trans (hmove.2.trans hgrants.2)
  split_ifs with hfault
  · rw [moveTip_of_fault (hnext.trans hfault)] at hlogs ⊢
    obtain ⟨hlast, es, hnone, hlogged⟩ := hlogs.stayed (by simp)
    refine ⟨hlast.trans hstart, es, hnone, ?_⟩
    exact hlogged.trans (congrArg (· ++ _) hwrites)
  · have hok : r.2.world.fault r.2.world.ios = false := by
      rw [hnext]
      simpa using hfault
    obtain ⟨hlast, e, es, htype, hbefore, hafter, hlife, hlogged, hchain⟩ :=
      moveTip_moved tip (path.getLastD tip) hok c.now.1 c.now.2.now.1 payload .active
    refine ⟨hlast, e, es, htype, hbefore, hafter, hlife, ?_, ?_⟩
    · exact hlogged.trans (congrArg (· ++ _) hwrites)
    · rw [hdata] at hchain
      exact hchain

/-! ### When it is all or nothing -/

omit [LinearOrder D] [ContentHash D] in
theorem SameGrants.congr_right {w w' w'' : World D} (h : SameGrants w' w'') :
    SameGrants w w'' ↔ SameGrants w w' := by
  simp only [SameGrants, h.1, h.2]

/-- After a move, the revocation has to be that of the target. -/
theorem Moved.atomic_iff {order : List CapabilityId} {targetSeq : ℕ} {h : SnapshotHeader D}
    (hmoved : Moved c c' tip x) (hlast : c.data.lastSnapshot = some tip)
    (hanc : c.world.store.AncestorOrSelf tip x) (hheader : c.world.store.getHeader x = some h)
    (hseq : h.seq = targetSeq) : RollbackAtomic c c' order targetSeq ↔
      SameGrants (c.revokeAfter order (h.tsUs / 1000)).2.world c'.world := by
  constructor
  · rintro (⟨tip', x', h', -, -, hheader', -, hmoved', hgrants⟩ | ⟨hstayed, -⟩)
    · obtain rfl := Option.some.inj (hmoved.1.symm.trans hmoved'.1)
      obtain rfl := Option.some.inj (hheader.symm.trans hheader')
      exact hgrants
    · exact absurd hstayed hmoved.not_stayed
  · intro hgrants
    exact .inl ⟨tip, x, h, hlast, hanc, hheader, hseq, hmoved, hgrants⟩

/-- Without a move, nothing may be revoked. -/
theorem Stayed.atomic_iff {order : List CapabilityId} {targetSeq : ℕ} (hstayed : Stayed c c') :
    RollbackAtomic c c' order targetSeq ↔ SameGrants c.world c'.world := by
  constructor
  · rintro (⟨_, _, _, -, -, -, -, hmoved, -⟩ | ⟨-, hgrants⟩)
    · exact absurd hstayed hmoved.not_stayed
    · exact hgrants
  · intro hgrants
    exact .inr ⟨hstayed, hgrants⟩

/-- A rollback that finds its target is all or nothing exactly if the lookup of the header and
the append fare alike, or there is nothing to revoke. -/
theorem rollbackAlong_atomic_iff {targetSeq : ℕ} {path : List D} {h : SnapshotHeader D}
    (order : List CapabilityId) (hfinds : c.FindsTarget targetSeq tip path h) :
    RollbackAtomic c
        ((c.rollbackPath tip targetSeq).2.rollbackAlong order targetSeq tip path) order
        targetSeq ↔
      c.world.fault (c.world.ios + c.world.store.walkBound) =
          c.world.fault (c.world.ios + c.world.store.walkBound + 1) ∨
        c.NothingToRevoke (h.tsUs / 1000) := by
  obtain ⟨y, hend, hanc, header, hheader, hseq⟩ := ContentStore.walk_eq_ok hfinds.found
  have htarget : path.getLastD tip = y := by
    rw [List.getLastD_eq_getLast?, hend]
    rfl
  obtain rfl : header = h := by
    have hsame := hfinds.header
    rw [htarget] at hsame
    exact Option.some.inj (hheader.symm.trans hsame)
  obtain ⟨hgrants, hrest⟩ := rollbackAlong_spec (c := (c.rollbackPath tip targetSeq).2) order
    targetSeq hfinds.header
  rw [htarget] at hrest
  generalize (c.rollbackPath tip targetSeq).2.rollbackAlong order targetSeq tip path = c' at *
  have hrevoke := revokeAfter_same_iff (c := c) order (header.tsUs / 1000)
  have hlookup : (c.rollbackPath tip targetSeq).2.world.fault
      (c.rollbackPath tip targetSeq).2.world.ios =
        c.world.fault (c.world.ios + c.world.store.walkBound) := rfl
  have happend : (c.rollbackPath tip targetSeq).2.world.fault
      ((c.rollbackPath tip targetSeq).2.world.ios + 1) =
        c.world.fault (c.world.ios + c.world.store.walkBound + 1) := rfl
  rw [hlookup] at hgrants
  rw [happend] at hrest
  cases hb : c.world.fault (c.world.ios + c.world.store.walkBound + 1) with
  | true =>
      have hstayed : Stayed c c' := by
        rw [hb] at hrest
        exact hrest
      rw [hstayed.atomic_iff]
      cases ha : c.world.fault (c.world.ios + c.world.store.walkBound) with
      | true =>
          rw [ha] at hgrants
          exact iff_of_true hgrants (.inl rfl)
      | false =>
          rw [ha] at hgrants
          simp only [Bool.false_eq_true, false_or]
          exact (SameGrants.congr_right hgrants).trans hrevoke
  | false =>
      have hmoved : Moved c c' tip y := by
        rw [hb] at hrest
        exact hrest
      rw [hmoved.atomic_iff hfinds.last hanc hheader hseq]
      cases ha : c.world.fault (c.world.ios + c.world.store.walkBound) with
      | true =>
          rw [ha] at hgrants
          simp only [Bool.true_eq_false, false_or]
          have hright : ∀ w, SameGrants w c'.world ↔ SameGrants w c.world :=
            fun w => SameGrants.congr_right hgrants
          refine (hright _).trans (Iff.trans ?_ hrevoke)
          simp only [SameGrants, eq_comm]
      | false =>
          rw [ha] at hgrants
          exact iff_of_true hgrants (.inl rfl)

end Caller

namespace Actor

/-- A rollback that is ignored changes nothing. -/
theorem ignored_atomic_iff {a : Actor D} (order : List CapabilityId) {targetSeq : ℕ}
    (hignored : a.ledger.lastSnapshot = none ∨ a.ledger.seq ≤ targetSeq) :
    a.caller.RollbackAtomic (a.handle order (.rollback targetSeq)).caller order targetSeq ↔
      a.caller.RollbackSteady targetSeq := by
  have hnever : ∀ tip, a.caller.data.lastSnapshot = some tip →
      ¬ targetSeq < a.caller.data.seq := by
    intro tip hlast hbelow
    rcases hignored with hnone | hle
    · exact absurd (hlast.symm.trans hnone) (by simp)
    · exact absurd hbelow (Nat.not_lt.mpr hle)
  rw [handle_rollback_ignored order hignored]
  refine iff_of_true (.inr ⟨⟨rfl, [], by simp, (List.append_nil _).symm⟩, rfl, rfl⟩) ⟨?_, ?_⟩
  · intro tip path h hfinds
    exact absurd hfinds.below (hnever tip hfinds.last)
  · intro tip error hlast hbelow
    exact absurd hbelow (hnever tip hlast)

/-- A rollback that finds no path crashes the agent, and its handles go with it. -/
theorem lost_atomic_iff {a : Actor D} (order : List CapabilityId) {targetSeq : ℕ} {tip : D}
    {error : StoreError D} (hlast : a.caller.data.lastSnapshot = some tip)
    (hbelow : targetSeq < a.caller.data.seq)
    (hlost : (a.caller.rollbackPath tip targetSeq).1 = .error error) :
    a.caller.RollbackAtomic (a.handle order (.rollback targetSeq)).caller order targetSeq ↔
      a.caller.RollbackSteady targetSeq := by
  have hhandle : a.handle order (.rollback targetSeq) =
      (a.setCaller (a.caller.rollbackPath tip targetSeq).2).crash .contentStoreBroken := by
    simp only [handle, Caller.rollback, hlast, if_neg (Nat.not_le.mpr hbelow), hlost]
  have hlogs := Caller.logAgentCrash_logsOnly (c := (a.caller.rollbackPath tip targetSeq).2)
    .contentStoreBroken
  have hstayed : Caller.Stayed a.caller (a.handle order (.rollback targetSeq)).caller := by
    rw [hhandle]
    exact hlogs.stayed (by simp)
  rw [hstayed.atomic_iff]
  have hgrants : Caller.SameGrants a.caller.world
      (a.handle order (.rollback targetSeq)).caller.world ↔
        (a.caller.world.causeHandles a.caller.data.causeHandleRegistry).revokeIssuedByAll
          a.caller.data.id = a.caller.world.causeHandles a.caller.data.causeHandleRegistry := by
    rw [hhandle]
    obtain ⟨hid, hregistry⟩ := hlogs.issues
    obtain ⟨hcaps, hhandles⟩ := hlogs.grants
    simp only [Caller.SameGrants, crash, setCaller, leave, hid, hregistry, hcaps, hhandles]
    simp [Caller.rollbackPath, World.rollbackPath]
  rw [hgrants, CauseHandleRegistry.revokeIssuedByAll_eq_iff]
  constructor
  · intro hnone
    refine ⟨fun tip' path h hfinds => ?_, fun _ _ _ _ _ => hnone⟩
    obtain rfl := Option.some.inj (hlast.symm.trans hfinds.last)
    exact absurd (hlost.symm.trans hfinds.found) (by simp)
  · intro hsteady
    exact hsteady.lost tip error hlast hbelow hlost

/-- In every state and whatever accesses fail: a rollback is applied as a whole or left out as
a whole exactly if, when it finds its target, the second lookup of the header and the append
both succeed or both fail, or there is nothing to revoke; and, when it finds none and the agent
crashes, the agent has no handle out. -/
theorem rollback_atomic_iff (a : Actor D) (order : List CapabilityId) (targetSeq : ℕ) :
    a.caller.RollbackAtomic (a.handle order (.rollback targetSeq)).caller order targetSeq ↔
      a.caller.RollbackSteady targetSeq := by
  cases hlast : a.caller.data.lastSnapshot with
  | none => exact ignored_atomic_iff order (.inl hlast)
  | some tip =>
      by_cases hbelow : targetSeq < a.caller.data.seq
      · cases hpath : (a.caller.rollbackPath tip targetSeq).1 with
        | error error => exact lost_atomic_iff order hlast hbelow hpath
        | ok path =>
            obtain ⟨y, hend, -, h, hheader, -⟩ := ContentStore.walk_eq_ok hpath
            have htarget : path.getLastD tip = y := by
              rw [List.getLastD_eq_getLast?, hend]
              rfl
            have hfinds : a.caller.FindsTarget targetSeq tip path h :=
              ⟨hlast, hbelow, hpath, htarget ▸ hheader⟩
            have hhandle : a.handle order (.rollback targetSeq) = a.setCaller
                ((a.caller.rollbackPath tip targetSeq).2.rollbackAlong order targetSeq tip
                  path) := by
              simp only [handle, Caller.rollback, hlast, if_neg (Nat.not_le.mpr hbelow), hpath]
            rw [hhandle]
            refine (Caller.rollbackAlong_atomic_iff order hfinds).trans ⟨fun hfound => ?_,
              fun hsteady => hsteady.found tip path h hfinds⟩
            refine ⟨fun tip' path' h' hfinds' => ?_, fun tip' error hlast' _ hlost => ?_⟩
            · obtain rfl := Option.some.inj (hlast.symm.trans hfinds'.last)
              obtain rfl := Except.ok.inj (hpath.symm.trans hfinds'.found)
              obtain rfl := Option.some.inj (hfinds.header.symm.trans hfinds'.header)
              exact hfound
            · obtain rfl := Option.some.inj (hlast.symm.trans hlast')
              exact absurd (hpath.symm.trans hlost) (by simp)
      · exact ignored_atomic_iff order (.inr (Nat.le_of_not_lt hbelow))

/-- A capability that goes without a `SchedulerRollback` went alone. -/
theorem not_atomic_of_revoked {a a' : Actor D} {order : List CapabilityId} {targetSeq : ℕ}
    (hnone : ∀ e ∈ a.appended a', ¬ e.HasType .schedulerRollback) {store : ℕ}
    {id : CapabilityId} (hlive : ((a.caller.world.capStores store).get id).isSome)
    (hgone : ((a'.caller.world.capStores store).get id).isNone) :
    ¬ a.caller.RollbackAtomic a'.caller order targetSeq := by
  rintro (⟨_, _, _, -, -, -, -, ⟨-, e, es, htype, -, -, -, hwrites, -⟩, -⟩ | ⟨-, hcaps, -⟩)
  · refine hnone e ?_ htype
    rw [appended_of_writes hwrites]
    exact List.mem_filterMap.mpr ⟨_, List.mem_cons_self, rfl⟩
  · rw [hcaps] at hgone
    rw [Option.isNone_iff_eq_none.mp hgone] at hlive
    cases hlive

/-- An agent whose ninth access fails. -/
def ninthAccessFails : Actor (List ℕ) :=
  .new 10 { clock := fun n => n + 1, capStore := 0, kvStore := 0, causeHandleRegistry := 0 }
    [0, 0, 0, 0] { blankWorld with fault := fun n => n = 8 }

/-- It commits, and is granted a capability later. -/
def grantedRun : List (Event (List ℕ)) :=
  .start :: dataCycle [.commitBarrier] ++
    [.others [] (fun _ => (CapabilityStore.new.grantRoot 1000000 10
      ⟨true, true, false, false⟩ ['r']).2) (fun _ => ∅) fun _ _ => []]

/-- A rollback to its commit, whose append fails, revokes the capability and does not take
place. -/
theorem revoked_without_rollback :
    ∃ a : Actor (List ℕ), Machine.run step ninthAccessFails grantedRun = some a ∧
      a.phase = .idle ∧ a.pendingMsg = none ∧
      ¬ a.caller.RollbackAtomic (a.handle [] (.rollback 0)).caller [] 0 := by
  have hrun : (Machine.run step ninthAccessFails grantedRun).any (fun a =>
      decide (a.phase = .idle ∧ a.pendingMsg = none ∧
        (∀ e ∈ a.appended (a.handle [] (.rollback 0)), ¬ e.HasType .schedulerRollback) ∧
        ((a.caller.world.capStores 0).get 0).isSome ∧
        (((a.handle [] (.rollback 0)).caller.world.capStores 0).get 0).isNone)) = true := by
    decide +kernel
  obtain ⟨a, ha, hcheck⟩ := (Option.any_eq_true _ _).mp hrun
  obtain ⟨hidle, hpending, hnone, hlive, hgone⟩ := of_decide_eq_true hcheck
  exact ⟨a, ha, hidle, hpending, not_atomic_of_revoked hnone hlive hgone⟩

end Actor

end Torpor
