import Torpor.Actor.Trail
import Torpor.Capabilities.Cascade
import Torpor.System.Supervision

/-!
# Headers and Capability Stores

What the steps of an agent do to the headers of its snapshots and to the capability stores:
`commit_barrier` puts a header, whose time is a reading of the clock of the agent; a rollback
revokes what the agent was given after the time of the header of its target; a wake comes with a
new capability store. Apart from that a step puts no header and leaves the stores alone.

## Main results

* `Actor.step_books`: the cases of a step.
* `Actor.step_headers`, `Actor.step_stores`: the header that a step may put, and that a step
  issues no capability.
* `Actor.stores_of_rollsBackTo`: what a rollback leaves in the stores.
-/

namespace Torpor

open ContentHash

variable {D : Type}

namespace Books

/-- From `b` to `b'` the agent puts no header and leaves the capability stores alone. -/
structure Quiet (b b' : Books D) : Prop where
  capStores : b'.capStores = b.capStores
  written : ∃ ws, b'.trail.writes = b.trail.writes ++ ws ∧ headersOf ws = []

theorem Quiet.trans {b b' b'' : Books D} (h : b.Quiet b') (h' : b'.Quiet b'') : b.Quiet b'' := by
  obtain ⟨ws, hws, hnone⟩ := h.written
  obtain ⟨ws', hws', hnone'⟩ := h'.written
  refine ⟨h'.capStores.trans h.capStores, ws ++ ws', ?_, ?_⟩
  · rw [hws', hws, List.append_assoc]
  · rw [headersOf_append, hnone, hnone']
    rfl

/-- No write at all. -/
theorem quiet_of_writes_eq {b b' : Books D} (hstores : b'.capStores = b.capStores)
    (hwrites : b'.trail.writes = b.trail.writes) : b.Quiet b' :=
  ⟨hstores, [], hwrites.trans (List.append_nil _).symm, rfl⟩

theorem Quiet.refl (b : Books D) : b.Quiet b :=
  quiet_of_writes_eq rfl rfl

theorem OnlyLogs.quiet [ContentHash D] {b b' : Books D} (h : b.OnlyLogs b') : b.Quiet b' := by
  obtain ⟨es, hws, -⟩ := h.logged
  refine ⟨h.capStores, _, hws, ?_⟩
  simp [headersOf, List.filterMap_map]

end Books

namespace Caller

variable [ContentHash D]

theorem append_quiet (c : Caller D) (writer : Writer) (e : LogEntry D) :
    c.books.Quiet (c.append writer e).2.books := by
  rcases c.append_books writer e with ⟨-, h⟩ | ⟨-, h⟩
  · rw [h]
    exact ⟨rfl, _, rfl, rfl⟩
  · rw [h]
    exact .refl _

theorem agentInferFinish_quiet (c : Caller D) (call : InferCall D)
    (result : Except InferError InferResponse) (durationMs : ℕ) :
    c.books.Quiet (c.agentInferFinish call result durationMs).2.books := by
  obtain ⟨c₁, c₂, request, response, -, hbefore, -, -, hbetween, -, -, -, hafter⟩ :=
    c.agentInferFinish_books call result durationMs
  have hrequest := append_quiet c₁ .runtime request
  have hresponse := append_quiet c₂ .runtime response
  rw [hbefore] at hrequest
  rw [hbetween] at hresponse
  exact (hrequest.trans hresponse).trans hafter.quiet

theorem emit_quiet (c : Caller D) (emitType ptr len : Int32) :
    c.books.Quiet (c.emit emitType ptr len).books := by
  rcases c.emit_cases emitType ptr len with
    ⟨p, -, h⟩ | ⟨-, p, e, k, -, -, -, -, h⟩
  · rw [h]
    exact Books.quiet_of_writes_eq rfl rfl
  · rw [h]
    exact ⟨rfl, _, rfl, rfl⟩

theorem agentAddCause_quiet [LinearOrder D] (c : Caller D) (actionIdPtr : Int32) :
    c.books.Quiet (c.agentAddCause actionIdPtr).2.books := by
  rcases c.agentAddCause_cases actionIdPtr with ⟨-, h⟩ | ⟨-, -, id, entry, -, -, h⟩
  · rw [h]
    exact .refl _
  · rw [h]
    exact Books.quiet_of_writes_eq rfl rfl

theorem processEnd_quiet (c : Caller D) : c.books.Quiet c.processEnd.2.books := by
  obtain ⟨b, ⟨p, -, rfl⟩ | ⟨-, p, e, -, -, -, rfl⟩, hlogs⟩ := c.processEnd_books
  · have hpend : c.books.Quiet (c.books.pend p) := Books.quiet_of_writes_eq rfl rfl
    exact hpend.trans hlogs.quiet
  · have hpublish : c.books.Quiet ((c.books.append .runtime e).pend none) :=
      ⟨rfl, [.append .runtime e], rfl, rfl⟩
    exact hpublish.trans hlogs.quiet

/-- `commit_barrier` puts no header, or that of the commit. -/
theorem commitBarrier_headers (c : Caller D) : c.books.Quiet c.commitBarrier.books ∨
    c.commitBarrier.books.capStores = c.books.capStores ∧
      ∃ ws, c.commitBarrier.books.trail.writes = c.books.trail.writes ++ ws ∧
        headersOf ws = [c.commitHeader (c.data.clock c.data.reads)] := by
  rcases c.commitBarrier_cases with ⟨-, ws, hws, h⟩ | ⟨-, p, -, h⟩
  · rw [h]
    refine .inl ⟨rfl, ws, rfl, ?_⟩
    rcases hws with rfl | rfl <;> rfl
  · rw [h]
    exact .inr ⟨rfl, _, rfl, rfl⟩

/-- The revocation of a rollback: none if the header of the target is not read, else that of
what the agent was given after the time of the header. -/
theorem revokeForTarget_cases [LinearOrder D] (c : Caller D) (order : List CapabilityId)
    (target : D) :
    (c.revokeForTarget order target).2.world.capStores = c.world.capStores ∧
        (c.world.fault c.world.ios = true ∨ c.world.store.getHeader target = none) ∨
      ∃ header order', c.world.store.getHeader target = some header ∧
        order'.Perm (c.world.capStores c.data.capStore).caps.keys ∧
        (c.revokeForTarget order target).2.world.capStores =
          Function.update c.world.capStores c.data.capStore
            ((c.world.capStores c.data.capStore).revokeOwnedAfter order' c.data.id
              (header.tsUs / 1000)).2 := by
  simp only [revokeForTarget]
  split_ifs with hfault
  · exact .inl ⟨rfl, .inl hfault⟩
  · split
    · rename_i hnone
      exact .inl ⟨rfl, .inr hnone⟩
    · rename_i header hheader
      refine .inr ⟨header, _, hheader, ?_, rfl⟩
      split_ifs with hperm
      · exact hperm
      · exact .refl _

end Caller

namespace Actor

variable [ContentHash D]

theorem endCycle_quiet (a : Actor D) (kind : CycleKind) :
    a.books.Quiet (a.endCycle kind).books :=
  (Caller.processEnd_quiet a.caller).trans (a.endCycle_onlyLogs kind).quiet

variable [LinearOrder D]

/-- A message that is no rollback. -/
theorem handle_quiet (a : Actor D) (order : List CapabilityId) {message : Message D}
    (hrollback : ∀ targetSeq, message ≠ .rollback targetSeq) :
    a.books.Quiet (a.handle order message).books := by
  cases message with
  | data payload cause =>
      obtain ⟨b, hbefore, hafter⟩ := a.handle_data_books order payload cause
      have hcause : b.Quiet (b.withCauses (b.trail.extraCauses ++ cause.toList)) :=
        Books.quiet_of_writes_eq rfl rfl
      exact (hbefore.quiet.trans hcause).trans hafter.quiet
  | rollback targetSeq => exact absurd rfl (hrollback targetSeq)
  | _ => exact (a.handle_onlyLogs order (by simp) (by simp)).quiet

/-- The rollback of a step finds a path, revokes, and otherwise only logs. -/
def Revokes (a : Actor D) (ev : Event D) (a' : Actor D) : Prop :=
  ∃ targetSeq tip path order, a.takesUp ev = some targetSeq ∧
    a.caller.data.lastSnapshot = some tip ∧
    (a.caller.rollbackPath tip targetSeq).1 = .ok path ∧
    ({ a.books with capStores := ((a.caller.rollbackPath tip targetSeq).2.now.2.now.2.revokeForTarget
      order (path.getLastD tip)).2.world.capStores } : Books D).Quiet a'.books

/-- The step is a `commit_barrier` that puts one header, with the time of the clock. -/
def Commits (a : Actor D) (ev : Event D) (a' : Actor D) : Prop :=
  ∃ memory header, ev = .host memory .commitBarrier ∧
    a'.caller.world.capStores = a.caller.world.capStores ∧
    headersOf (a.written ev a') = [header] ∧
    header.tsUs = a.caller.data.clock a.caller.data.reads

/-- The step builds the agent again, with a new capability store. -/
def Rebuilds (a : Actor D) (ev : Event D) (a' : Actor D) : Prop :=
  ∃ params memory, ev = .wake params memory ∧ headersOf (a.written ev a') = [] ∧
    a'.caller.world.capStores = Function.update a.caller.world.capStores params.capStore .new

/-- A message that the loop takes up. -/
theorem handle_books {a b : Actor D} {ev : Event D} {message : Message D}
    (hcaller : b.caller = a.caller)
    (htakes : ∀ targetSeq, message = .rollback targetSeq → a.takesUp ev = some targetSeq)
    (order : List CapabilityId) :
    a.books.Quiet (b.handle order message).books ∨ a.Revokes ev (b.handle order message) := by
  have hbooks : b.books = a.books := congrArg Caller.books hcaller
  rw [← hbooks]
  cases message with
  | rollback targetSeq =>
      rcases b.handle_rollback_books order targetSeq with hlogs | ⟨tip, path, htip, hpath, hlogs⟩
      · exact .inl hlogs.quiet
      · refine .inr ⟨targetSeq, tip, path, order, htakes targetSeq rfl, ?_, ?_, ?_⟩
        · rw [← hcaller]
          exact htip
        · rw [← hcaller]
          exact hpath
        · rw [← hcaller, ← hbooks]
          exact hlogs.quiet
  | _ => exact .inl (b.handle_quiet order (by simp))

/-- A call of the guest. -/
theorem host_books (a : Actor D) {kind : CycleKind} (memory : List UInt8) (call : HostCall) :
    a.books.Quiet ((a.setMemory memory).hostCall kind call).books ∨
      a.Commits (.host memory call) ((a.setMemory memory).hostCall kind call) := by
  have hbooks := (a.setMemory memory).hostCall_books kind call
  have hkept : a.books = (a.setMemory memory).caller.books := rfl
  rw [hbooks, hkept]
  cases hcall : call.onlyLogs with
  | true => exact .inl ((a.setMemory memory).caller.host_onlyLogs hcall).quiet
  | false =>
      cases call with
      | commitBarrier =>
          rcases (a.setMemory memory).caller.commitBarrier_headers with
            hquiet | ⟨hstores, ws, hws, hheaders⟩
          · exact .inl hquiet
          · have hwrites := congrArg (fun b : Books D => b.trail.writes) hbooks
            have hwritten : a.written (.host memory .commitBarrier)
                ((a.setMemory memory).hostCall kind .commitBarrier) = ws :=
              written_eq (by simp) (hwrites.trans hws)
            refine .inr ⟨memory, (a.setMemory memory).caller.commitHeader
              (a.caller.data.clock a.caller.data.reads), rfl, ?_, ?_, rfl⟩
            · exact (congrArg Books.capStores hbooks).trans hstores
            · rw [hwritten, hheaders]
              rfl
      | emit emitType ptr len => exact .inl (Caller.emit_quiet _ emitType ptr len)
      | agentAddCause actionIdPtr => exact .inl (Caller.agentAddCause_quiet _ actionIdPtr)
      | _ => cases hcall

/-- What a step does to the capability stores, and the header it puts. -/
theorem step_books {a a' : Actor D} {ev : Event D}
    (hothers : ∀ ws c k h, ev ≠ .others ws c k h) (h : a.step ev = some a') :
    a.books.Quiet a'.books ∨ a.Commits ev a' ∨ a.Revokes ev a' ∨ a.Rebuilds ev a' := by
  cases trans_of_step h with
  | start _ => exact .inl (Caller.logLifecycleEvent_onlyLogs a.caller _).quiet
  | @handle message order hidle hpending =>
      have htakes : ∀ targetSeq, message = .rollback targetSeq →
          a.takesUp (.recv message order) = some targetSeq := by
        rintro targetSeq rfl
        simp only [takesUp, hidle, hpending]
      rcases handle_books rfl htakes order with hquiet | hrevokes
      · exact .inl hquiet
      · exact .inr (.inr (.inl hrevokes))
  | @await message order hawaiting _ => exact .inl (await_onlyLogs a message).quiet
  | @resume message order hidle hpending =>
      have htakes : ∀ targetSeq, message = .rollback targetSeq →
          a.takesUp (.resume order) = some targetSeq := by
        rintro targetSeq rfl
        simp only [takesUp, hidle, hpending]
      rcases handle_books (a := a) (b := { a with pendingMsg := none }) rfl
        htakes order with hquiet | hrevokes
      · exact .inl hquiet
      · exact .inr (.inr (.inl hrevokes))
  | exit _ _ => exact .inl (exitLoop_onlyLogs a).quiet
  | abandon _ _ => exact .inl (.refl _)
  | timeout _ => exact .inl (recordVerdict_onlyLogs a _).quiet
  | @host kind memory call _ _ =>
      rcases a.host_books memory call with hquiet | hcommits
      · exact .inl hquiet
      · exact .inr (.inl hcommits)
  | inferDone _ => exact .inl (Caller.agentInferFinish_quiet a.caller _ _ _)
  | @ret kind memory _ _ => exact .inl (endCycle_quiet (a.setMemory memory) kind)
  | @trap kind memory interrupt _ _ => exact .inl (crash_onlyLogs (a.setMemory memory) _).quiet
  | @wake evicted params memory hphase _ =>
      refine .inr (.inr (.inr ⟨params, memory, rfl, ?_, ?_⟩))
      · have hwritten : a.written (.wake params memory)
            { caller := Caller.restore
                (Caller.checkResumeSnapshot a.caller.world evicted.lastSnapshot).2 params memory
                evicted
              phase := .spawned
              pendingMsg := none } = [] :=
          written_eq (by simp) (by simp [ledger, Caller.ledger, Caller.restore, Caller.allocate])
        rw [hwritten]
        rfl
      · simp [Caller.restore, Caller.allocate]
  | @refuse evicted params memory hphase _ =>
      refine .inl (Books.quiet_of_writes_eq ?_ ?_)
      · simp [books, Caller.books, setCaller]
      · simp [books, Caller.books, Caller.trail, setCaller]
  | others _ => exact absurd rfl (hothers _ _ _ _)

/-- A step puts at most one header, that of a `commit_barrier` with the time of the clock. -/
theorem step_headers {a a' : Actor D} {ev : Event D}
    (hothers : ∀ ws c k h, ev ≠ .others ws c k h) (h : a.step ev = some a') :
    headersOf (a.written ev a') = [] ∨ ∃ memory header, ev = .host memory .commitBarrier ∧
      headersOf (a.written ev a') = [header] ∧
      header.tsUs = a.caller.data.clock a.caller.data.reads := by
  have hquiet {b : Books D} (hb : b.trail = a.trail) (hlogs : b.Quiet a'.books) :
      headersOf (a.written ev a') = [] := by
    obtain ⟨ws, hws, hnone⟩ := hlogs.written
    rw [hb] at hws
    rw [written_eq hothers hws, hnone]
  rcases step_books hothers h with
    hlogs | ⟨memory, header, hev, -, hput, htime⟩ | ⟨_, _, _, _, -, -, -, hlogs⟩ |
      ⟨_, _, -, hnone, -⟩
  · exact .inl (hquiet rfl hlogs)
  · exact .inr ⟨memory, header, hev, hput, htime⟩
  · exact .inl (hquiet rfl hlogs)
  · exact .inl hnone

/-- The trees are kept from `stores` to `stores'`, and no capability is issued. -/
def IssuesNothing (stores stores' : ℕ → CapabilityStore) : Prop :=
  ∀ i, (stores' i).TreeInv ∧ ∀ id c, (stores' i).get id = some c → (stores i).get id = some c

omit [ContentHash D] [LinearOrder D] in
theorem issuesNothing_update {stores : ℕ → CapabilityStore} (ht : ∀ i, (stores i).TreeInv) (j : ℕ)
    {store : CapabilityStore} (htree : store.TreeInv)
    (hget : ∀ id c, store.get id = some c → (stores j).get id = some c) :
    IssuesNothing stores (Function.update stores j store) := by
  intro i
  by_cases hij : i = j
  · subst hij
    rw [Function.update_self]
    exact ⟨htree, hget⟩
  · rw [Function.update_of_ne hij]
    exact ⟨ht i, fun _ _ hc => hc⟩

/-- A step keeps the derivation trees, and issues no capability. -/
theorem step_stores {a a' : Actor D} {ev : Event D}
    (hothers : ∀ ws c k h, ev ≠ .others ws c k h) (h : a.step ev = some a')
    (ht : ∀ i, (a.caller.world.capStores i).TreeInv) :
    IssuesNothing a.caller.world.capStores a'.caller.world.capStores := by
  have hsame : IssuesNothing a.caller.world.capStores a.caller.world.capStores :=
    fun i => ⟨ht i, fun _ _ hc => hc⟩
  rcases step_books hothers h with
    hlogs | ⟨_, _, -, hstores, -, -⟩ | ⟨t, tip, path, order, -, -, -, hlogs⟩ | ⟨p, _, -, -, hstores⟩
  · have hstores : a'.caller.world.capStores = _ := hlogs.capStores
    rw [hstores]
    exact hsame
  · rw [hstores]
    exact hsame
  · have hstores : a'.caller.world.capStores = _ := hlogs.capStores
    rw [hstores]
    rcases Caller.revokeForTarget_cases (a.caller.rollbackPath tip t).2.now.2.now.2 order
      (path.getLastD tip) with ⟨hkept, -⟩ | ⟨header, order', -, -, hrevoked⟩
    · rw [hkept]
      exact hsame
    · rw [hrevoked]
      exact issuesNothing_update ht _ ((ht _).revokeOwnedAfter _ _ _)
        (CapabilityStore.revokeOwnedAfter_remains (ht _) _ _ _).1.get_of
  · rw [hstores]
    exact issuesNothing_update ht p.capStore CapabilityStore.treeInv_new
      fun id c hc => by simp [CapabilityStore.get, CapabilityStore.new] at hc

/-- The snapshot that a step moves the agent back to, if it takes up a rollback and finds the
path. -/
def rollsBackTo (a : Actor D) (ev : Event D) : Option D :=
  match a.takesUp ev, a.caller.data.lastSnapshot with
  | some targetSeq, some tip =>
      if a.caller.data.seq ≤ targetSeq then none
      else match (a.caller.rollbackPath tip targetSeq).1 with
        | .ok path => some (path.getLastD tip)
        | .error _ => none
  | _, _ => none

/-- A rollback that goes along a path. -/
theorem rollback_of_rollsBackTo {a : Actor D} {ev : Event D} {target : D}
    (hback : a.rollsBackTo ev = some target) :
    ∃ targetSeq tip path, a.takesUp ev = some targetSeq ∧ a.caller.data.lastSnapshot = some tip ∧
      (a.caller.rollbackPath tip targetSeq).1 = .ok path ∧ path.getLastD tip = target ∧
      ∀ order, a.caller.rollback order targetSeq =
        (none, (a.caller.rollbackPath tip targetSeq).2.rollbackAlong order targetSeq tip path) := by
  simp only [rollsBackTo] at hback
  split at hback
  · rename_i targetSeq tip htakes htip
    split_ifs at hback with hseq
    split at hback
    · rename_i path hpath
      refine ⟨targetSeq, tip, path, htakes, htip, hpath, Option.some.inj hback, fun order => ?_⟩
      simp only [Caller.rollback, htip, if_neg hseq, hpath]
    · cases hback
  · cases hback

/-- What a rollback leaves in the capability stores, if it can read the header of its target. -/
theorem stores_of_rollsBackTo {a a' : Actor D} {ev : Event D} {target : D}
    (hback : a.rollsBackTo ev = some target) (h : a.step ev = some a')
    (hread : a.caller.world.fault (a.caller.world.ios + a.caller.world.store.walkBound) = false)
    {header : SnapshotHeader D} (hheader : a.caller.world.store.getHeader target = some header) :
    ∃ order, order.Perm (a.caller.world.capStores a.caller.data.capStore).caps.keys ∧
      a'.caller.world.capStores = Function.update a.caller.world.capStores a.caller.data.capStore
        ((a.caller.world.capStores a.caller.data.capStore).revokeOwnedAfter order
          a.caller.data.id (header.tsUs / 1000)).2 := by
  obtain ⟨targetSeq, tip, path, htakes, -, -, rfl, hrollback⟩ := rollback_of_rollsBackTo hback
  obtain ⟨order, rfl⟩ := handle_of_takesUp htakes h
  have hlogs : ({ (a.caller.rollbackPath tip targetSeq).2.books with
      capStores := ((a.caller.rollbackPath tip targetSeq).2.now.2.now.2.revokeForTarget order
        (path.getLastD tip)).2.world.capStores } : Books D).OnlyLogs
      ((a.caller.rollbackPath tip targetSeq).2.rollbackAlong order targetSeq tip path).books :=
    Caller.rollbackAlong_books rfl
  simp only [handle, hrollback]
  rcases Caller.revokeForTarget_cases (a.caller.rollbackPath tip targetSeq).2.now.2.now.2 order
    (path.getLastD tip) with ⟨-, hfault | hnone⟩ | ⟨header', order', hheader', hperm, hrevoked⟩
  · exact absurd (hfault.symm.trans hread) (by simp)
  · exact absurd (hnone.symm.trans hheader) (by simp)
  · obtain rfl : header' = header := Option.some.inj (hheader'.symm.trans hheader)
    exact ⟨order', hperm, hlogs.capStores.trans hrevoked⟩

end Actor

end Torpor
