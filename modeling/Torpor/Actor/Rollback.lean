import Torpor.Actor.Steps

/-!
# Rollback

What `Message::Rollback` does in every state that an agent can be in when it handles one, if
no access to the databases fails: after any number of messages, guest cycles with any calls,
evictions and wake-ups.

The sequence number of an agent never goes back, while a rollback moves its last snapshot
back, and later commits grow a chain that has gaps. A target below the current sequence number
may therefore be on no ancestor of the last snapshot, and then the agent crashes.

## Main results

* `Ledger.Anchored`: the last snapshot is the tip of a chain below the sequence number.
* `Actor.Reachable.anchored`: this holds in every run.
* `rollback_total_iff`: a rollback does what it is for exactly if its target is outside the
  history altogether or on an ancestor of the last snapshot.
* `rollback_after_rollback_crashes`: three commits, a rollback to the first of them, and a
  rollback to the last of them, which crashes the agent.
-/

namespace Torpor

open ContentHash

variable {D : Type} [LinearOrder D] [ContentHash D]

/-! ### The last snapshot is anchored -/

/-- The last snapshot is the tip of a stored chain, all of it below the sequence number. -/
def Ledger.Anchored (l : Ledger D) : Prop :=
  ∀ tip, l.lastSnapshot = some tip → ∃ h, l.store.Chain tip h ∧ h.seq < l.seq

/-- Further writes keep chains. -/
theorem Ledger.chain_extend {l : Ledger D} {tip : D} {h : SnapshotHeader D}
    (hc : l.store.Chain tip h) (ws : List (Write D)) : (l.extend ws).store.Chain tip h :=
  hc.mono fun _ _ hid => Disk.replay_getHeader_mono l.writes ws hid

/-- Further writes leave the last snapshot anchored. -/
theorem Ledger.Anchored.extend {l : Ledger D} (ha : l.Anchored) (ws : List (Write D)) :
    (l.extend ws).Anchored := by
  intro tip htip
  obtain ⟨h, hc, hlt⟩ := ha tip htip
  exact ⟨h, chain_extend hc ws, hlt⟩

theorem Ledger.getHeader_extend_putSnapshot (l : Ledger D) (header : SnapshotHeader D) :
    (l.extend [.putSnapshot header]).store.getHeader (snapshotId header) = some header := by
  simp [store, Ledger.extend, Disk.apply, ContentStore.getHeader_putSnapshot]

/-- Every move leaves the last snapshot anchored. -/
theorem Ledger.Anchored.step {l l' : Ledger D} (ha : l.Anchored) (h : Ledger.Step l l') :
    l'.Anchored := by
  cases h with
  | calm hcalm =>
      cases hcalm with
      | quiet _ _ _ => exact ha.extend _
      | @move tip target seq e htip hanc hseq _ _ _ =>
          intro t ht
          obtain rfl := Option.some.inj ht
          obtain ⟨h, hc, hlt⟩ := ha tip htip
          obtain ⟨h', hc', hle⟩ := hc.ancestor hanc
          exact ⟨h', chain_extend hc' _, Nat.lt_of_le_of_lt hle hlt⟩
  | block data => exact ha.extend _
  | @commit header p hblock hparent hseq hbefore hafter =>
      intro tip htip
      obtain rfl := Option.some.inj htip
      have hid := l.getHeader_extend_putSnapshot header
      refine ⟨header, ?_, by simp [hseq]⟩
      cases hlast : l.lastSnapshot with
      | none => exact .root hid (hparent.trans hlast)
      | some parent =>
          obtain ⟨hp, hc, hlt⟩ := ha parent hlast
          exact .child hid (hparent.trans hlast) (chain_extend hc _) (by omega)
  | publish writer _ _ _ _ => exact ha.extend _
  | forget => exact ha
  | fail error => exact ha
  | raise => exact ha
  | terminate => exact ha
  | restore => exact ha

/-! ### Runs without failing accesses -/

namespace Actor

/-- The agent is reached by a run in which no access fails. -/
def Reachable (a : Actor D) : Prop :=
  ∃ (id : AgentId) (p : BuildParams) (memory : List UInt8) (world : World D)
    (events : List (Event D)), world.fault = (fun _ => false) ∧
    Machine.run step (Actor.new id p memory world) events = some a

/-- What holds in every run without failing accesses. -/
structure Sound (a : Actor D) : Prop where
  coherent : a.Coherent
  noFault : a.ledger.fault = fun _ => false
  anchored : a.ledger.Anchored

theorem Sound.step {a a' : Actor D} {ev : Event D} (hs : a.Sound) (h : a.step ev = some a') :
    a'.Sound := by
  have hcoh := step_coherent hs.coherent h
  rcases step_ledger hs.coherent h with hsteps | ⟨ws, _, _, _, _, _, hext⟩
  · have hframe := hsteps.invariant (P := fun l => l.fault = (fun _ => false) ∧ l.Anchored)
      (fun l l' hl hstep => ⟨hstep.frame.2.trans hl.1, hl.2.step hstep⟩)
      ⟨hs.noFault, hs.anchored⟩
    exact ⟨hcoh, hframe.1, hframe.2⟩
  · refine ⟨hcoh, ?_, ?_⟩
    · rw [hext]
      exact hs.noFault
    · rw [hext]
      exact hs.anchored.extend ws

theorem Reachable.sound {a : Actor D} (h : a.Reachable) : a.Sound := by
  obtain ⟨id, p, memory, world, events, hfault, hrun⟩ := h
  refine Machine.run_invariant (fun s ev s' hs hstep => Sound.step hs hstep) ?_ hrun
  exact ⟨coherent_of_phase (by simp [new]) (by simp [new]), hfault, fun tip htip => nomatch htip⟩

end Actor

/-! ### Appends and moves that fail -/

namespace Caller

omit [LinearOrder D] in
/-- An append whose access fails changes nothing. -/
theorem append_of_fault {c : Caller D} (hfault : c.world.fault c.world.ios = true)
    (writer : Writer) (e : LogEntry D) :
    (c.append writer e).1 = false ∧
      (c.append writer e).2 = { c with world := { c.world with ios := c.world.ios + 1 } } := by
  simp [append, write, World.write, hfault]

omit [LinearOrder D] in
theorem append_of_noFault {c : Caller D} (hfault : c.world.fault c.world.ios = false)
    (writer : Writer) (e : LogEntry D) :
    (c.append writer e).1 = true ∧
      (c.append writer e).2.world.writes = c.world.writes ++ [.append writer e] := by
  simp [append, write, World.write, hfault, setData]

omit [LinearOrder D] in
/-- The tip moves and the move is logged, if the append succeeds. -/
theorem moveTip_of_noFault {c : Caller D} (hfault : c.world.fault c.world.ios = false)
    (t : EmitType) (tip target : D) (nowMs nowUs : ℕ) (payload : List UInt8) :
    (c.moveTip t tip target nowMs nowUs payload).data.lastSnapshot = some target ∧
      (c.moveTip t tip target nowMs nowUs payload).world.writes = c.world.writes ++
        [.append .runtime (c.entry t c.data.seq nowMs nowUs tip target payload)] := by
  obtain ⟨hok, hwrites⟩ := append_of_noFault hfault .runtime
    (c.entry t c.data.seq nowMs nowUs tip target payload)
  simp only [moveTip, hok, if_true]
  exact ⟨rfl, hwrites⟩

omit [LinearOrder D] in
/-- If it fails, nothing changes. -/
theorem moveTip_of_fault {c : Caller D} (hfault : c.world.fault c.world.ios = true)
    (t : EmitType) (tip target : D) (nowMs nowUs : ℕ) (payload : List UInt8) :
    c.moveTip t tip target nowMs nowUs payload =
      { c with world := { c.world with ios := c.world.ios + 1 } } := by
  obtain ⟨hfailed, hsame⟩ := append_of_fault hfault .runtime
    (c.entry t c.data.seq nowMs nowUs tip target payload)
  simp only [moveTip, hfailed, Bool.false_eq_true, if_false]
  exact hsame

end Caller

/-! ### A rollback -/

namespace Actor

/-- The entries that were appended from one state to another. -/
def appended (a a' : Actor D) : List (LogEntry D) :=
  entriesOf (a'.ledger.writes.drop a.ledger.writes.length)

/-- What a rollback is for. The agent goes on, and no crash is logged. If an ancestor of the
last snapshot carries the target sequence number, it becomes the last snapshot, and one
`SchedulerRollback` from the old one to it is logged. If there is none, the last snapshot, the
capabilities and the cause handles stay, and none is logged. -/
structure RollbackTotal (a : Actor D) (order : List CapabilityId) (targetSeq : ℕ) : Prop where
  alive : (a.handle order (.rollback targetSeq)).phase = .idle
  noCrash : ∀ e ∈ a.appended (a.handle order (.rollback targetSeq)), ¬ e.HasType .agentCrash
  found : ∀ tip x, a.ledger.lastSnapshot = some tip → a.ledger.store.AncestorOrSelf tip x →
    a.ledger.store.HasSeq x targetSeq →
      (a.handle order (.rollback targetSeq)).ledger.lastSnapshot = some x ∧
      ∃ e, (a.appended (a.handle order (.rollback targetSeq))).filter
          (fun e => e.HasType .schedulerRollback) = [e] ∧
        e.hashBefore = tip ∧ e.hashAfter = x
  absent : (∀ tip x, a.ledger.lastSnapshot = some tip → a.ledger.store.AncestorOrSelf tip x →
      ¬ a.ledger.store.HasSeq x targetSeq) →
    (a.handle order (.rollback targetSeq)).ledger.lastSnapshot = a.ledger.lastSnapshot ∧
    (a.handle order (.rollback targetSeq)).caller.world.capStores = a.caller.world.capStores ∧
    (a.handle order (.rollback targetSeq)).caller.world.causeHandles =
      a.caller.world.causeHandles ∧
    ∀ e ∈ a.appended (a.handle order (.rollback targetSeq)), ¬ e.HasType .schedulerRollback

/-- The target is above everything the agent has committed, or on an ancestor of its last
snapshot. -/
def TargetOk (a : Actor D) (targetSeq : ℕ) : Prop :=
  a.ledger.lastSnapshot = none ∨ a.ledger.seq ≤ targetSeq ∨
    ∃ tip x, a.ledger.lastSnapshot = some tip ∧ a.ledger.store.AncestorOrSelf tip x ∧
      a.ledger.store.HasSeq x targetSeq

/-! ### What a rollback does -/

omit [LinearOrder D] [ContentHash D] in
theorem appended_of_writes {a a' : Actor D} {ws : List (Write D)}
    (h : a'.ledger.writes = a.ledger.writes ++ ws) : a.appended a' = entriesOf ws := by
  rw [appended, h, List.drop_left]

/-- A rollback of an agent without snapshots, or to a target above its history, does
nothing. -/
theorem handle_rollback_ignored {a : Actor D} {targetSeq : ℕ} (order : List CapabilityId)
    (h : a.ledger.lastSnapshot = none ∨ a.ledger.seq ≤ targetSeq) :
    a.handle order (.rollback targetSeq) = a := by
  have hignored : a.caller.rollback order targetSeq = (none, a.caller) := by
    simp only [Caller.rollback]
    split
    · rfl
    · rename_i tip htip
      rcases h with h | h
      · exact absurd (htip.symm.trans h) (by simp)
      · exact if_pos h
  simp only [handle, hignored]
  rfl

/-- Without failing accesses, the path of an agent is looked up in its store. -/
theorem rollbackPath_eq {a : Actor D} (hs : a.Sound) (tip : D) (targetSeq : ℕ) :
    (a.caller.rollbackPath tip targetSeq).1 =
      a.ledger.store.rollbackPath (fun _ => false) tip targetSeq := by
  have hfault : a.caller.world.fault = fun _ => false := hs.noFault
  simp only [Caller.rollbackPath, World.rollbackPath, hfault]
  rfl

/-- A rollback to a target in the history that no ancestor carries stops the agent. -/
theorem handle_rollback_lost {a : Actor D} (hs : a.Sound) (order : List CapabilityId) {tip : D}
    {targetSeq : ℕ} (hlast : a.ledger.lastSnapshot = some tip)
    (hlt : targetSeq < a.ledger.seq)
    (hnone : ∀ x, a.ledger.store.AncestorOrSelf tip x → ¬ a.ledger.store.HasSeq x targetSeq) :
    (a.handle order (.rollback targetSeq)).phase = .stopped := by
  obtain ⟨h, hc, -⟩ := hs.anchored tip hlast
  obtain ⟨e, herror⟩ := hc.rollbackPath_eq_error hnone
  have hlast' : a.caller.data.lastSnapshot = some tip := hlast
  have hseq : ¬ a.caller.data.seq ≤ targetSeq := Nat.not_le.mpr hlt
  have hcrash : (a.caller.rollback order targetSeq).1 = some .contentStoreBroken := by
    simp only [Caller.rollback, hlast', if_neg hseq, rollbackPath_eq hs, herror]
  simp only [handle, hcrash]
  rfl

omit [LinearOrder D] in
/-- Without failing accesses, a move of the tip logs its entry. -/
theorem ledger_moveTip {c : Caller D} (hfault : c.ledger.fault = fun _ => false)
    (t : EmitType) (tip target : D) (nowMs nowUs : ℕ) (payload : List UInt8) :
    (c.moveTip t tip target nowMs nowUs payload).ledger =
      { c.ledger.extend [.append .runtime (c.entry t c.data.seq nowMs nowUs tip target payload)]
        with lastSnapshot := some target } := by
  have hok : (c.append .runtime (c.entry t c.data.seq nowMs nowUs tip target payload)).1 =
      true := by
    have hworld : c.world.fault = fun _ => false := hfault
    simp [Caller.append, Caller.write, World.write, hworld]
  simp only [Caller.moveTip, hok, if_true]
  rw [← Caller.ledger_append_of_ok hok]
  rfl

/-- A rollback along a path moves the tip, logs it, and logs the agent as active. -/
theorem ledger_rollbackAlong {c : Caller D} (hfault : c.ledger.fault = fun _ => false)
    (order : List CapabilityId) (targetSeq : ℕ) (tip : D) (path : List D) :
    ∃ e ws, e.HasType .schedulerRollback ∧ e.hashBefore = tip ∧
      e.hashAfter = path.getLastD tip ∧ Caller.RuntimeEntries .lifecycle ws ∧
      (c.rollbackAlong order targetSeq tip path).ledger =
        { c.ledger.extend (.append .runtime e :: ws) with
          lastSnapshot := some (path.getLastD tip) } := by
  have hrevoke := Caller.revokeForTarget_ledger c.now.2.now.2 order (path.getLastD tip)
  simp only [Caller.rollbackAlong]
  generalize c.now.2.now.2.revokeForTarget order (path.getLastD tip) = r at hrevoke ⊢
  generalize Caller.rollbackPayload (path.length - 1) targetSeq r.1 = payload
  obtain ⟨ws, hws, hlife⟩ := Caller.logLifecycleEvent_writes (r.2.moveTip .schedulerRollback tip
    (path.getLastD tip) c.now.1 c.now.2.now.1 payload) .active
  refine ⟨r.2.entry .schedulerRollback r.2.data.seq c.now.1 c.now.2.now.1 tip
    (path.getLastD tip) payload, ws, ⟨_, rfl, rfl⟩, rfl, rfl, hlife, hws.trans ?_⟩
  rw [ledger_moveTip (by rw [hrevoke]; exact hfault), hrevoke]
  simp [Ledger.extend]

/-- An agent whose history ends below the target has no ancestor that carries it. -/
theorem Sound.not_hasSeq {a : Actor D} (hs : a.Sound) {targetSeq : ℕ}
    (h : a.ledger.lastSnapshot = none ∨ a.ledger.seq ≤ targetSeq) (tip x : D)
    (hlast : a.ledger.lastSnapshot = some tip) (hx : a.ledger.store.AncestorOrSelf tip x) :
    ¬ a.ledger.store.HasSeq x targetSeq := by
  intro hseq
  obtain ⟨header, hc, hlt⟩ := hs.anchored tip hlast
  have hle := hc.hasSeq_le hx hseq
  rcases h with h | h
  · exact absurd (hlast.symm.trans h) (by simp)
  · omega

theorem rollbackTotal_of_ignored {a : Actor D} (hs : a.Sound) (hidle : a.phase = .idle)
    (order : List CapabilityId) {targetSeq : ℕ}
    (h : a.ledger.lastSnapshot = none ∨ a.ledger.seq ≤ targetSeq) :
    a.RollbackTotal order targetSeq := by
  have hsame := handle_rollback_ignored order h
  have hnothing : a.appended a = [] := appended_of_writes (List.append_nil _).symm
  constructor
  · rw [hsame, hidle]
  · simp [hsame, hnothing]
  · intro tip x hlast hx hseq
    exact absurd hseq (hs.not_hasSeq h tip x hlast hx)
  · intro _
    simp [hsame, hnothing]

omit [LinearOrder D] [ContentHash D] in
/-- The entries of the writes of one type all have it. -/
theorem entriesOf_hasType {t : EmitType} {ws : List (Write D)}
    (h : Caller.RuntimeEntries t ws) : ∀ e ∈ entriesOf ws, e.HasType t := by
  intro e he
  obtain ⟨w, hw, hentry⟩ := List.mem_filterMap.mp he
  obtain ⟨e', rfl, ht⟩ := h w hw
  cases hentry
  exact ht

theorem rollbackTotal_of_found {a : Actor D} (hs : a.Sound) (hidle : a.phase = .idle)
    (order : List CapabilityId) {targetSeq : ℕ} {tip x : D}
    (hlast : a.ledger.lastSnapshot = some tip) (hlt : targetSeq < a.ledger.seq)
    (hx : a.ledger.store.AncestorOrSelf tip x) (hseq : a.ledger.store.HasSeq x targetSeq) :
    a.RollbackTotal order targetSeq := by
  obtain ⟨header, hc, -⟩ := hs.anchored tip hlast
  obtain ⟨path, y, hpath, hlastPath, hy, hyseq⟩ := hc.rollbackPath_eq_ok hx hseq
  obtain rfl : x = y := hc.ancestor_unique hx hy hseq hyseq
  have htarget : path.getLastD tip = x := by
    rw [List.getLastD_eq_getLast?, hlastPath]
    rfl
  have hsnap : a.caller.data.lastSnapshot = some tip := hlast
  have hbelow : ¬ a.caller.data.seq ≤ targetSeq := Nat.not_le.mpr hlt
  have hhandle : a.handle order (.rollback targetSeq) =
      a.setCaller ((a.caller.rollbackPath tip targetSeq).2.rollbackAlong order targetSeq tip
        path) := by
    simp only [handle, Caller.rollback, hsnap, if_neg hbelow, rollbackPath_eq hs, hpath]
  obtain ⟨e, ws, htype, hbefore, hafter, hlife, hledger⟩ :=
    ledger_rollbackAlong (c := (a.caller.rollbackPath tip targetSeq).2) hs.noFault order
      targetSeq tip path
  have hledger' : (a.handle order (.rollback targetSeq)).ledger =
      { a.ledger.extend (.append .runtime e :: ws) with
        lastSnapshot := some (path.getLastD tip) } := by
    rw [hhandle]
    exact hledger
  have happended : a.appended (a.handle order (.rollback targetSeq)) = e :: entriesOf ws :=
    appended_of_writes (congrArg Ledger.writes hledger')
  have hothers := entriesOf_hasType hlife
  constructor
  · rw [hhandle]
    exact hidle
  · rw [happended]
    intro e' he' hcrash
    rcases List.mem_cons.mp he' with rfl | he'
    · cases htype.unique hcrash
    · cases (hothers e' he').unique hcrash
  · intro tip' x' hlast' hx' hseq'
    obtain rfl := Option.some.inj (hlast.symm.trans hlast')
    obtain rfl : x = x' := hc.ancestor_unique hx hx' hseq hseq'
    refine ⟨?_, e, ?_, hbefore, hafter.trans htarget⟩
    · rw [hledger', htarget]
    · rw [happended, List.filter_cons_of_pos (by simpa using htype), List.cons.injEq]
      refine ⟨rfl, List.filter_eq_nil_iff.mpr fun e' he' hroll => ?_⟩
      cases (hothers e' he').unique (of_decide_eq_true hroll)
  · intro hnone
    exact absurd hseq (hnone tip x hlast hx)

/-- In every reachable state, a rollback does what it is for exactly if its target is outside
the history of the agent altogether or on an ancestor of its last snapshot. -/
theorem rollback_total_iff {a : Actor D} (hreach : a.Reachable) (hidle : a.phase = .idle)
    (order : List CapabilityId) (targetSeq : ℕ) :
    a.RollbackTotal order targetSeq ↔ a.TargetOk targetSeq := by
  have hs := hreach.sound
  constructor
  · intro htotal
    by_contra hbad
    simp only [TargetOk, not_or, not_exists, not_and, not_le] at hbad
    obtain ⟨hsome, hlt, hnone⟩ := hbad
    obtain ⟨tip, hlast⟩ := Option.ne_none_iff_exists'.mp hsome
    have hstopped := handle_rollback_lost hs order hlast hlt (hnone tip · hlast)
    exact absurd (htotal.alive.symm.trans hstopped) (by simp)
  · rintro (h | h | ⟨tip, x, hlast, hx, hseq⟩)
    · exact rollbackTotal_of_ignored hs hidle order (.inl h)
    · exact rollbackTotal_of_ignored hs hidle order (.inr h)
    · obtain ⟨header, hc, hlt⟩ := hs.anchored tip hlast
      have hle := hc.hasSeq_le hx hseq
      exact rollbackTotal_of_found hs hidle order hlast (by omega) hx hseq

/-- The header of the last snapshot. -/
def tipHeader (a : Actor D) : Option (SnapshotHeader D) :=
  a.ledger.lastSnapshot.bind a.ledger.store.getHeader

/-- Three commits and a rollback to the first of them. -/
def rolledBackRun : List (Event (List ℕ)) :=
  .start :: dataCycle [.commitBarrier] ++ dataCycle [.commitBarrier] ++
    dataCycle [.commitBarrier] ++ [.recv (.rollback 0) []]

/-- After it, the agent can be rolled back to its first commit again. -/
theorem rollback_total_after_rollback :
    ∃ a : Actor (List ℕ), a.Reachable ∧ a.phase = .idle ∧ a.RollbackTotal [] 0 := by
  have hrun : (Machine.run step sampleAgent rolledBackRun).any (fun a =>
      decide (a.phase = .idle) && a.tipHeader.any fun h => decide (h.seq = 0)) = true := by
    decide +kernel
  obtain ⟨a, ha, hcheck⟩ := (Option.any_eq_true _ _).mp hrun
  obtain ⟨hidle, hseq⟩ := Bool.and_eq_true_iff.mp hcheck
  obtain ⟨h, hh, hzero⟩ := (Option.any_eq_true _ _).mp hseq
  obtain ⟨tip, htip, hheader⟩ := Option.bind_eq_some_iff.mp hh
  have hreach : a.Reachable := ⟨_, _, _, _, rolledBackRun, rfl, ha⟩
  have hphase := of_decide_eq_true hidle
  refine ⟨a, hreach, hphase, (rollback_total_iff hreach hphase [] 0).mpr ?_⟩
  exact .inr (.inr ⟨tip, tip, htip, .refl, h, hheader, of_decide_eq_true hzero⟩)

/-- After it, a rollback to the third commit, which is below the sequence number of the agent,
crashes the agent. -/
theorem rollback_after_rollback_crashes :
    ∃ a : Actor (List ℕ), a.Reachable ∧ a.phase = .idle ∧ a.pendingMsg = none ∧
      2 < a.ledger.seq ∧ ¬ a.RollbackTotal [] 2 := by
  have hrun : (Machine.run step sampleAgent rolledBackRun).any (fun a =>
      decide (a.phase = .idle ∧ a.pendingMsg = none ∧ 2 < a.ledger.seq ∧
        (a.handle [] (.rollback 2)).phase = .stopped)) = true := by
    decide +kernel
  obtain ⟨a, ha, hcheck⟩ := (Option.any_eq_true _ _).mp hrun
  obtain ⟨hidle, hpending, hseq, hstopped⟩ := of_decide_eq_true hcheck
  refine ⟨a, ⟨_, _, _, _, rolledBackRun, rfl, ha⟩, hidle, hpending, hseq, fun htotal => ?_⟩
  exact absurd (htotal.alive.symm.trans hstopped) (by simp)

end Actor

end Torpor
