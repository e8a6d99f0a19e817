import Torpor.Actor.RunLoop

/-!
# What an Agent Does to the Databases

The elementary moves of an agent on the two databases and on the variables that refer to them
(`Ledger`): an entry that leaves the snapshot where it is, a commit, the entry of a commit, a
move of the tip to an ancestor. Every step of `run_loop` is a sequence of such moves
(`Actor.step_ledger`), so that what the moves preserve holds in every run.

## Main results

* `Ledger.Step`: the elementary moves.
* `Caller.host_steps`: every host function is a sequence of moves.
* `Actor.step_ledger`: so is every step of an agent.
-/

namespace Torpor

open ContentHash Relation

variable {D : Type}

/-- The journal, the accesses that fail, and what an agent keeps that refers to the journal. -/
structure Ledger (D : Type) where
  id : AgentId
  fault : ℕ → Bool
  writes : List (Write D)
  lastSnapshot : Option D
  seq : ℕ
  pendingCommit : Option (PendingCommit D)
  hostError : Option String
  terminationRequested : Bool

/-- The ledger of a caller. -/
def Caller.ledger (c : Caller D) : Ledger D :=
  { id := c.data.id
    fault := c.world.fault
    writes := c.world.writes
    lastSnapshot := c.data.lastSnapshot
    seq := c.data.seq
    pendingCommit := c.data.pendingCommit
    hostError := c.data.hostError
    terminationRequested := c.data.terminationRequested }

/-- The ledger of an agent. -/
def Actor.ledger (a : Actor D) : Ledger D := a.caller.ledger

/-- The ledger with further writes. -/
def Ledger.extend (l : Ledger D) (ws : List (Write D)) : Ledger D :=
  { l with writes := l.writes ++ ws }

@[simp] theorem Ledger.extend_nil (l : Ledger D) : l.extend [] = l := by
  simp [extend]

theorem Ledger.extend_extend (l : Ledger D) (ws ws' : List (Write D)) :
    (l.extend ws).extend ws' = l.extend (ws ++ ws') := by
  simp [extend]

section

variable [LinearOrder D] [ContentHash D]

/-- The content store of a ledger. -/
def Ledger.store (l : Ledger D) : ContentStore D := (Disk.replay l.writes).store

/-- The digest of the last snapshot, zero if there is none. -/
def Ledger.tipHash (l : Ledger D) : D := l.lastSnapshot.getD zero

/-- The moves that have nothing to do with commits: an entry that leaves the snapshot where it
is, and a move of the tip to an ancestor. -/
inductive Ledger.Calm : Ledger D → Ledger D → Prop
  | quiet {l : Ledger D} {e : LogEntry D} : e.agentId = l.id → e.hashBefore = l.tipHash →
      e.hashAfter = l.tipHash → Calm l (l.extend [.append .runtime e])
  | move {l : Ledger D} {tip target : D} {seq : ℕ} {e : LogEntry D} :
      l.lastSnapshot = some tip → l.store.AncestorOrSelf tip target →
      l.store.HasSeq target seq → e.agentId = l.id → e.hashBefore = tip →
      e.hashAfter = target →
      Calm l { l.extend [.append .runtime e] with lastSnapshot := some target }

/-- The elementary moves of an agent. -/
inductive Ledger.Step : Ledger D → Ledger D → Prop
  | calm {l l' : Ledger D} : Ledger.Calm l l' → Step l l'
  | block {l : Ledger D} (data : List UInt8) : Step l (l.extend [.putBlock data])
  | commit {l : Ledger D} {header : SnapshotHeader D} {p : PendingCommit D} :
      (l.store.getBlock header.dataHash).isSome → header.parent = l.lastSnapshot →
      header.seq = l.seq → p.hashBefore = l.tipHash → p.hashAfter = snapshotId header →
      Step l { l.extend [.putSnapshot header] with
        lastSnapshot := some (snapshotId header)
        seq := l.seq + 1
        pendingCommit := some p }
  | publish {l : Ledger D} {p : PendingCommit D} {e : LogEntry D} (writer : Writer) :
      l.pendingCommit = some p → e.agentId = l.id → e.hashBefore = p.hashBefore →
      e.hashAfter = p.hashAfter → e.parentIds = p.parentIds →
      Step l { l.extend [.append writer e] with pendingCommit := none }
  | forget {l : Ledger D} : Step l { l with pendingCommit := none }
  | fail {l : Ledger D} (error : String) : Step l { l with hostError := some error }
  | raise {l : Ledger D} : Step l { l with hostError := none }
  | terminate {l : Ledger D} : Step l { l with terminationRequested := true }
  | restore {l : Ledger D} : Step l { l with
      pendingCommit := none, hostError := none, terminationRequested := false }

/-- Any number of moves that have nothing to do with commits. -/
abbrev Ledger.Calms : Ledger D → Ledger D → Prop := ReflTransGen Ledger.Calm

/-- Any number of elementary moves. -/
abbrev Ledger.Steps : Ledger D → Ledger D → Prop := ReflTransGen Ledger.Step

theorem Ledger.Calms.steps {l l' : Ledger D} (h : Ledger.Calms l l') : Ledger.Steps l l' := by
  induction h with
  | refl => exact .refl
  | tail _ hlast ih => exact ih.tail (.calm hlast)

/-- Calm moves leave the sequence number, the commit in progress and the flags alone. -/
theorem Ledger.Calms.frame {l l' : Ledger D} (h : Ledger.Calms l l') :
    l'.seq = l.seq ∧ l'.pendingCommit = l.pendingCommit ∧ l'.hostError = l.hostError ∧
      l'.terminationRequested = l.terminationRequested := by
  induction h with
  | refl => exact ⟨rfl, rfl, rfl, rfl⟩
  | tail _ hlast ih => cases hlast <;> exact ih

/-- A move changes neither the agent nor which accesses fail. -/
theorem Ledger.Step.frame {l l' : Ledger D} (h : Ledger.Step l l') :
    l'.id = l.id ∧ l'.fault = l.fault := by
  cases h with
  | calm hcalm => cases hcalm <;> exact ⟨rfl, rfl⟩
  | _ => exact ⟨rfl, rfl⟩

/-- The writes that a move adds. -/
theorem Ledger.Step.exists_writes {l l' : Ledger D} (h : Ledger.Step l l') :
    ∃ ws, l'.writes = l.writes ++ ws := by
  cases h with
  | calm hcalm =>
      cases hcalm with
      | quiet _ _ _ => exact ⟨_, rfl⟩
      | move _ _ _ _ _ _ => exact ⟨_, rfl⟩
  | block data => exact ⟨_, rfl⟩
  | commit _ _ _ _ _ => exact ⟨_, rfl⟩
  | publish writer _ _ _ _ _ => exact ⟨_, rfl⟩
  | _ => exact ⟨[], (List.append_nil _).symm⟩

/-- A move does not take the sequence number back. -/
theorem Ledger.Step.seq_le {l l' : Ledger D} (h : Ledger.Step l l') : l.seq ≤ l'.seq := by
  cases h with
  | calm hcalm => cases hcalm <;> exact Nat.le_refl _
  | commit _ _ _ _ _ => exact Nat.le_succ _
  | _ => exact Nat.le_refl _

/-- A block that was just written is present. -/
theorem Ledger.getBlock_extend_putBlock (l : Ledger D) (data : List UInt8) :
    (l.extend [.putBlock data]).store.getBlock (dataHash data) = some data := by
  simp [store, extend, Disk.apply, ContentStore.getBlock_putBlock]

/-- A property that every move preserves holds after any number of them. -/
theorem Ledger.Steps.invariant {P : Ledger D → Prop}
    (hstep : ∀ l l', P l → Ledger.Step l l' → P l') {l l' : Ledger D} (h : Ledger.Steps l l')
    (hl : P l) : P l' := by
  induction h with
  | refl => exact hl
  | tail _ hlast ih => exact hstep _ _ ih hlast

/-- Moves only add to the journal. -/
theorem Ledger.Steps.exists_writes {l l' : Ledger D} (h : Ledger.Steps l l') :
    ∃ ws, l'.writes = l.writes ++ ws := by
  induction h with
  | refl => exact ⟨[], (List.append_nil _).symm⟩
  | tail _ hlast ih =>
      obtain ⟨ws, hws⟩ := ih
      obtain ⟨ws', hws'⟩ := hlast.exists_writes
      exact ⟨ws ++ ws', by rw [hws', hws, List.append_assoc]⟩

end

/-- The call has nothing to do with commits, nor with the termination of the agent. -/
def HostCall.calm : HostCall → Bool
  | .commitBarrier => false
  | .emit _ _ _ => false
  | .agentTerminate => false
  | _ => true

namespace Caller

/-! ### Appends -/

@[simp] theorem ledger_now (c : Caller D) : c.now.2.ledger = c.ledger := rfl

variable [ContentHash D]

omit [ContentHash D] in
@[simp] theorem write_data (c : Caller D) (x : Write D) : (c.write x).2.data = c.data := rfl

omit [ContentHash D] in
/-- A write that succeeds extends the journal. -/
theorem ledger_write_of_ok {c : Caller D} {x : Write D} (hok : (c.write x).1 = true) :
    (c.write x).2.ledger = c.ledger.extend [x] := by
  simp only [write, World.write] at hok ⊢
  split_ifs at hok ⊢
  rfl

omit [ContentHash D] in
/-- A write that fails does nothing. -/
theorem ledger_write_of_failed {c : Caller D} {x : Write D} (hfailed : (c.write x).1 = false) :
    (c.write x).2.ledger = c.ledger := by
  simp only [write, World.write] at hfailed ⊢
  split_ifs at hfailed ⊢
  rfl

/-- An append does to the ledger what its write does. -/
theorem ledger_append (c : Caller D) (writer : Writer) (e : LogEntry D) :
    (c.append writer e).2.ledger = (c.write (.append writer e)).2.ledger := by
  simp only [append]
  split <;> rfl

/-- An append is one access, and changes nothing about which accesses fail. -/
theorem append_ios (c : Caller D) (writer : Writer) (e : LogEntry D) :
    (c.append writer e).2.world.ios = c.world.ios + 1 := by
  cases hfault : c.world.fault c.world.ios with
  | true => simp [append, write, World.write, hfault]
  | false => simp [append, write, World.write, hfault, setData]

theorem append_fault (c : Caller D) (writer : Writer) (e : LogEntry D) :
    (c.append writer e).2.world.fault = c.world.fault := by
  cases hfault : c.world.fault c.world.ios with
  | true => simp [append, write, World.write, hfault]
  | false => simp [append, write, World.write, hfault, setData]

@[simp] theorem tipHash_append (c : Caller D) (writer : Writer) (e : LogEntry D) :
    (c.append writer e).2.tipHash = c.tipHash := by
  simp only [append]
  split <;> rfl

theorem ledger_append_of_ok {c : Caller D} {writer : Writer} {e : LogEntry D}
    (hok : (c.append writer e).1 = true) :
    (c.append writer e).2.ledger = c.ledger.extend [.append writer e] :=
  (ledger_append c writer e).trans (ledger_write_of_ok hok)

theorem ledger_append_of_failed {c : Caller D} {writer : Writer} {e : LogEntry D}
    (hfailed : (c.append writer e).1 = false) : (c.append writer e).2.ledger = c.ledger :=
  (ledger_append c writer e).trans (ledger_write_of_failed hfailed)

variable [LinearOrder D]

omit [LinearOrder D] in
@[simp] theorem ledger_tipHash (c : Caller D) : c.ledger.tipHash = c.tipHash := rfl

/-- An append of an entry that stays at the tip is at most one move. -/
theorem append_calm {l : Ledger D} {c : Caller D} {e : LogEntry D} (hl : l = c.ledger)
    (hid : e.agentId = l.id) (hbefore : e.hashBefore = l.tipHash)
    (hafter : e.hashAfter = l.tipHash) :
    Ledger.Calms l (c.append .runtime e).2.ledger := by
  cases hok : (c.append .runtime e).1 with
  | true =>
      rw [ledger_append_of_ok hok, ← hl]
      exact .single (.quiet hid hbefore hafter)
  | false => rw [ledger_append_of_failed hok, ← hl]

theorem logQuiet_calm (c : Caller D) (t : EmitType) (payload : List UInt8) :
    Ledger.Calms c.ledger (c.logQuiet t payload).2.ledger :=
  append_calm rfl rfl rfl rfl

theorem logLifecycleEvent_calm (c : Caller D) (s : LifecycleState) :
    Ledger.Calms c.ledger (c.logLifecycleEvent s).ledger := by
  simp only [logLifecycleEvent]
  split_ifs
  · exact .refl
  · exact logQuiet_calm (c.setData fun d => { d with lifecycle := s }) _ _
  · exact logQuiet_calm (c.setData fun d => { d with lifecycle := s }) _ _

omit [LinearOrder D] in
@[simp] theorem tipHash_logLifecycleEvent (c : Caller D) (s : LifecycleState) :
    (c.logLifecycleEvent s).tipHash = c.tipHash := by
  simp only [logLifecycleEvent, logQuiet]
  split_ifs
  · rfl
  · rw [tipHash_append]
    rfl
  · rw [tipHash_append]
    rfl

theorem logAgentCrash_calm (c : Caller D) (cause : CrashCause) :
    Ledger.Calms c.ledger (c.logAgentCrash cause).ledger :=
  logQuiet_calm c _ _

theorem recordValidationResponse_calm (c : Caller D) (verdict : ValidationVerdict) :
    Ledger.Calms c.ledger (c.recordValidationResponse verdict).ledger := by
  simp only [recordValidationResponse]
  split_ifs
  · exact .refl
  · exact (logQuiet_calm (c.setData fun s => { s with lastVerdict := some verdict }) _ _).trans
      (logLifecycleEvent_calm _ _)

theorem logSessionBoundary_calm (c : Caller D) :
    Ledger.Calms c.ledger c.logSessionBoundary.ledger := by
  refine ReflTransGen.trans ?_ (logLifecycleEvent_calm _ _)
  exact logQuiet_calm c _ _

theorem emitCapDenied_calm (c : Caller D) (capId : UInt64) (resource : List Char)
    (permFlags : UInt8) :
    Ledger.Calms c.ledger (c.emitCapDenied capId resource permFlags).ledger := by
  obtain ⟨limiter, -, heq | ⟨nowMs, nowUs, payload, heq⟩⟩ :=
    c.emitCapDenied_cases capId resource permFlags
  · rw [heq]
    exact .refl
  · have hledger : (c.limited limiter).ledger = c.ledger := rfl
    rw [heq, ← hledger]
    generalize c.limited limiter = c
    exact append_calm rfl rfl rfl rfl

/-! ### What logging changes in the state of the agent -/

section

omit [LinearOrder D]

theorem append_data (c : Caller D) (writer : Writer) (e : LogEntry D) :
    (c.append writer e).2.data =
      { c.data with lastAction := (c.append writer e).2.data.lastAction } := by
  simp only [append]
  split <;> rfl

theorem logQuiet_data (c : Caller D) (t : EmitType) (payload : List UInt8) :
    (c.logQuiet t payload).2.data =
      { c.data with
        lastAction := (c.logQuiet t payload).2.data.lastAction
        reads := (c.logQuiet t payload).2.data.reads } := by
  simp only [logQuiet, append]
  split <;> rfl

/-- A logged transition enters the new state, except that nothing leaves `Terminated`. -/
theorem logLifecycleEvent_data (c : Caller D) (s : LifecycleState) :
    (c.logLifecycleEvent s).data =
      { c.data with
        lifecycle := if c.data.lifecycle = .terminated then .terminated else s
        lastAction := (c.logLifecycleEvent s).data.lastAction
        reads := (c.logLifecycleEvent s).data.reads } := by
  by_cases hterm : c.data.lifecycle = .terminated
  · by_cases hs : s = .terminated
    · subst hs
      simp only [logLifecycleEvent, hterm, ne_eq, not_true_eq_false, and_false, if_false, if_true]
      exact logQuiet_data (c.setData fun d => { d with lifecycle := .terminated }) _ _
    · simp only [logLifecycleEvent, hterm, ne_eq, hs, not_false_eq_true, and_self, if_true]
      rw [← hterm]
  · simp only [logLifecycleEvent, hterm, false_and, if_false]
    exact logQuiet_data (c.setData fun d => { d with lifecycle := s }) _ _

theorem logLifecycleEvent_lifecycle (c : Caller D) (s : LifecycleState) :
    (c.logLifecycleEvent s).data.lifecycle =
      if c.data.lifecycle = .terminated then .terminated else s :=
  congrArg AgentState.lifecycle (logLifecycleEvent_data c s)

end

/-! ### Types of entries -/

omit [LinearOrder D] in
/-- Writes that are entries of the runtime of one type. -/
def RuntimeEntries (t : EmitType) (ws : List (Write D)) : Prop :=
  ∀ w ∈ ws, ∃ e, w = .append .runtime e ∧ e.HasType t

omit [LinearOrder D] in
theorem logQuiet_fst (c : Caller D) (t : EmitType) (payload : List UInt8) :
    (c.logQuiet t payload).1 = !c.world.fault c.world.ios := by
  cases hfault : c.world.fault c.world.ios <;>
    simp [logQuiet, append, write, World.write, now, hfault]

omit [LinearOrder D] in
/-- An emission that can be logged is logged. -/
theorem ledger_logQuiet_of_ok (c : Caller D) (t : EmitType) (payload : List UInt8)
    (hok : c.world.fault c.world.ios = false) :
    ∃ e, e.HasType t ∧ e.agentId = c.ledger.id ∧
      (c.logQuiet t payload).2.ledger = c.ledger.extend [.append .runtime e] := by
  have hlogged : (c.logQuiet t payload).1 = true := by
    rw [logQuiet_fst, hok]
    rfl
  exact ⟨_, ⟨_, rfl, rfl⟩, rfl, ledger_append_of_ok hlogged⟩

omit [LinearOrder D] in
/-- An emission that cannot be logged is not. -/
theorem ledger_logQuiet_of_failed (c : Caller D) (t : EmitType) (payload : List UInt8)
    (hfault : c.world.fault c.world.ios = true) :
    (c.logQuiet t payload).2.ledger = c.ledger := by
  have hfailed : (c.logQuiet t payload).1 = false := by
    rw [logQuiet_fst, hfault]
    rfl
  exact ledger_append_of_failed hfailed

omit [LinearOrder D] in
theorem logQuiet_writes (c : Caller D) (t : EmitType) (payload : List UInt8) :
    ∃ ws, (c.logQuiet t payload).2.ledger = c.ledger.extend ws ∧ RuntimeEntries t ws := by
  cases hfault : c.world.fault c.world.ios with
  | false =>
      obtain ⟨e, htype, -, hledger⟩ := ledger_logQuiet_of_ok c t payload hfault
      refine ⟨_, hledger, fun w hw => ⟨e, List.mem_singleton.mp hw, htype⟩⟩
  | true =>
      refine ⟨[], ?_, by simp [RuntimeEntries]⟩
      rw [ledger_logQuiet_of_failed c t payload hfault, Ledger.extend_nil]

omit [LinearOrder D] in
/-- A change of the lifecycle adds at most its own entry. -/
theorem logLifecycleEvent_writes (c : Caller D) (s : LifecycleState) :
    ∃ ws, (c.logLifecycleEvent s).ledger = c.ledger.extend ws ∧
      RuntimeEntries .lifecycle ws := by
  simp only [logLifecycleEvent]
  split_ifs
  · exact ⟨[], (Ledger.extend_nil _).symm, by simp [RuntimeEntries]⟩
  · exact logQuiet_writes (c.setData fun d => { d with lifecycle := s }) _ _
  · exact logQuiet_writes (c.setData fun d => { d with lifecycle := s }) _ _

/-! ### Host functions -/

omit [LinearOrder D] in
theorem ledger_recordCommit (c : Caller D) (snapId : D) (nowMs : ℕ) :
    ∃ p : PendingCommit D, p.hashBefore = c.tipHash ∧ p.hashAfter = snapId ∧
      (c.recordCommit snapId nowMs).ledger = { c.ledger with
        lastSnapshot := some snapId, seq := c.ledger.seq + 1, pendingCommit := some p } :=
  ⟨_, rfl, rfl, rfl⟩

/-- The header of a commit whose block is present. -/
theorem commitSnapshot_steps {c : Caller D} {nowUs nowMs : ℕ}
    (hblock : (c.ledger.store.getBlock (dataHash c.stateBytes)).isSome)
    (hok : (c.write (.putSnapshot (c.commitHeader nowUs))).1 = true) :
    Ledger.Step c.ledger ((c.write (.putSnapshot (c.commitHeader nowUs))).2.recordCommit
      (snapshotId (c.commitHeader nowUs)) nowMs).ledger := by
  obtain ⟨p, hbefore, hafter, hledger⟩ := ledger_recordCommit
    (c.write (.putSnapshot (c.commitHeader nowUs))).2 (snapshotId (c.commitHeader nowUs)) nowMs
  rw [hledger, ledger_write_of_ok hok]
  exact .commit hblock rfl rfl hbefore hafter

/-- A commit writes the block, then the header; an access that fails ends it. -/
theorem commitBarrier_steps (c : Caller D) :
    Ledger.Steps c.ledger c.commitBarrier.ledger := by
  simp only [commitBarrier, Bool.not_eq_true']
  split_ifs with hterm hput hsnap
  · exact .refl
  · rw [← ledger_now c, ← ledger_now c.now.2, ← ledger_write_of_failed hput]
    exact .single (.fail _)
  all_goals
    have hok : (c.now.2.now.2.write (.putBlock c.now.2.now.2.stateBytes)).1 = true := by
      simpa using hput
    have hblock := ledger_write_of_ok hok
    have hsteps : Ledger.Steps c.ledger
        (c.now.2.now.2.write (.putBlock c.now.2.now.2.stateBytes)).2.ledger := by
      rw [hblock]
      exact .single (.block _)
  · refine hsteps.trans ?_
    rw [← ledger_write_of_failed hsnap]
    exact .single (.fail _)
  · refine hsteps.tail (commitSnapshot_steps ?_ (by simpa using hsnap))
    rw [hblock]
    exact Option.isSome_iff_exists.mpr ⟨_, Ledger.getBlock_extend_putBlock _ _⟩

theorem agentAddCause_ledger (c : Caller D) (actionIdPtr : Int32) :
    (c.agentAddCause actionIdPtr).2.ledger = c.ledger := by
  simp only [agentAddCause]
  split_ifs <;> try rfl
  split
  · rfl
  · split_ifs <;> rfl

theorem agentCheckpoint_calm (c : Caller D) :
    Ledger.Calms c.ledger c.agentCheckpoint.2.ledger := by
  simp only [agentCheckpoint]
  split_ifs
  · exact .refl
  · exact logLifecycleEvent_calm c _

theorem agentTerminate_steps (c : Caller D) :
    Ledger.Steps c.ledger c.agentTerminate.ledger := by
  have hterminate : Ledger.Step c.ledger { c.ledger with terminationRequested := true } :=
    .terminate
  have hlogged := logLifecycleEvent_calm
    (c.setData fun s => { s with terminationRequested := true }) .terminated
  exact ReflTransGen.head hterminate hlogged.steps

/-- A move of the tip happens only together with its entry. -/
theorem moveTip_calm {l : Ledger D} {c : Caller D} {t : EmitType} {tip target : D}
    {seq nowMs nowUs : ℕ} {payload : List UInt8} (hl : l = c.ledger)
    (htip : l.lastSnapshot = some tip) (hanc : l.store.AncestorOrSelf tip target)
    (hseq : l.store.HasSeq target seq) :
    Ledger.Calms l (c.moveTip t tip target nowMs nowUs payload).ledger := by
  subst hl
  simp only [moveTip]
  split_ifs with hok
  · have hmove : Ledger.Calm c.ledger { c.ledger.extend [.append .runtime
        (c.entry t c.data.seq nowMs nowUs tip target payload)] with
          lastSnapshot := some target } :=
      .move htip hanc hseq rfl rfl rfl
    rw [← ledger_append_of_ok hok] at hmove
    exact .single hmove
  · rw [ledger_append_of_failed (by simpa using hok)]

/-- A path leads from the tip to an ancestor at the target. -/
theorem rollbackPath_ok {c : Caller D} {tip : D} {targetSeq : ℕ} {path : List D}
    (h : (c.rollbackPath tip targetSeq).1 = .ok path) :
    c.ledger.store.AncestorOrSelf tip (path.getLastD tip) ∧
      c.ledger.store.HasSeq (path.getLastD tip) targetSeq := by
  obtain ⟨x, hlast, hanc, hseq⟩ := ContentStore.walk_eq_ok h
  rw [List.getLastD_eq_getLast?, hlast]
  exact ⟨hanc, hseq⟩

theorem agentSelfRollback_calm (c : Caller D) (depth : Int32) :
    Ledger.Calms c.ledger (c.agentSelfRollback depth).2.ledger := by
  rcases c.agentSelfRollback_cases depth with
    h | ⟨tip, targetSeq, htip, h | ⟨path, nowMs, nowUs, payload, hpath, h⟩⟩
  · rw [h]
  · rw [h]
    exact .refl
  · rw [h]
    obtain ⟨hanc, hseq⟩ := rollbackPath_ok hpath
    exact moveTip_calm rfl htip hanc hseq

theorem agentRequestValidation_calm (c : Caller D) (riskLevel : Int32) :
    Ledger.Calms c.ledger (c.agentRequestValidation riskLevel).2.ledger := by
  have hquiet := logQuiet_calm c .validationRequest [UInt8.ofNat (usize riskLevel)]
  simp only [agentRequestValidation]
  split_ifs
  · exact .refl
  · exact .refl
  · exact hquiet
  · exact hquiet

theorem agentStoreGet_calm (c : Caller D) (resourcePtr resourceLen : Int32) (capId : UInt64)
    (outPtr : Int32) :
    Ledger.Calms c.ledger (c.agentStoreGet resourcePtr resourceLen capId outPtr).2.ledger := by
  rcases c.agentStoreGet_cases resourcePtr resourceLen capId outPtr with
    ⟨memory, h⟩ | ⟨resource, -, -, h⟩
  · rw [h]
    exact .refl
  · rw [h]
    exact emitCapDenied_calm c _ _ _

theorem agentStorePut_calm (c : Caller D) (resourcePtr resourceLen : Int32) (capId : UInt64)
    (valPtr valLen : Int32) :
    Ledger.Calms c.ledger
      (c.agentStorePut resourcePtr resourceLen capId valPtr valLen).2.ledger := by
  rcases c.agentStorePut_cases resourcePtr resourceLen capId valPtr valLen with
    h | ⟨resource, value, -, h | ⟨-, h⟩⟩
  · rw [h]
  · rw [h]
    exact .refl
  · rw [h]
    exact emitCapDenied_calm c _ _ _

omit [ContentHash D] [LinearOrder D] in
theorem writeOut_ledger (c : Caller D) (outPtr outMaxLen : Int32) (buf : List UInt8) :
    (c.writeOut outPtr outMaxLen buf).2.ledger = c.ledger := by
  obtain ⟨memory, h⟩ := c.writeOut_memory outPtr outMaxLen buf
  rw [h]
  rfl

/-- The record of a commit is published, or dropped when the payload or the append fails. -/
theorem publish_steps {l : Ledger D} {c c' : Caller D} {p : PendingCommit D} {writer : Writer}
    {payload : Option EmitEnvelope} (hl : c.ledger = { l with pendingCommit := none })
    (hid : c'.data.id = l.id) (hp : l.pendingCommit = some p) :
    Ledger.Steps l (c.append writer (c'.commitEntry p payload)).2.ledger := by
  cases hok : (c.append writer (c'.commitEntry p payload)).1 with
  | true =>
      rw [ledger_append_of_ok hok, hl]
      exact .single (.publish writer hp hid rfl rfl rfl)
  | false =>
      rw [ledger_append_of_failed hok, hl]
      exact .single .forget

theorem emit_steps (c : Caller D) (emitType ptr len : Int32) :
    Ledger.Steps c.ledger (c.emit emitType ptr len).ledger := by
  simp only [emit]
  split
  · exact .refl
  · split
    · exact .refl
    · split
      · exact .single (.fail _)
      · rename_i p hp
        split
        · exact (ReflTransGen.single .forget).tail (.fail _)
        · split
          · exact publish_steps rfl rfl hp
          · exact (publish_steps rfl rfl hp).tail (.fail _)

omit [LinearOrder D] [ContentHash D] in
theorem inferRefused_ledger (c : Caller D) (promptPtr promptLen responseLenOutPtr : Int32) :
    (c.inferRefused promptPtr promptLen responseLenOutPtr).ledger = c.ledger := by
  obtain ⟨memory, h⟩ := c.inferRefused_memory promptPtr promptLen responseLenOutPtr
  rw [h]
  rfl

/-- The answer of the backend, for a call that took the hash of the tip when it started. -/
theorem agentInferFinish_calm {c : Caller D} {call : InferCall D}
    (hcall : call.hashBefore = c.tipHash) (result : Except InferError InferResponse)
    (durationMs : ℕ) :
    Ledger.Calms c.ledger (c.agentInferFinish call result durationMs).2.ledger := by
  have hrequest : Ledger.Calms c.ledger
      (c.now.2.logInferenceRequest call (slotInfoOf result)).ledger :=
    append_calm rfl rfl hcall hcall
  have htip : c.now.2.tipHash =
      (c.now.2.logInferenceRequest call (slotInfoOf result)).tipHash :=
    (tipHash_append c.now.2 .runtime _).symm
  refine ReflTransGen.trans ?_ (logLifecycleEvent_calm _ _)
  exact hrequest.trans (append_calm rfl rfl htip htip)

/-- Such calls are sequences of calm moves. -/
theorem host_calm (c : Caller D) {call : HostCall} (hcalm : call.calm = true) :
    Ledger.Calms c.ledger (c.host call).2.ledger := by
  cases call with
  | commitBarrier => cases hcalm
  | emit emitType ptr len => cases hcalm
  | agentTerminate => cases hcalm
  | agentAddCause actionIdPtr => rw [host, agentAddCause_ledger]
  | agentCheckpoint => exact agentCheckpoint_calm c
  | agentIntrospect outPtr outMaxLen => rw [host, agentIntrospect, writeOut_ledger]
  | agentSelfRollback depth => exact agentSelfRollback_calm c depth
  | agentSessionInfo outPtr outMaxLen => rw [host, agentSessionInfo, writeOut_ledger]
  | agentRequestValidation riskLevel => exact agentRequestValidation_calm c riskLevel
  | agentGetVerdict => exact .refl
  | agentCheckCap capId resourcePtr resourceLen permFlags => exact .refl
  | agentStoreGet resourcePtr resourceLen capId outPtr =>
      exact agentStoreGet_calm c resourcePtr resourceLen capId outPtr
  | agentStorePut resourcePtr resourceLen capId valPtr valLen =>
      exact agentStorePut_calm c resourcePtr resourceLen capId valPtr valLen
  | agentInfer promptPtr promptLen responseBufPtr responseBufCap responseLenOutPtr
      timeoutMsReq =>
      rw [host]
      split_ifs
      · exact logLifecycleEvent_calm c.now.2 _
      · rw [inferRefused_ledger]

/-- Every host function is a sequence of moves. -/
theorem host_steps (c : Caller D) (call : HostCall) :
    Ledger.Steps c.ledger (c.host call).2.ledger := by
  cases hcalm : call.calm with
  | true => exact (host_calm c hcalm).steps
  | false =>
      cases call with
      | commitBarrier => exact commitBarrier_steps c
      | emit emitType ptr len => exact emit_steps c emitType ptr len
      | agentTerminate => exact agentTerminate_steps c
      | _ => cases hcalm

/-! ### The lifecycle of a terminated agent -/

section

omit [LinearOrder D]

theorem logSessionBoundary_terminated {c : Caller D} (h : c.data.lifecycle = .terminated) :
    c.logSessionBoundary.data.lifecycle = .terminated := by
  have hquiet := congrArg AgentState.lifecycle (logQuiet_data c .sessionBoundary
    (leBytes 8 c.data.sessionId ++ leBytes 8 (c.data.seq - c.data.sessionStartSeq)))
  simp only [logSessionBoundary, logLifecycleEvent_lifecycle]
  exact if_pos (hquiet.trans h)

theorem checkSession_terminated {c : Caller D} (h : c.data.lifecycle = .terminated) :
    c.checkSession.data.lifecycle = .terminated := by
  simp only [checkSession]
  split_ifs
  · exact logSessionBoundary_terminated (c := c.now.2) h
  · exact h
  · exact logSessionBoundary_terminated h
  · exact h

theorem processEnd_terminated {c : Caller D} (h : c.data.lifecycle = .terminated) :
    c.processEnd.2.data.lifecycle = .terminated := by
  rcases c.processEnd_cases with ⟨error, -, hend⟩ | ⟨-, -, hend⟩ | ⟨-, p, -, hend⟩
  · rw [hend]
    exact h
  · rw [hend]
    exact checkSession_terminated h
  · have happend := congrArg AgentState.lifecycle
      (append_data c.takePending .runtime (c.commitEntry p none))
    rcases hend with ⟨-, hend⟩ | ⟨-, hend⟩
    · rw [hend]
      exact checkSession_terminated (happend.trans h)
    · rw [hend]
      exact happend.trans h

end

/-! ### The loop -/

theorem checkSession_calm (c : Caller D) : Ledger.Calms c.ledger c.checkSession.ledger := by
  simp only [checkSession]
  split_ifs
  · exact logSessionBoundary_calm c.now.2
  · exact .refl
  · exact logSessionBoundary_calm c
  · exact .refl

theorem processEnd_steps (c : Caller D) : Ledger.Steps c.ledger c.processEnd.2.ledger := by
  rcases c.processEnd_cases with
    ⟨error, -, h⟩ | ⟨-, -, h⟩ | ⟨-, p, hp, ⟨-, h⟩ | ⟨-, h⟩⟩
  · rw [h]
    exact .single .raise
  · rw [h]
    exact (checkSession_calm c).steps
  · rw [h]
    refine ReflTransGen.trans ?_ (checkSession_calm _).steps
    exact publish_steps rfl rfl hp
  · rw [h]
    exact publish_steps rfl rfl hp

theorem revokeForTarget_ledger (c : Caller D) (order : List CapabilityId) (target : D) :
    (c.revokeForTarget order target).2.ledger = c.ledger := by
  simp only [revokeForTarget]
  split_ifs
  · rfl
  · split <;> rfl

theorem rollbackAlong_calm {l : Ledger D} {c : Caller D} {order : List CapabilityId}
    {targetSeq : ℕ} {tip : D} {path : List D} (hl : l = c.ledger)
    (htip : l.lastSnapshot = some tip)
    (hanc : l.store.AncestorOrSelf tip (path.getLastD tip))
    (hseq : l.store.HasSeq (path.getLastD tip) targetSeq) :
    Ledger.Calms l (c.rollbackAlong order targetSeq tip path).ledger := by
  simp only [rollbackAlong]
  refine ReflTransGen.trans ?_ (logLifecycleEvent_calm _ _)
  refine moveTip_calm ?_ htip hanc hseq
  rw [revokeForTarget_ledger, hl]
  rfl

theorem rollback_calm (c : Caller D) (order : List CapabilityId) (targetSeq : ℕ) :
    Ledger.Calms c.ledger (c.rollback order targetSeq).2.ledger := by
  rcases c.rollback_cases order targetSeq with h | ⟨tip, htip, h | ⟨path, hpath, h⟩⟩
  · rw [h]
  · rw [h]
    exact .refl
  · rw [h]
    obtain ⟨hanc, hseq⟩ := rollbackPath_ok hpath
    exact rollbackAlong_calm rfl htip hanc hseq

end Caller

end Torpor
