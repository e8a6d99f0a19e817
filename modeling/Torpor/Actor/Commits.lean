import Mathlib.Data.List.Infix
import Torpor.Actor.Rollback

/-!
# Commits and Their Entries

`commit_barrier` writes a snapshot and leaves a record of it in a single slot; the entry of the
commit is appended by `emit`, or at the end of the cycle if the slot is still full. A second
`commit_barrier` before the `emit` overwrites the record of the first, whose entry is then
never appended.

## Main results

* `Commit.Known`: what the databases know about a commit from then on.
* `Commit.Gone.steps`: once its record has left the slot, a commit gets no further entry.
* `commits_published_iff`: in a cycle that ends well, every commit has its entry exactly if
  none is followed by another one with neither `emit` nor `agent_terminate` between them.
* `second_barrier_loses_commit`: a cycle of two commits and one `emit`.
-/

namespace Torpor

open ContentHash

variable {D : Type}

/-! ### The entries of a commit -/

/-- A commit: the journal before it, its sequence number, and its record. -/
structure Commit (D : Type) where
  base : List (Write D)
  seq : ℕ
  record : PendingCommit D

namespace Commit

/-- An entry of the agent for the commit: from the parent of its snapshot to its snapshot. -/
def IsEntry (k : Commit D) (id : AgentId) (e : LogEntry D) : Prop :=
  e.agentId = id ∧ e.hashBefore = k.record.hashBefore ∧ e.hashAfter = k.record.hashAfter

variable [LinearOrder D]

instance (k : Commit D) (id : AgentId) (e : LogEntry D) : Decidable (k.IsEntry id e) :=
  inferInstanceAs (Decidable (_ ∧ _ ∧ _))

/-- The entries of the commit among a list of writes. -/
def entriesIn (k : Commit D) (id : AgentId) (ws : List (Write D)) : List (LogEntry D) :=
  (entriesOf ws).filter fun e => k.IsEntry id e

/-- The entries of the commit since it was made. -/
def entries (k : Commit D) (l : Ledger D) : List (LogEntry D) :=
  k.entriesIn l.id (l.writes.drop k.base.length)

/-- The commit has one entry, with the parents of its record. -/
def Published (k : Commit D) (l : Ledger D) : Prop :=
  ∃ e, k.entries l = [e] ∧ e.parentIds = k.record.parentIds

theorem entriesIn_append_eq_nil {k : Commit D} {id : AgentId} {writer : Writer}
    {e : LogEntry D} (h : ¬ k.IsEntry id e) : k.entriesIn id [.append writer e] = [] :=
  List.filter_eq_nil_iff.mpr fun e' he' hentry => by
    obtain rfl := List.mem_singleton.mp he'
    exact h (of_decide_eq_true hentry)

/-- The entries of other agents are none of the commit. -/
theorem entriesIn_foreign {k : Commit D} {id : AgentId} {ws : List (Write D)}
    (h : Actor.foreign id ws = true) : k.entriesIn id ws = [] :=
  List.filter_eq_nil_iff.mpr fun e he hentry => by
    have hforeign := List.all_eq_true.mp h e he
    simp [(of_decide_eq_true hentry).1] at hforeign

theorem entries_of_writes {k : Commit D} {l l' : Ledger D} {ws : List (Write D)}
    (hbase : k.base <+: l.writes) (hid : l'.id = l.id) (hwrites : l'.writes = l.writes ++ ws) :
    k.entries l' = k.entries l ++ k.entriesIn l.id ws := by
  rw [entries, hwrites, hid, List.drop_append_of_le_length hbase.length_le, entriesIn,
    entriesOf_append, List.filter_append]
  rfl

/-- Writes that are no entry of the commit leave its entries as they are. -/
theorem entries_unchanged {k : Commit D} {l l' : Ledger D} {ws : List (Write D)}
    (hbase : k.base <+: l.writes) (hid : l'.id = l.id) (hwrites : l'.writes = l.writes ++ ws)
    (hnone : k.entriesIn l.id ws = []) : k.entries l' = k.entries l := by
  rw [entries_of_writes hbase hid hwrites, hnone, List.append_nil]

variable [ContentHash D]

/-! ### What is known about a commit -/

/-- What the databases know about a commit: its snapshot is stored at its sequence number,
below the current one, and its parent is stored below it. -/
structure Known (k : Commit D) (l : Ledger D) : Prop where
  anchored : l.Anchored
  base : k.base <+: l.writes
  below : k.seq < l.seq
  snapshot : l.store.HasSeq k.record.hashAfter k.seq
  parent : k.record.hashBefore = zero ∨ ∃ seq < k.seq, l.store.HasSeq k.record.hashBefore seq

/-- A stored snapshot is not the zero digest. -/
theorem hasSeq_ne_zero {l : Ledger D} {x : D} {seq : ℕ} (h : l.store.HasSeq x seq) :
    x ≠ zero := by
  obtain ⟨header, hheader, -⟩ := h
  rw [(Disk.replay_wellKeyed l.writes).header x header hheader]
  exact snapshotId_ne_zero header

theorem hasSeq_extend {l : Ledger D} {x : D} {seq : ℕ} (h : l.store.HasSeq x seq)
    (ws : List (Write D)) : (l.extend ws).store.HasSeq x seq := by
  obtain ⟨header, hheader, hseq⟩ := h
  exact ⟨header, Disk.replay_getHeader_mono l.writes ws hheader, hseq⟩

/-- A sequence number of the parent, if it is stored, is below that of the commit. -/
theorem Known.parent_lt {k : Commit D} {l : Ledger D} (hk : k.Known l) {seq : ℕ}
    (h : l.store.HasSeq k.record.hashBefore seq) : seq < k.seq := by
  rcases hk.parent with hzero | ⟨seq', hlt, header, hheader, rfl⟩
  · exact absurd hzero (hasSeq_ne_zero h)
  · rwa [← h.eq hheader]

theorem Known.extend {k : Commit D} {l l' : Ledger D} {ws : List (Write D)} (hk : k.Known l)
    (ha : l'.Anchored) (hseq : l.seq ≤ l'.seq) (hwrites : l'.writes = l.writes ++ ws) :
    k.Known l' := by
  have hstore : l'.store = (l.extend ws).store := by
    simp only [Ledger.store, Ledger.extend, hwrites]
  refine ⟨ha, ?_, Nat.lt_of_lt_of_le hk.below hseq, ?_, ?_⟩
  · rw [hwrites]
    exact hk.base.trans (List.prefix_append _ _)
  · rw [hstore]
    exact hasSeq_extend hk.snapshot ws
  · rw [hstore]
    rcases hk.parent with hzero | ⟨seq, hlt, hparent⟩
    · exact .inl hzero
    · exact .inr ⟨seq, hlt, hasSeq_extend hparent ws⟩

/-- Moves keep what is known about a commit. -/
theorem Known.step {k : Commit D} {l l' : Ledger D} (hk : k.Known l)
    (h : Ledger.Step l l') : k.Known l' := by
  obtain ⟨ws, hwrites⟩ := h.exists_writes
  exact hk.extend (hk.anchored.step h) h.seq_le hwrites

/-- A calm move adds no entry of a known commit: an entry that stays at the tip does not go
from a snapshot to another one, and a move goes back in the history while a commit goes
forward. -/
theorem Known.entries_calm {k : Commit D} {l l' : Ledger D} (hk : k.Known l)
    (h : Ledger.Calm l l') : k.entries l' = k.entries l := by
  cases h with
  | @quiet e _ hbefore hafter =>
      have hno : ¬ k.IsEntry l.id e := by
        rintro ⟨-, hbefore', hafter'⟩
        have hsame : k.record.hashBefore = k.record.hashAfter := by
          rw [← hbefore', ← hafter', hbefore, hafter]
        have hlt := hk.parent_lt (hsame ▸ hk.snapshot)
        omega
      exact entries_unchanged hk.base rfl rfl (entriesIn_append_eq_nil hno)
  | @move tip target seq e htip hanc hseq _ hbefore hafter =>
      have hno : ¬ k.IsEntry l.id e := by
        rintro ⟨-, hbefore', hafter'⟩
        obtain ⟨header, hc, -⟩ := hk.anchored tip htip
        have htarget : l.store.HasSeq target k.seq := by
          rw [← hafter, hafter']
          exact hk.snapshot
        have hle := hc.hasSeq_le hanc htarget
        have hlt : header.seq < k.seq := by
          refine hk.parent_lt ⟨header, ?_, rfl⟩
          rw [← hbefore', hbefore]
          exact hc.getHeader
        omega
      exact entries_unchanged hk.base rfl rfl (entriesIn_append_eq_nil hno)

/-! ### A commit whose record has left the slot -/

/-- The record of the commit is not in the slot. -/
structure Gone (k : Commit D) (l : Ledger D) : Prop where
  known : k.Known l
  slot : ∀ q, l.pendingCommit = some q → q.hashAfter ≠ k.record.hashAfter

/-- Once the record has left the slot, it does not come back: a later commit has a larger
sequence number, and with it another snapshot. -/
theorem Gone.step {k : Commit D} {l l' : Ledger D} (hg : k.Gone l) (h : Ledger.Step l l') :
    k.Gone l' ∧ k.entries l' = k.entries l := by
  have hk := hg.known.step h
  cases h with
  | calm hcalm =>
      have hslot := (Ledger.Calms.frame (.single hcalm)).2.1
      refine ⟨⟨hk, ?_⟩, hg.known.entries_calm hcalm⟩
      rw [hslot]
      exact hg.slot
  | block data =>
      exact ⟨⟨hk, hg.slot⟩, entries_unchanged hg.known.base rfl rfl rfl⟩
  | @commit header p _ _ hseq _ hafter =>
      refine ⟨⟨hk, ?_⟩, entries_unchanged hg.known.base rfl rfl rfl⟩
      intro q hq hsame
      obtain rfl := Option.some.inj hq
      have hheader := l.getHeader_extend_putSnapshot header
      rw [← hafter, hsame] at hheader
      have heq := (hasSeq_extend hg.known.snapshot _).eq hheader
      have hbelow := hg.known.below
      omega
  | @publish p e writer hp _ _ hafter _ =>
      have hno : ¬ k.IsEntry l.id e := fun hentry =>
        hg.slot p hp (hafter.symm.trans hentry.2.2)
      exact ⟨⟨hk, fun _ hq => by cases hq⟩,
        entries_unchanged hg.known.base rfl rfl (entriesIn_append_eq_nil hno)⟩
  | forget => exact ⟨⟨hk, fun _ hq => by cases hq⟩, rfl⟩
  | fail error => exact ⟨⟨hk, hg.slot⟩, rfl⟩
  | raise => exact ⟨⟨hk, hg.slot⟩, rfl⟩
  | terminate => exact ⟨⟨hk, hg.slot⟩, rfl⟩
  | restore => exact ⟨⟨hk, fun _ hq => by cases hq⟩, rfl⟩

theorem Gone.steps {k : Commit D} {l l' : Ledger D} (hg : k.Gone l) (h : Ledger.Steps l l') :
    k.Gone l' ∧ k.entries l' = k.entries l := by
  refine h.invariant (P := fun m => k.Gone m ∧ k.entries m = k.entries l) ?_ ⟨hg, rfl⟩
  rintro m m' ⟨hm, hentries⟩ hstep
  obtain ⟨hm', hentries'⟩ := hm.step hstep
  exact ⟨hm', hentries'.trans hentries⟩

/-- What others write is no entry of the commit either. -/
theorem Gone.foreign {k : Commit D} {l : Ledger D} {ws : List (Write D)} (hg : k.Gone l)
    (h : Actor.foreign l.id ws = true) :
    k.Gone (l.extend ws) ∧ k.entries (l.extend ws) = k.entries l := by
  have hknown := hg.known.extend (hg.known.anchored.extend ws) (Nat.le_refl _) rfl
  exact ⟨⟨hknown, hg.slot⟩, entries_unchanged hg.known.base rfl rfl (entriesIn_foreign h)⟩

/-! ### A commit whose record is in the slot -/

/-- The record of the commit is in the slot, and the commit has no entry. -/
structure Open (k : Commit D) (l : Ledger D) : Prop where
  known : k.Known l
  slot : l.pendingCommit = some k.record
  entries : k.entries l = []

theorem Open.calms {k : Commit D} {l l' : Ledger D} (ho : k.Open l) (h : Ledger.Calms l l') :
    k.Open l' := by
  induction h with
  | refl => exact ho
  | tail _ hlast ih =>
      have hslot := (Ledger.Calms.frame (.single hlast)).2.1
      exact ⟨ih.known.step (.calm hlast), hslot.trans ih.slot,
        (ih.known.entries_calm hlast).trans ih.entries⟩

theorem Open.foreign {k : Commit D} {l : Ledger D} {ws : List (Write D)} (ho : k.Open l)
    (h : Actor.foreign l.id ws = true) : k.Open (l.extend ws) := by
  have hknown := ho.known.extend (ho.known.anchored.extend ws) (Nat.le_refl _) rfl
  have hsame : k.entries (l.extend ws) = k.entries l :=
    entries_unchanged ho.known.base rfl rfl (entriesIn_foreign h)
  exact ⟨hknown, ho.slot, hsame.trans ho.entries⟩

/-- The entry that is made from the record publishes the commit. -/
theorem Open.publish {k : Commit D} {l : Ledger D} {e : LogEntry D} (ho : k.Open l)
    (writer : Writer) (hentry : k.IsEntry l.id e)
    (hparents : e.parentIds = k.record.parentIds) :
    k.Gone { l.extend [.append writer e] with pendingCommit := none } ∧
      k.Published { l.extend [.append writer e] with pendingCommit := none } := by
  have hknown : k.Known { l.extend [.append writer e] with pendingCommit := none } :=
    ho.known.extend (ho.known.anchored.extend [.append writer e]) (Nat.le_refl _) rfl
  have hentries : k.entries { l.extend [.append writer e] with pendingCommit := none } =
      k.entries l ++ k.entriesIn l.id [.append writer e] :=
    entries_of_writes ho.known.base rfl rfl
  refine ⟨⟨hknown, fun _ hq => by cases hq⟩, e, ?_, hparents⟩
  rw [hentries, ho.entries]
  simp [entriesIn, entriesOf, Write.entry?, hentry]

/-- Emptied without an entry, the slot leaves the commit without one. -/
theorem Open.forget {k : Commit D} {l : Ledger D} (ho : k.Open l) :
    k.Gone { l with pendingCommit := none } :=
  ⟨ho.known.step .forget, fun _ hq => by cases hq⟩

end Commit

/-! ### commit_barrier, emit and the end of the cycle -/

section

variable [LinearOrder D] [ContentHash D]

/-- A commit as a whole: the block, the header, and the record in the slot. -/
def Ledger.commit (l : Ledger D) (data : List UInt8) (header : SnapshotHeader D)
    (p : PendingCommit D) : Ledger D :=
  { l.extend [.putBlock data, .putSnapshot header] with
    lastSnapshot := some (snapshotId header)
    seq := l.seq + 1
    pendingCommit := some p }

/-- The header and the record are those of a commit at this point. -/
structure Ledger.CommitOf (l : Ledger D) (data : List UInt8) (header : SnapshotHeader D)
    (p : PendingCommit D) : Prop where
  block : header.dataHash = dataHash data
  parent : header.parent = l.lastSnapshot
  seq : header.seq = l.seq
  before : p.hashBefore = l.tipHash
  after : p.hashAfter = snapshotId header

variable {l : Ledger D} {data : List UInt8} {header : SnapshotHeader D} {p : PendingCommit D}

/-- A commit does not depend on what is in the slot. -/
theorem Ledger.CommitOf.steps (h : l.CommitOf data header p) :
    Ledger.Steps { l with pendingCommit := none } (l.commit data header p) := by
  have hstored : ((l.extend [.putBlock data]).store.getBlock header.dataHash).isSome := by
    rw [h.block, Ledger.getBlock_extend_putBlock]
    rfl
  have hblock : Ledger.Step { l with pendingCommit := none }
      { l.extend [.putBlock data] with pendingCommit := none } := .block data
  have hcommit : Ledger.Step { l.extend [.putBlock data] with pendingCommit := none }
      { (l.extend [.putBlock data]).extend [.putSnapshot header] with
        lastSnapshot := some (snapshotId header)
        seq := l.seq + 1
        pendingCommit := some p } := .commit hstored h.parent h.seq h.before h.after
  rw [Ledger.extend_extend] at hcommit
  exact (Relation.ReflTransGen.single hblock).tail hcommit

theorem Ledger.getHeader_commit (l : Ledger D) (data : List UInt8) (header : SnapshotHeader D)
    (p : PendingCommit D) :
    (l.commit data header p).store.getHeader (snapshotId header) = some header := by
  have hwrites := (l.extend [.putBlock data]).getHeader_extend_putSnapshot header
  rwa [Ledger.extend_extend] at hwrites

/-- After a commit, its record is in the slot. -/
theorem Ledger.CommitOf.isOpen (h : l.CommitOf data header p) (ha : l.Anchored) :
    Commit.Open { base := l.writes, seq := l.seq, record := p } (l.commit data header p) := by
  have hanchored : (l.commit data header p).Anchored :=
    h.steps.invariant (fun _ _ hl hstep => hl.step hstep) ha
  have hsnapshot : (l.commit data header p).store.HasSeq p.hashAfter l.seq := by
    rw [h.after]
    exact ⟨header, l.getHeader_commit data header p, h.seq⟩
  refine ⟨⟨hanchored, List.prefix_append _ _, Nat.lt_succ_self _, hsnapshot, ?_⟩, rfl, ?_⟩
  · cases hlast : l.lastSnapshot with
    | none => exact .inl (by rw [h.before, Ledger.tipHash, hlast, Option.getD_none])
    | some tip =>
        obtain ⟨hd, hc, hlt⟩ := ha tip hlast
        refine .inr ⟨hd.seq, hlt, ?_⟩
        rw [h.before, Ledger.tipHash, hlast, Option.getD_some]
        exact Commit.hasSeq_extend ⟨hd, hc.getHeader, rfl⟩ _
  · simp [Commit.entries, Ledger.commit, Ledger.extend, Commit.entriesIn, entriesOf,
      Write.entry?]

end

namespace Caller

variable [LinearOrder D] [ContentHash D]

omit [LinearOrder D] [ContentHash D] in
theorem write_of_noFault {c : Caller D} (hfault : c.ledger.fault = fun _ => false)
    (x : Write D) : (c.write x).1 = true := by
  have hworld : c.world.fault = fun _ => false := hfault
  simp [write, World.write, hworld]

omit [LinearOrder D] in
/-- `commit_barrier` of an agent that has not terminated, without failing accesses. -/
theorem commitBarrier_spec {c : Caller D} (hfault : c.ledger.fault = fun _ => false)
    (hterm : c.ledger.terminationRequested = false) :
    ∃ data header p, c.ledger.CommitOf data header p ∧
      p.parentIds = c.data.lastAction.toList ++ c.data.pendingExtraCauses ∧
      c.commitBarrier.ledger = c.ledger.commit data header p := by
  have hterm' : c.data.terminationRequested = false := hterm
  let c₁ : Caller D := (c.now.2.now.2.write (.putBlock c.now.2.now.2.stateBytes)).2
  let header : SnapshotHeader D := c₁.commitHeader c.now.1
  let p : PendingCommit D :=
    { hashBefore := c.tipHash
      hashAfter := snapshotId header
      parentIds := c.data.lastAction.toList ++ c.data.pendingExtraCauses
      tsMs := c.now.2.now.1
      seq := c.data.seq }
  have hblock : (c.now.2.now.2.write (.putBlock c.now.2.now.2.stateBytes)).1 = true :=
    write_of_noFault hfault _
  have hwritten : c₁.ledger = c.ledger.extend [.putBlock c₁.stateBytes] :=
    ledger_write_of_ok hblock
  have hheader : (c₁.write (.putSnapshot header)).1 = true :=
    write_of_noFault (by rw [hwritten]; exact hfault) _
  have hledger : (c₁.write (.putSnapshot header)).2.ledger =
      c.ledger.extend [.putBlock c₁.stateBytes, .putSnapshot header] := by
    rw [ledger_write_of_ok hheader, hwritten, Ledger.extend_extend]
    rfl
  have heq : c.commitBarrier =
      (c₁.write (.putSnapshot header)).2.recordCommit (snapshotId header) c.now.2.now.1 := by
    simp only [commitBarrier, hterm', hblock, hheader, c₁, header, Bool.not_true,
      Bool.false_eq_true, if_false]
  refine ⟨c₁.stateBytes, header, p, ⟨rfl, rfl, rfl, rfl, rfl⟩, rfl, ?_⟩
  calc c.commitBarrier.ledger
      = { (c₁.write (.putSnapshot header)).2.ledger with
          lastSnapshot := some (snapshotId header)
          seq := c.ledger.seq + 1
          pendingCommit := some p } := by rw [heq]; rfl
    _ = c.ledger.commit c₁.stateBytes header p := by rw [hledger]; rfl

omit [LinearOrder D] in
/-- `emit` of an agent that has not terminated publishes the commit whose record is in the
slot, or leaves a host error. -/
theorem emit_spec {c : Caller D} {k : Commit D} (hterm : c.ledger.terminationRequested = false)
    (hslot : c.ledger.pendingCommit = some k.record) (emitType ptr len : Int32) :
    (c.emit emitType ptr len).ledger.hostError ≠ none ∨
      ∃ e, k.IsEntry c.ledger.id e ∧ e.parentIds = k.record.parentIds ∧
        (c.emit emitType ptr len).ledger =
          { c.ledger.extend [.append .guest e] with pendingCommit := none } := by
  have hterm' : c.data.terminationRequested = false := hterm
  have hslot' : c.data.pendingCommit = some k.record := hslot
  simp only [emit, hterm', Bool.false_eq_true, if_false, hslot']
  split
  · rename_i herror
    exact .inl (Option.isSome_iff_ne_none.mp herror)
  · split
    · exact .inl (Option.some_ne_none _)
    · split
      · rename_i hok
        refine .inr ⟨_, ⟨?_, rfl, rfl⟩, ?_, ledger_append_of_ok hok⟩
        · rfl
        · rfl
      · exact .inl (Option.some_ne_none _)

/-- The end of a cycle that returns `Ok` publishes the commit whose record is in the slot. -/
theorem processEnd_spec {c : Caller D} {k : Commit D}
    (hslot : c.ledger.pendingCommit = some k.record) (hok : c.processEnd.1 = .ok ()) :
    ∃ e, k.IsEntry c.ledger.id e ∧ e.parentIds = k.record.parentIds ∧
      Ledger.Calms { c.ledger.extend [.append .runtime e] with pendingCommit := none }
        c.processEnd.2.ledger := by
  have hslot' : c.data.pendingCommit = some k.record := hslot
  simp only [processEnd, hslot'] at hok ⊢
  split at hok
  · cases hok
  · split_ifs at hok with happend
    rw [if_pos happend]
    refine ⟨c.commitEntry k.record none, ⟨rfl, rfl, rfl⟩, rfl, ?_⟩
    have hcheck := checkSession_calm
      (c.takePending.append .runtime (c.commitEntry k.record none)).2
    rw [ledger_append_of_ok happend] at hcheck
    exact hcheck

omit [LinearOrder D] in
/-- A cycle that returns `Ok` has no host error. -/
theorem hostError_of_processEnd {c : Caller D} (hok : c.processEnd.1 = .ok ()) :
    c.ledger.hostError = none := by
  simp only [processEnd] at hok
  split at hok
  · cases hok
  · assumption

omit [LinearOrder D] in
theorem commitBarrier_of_terminated {c : Caller D} (h : c.ledger.terminationRequested = true) :
    c.commitBarrier = c :=
  if_pos h

omit [LinearOrder D] in
theorem emit_of_terminated {c : Caller D} (h : c.ledger.terminationRequested = true)
    {emitType ptr len : Int32} : c.emit emitType ptr len = c :=
  if_pos h

omit [LinearOrder D] in
theorem commitBarrier_terminationRequested (c : Caller D) :
    c.commitBarrier.ledger.terminationRequested = c.ledger.terminationRequested := by
  simp only [commitBarrier]
  split_ifs <;> rfl

omit [LinearOrder D] in
theorem append_terminationRequested (c : Caller D) (writer : Writer) (e : LogEntry D) :
    (c.append writer e).2.ledger.terminationRequested = c.ledger.terminationRequested := by
  have hdata := congrArg AgentState.terminationRequested (append_data c writer e)
  exact hdata

omit [LinearOrder D] in
theorem emit_terminationRequested (c : Caller D) (emitType ptr len : Int32) :
    (c.emit emitType ptr len).ledger.terminationRequested = c.ledger.terminationRequested := by
  simp only [emit]
  split
  · rfl
  · split
    · rfl
    · split
      · rfl
      · split
        · rfl
        · split <;> exact append_terminationRequested c.takePending.now.2 _ _

/-- A host function does not clear a host error. -/
theorem hostError_of_host {c : Caller D} {call : HostCall}
    (h : (c.host call).2.ledger.hostError = none) : c.ledger.hostError = none := by
  cases hcalm : call.calm with
  | true => exact (host_calm c hcalm).frame.2.2.1.symm.trans h
  | false =>
      cases call with
      | commitBarrier =>
          simp only [host, commitBarrier] at h
          split_ifs at h
          · exact h
          · cases h
          · cases h
          · exact h
      | emit emitType ptr len =>
          by_contra herror
          have hsome : c.data.hostError.isSome = true := Option.isSome_iff_ne_none.mpr herror
          simp only [host, emit, hsome, if_true, ite_self] at h
          exact herror h
      | agentTerminate =>
          have hlogged := logLifecycleEvent_calm
            (c.setData fun s => { s with terminationRequested := true }) .terminated
          exact hlogged.frame.2.2.1.symm.trans h
      | _ => cases hcalm

end Caller

/-! ### A cycle -/

/-- What happens between the entry of the guest and its return: its calls, the answers of the
backend, and what others do in the meantime. -/
def Event.inCycle : Event D → Bool
  | .host _ _ => true
  | .inferDone _ _ => true
  | .others _ _ _ _ => true
  | _ => false

/-- A call of `agent_terminate`. -/
def Event.isTerminate : Event D → Bool
  | .host _ .agentTerminate => true
  | _ => false

/-- Of the calls `commit_barrier`, `emit` and `agent_terminate`, the next one is
`commit_barrier`. -/
def commitsNext : List (Event D) → Bool
  | [] => false
  | .host _ .commitBarrier :: _ => true
  | .host _ (.emit _ _ _) :: _ => false
  | .host _ .agentTerminate :: _ => false
  | _ :: evs => commitsNext evs

/-- The event has nothing to do with commits, nor with the termination of the agent. -/
def Event.neutral : Event D → Bool
  | .host _ call => call.calm
  | _ => true

theorem Event.isTerminate_of_neutral {ev : Event D} (h : ev.neutral = true) :
    ev.isTerminate = false := by
  cases ev with
  | host memory call =>
      cases call with
      | agentTerminate => cases h
      | _ => rfl
  | _ => rfl

theorem commitsNext_neutral {ev : Event D} (h : ev.neutral = true) (evs : List (Event D)) :
    commitsNext (ev :: evs) = commitsNext evs := by
  cases ev with
  | host memory call =>
      cases call with
      | commitBarrier => cases h
      | emit emitType ptr len => cases h
      | agentTerminate => cases h
      | _ => rfl
  | _ => rfl

namespace Actor

variable [LinearOrder D] [ContentHash D]

/-- What an event of a cycle does to the ledger. -/
inductive InCycle (a : Actor D) : Event D → Ledger D → Prop
  | calm {ev : Event D} {l : Ledger D} : ev.neutral = true → Ledger.Calms a.ledger l →
      InCycle a ev l
  | foreign {ev : Event D} {ws : List (Write D)} : ev.neutral = true →
      Actor.foreign a.ledger.id ws = true → InCycle a ev (a.ledger.extend ws)
  | commit (memory : List UInt8) :
      InCycle a (.host memory .commitBarrier)
        (Caller.commitBarrier { a.caller with memory }).ledger
  | emit (memory : List UInt8) (emitType ptr len : Int32) :
      InCycle a (.host memory (.emit emitType ptr len))
        (Caller.emit { a.caller with memory } emitType ptr len).ledger
  | terminate (memory : List UInt8) {l : Ledger D} :
      Ledger.Calms { a.ledger with terminationRequested := true } l →
      InCycle a (.host memory .agentTerminate) l

theorem ledger_hostCall (a : Actor D) (kind : CycleKind) (call : HostCall) :
    (a.hostCall kind call).ledger = (a.caller.host call).2.ledger := by
  simp only [hostCall]
  split <;> rfl

theorem inCycle_host (a : Actor D) (memory : List UInt8) (call : HostCall) :
    a.InCycle (.host memory call) (Caller.host { a.caller with memory } call).2.ledger := by
  cases hcalm : call.calm with
  | true => exact .calm hcalm (Caller.host_calm { a.caller with memory } hcalm)
  | false =>
      cases call with
      | commitBarrier => exact .commit memory
      | emit emitType ptr len => exact .emit memory emitType ptr len
      | agentTerminate =>
          exact .terminate memory (Caller.logLifecycleEvent_calm (Caller.setData
            { a.caller with memory } fun s => { s with terminationRequested := true }) _)
      | _ => cases hcalm

theorem step_inCycle {a a' : Actor D} {ev : Event D} (hc : a.Coherent)
    (hin : ev.inCycle = true) (h : a.step ev = some a') : a.InCycle ev a'.ledger := by
  cases trans_of_step h with
  | @host kind memory call _ _ =>
      rw [ledger_hostCall]
      exact inCycle_host a memory call
  | @inferDone kind call result durationMs hphase =>
      simp only [Coherent, hphase] at hc
      exact .calm rfl (Caller.agentInferFinish_calm hc result durationMs)
  | others hforeign => exact .foreign rfl hforeign
  | _ => cases hin

/-- Whether an agent has asked to terminate, after an event of a cycle. -/
theorem InCycle.terminationRequested {a : Actor D} {ev : Event D} {l : Ledger D}
    (h : a.InCycle ev l) :
    l.terminationRequested = (a.ledger.terminationRequested || ev.isTerminate) := by
  cases h with
  | calm hneutral hcalms =>
      rw [hcalms.frame.2.2.2, Event.isTerminate_of_neutral hneutral, Bool.or_false]
  | foreign hneutral _ =>
      rw [Event.isTerminate_of_neutral hneutral, Bool.or_false]
      rfl
  | commit memory =>
      rw [Caller.commitBarrier_terminationRequested]
      exact (Bool.or_false _).symm
  | emit memory emitType ptr len =>
      rw [Caller.emit_terminationRequested]
      exact (Bool.or_false _).symm
  | terminate memory hcalms =>
      rw [hcalms.frame.2.2.2]
      exact (Bool.or_true _).symm

/-- An event of a cycle does not clear a host error. -/
theorem InCycle.hostError {a : Actor D} {ev : Event D} {l : Ledger D} (h : a.InCycle ev l)
    (hnone : l.hostError = none) : a.ledger.hostError = none := by
  cases h with
  | calm _ hcalms => exact hcalms.frame.2.2.1.symm.trans hnone
  | foreign _ _ => exact hnone
  | commit memory =>
      have hhost : (Caller.host { a.caller with memory } .commitBarrier).2.ledger.hostError =
          none := hnone
      exact Caller.hostError_of_host (c := { a.caller with memory }) hhost
  | emit memory emitType ptr len =>
      have hhost : (Caller.host { a.caller with memory }
          (.emit emitType ptr len)).2.ledger.hostError = none := hnone
      exact Caller.hostError_of_host (c := { a.caller with memory }) hhost
  | terminate memory hcalms => exact hcalms.frame.2.2.1.symm.trans hnone

/-! ### What becomes of a commit -/

theorem run_hostError {a a' : Actor D} {evs : List (Event D)} (hs : a.Sound)
    (hin : ∀ ev ∈ evs, ev.inCycle = true) (hrun : Machine.run step a evs = some a')
    (hnone : a'.ledger.hostError = none) : a.ledger.hostError = none := by
  induction evs generalizing a with
  | nil =>
      obtain rfl := Option.some.inj hrun
      exact hnone
  | cons ev evs ih =>
      obtain ⟨a₁, hstep, hrest⟩ := Machine.run_cons_eq_some.mp hrun
      obtain ⟨hev, hevs⟩ := List.forall_mem_cons.mp hin
      have hnone₁ := ih (hs.step hstep) hevs hrest
      exact (step_inCycle hs.coherent hev hstep).hostError hnone₁

theorem run_terminationRequested {a a' : Actor D} {evs : List (Event D)} (hs : a.Sound)
    (hin : ∀ ev ∈ evs, ev.inCycle = true) (hrun : Machine.run step a evs = some a') :
    a'.ledger.terminationRequested =
      (a.ledger.terminationRequested || evs.any Event.isTerminate) := by
  induction evs generalizing a with
  | nil =>
      obtain rfl := Option.some.inj hrun
      exact (Bool.or_false _).symm
  | cons ev evs ih =>
      obtain ⟨a₁, hstep, hrest⟩ := Machine.run_cons_eq_some.mp hrun
      obtain ⟨hev, hevs⟩ := List.forall_mem_cons.mp hin
      rw [ih (hs.step hstep) hevs hrest, List.any_cons, ← Bool.or_assoc,
        (step_inCycle hs.coherent hev hstep).terminationRequested]

/-- A commit whose record has left the slot keeps its entries to the end of the run. -/
theorem run_gone {k : Commit D} {a a' : Actor D} {evs : List (Event D)} (hs : a.Sound)
    (hg : k.Gone a.ledger) (hrun : Machine.run step a evs = some a') :
    k.Gone a'.ledger ∧ k.entries a'.ledger = k.entries a.ledger := by
  have hkept : ∀ (b : Actor D) (ev : Event D) (b' : Actor D),
      (b.Sound ∧ k.Gone b.ledger ∧ k.entries b.ledger = k.entries a.ledger) →
      b.step ev = some b' →
      (b'.Sound ∧ k.Gone b'.ledger ∧ k.entries b'.ledger = k.entries a.ledger) := by
    rintro b ev b' ⟨hb, hgone, hentries⟩ hstep
    refine ⟨hb.step hstep, ?_⟩
    rcases step_ledger hb.coherent hstep with hsteps | ⟨ws, _, _, _, _, hforeign, hext⟩
    · obtain ⟨hgone', hentries'⟩ := hgone.steps hsteps
      exact ⟨hgone', hentries'.trans hentries⟩
    · obtain ⟨hgone', hentries'⟩ := hgone.foreign hforeign
      rw [hext]
      exact ⟨hgone', hentries'.trans hentries⟩
  exact (Machine.run_invariant hkept ⟨hs, hg, rfl⟩ hrun).2

/-- What an event of a cycle does to a commit whose record is in the slot. -/
theorem InCycle.fate {k : Commit D} {a : Actor D} {ev : Event D} {l : Ledger D}
    (h : a.InCycle ev l) (hs : a.Sound) (ho : k.Open a.ledger) (hnone : l.hostError = none) :
    (k.Open l ∧ ∀ evs, (!a.ledger.terminationRequested && commitsNext (ev :: evs)) =
        (!l.terminationRequested && commitsNext evs)) ∨
      (k.Gone l ∧ k.entries l = [] ∧ a.ledger.terminationRequested = false ∧
        ∀ evs, commitsNext (ev :: evs) = true) ∨
      (k.Gone l ∧ k.Published l ∧ ∀ evs, commitsNext (ev :: evs) = false) := by
  have hterm := h.terminationRequested
  cases h with
  | calm hneutral hcalms =>
      refine .inl ⟨ho.calms hcalms, fun evs => ?_⟩
      rw [hterm, Event.isTerminate_of_neutral hneutral, Bool.or_false,
        commitsNext_neutral hneutral]
  | foreign hneutral hforeign =>
      refine .inl ⟨ho.foreign hforeign, fun evs => ?_⟩
      rw [hterm, Event.isTerminate_of_neutral hneutral, Bool.or_false,
        commitsNext_neutral hneutral]
  | commit memory =>
      cases hbefore : a.ledger.terminationRequested with
      | true =>
          refine .inl ⟨?_, fun evs => ?_⟩
          · rw [Caller.commitBarrier_of_terminated (c := { a.caller with memory }) hbefore]
            exact ho
          · rw [hterm, hbefore]
            rfl
      | false =>
          obtain ⟨data, header, p, hcommit, -, hledger⟩ :=
            Caller.commitBarrier_spec (c := { a.caller with memory }) hs.noFault hbefore
          obtain ⟨hgone, hentries⟩ := ho.forget.steps hcommit.steps
          rw [hledger]
          exact .inr (.inl ⟨hgone, hentries.trans ho.entries, rfl, fun evs => rfl⟩)
  | emit memory emitType ptr len =>
      cases hbefore : a.ledger.terminationRequested with
      | true =>
          refine .inl ⟨?_, fun evs => ?_⟩
          · rw [Caller.emit_of_terminated (c := { a.caller with memory }) hbefore]
            exact ho
          · rw [hterm, hbefore]
            rfl
      | false =>
          rcases Caller.emit_spec (c := { a.caller with memory }) hbefore ho.slot emitType ptr
            len with herror | ⟨e, hentry, hparents, hledger⟩
          · exact absurd hnone herror
          · obtain ⟨hgone, hpublished⟩ := ho.publish .guest hentry hparents
            rw [hledger]
            exact .inr (.inr ⟨hgone, hpublished, fun evs => rfl⟩)
  | terminate memory hcalms =>
      have hopen : k.Open { a.ledger with terminationRequested := true } :=
        ⟨ho.known.step .terminate, ho.slot, ho.entries⟩
      refine .inl ⟨hopen.calms hcalms, fun evs => ?_⟩
      rw [hterm]
      simp [commitsNext, Event.isTerminate]

/-- At the end of a cycle without host error, a commit whose record is in the slot has been
lost exactly if it is overwritten before the next `emit` or `agent_terminate`. -/
theorem run_fate {k : Commit D} {a a' : Actor D} {evs : List (Event D)} (hs : a.Sound)
    (ho : k.Open a.ledger) (hin : ∀ ev ∈ evs, ev.inCycle = true)
    (hrun : Machine.run step a evs = some a') (hnone : a'.ledger.hostError = none) :
    if !a.ledger.terminationRequested && commitsNext evs then
      k.Gone a'.ledger ∧ k.entries a'.ledger = []
    else k.Open a'.ledger ∨ k.Gone a'.ledger ∧ k.Published a'.ledger := by
  induction evs generalizing a with
  | nil =>
      obtain rfl := Option.some.inj hrun
      simpa [commitsNext] using Or.inl ho
  | cons ev evs ih =>
      obtain ⟨a₁, hstep, hrest⟩ := Machine.run_cons_eq_some.mp hrun
      obtain ⟨hev, hevs⟩ := List.forall_mem_cons.mp hin
      have hs₁ := hs.step hstep
      have hnone₁ := run_hostError hs₁ hevs hrest hnone
      rcases (step_inCycle hs.coherent hev hstep).fate hs ho hnone₁ with
        ⟨hopen, hnext⟩ | ⟨hgone, hentries, hterm, hnext⟩ | ⟨hgone, ⟨e, he, hparents⟩, hnext⟩
      · rw [hnext evs]
        exact ih hs₁ hopen hevs hrest
      · obtain ⟨hgone', hentries'⟩ := run_gone hs₁ hgone hrest
        rw [hnext evs, hterm]
        exact ⟨hgone', hentries'.trans hentries⟩
      · obtain ⟨hgone', hentries'⟩ := run_gone hs₁ hgone hrest
        rw [hnext evs, Bool.and_false]
        exact .inr ⟨hgone', e, hentries'.trans he, hparents⟩

omit [LinearOrder D] in
/-- A cycle that ends with `Ok` ends with the ledger that `process_one` leaves. -/
theorem ledger_endCycle {a : Actor D} (kind : CycleKind) (hok : a.caller.processEnd.1 = .ok ()) :
    (a.endCycle kind).ledger = a.caller.processEnd.2.ledger := by
  simp only [endCycle, hok]
  cases kind with
  | sessionResume => rfl
  | data =>
      simp only
      split_ifs
      · rfl
      · rw [afterData_ledger]
        rfl

/-- The return of the guest publishes the commit whose record is in the slot. -/
theorem ret_publishes {k : Commit D} {a a' : Actor D} {memory : List UInt8}
    (ho : k.Open a.ledger) (hok : (a.setMemory memory).caller.processEnd.1 = .ok ())
    (hret : a.step (.ret memory) = some a') : k.Published a'.ledger := by
  cases trans_of_step hret with
  | @ret kind _ _ _ =>
      obtain ⟨e, hentry, hparents, hcalms⟩ :=
        Caller.processEnd_spec (c := (a.setMemory memory).caller) ho.slot hok
      obtain ⟨hgone, e', he', hparents'⟩ := ho.publish .runtime hentry hparents
      rw [ledger_endCycle kind hok]
      exact ⟨e', (hgone.steps hcalms.steps).2.trans he', hparents'⟩

/-! ### Every commit has its entry -/

/-- The entries of the agent, from a commit on, that go from the parent of its snapshot to its
snapshot; `s` and `s'` are the states before and after the commit. -/
def commitEntries (s s' t : Actor D) : List (LogEntry D) :=
  (s.appended t).filter fun e => decide (e.agentId = s.ledger.id ∧
    some e.hashAfter = s'.ledger.lastSnapshot ∧
    some e.hashBefore = s'.tipHeader.map fun h => h.parent.getD zero)

/-- The commit has exactly one entry, which cites the causes that were pending. -/
def CommitPublished (s s' t : Actor D) : Prop :=
  ∃ e, commitEntries s s' t = [e] ∧ ∀ cause ∈ s.caller.data.pendingExtraCauses,
    cause ∈ e.parentIds

/-- Every `commit_barrier` among the events of a cycle, before `agent_terminate`, has its entry
in the end. -/
def EveryCommitPublished (a : Actor D) (evs : List (Event D)) (t : Actor D) : Prop :=
  ∀ pre memory post s s', evs = pre ++ .host memory .commitBarrier :: post →
    Machine.run step a pre = some s → s.step (.host memory .commitBarrier) = some s' →
    s.ledger.terminationRequested = false → CommitPublished s s' t

/-- No `commit_barrier` of a cycle, before `agent_terminate`, is followed by another one with
neither `emit` nor `agent_terminate` between them. -/
def NoCommitOverwritten (a : Actor D) (evs : List (Event D)) : Prop :=
  ∀ pre memory post, evs = pre ++ .host memory .commitBarrier :: post →
    (a.ledger.terminationRequested || pre.any Event.isTerminate) = false →
    commitsNext post = false

theorem Sound.run {a a' : Actor D} {evs : List (Event D)} (hs : a.Sound)
    (hrun : Machine.run Actor.step a evs = some a') : a'.Sound :=
  Machine.run_invariant (fun _ _ _ hb hstep => Sound.step hb hstep) hs hrun

theorem run_id {a a' : Actor D} {evs : List (Event D)} (hs : a.Sound)
    (hrun : Machine.run step a evs = some a') : a'.ledger.id = a.ledger.id := by
  have hkept : ∀ (b : Actor D) (ev : Event D) (b' : Actor D),
      (b.Sound ∧ b.ledger.id = a.ledger.id) → b.step ev = some b' →
      (b'.Sound ∧ b'.ledger.id = a.ledger.id) := by
    rintro b ev b' ⟨hb, hid⟩ hstep
    exact ⟨hb.step hstep, (step_id hb.coherent hstep).trans hid⟩
  exact (Machine.run_invariant hkept ⟨hs, rfl⟩ hrun).2

/-- A commit of an agent that has not terminated, in the terms of its record. -/
theorem step_commitBarrier {s s' : Actor D} {memory : List UInt8} (hs : s.Sound)
    (hterm : s.ledger.terminationRequested = false)
    (hstep : s.step (.host memory .commitBarrier) = some s') :
    ∃ k : Commit D, k.Open s'.ledger ∧
      (∀ cause ∈ s.caller.data.pendingExtraCauses, cause ∈ k.record.parentIds) ∧
      ∀ t : Actor D, t.ledger.id = s.ledger.id → commitEntries s s' t = k.entries t.ledger := by
  obtain ⟨data, header, p, hcommit, hparents, hledger⟩ :=
    Caller.commitBarrier_spec (c := { s.caller with memory }) hs.noFault hterm
  have hs' : s'.ledger = s.ledger.commit data header p := by
    cases trans_of_step hstep with
    | @host kind _ _ _ _ =>
        rw [ledger_hostCall]
        exact hledger
  refine ⟨{ base := s.ledger.writes, seq := s.ledger.seq, record := p }, ?_, ?_, ?_⟩
  · rw [hs']
    exact hcommit.isOpen hs.anchored
  · intro cause hcause
    rw [hparents]
    exact List.mem_append_right _ hcause
  · intro t hid
    have htip : s'.tipHeader = some header := by
      rw [tipHeader, hs']
      exact s.ledger.getHeader_commit data header p
    have hbefore : p.hashBefore = header.parent.getD zero := by
      rw [hcommit.parent, hcommit.before]
      rfl
    rw [commitEntries, Commit.entries, Commit.entriesIn, htip, hs', hid]
    refine congrArg (fun f => List.filter f _) (funext fun e => ?_)
    simp only [Commit.IsEntry, Ledger.commit, Option.map_some, Option.some.injEq, hbefore,
      hcommit.after]
    exact decide_eq_decide.mpr (and_congr_right fun _ => and_comm)

/-- In a cycle that ends with `Ok`, a commit has its entry exactly if it is not overwritten. -/
theorem commitPublished_iff {s s' a₂ a₃ : Actor D} {post : List (Event D)}
    {memory memory' : List UInt8} (hs : s.Sound)
    (hterm : s.ledger.terminationRequested = false)
    (hstep : s.step (.host memory .commitBarrier) = some s')
    (hin : ∀ ev ∈ post, ev.inCycle = true) (hrun : Machine.run step s' post = some a₂)
    (hok : (a₂.setMemory memory').caller.processEnd.1 = .ok ())
    (hret : a₂.step (.ret memory') = some a₃) :
    CommitPublished s s' a₃ ↔ commitsNext post = false := by
  obtain ⟨k, hopen, hcauses, hentries⟩ := step_commitBarrier hs hterm hstep
  have hs' := hs.step hstep
  have hs₂ := hs'.run hrun
  have hid : a₃.ledger.id = s.ledger.id := by
    rw [step_id hs₂.coherent hret, run_id hs' hrun, step_id hs.coherent hstep]
  have hnone : (a₂.setMemory memory').ledger.hostError = none :=
    Caller.hostError_of_processEnd hok
  have hterm' : s'.ledger.terminationRequested = false := by
    rw [(step_inCycle hs.coherent rfl hstep).terminationRequested, hterm]
    rfl
  have hret' : Machine.run step a₂ [.ret memory'] = some a₃ :=
    Machine.run_cons_eq_some.mpr ⟨a₃, hret, rfl⟩
  have hfate := run_fate hs' hopen hin hrun hnone
  rw [hterm', Bool.not_false, Bool.true_and] at hfate
  rw [CommitPublished, hentries a₃ hid]
  cases hnext : commitsNext post with
  | true =>
      rw [hnext] at hfate
      obtain ⟨hgone, hnothing⟩ := hfate
      rw [(run_gone hs₂ hgone hret').2, hnothing]
      simp
  | false =>
      rw [hnext] at hfate
      have hpublished : k.Published a₃.ledger := by
        rcases hfate with hopen₂ | ⟨hgone, e, he, hparents⟩
        · exact ret_publishes hopen₂ hok hret
        · exact ⟨e, (run_gone hs₂ hgone hret').2.trans he, hparents⟩
      obtain ⟨e, he, hparents⟩ := hpublished
      refine iff_of_true ⟨e, he, fun cause hcause => ?_⟩ rfl
      rw [hparents]
      exact hcauses cause hcause

/-- In a cycle that ends with `Ok`, without failing accesses, every commit before
`agent_terminate` has exactly one entry, from the parent of its snapshot to its snapshot and
with the causes that were pending, exactly if none is overwritten. -/
theorem commits_published_iff {a a₂ a₃ : Actor D} {evs : List (Event D)} {memory : List UInt8}
    (hreach : a.Reachable) (hin : ∀ ev ∈ evs, ev.inCycle = true)
    (hrun : Machine.run step a evs = some a₂)
    (hok : (a₂.setMemory memory).caller.processEnd.1 = .ok ())
    (hret : a₂.step (.ret memory) = some a₃) :
    EveryCommitPublished a evs a₃ ↔ NoCommitOverwritten a evs := by
  have hs := hreach.sound
  constructor
  · intro hpublished pre m post heq hterm
    subst heq
    obtain ⟨s, hpre, hrest⟩ := Machine.run_append_eq_some.mp hrun
    obtain ⟨s', hstep, hpost⟩ := Machine.run_cons_eq_some.mp hrest
    have hin' := List.forall_mem_append.mp hin
    rw [← run_terminationRequested hs hin'.1 hpre] at hterm
    exact (commitPublished_iff (hs.run hpre) hterm hstep (List.forall_mem_cons.mp hin'.2).2 hpost
      hok hret).mp (hpublished pre m post s s' rfl hpre hstep hterm)
  · intro hnone pre m post s s' heq hpre hstep hterm
    subst heq
    obtain ⟨s₁, hpre', hrest⟩ := Machine.run_append_eq_some.mp hrun
    obtain rfl := Option.some.inj (hpre.symm.trans hpre')
    obtain ⟨s₂, hstep', hpost⟩ := Machine.run_cons_eq_some.mp hrest
    obtain rfl := Option.some.inj (hstep.symm.trans hstep')
    have hin' := List.forall_mem_append.mp hin
    have hnext := hnone pre m post rfl
    rw [← run_terminationRequested hs hin'.1 hpre] at hnext
    exact (commitPublished_iff (hs.run hpre) hterm hstep (List.forall_mem_cons.mp hin'.2).2 hpost
      hok hret).mpr (hnext hterm)

/-- A cycle of a message to a new agent ends with `Ok`: where its guest is entered, where it
returns, and where the agent is after that. -/
theorem exists_cycle (evs : List (Event (List ℕ)))
    (h : ((Machine.run step sampleAgent [.start, .recv (.data [] none) []]).any fun a =>
      !a.ledger.terminationRequested && (Machine.run step a evs).any fun a₂ =>
        decide ((a₂.setMemory [0, 0, 0, 0]).caller.processEnd.1 = .ok ()) &&
          (a₂.step (.ret [0, 0, 0, 0])).isSome) = true) :
    ∃ a a₂ a₃ : Actor (List ℕ), a.Reachable ∧ a.ledger.terminationRequested = false ∧
      Machine.run step a evs = some a₂ ∧
      (a₂.setMemory [0, 0, 0, 0]).caller.processEnd.1 = .ok () ∧
      a₂.step (.ret [0, 0, 0, 0]) = some a₃ := by
  obtain ⟨a, ha, h⟩ := (Option.any_eq_true _ _).mp h
  obtain ⟨hterm, h⟩ := Bool.and_eq_true_iff.mp h
  obtain ⟨a₂, hrun, h⟩ := (Option.any_eq_true _ _).mp h
  obtain ⟨hok, hsome⟩ := Bool.and_eq_true_iff.mp h
  obtain ⟨a₃, hret⟩ := Option.isSome_iff_exists.mp hsome
  exact ⟨a, a₂, a₃, ⟨_, _, _, _, _, rfl, ha⟩, (Bool.not_eq_true' _).mp hterm, hrun,
    of_decide_eq_true hok, hret⟩

/-- A cycle of two commits, each with its emission. -/
def committedCycle : List (Event (List ℕ)) :=
  [.host [0, 0, 0, 0] .commitBarrier, .host [0, 0, 0, 0] (.emit 1 0 4),
    .host [0, 0, 0, 0] .commitBarrier, .host [0, 0, 0, 0] (.emit 1 0 4)]

theorem commits_published_committedCycle :
    ∃ a a₂ a₃ : Actor (List ℕ), a.Reachable ∧ Machine.run step a committedCycle = some a₂ ∧
      a₂.step (.ret [0, 0, 0, 0]) = some a₃ ∧ EveryCommitPublished a committedCycle a₃ := by
  obtain ⟨a, a₂, a₃, hreach, -, hrun, hok, hret⟩ :=
    exists_cycle committedCycle (by decide +kernel)
  have hnext : (committedCycle.tails.all fun t => match t with
      | .host _ .commitBarrier :: post => !commitsNext post
      | _ => true) = true := by
    decide
  refine ⟨a, a₂, a₃, hreach, hrun, hret,
    (commits_published_iff hreach (by decide) hrun hok hret).mpr ?_⟩
  intro pre memory post heq _
  have htail : .host memory .commitBarrier :: post ∈ committedCycle.tails :=
    (List.mem_tails _ _).mpr ⟨pre, heq.symm⟩
  simpa using List.all_eq_true.mp hnext _ htail

/-- A cycle of two commits and one emission. -/
def overwrittenCycle : List (Event (List ℕ)) :=
  [.host [0, 0, 0, 0] .commitBarrier, .host [0, 0, 0, 0] .commitBarrier,
    .host [0, 0, 0, 0] (.emit 1 0 4)]

/-- The first commit of this cycle has no entry, although the cycle ends with `Ok`. -/
theorem second_barrier_loses_commit :
    ∃ a a₂ a₃ : Actor (List ℕ), a.Reachable ∧ Machine.run step a overwrittenCycle = some a₂ ∧
      (a₂.setMemory [0, 0, 0, 0]).caller.processEnd.1 = .ok () ∧
      a₂.step (.ret [0, 0, 0, 0]) = some a₃ ∧ ¬ EveryCommitPublished a overwrittenCycle a₃ := by
  obtain ⟨a, a₂, a₃, hreach, hterm, hrun, hok, hret⟩ :=
    exists_cycle overwrittenCycle (by decide +kernel)
  refine ⟨a, a₂, a₃, hreach, hrun, hok, hret, fun hpublished => ?_⟩
  obtain ⟨a₁, hstep, hpost⟩ := Machine.run_cons_eq_some.mp hrun
  have hfirst := hpublished [] _ _ a a₁ rfl rfl hstep hterm
  have hlost := (commitPublished_iff hreach.sound hterm hstep (by decide) hpost hok hret).mp hfirst
  cases hlost

end Actor

end Torpor
