import Torpor.Actor.Rollback
import Torpor.Lib.AppendGraph

/-!
# The Tree of Snapshots

The snapshots of an agent form a tree: a rollback moves the last snapshot back to an ancestor,
from which the next commit branches off, while the sequence number only grows. An eviction saves
the last snapshot and the sequence number, and a wake restores both.

## Main results

* `Ledger.Tree`: the snapshots of an agent in the order of their creation, with what holds of
  each of them and those before it.
* `Ledger.SinceWake`: where the first snapshot after a wake branches off.
* `snapshot_tree`: both in every run of an agent, whatever accesses fail.
* `commit_after_rollback_branches`: a rollback between a wake and a commit.
-/

namespace Torpor

open ContentHash

variable {D : Type} [LinearOrder D] [ContentHash D]

/-! ### The snapshots of an agent -/

/-- A snapshot and those created before it: it has a larger sequence number than all of them,
and unless it is the first one, its parent is one of them. -/
structure SnapshotHeader.Follows (before : List (SnapshotHeader D)) (h : SnapshotHeader D) :
    Prop where
  seq : ∀ h' ∈ before, h'.seq < h.seq
  root : before = [] → h.parent = none
  child : before ≠ [] → ∃ h' ∈ before, h.parent = some (snapshotId h')

namespace Ledger

/-- The headers that an agent has put form a tree with the last snapshot in it. -/
structure Tree (own : List (Write D)) (l : Ledger D) : Prop where
  ordered : ∀ before h after, headersOf own = before ++ h :: after → h.Follows before
  below : ∀ h ∈ headersOf own, h.seq < l.seq
  stored : ∀ h ∈ headersOf own, l.store.getHeader (snapshotId h) = some h
  tip : ∀ x, l.lastSnapshot = some x → ∃ h ∈ headersOf own, snapshotId h = x
  root : l.lastSnapshot = none → headersOf own = []

/-- The parent of a header of the agent is a header of the agent. -/
theorem Tree.parent_mem {own : List (Write D)} {l : Ledger D} (ht : l.Tree own)
    {h : SnapshotHeader D} (hmem : h ∈ headersOf own) {p : D} (hp : h.parent = some p) :
    ∃ h' ∈ headersOf own, snapshotId h' = p := by
  obtain ⟨before, after, heq⟩ := List.append_of_mem hmem
  have hfollows := ht.ordered before h after heq
  cases before with
  | nil => simp [hfollows.root rfl] at hp
  | cons h₀ before =>
      obtain ⟨h', hmem', hparent⟩ := hfollows.child (by simp)
      refine ⟨h', ?_, Option.some.inj (hparent.symm.trans hp)⟩
      rw [heq]
      exact List.mem_append_left _ hmem'

/-- So are all its ancestors. -/
theorem Tree.ancestor_mem {own : List (Write D)} {l : Ledger D} (ht : l.Tree own)
    {h : SnapshotHeader D} (hmem : h ∈ headersOf own) {x : D}
    (hx : l.store.AncestorOrSelf (snapshotId h) x) :
    ∃ h' ∈ headersOf own, snapshotId h' = x := by
  induction hx with
  | refl => exact ⟨h, hmem, rfl⟩
  | tail _ hstep ih =>
      obtain ⟨h₁, hmem₁, rfl⟩ := ih
      obtain ⟨h₂, hheader, hparent⟩ := hstep
      rw [ht.stored h₁ hmem₁] at hheader
      obtain rfl := Option.some.inj hheader
      exact ht.parent_mem hmem₁ hparent

/-- Further writes that put no header. -/
theorem Tree.frame {own ws : List (Write D)} {l l' : Ledger D} (ht : l.Tree own)
    (hnone : headersOf ws = []) (hwrites : ∃ ws', l'.writes = l.writes ++ ws')
    (hseq : l'.seq = l.seq) (htip : l'.lastSnapshot = l.lastSnapshot) :
    l'.Tree (own ++ ws) := by
  have hsame : headersOf (own ++ ws) = headersOf own := by
    rw [headersOf_append, hnone, List.append_nil]
  obtain ⟨ws', hws'⟩ := hwrites
  refine ⟨?_, ?_, fun h hmem => ?_, ?_, ?_⟩
  · rw [hsame]
    exact ht.ordered
  · rw [hsame, hseq]
    exact ht.below
  · rw [hsame] at hmem
    have hheader := Disk.replay_getHeader_mono l.writes ws' (ht.stored h hmem)
    rwa [← hws'] at hheader
  · rw [hsame, htip]
    exact ht.tip
  · rw [hsame, htip]
    exact ht.root

/-- The last snapshot moves to an ancestor. -/
theorem Tree.move {own : List (Write D)} {l : Ledger D} (ht : l.Tree own) {tip target : D}
    (htip : l.lastSnapshot = some tip) (hanc : l.store.AncestorOrSelf tip target) :
    ({ l with lastSnapshot := some target } : Ledger D).Tree own := by
  obtain ⟨h, hmem, rfl⟩ := ht.tip tip htip
  refine ⟨ht.ordered, ht.below, ht.stored, fun x hx => ?_, fun hnone => by cases hnone⟩
  obtain rfl := Option.some.inj hx
  exact ht.ancestor_mem hmem hanc

/-- A commit puts one more header below the last snapshot. -/
theorem Tree.commit {own : List (Write D)} {l : Ledger D} (ht : l.Tree own)
    {header : SnapshotHeader D} {p : PendingCommit D} (hparent : header.parent = l.lastSnapshot)
    (hseq : header.seq = l.seq) :
    ({ l.extend [.putSnapshot header] with
      lastSnapshot := some (snapshotId header)
      seq := l.seq + 1
      pendingCommit := some p } : Ledger D).Tree (own ++ [.putSnapshot header]) := by
  have hheaders : headersOf (own ++ [.putSnapshot header]) = headersOf own ++ [header] := by
    rw [headersOf_append]
    rfl
  have hlast : header ∈ headersOf (own ++ [.putSnapshot header]) := by
    rw [hheaders]
    exact List.mem_append_right _ (List.mem_singleton_self _)
  refine ⟨?_, fun h hmem => ?_, fun h hmem => ?_, fun x hx => ?_, fun hnone => by cases hnone⟩
  · rw [hheaders]
    refine (AppendGraph.forall_split_concat
      (P := fun before h => SnapshotHeader.Follows before h)).mpr ⟨ht.ordered, ?_, ?_, ?_⟩
    · intro h' hmem'
      rw [hseq]
      exact ht.below h' hmem'
    · intro hempty
      cases hlast : l.lastSnapshot with
      | none => rw [hparent, hlast]
      | some x =>
          obtain ⟨h', hmem', -⟩ := ht.tip x hlast
          simp [hempty] at hmem'
    · intro hne
      cases hlast : l.lastSnapshot with
      | none => exact absurd (ht.root hlast) hne
      | some x =>
          obtain ⟨h', hmem', rfl⟩ := ht.tip x hlast
          exact ⟨h', hmem', hparent.trans hlast⟩
  · rw [hheaders, List.mem_append] at hmem
    rcases hmem with hmem | hmem
    · exact Nat.lt_succ_of_lt (ht.below h hmem)
    · obtain rfl := List.mem_singleton.mp hmem
      exact hseq ▸ Nat.lt_succ_self _
  · rw [hheaders, List.mem_append] at hmem
    rcases hmem with hmem | hmem
    · exact Disk.replay_getHeader_mono l.writes [.putSnapshot header] (ht.stored h hmem)
    · obtain rfl := List.mem_singleton.mp hmem
      exact l.getHeader_extend_putSnapshot h
  · obtain rfl := Option.some.inj hx
    exact ⟨header, hlast, rfl⟩

/-- Every move keeps the tree. -/
theorem Tree.step {own ws : List (Write D)} {l l' : Ledger D} (ht : l.Tree own)
    (h : Ledger.Step l l') (hwrites : l'.writes = l.writes ++ ws) : l'.Tree (own ++ ws) := by
  cases h with
  | calm hcalm =>
      cases hcalm with
      | quiet _ _ _ =>
          obtain rfl := List.append_cancel_left hwrites
          exact ht.frame rfl ⟨_, rfl⟩ rfl rfl
      | move htip hanc _ _ _ _ =>
          obtain rfl := List.append_cancel_left hwrites
          exact (ht.move htip hanc).frame rfl ⟨_, rfl⟩ rfl rfl
  | block data =>
      obtain rfl := List.append_cancel_left hwrites
      exact ht.frame rfl ⟨_, rfl⟩ rfl rfl
  | commit _ hparent hseq _ _ =>
      obtain rfl := List.append_cancel_left hwrites
      exact ht.commit hparent hseq
  | publish writer _ _ _ _ _ =>
      obtain rfl := List.append_cancel_left hwrites
      exact ht.frame rfl ⟨_, rfl⟩ rfl rfl
  | _ =>
      obtain rfl : ws = [] := by simpa using hwrites
      exact ht.frame rfl ⟨[], (List.append_nil _).symm⟩ rfl rfl

end Ledger

/-! ### Since a wake -/

/-- Where entries that go from one snapshot to another have led, from a given snapshot on. -/
def retarget (start : Option D) (ws : List (Write D)) : Option D :=
  (((entriesOf ws).filter fun e => e.hashBefore ≠ e.hashAfter).getLast?.map
    LogEntry.hashAfter).or start

omit [ContentHash D] in
theorem retarget_entry (start : Option D) (ws : List (Write D)) (writer : Writer)
    (e : LogEntry D) :
    retarget start (ws ++ [.append writer e]) =
      if e.hashBefore = e.hashAfter then retarget start ws else some e.hashAfter := by
  rw [retarget, entriesOf_concat, List.filter_append]
  split_ifs with hsame
  · simp [hsame, retarget]
  · simp [hsame]

omit [ContentHash D] in
theorem retarget_of_entriesOf_nil (start : Option D) {ws ws' : List (Write D)}
    (hnone : entriesOf ws' = []) : retarget start (ws ++ ws') = retarget start ws := by
  rw [retarget, entriesOf_append, hnone, List.append_nil]
  rfl

namespace Ledger

/-- What the agent has written since a wake that gave it a last snapshot: before the first
commit, the last snapshot is where rollbacks have led, and the first header has this parent. -/
structure SinceWake (start : Option D) (own : List (Write D)) (l : Ledger D) : Prop where
  uncommitted : headersOf own = [] →
    l.pendingCommit = none ∧ l.lastSnapshot = retarget start own
  first : ∀ before w after, own = before ++ w :: after → ∀ header, w = .putSnapshot header →
    headersOf before = [] → header.parent = retarget start before

omit [ContentHash D] in
/-- A further write that puts no header. -/
theorem SinceWake.write {start : Option D} {own : List (Write D)} {l l' : Ledger D}
    (hs : l.SinceWake start own) {w : Write D} (hw : headersOf [w] = [])
    (hlast : headersOf own = [] → l'.pendingCommit = none ∧
      l'.lastSnapshot = retarget start (own ++ [w])) : l'.SinceWake start (own ++ [w]) := by
  refine ⟨fun hnone => ?_, ?_⟩
  · rw [headersOf_append, hw, List.append_nil] at hnone
    exact hlast hnone
  · refine (AppendGraph.forall_split_concat (P := fun before w => ∀ header,
      w = .putSnapshot header → headersOf before = [] →
        header.parent = retarget start before)).mpr ⟨hs.first, ?_⟩
    rintro header rfl
    cases hw

omit [ContentHash D] in
/-- A change that leaves the last snapshot where it is and starts no commit. -/
theorem SinceWake.frame {start : Option D} {own : List (Write D)} {l l' : Ledger D}
    (hs : l.SinceWake start own) (htip : l'.lastSnapshot = l.lastSnapshot)
    (hpending : l.pendingCommit = none → l'.pendingCommit = none) : l'.SinceWake start own := by
  refine ⟨fun hnone => ?_, hs.first⟩
  obtain ⟨hidle, hlast⟩ := hs.uncommitted hnone
  exact ⟨hpending hidle, htip.trans hlast⟩

/-- A calm move: an entry that stays at the last snapshot, or a rollback. -/
theorem SinceWake.calm {start : Option D} {own ws : List (Write D)} {l l' : Ledger D}
    (hs : l.SinceWake start own) (h : Ledger.Calm l l') (hwrites : l'.writes = l.writes ++ ws) :
    l'.SinceWake start (own ++ ws) := by
  cases h with
  | @quiet e _ hbefore hafter =>
      obtain rfl := List.append_cancel_left hwrites
      refine hs.write rfl fun hnone => ?_
      obtain ⟨hidle, hlast⟩ := hs.uncommitted hnone
      rw [retarget_entry, if_pos (hbefore.trans hafter.symm)]
      exact ⟨hidle, hlast⟩
  | @move tip target seq e htip _ _ _ hbefore hafter =>
      obtain rfl := List.append_cancel_left hwrites
      refine hs.write rfl fun hnone => ?_
      obtain ⟨hidle, hlast⟩ := hs.uncommitted hnone
      refine ⟨hidle, ?_⟩
      rw [retarget_entry]
      split_ifs with hsame
      · rw [← hlast, htip, ← hbefore, hsame, hafter]
      · rw [hafter]

/-- Every move keeps track of where the first snapshot branches off. -/
theorem SinceWake.step {start : Option D} {own ws : List (Write D)} {l l' : Ledger D}
    (hs : l.SinceWake start own) (h : Ledger.Step l l') (hwrites : l'.writes = l.writes ++ ws) :
    l'.SinceWake start (own ++ ws) := by
  cases h with
  | calm hcalm => exact hs.calm hcalm hwrites
  | block data =>
      obtain rfl := List.append_cancel_left hwrites
      refine hs.write rfl fun hnone => ?_
      rw [retarget_of_entriesOf_nil start rfl]
      exact hs.uncommitted hnone
  | @commit header p _ hparent _ _ _ =>
      obtain rfl := List.append_cancel_left hwrites
      refine ⟨fun hnone => ?_, ?_⟩
      · rw [headersOf_append] at hnone
        exact absurd (List.append_eq_nil_iff.mp hnone).2 (by simp [headersOf])
      · refine (AppendGraph.forall_split_concat (P := fun before w => ∀ header,
          w = .putSnapshot header → headersOf before = [] →
            header.parent = retarget start before)).mpr ⟨hs.first, ?_⟩
        intro header' heq hnone
        cases heq
        exact hparent.trans (hs.uncommitted hnone).2
  | publish writer hp _ _ _ _ =>
      obtain rfl := List.append_cancel_left hwrites
      refine hs.write rfl fun hnone => ?_
      exact absurd ((hs.uncommitted hnone).1.symm.trans hp) (by simp)
  | forget =>
      obtain rfl : ws = [] := by simpa using hwrites
      rw [List.append_nil]
      exact hs.frame rfl fun _ => rfl
  | restore =>
      obtain rfl : ws = [] := by simpa using hwrites
      rw [List.append_nil]
      exact hs.frame rfl fun _ => rfl
  | _ =>
      obtain rfl : ws = [] := by simpa using hwrites
      rw [List.append_nil]
      exact hs.frame rfl fun hnone => hnone

end Ledger

/-! ### Runs of an agent -/

/-- An agent that has just woken has the last snapshot of its evicted state. -/
theorem Actor.sinceWake {a a' : Actor D} {ev : EvictedState D} {params : BuildParams}
    {memory : List UInt8} (hphase : a.phase = .evicted ev)
    (h : a.step (.wake params memory) = some a') (hspawned : a'.phase = .spawned) :
    a'.ledger.SinceWake ev.lastSnapshot [] := by
  cases trans_of_step h with
  | @wake ev' _ _ hphase' _ =>
      obtain rfl : ev = ev' := Phase.evicted.inj (hphase.symm.trans hphase')
      exact ⟨fun _ => ⟨rfl, rfl⟩, fun before w after heq => by simp at heq⟩
  | refuse _ _ => cases hphase.symm.trans hspawned

/-- Writes of others keep the tree. -/
theorem Ledger.Tree.extend {own : List (Write D)} {l : Ledger D} (ht : l.Tree own)
    (ws : List (Write D)) : (l.extend ws).Tree own := by
  have hframe : (l.extend ws).Tree (own ++ []) := ht.frame rfl ⟨ws, rfl⟩ rfl rfl
  rwa [List.append_nil] at hframe

/-- A newly built agent has no snapshots. -/
theorem Actor.tree_new (id : AgentId) (params : BuildParams) (memory : List UInt8)
    (w : World D) : (Actor.new id params memory w).ledger.Tree [] := by
  refine ⟨fun before h after heq => ?_, ?_, ?_, ?_, fun _ => rfl⟩
  · simp [headersOf] at heq
  · simp [headersOf]
  · simp [headersOf]
  · exact fun x hx => by cases hx

/-- The tree of snapshots in every step. -/
theorem Actor.tree_step {own : List (Write D)} {a a' : Actor D} {ev : Event D} (hc : a.Coherent)
    (ht : a.ledger.Tree own) (h : a.step ev = some a') :
    a'.ledger.Tree (own ++ a.written ev a') :=
  step_invariant_own (P := fun own l => l.Tree own)
    (fun _ _ _ _ ht hstep hwrites => ht.step hstep hwrites) (fun _ _ ws ht => ht.extend ws) hc ht h

/-- The tree of snapshots in every run. -/
theorem Actor.tree_of_run {id : AgentId} {params : BuildParams} {memory : List UInt8}
    {w : World D} {evs : List (Event D)} {a : Actor D}
    (hrun : Machine.run Actor.step (.new id params memory w) evs = some a) :
    a.ledger.Tree ((Actor.new id params memory w).ownWrites evs) :=
  run_invariant_own (P := fun own l => l.Tree own)
    (fun _ _ _ _ ht hstep hwrites => ht.step hstep hwrites) (fun _ _ ws ht => ht.extend ws)
    (coherent_new _ _ _ _) (tree_new id params memory w) hrun

/-- Every snapshot that the agent creates has a larger sequence number than all before it, and
unless it is the first one, its parent is one of them. The last snapshot and all its ancestors
are among them and below the sequence number of the agent. The first snapshot after a wake has
as its parent the last snapshot of the evicted state or, if a rollback has moved the agent since
the wake, the target of the last such rollback. -/
theorem snapshot_tree {id : AgentId} {params : BuildParams} {memory : List UInt8} {w : World D}
    {evs : List (Event D)} {a : Actor D}
    (hrun : Machine.run Actor.step (.new id params memory w) evs = some a) :
    (∀ before h after,
      headersOf ((Actor.new id params memory w).ownWrites evs) = before ++ h :: after →
        h.Follows before) ∧
    (∀ tip, a.caller.data.lastSnapshot = some tip → ∀ x, a.ledger.store.AncestorOrSelf tip x →
      ∃ h ∈ headersOf ((Actor.new id params memory w).ownWrites evs),
        a.ledger.store.getHeader x = some h ∧ h.seq < a.caller.data.seq) ∧
    (∀ evs₁ params' memory' evs₂ b ev b', evs = evs₁ ++ .wake params' memory' :: evs₂ →
      Machine.run Actor.step (.new id params memory w) evs₁ = some b → b.phase = .evicted ev →
      b.step (.wake params' memory') = some b' → b'.phase = .spawned →
      ∀ before h after, b'.ownWrites evs₂ = before ++ .putSnapshot h :: after →
        headersOf before = [] → h.parent = retarget ev.lastSnapshot before) := by
  have htree := Actor.tree_of_run hrun
  refine ⟨htree.ordered, ?_, ?_⟩
  · intro tip htip x hx
    obtain ⟨h, hmem, rfl⟩ := htree.tip tip htip
    obtain ⟨h', hmem', rfl⟩ := htree.ancestor_mem hmem hx
    exact ⟨h', hmem', htree.stored h' hmem', htree.below h' hmem'⟩
  · rintro evs₁ params' memory' evs₂ b ev b' rfl hb hphase hwake hspawned before h after heq
      hnone
    obtain ⟨m, hm, hrest⟩ := Machine.run_append_eq_some.mp hrun
    obtain rfl : b = m := Option.some.inj (hb.symm.trans hm)
    obtain ⟨b'', hb'', hrun₂⟩ := Machine.run_cons_eq_some.mp hrest
    obtain rfl : b' = b'' := Option.some.inj (hwake.symm.trans hb'')
    have hcoherent : b.Coherent := Actor.coherent_of_run (Actor.coherent_new _ _ _ _) hb
    have hsince := Actor.run_invariant_own
      (P := fun own l => l.SinceWake ev.lastSnapshot own)
      (fun _ _ _ _ hs hstep hwrites => hs.step hstep hwrites)
      (fun _ _ _ hs => hs.frame rfl fun hnone => hnone)
      (Actor.step_coherent hcoherent hwake)
      (Actor.sinceWake hphase hwake hspawned) hrun₂
    exact hsince.first before _ after heq h rfl hnone

/-! ### A rollback between a wake and a commit -/

/-- Two commits and an eviction. -/
def committedTwice : List (Event (List ℕ)) :=
  .start :: Actor.dataCycle [.commitBarrier, .emit 1 0 4] ++ Actor.dataCycle [.commitBarrier] ++
    [.recv .evict []]

/-- The wake of the agent. -/
def wakeUp : Event (List ℕ) :=
  .wake { clock := fun n => n + 30, capStore := 0, kvStore := 0, causeHandleRegistry := 0 }
    [0, 0, 0, 0]

/-- A rollback to the first snapshot, and a commit. -/
def rolledBackCommit : List (Event (List ℕ)) :=
  .start :: .recv (.rollback 0) [] :: Actor.dataCycle [.commitBarrier]

/-- The run has three snapshots, of which the last one branches off the first. -/
theorem snapshot_tree_rolledBackCommit :
    ∃ a : Actor (List ℕ),
      Machine.run Actor.step Actor.sampleAgent (committedTwice ++ wakeUp :: rolledBackCommit) =
        some a ∧
      (headersOf (Actor.sampleAgent.ownWrites
        (committedTwice ++ wakeUp :: rolledBackCommit))).length = 3 ∧
      (∀ before h after, headersOf (Actor.sampleAgent.ownWrites
        (committedTwice ++ wakeUp :: rolledBackCommit)) = before ++ h :: after →
          h.Follows before) := by
  have hrun : (Machine.run Actor.step Actor.sampleAgent
      (committedTwice ++ wakeUp :: rolledBackCommit)).isSome = true := by
    decide +kernel
  obtain ⟨a, ha⟩ := Option.isSome_iff_exists.mp hrun
  exact ⟨a, ha, by decide +kernel, (snapshot_tree ha).1⟩

/-- The first snapshot after the wake does not have the last snapshot of the evicted state as
its parent. -/
theorem commit_after_rollback_branches :
    ∃ b b' : Actor (List ℕ),
      Machine.run Actor.step Actor.sampleAgent committedTwice = some b ∧
      b.phase = .evicted b.evictedState ∧ b.step wakeUp = some b' ∧ b'.phase = .spawned ∧
      (Machine.run Actor.step b' rolledBackCommit).isSome = true ∧
      ∃ h ∈ (headersOf (b'.ownWrites rolledBackCommit)).head?,
        h.parent ≠ b.evictedState.lastSnapshot := by
  have hrun : (Machine.run Actor.step Actor.sampleAgent committedTwice).any
      (fun b : Actor (List ℕ) => decide (b.phase = .evicted b.evictedState) &&
        (b.step wakeUp).any fun b' : Actor (List ℕ) => decide (b'.phase = .spawned ∧
          (Machine.run Actor.step b' rolledBackCommit).isSome = true ∧
          ∃ h ∈ (headersOf (b'.ownWrites rolledBackCommit)).head?,
            h.parent ≠ b.evictedState.lastSnapshot)) = true := by
    decide +kernel
  obtain ⟨b, hb, hdecided⟩ := (Option.any_eq_true _ _).mp hrun
  obtain ⟨hevicted, hwake⟩ := Bool.and_eq_true_iff.mp hdecided
  obtain ⟨b', hb', hrest⟩ := (Option.any_eq_true _ _).mp hwake
  obtain ⟨hspawned, hgoes, hparent⟩ := of_decide_eq_true hrest
  exact ⟨b, b', hb, of_decide_eq_true hevicted, hb', hspawned, hgoes, hparent⟩

end Torpor
