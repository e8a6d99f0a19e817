import Mathlib.Data.Nat.ModEq
import Torpor.Durability.Harness
import Torpor.Lib.Machine

/-!
# The Concurrent Crash Harness

The threads of `s15-writer` write to one store and one log, each its own chain of commits, and
the main thread waits for a number of them, collects what each thread has acknowledged and ends
the process. A step is one write or one access to shared memory of one thread; the steps come in
any order. A thread stops where a write fails. Timestamps wrap at 64 bits.

## Main results

* `Recorded.verdict`: what `verify_p6_concurrent` counts for commits of interleaved scripts.
* `s15_verdict`: after every run and for every two cuts there is no gap and no missing parent, and
  the verdict is that the store keeps as many commits of each thread as the log.
* `s15_ordered`: the verdict is positive if the log has lost as much as the store.
-/

namespace Torpor

open ByteOrder Script

/-! ### What two cuts keep of interleaved scripts -/

/-- How many commits of a writer a cut of the log keeps. -/
def loggedAt {ω : Type*} (js : List (ℕ × ω)) (j idx : ℕ) : ℕ := (written idx (js.take j) - 1) / 2

/-- How many commits of a writer a cut of the store keeps. -/
def storedAt {ω : Type*} (js : List (ℕ × ω)) (i idx : ℕ) : ℕ := written idx (js.take i) / 2

/-- What a witness tells of each writer: its first commits, all of them written. -/
def Acknowledged (H : Hashes) (c : ℕ → Synthetic) (js : List (ℕ × Write Digest))
    (agents : List AgentWitness) : Prop :=
  ∀ idx a, agents[idx]? = some a → ∃ k, (k = 0 ∨ 2 * k + 1 ≤ written idx js) ∧
    a.ackedCommits = (List.range k).map ((c idx).commit H)

/-- A list that satisfies a predicate up to some place and nowhere behind it. -/
theorem span_of_split {α : Type*} {p : α → Bool} {pre rest : List α} (hpre : ∀ x ∈ pre, p x)
    (hrest : ∀ x ∈ rest, ¬ p x) :
    (pre ++ rest).takeWhile p = pre ∧ (pre ++ rest).dropWhile p = rest := by
  rw [List.takeWhile_append_of_pos hpre, List.dropWhile_append_of_pos hpre]
  cases rest with
  | nil => exact ⟨List.append_nil pre, rfl⟩
  | cons x rest =>
      have hx := hrest x List.mem_cons_self
      rw [List.takeWhile_cons_of_neg hx, List.dropWhile_cons_of_neg hx, List.append_nil]
      exact ⟨rfl, rfl⟩

namespace Recorded

variable {H : Hashes} {c : ℕ → Synthetic} {js : List (ℕ × Write Digest)}

/-- The store and the log after a crash. -/
abbrev cut (H : Hashes) (js : List (ℕ × Write Digest)) (i : ℕ) : Disk Digest :=
  H.replay ((js.take i).map Prod.snd)

section Commit

variable (h : Recorded H c js) {idx k : ℕ} (hk : 2 * k + 2 < written idx js)

include h hk

theorem present_iff (j : ℕ) :
    ((c idx).commit H k).Present (cut H js j).log ↔ k < loggedAt js j idx := by
  have hkey : ((c idx).commit H k).Present (cut H js j).log ↔
      ((cut H js j).log.get (H.actionId ((c idx).entry H k))).isSome = true :=
    IcsrCommit.exists_key_iff
  rw [hkey, h.isSome_get_iff hk j, loggedAt]
  omega

/-- The parents of an entry in the log are in the log. -/
theorem parents_present {j : ℕ} (hj : k < loggedAt js j idx) {d : Digest} {e : LogEntry Digest}
    (hd : hexEncode d.val = ((c idx).commit H k).actionIdHex)
    (he : (cut H js j).log.get d = some e) :
    ∀ parent ∈ e.parentIds, parent ∈ (cut H js j).log.default.keys := by
  obtain rfl : d = H.actionId ((c idx).entry H k) := hexEncode_inj.mp hd
  obtain rfl := h.get_cut hk he
  intro parent hparent
  rcases k with _ | k
  · cases hparent
  · obtain rfl := List.mem_singleton.mp hparent
    rw [loggedAt] at hj
    have hget := (h.isSome_get_iff (k := idx) (n := k) (by omega) j).mpr (by omega)
    exact IcsrCommit.isSome_lookup_iff.mp hget

theorem kept_iff {i j : ℕ} (hj : k < loggedAt js j idx) :
    ((c idx).commit H k).Kept (cut H js i).store (cut H js j).log ↔ k < storedAt js i idx := by
  have hsnap : (∃ d ∈ (cut H js i).store.headers.keys,
      hexEncode d.val = ((c idx).commit H k).snapshotIdHex) ↔ k < storedAt js i idx := by
    have hkey : (∃ d ∈ (cut H js i).store.headers.keys,
          hexEncode d.val = ((c idx).commit H k).snapshotIdHex) ↔
        (cut H js i).store.hasSnapshot (H.snapshotId ((c idx).header H k)) = true :=
      IcsrCommit.exists_key_iff
    rw [hkey, h.hasSnapshot_iff (k := idx) (n := k) (by omega) i, storedAt]
    omega
  constructor
  · exact fun hkept => hsnap.mp hkept.snapshot
  · intro hi
    have hblock := h.isSome_getBlock (k := idx) (i := i) (by rw [storedAt] at hi; omega)
    exact ⟨hsnap.mpr hi, IcsrCommit.exists_key_iff.mpr hblock,
      fun d e hd he => h.parents_present hk hj hd he⟩

end Commit

/-! #### One writer -/

section Agent

variable (h : Recorded H c js) {idx n : ℕ} (hn : n = 0 ∨ 2 * n + 1 ≤ written idx js) (i j : ℕ)

include h hn

/-- The commits of a writer in the log are the first ones. -/
theorem exists_split : ∃ pre rest, (List.range n).map ((c idx).commit H) = pre ++ rest ∧
    pre = (List.range (min n (loggedAt js j idx))).map ((c idx).commit H) ∧
    (∀ x ∈ pre, x.Present (cut H js j).log) ∧ ∀ x ∈ rest, ¬ x.Present (cut H js j).log := by
  set m := min n (loggedAt js j idx) with hm
  have htake : (List.range n).take m = List.range m := by
    rw [List.take_range, Nat.min_eq_left (Nat.min_le_left _ _)]
  refine ⟨(List.range m).map ((c idx).commit H), ((List.range n).drop m).map ((c idx).commit H),
    ?_, rfl, ?_, ?_⟩
  · rw [← List.map_append, ← htake, List.take_append_drop]
  · intro x hx
    obtain ⟨k, hk, rfl⟩ := List.mem_map.mp hx
    rw [List.mem_range] at hk
    exact (h.present_iff (by omega) j).mpr (by omega)
  · intro x hx hpresent
    obtain ⟨k, hk, rfl⟩ := List.mem_map.mp hx
    obtain ⟨l, hl, rfl⟩ := List.mem_iff_getElem.mp hk
    rw [List.length_drop, List.length_range] at hl
    rw [List.getElem_drop, List.getElem_range] at hpresent
    have hlogged := (h.present_iff (by omega) j).mp hpresent
    omega

/-- Nothing is reported of a writer exactly if the store keeps as many commits as the log. -/
theorem clean_iff : (∃ pre rest, (List.range n).map ((c idx).commit H) = pre ++ rest ∧
      (∀ x ∈ pre, x.Present (cut H js j).log ∧ x.Kept (cut H js i).store (cut H js j).log) ∧
        ∀ x ∈ rest, ¬ x.Present (cut H js j).log) ↔
    min n (loggedAt js j idx) ≤ storedAt js i idx := by
  obtain ⟨pre, rest, hsplit, rfl, hpre, hrest⟩ := h.exists_split hn j
  constructor
  · rintro ⟨pre', rest', hsplit', hpre', hrest'⟩
    by_contra hlt
    set k := storedAt js i idx with hk
    have hmem : (c idx).commit H k ∈ (List.range n).map ((c idx).commit H) :=
      List.mem_map.mpr ⟨k, List.mem_range.mpr (by omega), rfl⟩
    have hpresent : ((c idx).commit H k).Present (cut H js j).log :=
      (h.present_iff (by omega) j).mpr (by omega)
    rw [hsplit', List.mem_append] at hmem
    have hkept := (hpre' _ (hmem.resolve_right fun hr => hrest' _ hr hpresent)).2
    have hstored := (h.kept_iff (by omega) (by omega)).mp hkept
    omega
  · intro hle
    refine ⟨_, rest, hsplit, fun x hx => ⟨hpre x hx, ?_⟩, hrest⟩
    obtain ⟨k, hk, rfl⟩ := List.mem_map.mp hx
    rw [List.mem_range] at hk
    exact (h.kept_iff (by omega) (by omega)).mpr (by omega)

omit i in
/-- The scan of a writer's commits. -/
theorem span_commits :
    ((List.range n).map ((c idx).commit H)).takeWhile (fun x => x.Present (cut H js j).log) =
        (List.range (min n (loggedAt js j idx))).map ((c idx).commit H) ∧
      ∀ x ∈ ((List.range n).map ((c idx).commit H)).dropWhile
        (fun x => x.Present (cut H js j).log), ¬ x.Present (cut H js j).log := by
  obtain ⟨pre, rest, hsplit, hmin, hpre, hrest⟩ := h.exists_split hn j
  obtain ⟨htake, hdrop⟩ := span_of_split (p := fun x => x.Present (cut H js j).log)
    (fun x hx => decide_eq_true (hpre x hx)) (fun x hx => by simpa using hrest x hx)
  rw [hsplit, htake, hdrop]
  exact ⟨hmin, hrest⟩

/-- What is reported of a writer: the commits in the log, no gap and no missing parent. -/
theorem round_commits (agentIdHex : List Char) :
    let r := VerifyP6.round (cut H js i).store (cut H js j).log agentIdHex
      (((List.range n).map ((c idx).commit H)).map IcsrCommit.sound)
    r.visible = min n (loggedAt js j idx) ∧ r.gaps = [] ∧ r.orphans = [] := by
  intro r
  have hwell : ∀ x ∈ (List.range n).map ((c idx).commit H), x.WellSpelt :=
    List.forall_mem_map.mpr fun k _ => Synthetic.wellSpelt_commit k
  have hspan := h.span_commits hn j
  have hscan := (@span_sound (cut H js j).log _ hwell).1
  rw [hspan.1] at hscan
  refine ⟨?_, ?_, ?_⟩
  · rw [show r.visible = VerifyP6.prefixLen _ _ from rfl, VerifyP6.prefixLen_eq, hscan,
      List.length_map, List.length_map, List.length_range]
  · have hlength := @length_gaps_sound (cut H js j).log _ hwell agentIdHex
    rw [List.countP_eq_zero.mpr fun x hx => by simpa using hspan.2 x hx] at hlength
    exact List.eq_nil_of_length_eq_zero hlength
  · rw [show r.orphans = List.flatMap _ _ from rfl, (VerifyP6.take_drop_prefixLen _ _).1, hscan,
      List.flatMap_eq_nil_iff]
    intro p hp
    obtain ⟨x, hx, rfl⟩ := List.mem_map.mp hp
    obtain ⟨k, hk, rfl⟩ := List.mem_map.mp hx
    rw [List.mem_range] at hk
    rw [VerifyP6.orphans_eq_nil_iff,
      IcsrCommit.parents_sound_iff (Synthetic.wellSpelt_commit k).actionId]
    exact fun d e hd he => h.parents_present (by omega) (by omega) hd he

end Agent

/-- **What `verify_p6_concurrent` finds after a crash.** -/
theorem verdict (h : Recorded H c js) {w : ConcurrentWitness}
    (hack : Acknowledged H c js w.agents) (i j : ℕ) :
    let r := verifyP6Concurrent (cut H js i).store (cut H js j).log noFaults w
    r.totalGaps = 0 ∧ r.totalParentViolations = 0 ∧
      r.totalVisible = (w.agents.zipIdx.map fun x =>
        min x.1.ackedCommits.length (loggedAt js j x.2)).sum ∧
      (r.p6Ok = true ↔ ∀ idx a, w.agents[idx]? = some a →
        min a.ackedCommits.length (loggedAt js j idx) ≤ storedAt js i idx) := by
  intro r
  have hround : ∀ x ∈ w.agents.zipIdx,
      let round := VerifyP6.round (cut H js i).store (cut H js j).log x.1.agentIdHex
        (probes (noFaults x.2) x.1.ackedCommits)
      round.visible = min x.1.ackedCommits.length (loggedAt js j x.2) ∧ round.gaps = [] ∧
        round.orphans = [] := by
    rintro ⟨a, idx⟩ hx
    obtain ⟨n, hn, hcommits⟩ := hack idx a (List.mk_mem_zipIdx_iff_getElem?.mp hx)
    have hcommitted := h.round_commits hn i j a.agentIdHex
    simp only [hcommits, probes_noFaults, List.length_map, List.length_range]
    exact hcommitted
  refine ⟨?_, ?_, ?_, ?_⟩
  · refine List.sum_eq_zero_iff_forall_eq_nat.mpr (List.forall_mem_map.mpr ?_)
    refine List.forall_mem_map.mpr fun x hx => ?_
    rw [(hround x hx).2.1]
    rfl
  · refine List.sum_eq_zero_iff_forall_eq_nat.mpr (List.forall_mem_map.mpr ?_)
    refine List.forall_mem_map.mpr fun x hx => ?_
    rw [(hround x hx).2.2]
    rfl
  · change ((List.map _ w.agents.zipIdx).map _).sum = _
    rw [List.map_map]
    exact congrArg List.sum (List.map_congr_left fun x hx => (hround x hx).1)
  · have hclean : ∀ idx a, w.agents[idx]? = some a →
        (((∀ p ∈ (a.ackedCommits.map IcsrCommit.sound).dropWhile
              (·.visible (cut H js j).log), ¬ p.visible (cut H js j).log) ∧
            ∀ p ∈ (a.ackedCommits.map IcsrCommit.sound).takeWhile (·.visible (cut H js j).log),
              VerifyP6.Intact (cut H js i).store (cut H js j).log p) ↔
          min a.ackedCommits.length (loggedAt js j idx) ≤ storedAt js i idx) := by
      intro idx a ha
      obtain ⟨n, hn, hcommits⟩ := hack idx a ha
      rw [hcommits, List.length_map, List.length_range, ← h.clean_iff hn i j]
      exact clean_sound_iff (List.forall_mem_map.mpr fun k _ => Synthetic.wellSpelt_commit k)
    rw [VerifyP6.p6Ok_iff]
    simp only [probes_noFaults]
    constructor
    · intro hall idx a ha
      exact (hclean idx a ha).mp (hall (a, idx) (List.mk_mem_zipIdx_iff_getElem?.mpr ha))
    · rintro hall ⟨a, idx⟩ hx
      have ha := List.mk_mem_zipIdx_iff_getElem?.mp hx
      exact (hclean idx a ha).mpr (hall idx a ha)

end Recorded

namespace S15

/-! ### The writer -/

/-- `Args` of the writer. -/
structure Args where
  nAgents : ℕ
  commitsPerAgent : ℕ
  killThreshold : ℕ
  blockSize : ℕ

/-- `agent_id_from_index`. -/
def agentIdFromIndex (idx : ℕ) : AgentId :=
  agentOfBytes ([UInt8.ofNat (idx &&& 0xFF), UInt8.ofNat ((idx >>> 8) &&& 0xFF)] ++
    List.replicate 14 0)

/-- Where a thread is, with the ids that it holds there. -/
inductive Point
  | spawned
  | committing
  | snapshotPut (snapId : Digest)
  | appended (snapId actionId : Digest)
  | acked (snapId actionId : Digest)
  | stopped

/-- A thread. -/
structure Thread where
  point : Point
  parentSnap : Option Digest
  prevAction : Option Digest
  hashBefore : Digest
  seq : ℕ
  ackedVec : List IcsrCommit

/-- A thread that has just been spawned. -/
def Thread.spawn : Thread := ⟨.spawned, none, none, LogStore.zeroDigest, 0, []⟩

/-- Where the main thread is. -/
inductive MainPoint
  | waiting
  | collecting (agents : List AgentWitness)
  | exited (witness : ConcurrentWitness)

/-- The process, with the journal of its writes. -/
structure Process where
  threads : ℕ → Thread
  journal : List (ℕ × Write Digest)
  totalAcked : ℕ
  main : MainPoint

/-- The process at its start. -/
def Process.start : Process := ⟨fun _ => .spawn, [], 0, .waiting⟩

variable (H : Hashes) (args : Args)

/-- The block that every thread puts. -/
def data : Bytes := List.replicate args.blockSize 0xCD

/-- What a step of a thread does: the thread after it, what it writes, and whether it counts an
acknowledged commit. -/
structure Stepped where
  thread : Thread
  writes : List (Write Digest)
  counts : Bool

/-- A thread makes a write, and stops where it fails. -/
def Thread.write (t : Thread) (outcome : WriteEnd) (w : Write Digest) (next : Point) : Stepped :=
  match outcome with
  | .failed reached _ => ⟨{ t with point := .stopped }, WriteEnd.remnant reached w, false⟩
  | .done => ⟨{ t with point := next }, [w], false⟩

/-- A step of the thread `idx`; `outcome` is how its write ends, where it makes one. -/
def threadStep (idx : ℕ) (outcome : WriteEnd) (t : Thread) : Option Stepped :=
  let dataH := H.dataHash (data args)
  match t.point with
  | .spawned => some (t.write outcome (.putBlock (data args)) .committing)
  | .committing =>
      let seq := if t.seq ≥ args.commitsPerAgent then 0 else t.seq
      let header : SnapshotHeader Digest :=
        { dataHash := dataH, parent := t.parentSnap, seq
          tsUs := (seq * 1000 + idx * 1000000) % 2 ^ 64 }
      some (Thread.write { t with seq } outcome (.putSnapshot header)
        (.snapshotPut (H.snapshotId header)))
  | .snapshotPut snapId =>
      let entry : LogEntry Digest :=
        { agentId := agentIdFromIndex idx, tsMs := (t.seq + idx * 1000000) % 2 ^ 64
          parentIds := (t.prevAction.map fun id => [id]).getD []
          hashBefore := t.hashBefore, hashAfter := dataH, emitPayload := none }
      some (t.write outcome (.append .runtime entry) (.appended snapId (H.actionId entry)))
  | .appended snapId actionId =>
      let commit : IcsrCommit :=
        { seq := UInt64.ofNat t.ackedVec.length, actionIdHex := hexEncode actionId.val
          snapshotIdHex := hexEncode snapId.val, dataHashHex := hexEncode dataH.val }
      some ⟨{ t with point := .acked snapId actionId, ackedVec := t.ackedVec ++ [commit] }, [],
        false⟩
  | .acked snapId actionId =>
      some ⟨{ t with point := .committing, parentSnap := some snapId, prevAction := some actionId
                     hashBefore := dataH, seq := t.seq + 1 }, [], true⟩
  | .stopped => none

/-- What the main thread collects of a thread. -/
def witnessOf (idx : ℕ) (t : Thread) : AgentWitness :=
  ⟨hexEncode (agentBytes (agentIdFromIndex idx)), t.ackedVec⟩

/-- A step of the main thread. -/
def mainStep (p : Process) : Option Process :=
  match p.main with
  | .waiting =>
      some (if p.totalAcked ≥ args.killThreshold then { p with main := .collecting [] } else p)
  | .collecting agents =>
      let idx := agents.length
      some { p with main :=
        if idx < args.nAgents then .collecting (agents ++ [witnessOf idx (p.threads idx)])
        else .exited ⟨args.nAgents, agents⟩ }
  | .exited _ => none

/-- Whose step it is. -/
inductive Input
  | thread (idx : ℕ) (outcome : WriteEnd)
  | main

/-- A step of the process, until it exits. -/
def step (p : Process) : Input → Option Process
  | .main => mainStep args p
  | .thread idx outcome =>
      match p.main with
      | .exited _ => none
      | _ =>
          if idx < args.nAgents then
            (threadStep H args idx outcome (p.threads idx)).map fun stepped =>
              { p with
                threads := Function.update p.threads idx stepped.thread
                journal := p.journal ++ stepped.writes.map fun w => (idx, w)
                totalAcked := p.totalAcked + if stepped.counts then 1 else 0 }
          else none

/-! ### The scripts of the threads -/

/-- The sequence number of a commit, which starts again at zero. -/
def seqAt (commitsPerAgent : ℕ) : ℕ → ℕ
  | 0 => 0
  | k + 1 =>
      let seq := seqAt commitsPerAgent k + 1
      if seq ≥ commitsPerAgent then 0 else seq

/-- The commits of a thread. -/
def source (idx : ℕ) : Synthetic where
  agentId := agentIdFromIndex idx
  data := data args
  seq := seqAt args.commitsPerAgent
  tsUs k := (seqAt args.commitsPerAgent k * 1000 + idx * 1000000) % 2 ^ 64
  tsMs k := (seqAt args.commitsPerAgent k + idx * 1000000) % 2 ^ 64

variable {H args}

/-- The thread carries what it has of the commit before. -/
structure Thread.Carries (H : Hashes) (c : Synthetic) (t : Thread) (k : ℕ) : Prop where
  parentSnap : t.parentSnap = c.parentSnap H k
  prevAction : t.prevAction = c.prevAction H k
  hashBefore : t.hashBefore = c.hashBefore H k

/-- What a thread has done when it has written `m` elements of its script. -/
def Thread.At (H : Hashes) (args : Args) (c : Synthetic) (t : Thread) (m : ℕ) : Prop :=
  let k := t.ackedVec.length
  match t.point with
  | .spawned => m = 0 ∧ k = 0 ∧ t.Carries H c 0 ∧ t.seq = 0
  | .committing => m = 2 * k + 1 ∧ t.Carries H c k ∧
      (if t.seq ≥ args.commitsPerAgent then 0 else t.seq) = c.seq k
  | .snapshotPut snapId => m = 2 * k + 2 ∧ t.Carries H c k ∧ t.seq = c.seq k ∧
      snapId = H.snapshotId (c.header H k)
  | .appended snapId actionId => m = 2 * k + 3 ∧ t.seq = c.seq k ∧
      snapId = H.snapshotId (c.header H k) ∧ actionId = H.actionId (c.entry H k)
  | .acked snapId actionId => ∃ l, k = l + 1 ∧ m = 2 * l + 3 ∧ t.seq = c.seq l ∧
      snapId = H.snapshotId (c.header H l) ∧ actionId = H.actionId (c.entry H l)
  | .stopped => k = 0 ∨ 2 * k + 1 ≤ m

/-- A thread has written a beginning of its script, and has acknowledged commits of it. -/
structure Thread.Inv (H : Hashes) (args : Args) (idx : ℕ) (t : Thread) (m : ℕ) : Prop where
  acked : t.ackedVec = (List.range t.ackedVec.length).map ((source args idx).commit H)
  point : t.At H args (source args idx) m

/-- What is acknowledged has been written. -/
theorem Thread.Inv.written {idx m : ℕ} {t : Thread} (h : t.Inv H args idx m) :
    t.ackedVec.length = 0 ∨ 2 * t.ackedVec.length + 1 ≤ m := by
  have hpoint := h.point
  rw [Thread.At] at hpoint
  split at hpoint
  · exact .inl hpoint.2.1
  · exact .inr hpoint.1.ge
  · exact .inr (by omega)
  · exact .inr (by omega)
  · obtain ⟨l, hl, hm, -⟩ := hpoint
    exact .inr (by omega)
  · exact hpoint

/-- What a step of a thread does: it goes on with its script by at most one element. -/
structure Advances (H : Hashes) (args : Args) (idx m : ℕ) (t : Thread) (st : Stepped) : Prop where
  writes : st.writes = [] ∨ st.writes = [(source args idx).script H m]
  inv : st.thread.Inv H args idx (m + st.writes.length)
  acked : t.ackedVec.length ≤ st.thread.ackedVec.length

/-- A write of the next element, whether or not it succeeds. -/
theorem Thread.write_advances {idx m : ℕ} {t : Thread} {w : Write Digest} {next : Point}
    (outcome : WriteEnd) (hw : w = (source args idx).script H m)
    (hwritten : t.ackedVec.length = 0 ∨ 2 * t.ackedVec.length + 1 ≤ m)
    (hnext : ({ t with point := next } : Thread).Inv H args idx (m + 1)) :
    Advances H args idx m t (t.write outcome w next) := by
  obtain rfl := hw
  have hstop : ∀ m' ≥ m, ({ t with point := .stopped } : Thread).Inv H args idx m' :=
    fun m' hm' => ⟨hnext.acked, hwritten.imp_right fun h => h.trans hm'⟩
  cases outcome with
  | done => exact ⟨.inr rfl, hnext, le_rfl⟩
  | failed reached e =>
      cases reached with
      | false => exact ⟨.inl rfl, hstop m le_rfl, le_rfl⟩
      | true => exact ⟨.inr rfl, hstop (m + 1) (Nat.le_succ m), le_rfl⟩

theorem threadStep_advances {idx m : ℕ} {outcome : WriteEnd} {t : Thread} {st : Stepped}
    (hi : t.Inv H args idx m) (h : threadStep H args idx outcome t = some st) :
    Advances H args idx m t st := by
  have hwritten := hi.written
  have hacked := hi.acked
  have hpoint := hi.point
  obtain ⟨point, parentSnap, prevAction, hashBefore, seq, acked⟩ := t
  set c := source args idx with hc
  cases point with
  | spawned =>
      obtain ⟨rfl, hk, hcarries, rfl⟩ := hpoint
      obtain rfl := Option.some.inj h
      refine Thread.write_advances outcome rfl hwritten ⟨hacked, ?_⟩
      change 0 + 1 = 2 * acked.length + 1 ∧ Thread.Carries H c _ acked.length ∧ _ = _
      have hk' : acked.length = 0 := hk
      rw [hk']
      exact ⟨rfl, ⟨hcarries.1, hcarries.2, hcarries.3⟩, ite_self 0⟩
  | committing =>
      obtain ⟨rfl, hcarries, hseq⟩ := hpoint
      obtain rfl := Option.some.inj h
      have hheader : (⟨H.dataHash (data args), parentSnap,
          if seq ≥ args.commitsPerAgent then 0 else seq,
          ((if seq ≥ args.commitsPerAgent then 0 else seq) * 1000 + idx * 1000000) % 2 ^ 64⟩ :
            SnapshotHeader Digest) = c.header H acked.length := by
        rw [Synthetic.header_eq, show (if seq ≥ args.commitsPerAgent then 0 else seq) =
          c.seq acked.length from hseq, show parentSnap = _ from hcarries.parentSnap]
        rfl
      have hadvances : Advances H args idx (2 * acked.length + 1)
          ⟨.committing, parentSnap, prevAction, hashBefore,
            if seq ≥ args.commitsPerAgent then 0 else seq, acked⟩
          (Thread.write _ outcome (.putSnapshot (c.header H acked.length))
            (.snapshotPut (H.snapshotId (c.header H acked.length)))) :=
        Thread.write_advances outcome (Synthetic.script_header _).symm hwritten
          ⟨hacked, rfl, ⟨hcarries.1, hcarries.2, hcarries.3⟩, hseq, rfl⟩
      simp only [hheader]
      exact ⟨hadvances.writes, hadvances.inv, hadvances.acked⟩
  | snapshotPut snapId =>
      obtain ⟨rfl, hcarries, hseq, hsnap⟩ := hpoint
      obtain rfl := Option.some.inj h
      have hentry : (⟨agentIdFromIndex idx, (seq + idx * 1000000) % 2 ^ 64,
          (prevAction.map fun id => [id]).getD [], hashBefore, H.dataHash (data args), none⟩ :
            LogEntry Digest) = c.entry H acked.length := by
        rw [Synthetic.entry_eq, show seq = c.seq acked.length from hseq,
          show prevAction = _ from hcarries.prevAction,
          show hashBefore = _ from hcarries.hashBefore]
        rfl
      simp only [hentry]
      exact Thread.write_advances outcome (Synthetic.script_entry _).symm hwritten
        ⟨hacked, rfl, hseq, hsnap, rfl⟩
  | appended snapId actionId =>
      obtain ⟨rfl, hseq, hsnap, haction⟩ := hpoint
      obtain rfl := Option.some.inj h
      obtain rfl : snapId = H.snapshotId (c.header H acked.length) := hsnap
      obtain rfl : actionId = H.actionId (c.entry H acked.length) := haction
      have hlength : (acked ++ [c.commit H acked.length]).length = acked.length + 1 :=
        List.length_append
      refine ⟨.inl rfl, ⟨?_, acked.length, hlength, rfl, hseq, rfl, rfl⟩, ?_⟩
      · change acked ++ [c.commit H acked.length] =
          (List.range (acked ++ [c.commit H acked.length]).length).map (c.commit H)
        rw [hlength, List.range_succ, List.map_append, List.map_singleton]
        exact congrArg (· ++ [c.commit H acked.length]) hacked
      · change acked.length ≤ (acked ++ [c.commit H acked.length]).length
        omega
  | acked snapId actionId =>
      obtain ⟨k, hk, rfl, hseq, rfl, rfl⟩ := hpoint
      obtain rfl := Option.some.inj h
      obtain hk : acked.length = k + 1 := hk
      refine ⟨.inl rfl, ⟨hacked, ?_⟩, le_rfl⟩
      change 2 * k + 3 = 2 * acked.length + 1 ∧ Thread.Carries H c _ acked.length ∧ _ = _
      obtain hseq : seq = c.seq k := hseq
      rw [hk, hseq]
      exact ⟨rfl, ⟨rfl, rfl, rfl⟩, rfl⟩
  | stopped => cases h

/-! ### Runs of the process -/

/-- What the main thread has collected: of each thread the commits that it had acknowledged. -/
def Collected (H : Hashes) (args : Args) (threads : ℕ → Thread) (agents : List AgentWitness) :
    Prop :=
  ∀ idx a, agents[idx]? = some a → ∃ k ≤ (threads idx).ackedVec.length,
    a.ackedCommits = (List.range k).map ((source args idx).commit H)

/-- The threads have written beginnings of their scripts. -/
structure Process.Inv (H : Hashes) (args : Args) (p : Process) : Prop where
  threads : ∀ idx, (p.threads idx).Inv H args idx (written idx p.journal)
  scripts : Interleaves (fun idx => (source args idx).script H) p.journal
  idle : ∀ idx, 0 < written idx p.journal → idx < args.nAgents
  collected : ∀ agents, p.main = .collecting agents → Collected H args p.threads agents
  exited : ∀ w, p.main = .exited w → Collected H args p.threads w.agents

theorem Process.inv_start : Process.start.Inv H args where
  threads _ := ⟨rfl, rfl, rfl, ⟨rfl, rfl, rfl⟩, rfl⟩
  scripts := Interleaves.nil
  idle _ h := absurd h (lt_irrefl 0)
  collected _ h := by cases h
  exited _ h := by cases h

/-- What has been collected stays acknowledged. -/
theorem Collected.mono {threads threads' : ℕ → Thread} {agents : List AgentWitness}
    (h : Collected H args threads agents)
    (hle : ∀ idx, (threads idx).ackedVec.length ≤ (threads' idx).ackedVec.length) :
    Collected H args threads' agents := by
  intro idx a ha
  obtain ⟨k, hk, hcommits⟩ := h idx a ha
  exact ⟨k, hk.trans (hle idx), hcommits⟩

theorem Process.Inv.mainStep {p p' : Process} (hi : p.Inv H args)
    (h : mainStep args p = some p') : p'.Inv H args := by
  rw [S15.mainStep] at h
  rcases hmain : p.main with _ | agents | w
  · rw [hmain] at h
    obtain rfl := Option.some.inj h
    split_ifs with hreached
    · refine ⟨hi.threads, hi.scripts, hi.idle, ?_, nofun⟩
      rintro agents heq
      obtain rfl := MainPoint.collecting.inj heq
      intro idx a ha
      cases ha
    · exact hi
  · rw [hmain] at h
    obtain rfl := Option.some.inj h
    have hcollected := hi.collected agents hmain
    refine ⟨hi.threads, hi.scripts, hi.idle, ?_, ?_⟩
    · intro agents' heq
      split_ifs at heq with hlt
      obtain rfl := MainPoint.collecting.inj heq
      intro idx a ha
      rcases lt_trichotomy idx agents.length with hidx | rfl | hidx
      · rw [List.getElem?_append_left hidx] at ha
        exact hcollected idx a ha
      · rw [List.getElem?_concat_length] at ha
        obtain rfl := Option.some.inj ha
        exact ⟨_, le_rfl, (hi.threads agents.length).acked⟩
      · rw [List.getElem?_eq_none (by rwa [List.length_append])] at ha
        cases ha
    · intro w heq
      split_ifs at heq with hlt
      obtain rfl := MainPoint.exited.inj heq
      exact hcollected
  · rw [hmain] at h
    cases h

theorem Process.Inv.threadStep {p : Process} (hi : p.Inv H args) {idx : ℕ} {outcome : WriteEnd}
    {st : Stepped} (hidx : idx < args.nAgents)
    (h : threadStep H args idx outcome (p.threads idx) = some st) (n : ℕ) :
    ({ p with threads := Function.update p.threads idx st.thread
              journal := p.journal ++ st.writes.map fun w => (idx, w), totalAcked := n } :
      Process).Inv H args := by
  have hadv := threadStep_advances (hi.threads idx) h
  have hwritten : ∀ k, written k (p.journal ++ st.writes.map fun w => (idx, w)) =
      written k p.journal + if idx = k then st.writes.length else 0 := by
    intro k
    rw [written, Machine.part_append, List.length_append, Machine.part_map]
    split_ifs <;> rfl
  have hle : ∀ k, (p.threads k).ackedVec.length ≤
      (Function.update p.threads idx st.thread k).ackedVec.length := by
    intro k
    obtain rfl | hne := eq_or_ne k idx
    · rw [Function.update_self]
      exact hadv.acked
    · rw [Function.update_of_ne hne]
  refine ⟨fun k => ?_, ?_, fun k hk => ?_, fun agents heq => (hi.collected agents heq).mono hle,
    fun w heq => (hi.exited w heq).mono hle⟩
  · dsimp only
    rw [hwritten]
    obtain rfl | hne := eq_or_ne k idx
    · rw [Function.update_self, if_pos rfl]
      exact hadv.inv
    · rw [Function.update_of_ne hne, if_neg hne.symm]
      exact hi.threads k
  · dsimp only
    rcases hadv.writes with hnone | hone
    · rw [hnone, List.map_nil, List.append_nil]
      exact hi.scripts
    · rw [hone]
      exact hi.scripts.concat idx
  · obtain rfl | hne := eq_or_ne k idx
    · exact hidx
    · dsimp only at hk
      rw [hwritten, if_neg hne.symm] at hk
      exact hi.idle k hk

theorem Process.Inv.step {p p' : Process} {input : Input} (hi : p.Inv H args)
    (h : step H args p input = some p') : p'.Inv H args := by
  cases input with
  | main => exact hi.mainStep h
  | thread idx outcome =>
      rw [S15.step] at h
      split at h
      · cases h
      · split_ifs at h with hidx
        obtain ⟨st, hst, rfl⟩ := Option.map_eq_some_iff.mp h
        exact hi.threadStep hidx hst _

theorem inv_run {is : List Input} {p : Process}
    (hrun : Machine.run (step H args) .start is = some p) : p.Inv H args :=
  Machine.run_invariant (fun _ _ _ hi h => Process.Inv.step hi h) Process.inv_start hrun

/-- The timestamps of two threads start at different instants. -/
theorem offset_inj {j k : ℕ} (hj : j < 2 ^ 58) (hk : k < 2 ^ 58)
    (h : j * 1000000 % 2 ^ 64 = k * 1000000 % 2 ^ 64) : j = k := by
  have hfactor : j * 15625 * 64 ≡ k * 15625 * 64 [MOD 2 ^ 58 * 64] := by
    rw [Nat.mul_assoc, Nat.mul_assoc]
    exact h
  have hodd := Nat.ModEq.mul_right_cancel' (by decide) hfactor
  have hmod := Nat.ModEq.cancel_right_of_coprime (by decide) hodd
  exact hmod.eq_of_lt_of_lt hj hk

theorem Process.Inv.recorded {p : Process} (hi : p.Inv H args) (hn : args.nAgents ≤ 2 ^ 58)
    (hfree : H.Collisionless (p.journal.map Prod.snd)) :
    Recorded H (source args) p.journal where
  scripts := hi.scripts
  collisionless := hfree
  starts j k hj hk h := by
    have hj := (hi.idle j hj).trans_le hn
    have hk := (hi.idle k hk).trans_le hn
    simp only [source, seqAt, Nat.zero_mul, Nat.zero_add, or_self] at h
    exact offset_inj hj hk h

/-- What has been collected has been written. -/
theorem Process.Inv.acknowledged {p : Process} {w : ConcurrentWitness} (hi : p.Inv H args)
    (hexit : p.main = .exited w) : Acknowledged H (source args) p.journal w.agents := by
  intro idx a ha
  obtain ⟨k, hk, hcommits⟩ := hi.exited w hexit idx a ha
  refine ⟨k, ?_, hcommits⟩
  rcases (hi.threads idx).written with hzero | hwritten
  · exact .inl (by omega)
  · exact .inr (by omega)

end S15

section Verdicts

variable {H : Hashes} {args : S15.Args} {is : List S15.Input} {p : S15.Process}
  {w : ConcurrentWitness}

/-- **The concurrent crash harness.** After every run and for every two cuts, the oracle finds no
gap and no missing parent, it sees the commits of each thread that the log keeps, and its verdict
is that the store keeps as many of them. -/
theorem s15_verdict (hn : args.nAgents ≤ 2 ^ 58)
    (hrun : Machine.run (S15.step H args) .start is = some p) (hexit : p.main = .exited w)
    (hfree : H.Collisionless (p.journal.map Prod.snd)) (i j : ℕ) :
    let r := verifyP6Concurrent (H.replay ((p.journal.take i).map Prod.snd)).store
      (H.replay ((p.journal.take j).map Prod.snd)).log noFaults w
    r.totalGaps = 0 ∧ r.totalParentViolations = 0 ∧
      r.totalVisible = (w.agents.zipIdx.map fun x =>
        min x.1.ackedCommits.length (loggedAt p.journal j x.2)).sum ∧
      (r.p6Ok = true ↔ ∀ idx a, w.agents[idx]? = some a →
        min a.ackedCommits.length (loggedAt p.journal j idx) ≤ storedAt p.journal i idx) :=
  have hi := S15.inv_run hrun
  (hi.recorded hn hfree).verdict (hi.acknowledged hexit) i j

/-- **No false alarm.** If the log has lost what was written from some moment on and the store no
more than that, the verdict is positive; if nothing is lost, every acknowledged commit is seen. -/
theorem s15_ordered (hn : args.nAgents ≤ 2 ^ 58)
    (hrun : Machine.run (S15.step H args) .start is = some p) (hexit : p.main = .exited w)
    (hfree : H.Collisionless (p.journal.map Prod.snd)) {i j : ℕ} (hij : j ≤ i) :
    let r := verifyP6Concurrent (H.replay ((p.journal.take i).map Prod.snd)).store
      (H.replay ((p.journal.take j).map Prod.snd)).log noFaults w
    r.p6Ok = true ∧ (p.journal.length ≤ j → r.totalVisible = r.totalAcked) := by
  intro r
  have hi := S15.inv_run hrun
  have hack := hi.acknowledged hexit
  obtain ⟨-, -, hvisible, hok⟩ := (hi.recorded hn hfree).verdict hack i j
  constructor
  · refine hok.mpr fun idx a ha => ?_
    have hmono := written_take_mono idx hij p.journal
    rw [loggedAt, storedAt]
    omega
  · intro hj
    refine hvisible.trans ?_
    rw [show r.totalAcked = (w.agents.map (·.ackedCommits.length)).sum from rfl]
    conv_rhs => rw [← List.zipIdx_map_fst 0 w.agents, List.map_map]
    refine congrArg List.sum (List.map_congr_left fun x hx => ?_)
    obtain ⟨k, hk, hcommits⟩ := hack x.2 x.1 (List.mk_mem_zipIdx_iff_getElem?.mp hx)
    rw [hcommits, List.length_map, List.length_range, loggedAt, List.take_of_length_le hj,
      Function.comp_apply, hcommits, List.length_map, List.length_range]
    omega

end Verdicts

namespace S15

/-- Two threads with a commit each, the writes of one between those of the other. -/
def twoThreads : List Input :=
  [.thread 0 .done, .thread 0 .done, .thread 1 .done, .thread 1 .done, .thread 1 .done,
    .thread 0 .done, .thread 1 .done, .thread 0 .done, .thread 1 .done, .thread 0 .done,
    .main, .main, .main, .main]

/-- The process after that. -/
def twoEnded : Process :=
  (Machine.run (step numbering ⟨2, 1, 2, 1⟩) .start twoThreads).getD .start

/-- What it has collected. -/
def twoWitness : ConcurrentWitness :=
  match twoEnded.main with
  | .exited w => w
  | _ => ⟨0, []⟩

theorem run_twoThreads :
    Machine.run (step numbering ⟨2, 1, 2, 1⟩) .start twoThreads = some twoEnded := rfl

theorem exited_twoEnded : twoEnded.main = .exited twoWitness := rfl

theorem collisionless_twoEnded : numbering.Collisionless (twoEnded.journal.map Prod.snd) := by
  have hentries : ∀ e ∈ entriesOf (twoEnded.journal.map Prod.snd),
      ∀ e' ∈ entriesOf (twoEnded.journal.map Prod.snd),
        numbering.actionId e = numbering.actionId e' → e = e' := by decide
  have hheaders : ∀ h ∈ headersOf (twoEnded.journal.map Prod.snd),
      ∀ h' ∈ headersOf (twoEnded.journal.map Prod.snd),
        numbering.snapshotId h = numbering.snapshotId h' → h = h' := by decide
  exact ⟨fun e he e' he' => hentries e he e' he', fun h hh h' hh' => hheaders h hh h' hh'⟩

end S15

open S15

/-- The store has lost the snapshot of the second thread, and the log has kept its entry. -/
theorem s15_verdict_lost : (verifyP6Concurrent
    (numbering.replay ((twoEnded.journal.take 3).map Prod.snd)).store
    (numbering.replay ((twoEnded.journal.take 5).map Prod.snd)).log noFaults
    twoWitness).p6Ok = false :=
  Bool.eq_false_iff.mpr fun hok =>
    absurd ((s15_verdict (by decide) run_twoThreads exited_twoEnded collisionless_twoEnded
      3 5).2.2.2.mp hok 1 _ rfl) (by decide)

/-- The log has lost the entry of the first thread, and the store nothing. -/
theorem s15_ordered_lost : (verifyP6Concurrent
    (numbering.replay ((twoEnded.journal.take 6).map Prod.snd)).store
    (numbering.replay ((twoEnded.journal.take 5).map Prod.snd)).log noFaults
    twoWitness).p6Ok = true :=
  (s15_ordered (by decide) run_twoThreads exited_twoEnded collisionless_twoEnded
    (by decide : 5 ≤ 6)).1

end Torpor
