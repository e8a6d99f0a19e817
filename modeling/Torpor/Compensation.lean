import Mathlib.Data.List.Induction
import Torpor.CausalLog

/-!
# The Compensation Journal

`Supervisor::rollback` brackets each rollback of an agent with two entries under the reserved
identifier of the scheduler: `CompensationOpen` before it acts and `CompensationClose` when it
is done. After a crash, `check_compensation_journal` reads these entries back and reports the
agents with an open compensation.

The reader scans the index, which is sorted by `(ts_ms, action_id)`: within a millisecond the
order is that of the digests. A `Close` that comes before its `Open` closes nothing, and two
identical entries are one.

## Main results

* `mem_checkCompensationJournal`: an agent is reported if and only if some tail of the
  journal holds more of its `Open`s than of its `Close`s.
* `detection_exact_iff`: for every history of rollbacks, the report is exact if and only if
  no agent whose rollbacks were all closed has such a tail, and the agent of a rollback that
  was cut off has one.
* `detection_exact_of_increasing`: so it is when every entry has a millisecond of its own.
* `close_sorted_before_open`: a rollback that was closed is reported when both entries fall
  into one millisecond and the digest of the `Close` is the smaller one.
-/

namespace Torpor

open ContentHash SortedIndex

variable {D : Type}

/-! ### Writing the journal -/

/-- A reading of `now_ms` followed by one of `now_us`. -/
structure Reading where
  tsMs : ℕ
  tsUs : ℕ
  deriving DecidableEq, Repr

/-- An entry of the scheduler: no parents, no snapshot. -/
def schedulerEntry [ContentHash D] (t : EmitType) (now : Reading) (payload : List UInt8) :
    LogEntry D :=
  { agentId := schedulerAgentId
    tsMs := now.tsMs
    parentIds := []
    hashBefore := zero
    hashAfter := zero
    emitPayload := some (.new t schedulerAgentId 0 now.tsUs payload) }

/-- The entry of `emit_compensation_open`: the agent, and 32 zero bytes for an inference
event that is not known yet. -/
def compensationOpen [ContentHash D] (target : AgentId) (now : Reading) : LogEntry D :=
  schedulerEntry .compensationOpen now (agentBytes target ++ List.replicate 32 0)

/-- The entry of `emit_compensation_close`: the agent, the target and the outcome. -/
def compensationClose [ContentHash D] (target : AgentId) (targetSeq : ℕ) (outcome : UInt8)
    (now : Reading) : LogEntry D :=
  schedulerEntry .compensationClose now (agentBytes target ++ leBytes 8 targetSeq ++ [outcome])

/-! ### Reading the journal -/

/-- What an entry of the journal says. -/
inductive Mark
  | opened (agent : AgentId)
  | closed (agent : AgentId)
  deriving DecidableEq, Repr

/-- The two cases of the `match` in the loop of `check_compensation_journal`. -/
def EmitEnvelope.mark (env : EmitEnvelope) : Option Mark :=
  match EmitType.tryFrom env.emitType with
  | some .compensationOpen =>
      if 16 ≤ env.payload.length then some (.opened (agentOfBytes (env.payload.take 16)))
      else none
  | some .compensationClose =>
      if 16 ≤ env.payload.length then some (.closed (agentOfBytes (env.payload.take 16)))
      else none
  | _ => none

/-- What the loop does to the list of open compensations: push, or remove the first
occurrence if there is one. -/
def Mark.apply (openSet : List AgentId) : Mark → List AgentId
  | .opened agent => openSet ++ [agent]
  | .closed agent => openSet.erase agent

/-- The loop that leaves out repetitions. -/
def pushNew (incomplete : List AgentId) (agent : AgentId) : List AgentId :=
  if agent ∈ incomplete then incomplete else incomplete ++ [agent]

section Reader

variable [LinearOrder D]

/-- The marks of the journal in the order of the index. -/
def CausalLog.journal (log : CausalLog D) (faults : ReadFaults D) : List Mark :=
  (log.idsOf faults schedulerAgentId).filterMap fun id =>
    (log.envelope faults id).bind EmitEnvelope.mark

/-- One round of the loop of `check_compensation_journal`. -/
def CausalLog.journalStep (log : CausalLog D) (faults : ReadFaults D)
    (openSet : List AgentId) (id : D) : List AgentId :=
  match log.envelope faults id with
  | none => openSet
  | some env =>
      match env.mark with
      | none => openSet
      | some mark => mark.apply openSet

/-- `check_compensation_journal`. -/
def checkCompensationJournal (log : CausalLog D) (faults : ReadFaults D) : List AgentId :=
  let allIds := log.idsOf faults schedulerAgentId
  let openSet := allIds.foldl (log.journalStep faults) []
  openSet.foldl pushNew []

end Reader

/-! ### What the reader reports -/

/-- In every tail of the journal, the agent's `Open`s are at most its `Close`s: each `Open`
is closed further on. -/
def Balanced (a : AgentId) (marks : List Mark) : Prop :=
  ∀ tail, tail <:+ marks → tail.count (.opened a) ≤ tail.count (.closed a)

/-- A tail that is long enough to count goes up to the last mark. -/
theorem exists_tail_concat (a : AgentId) (marks : List Mark) (m : Mark) (k : ℕ) :
    (∃ tail, tail <:+ marks ++ [m] ∧ tail.count (.closed a) + k < tail.count (.opened a)) ↔
      ∃ tail, tail <:+ marks ∧
        (tail ++ [m]).count (.closed a) + k < (tail ++ [m]).count (.opened a) := by
  constructor
  · rintro ⟨tail, hsuffix, hlt⟩
    rcases List.suffix_concat_iff.mp hsuffix with rfl | ⟨t, rfl, ht⟩
    · simp at hlt
    · exact ⟨t, ht, hlt⟩
  · rintro ⟨t, ht, hlt⟩
    exact ⟨t ++ [m], List.suffix_concat_iff.mpr (.inr ⟨t, rfl, ht⟩), hlt⟩

/-- The loop counts with a floor at zero, so that what is left open at the end is decided by
the tails. -/
theorem count_foldl_apply (a : AgentId) (marks : List Mark) (k : ℕ) :
    k < (marks.foldl Mark.apply []).count a ↔
      ∃ tail, tail <:+ marks ∧ tail.count (.closed a) + k < tail.count (.opened a) := by
  induction marks using List.reverseRecOn generalizing k with
  | nil => simp
  | append_singleton marks m ih =>
      rw [exists_tail_concat, List.foldl_append, List.foldl_cons, List.foldl_nil]
      cases m with
      | opened b =>
          by_cases hb : b = a
          · subst hb
            have hcount : ((marks.foldl Mark.apply []) ++ [b]).count b =
                (marks.foldl Mark.apply []).count b + 1 := by simp
            rw [Mark.apply, hcount]
            cases k with
            | zero => exact ⟨fun _ => ⟨[], List.nil_suffix, by simp⟩, fun _ => by omega⟩
            | succ k =>
                rw [Nat.add_lt_add_iff_right, ih k]
                refine exists_congr fun tail => and_congr_right fun _ => ?_
                simp [List.count_append]
                omega
          · simpa [Mark.apply, List.count_append, List.count_singleton, hb] using ih k
      | closed b =>
          by_cases hb : b = a
          · subst hb
            rw [Mark.apply, List.count_erase_self]
            have hpred : k < (marks.foldl Mark.apply []).count b - 1 ↔
                k + 1 < (marks.foldl Mark.apply []).count b := by omega
            rw [hpred, ih (k + 1)]
            refine exists_congr fun tail => and_congr_right fun _ => ?_
            simp [List.count_append]
            omega
          · have hab : a ≠ b := fun h => hb h.symm
            rw [Mark.apply, List.count_erase_of_ne hab]
            simpa [List.count_append, List.count_singleton, hb] using ih k

theorem mem_foldl_pushNew (a : AgentId) (openSet incomplete : List AgentId) :
    a ∈ openSet.foldl pushNew incomplete ↔ a ∈ incomplete ∨ a ∈ openSet := by
  induction openSet generalizing incomplete with
  | nil => simp
  | cons b openSet ih =>
      rw [List.foldl_cons, ih]
      have hpush : a ∈ pushNew incomplete b ↔ a ∈ incomplete ∨ a = b := by
        unfold pushNew
        split_ifs with hb
        · exact ⟨.inl, by rintro (h | rfl) <;> assumption⟩
        · simp
      rw [hpush, List.mem_cons, or_assoc]

section Reader

variable [LinearOrder D]

/-- The loop over the entries is the loop over their marks. -/
theorem CausalLog.foldl_journalStep (log : CausalLog D) (faults : ReadFaults D)
    (ids : List D) (openSet : List AgentId) :
    ids.foldl (log.journalStep faults) openSet =
      (ids.filterMap fun id => (log.envelope faults id).bind EmitEnvelope.mark).foldl
        Mark.apply openSet := by
  induction ids generalizing openSet with
  | nil => rfl
  | cons id ids ih =>
      rw [List.foldl_cons, ih, List.filterMap_cons, journalStep]
      rcases log.envelope faults id with _ | env
      · rfl
      · rcases hm : env.mark with _ | m <;> simp [hm]

/-- **What is reported**: the agents that some tail of the journal leaves open. -/
theorem mem_checkCompensationJournal (log : CausalLog D) (faults : ReadFaults D)
    (a : AgentId) :
    a ∈ checkCompensationJournal log faults ↔ ¬ Balanced a (log.journal faults) := by
  have hcount := count_foldl_apply a (log.journal faults) 0
  rw [List.count_pos_iff] at hcount
  unfold checkCompensationJournal
  simp only
  rw [mem_foldl_pushNew, CausalLog.foldl_journalStep]
  change a ∈ [] ∨ a ∈ (log.journal faults).foldl Mark.apply [] ↔ _
  rw [hcount]
  simp [Balanced]

end Reader

/-! ### Histories of rollbacks -/

/-- An entry that the scheduler did not write. -/
abbrev AgentEntry (D : Type) := { e : LogEntry D // e.agentId ≠ schedulerAgentId }

/-- A rollback that ran to its end, with what agents appended meanwhile and after it. -/
structure RollbackCall (D : Type) where
  target : AgentId
  targetSeq : ℕ
  outcome : UInt8
  openedAt : Reading
  meanwhile : List (AgentEntry D)
  closedAt : Reading
  after : List (AgentEntry D)

/-- Rollbacks one after the other, and one more that a crash cut off after its `Open`. -/
structure RollbackHistory (D : Type) where
  before : List (AgentEntry D)
  calls : List (RollbackCall D)
  cutOff : Option (AgentId × Reading × List (AgentEntry D))

section History

variable [ContentHash D]

/-- The entries of a rollback that ran to its end. -/
def RollbackCall.entries (c : RollbackCall D) : List (LogEntry D) :=
  compensationOpen c.target c.openedAt :: c.meanwhile.unattach ++
    compensationClose c.target c.targetSeq c.outcome c.closedAt :: c.after.unattach

/-- The entries of a history in the order in which they were appended. -/
def RollbackHistory.entries (h : RollbackHistory D) : List (LogEntry D) :=
  h.before.unattach ++ h.calls.flatMap RollbackCall.entries ++
    h.cutOff.toList.flatMap fun (target, openedAt, meanwhile) =>
      compensationOpen target openedAt :: meanwhile.unattach

/-- The agent of the rollback that was cut off: the one rollback that appended its `Open` and
not its `Close`. -/
def RollbackHistory.unfinished (h : RollbackHistory D) : Option AgentId :=
  h.cutOff.map Prod.fst

variable [LinearOrder D]

/-- The log that a history leaves. -/
def RollbackHistory.log (h : RollbackHistory D) : CausalLog D := .ofEntries h.entries

/-- The report names exactly the agents with a rollback that appended its `Open` and not its
`Close`. -/
def RollbackHistory.Exact (h : RollbackHistory D) (faults : ReadFaults D) : Prop :=
  ∀ a, a ∈ checkCompensationJournal h.log faults ↔ h.unfinished = some a

/-- **Exact detection.** The report on a history is exact if and only if, in the order of the
index, every agent without an unfinished rollback has its `Open`s closed further on, and the
agent of the unfinished rollback does not. -/
theorem detection_exact_iff (h : RollbackHistory D) (faults : ReadFaults D) :
    h.Exact faults ↔
      (∀ a, h.unfinished ≠ some a → Balanced a (h.log.journal faults)) ∧
        ∀ a, h.unfinished = some a → ∃ tail, tail <:+ h.log.journal faults ∧
          tail.count (.closed a) < tail.count (.opened a) := by
  have hopen : ∀ a, (∃ tail, tail <:+ h.log.journal faults ∧
      tail.count (.closed a) < tail.count (.opened a)) ↔ ¬ Balanced a (h.log.journal faults) := by
    intro a
    simp [Balanced]
  unfold RollbackHistory.Exact
  simp only [mem_checkCompensationJournal, hopen]
  constructor
  · intro hexact
    refine ⟨fun a ha => ?_, fun a ha => (hexact a).mpr ha⟩
    exact not_not.mp fun hb => ha ((hexact a).mp hb)
  · rintro ⟨hclosed, hunfinished⟩ a
    exact ⟨fun hb => not_not.mp fun ha => hb (hclosed a ha), hunfinished a⟩

/-! ### Histories with a millisecond for each entry -/

/-- The marks that the calls of a history make, in the order of the calls. -/
def RollbackHistory.marks (h : RollbackHistory D) : List Mark :=
  h.calls.flatMap (fun c => [.opened c.target, .closed c.target]) ++
    h.unfinished.toList.map .opened

omit [LinearOrder D] in
@[simp] theorem mark_compensationOpen (target : AgentId) (now : Reading) :
    (compensationOpen target now : LogEntry D).emitPayload.bind EmitEnvelope.mark =
      some (.opened target) := by
  have htake : (agentBytes target ++ List.replicate 32 0).take 16 = agentBytes target :=
    List.take_left' (length_agentBytes target)
  simp only [compensationOpen, schedulerEntry, EmitEnvelope.new, Option.bind_some,
    EmitEnvelope.mark, EmitType.tryFrom_asU8, htake, agentOfBytes_agentBytes]
  simp

omit [LinearOrder D] in
@[simp] theorem mark_compensationClose (target : AgentId) (targetSeq : ℕ) (outcome : UInt8)
    (now : Reading) :
    (compensationClose target targetSeq outcome now : LogEntry D).emitPayload.bind
      EmitEnvelope.mark = some (.closed target) := by
  have htake : (agentBytes target ++ leBytes 8 targetSeq ++ [outcome]).take 16 =
      agentBytes target := by
    rw [List.append_assoc]
    exact List.take_left' (length_agentBytes target)
  simp only [compensationClose, schedulerEntry, EmitEnvelope.new, Option.bind_some,
    EmitEnvelope.mark, EmitType.tryFrom_asU8, htake, agentOfBytes_agentBytes]
  simp

omit [LinearOrder D] [ContentHash D] in
/-- The entries of agents are not in the journal. -/
theorem filter_agentEntries (es : List (AgentEntry D)) :
    es.unattach.filter (fun e => e.agentId = schedulerAgentId) = [] := by
  rw [List.filter_eq_nil_iff]
  intro e he
  obtain ⟨hne, -⟩ := List.mem_unattach.mp he
  simpa using hne

omit [LinearOrder D] in
/-- The entries of the scheduler in a history carry the marks of its calls. -/
theorem RollbackHistory.filterMap_entries (h : RollbackHistory D) :
    (h.entries.filter fun e => e.agentId = schedulerAgentId).filterMap
      (fun e => e.emitPayload.bind EmitEnvelope.mark) = h.marks := by
  have hopen : ∀ target now,
      (compensationOpen target now : LogEntry D).agentId = schedulerAgentId := fun _ _ => rfl
  have hclose : ∀ target seq outcome now,
      (compensationClose target seq outcome now : LogEntry D).agentId = schedulerAgentId :=
    fun _ _ _ _ => rfl
  have hcalls : ∀ calls : List (RollbackCall D),
      ((calls.flatMap RollbackCall.entries).filter
        fun e => e.agentId = schedulerAgentId).filterMap
          (fun e => e.emitPayload.bind EmitEnvelope.mark) =
        calls.flatMap fun c => [.opened c.target, .closed c.target] := by
    intro calls
    induction calls with
    | nil => rfl
    | cons c calls ih =>
        rw [List.flatMap_cons, List.filter_append, List.filterMap_append, ih, List.flatMap_cons]
        simp [RollbackCall.entries, filter_agentEntries, hopen, hclose]
  rw [entries, marks, List.filter_append, List.filter_append, filter_agentEntries,
    List.nil_append, List.filterMap_append, hcalls]
  rcases hcut : h.cutOff with _ | ⟨target, openedAt, meanwhile⟩
  · simp [unfinished, hcut]
  · simp [unfinished, hcut, filter_agentEntries, hopen]

/-- With a millisecond for each entry of the scheduler, the journal reads in the order of the
calls. -/
theorem RollbackHistory.journal_of_increasing (h : RollbackHistory D)
    (hts : (h.entries.filter fun e => e.agentId = schedulerAgentId).Pairwise
      fun e e' => e.tsMs < e'.tsMs) :
    h.log.journal .none = h.marks := by
  have hsorted := (CausalLog.wellFormed_ofEntries h.entries).sorted
  have hids : h.log.idsOf .none schedulerAgentId =
      (h.entries.filter fun e => e.agentId = schedulerAgentId).map actionId := by
    change h.log.queryByAgentRange schedulerAgentId none none = _
    rw [log, CausalLog.query_none hsorted, CausalLog.agentKeys_ofEntries hts, List.map_map]
    rfl
  rw [CausalLog.journal, hids, List.filterMap_map, ← h.filterMap_entries]
  refine List.filterMap_congr fun e he => ?_
  have hget : h.log.get (actionId e) = some e :=
    CausalLog.get_ofEntries (List.mem_filter.mp he).1
  simp only [Function.comp_apply]
  rw [CausalLog.envelope_eq (fun _ => rfl), hget]
  rfl

omit [ContentHash D] [LinearOrder D] in
/-- A call that is closed after it is opened keeps a journal balanced. -/
theorem Balanced.call {a : AgentId} {marks : List Mark} (h : Balanced a marks)
    (target : AgentId) : Balanced a (.opened target :: .closed target :: marks) := by
  intro tail htail
  have hall := h marks (List.suffix_refl marks)
  rcases List.suffix_cons_iff.mp htail with rfl | htail
  · by_cases ht : target = a <;> simp [ht, hall]
  · rcases List.suffix_cons_iff.mp htail with rfl | htail
    · by_cases ht : target = a <;> simp [ht] <;> omega
    · exact h tail htail

omit [LinearOrder D] [ContentHash D] in
theorem RollbackHistory.balanced_marks {h : RollbackHistory D} {a : AgentId}
    (ha : h.unfinished ≠ some a) : Balanced a h.marks := by
  have hlast : Balanced a (h.unfinished.toList.map .opened) := by
    rcases hu : h.unfinished with _ | b
    · intro tail htail
      rw [List.suffix_nil.mp htail]
      simp
    · have hb : b ≠ a := fun hb => ha (by rw [hu, hb])
      intro tail htail
      have := (List.IsSuffix.sublist htail).count_le (.opened a)
      simp [hb] at this
      omega
  unfold marks
  induction h.calls with
  | nil => exact hlast
  | cons c calls ih => exact ih.call c.target

/-- **Exact detection in order.** When no two entries of the scheduler share a millisecond,
the report is exact. -/
theorem detection_exact_of_increasing (h : RollbackHistory D)
    (hts : (h.entries.filter fun e => e.agentId = schedulerAgentId).Pairwise
      fun e e' => e.tsMs < e'.tsMs) : h.Exact .none := by
  rw [detection_exact_iff, h.journal_of_increasing hts]
  refine ⟨fun a ha => RollbackHistory.balanced_marks ha, fun a ha => ?_⟩
  refine ⟨[.opened a], ⟨h.calls.flatMap fun c => [.opened c.target, .closed c.target], ?_⟩,
    by simp⟩
  rw [RollbackHistory.marks, ha]
  rfl

end History

/-! ### Two entries in one millisecond -/

/-- Encodings as digests, compared the other way round: the `Close` of a rollback comes
before the `Open` of the same millisecond. -/
instance instContentHashListNatDual : ContentHash (List ℕ)ᵒᵈ :=
  inferInstanceAs (ContentHash (List ℕ))

/-- One rollback of agent `0x0A` to sequence number `0`, opened and closed within a
millisecond. -/
def sameMillisecond : RollbackHistory (List ℕ)ᵒᵈ :=
  { before := []
    calls := [{ target := 0x0A, targetSeq := 0, outcome := 0, openedAt := ⟨5, 5103⟩,
                meanwhile := [], closedAt := ⟨5, 5123⟩, after := [] }]
    cutOff := none }

/-- The report is not exact on every history: the agent of `sameMillisecond` is reported
though its rollback was closed. -/
theorem close_sorted_before_open :
    ¬ ∀ h : RollbackHistory (List ℕ)ᵒᵈ, h.Exact .none := by
  intro hexact
  have hmem : (0x0A : AgentId) ∈ checkCompensationJournal sameMillisecond.log .none := by
    decide +kernel
  have hunfinished := (hexact sameMillisecond 0x0A).mp hmem
  cases hunfinished

end Torpor
