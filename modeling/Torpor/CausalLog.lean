import Mathlib.Data.List.Induction
import Mathlib.Data.Prod.Lex
import Torpor.Lib.Assoc
import Torpor.Lib.SortedIndex
import Torpor.Records

/-!
# The Causal Log

The log holds its entries in the column family `default`, keyed by their `action_id`, and
an index `agent_ts` of keys `agent_id ‖ ts_ms ‖ action_id`, written in one batch with the
entry. The bytes of a key compare as the triple does, so the index is a sorted list of
triples. A range query seeks the first key at or above `agent_id ‖ from` and scans while
the agent and the upper bound still match.

## Main results

* `CausalLog.get_append`: a lookup after an append.
* `CausalLog.query_eq`: a range query returns the entries of the agent in the range, in
  the order of `(ts_ms, action_id)` and not in the order in which they were appended.
* `CausalLog.ofEntries`, `CausalLog.WellFormed`: the log built by a list of appends; its
  index lists exactly the appended entries, once each.
-/

namespace Torpor

open ContentHash SortedIndex

variable {D : Type}

/-- A key of the index `agent_ts`: agent, timestamp, entry. -/
abbrev AgentTsKey (D : Type) := ℕ ×ₗ (ℕ ×ₗ D)

/-- `agent_ts_key`. -/
def agentTsKey (agentId : AgentId) (tsMs : ℕ) (id : D) : AgentTsKey D :=
  toLex (agentId.toNat, toLex (tsMs, id))

/-- The agent part of a key. -/
def AgentTsKey.agent (k : AgentTsKey D) : ℕ := (ofLex k).1

/-- The timestamp part of a key. -/
def AgentTsKey.ts (k : AgentTsKey D) : ℕ := (ofLex (ofLex k).2).1

/-- The entry part of a key. -/
def AgentTsKey.id (k : AgentTsKey D) : D := (ofLex (ofLex k).2).2

@[simp] theorem agentTsKey_agent (a : AgentId) (ts : ℕ) (id : D) :
    (agentTsKey a ts id).agent = a.toNat := rfl

@[simp] theorem agentTsKey_ts (a : AgentId) (ts : ℕ) (id : D) :
    (agentTsKey a ts id).ts = ts := rfl

@[simp] theorem agentTsKey_id (a : AgentId) (ts : ℕ) (id : D) :
    (agentTsKey a ts id).id = id := rfl

/-- The column families `default` and `agent_ts`. -/
structure CausalLog (D : Type) where
  default : AList fun _ : D => LogEntry D
  agentTs : List (AgentTsKey D)

/-- A newly created log. -/
def CausalLog.empty : CausalLog D := ⟨∅, []⟩

variable [LinearOrder D]

/-- The index key of an entry. -/
def LogEntry.key [ContentHash D] (e : LogEntry D) : AgentTsKey D :=
  agentTsKey e.agentId e.tsMs (actionId e)

/-- `append` (and `append_durable`, which differs in when it returns): the entry and its
index key, in one batch. -/
def CausalLog.append [ContentHash D] (log : CausalLog D) (e : LogEntry D) : CausalLog D :=
  { default := log.default.insert (actionId e) e
    agentTs := insertKey e.key log.agentTs }

/-- `get` of a log whose lookups do not fail. -/
def CausalLog.get (log : CausalLog D) (id : D) : Option (LogEntry D) :=
  log.default.lookup id

/-- `query_by_agent_range`. -/
def CausalLog.queryByAgentRange (log : CausalLog D) (agentId : AgentId)
    (fromTsMs toTsMs : Option ℕ) : List D :=
  let tsStart := fromTsMs.getD 0
  let beforeSeek := fun k : AgentTsKey D =>
    k.agent < agentId.toNat || (k.agent == agentId.toNat && k.ts < tsStart)
  let inRange := fun k : AgentTsKey D =>
    k.agent == agentId.toNat && toTsMs.all (k.ts ≤ ·)
  ((log.agentTs.dropWhile beforeSeek).takeWhile inRange).map AgentTsKey.id

/-! ### Readers

The readers of the log outside an agent's own task take a failed read for an empty answer. -/

/-- The reads of the log that fail during one call. -/
structure ReadFaults (D : Type) where
  query : AgentId → Bool
  get : D → Bool

/-- No read fails. -/
def ReadFaults.none : ReadFaults D := ⟨fun _ => false, fun _ => false⟩

/-- The `ids` of `query_by_agent_range(agent, None, None).unwrap_or_default()`. -/
def CausalLog.idsOf (log : CausalLog D) (faults : ReadFaults D) (agent : AgentId) : List D :=
  if faults.query agent then [] else log.queryByAgentRange agent none none

/-- The envelope of an entry, when the entry is read and carries one. -/
def CausalLog.envelope (log : CausalLog D) (faults : ReadFaults D) (aid : D) :
    Option EmitEnvelope :=
  if faults.get aid then none else (log.get aid).bind LogEntry.emitPayload

/-- Reads that do not fail see the envelope of every logged entry. -/
theorem CausalLog.envelope_eq {log : CausalLog D} {faults : ReadFaults D}
    (hget : ∀ id, faults.get id = false) (aid : D) :
    log.envelope faults aid = (log.get aid).bind LogEntry.emitPayload := by
  simp [envelope, hget]

/-! ### Lookups -/

theorem CausalLog.get_append [ContentHash D] (log : CausalLog D) (e : LogEntry D) (id : D) :
    (log.append e).get id = if id = actionId e then some e else log.get id :=
  AList.lookup_insert_ite log.default (actionId e) e id

/-! ### Range queries -/

theorem AgentTsKey.agent_le_of_lt {k k' : AgentTsKey D} (h : k < k') :
    k.agent ≤ k'.agent := by
  rcases Prod.Lex.lt_iff.mp h with h | ⟨h, -⟩
  · exact h.le
  · exact h.le

theorem AgentTsKey.ts_le_of_lt {k k' : AgentTsKey D} (h : k < k')
    (ha : k.agent = k'.agent) : k.ts ≤ k'.ts := by
  rcases Prod.Lex.lt_iff.mp h with h | ⟨-, h⟩
  · exact absurd ha h.ne
  · rcases Prod.Lex.lt_iff.mp h with h | ⟨h, -⟩
    · exact h.le
    · exact h.le

/-- A range query filters the index, whatever order the entries were appended in. -/
theorem CausalLog.query_eq {log : CausalLog D} (hs : Sorted log.agentTs) (a : AgentId)
    (fromTs toTs : Option ℕ) :
    log.queryByAgentRange a fromTs toTs =
      (log.agentTs.filter fun k => k.agent == a.toNat && (fromTs.getD 0 ≤ k.ts &&
        toTs.all (k.ts ≤ ·))).map AgentTsKey.id := by
  unfold queryByAgentRange
  simp only
  congr 1
  rw [dropWhile_eq_filter hs, takeWhile_eq_filter (hs.filter _), List.filter_filter]
  · refine List.filter_congr fun k _ => ?_
    rcases hk : k.agent == a.toNat with _ | _
    · simp
    · have hts : (!decide (k.ts < fromTs.getD 0)) = decide (fromTs.getD 0 ≤ k.ts) := by
        rw [← decide_not]
        simp only [not_lt]
      simp [beq_iff_eq.mp hk, Bool.and_comm, ← hts]
  · intro k hk k' hk' hlt hin
    have hseek := (List.mem_filter.mp hk).2
    simp only [Bool.not_or, Bool.and_eq_true, Bool.not_eq_true', decide_eq_false_iff_not,
      not_lt] at hseek
    simp only [Bool.and_eq_true, beq_iff_eq] at hin ⊢
    have hagent : k.agent = a.toNat :=
      le_antisymm (hin.1 ▸ AgentTsKey.agent_le_of_lt hlt) hseek.1
    refine ⟨hagent, ?_⟩
    have hts := AgentTsKey.ts_le_of_lt hlt (hagent.trans hin.1.symm)
    cases toTs with
    | none => rfl
    | some bound =>
        have := hin.2
        simp only [Option.all_some, decide_eq_true_eq] at this ⊢
        omega
  · intro k _ k' _ hlt hb
    have hagent := AgentTsKey.agent_le_of_lt hlt
    simp only [Bool.or_eq_true, decide_eq_true_eq, Bool.and_eq_true, beq_iff_eq] at hb ⊢
    rcases hb with hb | ⟨hb, hts⟩
    · exact .inl (by omega)
    · rcases Nat.lt_or_ge k.agent a.toNat with hlt' | hge
      · exact .inl hlt'
      · have hk : k.agent = k'.agent := by omega
        have := AgentTsKey.ts_le_of_lt hlt hk
        exact .inr ⟨by omega, by omega⟩

/-- The index restricted to one agent. -/
def CausalLog.agentKeys (log : CausalLog D) (a : AgentId) : List (AgentTsKey D) :=
  log.agentTs.filter fun k => k.agent == a.toNat

/-- Without bounds, a range query lists the entries of the agent. -/
theorem CausalLog.query_none {log : CausalLog D} (hs : Sorted log.agentTs) (a : AgentId) :
    log.queryByAgentRange a none none = (log.agentKeys a).map AgentTsKey.id := by
  rw [query_eq hs]
  simp [agentKeys]

/-! ### Logs built by appends -/

variable [ContentHash D]

/-- The log after a list of appends. -/
def CausalLog.ofEntries (es : List (LogEntry D)) : CausalLog D :=
  es.foldl CausalLog.append .empty

/-- The index is sorted and lists exactly the entries that `default` holds. -/
structure CausalLog.WellFormed (log : CausalLog D) : Prop where
  sorted : Sorted log.agentTs
  get_eq : ∀ id e, log.get id = some e → id = actionId e
  mem_iff : ∀ k, k ∈ log.agentTs ↔ ∃ e, log.get (actionId e) = some e ∧ k = e.key

theorem CausalLog.wellFormed_empty : (CausalLog.empty : CausalLog D).WellFormed where
  sorted := List.Pairwise.nil
  get_eq id e h := by simp [get, empty] at h
  mem_iff k := by simp [get, empty]

theorem CausalLog.WellFormed.append {log : CausalLog D} (h : log.WellFormed)
    (e : LogEntry D) : (log.append e).WellFormed where
  sorted := sorted_insertKey h.sorted
  get_eq id e' he := by
    rw [get_append] at he
    split_ifs at he with hid
    · rw [hid, Option.some.inj he]
    · exact h.get_eq id e' he
  mem_iff k := by
    change k ∈ insertKey e.key log.agentTs ↔ _
    rw [mem_insertKey, h.mem_iff]
    constructor
    · rintro (rfl | ⟨e', he', rfl⟩)
      · exact ⟨e, by rw [get_append, if_pos rfl], rfl⟩
      · refine ⟨e', ?_, rfl⟩
        rw [get_append]
        split_ifs with hid
        · rw [actionId_injective hid]
        · exact he'
    · rintro ⟨e', he', rfl⟩
      rw [get_append] at he'
      split_ifs at he' with hid
      · exact .inl (by rw [actionId_injective hid])
      · exact .inr ⟨e', he', rfl⟩

theorem CausalLog.wellFormed_foldl {log : CausalLog D} (h : log.WellFormed)
    (es : List (LogEntry D)) : (es.foldl CausalLog.append log).WellFormed := by
  induction es generalizing log with
  | nil => exact h
  | cons e es ih => exact ih (h.append e)

theorem CausalLog.wellFormed_ofEntries (es : List (LogEntry D)) :
    (CausalLog.ofEntries es).WellFormed :=
  wellFormed_foldl wellFormed_empty es

/-- An append adds at most one key to the index of its agent and none to the others. -/
theorem CausalLog.agentKeys_append {log : CausalLog D} (hs : Sorted log.agentTs)
    (e : LogEntry D) (a : AgentId) :
    (log.append e).agentKeys a =
      if e.agentId = a then insertKey e.key (log.agentKeys a) else log.agentKeys a := by
  unfold agentKeys append
  simp only
  rw [filter_insertKey hs]
  simp [LogEntry.key, BitVec.toNat_inj]

theorem CausalLog.ofEntries_concat (es : List (LogEntry D)) (e : LogEntry D) :
    CausalLog.ofEntries (es ++ [e]) = (CausalLog.ofEntries es).append e := by
  simp [ofEntries]

/-- Every appended entry is found. -/
theorem CausalLog.get_ofEntries {es : List (LogEntry D)} {e : LogEntry D} (he : e ∈ es) :
    (CausalLog.ofEntries es).get (actionId e) = some e := by
  induction es using List.reverseRecOn with
  | nil => cases he
  | append_singleton es e' ih =>
      rw [ofEntries_concat, get_append]
      split_ifs with hid
      · rw [actionId_injective hid]
      · rcases List.mem_append.mp he with he | he
        · exact ih he
        · exact absurd (by rw [List.mem_singleton.mp he]) hid

/-- Only appended entries are found. -/
theorem CausalLog.mem_of_get_ofEntries {es : List (LogEntry D)} {id : D} {e : LogEntry D}
    (h : (CausalLog.ofEntries es).get id = some e) : e ∈ es := by
  induction es using List.reverseRecOn with
  | nil => simp [ofEntries, empty, get] at h
  | append_singleton es e' ih =>
      rw [ofEntries_concat, get_append] at h
      split_ifs at h
      · obtain rfl := Option.some.inj h
        exact List.mem_append_right _ (List.mem_singleton_self _)
      · exact List.mem_append_left _ (ih h)

/-- Entries of one agent that are appended with increasing timestamps are listed in the order
in which they were appended. -/
theorem CausalLog.agentKeys_ofEntries {a : AgentId} {es : List (LogEntry D)}
    (hts : (es.filter fun e => e.agentId = a).Pairwise fun e e' => e.tsMs < e'.tsMs) :
    (CausalLog.ofEntries es).agentKeys a =
      (es.filter fun e => e.agentId = a).map LogEntry.key := by
  induction es using List.reverseRecOn with
  | nil => rfl
  | append_singleton es e ih =>
      rw [List.filter_append] at hts
      obtain ⟨hes, -, hlast⟩ := List.pairwise_append.mp hts
      rw [ofEntries_concat, agentKeys_append (wellFormed_ofEntries es).sorted, ih hes,
        List.filter_append, List.map_append]
      split_ifs with ha
      · have hbelow : ∀ k ∈ (es.filter fun e => e.agentId = a).map LogEntry.key, k < e.key := by
          intro k hk
          obtain ⟨e', he', rfl⟩ := List.mem_map.mp hk
          have hagent : e'.agentId = e.agentId :=
            (of_decide_eq_true (List.mem_filter.mp he').2).trans ha.symm
          have hlt := hlast e' he' e (by simp [ha])
          refine Prod.Lex.lt_iff.mpr (.inr ⟨?_, Prod.Lex.lt_iff.mpr (.inl hlt)⟩)
          simp [LogEntry.key, agentTsKey, hagent]
        rw [insertKey_of_forall_lt hbelow]
        simp [ha]
      · simp [ha]

/-! ### Positions in the index -/

/-- The entry of a key that the index lists is in the log. -/
theorem CausalLog.WellFormed.get_of_mem {log : CausalLog D} (h : log.WellFormed)
    {a : AgentId} {id : D} (hid : id ∈ log.queryByAgentRange a none none) :
    ∃ e, log.get id = some e ∧ id = actionId e ∧ e.agentId = a := by
  rw [query_none h.sorted] at hid
  obtain ⟨k, hk, rfl⟩ := List.mem_map.mp hid
  obtain ⟨hk, hagent⟩ := List.mem_filter.mp hk
  obtain ⟨e, he, rfl⟩ := (h.mem_iff k).mp hk
  exact ⟨e, he, rfl, by simpa [LogEntry.key, BitVec.toNat_inj] using hagent⟩

/-- A range query lists every entry of the agent. -/
theorem CausalLog.WellFormed.mem_query {log : CausalLog D} (h : log.WellFormed)
    {e : LogEntry D} (he : log.get (actionId e) = some e) :
    actionId e ∈ log.queryByAgentRange e.agentId none none := by
  rw [query_none h.sorted]
  refine List.mem_map.mpr ⟨e.key, List.mem_filter.mpr ⟨(h.mem_iff _).mpr ⟨e, he, rfl⟩, ?_⟩, rfl⟩
  simp [LogEntry.key]

/-- A range query lists no entry twice. -/
theorem CausalLog.WellFormed.nodup_query {log : CausalLog D} (h : log.WellFormed)
    (a : AgentId) : (log.queryByAgentRange a none none).Nodup := by
  rw [query_none h.sorted]
  refine List.Nodup.map_on ?_ ((h.sorted.filter _).imp fun hlt => ne_of_lt hlt)
  intro k hk k' hk' hid
  obtain ⟨e, he, rfl⟩ := (h.mem_iff k).mp (List.mem_filter.mp hk).1
  obtain ⟨e', he', rfl⟩ := (h.mem_iff k').mp (List.mem_filter.mp hk').1
  obtain rfl : e = e' := actionId_injective hid
  rfl

/-- An append does not change the entry under an identifier that is in use. -/
theorem CausalLog.WellFormed.get_append_of_some {log : CausalLog D} (h : log.WellFormed)
    (e : LogEntry D) {id : D} {e' : LogEntry D} (hid : log.get id = some e') :
    (log.append e).get id = some e' := by
  rw [get_append]
  split_ifs with heq
  · have := h.get_eq id e' hid
    rw [actionId_injective (heq.symm.trans this)]
  · exact hid

/-- Appending an entry that is in the log changes no index. -/
theorem CausalLog.WellFormed.agentKeys_append_of_some {log : CausalLog D}
    (h : log.WellFormed) {e : LogEntry D} (he : log.get (actionId e) = some e)
    (a : AgentId) : (log.append e).agentKeys a = log.agentKeys a := by
  rw [agentKeys_append h.sorted]
  split_ifs with ha
  · refine insertKey_of_mem (List.mem_filter.mpr ⟨(h.mem_iff _).mpr ⟨e, he, rfl⟩, ?_⟩)
    simp [LogEntry.key, ha]
  · rfl

end Torpor
