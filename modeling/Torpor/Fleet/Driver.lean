import Mathlib.Data.Finset.Insert
import Torpor.CausalLog

/-!
# The Fleet Driver

The part of `FleetDriver` that turns log entries into events: a cursor for each agent, which
counts the entries already looked at in the list that `query_by_agent_range` returns, and
the two loops that advance it, `poll_events` and one round of `wait_result`.

A read of the log may fail: `ReadFaults` says which reads of a call do. The source then
takes an empty list of entries, a cursor at `0`, or passes over the entry. The text of a
result is kept as the payload it is decoded from.

## Main results

* `FleetDriver.pollEvents_spec`: a poll without failing reads returns the events beyond the
  cursor of each expected agent and moves the cursor to the end.
* `FleetDriver.waitResult_spec`: a round of `wait_result` returns the first result beyond
  the cursor and stops behind it.
-/

namespace Torpor

variable {D : Type}

/-- `FleetEvent`, as far as it comes from the log. -/
inductive FleetEvent (D : Type)
  | result (agent : AgentId) (cause : D) (text : List UInt8)
  | emit (agent : AgentId) (cause : D) (emitType : UInt8) (payload : List UInt8)
  deriving DecidableEq, Repr

/-- The log entry an event reports, for the events of one agent. -/
def FleetEvent.causeOf (a : AgentId) : FleetEvent D → Option D
  | .result agent cause _ => if agent = a then some cause else none
  | .emit agent cause _ _ => if agent = a then some cause else none

/-- `FleetDriver`, without the routing of messages. -/
structure FleetDriver (D : Type) where
  expected : List AgentId
  cursors : AList fun _ : AgentId => ℕ
  emitted : Finset D
  produced : Finset AgentId
  watchedEmits : Finset UInt8

/-- `FleetDriver::new`, with the emit types that `watch_emit` was called for. -/
def FleetDriver.new (expected : List AgentId) (watched : Finset UInt8) : FleetDriver D :=
  { expected, cursors := ∅, emitted := ∅, produced := ∅, watchedEmits := watched }

/-- The cursor of an agent, `0` before it is first set. -/
def FleetDriver.cursor (d : FleetDriver D) (agent : AgentId) : ℕ :=
  (d.cursors.lookup agent).getD 0

/-- Set the cursor of an agent. -/
def FleetDriver.setCursor (d : FleetDriver D) (agent : AgentId) (n : ℕ) : FleetDriver D :=
  { d with cursors := d.cursors.insert agent n }

section Operations

variable [LinearOrder D]

/-- `prime_cursor`: the cursor goes behind the last entry of the log as it is. -/
def FleetDriver.primeCursor (d : FleetDriver D) (log : CausalLog D) (faults : ReadFaults D)
    (agent : AgentId) : FleetDriver D :=
  d.setCursor agent (log.idsOf faults agent).length

/-- The body of the `while` loop of `poll_events`. -/
def FleetDriver.pollEntry (d : FleetDriver D) (log : CausalLog D) (faults : ReadFaults D)
    (agent : AgentId) (aid : D) : Option (FleetEvent D) × FleetDriver D :=
  let d := d.setCursor agent (d.cursor agent + 1)
  match log.envelope faults aid with
  | none => (none, d)
  | some env =>
      if env.emitType = EmitType.actionResult.asU8 then
        (some (.result agent aid env.payload),
          { d with emitted := insert aid d.emitted, produced := insert agent d.produced })
      else if env.emitType ∈ d.watchedEmits then
        (some (.emit agent aid env.emitType env.payload),
          { d with emitted := insert aid d.emitted })
      else (none, d)

/-- The `while` loop of `poll_events` for one agent, over the entries from the cursor on. -/
def FleetDriver.pollLoop (log : CausalLog D) (faults : ReadFaults D) (agent : AgentId) :
    FleetDriver D → List D → List (FleetEvent D) × FleetDriver D
  | d, [] => ([], d)
  | d, aid :: rest =>
      let (event, d) := d.pollEntry log faults agent aid
      let (events, d) := d.pollLoop log faults agent rest
      (event.toList ++ events, d)

/-- `poll_events` for one expected agent. -/
def FleetDriver.pollAgent (d : FleetDriver D) (log : CausalLog D) (faults : ReadFaults D)
    (agent : AgentId) : List (FleetEvent D) × FleetDriver D :=
  let d := d.setCursor agent (d.cursor agent)
  d.pollLoop log faults agent ((log.idsOf faults agent).drop (d.cursor agent))

/-- The `for` loop of `poll_events`. -/
def FleetDriver.pollAgents (log : CausalLog D) (faults : ReadFaults D) :
    FleetDriver D → List AgentId → List (FleetEvent D) × FleetDriver D
  | d, [] => ([], d)
  | d, agent :: agents =>
      let (events, d) := d.pollAgent log faults agent
      let (events', d) := d.pollAgents log faults agents
      (events ++ events', d)

/-- `poll_events`. -/
def FleetDriver.pollEvents (d : FleetDriver D) (log : CausalLog D) (faults : ReadFaults D) :
    List (FleetEvent D) × FleetDriver D :=
  d.pollAgents log faults d.expected

/-- The `while` loop of `wait_result`: ends at the first result. -/
def FleetDriver.waitLoop (log : CausalLog D) (faults : ReadFaults D) (agent : AgentId) :
    FleetDriver D → List D → Option (D × List UInt8) × FleetDriver D
  | d, [] => (none, d)
  | d, aid :: rest =>
      let d := d.setCursor agent (d.cursor agent + 1)
      match log.envelope faults aid with
      | none => d.waitLoop log faults agent rest
      | some env =>
          if env.emitType = EmitType.actionResult.asU8 then
            (some (aid, env.payload), { d with
              emitted := insert aid d.emitted, produced := insert agent d.produced })
          else d.waitLoop log faults agent rest

/-- One round of `wait_result`. A call is a sequence of rounds: the first to find a result
returns it, one that finds none is followed by another or by the end of the deadline. -/
def FleetDriver.waitResult (d : FleetDriver D) (log : CausalLog D) (faults : ReadFaults D)
    (agent : AgentId) : Option (D × List UInt8) × FleetDriver D :=
  let d := d.setCursor agent (d.cursor agent)
  d.waitLoop log faults agent ((log.idsOf faults agent).drop (d.cursor agent))

end Operations

/-! ### Cursors -/

@[simp] theorem FleetDriver.cursor_setCursor (d : FleetDriver D) (agent b : AgentId) (n : ℕ) :
    (d.setCursor agent n).cursor b = if b = agent then n else d.cursor b := by
  unfold cursor setCursor
  rw [AList.lookup_insert_ite]
  split_ifs
  · rfl
  · rfl

@[simp] theorem FleetDriver.expected_setCursor (d : FleetDriver D) (agent : AgentId) (n : ℕ) :
    (d.setCursor agent n).expected = d.expected := rfl

@[simp] theorem FleetDriver.watchedEmits_setCursor (d : FleetDriver D) (agent : AgentId)
    (n : ℕ) : (d.setCursor agent n).watchedEmits = d.watchedEmits := rfl

/-- The entry is one that the driver is to report: a result, or an emission of a watched
type. -/
def FleetDriver.Reports (d : FleetDriver D) (e : LogEntry D) : Prop :=
  ∃ env, e.emitPayload = some env ∧
    (env.emitType = EmitType.actionResult.asU8 ∨ env.emitType ∈ d.watchedEmits)

instance (d : FleetDriver D) (e : LogEntry D) : Decidable (d.Reports e) :=
  match h : e.emitPayload with
  | none => isFalse (by rintro ⟨env, henv, -⟩; simp [h] at henv)
  | some env =>
      decidable_of_iff
        (env.emitType = EmitType.actionResult.asU8 ∨ env.emitType ∈ d.watchedEmits)
        (by simp [FleetDriver.Reports, h])

/-- From `d` to `d'` the cursor of `agent` moves by `n`, and nothing else that the loops
read changes. -/
structure FleetDriver.Advances (d : FleetDriver D) (agent : AgentId) (n : ℕ)
    (d' : FleetDriver D) : Prop where
  expected : d'.expected = d.expected
  watchedEmits : d'.watchedEmits = d.watchedEmits
  cursor : d'.cursor agent = d.cursor agent + n
  frame : ∀ b, b ≠ agent → d'.cursor b = d.cursor b

theorem FleetDriver.Advances.refl (d : FleetDriver D) (agent : AgentId) :
    d.Advances agent 0 d :=
  ⟨rfl, rfl, rfl, fun _ _ => rfl⟩

theorem FleetDriver.Advances.trans {agent : AgentId} {d d' d'' : FleetDriver D} {m n : ℕ}
    (h : d.Advances agent m d') (h' : d'.Advances agent n d'') :
    d.Advances agent (m + n) d'' where
  expected := h'.expected.trans h.expected
  watchedEmits := h'.watchedEmits.trans h.watchedEmits
  cursor := by rw [h'.cursor, h.cursor, Nat.add_assoc]
  frame b hb := (h'.frame b hb).trans (h.frame b hb)

theorem FleetDriver.advances_setCursor (d : FleetDriver D) (agent : AgentId) (n : ℕ) :
    d.Advances agent n (d.setCursor agent (d.cursor agent + n)) :=
  ⟨rfl, rfl, by simp, fun b hb => by simp [hb]⟩

section Specs

variable [LinearOrder D]

/-- The logged entry under an identifier is a result. -/
def CausalLog.isResult (log : CausalLog D) (id : D) : Bool :=
  (log.get id).any fun e => e.HasType .actionResult

/-- The logged entry under an identifier is one that the driver is to report. -/
def FleetDriver.reportsId (d : FleetDriver D) (log : CausalLog D) (id : D) : Bool :=
  (log.get id).any fun e => d.Reports e

variable (log : CausalLog D) {faults : ReadFaults D} (agent : AgentId)

theorem CausalLog.isResult_eq (id : D) :
    log.isResult id = ((log.get id).bind LogEntry.emitPayload).any
      fun env => env.emitType = EmitType.actionResult.asU8 := by
  unfold isResult
  rcases log.get id with _ | e
  · rfl
  · rcases he : e.emitPayload with _ | env <;> simp [LogEntry.HasType, he]

theorem FleetDriver.reportsId_eq (d : FleetDriver D) (id : D) :
    d.reportsId log id = ((log.get id).bind LogEntry.emitPayload).any
      fun env => env.emitType = EmitType.actionResult.asU8 ∨ env.emitType ∈ d.watchedEmits := by
  unfold reportsId
  rcases log.get id with _ | e
  · rfl
  · rcases he : e.emitPayload with _ | env <;> simp [Reports, he]

/-- The watched types decide which entries are to be reported. -/
theorem FleetDriver.reportsId_congr {d d' : FleetDriver D}
    (h : d'.watchedEmits = d.watchedEmits) :
    d'.reportsId log = d.reportsId log := by
  funext id
  rw [reportsId_eq, reportsId_eq, h]

/-- What the body of the loop of `poll_events` does: the cursor moves by one, and an event
reports the entry when it is one to report. -/
theorem FleetDriver.pollEntry_spec (hget : ∀ id, faults.get id = false) (d : FleetDriver D)
    (aid : D) : d.Advances agent 1 (d.pollEntry log faults agent aid).2 ∧
      (d.pollEntry log faults agent aid).1.toList.filterMap (FleetEvent.causeOf agent) =
        [aid].filter (d.reportsId log) ∧
      ∀ b, b ≠ agent →
        (d.pollEntry log faults agent aid).1.toList.filterMap (FleetEvent.causeOf b) = [] := by
  have hadv := d.advances_setCursor agent 1
  rw [List.filter_singleton, reportsId_eq]
  unfold pollEntry
  rw [CausalLog.envelope_eq hget]
  rcases (log.get aid).bind LogEntry.emitPayload with _ | env
  · exact ⟨hadv, rfl, fun _ _ => rfl⟩
  · simp only
    split_ifs with hresult hwatched
    · exact ⟨⟨hadv.1, hadv.2, hadv.3, hadv.4⟩, by simp [FleetEvent.causeOf, hresult],
        fun b hb => by simp [FleetEvent.causeOf, hb.symm]⟩
    · rw [watchedEmits_setCursor] at hwatched
      exact ⟨⟨hadv.1, hadv.2, hadv.3, hadv.4⟩, by simp [FleetEvent.causeOf, hwatched],
        fun b hb => by simp [FleetEvent.causeOf, hb.symm]⟩
    · rw [watchedEmits_setCursor] at hwatched
      exact ⟨hadv, by simp [hresult, hwatched], fun _ _ => rfl⟩

/-- The loop of `poll_events` passes every entry it is given and reports those it is to
report. -/
theorem FleetDriver.pollLoop_spec (hget : ∀ id, faults.get id = false) (ids : List D)
    (d : FleetDriver D) :
    d.Advances agent ids.length (d.pollLoop log faults agent ids).2 ∧
      (d.pollLoop log faults agent ids).1.filterMap (FleetEvent.causeOf agent) =
        ids.filter (d.reportsId log) ∧
      ∀ b, b ≠ agent →
        (d.pollLoop log faults agent ids).1.filterMap (FleetEvent.causeOf b) = [] := by
  induction ids generalizing d with
  | nil => exact ⟨.refl d agent, rfl, fun _ _ => rfl⟩
  | cons aid rest ih =>
      obtain ⟨hadv, hcauses, hother⟩ := FleetDriver.pollEntry_spec log agent hget d aid
      obtain ⟨hadv', hcauses', hother'⟩ := ih (d.pollEntry log faults agent aid).2
      refine ⟨?_, ?_, fun b hb => ?_⟩
      · rw [List.length_cons, Nat.add_comm]
        exact hadv.trans hadv'
      · simp only [pollLoop, List.filterMap_append]
        rw [hcauses, hcauses', reportsId_congr log hadv.watchedEmits, ← List.filter_append]
        rfl
      · simp only [pollLoop, List.filterMap_append]
        rw [hother b hb, hother' b hb]
        rfl

/-- `poll_events` for one agent. -/
theorem FleetDriver.pollAgent_spec (hget : ∀ id, faults.get id = false) (d : FleetDriver D) :
    d.Advances agent ((log.idsOf faults agent).length - d.cursor agent)
        (d.pollAgent log faults agent).2 ∧
      (d.pollAgent log faults agent).1.filterMap (FleetEvent.causeOf agent) =
        ((log.idsOf faults agent).drop (d.cursor agent)).filter (d.reportsId log) ∧
      ∀ b, b ≠ agent →
        (d.pollAgent log faults agent).1.filterMap (FleetEvent.causeOf b) = [] := by
  have hzero := d.advances_setCursor agent 0
  obtain ⟨hadv, hcauses, hother⟩ := FleetDriver.pollLoop_spec log agent hget
    ((log.idsOf faults agent).drop (d.cursor agent)) (d.setCursor agent (d.cursor agent))
  unfold pollAgent
  simp only [cursor_setCursor, if_true]
  refine ⟨?_, ?_, hother⟩
  · have := hzero.trans hadv
    rwa [Nat.zero_add, List.length_drop] at this
  · rw [hcauses, ← reportsId_congr log hzero.watchedEmits]
    rfl

/-- The loop over the expected agents moves the cursor of each of them to the end. -/
theorem FleetDriver.pollAgents_spec (hget : ∀ id, faults.get id = false)
    (agents : List AgentId) (d : FleetDriver D) :
    (d.pollAgents log faults agents).2.watchedEmits = d.watchedEmits ∧
      (d.pollAgents log faults agents).2.expected = d.expected ∧
      (d.pollAgents log faults agents).2.cursor agent =
        (if agent ∈ agents then max (d.cursor agent) (log.idsOf faults agent).length
          else d.cursor agent) ∧
      (d.pollAgents log faults agents).1.filterMap (FleetEvent.causeOf agent) =
        (if agent ∈ agents then
          ((log.idsOf faults agent).drop (d.cursor agent)).filter (d.reportsId log)
          else []) := by
  induction agents generalizing d with
  | nil => exact ⟨rfl, rfl, rfl, rfl⟩
  | cons b agents ih =>
      obtain ⟨hadv, hcauses, hother⟩ := FleetDriver.pollAgent_spec log b hget d
      obtain ⟨hwatched, hexpected, hcursor, hcauses'⟩ := ih (d.pollAgent log faults b).2
      refine ⟨hwatched.trans hadv.watchedEmits, hexpected.trans hadv.expected, ?_, ?_⟩
      · simp only [pollAgents]
        rw [hcursor]
        by_cases hb : agent = b
        · subst hb
          rw [hadv.cursor, if_pos List.mem_cons_self]
          split_ifs <;> omega
        · simp [hadv.frame agent hb, hb]
      · simp only [pollAgents, List.filterMap_append]
        rw [hcauses', reportsId_congr log hadv.watchedEmits]
        by_cases hb : agent = b
        · subst hb
          have hend : (log.idsOf faults agent).drop
              ((d.pollAgent log faults agent).2.cursor agent) = [] := by
            rw [hadv.cursor]
            exact List.drop_eq_nil_of_le (by omega)
          rw [hcauses, hend, if_pos List.mem_cons_self]
          simp
        · rw [hother agent hb, hadv.frame agent hb]
          simp [hb]

/-- **A poll without failing reads** returns the events beyond the cursor of an expected
agent, in the order of the index, and moves the cursor to the end. -/
theorem FleetDriver.pollEvents_spec (hget : ∀ id, faults.get id = false) {d : FleetDriver D}
    (hexp : agent ∈ d.expected)
    (hcursor : d.cursor agent ≤ (log.idsOf faults agent).length) :
    (d.pollEvents log faults).2.watchedEmits = d.watchedEmits ∧
      (d.pollEvents log faults).2.expected = d.expected ∧
      (d.pollEvents log faults).2.cursor agent = (log.idsOf faults agent).length ∧
      (d.pollEvents log faults).1.filterMap (FleetEvent.causeOf agent) =
        ((log.idsOf faults agent).drop (d.cursor agent)).filter (d.reportsId log) := by
  obtain ⟨hwatched, hexpected, hc, hcauses⟩ :=
    FleetDriver.pollAgents_spec log agent hget d.expected d
  rw [if_pos hexp] at hc hcauses
  exact ⟨hwatched, hexpected, by rw [pollEvents, hc, max_eq_right hcursor], hcauses⟩

/-- The loop of `wait_result` passes the entries before the first result, and the result if
there is one. -/
theorem FleetDriver.waitLoop_spec (hget : ∀ id, faults.get id = false) (ids : List D)
    (d : FleetDriver D) :
    ∃ n found, d.Advances agent n (d.waitLoop log faults agent ids).2 ∧ n ≤ ids.length ∧
      ids.take n = (ids.takeWhile fun id => !log.isResult id) ++ found.toList ∧
      (d.waitLoop log faults agent ids).1.map Prod.fst = found ∧
      ∀ id ∈ found, log.isResult id := by
  induction ids generalizing d with
  | nil => exact ⟨0, none, .refl d agent, le_refl _, rfl, rfl, by simp⟩
  | cons aid rest ih =>
      have hadv := d.advances_setCursor agent 1
      by_cases hresult : log.isResult aid
      · obtain ⟨env, henv, htype⟩ : ∃ env, (log.get aid).bind LogEntry.emitPayload = some env ∧
            env.emitType = EmitType.actionResult.asU8 := by
          rw [CausalLog.isResult_eq] at hresult
          obtain ⟨env, henv, htype⟩ := (Option.any_eq_true _ _).mp hresult
          exact ⟨env, henv, decide_eq_true_iff.mp htype⟩
        refine ⟨1, some aid, ?_, by simp, by simp [hresult], ?_, by simpa using hresult⟩
        all_goals simp only [waitLoop, CausalLog.envelope_eq hget, henv, if_pos htype]
        · exact ⟨hadv.1, hadv.2, hadv.3, hadv.4⟩
        · rfl
      · obtain ⟨n, found, hadv', hn, htake, hfst, hfound⟩ :=
          ih (d.setCursor agent (d.cursor agent + 1))
        have hloop : d.waitLoop log faults agent (aid :: rest) =
            (d.setCursor agent (d.cursor agent + 1)).waitLoop log faults agent rest := by
          rw [CausalLog.isResult_eq] at hresult
          simp only [waitLoop, CausalLog.envelope_eq hget]
          rcases henv : (log.get aid).bind LogEntry.emitPayload with _ | env
          · rfl
          · rw [henv, Option.any_some, decide_eq_true_iff] at hresult
            exact if_neg hresult
        refine ⟨1 + n, found, ?_, ?_, ?_, ?_, hfound⟩
        · rw [hloop]
          exact hadv.trans hadv'
        · rw [List.length_cons]
          omega
        · rw [Nat.add_comm, List.take_succ_cons, htake]
          simp [hresult]
        · rw [hloop, hfst]

/-- Failing reads or not, a round of `wait_result` only moves its own cursor forward. -/
theorem FleetDriver.waitLoop_advances (log : CausalLog D) (faults : ReadFaults D)
    (agent : AgentId) (ids : List D) (d : FleetDriver D) :
    ∃ n, d.Advances agent n (d.waitLoop log faults agent ids).2 := by
  induction ids generalizing d with
  | nil => exact ⟨0, .refl d agent⟩
  | cons aid rest ih =>
      have hadv := d.advances_setCursor agent 1
      obtain ⟨n, hadv'⟩ := ih (d.setCursor agent (d.cursor agent + 1))
      rcases henv : log.envelope faults aid with _ | env
      · exact ⟨1 + n, by simpa only [waitLoop, henv] using hadv.trans hadv'⟩
      · by_cases hresult : env.emitType = EmitType.actionResult.asU8
        · refine ⟨1, ?_⟩
          simp only [waitLoop, henv, if_pos hresult]
          exact ⟨hadv.1, hadv.2, hadv.3, hadv.4⟩
        · exact ⟨1 + n, by
            simpa only [waitLoop, henv, if_neg hresult] using hadv.trans hadv'⟩

theorem FleetDriver.waitResult_advances (d : FleetDriver D) (log : CausalLog D)
    (faults : ReadFaults D) (agent : AgentId) :
    ∃ n, d.Advances agent n (d.waitResult log faults agent).2 := by
  obtain ⟨n, hadv⟩ := waitLoop_advances log faults agent
    ((log.idsOf faults agent).drop (d.cursor agent)) (d.setCursor agent (d.cursor agent))
  exact ⟨0 + n, by simpa [waitResult] using (d.advances_setCursor agent 0).trans hadv⟩

/-- **A round of `wait_result` without failing reads** moves the cursor behind the first
result beyond it and returns that result, or moves it to the end. -/
theorem FleetDriver.waitResult_spec (hget : ∀ id, faults.get id = false)
    (d : FleetDriver D) :
    ∃ n found, d.Advances agent n (d.waitResult log faults agent).2 ∧
      n ≤ ((log.idsOf faults agent).drop (d.cursor agent)).length ∧
      ((log.idsOf faults agent).drop (d.cursor agent)).take n =
        (((log.idsOf faults agent).drop (d.cursor agent)).takeWhile
          fun id => !log.isResult id) ++ found.toList ∧
      (d.waitResult log faults agent).1.map Prod.fst = found ∧
      ∀ id ∈ found, log.isResult id := by
  have hzero := d.advances_setCursor agent 0
  obtain ⟨n, found, hadv, hrest⟩ := FleetDriver.waitLoop_spec log agent hget
    ((log.idsOf faults agent).drop (d.cursor agent)) (d.setCursor agent (d.cursor agent))
  refine ⟨n, found, ?_, hrest.1, hrest.2.1, ?_, hrest.2.2.2⟩
  · have := hzero.trans hadv
    rw [Nat.zero_add] at this
    simpa [waitResult] using this
  · simpa [waitResult] using hrest.2.2.1

end Specs

end Torpor
