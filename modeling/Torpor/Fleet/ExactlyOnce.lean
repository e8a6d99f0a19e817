import Torpor.Fleet.Driver
import Torpor.Lib.Machine

/-!
# Delivery of Fleet Events

The log of a fleet while agents append to it and the driver primes, polls and waits, in any
order. For one agent `a` the system keeps, since its cursor was last primed: the entries that
were there at that moment, the entries returned as events, and the entries that were there
at the last poll. Delivery is exact (`ExactlyOnce`) when no entry of the first kind is
returned, none is returned twice, and every reported entry of the third kind is returned.

The cursor counts positions in the index, which is sorted by `(ts_ms, action_id)`. An entry
that is appended below the cursor shifts the entries at the cursor: it is never returned
itself, and an entry already returned is returned again.

## Main results

* `exactlyOnce_of_inOrder`: delivery is exact along every run in which entries of the agent
  are appended above the entries its cursor has passed, no read of the log fails, and
  `wait_result` passes no watched emission.
* `late_result_is_lost`: a result whose timestamp was read before another entry was appended
  may never be returned.
-/

namespace Torpor

open SortedIndex ContentHash

variable {D : Type} [LinearOrder D] [ContentHash D]

/-- The log and the driver, with what happened since the cursor of one agent was primed. -/
structure FleetSystem (D : Type) where
  log : CausalLog D
  driver : FleetDriver D
  primed : Option (List D)
  returned : List D
  polled : List D

/-- What can happen next: an append by an agent, or a call of the driver. -/
inductive FleetOp (D : Type)
  | append (e : LogEntry D)
  | primeCursor (agent : AgentId) (faults : ReadFaults D)
  | pollEvents (faults : ReadFaults D)
  | waitResult (agent : AgentId) (faults : ReadFaults D)

/-- A driver that has not polled yet, over an empty log. -/
def FleetSystem.init (expected : List AgentId) (watched : Finset UInt8) : FleetSystem D :=
  { log := .empty, driver := .new expected watched, primed := none, returned := [],
    polled := [] }

/-- One step, as seen for the agent `a`. -/
def FleetSystem.step (a : AgentId) (s : FleetSystem D) : FleetOp D → Option (FleetSystem D)
  | .append e => some { s with log := s.log.append e }
  | .primeCursor agent faults =>
      let driver := s.driver.primeCursor s.log faults agent
      some (if agent = a then
        { log := s.log, driver, primed := some (s.log.queryByAgentRange a none none),
          returned := [], polled := [] }
        else { s with driver })
  | .pollEvents faults =>
      let poll := s.driver.pollEvents s.log faults
      some { s with
        driver := poll.2
        returned := s.returned ++ poll.1.filterMap (FleetEvent.causeOf a)
        polled := s.log.queryByAgentRange a none none }
  | .waitResult agent faults =>
      let wait := s.driver.waitResult s.log faults agent
      some { s with
        driver := wait.2
        returned := s.returned ++ if agent = a then (wait.1.map Prod.fst).toList else [] }

/-- Delivery since the cursor was primed over the entries `primed`: none of these is
returned, nothing is returned twice, and what was to be reported at the last poll is
returned once. -/
structure FleetSystem.ExactlyOnce (s : FleetSystem D) (primed : List D) : Prop where
  skips : ∀ id ∈ primed, s.returned.count id = 0
  atMostOnce : ∀ id, s.returned.count id ≤ 1
  once : ∀ e, actionId e ∈ s.polled → actionId e ∉ primed → s.driver.Reports e →
    s.returned.count (actionId e) = 1

/-- The entries of the agent that its cursor has passed. -/
def FleetSystem.passed (s : FleetSystem D) (a : AgentId) : List (AgentTsKey D) :=
  (s.log.agentKeys a).take (s.driver.cursor a)

/-- The condition on a step: an entry of the agent goes above the entries its cursor has
passed (or is in the log already), no read fails, and `wait_result` passes no entry that a
poll would have reported, except the result it returns. -/
def FleetSystem.InOrder (a : AgentId) (s : FleetSystem D) : FleetOp D → Prop
  | .append e => e.agentId = a → s.log.get (actionId e) = some e ∨ ∀ k ∈ s.passed a, k < e.key
  | .primeCursor agent faults => agent = a → faults.query a = false
  | .pollEvents faults => faults.query a = false ∧ ∀ id, faults.get id = false
  | .waitResult agent faults => agent = a →
      (faults.query a = false ∧ ∀ id, faults.get id = false) ∧
        ∀ id ∈ ((s.log.queryByAgentRange a none none).drop (s.driver.cursor a)).takeWhile
          (fun id => !s.log.isResult id), s.driver.reportsId s.log id = false

/-! ### The entries a cursor has passed -/

/-- The identifiers of the entries of the agent that its cursor has passed. -/
def FleetSystem.passedIds (s : FleetSystem D) (a : AgentId) : List D :=
  (s.log.queryByAgentRange a none none).take (s.driver.cursor a)

/-- What delivery rests on: the cursor is a position in the index, the entries present when
it was primed or at the last poll are behind it, and the events returned are exactly the
others behind it that are to be reported. -/
structure FleetSystem.Accounted (a : AgentId) (s : FleetSystem D) (primed : List D) :
    Prop where
  cursor_le : s.driver.cursor a ≤ (s.log.queryByAgentRange a none none).length
  primed_passed : ∀ id ∈ primed, id ∈ s.passedIds a
  polled_passed : ∀ id ∈ s.polled, id ∈ s.passedIds a
  returned_eq : s.returned = (s.passedIds a).filter fun id =>
    s.driver.reportsId s.log id && decide (id ∉ primed)

/-- The invariant of the system. -/
structure FleetSystem.Inv (a : AgentId) (s : FleetSystem D) : Prop where
  wellFormed : s.log.WellFormed
  expected : a ∈ s.driver.expected
  accounted : ∀ primed, s.primed = some primed → s.Accounted a primed

/-- Exact accounting is exact delivery. -/
theorem FleetSystem.Accounted.exactlyOnce {a : AgentId} {s : FleetSystem D}
    {primed : List D} (hw : s.log.WellFormed) (h : s.Accounted a primed) :
    s.ExactlyOnce primed := by
  have hnodup : s.returned.Nodup := by
    rw [h.returned_eq]
    exact ((hw.nodup_query a).sublist (List.take_sublist _ _)).filter _
  refine ⟨fun id hid => ?_, fun id => List.nodup_iff_count_le_one.mp hnodup id, ?_⟩
  · rw [List.count_eq_zero, h.returned_eq]
    intro hmem
    simpa [hid] using (List.mem_filter.mp hmem).2
  · intro e hpolled hnew hreports
    refine List.count_eq_one_of_mem hnodup ?_
    have hpassed := h.polled_passed _ hpolled
    obtain ⟨e', he', heq, -⟩ := hw.get_of_mem (List.mem_of_mem_take hpassed)
    obtain rfl := actionId_injective heq
    rw [h.returned_eq, List.mem_filter]
    refine ⟨hpassed, ?_⟩
    simp [FleetDriver.reportsId, he', hreports, hnew]

/-- Passing `n` more entries and returning those of them that are to be reported keeps the
accounting exact: none of them was there when the cursor was primed. -/
theorem FleetSystem.Accounted.advance {a : AgentId} {s : FleetSystem D} {primed : List D}
    (hw : s.log.WellFormed) (h : s.Accounted a primed) {d : FleetDriver D} {n : ℕ}
    {returned : List D} (hwatched : d.watchedEmits = s.driver.watchedEmits)
    (hcursor : d.cursor a = s.driver.cursor a + n)
    (hn : n ≤ ((s.log.queryByAgentRange a none none).drop (s.driver.cursor a)).length)
    (hreturned : returned =
      (((s.log.queryByAgentRange a none none).drop (s.driver.cursor a)).take n).filter
        (s.driver.reportsId s.log)) :
    ({ s with driver := d, returned := s.returned ++ returned } : FleetSystem D).Accounted a
      primed := by
  have hpassed : ({ s with driver := d, returned := s.returned ++ returned } :
      FleetSystem D).passedIds a = s.passedIds a ++
        ((s.log.queryByAgentRange a none none).drop (s.driver.cursor a)).take n := by
    simp only [passedIds, hcursor, List.take_add]
  refine ⟨?_, fun id hid => ?_, fun id hid => ?_, ?_⟩
  · simp only [hcursor]
    rw [List.length_drop] at hn
    have := h.cursor_le
    omega
  · rw [hpassed]
    exact List.mem_append_left _ (h.primed_passed id hid)
  · rw [hpassed]
    exact List.mem_append_left _ (h.polled_passed id hid)
  · rw [hpassed, List.filter_append]
    simp only [FleetDriver.reportsId_congr s.log hwatched]
    rw [← h.returned_eq, hreturned]
    congr 1
    refine List.filter_congr fun id hid => ?_
    have hdisj := List.disjoint_take_drop (hw.nodup_query a) (le_refl (s.driver.cursor a))
    have hnew : id ∉ primed := fun hp =>
      hdisj (h.primed_passed id hp) (List.mem_of_mem_take hid)
    simp [hnew]

/-! ### Steps -/

/-- An entry appended above the cursor, or once more, leaves what the cursor has passed. -/
theorem FleetSystem.query_take_append {a : AgentId} {s : FleetSystem D} {e : LogEntry D}
    (hw : s.log.WellFormed)
    (hle : s.driver.cursor a ≤ (s.log.queryByAgentRange a none none).length)
    (horder : s.InOrder a (.append e)) :
    ((s.log.append e).queryByAgentRange a none none).take (s.driver.cursor a) =
        (s.log.queryByAgentRange a none none).take (s.driver.cursor a) ∧
      s.driver.cursor a ≤ ((s.log.append e).queryByAgentRange a none none).length := by
  rw [CausalLog.query_none (hw.append e).sorted, CausalLog.query_none hw.sorted] at *
  rw [List.length_map] at hle
  rw [← List.map_take, ← List.map_take, List.length_map]
  by_cases hold : s.log.get (actionId e) = some e
  · rw [hw.agentKeys_append_of_some hold]
    exact ⟨rfl, hle⟩
  · rw [CausalLog.agentKeys_append hw.sorted]
    split_ifs with ha
    · have habove := (horder ha).resolve_left hold
      refine ⟨by rw [take_insertKey hle habove], ?_⟩
      by_cases hk : e.key ∈ s.log.agentKeys a
      · rwa [insertKey_of_mem hk]
      · rw [length_insertKey hk]
        omega
    · exact ⟨rfl, hle⟩

theorem FleetSystem.Accounted.append {a : AgentId} {s : FleetSystem D} {primed : List D}
    (hw : s.log.WellFormed) (h : s.Accounted a primed) {e : LogEntry D}
    (horder : s.InOrder a (.append e)) :
    ({ s with log := s.log.append e } : FleetSystem D).Accounted a primed := by
  obtain ⟨htake, hle⟩ := query_take_append hw h.cursor_le horder
  refine ⟨hle, fun id hid => ?_, fun id hid => ?_, ?_⟩
  · rw [passedIds, htake]
    exact h.primed_passed id hid
  · rw [passedIds, htake]
    exact h.polled_passed id hid
  · rw [passedIds, htake, h.returned_eq]
    refine List.filter_congr fun id hid => ?_
    obtain ⟨e', he', -, -⟩ := hw.get_of_mem (List.mem_of_mem_take hid)
    simp only [FleetDriver.reportsId, he', hw.get_append_of_some e he']

/-- A call that leaves the cursor of the agent and the watched types leaves the accounting. -/
theorem FleetSystem.Accounted.frame {a : AgentId} {s : FleetSystem D} {primed : List D}
    (hw : s.log.WellFormed) (h : s.Accounted a primed) {d : FleetDriver D}
    (hwatched : d.watchedEmits = s.driver.watchedEmits)
    (hcursor : d.cursor a = s.driver.cursor a) :
    ({ s with driver := d, returned := s.returned ++ [] } : FleetSystem D).Accounted a
      primed :=
  h.advance hw hwatched hcursor (Nat.zero_le _) rfl

/-- A poll moves the cursor to the end, and with it everything that is in the log. -/
theorem FleetSystem.Accounted.pollEvents {a : AgentId} {s : FleetSystem D}
    {primed : List D} (hw : s.log.WellFormed) (hexp : a ∈ s.driver.expected)
    (h : s.Accounted a primed) {faults : ReadFaults D} (hquery : faults.query a = false)
    (hget : ∀ id, faults.get id = false) :
    ({ s with
        driver := (s.driver.pollEvents s.log faults).2
        returned := s.returned ++
          (s.driver.pollEvents s.log faults).1.filterMap (FleetEvent.causeOf a)
        polled := s.log.queryByAgentRange a none none } : FleetSystem D).Accounted a
      primed := by
  have hids : s.log.idsOf faults a = s.log.queryByAgentRange a none none := by
    simp [CausalLog.idsOf, hquery]
  have hle := h.cursor_le
  obtain ⟨hwatched, -, hcursor, hcauses⟩ :=
    FleetDriver.pollEvents_spec s.log a hget hexp (hids ▸ hle)
  rw [hids] at hcursor hcauses
  have hadv := h.advance hw (n := (s.log.queryByAgentRange a none none).length -
    s.driver.cursor a) hwatched (by omega) (by rw [List.length_drop]) (hcauses.trans (by
      rw [List.take_of_length_le (by rw [List.length_drop])]))
  refine ⟨hadv.cursor_le, hadv.primed_passed, fun id hid => ?_, hadv.returned_eq⟩
  simpa only [passedIds, hcursor, List.take_length] using hid

/-- A round of `wait_result` passes nothing to report but the result it returns. -/
theorem FleetSystem.Accounted.waitResult {a : AgentId} {s : FleetSystem D}
    {primed : List D} (hw : s.log.WellFormed) (h : s.Accounted a primed)
    {faults : ReadFaults D} (horder : s.InOrder a (.waitResult a faults)) :
    ({ s with
        driver := (s.driver.waitResult s.log faults a).2
        returned := s.returned ++
          ((s.driver.waitResult s.log faults a).1.map Prod.fst).toList } :
      FleetSystem D).Accounted a primed := by
  obtain ⟨⟨hquery, hget⟩, hskipped⟩ := horder rfl
  have hids : s.log.idsOf faults a = s.log.queryByAgentRange a none none := by
    simp [CausalLog.idsOf, hquery]
  obtain ⟨n, found, hadv, hn, htake, hfound, hresult⟩ :=
    FleetDriver.waitResult_spec s.log a hget s.driver
  rw [hids] at hn htake
  refine h.advance hw hadv.watchedEmits hadv.cursor hn ?_
  rw [htake, hfound, List.filter_append]
  have hnone : (((s.log.queryByAgentRange a none none).drop (s.driver.cursor a)).takeWhile
      fun id => !s.log.isResult id).filter (s.driver.reportsId s.log) = [] := by
    rw [List.filter_eq_nil_iff]
    intro id hid
    simp [hskipped id hid]
  have hall : found.toList.filter (s.driver.reportsId s.log) = found.toList := by
    rw [List.filter_eq_self]
    intro id hid
    have := hresult id (by simpa using hid)
    rw [CausalLog.isResult_eq] at this
    rw [FleetDriver.reportsId_eq]
    obtain ⟨env, henv, htype⟩ := (Option.any_eq_true _ _).mp this
    exact (Option.any_eq_true _ _).mpr ⟨env, henv, by simp [of_decide_eq_true htype]⟩
  rw [hnone, hall, List.nil_append]

omit [ContentHash D] in
/-- Priming puts everything that is in the log behind the cursor. -/
theorem FleetSystem.accounted_primeCursor {a : AgentId} {s : FleetSystem D}
    {faults : ReadFaults D} (hquery : faults.query a = false) :
    ({ log := s.log, driver := s.driver.primeCursor s.log faults a,
       primed := some (s.log.queryByAgentRange a none none), returned := [], polled := [] } :
      FleetSystem D).Accounted a (s.log.queryByAgentRange a none none) := by
  have hcursor : (s.driver.primeCursor s.log faults a).cursor a =
      (s.log.queryByAgentRange a none none).length := by
    simp [FleetDriver.primeCursor, CausalLog.idsOf, hquery]
  refine ⟨hcursor.le, fun id hid => ?_, by simp, ?_⟩
  · simpa only [passedIds, hcursor, List.take_length] using hid
  · simp only [passedIds, hcursor, List.take_length]
    rw [eq_comm, List.filter_eq_nil_iff]
    intro id hid
    simp [hid]

/-- Each step in order keeps the invariant. -/
theorem FleetSystem.Inv.step {a : AgentId} {s s' : FleetSystem D} {op : FleetOp D}
    (h : s.Inv a) (horder : s.InOrder a op) (hstep : s.step a op = some s') : s'.Inv a := by
  cases op with
  | append e =>
      obtain rfl := Option.some.inj hstep
      exact ⟨h.wellFormed.append e, h.expected, fun primed hp =>
        (h.accounted primed hp).append h.wellFormed horder⟩
  | primeCursor agent faults =>
      obtain rfl := Option.some.inj hstep
      by_cases hagent : agent = a
      · subst hagent
        rw [if_pos rfl]
        refine ⟨h.wellFormed, h.expected, fun primed hp => ?_⟩
        obtain rfl := Option.some.inj hp
        exact accounted_primeCursor (horder rfl)
      · rw [if_neg hagent]
        refine ⟨h.wellFormed, h.expected, fun primed hp => ?_⟩
        have := (h.accounted primed hp).frame h.wellFormed
          (d := s.driver.primeCursor s.log faults agent) rfl
          (by simp [FleetDriver.primeCursor, Ne.symm hagent])
        simpa using this
  | pollEvents faults =>
      obtain rfl := Option.some.inj hstep
      refine ⟨h.wellFormed, ?_, fun primed hp =>
        (h.accounted primed hp).pollEvents h.wellFormed h.expected horder.1 horder.2⟩
      have hexp := (FleetDriver.pollAgents_spec s.log a horder.2
        s.driver.expected s.driver).2.1
      simpa only [FleetDriver.pollEvents, hexp] using h.expected
  | waitResult agent faults =>
      obtain rfl := Option.some.inj hstep
      obtain ⟨n, hadv⟩ := s.driver.waitResult_advances s.log faults agent
      by_cases hagent : agent = a
      · subst hagent
        refine ⟨h.wellFormed, ?_, fun primed hp => ?_⟩
        · exact hadv.expected ▸ h.expected
        · rw [if_pos rfl]
          exact (h.accounted primed hp).waitResult h.wellFormed horder
      · refine ⟨h.wellFormed, hadv.expected ▸ h.expected, fun primed hp => ?_⟩
        rw [if_neg hagent]
        exact (h.accounted primed hp).frame h.wellFormed hadv.watchedEmits
          (hadv.frame a (Ne.symm hagent))

/-! ### Runs -/

theorem FleetSystem.inv_init {expected : List AgentId} {a : AgentId} (ha : a ∈ expected)
    (watched : Finset UInt8) : (init expected watched : FleetSystem D).Inv a :=
  ⟨CausalLog.wellFormed_empty, ha, fun primed hp => by cases hp⟩

/-- **Exact delivery.** For an expected agent and every interleaving of appends with calls of
the driver in which each step is in order, delivery since the cursor of the agent was primed
is exact. -/
theorem exactlyOnce_of_inOrder (expected : List AgentId) (watched : Finset UInt8)
    (a : AgentId) (ha : a ∈ expected) (ops : List (FleetOp D)) (s : FleetSystem D)
    (horder : Machine.Along (FleetSystem.step a) (FleetSystem.InOrder a)
      (FleetSystem.init expected watched) ops)
    (hrun : Machine.run (FleetSystem.step a) (FleetSystem.init expected watched) ops = some s)
    (primed : List D) (hprimed : s.primed = some primed) : s.ExactlyOnce primed := by
  have hinv : s.Inv a := Machine.run_invariant_along
    (fun _ _ _ h hord hstep => h.step hord hstep) (FleetSystem.inv_init ha watched) horder hrun
  exact (hinv.accounted primed hprimed).exactlyOnce hinv.wellFormed

/-- An entry of agent `1` with an envelope of the given type. -/
def sampleEntry (t : EmitType) (tsMs : ℕ) : LogEntry (List ℕ) :=
  { agentId := 1, tsMs, parentIds := [], hashBefore := [], hashAfter := [],
    emitPayload := some (.new t 1 0 (tsMs * 1000) []) }

/-- A result, then a poll, then a checkpoint and a poll: every timestamp is read when the
entry is appended. -/
def inOrderOps : List (FleetOp (List ℕ)) :=
  [.primeCursor 1 .none, .append (sampleEntry .actionResult 10), .pollEvents .none,
    .append (sampleEntry .lifecycle 11), .pollEvents .none]

/-- Delivery is exact in the run of `inOrderOps`, which returns its result once. -/
theorem exactlyOnce_inOrderOps :
    ∃ s : FleetSystem (List ℕ),
      Machine.run (FleetSystem.step 1) (FleetSystem.init [1] ∅) inOrderOps = some s ∧
        s.primed = some [] ∧ s.returned = [actionId (sampleEntry .actionResult 10)] ∧
        s.ExactlyOnce [] := by
  have hrun : ((Machine.run (FleetSystem.step 1) (FleetSystem.init [1] ∅) inOrderOps).any
      fun s => decide (s.primed = some [] ∧
        s.returned = [actionId (sampleEntry .actionResult 10)])) = true := by
    decide +kernel
  obtain ⟨s, hs, hdata⟩ := (Option.any_eq_true _ _).mp hrun
  obtain ⟨hprimed, hreturned⟩ := of_decide_eq_true hdata
  refine ⟨s, hs, hprimed, hreturned,
    exactlyOnce_of_inOrder [1] ∅ 1 (by decide) inOrderOps s ?_ hs [] hprimed⟩
  refine ⟨fun _ => rfl, fun s₁ h₁ => ⟨fun _ => .inr ?_, fun s₂ h₂ => ⟨⟨rfl, fun _ => rfl⟩,
    fun s₃ h₃ => ⟨fun _ => .inr ?_, fun s₄ h₄ => ⟨⟨rfl, fun _ => rfl⟩, fun _ _ => trivial⟩⟩⟩⟩⟩
  · obtain rfl := Option.some.inj h₁
    decide +kernel
  · obtain rfl := Option.some.inj h₁
    obtain rfl := Option.some.inj h₂
    obtain rfl := Option.some.inj h₃
    decide +kernel

/-- A checkpoint is appended and polled between `commit_barrier`, which reads the timestamp
`10` of the result, and `emit`, which appends it. -/
def lateOps : List (FleetOp (List ℕ)) :=
  [.primeCursor 1 .none, .append (sampleEntry .lifecycle 11), .pollEvents .none,
    .append (sampleEntry .actionResult 10), .pollEvents .none]

/-- Delivery is not exact in every run: in the run of `lateOps` the result is never
returned, though a poll follows its append. -/
theorem late_result_is_lost :
    ¬ ∀ (ops : List (FleetOp (List ℕ))) (s : FleetSystem (List ℕ)) (primed : List (List ℕ)),
      Machine.run (FleetSystem.step 1) (FleetSystem.init [1] ∅) ops = some s →
        s.primed = some primed → s.ExactlyOnce primed := by
  intro hall
  have hrun : ((Machine.run (FleetSystem.step 1) (FleetSystem.init [1] ∅) lateOps).any
      fun s => decide (s.primed = some [] ∧ s.returned = [] ∧
        actionId (sampleEntry .actionResult 10) ∈ s.polled ∧
        s.driver.Reports (sampleEntry .actionResult 10))) = true := by
    decide +kernel
  obtain ⟨s, hs, hdata⟩ := (Option.any_eq_true _ _).mp hrun
  obtain ⟨hprimed, hreturned, hpolled, hreports⟩ := of_decide_eq_true hdata
  have honce := (hall lateOps s [] hs hprimed).once _ hpolled (by simp) hreports
  rw [hreturned] at honce
  cases honce

/-- The other half of the same shift: a checkpoint that is appended late makes the next poll
return the result once more. -/
example : (Machine.run (FleetSystem.step 1) (FleetSystem.init [1] ∅)
    [.primeCursor 1 .none, .append (sampleEntry .actionResult 11), .pollEvents .none,
      .append (sampleEntry .lifecycle 10), .pollEvents .none]).map (fun s => s.returned.length) =
    some 2 := by
  decide +kernel

end Torpor
