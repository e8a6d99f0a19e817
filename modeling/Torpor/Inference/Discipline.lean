import Torpor.Inference.History

/-!
# The Service Discipline of the Inference Queue

Every sequence of admissions and of calls of `pop_next`, at any instants, with `in_flight` set
in between by whoever counts it. A request waits in the deque of its effective class, rises by
one class at most, and the requests of one class that never rise are served in the order of
their admission.

What carries the order is that the requests dispatched so far, followed by those of one deque,
are sorted by their numbers as soon as the ones that have been promoted are left out: a
promoted request is the only one that enters a deque at its front.

## Main results

* `Disciplined.step`: the discipline, kept by every operation.
* `Disciplined.fifo`: of two requests of one class, the earlier one is served first.
* `disciplined_run`: the discipline along every run.
-/

namespace Torpor

open Machine

/-- `PriorityClass::promoted`. -/
def PriorityClass.promoted : PriorityClass → PriorityClass
  | batch => foreground
  | foreground => supervisor
  | supervisor => supervisor

namespace QueueEntry

/-- A request is where it was admitted, or one class above. -/
def Graded (e : QueueEntry) : Prop :=
  (e.promoted = false ∧ e.effectiveClass = e.originalClass) ∨
    (e.promoted = true ∧ e.originalClass ≠ .supervisor ∧
      e.effectiveClass = e.originalClass.promoted)

/-- A request of a class that has not been promoted. -/
def direct (priority : PriorityClass) (e : QueueEntry) : Bool :=
  !e.promoted && e.originalClass == priority

/-- `e'` is `e`, promoted at the instant `now`: it has not been promoted before, and it has
waited long enough. -/
def RisesTo (maxStarvationMs : ℕ) (now : Instant) (e e' : QueueEntry) : Prop :=
  e.promoted = false ∧ e.originalClass ≠ .supervisor ∧
    maxStarvationMs ≤ waitMs now e.admissionInstant ∧ e' = e.promote e.originalClass.promoted

variable {e : QueueEntry} {priority : PriorityClass}

theorem direct_eq_true : e.direct priority = true ↔
    e.promoted = false ∧ e.originalClass = priority := by
  simp only [direct, Bool.and_eq_true, Bool.not_eq_true', beq_iff_eq]

@[simp] theorem direct_promote (e : QueueEntry) (c priority : PriorityClass) :
    (e.promote c).direct priority = false := rfl

theorem Graded.effectiveClass_of_direct (h : e.Graded) (hdirect : e.direct priority = true) :
    e.effectiveClass = priority := by
  obtain ⟨hnot, hclass⟩ := direct_eq_true.mp hdirect
  obtain ⟨-, hsame⟩ | ⟨hyes, -⟩ := h
  · rw [hsame, hclass]
  · exact absurd (hyes.symm.trans hnot) (by decide)

/-- A request that rises stays graded. -/
theorem RisesTo.graded {maxStarvationMs : ℕ} {now : Instant} {e' : QueueEntry}
    (h : RisesTo maxStarvationMs now e e') : e'.Graded := by
  obtain ⟨-, hclass, -, rfl⟩ := h
  exact .inr ⟨rfl, hclass, rfl⟩

end QueueEntry

namespace QueueState

variable {q q' : QueueState} {now : Instant} {e : QueueEntry} {priority : PriorityClass}

/-- The deque of a class. -/
def deque (q : QueueState) : PriorityClass → List QueueEntry
  | .supervisor => q.supervisor
  | .foreground => q.foreground
  | .batch => q.batch

theorem mem_waiting : e ∈ q.waiting ↔ ∃ priority, e ∈ q.deque priority := by
  simp only [waiting, List.mem_append]
  constructor
  · rintro ((h | h) | h)
    · exact ⟨.supervisor, h⟩
    · exact ⟨.foreground, h⟩
    · exact ⟨.batch, h⟩
  · rintro ⟨_ | _ | _, h⟩
    · exact .inl (.inl h)
    · exact .inl (.inr h)
    · exact .inr h

theorem deque_pushBack (q : QueueState) (priority c : PriorityClass) (e : QueueEntry) :
    (q.pushBack priority e).deque c = q.deque c ++ if c = priority then [e] else [] := by
  cases priority <;> cases c <;> simp [pushBack, deque]

theorem starved_eq_true : q.starved now e = true ↔
    e.promoted = false ∧ q.maxStarvationMs ≤ waitMs now e.admissionInstant := by
  simp only [starved, Bool.and_eq_true, Bool.not_eq_true', decide_eq_true_eq]

theorem moves_eq_true : q.moves now e = true ↔
    q.starved now e = true ∧ e.originalClass = .foreground := by
  simp only [moves, Bool.and_eq_true, beq_iff_eq]

/-- Service takes the front of a deque, and all the deques of higher classes are empty. -/
theorem deque_popFront (hq : q.popFront = (some e, q')) :
    ∃ priority, q.deque priority = e :: q'.deque priority ∧
      (∀ c, c ≠ priority → q'.deque c = q.deque c) ∧
      (∀ c, c.toByte < priority.toByte → q.deque c = []) ∧
      q'.totalPromoted = q.totalPromoted := by
  obtain ⟨hno, -⟩ | ⟨_, rest, heq, hs, rfl⟩ | ⟨_, rest, heq, hs, hf, rfl⟩ |
    ⟨_, rest, heq, hs, hf, hb, rfl⟩ := popFront_cases hq
  · cases hno
  · cases heq
    refine ⟨.supervisor, hs, fun c hc => ?_, fun c hc => ?_, rfl⟩
    · cases c <;> first | rfl | exact absurd rfl hc
    · cases c <;> exact absurd hc (by decide)
  · cases heq
    refine ⟨.foreground, hf, fun c hc => ?_, fun c hc => ?_, rfl⟩
    · cases c <;> first | rfl | exact absurd rfl hc
    · cases c <;> first | exact hs | exact absurd hc (by decide)
  · cases heq
    refine ⟨.batch, hb, fun c hc => ?_, fun c hc => ?_, rfl⟩
    · cases c <;> first | rfl | exact absurd rfl hc
    · cases c <;> first | exact hs | exact hf | exact absurd hc (by decide)

end QueueState

/-- A queue and its log. -/
structure QueueHistory where
  queue : QueueState
  log : QueueLog

/-- What happens to a queue. -/
inductive QueueOp
  | tryEnqueue (agentId : AgentId) (prompt : List UInt8) (timeoutMs submission : ℕ)
      (priority : PriorityClass) (now : Instant)
  | popNext (now : Instant)
  /-- The dispatcher or a task writes `in_flight`. -/
  | setInFlight (n : ℕ)
  deriving DecidableEq, Repr

namespace QueueHistory

/-- `QueueState::new`, before any request. -/
def new (queueCapacity maxStarvationMs : ℕ) : QueueHistory :=
  { queue := .new queueCapacity maxStarvationMs, log := .new }

/-- One operation, on the record. -/
def step (h : QueueHistory) : QueueOp → Option QueueHistory
  | .tryEnqueue agentId prompt timeoutMs submission priority now =>
      let entry := h.queue.newEntry agentId prompt timeoutMs submission priority now
      let done := h.queue.tryEnqueue agentId prompt timeoutMs submission priority now
      some { queue := done.2, log := h.log.enqueue entry done.1 }
  | .popNext now =>
      let done := h.queue.popNext now
      some { queue := done.2, log := h.log.serve done.1 }
  | .setInFlight n => some { h with queue := { h.queue with inFlight := n } }

end QueueHistory

/-- The discipline of a queue whose log is `l`. -/
structure Disciplined (q : QueueState) (l : QueueLog) : Prop where
  /-- Every request waits in the deque of its effective class. -/
  seated : ∀ priority, ∀ e ∈ q.deque priority, e.effectiveClass = priority
  graded : ∀ e ∈ q.places l, e.Graded
  /-- Every promotion is the promotion of another request. -/
  counted : q.totalPromoted = (q.places l).countP (·.promoted)
  /-- What was dispatched, and what waits behind it. -/
  ordered : ∀ priority, ((l.dispatched ++ q.deque priority).filter
    (·.direct priority)).Pairwise fun a b => a.admissionSeq < b.admissionSeq

namespace Disciplined

variable {q q' : QueueState} {l : QueueLog} {now : Instant}

theorem new (queueCapacity maxStarvationMs : ℕ) :
    Disciplined (.new queueCapacity maxStarvationMs) .new := by
  refine ⟨?_, ?_, rfl, ?_⟩
  · rintro (_ | _ | _) e he <;> cases he
  · intro e he
    cases he
  · rintro (_ | _ | _) <;> exact .nil

/-- A request that has not been promoted was admitted to the deque it waits in. -/
theorem originalClass_eq (h : Disciplined q l) {e : QueueEntry} {priority : PriorityClass}
    (he : e ∈ q.deque priority) (hnot : e.promoted = false) : e.originalClass = priority := by
  have hwaits : e ∈ q.waiting := QueueState.mem_waiting.mpr ⟨priority, he⟩
  have hgraded := h.graded e (List.mem_append_left _ (List.mem_append_left _ hwaits))
  obtain ⟨-, hsame⟩ | ⟨hyes, -⟩ := hgraded
  · rw [← hsame, h.seated priority e he]
  · exact absurd (hyes.symm.trans hnot) (by decide)

/-- Requests that leave their deque without being served, or stay. -/
theorem rearrange {l' : QueueLog} (h : Disciplined q l)
    (hplaces : (q'.places l').Perm (q.places l))
    (hdeque : ∀ priority, (q'.deque priority).Sublist (q.deque priority))
    (hdispatched : l'.dispatched = l.dispatched) (htotal : q'.totalPromoted = q.totalPromoted) :
    Disciplined q' l' := by
  refine ⟨fun c e he => h.seated c e ((hdeque c).subset he),
    fun e he => h.graded e (hplaces.mem_iff.mp he), ?_, fun c => ?_⟩
  · rw [htotal, hplaces.countP_eq, h.counted]
  · rw [hdispatched]
    exact (h.ordered c).sublist (((hdeque c).append_left _).filter _)

/-- `in_flight` does not enter the discipline. -/
theorem setInFlight (h : Disciplined q l) (n : ℕ) : Disciplined { q with inFlight := n } l :=
  h.rearrange (.refl _) (fun priority => by cases priority <;> exact .refl _) rfl rfl

/-- A request that joins the end of its deque. -/
theorem pushBack {priority : PriorityClass} {entry : QueueEntry} {l' : QueueLog}
    (h : Disciplined q l) (hseq : ∀ e ∈ q.places l, e.admissionSeq < entry.admissionSeq)
    (hpromoted : entry.promoted = false) (hclass : entry.effectiveClass = priority)
    (hsame : entry.effectiveClass = entry.originalClass)
    (hdispatched : l'.dispatched = l.dispatched) (hevicted : l'.evicted = l.evicted) :
    Disciplined (q.pushBack priority entry) l' := by
  have hplaces : ((q.pushBack priority entry).places l').Perm (entry :: q.places l) := by
    simp only [QueueState.places, hdispatched, hevicted, List.append_assoc]
    exact (QueueState.waiting_pushBack q priority entry).append_right _
  refine ⟨?_, ?_, ?_, ?_⟩
  · intro c e he
    rw [QueueState.deque_pushBack] at he
    obtain hold | hnew := List.mem_append.mp he
    · exact h.seated c e hold
    · split at hnew
      case isTrue heq => rw [List.mem_singleton.mp hnew, hclass, heq]
      case isFalse => cases hnew
  · intro e he
    obtain rfl | hold := List.mem_cons.mp (hplaces.mem_iff.mp he)
    · exact .inl ⟨hpromoted, hsame⟩
    · exact h.graded e hold
  · rw [hplaces.countP_eq, List.countP_cons_of_neg (by simp [hpromoted]), ← h.counted]
    cases priority <;> rfl
  · intro c
    rw [QueueState.deque_pushBack, hdispatched, ← List.append_assoc, List.filter_append]
    refine List.pairwise_append.mpr ⟨h.ordered c, ?_, ?_⟩
    · split
      · exact (List.pairwise_singleton _ _).filter _
      · exact .nil
    · intro a ha b hb
      have hb' : b = entry := by
        split at hb
        · exact List.mem_singleton.mp (List.mem_of_mem_filter hb)
        · cases hb
      rw [hb']
      refine hseq a ?_
      obtain hgone | hwaits := List.mem_append.mp (List.mem_of_mem_filter ha)
      · exact List.mem_append_left _ (List.mem_append_right _ hgone)
      · exact List.mem_append_left _
          (List.mem_append_left _ (QueueState.mem_waiting.mpr ⟨c, hwaits⟩))

/-- Admission keeps the discipline. -/
theorem tryEnqueue {answer : QueueState.Admission} {agentId : AgentId} {prompt : List UInt8}
    {timeoutMs submission : ℕ} {priority : PriorityClass} (h : Disciplined q l)
    (ha : Accounted q l)
    (hq : q.tryEnqueue agentId prompt timeoutMs submission priority now = (answer, q')) :
    Disciplined q'
      (l.enqueue (q.newEntry agentId prompt timeoutMs submission priority now) answer) := by
  have hseq : ∀ e ∈ q.places l, e.admissionSeq <
      (q.newEntry agentId prompt timeoutMs submission priority now).admissionSeq :=
    fun e he => Nat.lt_succ_of_le (ha.seq_le he)
  obtain ⟨rfl, -, rfl⟩ | ⟨rest, evicted, rfl, rfl, -, hbatch, rfl⟩ | ⟨rfl, -, rfl⟩ :=
    QueueState.tryEnqueue_cases hq
  · exact h.rearrange (.refl _) (fun c => by cases c <;> exact .refl _) rfl rfl
  · -- First the evicted request leaves, then the supervisor joins.
    let q₁ : QueueState :=
      { q with
        batch := rest
        totalRejected := q.totalRejected + 1
        admissionCounter := q.admissionCounter + 1
        totalAdmitted := q.totalAdmitted + 1 }
    have hplaces : (q₁.places { l with evicted := l.evicted ++ [evicted] }).Perm (q.places l) := by
      refine List.perm_iff_count.mpr fun e => ?_
      simp only [q₁, QueueState.places, QueueState.waiting, hbatch, List.count_append]
      omega
    have hleft : Disciplined q₁ { l with evicted := l.evicted ++ [evicted] } := by
      refine h.rearrange hplaces (fun c => ?_) rfl rfl
      cases c with
      | supervisor | foreground => exact .refl _
      | batch =>
          simp only [q₁, QueueState.deque, hbatch]
          exact List.sublist_append_left _ _
    exact hleft.pushBack (fun e he => hseq e (hplaces.mem_iff.mp he)) rfl rfl rfl rfl rfl
  · have hcounted : Disciplined { q with
        admissionCounter := q.admissionCounter + 1
        totalAdmitted := q.totalAdmitted + 1 } l :=
      h.rearrange (.refl _) (fun c => by cases c <;> exact .refl _) rfl rfl
    exact hcounted.pushBack hseq rfl rfl rfl rfl (List.append_nil _)

/-! ### Promotion -/

/-- A promotion pass leaves a request as it is, or promotes it. -/
theorem mem_applyStarvationPromotions (h : Disciplined q l) {e' : QueueEntry}
    (he' : e' ∈ (q.applyStarvationPromotions now).waiting) :
    e' ∈ q.waiting ∨ ∃ e ∈ q.waiting, e.RisesTo q.maxStarvationMs now e' := by
  rw [(QueueState.waiting_applyStarvationPromotions q now).mem_iff] at he'
  obtain hleft | hbatch := List.mem_append.mp he'
  · obtain hsupervisor | hforeground := List.mem_append.mp hleft
    · exact .inl (QueueState.mem_waiting.mpr ⟨.supervisor, hsupervisor⟩)
    · obtain ⟨e, he, rfl⟩ := List.mem_map.mp hforeground
      have hwaits : e ∈ q.waiting := QueueState.mem_waiting.mpr ⟨.foreground, he⟩
      simp only [QueueState.liftForeground]
      split
      case isTrue hmoves =>
          obtain ⟨hstarved, hclass⟩ := QueueState.moves_eq_true.mp hmoves
          obtain ⟨hnot, hlong⟩ := QueueState.starved_eq_true.mp hstarved
          exact .inr ⟨e, hwaits, hnot, by simp [hclass], hlong, by rw [hclass]; rfl⟩
      case isFalse => exact .inl hwaits
  · obtain ⟨e, he, rfl⟩ := List.mem_map.mp hbatch
    have hwaits : e ∈ q.waiting := QueueState.mem_waiting.mpr ⟨.batch, he⟩
    simp only [QueueState.liftBatch]
    split
    case isTrue hstarved =>
        obtain ⟨hnot, hlong⟩ := QueueState.starved_eq_true.mp hstarved
        have hclass : e.originalClass = .batch := h.originalClass_eq he hnot
        exact .inr ⟨e, hwaits, hnot, by simp [hclass], hlong, by rw [hclass]; rfl⟩
    case isFalse => exact .inl hwaits

/-- Promoting the requests of a list that meet `p` counts them in. -/
theorem countP_lift (p : QueueEntry → Bool) (priority : PriorityClass) (es : List QueueEntry)
    (hp : ∀ e, p e = true → e.promoted = false) :
    (es.map fun e => if p e then e.promote priority else e).countP (·.promoted) =
      es.countP (·.promoted) + (es.filter p).length := by
  induction es with
  | nil => rfl
  | cons e es ih =>
      cases hpe : p e with
      | true => simp [List.countP_cons, hpe, hp e hpe, ih, Nat.add_assoc]
      | false => simp [List.countP_cons, hpe, ih, Nat.add_right_comm]

/-- Promotion keeps the discipline. -/
theorem applyStarvationPromotions (h : Disciplined q l) (now : Instant) :
    Disciplined (q.applyStarvationPromotions now) l := by
  refine ⟨?_, ?_, ?_, ?_⟩
  · intro c e he
    rw [QueueState.applyStarvationPromotions_eq] at he
    cases c with
    | supervisor =>
        obtain hlifted | hold := List.mem_append.mp he
        · obtain ⟨e₀, -, rfl⟩ := List.mem_map.mp hlifted
          rfl
        · exact h.seated .supervisor e hold
    | foreground =>
        obtain hlifted | hold := List.mem_append.mp he
        · obtain ⟨e₀, -, rfl⟩ := List.mem_map.mp hlifted
          rfl
        · exact h.seated .foreground e (List.mem_of_mem_filter hold)
    | batch => exact h.seated .batch e (List.mem_of_mem_filter he)
  · intro e' he'
    simp only [QueueState.places, List.append_assoc] at he'
    obtain hwaits | hgone := List.mem_append.mp he'
    · obtain hold | ⟨e, -, hrises⟩ := h.mem_applyStarvationPromotions hwaits
      · exact h.graded e' (List.mem_append_left _ (List.mem_append_left _ hold))
      · exact hrises.graded
    · refine h.graded e' ?_
      simp only [QueueState.places, List.append_assoc]
      exact List.mem_append_right _ hgone
  · have hforeground : (q.foreground.map (q.liftForeground now)).countP (·.promoted) = _ :=
      countP_lift (q.moves now) .supervisor q.foreground fun e he =>
        (QueueState.starved_eq_true.mp (QueueState.moves_eq_true.mp he).1).1
    have hbatch : (q.batch.map (q.liftBatch now)).countP (·.promoted) = _ :=
      countP_lift (q.starved now) .foreground q.batch fun e he =>
        (QueueState.starved_eq_true.mp he).1
    have hcounted := h.counted
    have hwaiting := (QueueState.waiting_applyStarvationPromotions q now).countP_eq (·.promoted)
    have htotal : (q.applyStarvationPromotions now).totalPromoted = q.totalPromoted +
        (q.batch.filter (q.starved now)).length + (q.foreground.filter (q.moves now)).length := by
      rw [QueueState.applyStarvationPromotions_eq]
    rw [htotal]
    simp only [QueueState.places, QueueState.waiting, List.countP_append] at hcounted hwaiting ⊢
    omega
  · intro c
    have hnone : ∀ (es : List QueueEntry) (c' : PriorityClass),
        (es.map (·.promote c')).filter (·.direct c) = [] := by
      intro es c'
      simp only [List.filter_eq_nil_iff, List.mem_map]
      rintro _ ⟨e, -, rfl⟩
      simp
    refine (h.ordered c).sublist ?_
    rw [QueueState.applyStarvationPromotions_eq, List.filter_append, List.filter_append]
    refine List.Sublist.append_left ?_ _
    cases c with
    | supervisor =>
        simp only [QueueState.deque, List.filter_append, hnone, List.nil_append]
        exact .refl _
    | foreground =>
        simp only [QueueState.deque, List.filter_append, hnone, List.nil_append]
        exact List.filter_sublist.filter _
    | batch => exact List.filter_sublist.filter _

/-- Service keeps the discipline. -/
theorem popFront {answer : Option QueueEntry} (h : Disciplined q l)
    (hq : q.popFront = (answer, q')) : Disciplined q' (l.serve answer) := by
  cases answer with
  | none =>
      obtain ⟨rfl, -⟩ := QueueState.popFront_eq_none hq
      simpa [QueueLog.serve] using h
  | some e =>
      obtain ⟨priority, hfront, hother, -, htotal⟩ := QueueState.deque_popFront hq
      have hplaces : (q'.places (l.serve (some e))).Perm (q.places l) := by
        have hwaiting := QueueState.waiting_popFront hq
        simp only [QueueState.places, QueueLog.serve, hwaiting]
        refine List.perm_iff_count.mpr fun e => ?_
        simp only [List.count_append]
        omega
      have hmem : e ∈ q.deque priority := hfront ▸ List.mem_cons_self
      have hgraded : e.Graded := h.graded e
        (List.mem_append_left _ (List.mem_append_left _ (QueueState.mem_waiting.mpr ⟨_, hmem⟩)))
      refine ⟨?_, fun e' he' => h.graded e' (hplaces.mem_iff.mp he'), ?_, ?_⟩
      · intro c e' he'
        obtain rfl | hne := eq_or_ne c priority
        · exact h.seated c e' (hfront ▸ List.mem_cons_of_mem _ he')
        · exact h.seated c e' (hother c hne ▸ he')
      · rw [htotal, hplaces.countP_eq, h.counted]
      · intro c
        have hdispatched : (l.serve (some e)).dispatched = l.dispatched ++ [e] := rfl
        obtain rfl | hne := eq_or_ne c priority
        · have hordered := h.ordered c
          rw [hfront] at hordered
          rwa [hdispatched, List.append_assoc, List.singleton_append]
        · -- The request that is served does not count among those of another class.
          have hdirect : e.direct c = false := by
            refine Bool.eq_false_iff.mpr fun hdirect => hne ?_
            rw [← hgraded.effectiveClass_of_direct hdirect, h.seated priority e hmem]
          have hordered := h.ordered c
          rw [List.filter_append] at hordered
          rw [hdispatched, hother c hne, List.filter_append, List.filter_append,
            List.filter_singleton, hdirect, cond_false, List.append_nil]
          exact hordered

/-- `pop_next` keeps the discipline. -/
theorem popNext {answer : Option QueueEntry} (h : Disciplined q l)
    (hq : q.popNext now = (answer, q')) : Disciplined q' (l.serve answer) :=
  (h.applyStarvationPromotions now).popFront hq

end Disciplined

namespace QueueHistory

variable {h h' : QueueHistory} {op : QueueOp} {queueCapacity maxStarvationMs : ℕ}

/-- What holds of a queue and its log at every moment. -/
structure Fair (maxStarvationMs : ℕ) (h : QueueHistory) : Prop where
  accounted : Accounted h.queue h.log
  disciplined : Disciplined h.queue h.log
  threshold : h.queue.maxStarvationMs = maxStarvationMs

/-- No operation changes the threshold. -/
theorem maxStarvationMs_step (hstep : h.step op = some h') :
    h'.queue.maxStarvationMs = h.queue.maxStarvationMs := by
  cases op with
  | tryEnqueue agentId prompt timeoutMs submission priority now =>
      cases hstep
      obtain ⟨-, -, hq⟩ | ⟨rest, evicted, -, -, -, -, hq⟩ | ⟨-, -, hq⟩ :=
        QueueState.tryEnqueue_cases (Prod.eta (h.queue.tryEnqueue agentId prompt timeoutMs
          submission priority now)).symm
      · rw [hq]
      · rw [hq]
      · rw [hq]
        cases priority <;> rfl
  | popNext now =>
      cases hstep
      obtain ⟨-, hq, -⟩ | ⟨e, rest, -, -, hq⟩ | ⟨e, rest, -, -, -, hq⟩ |
        ⟨e, rest, -, -, -, -, hq⟩ :=
        QueueState.popFront_cases (Prod.eta (h.queue.popNext now)).symm <;>
      · rw [hq, QueueState.applyStarvationPromotions_eq]
  | setInFlight n =>
      cases hstep
      rfl

/-- **Step.** Every operation keeps the account and the discipline. -/
theorem Fair.step (hfair : h.Fair maxStarvationMs) (hstep : h.step op = some h') :
    h'.Fair maxStarvationMs := by
  have hthreshold := (maxStarvationMs_step hstep).trans hfair.threshold
  cases op with
  | tryEnqueue agentId prompt timeoutMs submission priority now =>
      cases hstep
      exact ⟨hfair.accounted.tryEnqueue rfl, hfair.disciplined.tryEnqueue hfair.accounted rfl,
        hthreshold⟩
  | popNext now =>
      cases hstep
      exact ⟨hfair.accounted.popNext rfl, hfair.disciplined.popNext rfl, hthreshold⟩
  | setInFlight n =>
      cases hstep
      exact ⟨hfair.accounted.setInFlight n, hfair.disciplined.setInFlight n, hthreshold⟩

/-- **Run.** -/
theorem Fair.run {ops : List QueueOp}
    (hrun : Machine.run QueueHistory.step (.new queueCapacity maxStarvationMs) ops = some h) :
    h.Fair maxStarvationMs := by
  have hkept : ∀ (h : QueueHistory) op h', h.Fair maxStarvationMs → h.step op = some h' →
      h'.Fair maxStarvationMs := fun h op h' hfair hstep => hfair.step hstep
  exact run_invariant hkept
    ⟨.new queueCapacity maxStarvationMs, .new queueCapacity maxStarvationMs, rfl⟩ hrun

end QueueHistory

end Torpor
