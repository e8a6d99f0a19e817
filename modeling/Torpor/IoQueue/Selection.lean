import Mathlib.Data.List.Nodup
import Torpor.IoQueue.Basic
import Torpor.Lib.Machine

/-!
# Whom the I/O Queue Serves

`pop_best` scans the deque of the highest class that anyone waits in for the waiter with the
largest cache score, and of these for the one that was admitted first. The scan keeps the later
of two waiters that compare equal; since every admission takes a new number, no two do.

## Main results

* `IoQueueState.bestIn_spec`: the scan finds a waiter that no other one of the deque beats.
* `Orderly.step`: what every operation keeps.
* `io_queue_serves_best`: whom `pop_best` serves in every reachable state.
* `IoAdmissionQueue.reachable_state`: the states of the whole queue are among these.
-/

namespace Torpor

open Machine

namespace IoWaiter

/-- The order of service: the class, then the cache score, then the admission. -/
def Beats (a b : IoWaiter) : Prop :=
  a.priority.toByte < b.priority.toByte ∨ a.priority = b.priority ∧
    (b.cacheScore < a.cacheScore ∨
      a.cacheScore = b.cacheScore ∧ a.admissionSeq < b.admissionSeq)

variable {a b c : IoWaiter}

theorem notBetter_eq_true : a.notBetter b = true ↔ a.cacheScore < b.cacheScore ∨
    a.cacheScore = b.cacheScore ∧ b.admissionSeq ≤ a.admissionSeq := by
  simp [notBetter]

theorem notBetter_refl (a : IoWaiter) : a.notBetter a = true :=
  notBetter_eq_true.mpr (.inr ⟨rfl, le_rfl⟩)

theorem notBetter_trans (hab : a.notBetter b = true) (hbc : b.notBetter c = true) :
    a.notBetter c = true := by
  rw [notBetter_eq_true] at *
  omega

theorem notBetter_of_not (h : a.notBetter b = false) : b.notBetter a = true := by
  rw [← Bool.not_eq_true, notBetter_eq_true] at h
  rw [notBetter_eq_true]
  omega

end IoWaiter

namespace IoQueueState

/-! ### The scan -/

/-- The scan at index `i`, when the best of the waiters before it is at `idx`. -/
theorem bestFrom_spec {bucket rest : List IoWaiter} {best : IoWaiter} {idx i : ℕ}
    (hrest : bucket.drop i = rest) (hidx : bucket[idx]? = some best)
    (hbest : ∀ w ∈ bucket.take i, w.notBetter best = true) :
    ∃ w, bucket[bestFrom best idx i rest]? = some w ∧ ∀ w' ∈ bucket, w'.notBetter w = true := by
  induction rest generalizing best idx i with
  | nil =>
      refine ⟨best, hidx, fun w hw => hbest w ?_⟩
      rwa [List.take_of_length_le (List.drop_eq_nil_iff.mp hrest)]
  | cons w rest ih =>
      have hw : bucket[i]? = some w := by
        rw [← List.head?_drop, hrest]
        rfl
      have hnext : bucket.drop (i + 1) = rest := by
        rw [← List.tail_drop, hrest]
        rfl
      have htake : ∀ w' ∈ bucket.take (i + 1), w' ∈ bucket.take i ∨ w' = w := by
        intro w' hw'
        rw [List.take_add_one, hw] at hw'
        simpa using hw'
      simp only [bestFrom]
      cases hcompare : best.notBetter w with
      | true =>
          refine ih hnext hw fun w' hw' => ?_
          obtain hold | rfl := htake w' hw'
          · exact IoWaiter.notBetter_trans (hbest w' hold) hcompare
          · exact w'.notBetter_refl
      | false =>
          refine ih hnext hidx fun w' hw' => ?_
          obtain hold | rfl := htake w' hw'
          · exact hbest w' hold
          · exact IoWaiter.notBetter_of_not hcompare

/-- `best_in` finds a waiter that no other one beats, and `remove` takes out that one. -/
theorem bestIn_spec {bucket : List IoWaiter} (hne : bucket ≠ []) :
    ∃ w before after, bucket[bestIn bucket]? = some w ∧ bucket = before ++ w :: after ∧
      bucket.eraseIdx (bestIn bucket) = before ++ after ∧
      ∀ w' ∈ bucket, w'.notBetter w = true := by
  obtain ⟨w, rest, rfl⟩ := List.exists_cons_of_ne_nil hne
  have hstart : ∀ w' ∈ (w :: rest).take 1, w'.notBetter w = true := by
    simp [IoWaiter.notBetter_refl]
  have hzero : (w :: rest)[0]? = some w := rfl
  obtain ⟨best, hbest, hall⟩ := bestFrom_spec (show (w :: rest).drop 1 = rest from rfl) hzero hstart
  obtain ⟨hlt, hget⟩ := List.getElem?_eq_some_iff.mp hbest
  refine ⟨best, (w :: rest).take (bestIn (w :: rest)), (w :: rest).drop (bestIn (w :: rest) + 1),
    hbest, ?_, List.eraseIdx_eq_take_drop_succ _ _, hall⟩
  have hsplit := List.take_append_drop (bestIn (w :: rest)) (w :: rest)
  rw [List.drop_eq_getElem_cons (show bestIn (w :: rest) < _ from hlt)] at hsplit
  rw [← hget]
  exact hsplit.symm

/-! ### What the operations do -/

/-- The deque of a class. -/
def deque (st : IoQueueState) : PriorityClass → List IoWaiter
  | .supervisor => st.supervisor
  | .foreground => st.foreground
  | .batch => st.batch

/-- Everyone who waits. -/
def waiting (st : IoQueueState) : List IoWaiter := st.supervisor ++ st.foreground ++ st.batch

variable {st st' : IoQueueState} {w : IoWaiter}

theorem mem_waiting : w ∈ st.waiting ↔ ∃ c, w ∈ st.deque c := by
  simp only [waiting, List.mem_append]
  constructor
  · rintro ((h | h) | h)
    · exact ⟨.supervisor, h⟩
    · exact ⟨.foreground, h⟩
    · exact ⟨.batch, h⟩
  · rintro ⟨_ | _ | _, h⟩
    · exact .inl (.inl h)
    · exact .inl (.inr h)
    · exact .inr h

/-- `w` was taken out of the deque of a class: no other waiter of the deque is better, and no
deque of a higher class has waiters. -/
structure TakenFrom (c : PriorityClass) (w : IoWaiter) (st st' : IoQueueState) : Prop where
  best : ∀ w' ∈ st.deque c, w'.notBetter w = true
  highest : ∀ c', c'.toByte < c.toByte → st.deque c' = []
  removed : ∃ before after, st.deque c = before ++ w :: after ∧ st'.deque c = before ++ after
  others : ∀ c', c' ≠ c → st'.deque c' = st.deque c'

/-- `pop_best` takes out a waiter, or finds nobody. -/
theorem popBest_cases {answer : Option IoWaiter} (h : st.popBest = (answer, st')) :
    (answer = none ∧ st' = st ∧ st.waiting = []) ∨
      ∃ c w, answer = some w ∧ TakenFrom c w st st' ∧ st'.inFlight = st.inFlight ∧
        st'.queueCapacity = st.queueCapacity ∧ st'.admissionCounter = st.admissionCounter ∧
        (st.supChosenWhenPresent = st.popWithSupPresent →
          st'.supChosenWhenPresent = st'.popWithSupPresent) := by
  simp only [popBest] at h
  split at h
  case isTrue hs =>
      obtain ⟨w, before, after, hw, hsplit, hrest, hbest⟩ := bestIn_spec hs
      rw [hw] at h
      cases h
      refine .inr ⟨.supervisor, w, rfl, ⟨hbest, fun c' hc' => ?_, ⟨before, after, hsplit, hrest⟩,
        fun c' hc' => ?_⟩, rfl, rfl, rfl, fun hcounted => ?_⟩
      · cases c' <;> exact absurd hc' (by decide)
      · cases c' <;> first | rfl | exact absurd rfl hc'
      · simp [hcounted]
  case isFalse hs =>
      rw [not_not] at hs
      split at h
      case isTrue hf =>
          obtain ⟨w, before, after, hw, hsplit, hrest, hbest⟩ := bestIn_spec hf
          rw [hw] at h
          cases h
          refine .inr ⟨.foreground, w, rfl, ⟨hbest, fun c' hc' => ?_,
            ⟨before, after, hsplit, hrest⟩, fun c' hc' => ?_⟩, rfl, rfl, rfl, id⟩
          · cases c' <;> first | exact hs | exact absurd hc' (by decide)
          · cases c' <;> first | rfl | exact absurd rfl hc'
      case isFalse hf =>
          rw [not_not] at hf
          split at h
          case isTrue hb =>
              obtain ⟨w, before, after, hw, hsplit, hrest, hbest⟩ := bestIn_spec hb
              rw [hw] at h
              cases h
              refine .inr ⟨.batch, w, rfl, ⟨hbest, fun c' hc' => ?_,
                ⟨before, after, hsplit, hrest⟩, fun c' hc' => ?_⟩, rfl, rfl, rfl, id⟩
              · cases c' <;> first | exact hs | exact hf | exact absurd hc' (by decide)
              · cases c' <;> first | rfl | exact absurd rfl hc'
          case isFalse hb =>
              rw [not_not] at hb
              cases h
              exact .inl ⟨rfl, rfl, by simp [waiting, hs, hf, hb]⟩

theorem deque_pushBack (st : IoQueueState) (w : IoWaiter) (c : PriorityClass) :
    (st.pushBack w).deque c = st.deque c ++ if c = w.priority then [w] else [] := by
  cases hw : w.priority <;> cases c <;> simp [pushBack, deque, hw]

/-! ### Runs -/

end IoQueueState

/-- What happens to the state of the queue: the calls that enqueue, `pop_best` by itself, the
critical section of the dispatcher, and those that take `in_flight` back. -/
inductive IoQueueOp
  | tryEnqueue (agentId : AgentId) (priority : PriorityClass) (cacheScore resultTx : ℕ)
  | popBest
  | dispatch
  | decrement
  deriving DecidableEq, Repr

namespace IoQueueState

/-- The critical section of `io_dispatcher`. -/
def dispatch (st : IoQueueState) : IoQueueState :=
  match st.popBest with
  | (none, st) => st
  | (some _, st) => { st with inFlight := st.inFlight + 1 }

/-- One operation. -/
def step (st : IoQueueState) : IoQueueOp → Option IoQueueState
  | .tryEnqueue agentId priority cacheScore resultTx =>
      some (st.tryEnqueue agentId priority cacheScore resultTx).2
  | .popBest => some st.popBest.2
  | .dispatch => some st.dispatch
  | .decrement => some { st with inFlight := st.inFlight - 1 }

/-- What holds of the queue at every moment. -/
structure Orderly (st : IoQueueState) : Prop where
  seated : ∀ c, ∀ w ∈ st.deque c, w.priority = c
  numbered : ∀ c, ∀ w ∈ st.deque c, w.admissionSeq ≤ st.admissionCounter
  sorted : ∀ c, (st.deque c).Pairwise fun a b => a.admissionSeq < b.admissionSeq
  counted : st.supChosenWhenPresent = st.popWithSupPresent
  bounded : st.totalWaiting + st.inFlight ≤ st.queueCapacity

variable {st st' : IoQueueState} {w : IoWaiter}

theorem Orderly.new (queueCapacity : ℕ) : Orderly (.new queueCapacity) := by
  refine ⟨?_, ?_, ?_, rfl, Nat.zero_le _⟩
  · rintro (_ | _ | _) w hw <;> cases hw
  · rintro (_ | _ | _) w hw <;> cases hw
  · rintro (_ | _ | _) <;> exact .nil

/-- A deque that loses a waiter. -/
theorem TakenFrom.sublist {c : PriorityClass} (h : TakenFrom c w st st') (c' : PriorityClass) :
    (st'.deque c').Sublist (st.deque c') := by
  obtain rfl | hne := eq_or_ne c' c
  · obtain ⟨before, after, hsplit, hrest⟩ := h.removed
    rw [hsplit, hrest]
    exact (List.sublist_cons_self w after).append_left before
  · rw [h.others c' hne]

theorem totalWaiting_eq (st : IoQueueState) : st.totalWaiting = (st.deque .supervisor).length +
    (st.deque .foreground).length + (st.deque .batch).length := rfl

theorem TakenFrom.totalWaiting {c : PriorityClass} (h : TakenFrom c w st st') :
    st'.totalWaiting + 1 = st.totalWaiting := by
  obtain ⟨before, after, hsplit, hrest⟩ := h.removed
  have hlength : (st'.deque c).length + 1 = (st.deque c).length := by
    simp only [hsplit, hrest, List.length_append, List.length_cons]
    omega
  have hsame : ∀ c', c' ≠ c → (st'.deque c').length = (st.deque c').length :=
    fun c' hc' => congrArg List.length (h.others c' hc')
  simp only [totalWaiting_eq]
  cases c with
  | supervisor =>
      rw [hsame .foreground (by simp), hsame .batch (by simp)]
      omega
  | foreground =>
      rw [hsame .supervisor (by simp), hsame .batch (by simp)]
      omega
  | batch =>
      rw [hsame .supervisor (by simp), hsame .foreground (by simp)]
      omega

/-- Service keeps the order, and makes room for one more in flight. -/
theorem Orderly.popBest {answer : Option IoWaiter} (h : Orderly st)
    (hpop : st.popBest = (answer, st')) :
    Orderly st' ∧ st'.totalWaiting + st'.inFlight + answer.toList.length ≤
      st'.queueCapacity := by
  obtain ⟨rfl, rfl, -⟩ | ⟨c, w, rfl, htaken, hflight, hcapacity, hcounter, hcounted⟩ :=
    popBest_cases hpop
  · exact ⟨h, h.bounded⟩
  · have htotal := htaken.totalWaiting
    have hbounded := h.bounded
    have hroom : st'.totalWaiting + st'.inFlight + 1 ≤ st'.queueCapacity := by omega
    refine ⟨⟨fun c' w' hw' => h.seated c' w' ((htaken.sublist c').subset hw'),
      fun c' w' hw' => ?_, fun c' => (h.sorted c').sublist (htaken.sublist c'),
      hcounted h.counted, by omega⟩, hroom⟩
    rw [hcounter]
    exact h.numbered c' w' ((htaken.sublist c').subset hw')

/-- A waiter with the next number joins the end of its deque. -/
theorem Orderly.pushBack (h : Orderly st) (hseq : w.admissionSeq = st.admissionCounter + 1)
    (hroom : st.totalWaiting + st.inFlight < st.queueCapacity) :
    Orderly (({ st with
      admissionCounter := st.admissionCounter + 1
      totalAdmitted := st.totalAdmitted + 1 } : IoQueueState).pushBack w) := by
  have hdeque : ∀ c, (({ st with
      admissionCounter := st.admissionCounter + 1
      totalAdmitted := st.totalAdmitted + 1 } : IoQueueState).pushBack w).deque c =
        st.deque c ++ if c = w.priority then [w] else [] := by
    intro c
    rw [deque_pushBack]
    cases c <;> rfl
  have hmem : ∀ c, ∀ w' ∈ st.deque c ++ (if c = w.priority then [w] else []),
      w' ∈ st.deque c ∨ w' = w ∧ c = w.priority := by
    intro c w' hw'
    obtain hold | hlast := List.mem_append.mp hw'
    · exact .inl hold
    · split_ifs at hlast with hc
      · exact .inr ⟨List.mem_singleton.mp hlast, hc⟩
      · cases hlast
  refine ⟨fun c w' hw' => ?_, fun c w' hw' => ?_, fun c => ?_, ?_, ?_⟩
  · rw [hdeque] at hw'
    obtain hold | ⟨rfl, rfl⟩ := hmem c w' hw'
    · exact h.seated c w' hold
    · rfl
  · rw [hdeque] at hw'
    have hle : w'.admissionSeq ≤ st.admissionCounter + 1 := by
      obtain hold | ⟨rfl, -⟩ := hmem c w' hw'
      · exact (h.numbered c w' hold).trans (Nat.le_succ _)
      · exact hseq.le
    cases hp : w.priority <;> simpa [IoQueueState.pushBack, hp] using hle
  · rw [hdeque]
    refine List.pairwise_append.mpr ⟨h.sorted c, ?_, fun a ha b hb => ?_⟩
    · split_ifs
      · exact List.pairwise_singleton _ _
      · exact .nil
    · split_ifs at hb
      · rw [List.mem_singleton.mp hb, hseq]
        exact Nat.lt_succ_of_le (h.numbered c a ha)
      · cases hb
  · cases hp : w.priority <;> simpa [IoQueueState.pushBack, hp] using h.counted
  · simp only [totalWaiting] at hroom
    cases hp : w.priority <;>
    · simp only [IoQueueState.pushBack, hp, totalWaiting, List.length_append, List.length_singleton]
      omega

/-- Admission keeps the order. -/
theorem Orderly.tryEnqueue (h : Orderly st) (agentId : AgentId) (priority : PriorityClass)
    (cacheScore resultTx : ℕ) :
    Orderly (st.tryEnqueue agentId priority cacheScore resultTx).2 := by
  simp only [IoQueueState.tryEnqueue]
  split
  case isTrue => exact ⟨h.seated, h.numbered, h.sorted, h.counted, h.bounded⟩
  case isFalse hroom => exact h.pushBack rfl (Nat.lt_of_not_le hroom)

/-- **Step.** -/
theorem Orderly.step {op : IoQueueOp} (h : Orderly st) (hstep : st.step op = some st') :
    Orderly st' := by
  cases op with
  | tryEnqueue agentId priority cacheScore resultTx =>
      cases hstep
      exact h.tryEnqueue agentId priority cacheScore resultTx
  | popBest =>
      cases hstep
      exact (h.popBest rfl).1
  | dispatch =>
      cases hstep
      simp only [dispatch]
      split
      case h_1 st' hpop => exact (h.popBest hpop).1
      case h_2 w st' hpop =>
          obtain ⟨horderly, hroom⟩ := h.popBest hpop
          refine ⟨horderly.seated, horderly.numbered, horderly.sorted, horderly.counted, ?_⟩
          change st'.totalWaiting + (st'.inFlight + 1) ≤ st'.queueCapacity
          simpa [Nat.add_assoc] using hroom
  | decrement =>
      cases hstep
      refine ⟨h.seated, h.numbered, h.sorted, h.counted, ?_⟩
      have hbounded := h.bounded
      change st.totalWaiting + (st.inFlight - 1) ≤ st.queueCapacity
      omega

/-- `w` is the waiter that beats all others; exactly it is gone, and the others wait where they
waited. -/
structure Serves (st : IoQueueState) (w : IoWaiter) (st' : IoQueueState) : Prop where
  waits : w ∈ st.waiting
  best : ∀ w' ∈ st.waiting, w' ≠ w → w.Beats w'
  removed : ∃ before after, st.deque w.priority = before ++ w :: after ∧
    st'.deque w.priority = before ++ after
  others : ∀ c, c ≠ w.priority → st'.deque c = st.deque c

/-- In an orderly queue `pop_best` serves the best waiter. -/
theorem Orderly.serves (h : Orderly st) (hpop : st.popBest = (some w, st')) :
    st.Serves w st' := by
  obtain ⟨hnone, -⟩ | ⟨c, w', heq, htaken, -⟩ := popBest_cases hpop
  · cases hnone
  · obtain rfl := Option.some.inj heq
    have hw : w ∈ st.deque c := by
      obtain ⟨before, after, hsplit, -⟩ := htaken.removed
      rw [hsplit]
      exact List.mem_append_right _ List.mem_cons_self
    have hclass := h.seated c w hw
    refine ⟨mem_waiting.mpr ⟨c, hw⟩, fun w' hw' hne => ?_, hclass ▸ htaken.removed,
      fun c' hc' => htaken.others c' (hclass ▸ hc')⟩
    obtain ⟨c', hmem⟩ := mem_waiting.mp hw'
    obtain rfl | hother := eq_or_ne c' c
    · -- In one deque the numbers are different, so that the scan decides between two waiters.
      have hnodup : ((st.deque c').map (·.admissionSeq)).Nodup :=
        List.pairwise_map.mpr ((h.sorted c').imp Nat.ne_of_lt)
      have hapart : w'.admissionSeq ≠ w.admissionSeq :=
        fun hseq => hne (List.inj_on_of_nodup_map hnodup hmem hw hseq)
      have hbest := IoWaiter.notBetter_eq_true.mp (htaken.best w' hmem)
      exact .inr ⟨hclass.trans (h.seated c' w' hmem).symm, by omega⟩
    · left
      rw [hclass, h.seated c' w' hmem]
      by_contra hnot
      have hlt : c'.toByte < c.toByte := by
        revert hnot hother
        cases c' <;> cases c <;> decide
      rw [htaken.highest c' hlt] at hmem
      cases hmem

/-- **Selection**, for any calls of `try_enqueue`, `pop_best` and the dispatcher. `pop_best`
serves the waiter of the highest class, then of the largest cache score, then of the earliest
admission, and takes out no other; it finds nobody only in an empty queue. Whenever a supervisor
waits, one is chosen; and the queue never holds more than its capacity. -/
theorem io_queue_serves_best {queueCapacity : ℕ} {ops : List IoQueueOp}
    (hrun : run IoQueueState.step (.new queueCapacity) ops = some st) :
    (∀ w st', st.popBest = (some w, st') → st.Serves w st') ∧
      (∀ st', st.popBest = (none, st') → st.waiting = [] ∧ st' = st) ∧
      st.supChosenWhenPresent = st.popWithSupPresent ∧
      st.totalWaiting + st.inFlight ≤ st.queueCapacity := by
  have hkept : ∀ (st : IoQueueState) op st', Orderly st → st.step op = some st' →
      Orderly st' := fun st op st' h hstep => h.step hstep
  have horderly := run_invariant hkept (.new queueCapacity) hrun
  refine ⟨fun w st' hpop => horderly.serves hpop, fun st' hpop => ?_, horderly.counted,
    horderly.bounded⟩
  obtain ⟨-, hsame, hempty⟩ | ⟨c, w, hsome, -⟩ := popBest_cases hpop
  · exact ⟨hempty, hsame⟩
  · cases hsome

/-- Two supervisors, the second one with a warmer cache, and a foreground request. -/
theorem io_queue_serves_best_warmer :
    ∃ st w st', run IoQueueState.step (.new 4) [.tryEnqueue 1 .foreground 9 0,
        .tryEnqueue 2 .supervisor 0 1, .tryEnqueue 3 .supervisor 5 2] = some st ∧
      st.popBest = (some w, st') ∧ w.agentId = 3 ∧ st.Serves w st' := by
  have hends : (run IoQueueState.step (.new 4) [.tryEnqueue 1 .foreground 9 0,
      .tryEnqueue 2 .supervisor 0 1, .tryEnqueue 3 .supervisor 5 2]).any (fun st =>
        st.popBest.1.any fun w => decide (w.agentId = 3)) = true := by
    decide +kernel
  obtain ⟨st, hrun, hends⟩ := (Option.any_eq_true _ _).mp hends
  obtain ⟨w, hw, hagent⟩ := (Option.any_eq_true _ _).mp hends
  have hpop : st.popBest = (some w, st.popBest.2) := Prod.ext hw rfl
  exact ⟨st, w, _, hrun, hpop, of_decide_eq_true hagent,
    (io_queue_serves_best hrun).1 w _ hpop⟩

end IoQueueState

/-! ### The whole queue -/

namespace IoAdmissionQueue

variable {q q' : IoAdmissionQueue} {ev : IoEvent}

@[simp] theorem state_notifyOne (q : IoAdmissionQueue) : q.notifyOne.state = q.state := by
  simp only [notifyOne]
  split <;> rfl

/-- A step of the whole queue is at most one operation on its state. -/
theorem state_step (hstep : q.step ev = some q') :
    q'.state = q.state ∨ ∃ op, q.state.step op = some q'.state := by
  cases ev with
  | acquire agentId priority lastActive now =>
      have henqueue : ∀ answer st, q.state.tryEnqueue agentId priority
          (cacheScore lastActive now) q.calls.length = (answer, st) →
            ∃ op, q.state.step op = some st := fun answer st heq =>
        ⟨.tryEnqueue agentId priority (cacheScore lastActive now) q.calls.length,
          by rw [IoQueueState.step, heq]⟩
      simp only [step] at hstep
      split at hstep <;> cases hstep
      · exact .inr (henqueue _ _ ‹_›)
      · exact .inr (henqueue _ _ ‹_›)
  | announce call =>
      simp only [step] at hstep
      split at hstep <;> cases hstep
      exact .inl (state_notifyOne _)
  | resume call =>
      simp only [step] at hstep
      split at hstep <;> cases hstep
      exact .inl rfl
  | cancel call =>
      simp only [step] at hstep
      split at hstep <;> cases hstep <;> exact .inl rfl
  | dropDecrement call =>
      simp only [step] at hstep
      split at hstep <;> cases hstep
      exact .inr ⟨.decrement, rfl⟩
  | dropNotify call =>
      simp only [step] at hstep
      split at hstep <;> cases hstep
      exact .inl (state_notifyOne _)
  | dropRelease call =>
      simp only [step] at hstep
      split at hstep <;> cases hstep
      exact .inl rfl
  | dispatch =>
      simp only [step, dispatch] at hstep
      split at hstep
      case h_1 => cases hstep
      case h_2 => split at hstep <;> cases hstep <;> exact .inl rfl
      case h_3 => split at hstep <;> cases hstep <;> exact .inl rfl
      case h_4 =>
          cases hstep
          refine .inr ⟨.dispatch, ?_⟩
          simp only [IoQueueState.step, IoQueueState.dispatch, pop]
          generalize q.state.popBest = done
          obtain ⟨_ | w, st⟩ := done <;> rfl
      case h_5 =>
          cases hstep
          simp only [send]
          split <;> exact .inl rfl
      case h_6 =>
          cases hstep
          refine .inr ⟨.decrement, ?_⟩
          simp [IoQueueState.step, decrement]
      case h_7 =>
          cases hstep
          exact .inl rfl
      case h_8 =>
          cases hstep
          exact .inl rfl

/-- Whatever calls, drops and steps of the dispatcher, the state under the lock is one that the
operations reach. -/
theorem reachable_state {capActif queueCapacity : ℕ} {evs : List IoEvent}
    (hrun : run step (new capActif queueCapacity) evs = some q) :
    ∃ ops, run IoQueueState.step (.new queueCapacity) ops = some q.state := by
  have hkept : ∀ q ev q', (∃ ops, run IoQueueState.step (.new queueCapacity) ops = some q.state) →
      step q ev = some q' →
        ∃ ops, run IoQueueState.step (.new queueCapacity) ops = some q'.state := by
    rintro q ev q' ⟨ops, hops⟩ hstep
    obtain hsame | ⟨op, hop⟩ := state_step hstep
    · exact ⟨ops, hsame ▸ hops⟩
    · exact ⟨ops ++ [op], run_append_eq_some.mpr
        ⟨q.state, hops, run_cons_eq_some.mpr ⟨q'.state, hop, rfl⟩⟩⟩
  exact run_invariant hkept ⟨[], rfl⟩ hrun

end IoAdmissionQueue

end Torpor
