import Torpor.Inference.History
import Torpor.Inference.Wakeups

/-!
# Conservation of Inference Requests

The pool beside a log of its requests. Whatever the submissions, cancellations, completions
and schedule, the queue and the tasks stay within their bounds, no request is lost or served
twice, and a request is evicted for one reason only.

`in_flight` counts the requests from the critical section of the dispatcher to the critical
section of the task that ends; a permit is free, in the hands of the dispatcher, or in those of
a task, up to its very last step. So `in_flight` never exceeds the permits that are out.

## Main results

* `Bounded.step`: the bounds, and what they rest on.
* `Answers.step`: a request that waits has had no answer, and one that was evicted had `NoSlot`.
* `conserved_run`: conservation and bounds along every run.
-/

namespace Torpor

open Machine

/-- A task that has a permit. -/
def InferTask.equipped : InferTask → Bool
  | ended => false
  | _ => true

/-- A task that `in_flight` counts. -/
def InferTask.charged : InferTask → Bool
  | spawned _ | inferring _ | answered => true
  | _ => false

/-- The dispatcher has a permit in hand. -/
def PoolDispatcher.equipped : PoolDispatcher → Bool
  | popping | spawning _ | returning => true
  | parked | arriving | trying => false

/-- The dispatcher has counted a request in `in_flight` and not spawned its task. -/
def PoolDispatcher.charged : PoolDispatcher → Bool
  | spawning _ => true
  | _ => false

/-- The request that a task works at. -/
def InferTask.entry : InferTask → Option QueueEntry
  | spawned entry | inferring entry => some entry
  | _ => none

/-- The answer that a submission has had. -/
def Submission.settled : Submission → Option InferResult
  | registered _ _ _ _ => none
  | enqueued _ result | awaiting _ result => result
  | cancelling _ => some (.error .cancelled)
  | returning _ result | finished result => some result

/-- A submission that is past its admission. -/
def Submission.entered : Submission → Bool
  | registered _ _ _ _ => false
  | _ => true

namespace QueueState

variable {q q' : QueueState} {now : Instant}

/-- Service takes at most one request and leaves the bounds alone. -/
theorem popNext_frame {answer : Option QueueEntry} (h : q.popNext now = (answer, q')) :
    q'.totalWaiting + answer.toList.length = q.totalWaiting ∧ q'.inFlight = q.inFlight ∧
      q'.queueCapacity = q.queueCapacity := by
  have hwaiting := congrArg List.length (waiting_popFront h)
  rw [List.length_append, length_waiting, length_waiting,
    totalWaiting_applyStarvationPromotions] at hwaiting
  refine ⟨by omega, ?_⟩
  obtain ⟨-, rfl, -⟩ | ⟨e, rest, -, -, rfl⟩ | ⟨e, rest, -, -, -, rfl⟩ |
    ⟨e, rest, -, -, -, -, rfl⟩ := popFront_cases h <;>
  · rw [applyStarvationPromotions_eq]
    exact ⟨rfl, rfl⟩

/-- Admission leaves the queue within its capacity. -/
theorem tryEnqueue_frame {answer : Admission} {agentId : AgentId} {prompt : List UInt8}
    {timeoutMs submission : ℕ} {priority : PriorityClass}
    (h : q.tryEnqueue agentId prompt timeoutMs submission priority now = (answer, q')) :
    (q'.totalWaiting = q.totalWaiting ∨ q.totalWaiting + q.inFlight < q.queueCapacity ∧
      q'.totalWaiting = q.totalWaiting + 1) ∧
      q'.inFlight = q.inFlight ∧ q'.queueCapacity = q.queueCapacity := by
  obtain ⟨-, -, rfl⟩ | ⟨rest, evicted, -, -, -, hbatch, rfl⟩ | ⟨-, hroom, rfl⟩ :=
    tryEnqueue_cases h
  · exact ⟨.inl rfl, rfl, rfl⟩
  · refine ⟨.inl ?_, rfl, rfl⟩
    simp only [totalWaiting, hbatch, List.length_append, List.length_singleton]
    omega
  · refine ⟨.inr ⟨hroom, ?_⟩, ?_, ?_⟩
    · rw [← length_waiting, (waiting_pushBack _ _ _).length_eq, List.length_cons, ← length_waiting]
      rfl
    · cases priority <;> rfl
    · cases priority <;> rfl

end QueueState

namespace InferencePool

variable {p p' : InferencePool} {ev : PoolEvent} {i maxConcurrent queueCapacity : ℕ}

/-! ### Bounds -/

/-- The bounds of a pool: every permit is somewhere, `in_flight` counts the requests that are
charged, and there is room for what waits and what is in flight. -/
structure Bounded (maxConcurrent queueCapacity : ℕ) (p : InferencePool) : Prop where
  permits : p.available + p.tasks.countP InferTask.equipped + p.dispatcher.equipped.toNat =
    maxConcurrent
  slots : p.queue.inFlight = p.tasks.countP InferTask.charged + p.dispatcher.charged.toNat
  room : p.queue.totalWaiting + p.queue.inFlight ≤ queueCapacity
  capacity : p.queue.queueCapacity = queueCapacity

/-- What is in flight has a permit. -/
theorem Bounded.inFlight_le (h : p.Bounded maxConcurrent queueCapacity) :
    p.queue.inFlight ≤ maxConcurrent := by
  have htasks : p.tasks.countP InferTask.charged ≤ p.tasks.countP InferTask.equipped := by
    refine List.countP_mono_left fun task _ hcharged => ?_
    cases task <;> first | rfl | exact hcharged
  have hdispatcher : p.dispatcher.charged.toNat ≤ p.dispatcher.equipped.toNat := by
    cases p.dispatcher <;> simp [PoolDispatcher.charged, PoolDispatcher.equipped]
  have hpermits := h.permits
  have hslots := h.slots
  omega

/-- A result moves nothing that is bounded. -/
theorem sendResult_eq (p : InferencePool) (submission : ℕ) (result : InferResult) :
    p.sendResult submission result =
      { p with submissions := (p.sendResult submission result).submissions } := by
  simp only [sendResult]
  split <;> rfl

theorem Bounded.sendResult (h : p.Bounded maxConcurrent queueCapacity) (submission : ℕ)
    (result : InferResult) :
    (p.sendResult submission result).Bounded maxConcurrent queueCapacity := by
  rw [sendResult_eq]
  exact ⟨h.permits, h.slots, h.room, h.capacity⟩

theorem Bounded.setSubmission (h : p.Bounded maxConcurrent queueCapacity) (submission : ℕ)
    (point : Submission) :
    (p.setSubmission submission point).Bounded maxConcurrent queueCapacity :=
  ⟨h.permits, h.slots, h.room, h.capacity⟩

theorem Bounded.notifyOne (h : p.Bounded maxConcurrent queueCapacity) :
    p.notifyOne.Bounded maxConcurrent queueCapacity := by
  simp only [InferencePool.notifyOne]
  split
  case isTrue hparked =>
      obtain ⟨hpermits, hslots, hroom, hcapacity⟩ := h
      rw [hparked] at hpermits hslots
      exact ⟨hpermits, hslots, hroom, hcapacity⟩
  case isFalse => exact ⟨h.permits, h.slots, h.room, h.capacity⟩

/-- A task that moves from a point to another one, with its permit and its slot. -/
theorem Bounded.setTask {point : InferTask} (h : p.Bounded maxConcurrent queueCapacity)
    (hpoint : p.tasks[i]? = some point) (point' : InferTask) {available inFlight : ℕ}
    (havailable : available + point'.equipped.toNat = p.available + point.equipped.toNat)
    (hinFlight : inFlight + point.charged.toNat = p.queue.inFlight + point'.charged.toNat)
    (hle : inFlight ≤ p.queue.inFlight) :
    Bounded maxConcurrent queueCapacity
      { p.setTask i point' with
        queue := { p.queue with inFlight := inFlight }
        available := available } := by
  obtain ⟨e, he, he'⟩ := Gate.countP_set InferTask.equipped hpoint point'
  obtain ⟨c, hc, hc'⟩ := Gate.countP_set InferTask.charged hpoint point'
  obtain ⟨hpermits, hslots, hroom, hcapacity⟩ := h
  refine ⟨?_, ?_, ?_, hcapacity⟩
  · simp only [InferencePool.setTask, he']
    omega
  · simp only [InferencePool.setTask, hc']
    omega
  · change p.queue.totalWaiting + inFlight ≤ queueCapacity
    omega

/-- The critical section of a submission keeps the bounds. -/
theorem Bounded.enqueue (h : p.Bounded maxConcurrent queueCapacity) (agentId : AgentId)
    (prompt : List UInt8) (timeoutMs : ℕ) (priority : PriorityClass) (now : Instant) :
    (p.enqueue i agentId prompt timeoutMs priority now).Bounded maxConcurrent queueCapacity := by
  have hqueue : ∀ {answer q}, p.queue.tryEnqueue agentId prompt timeoutMs i priority now =
      (answer, q) → ({ p with queue := q } : InferencePool).Bounded maxConcurrent queueCapacity := by
    intro answer q hq
    obtain ⟨hwaiting, hinFlight, hcapacity⟩ := QueueState.tryEnqueue_frame hq
    obtain ⟨hpermits, hslots, hroom, hcap⟩ := h
    refine ⟨hpermits, hinFlight.trans hslots, ?_, hcapacity.trans hcap⟩
    change q.totalWaiting + q.inFlight ≤ queueCapacity
    omega
  simp only [InferencePool.enqueue]
  split
  case h_1 q hq => exact (hqueue hq).setSubmission _ _
  case h_2 q hq => exact (hqueue hq).setSubmission _ _
  case h_3 evicted q hq => exact ((hqueue hq).sendResult _ _).setSubmission _ _

/-- A step of the dispatcher keeps the bounds. -/
theorem Bounded.dispatch {now : Instant} (h : p.Bounded maxConcurrent queueCapacity)
    (hstep : p.dispatch now = some p') : p'.Bounded maxConcurrent queueCapacity := by
  obtain ⟨hpermits, hslots, hroom, hcapacity⟩ := h
  simp only [InferencePool.dispatch] at hstep
  split at hstep
  case h_1 => cases hstep
  case h_2 hd =>
      rw [hd] at hpermits hslots
      split at hstep <;> cases hstep <;> exact ⟨hpermits, hslots, hroom, hcapacity⟩
  case h_3 hd =>
      rw [hd] at hpermits hslots
      split at hstep <;> cases hstep
      · exact ⟨hpermits, hslots, hroom, hcapacity⟩
      · rw [‹p.available = _›] at hpermits
        refine ⟨?_, hslots, hroom, hcapacity⟩
        simpa [PoolDispatcher.equipped, Nat.add_right_comm] using hpermits
  case h_4 hd =>
      rw [hd] at hpermits hslots
      cases hstep
      simp only [pop]
      split
      case h_1 q hpop =>
          obtain ⟨hwaiting, hinFlight, hcap⟩ := QueueState.popNext_frame hpop
          simp only [Option.toList_none, List.length_nil] at hwaiting
          refine ⟨hpermits, hinFlight.trans hslots, ?_, hcap.trans hcapacity⟩
          change q.totalWaiting + q.inFlight ≤ queueCapacity
          omega
      case h_2 e q hpop =>
          obtain ⟨hwaiting, hinFlight, hcap⟩ := QueueState.popNext_frame hpop
          simp only [Option.toList_some, List.length_singleton] at hwaiting
          refine ⟨hpermits, ?_, ?_, hcap.trans hcapacity⟩
          · change q.inFlight + 1 = _
            rw [hinFlight, hslots]
            rfl
          · change q.totalWaiting + (q.inFlight + 1) ≤ queueCapacity
            omega
  case h_5 e hd =>
      rw [hd] at hpermits hslots
      cases hstep
      refine ⟨?_, ?_, hroom, hcapacity⟩
      · simpa [List.countP_append, InferTask.equipped, PoolDispatcher.equipped,
          Nat.add_assoc] using hpermits
      · simpa [List.countP_append, InferTask.charged, PoolDispatcher.charged] using hslots
  case h_6 hd =>
      rw [hd] at hpermits hslots
      cases hstep
      refine ⟨?_, hslots, hroom, hcapacity⟩
      simpa [PoolDispatcher.equipped, Nat.add_right_comm] using hpermits

/-- A step of a submission keeps the bounds. -/
theorem Bounded.submissionStep {point : Submission} (h : p.Bounded maxConcurrent queueCapacity)
    (hstep : p.submissionStep i ev point = some p') : p'.Bounded maxConcurrent queueCapacity := by
  simp only [InferencePool.submissionStep] at hstep
  split at hstep
  case h_1 now agentId prompt timeoutMs priority =>
      cases hstep
      exact h.enqueue agentId prompt timeoutMs priority now
  case h_2 agentId result =>
      cases hstep
      exact (h.setSubmission i _).notifyOne
  case h_3 agentId result =>
      split at hstep
      · cases hstep
        exact h.setSubmission i _
      · obtain ⟨r, -, rfl⟩ := Option.map_eq_some_iff.mp hstep
        exact h.setSubmission i _
  case h_4 agentId =>
      cases hstep
      exact ⟨h.permits, h.slots, h.room, h.capacity⟩
  case h_5 agentId result =>
      cases hstep
      exact ⟨h.permits, h.slots, h.room, h.capacity⟩
  case h_6 => cases hstep

/-- A step of a task keeps the bounds: it gives up its slot before its permit. -/
theorem Bounded.taskStep {point : InferTask} (h : p.Bounded maxConcurrent queueCapacity)
    (hpoint : p.tasks[i]? = some point) (hstep : p.taskStep i ev point = some p') :
    p'.Bounded maxConcurrent queueCapacity := by
  have htasks : ∀ j r, (p.sendResult j r).tasks[i]? = some point := by
    intro j r
    rw [sendResult_eq]
    exact hpoint
  simp only [InferencePool.taskStep] at hstep
  split at hstep
  case h_1 entry =>
      split at hstep <;> cases hstep
      · exact (h.sendResult _ _).setTask (htasks _ _) .answered rfl rfl le_rfl
      · exact h.setTask hpoint (.inferring entry) rfl rfl le_rfl
  case h_2 outcome entry =>
      cases hstep
      exact (h.sendResult _ _).setTask (htasks _ _) .answered rfl rfl le_rfl
  case h_3 =>
      cases hstep
      have hcharged : 0 < p.tasks.countP InferTask.charged :=
        List.countP_pos_iff.mpr ⟨.answered, List.mem_of_getElem? hpoint, rfl⟩
      have hslots := h.slots
      refine h.setTask hpoint .decremented rfl ?_ (Nat.sub_le _ _)
      change p.queue.inFlight - 1 + 1 = p.queue.inFlight + 0
      omega
  case h_4 =>
      cases hstep
      exact Bounded.notifyOne (h.setTask hpoint .announced rfl rfl le_rfl)
  case h_5 =>
      cases hstep
      have hset := h.setTask hpoint .freed rfl rfl le_rfl
      exact ⟨hset.permits, hset.slots, hset.room, hset.capacity⟩
  case h_6 =>
      cases hstep
      exact h.setTask hpoint .ended rfl rfl le_rfl
  case h_7 => cases hstep

/-- **Step.** Every step of the pool keeps the bounds. -/
theorem Bounded.step (h : p.Bounded maxConcurrent queueCapacity) (hstep : p.step ev = some p') :
    p'.Bounded maxConcurrent queueCapacity := by
  cases ev with
  | register agentId prompt timeoutMs priority =>
      cases hstep
      exact ⟨h.permits, h.slots, h.room, h.capacity⟩
  | enqueue i now | announce i | resolve i | withdraw i | unregister i =>
      obtain ⟨point, hpoint, hsub⟩ := Option.bind_eq_some_iff.mp hstep
      exact h.submissionStep hsub
  | cancelOpen agentId =>
      cases hstep
      exact ⟨h.permits, h.slots, h.room, h.capacity⟩
  | cancelClose i =>
      obtain ⟨agentId, -, rfl⟩ := Option.map_eq_some_iff.mp hstep
      exact ⟨h.permits, h.slots, h.room, h.capacity⟩
  | start i | answer i outcome | taskDecrement i | taskNotify i | taskSlotFreed i
  | taskRelease i =>
      obtain ⟨point, hpoint, htask⟩ := Option.bind_eq_some_iff.mp hstep
      exact h.taskStep hpoint htask
  | dispatch now => exact h.dispatch hstep

/-! ### Answers -/

/-- A submission has been admitted and has had the answer `r`, unless it was cancelled. -/
def Answered (p : InferencePool) (submission : ℕ) (r : Option InferResult) : Prop :=
  ∃ point, p.submissions[submission]? = some point ∧ point.entered = true ∧
    (point.settled = r ∨ point.settled = some (.error .cancelled))

variable {j : ℕ} {r : Option InferResult}

/-- A submission that goes on keeps the answer it has had, or is cancelled. -/
theorem Answered.setSubmission {point point' : Submission} (h : p.Answered j r)
    (hpoint : p.submissions[i]? = some point) (hentered : point'.entered = true)
    (hsettled : point'.settled = point.settled ∨ point'.settled = some (.error .cancelled)) :
    (p.setSubmission i point').Answered j r := by
  obtain ⟨point₀, hpoint₀, hentered₀, hr⟩ := h
  obtain rfl | hne := eq_or_ne i j
  · obtain rfl : point = point₀ := Option.some.inj (hpoint.symm.trans hpoint₀)
    have hlt := (List.getElem?_eq_some_iff.mp hpoint).1
    refine ⟨point', List.getElem?_set_self hlt, hentered, ?_⟩
    obtain hsame | hcancelled := hsettled
    · rwa [hsame]
    · exact .inr hcancelled
  · exact ⟨point₀, (List.getElem?_set_ne hne).trans hpoint₀, hentered₀, hr⟩

/-- A submission that has not been admitted is none of the ones that have been answered. -/
theorem Answered.setSubmission_registered {agentId : AgentId} {prompt : List UInt8}
    {timeoutMs : ℕ} {priority : PriorityClass} (h : p.Answered j r)
    (hpoint : p.submissions[i]? = some (.registered agentId prompt timeoutMs priority))
    (point' : Submission) : (p.setSubmission i point').Answered j r := by
  obtain ⟨point, hj, hentered, hr⟩ := h
  have hne : i ≠ j := by
    rintro rfl
    cases hpoint.symm.trans hj
    cases hentered
  exact ⟨point, (List.getElem?_set_ne hne).trans hj, hentered, hr⟩

/-- A result touches no other submission. -/
theorem Answered.sendResult_ne {k : ℕ} (h : p.Answered j r) (hne : k ≠ j) (result : InferResult) :
    (p.sendResult k result).Answered j r := by
  obtain ⟨point, hj, hentered, hr⟩ := h
  refine ⟨point, ?_, hentered, hr⟩
  simp only [InferencePool.sendResult]
  split
  · exact (List.getElem?_set_ne hne).trans hj
  · exact (List.getElem?_set_ne hne).trans hj
  · exact hj

/-- The result of a submission that waits for it. -/
theorem Answered.sendResult_self (h : p.Answered j none) (result : InferResult) :
    (p.sendResult j result).Answered j (some result) := by
  obtain ⟨point, hj, hentered, hr⟩ := h
  have hlt := (List.getElem?_eq_some_iff.mp hj).1
  simp only [InferencePool.sendResult]
  split
  · exact ⟨_, List.getElem?_set_self hlt, rfl, .inl rfl⟩
  · exact ⟨_, List.getElem?_set_self hlt, rfl, .inl rfl⟩
  case h_3 henqueued hawaiting =>
      refine ⟨point, hj, hentered, .inr ?_⟩
      obtain hnone | hcancelled := hr
      · cases point with
        | registered => cases hentered
        | enqueued agentId _ => cases hnone; exact absurd hj (henqueued agentId)
        | awaiting agentId _ => cases hnone; exact absurd hj (hawaiting agentId)
        | cancelling | returning | finished => cases hnone
      · exact hcancelled

/-- A result leaves every admitted submission admitted. -/
theorem Answered.sendResult (h : p.Answered j r) (k : ℕ) (result : InferResult) :
    ∃ r', (p.sendResult k result).Answered j r' := by
  obtain rfl | hne := eq_or_ne k j
  · simp only [InferencePool.sendResult]
    obtain ⟨point, hj, hentered, -⟩ := h
    have hlt := (List.getElem?_eq_some_iff.mp hj).1
    split
    · exact ⟨_, _, List.getElem?_set_self hlt, rfl, .inl rfl⟩
    · exact ⟨_, _, List.getElem?_set_self hlt, rfl, .inl rfl⟩
    · exact ⟨point.settled, point, hj, hentered, .inl rfl⟩
  · exact ⟨r, h.sendResult_ne hne result⟩

/-! ### The log of a pool -/

/-- What a step adds to the log. -/
def record (p : InferencePool) (l : QueueLog) : PoolEvent → QueueLog
  | .enqueue i now =>
      match p.submissions[i]? with
      | some (.registered agentId prompt timeoutMs priority) =>
          l.enqueue (p.queue.newEntry agentId prompt timeoutMs i priority now)
            (p.queue.tryEnqueue agentId prompt timeoutMs i priority now).1
      | _ => l
  | .dispatch now => if p.dispatcher = .popping then l.serve (p.queue.popNext now).1 else l
  | _ => l

/-- The requests of the log are answered as they should: those that wait are not answered yet,
and those that were evicted have had `NoSlot`. Every request has a submission of its own, and
the tasks work at requests that were dispatched. -/
structure Answers (p : InferencePool) (l : QueueLog) : Prop where
  entered : ∀ e ∈ l.admitted, ∃ r, p.Answered e.submission r
  distinct : (l.admitted.map (·.submission)).Nodup
  working : ∀ task ∈ p.tasks, ∀ e, task.entry = some e → e ∈ l.dispatched
  spawning : ∀ e, p.dispatcher = .spawning e → e ∈ l.dispatched
  unanswered : ∀ e ∈ p.queue.waiting, p.Answered e.submission none
  told : ∀ e ∈ l.evicted, p.Answered e.submission (some (.error .noSlot))

namespace Answers

variable {l : QueueLog}

/-- The requests have pairwise different submissions, wherever they are. -/
theorem submission_nodup (h : p.Answers l) (ha : Accounted p.queue l) :
    ((p.queue.places l).map (·.submission)).Nodup := by
  have hplaces := (ha.places.map (·.submission)).nodup_iff.mpr h.distinct
  rwa [List.map_map] at hplaces

/-- A task works at no request that waits or was evicted. -/
theorem submission_ne (h : p.Answers l) (ha : Accounted p.queue l) {e w : QueueEntry}
    (he : e ∈ l.dispatched) (hw : w ∈ p.queue.waiting ∨ w ∈ l.evicted) :
    e.submission ≠ w.submission := by
  have hnodup := h.submission_nodup ha
  simp only [QueueState.places, List.map_append] at hnodup
  obtain ⟨hleft, -, hright⟩ := List.nodup_append.mp hnodup
  have hmid := (List.nodup_append.mp hleft).2.2
  have hmem : e.submission ∈ l.dispatched.map (·.submission) := List.mem_map_of_mem he
  obtain hwaiting | hevicted := hw
  · exact (hmid w.submission (List.mem_map_of_mem hwaiting) e.submission hmem).symm
  · exact hright e.submission (List.mem_append_right _ hmem) w.submission
      (List.mem_map_of_mem hevicted)

/-- A step that neither admits nor serves: it answers no request that waits or was evicted. -/
theorem quiet (h : p.Answers l) (hqueue : p'.queue.waiting = p.queue.waiting)
    (hentered : ∀ j r, p.Answered j r → ∃ r', p'.Answered j r')
    (hanswered : ∀ e, e ∈ p.queue.waiting ∨ e ∈ l.evicted → ∀ r, p.Answered e.submission r →
      p'.Answered e.submission r)
    (hworking : ∀ task ∈ p'.tasks, ∀ e, task.entry = some e → e ∈ l.dispatched)
    (hspawning : ∀ e, p'.dispatcher = .spawning e → p.dispatcher = .spawning e) :
    p'.Answers l := by
  refine ⟨fun e he => ?_, h.distinct, hworking, fun e he => h.spawning e (hspawning e he),
    fun e he => ?_, fun e he => hanswered e (.inr he) _ (h.told e he)⟩
  · obtain ⟨r, hr⟩ := h.entered e he
    exact hentered _ r hr
  · rw [hqueue] at he
    exact hanswered e (.inl he) _ (h.unanswered e he)

/-- A notification wakes the dispatcher at most. -/
theorem notifyOne (h : p.Answers l) : p.notifyOne.Answers l := by
  simp only [InferencePool.notifyOne]
  split
  case isTrue =>
      exact h.quiet rfl (fun j r hr => ⟨r, hr⟩) (fun _ _ _ hr => hr) h.working
        (fun e he => by cases he)
  case isFalse =>
      exact h.quiet rfl (fun j r hr => ⟨r, hr⟩) (fun _ _ _ hr => hr) h.working (fun _ he => he)

/-- A submission that goes on. -/
theorem setSubmission {point : Submission} (h : p.Answers l)
    (hpoint : p.submissions[i]? = some point) (point' : Submission)
    (hentered : point'.entered = true)
    (hsettled : point'.settled = point.settled ∨ point'.settled = some (.error .cancelled)) :
    (p.setSubmission i point').Answers l :=
  h.quiet rfl (fun _ r hr => ⟨r, hr.setSubmission hpoint hentered hsettled⟩)
    (fun _ _ _ hr => hr.setSubmission hpoint hentered hsettled) h.working (fun _ he => he)

/-- What else a submission or a cancellation writes is not read here. -/
theorem frame (h : p.Answers l) (hqueue : p'.queue = p.queue)
    (hsubmissions : p'.submissions = p.submissions) (htasks : p'.tasks = p.tasks)
    (hdispatcher : p'.dispatcher = p.dispatcher) : p'.Answers l := by
  obtain ⟨hentered, hdistinct, hworking, hspawning, hunanswered, htold⟩ := h
  refine ⟨?_, hdistinct, ?_, ?_, ?_, ?_⟩
  · simpa only [Answered, hsubmissions] using hentered
  · rwa [htasks]
  · rwa [hdispatcher]
  · simpa only [Answered, hsubmissions, hqueue] using hunanswered
  · simpa only [Answered, hsubmissions] using htold

/-- A task that goes on, at the same request or at none. -/
theorem setTask {task : InferTask} (h : p.Answers l) (htask : p.tasks[i]? = some task)
    (task' : InferTask) (hentry : task'.entry = task.entry ∨ task'.entry = none) :
    (p.setTask i task').Answers l := by
  refine h.quiet rfl (fun j r hr => ⟨r, hr⟩) (fun _ _ _ hr => hr) ?_ (fun _ he => he)
  intro t ht e he
  obtain hold | rfl := List.mem_or_eq_of_mem_set ht
  · exact h.working t hold e he
  · obtain hsame | hnone := hentry
    · exact h.working task (List.mem_of_getElem? htask) e (hsame ▸ he)
    · rw [hnone] at he
      cases he

/-- A task answers the request it works at. -/
theorem sendResult {task : InferTask} {e : QueueEntry} (h : p.Answers l)
    (ha : Accounted p.queue l) (htask : p.tasks[i]? = some task) (he : task.entry = some e)
    (result : InferResult) : (p.sendResult e.submission result).Answers l := by
  have hdispatched := h.working task (List.mem_of_getElem? htask) e he
  have hframe := sendResult_eq p e.submission result
  refine h.quiet (by rw [hframe]) (fun j r hr => hr.sendResult _ _)
    (fun w hw r hr => hr.sendResult_ne (h.submission_ne ha hdispatched hw) _) ?_ ?_
  · rw [hframe]
    exact h.working
  · rw [hframe]
    exact fun _ he => he

/-- A request joins the log, and another one leaves the queue for it, perhaps: `p₁` is the pool
once that one has been answered. -/
theorem accept {agentId : AgentId} {prompt : List UInt8} {timeoutMs : ℕ}
    {priority : PriorityClass} {entry : QueueEntry} {evicted : List QueueEntry}
    (h : p.Answers l) (p₁ : InferencePool)
    (hpoint : p.submissions[i]? = some (.registered agentId prompt timeoutMs priority))
    (hentry : entry.submission = i)
    (hpoint₁ : p₁.submissions[i]? = some (.registered agentId prompt timeoutMs priority))
    (hentered : ∀ j r, p.Answered j r → ∃ r', p₁.Answered j r')
    (hunanswered : ∀ e ∈ p₁.queue.waiting, e = entry ∨ p₁.Answered e.submission none)
    (htold : ∀ e ∈ l.evicted ++ evicted, p₁.Answered e.submission (some (.error .noSlot)))
    (htasks : p₁.tasks = p.tasks) (hdispatcher : p₁.dispatcher = p.dispatcher) :
    (p₁.setSubmission i (.enqueued agentId none)).Answers
      { l with admitted := l.admitted ++ [entry], evicted := l.evicted ++ evicted } := by
  have hself : (p₁.setSubmission i (.enqueued agentId none)).Answered entry.submission none := by
    have hlt := (List.getElem?_eq_some_iff.mp hpoint₁).1
    exact ⟨.enqueued agentId none, by rw [hentry]; exact List.getElem?_set_self hlt, rfl, .inl rfl⟩
  constructor
  case entered =>
      intro e he
      obtain hold | hnew := List.mem_append.mp he
      · obtain ⟨r, hr⟩ := h.entered e hold
        obtain ⟨r', hr'⟩ := hentered _ r hr
        exact ⟨r', hr'.setSubmission_registered hpoint₁ _⟩
      · rw [List.mem_singleton.mp hnew]
        exact ⟨none, hself⟩
  case distinct =>
      rw [List.map_append, List.map_singleton]
      refine List.nodup_append.mpr ⟨h.distinct, List.nodup_singleton _, ?_⟩
      intro j hj k hk
      obtain ⟨e, he, rfl⟩ := List.mem_map.mp hj
      rw [List.mem_singleton.mp hk, hentry]
      -- The submission of an earlier request is past its admission.
      rintro rfl
      obtain ⟨r, point, hpt, hpast, -⟩ := h.entered e he
      cases hpoint.symm.trans hpt
      cases hpast
  case working =>
      intro task htask e he
      exact h.working task (htasks ▸ htask) e he
  case spawning => exact fun e he => h.spawning e (hdispatcher ▸ he)
  case unanswered =>
      intro e he
      obtain rfl | hr := hunanswered e he
      · exact hself
      · exact hr.setSubmission_registered hpoint₁ _
  case told => exact fun e he => (htold e he).setSubmission_registered hpoint₁ _

/-- The critical section of a submission. -/
theorem enqueue {agentId : AgentId} {prompt : List UInt8} {timeoutMs : ℕ}
    {priority : PriorityClass} (h : p.Answers l) (ha : Accounted p.queue l) (now : Instant)
    (hpoint : p.submissions[i]? = some (.registered agentId prompt timeoutMs priority)) :
    (p.enqueue i agentId prompt timeoutMs priority now).Answers
      (l.enqueue (p.queue.newEntry agentId prompt timeoutMs i priority now)
        (p.queue.tryEnqueue agentId prompt timeoutMs i priority now).1) := by
  simp only [InferencePool.enqueue]
  split
  case h_1 q hq =>
      obtain ⟨-, -, rfl⟩ | ⟨rest, evicted, hno, -⟩ | ⟨hno, -⟩ := QueueState.tryEnqueue_cases hq
      · rw [hq]
        exact h.quiet rfl (fun j r hr => ⟨r, hr.setSubmission_registered hpoint _⟩)
          (fun _ _ _ hr => hr.setSubmission_registered hpoint _) h.working (fun _ he => he)
      · cases hno
      · cases hno
  case h_2 depth q hq =>
      obtain ⟨hno, -⟩ | ⟨rest, evicted, hno, -⟩ | ⟨-, -, hqueue⟩ := QueueState.tryEnqueue_cases hq
      · cases hno
      · cases hno
      · rw [hq]
        refine h.accept { p with queue := q } hpoint rfl hpoint (fun j r hr => ⟨r, hr⟩) ?_
          (fun e he => h.told e (by simpa using he)) rfl rfl
        intro e he
        change e ∈ q.waiting at he
        rw [hqueue, (QueueState.waiting_pushBack _ _ _).mem_iff] at he
        obtain rfl | hold := List.mem_cons.mp he
        · exact .inl rfl
        · exact .inr (h.unanswered e hold)
  case h_3 depth evicted q hq =>
      obtain ⟨hno, -⟩ | ⟨rest, e₀, heq, -, -, hbatch, hqueue⟩ | ⟨hno, -⟩ :=
        QueueState.tryEnqueue_cases hq
      · cases hno
      · cases heq
        rw [hq]
        have hwaits : evicted ∈ p.queue.waiting := by simp [QueueState.waiting, hbatch]
        have hplaces : (p.queue.places l).Perm (evicted ::
            (p.queue.supervisor ++ p.queue.foreground ++ rest ++ l.dispatched ++ l.evicted)) := by
          refine List.perm_iff_count.mpr fun e => ?_
          simp only [QueueState.places, QueueState.waiting, hbatch, List.count_append,
            List.count_cons, List.count_nil]
          omega
        have hnodup := (hplaces.map (·.submission)).nodup_iff.mp (h.submission_nodup ha)
        have hother : ∀ e ∈ p.queue.supervisor ++ p.queue.foreground ++ rest ++ l.dispatched ++
            l.evicted, evicted.submission ≠ e.submission := by
          intro e he hsame
          exact (List.nodup_cons.mp hnodup).1 (List.mem_map.mpr ⟨e, he, hsame.symm⟩)
        have hframe := sendResult_eq { p with queue := q } evicted.submission (.error .noSlot)
        refine h.accept _ hpoint rfl (sendResult_registered (p := { p with queue := q }) hpoint _ _)
          (fun j r hr => Answered.sendResult (p := { p with queue := q }) hr _ _) ?_ ?_
          (by rw [hframe]) (by rw [hframe])
        · intro e he
          have hwaiting : e ∈ q.waiting := by rwa [hframe] at he
          rw [hqueue] at hwaiting
          have hcases : e = p.queue.newEntry agentId prompt timeoutMs i priority now ∨
              e ∈ p.queue.supervisor ++ p.queue.foreground ++ rest := by
            simp only [QueueState.waiting, List.mem_append, List.mem_singleton] at hwaiting ⊢
            tauto
          refine hcases.imp_right fun hold => ?_
          have hwas : e ∈ p.queue.waiting := by
            simp only [QueueState.waiting, hbatch, List.mem_append] at hold ⊢
            tauto
          exact Answered.sendResult_ne (p := { p with queue := q }) (h.unanswered e hwas)
            (hother e (List.mem_append_left _ (List.mem_append_left _ hold))) _
        · intro e he
          obtain hold | hnew := List.mem_append.mp he
          · exact Answered.sendResult_ne (p := { p with queue := q }) (h.told e hold)
              (hother e (List.mem_append_right _ hold)) _
          · obtain rfl : e = evicted := by simpa using hnew
            exact Answered.sendResult_self (p := { p with queue := q }) (h.unanswered e hwaits) _
      · cases hno

/-- The critical section of the dispatcher. -/
theorem pop (h : p.Answers l) (now : Instant) :
    (p.pop now).Answers (l.serve (p.queue.popNext now).1) := by
  have hsubmission : ∀ {answer q}, p.queue.popNext now = (answer, q) → ∀ e ∈ q.waiting,
      p.Answered e.submission none := by
    intro answer q hq e he
    have hlifted : e ∈ (p.queue.applyStarvationPromotions now).waiting := by
      rw [QueueState.waiting_popFront hq]
      exact List.mem_append_right _ he
    have hadmitted := (QueueState.asAdmitted_applyStarvationPromotions p.queue now).mem_iff.mp
      (List.mem_map_of_mem hlifted)
    obtain ⟨e₀, he₀, hsame⟩ := List.mem_map.mp hadmitted
    have hnumber := congrArg (·.submission) hsame
    change e₀.submission = e.submission at hnumber
    rw [← hnumber]
    exact h.unanswered e₀ he₀
  simp only [InferencePool.pop]
  split
  case h_1 q hq =>
      rw [hq]
      refine ⟨h.entered, h.distinct, fun task htask e he => ?_,
        fun e he => (by cases he), fun e he => hsubmission hq e he, h.told⟩
      exact List.mem_append_left _ (h.working task htask e he)
  case h_2 entry q hq =>
      rw [hq]
      refine ⟨h.entered, h.distinct, fun task htask e he => ?_, ?_,
        fun e he => hsubmission hq e he, h.told⟩
      · exact List.mem_append_left _ (h.working task htask e he)
      · intro e he
        cases he
        exact List.mem_append_right _ (by simp)

/-- A step of the dispatcher. -/
theorem dispatch {now : Instant} (h : p.Answers l) (hstep : p.dispatch now = some p') :
    p'.Answers (p.record l (.dispatch now)) := by
  simp only [InferencePool.dispatch] at hstep
  simp only [record]
  split at hstep
  case h_1 => cases hstep
  case h_2 hd =>
      rw [if_neg (by simp [hd])]
      split at hstep <;> cases hstep <;>
        exact h.quiet rfl (fun j r hr => ⟨r, hr⟩) (fun _ _ _ hr => hr) h.working
          (fun e he => by cases he)
  case h_3 hd =>
      rw [if_neg (by simp [hd])]
      split at hstep <;> cases hstep <;>
        exact h.quiet rfl (fun j r hr => ⟨r, hr⟩) (fun _ _ _ hr => hr) h.working
          (fun e he => by cases he)
  case h_4 hd =>
      cases hstep
      rw [if_pos hd]
      exact h.pop now
  case h_5 entry hd =>
      rw [if_neg (by simp [hd])]
      cases hstep
      refine h.quiet rfl (fun j r hr => ⟨r, hr⟩) (fun _ _ _ hr => hr) ?_ (fun e he => by cases he)
      intro task htask e he
      obtain hold | hnew := List.mem_append.mp htask
      · exact h.working task hold e he
      · obtain rfl : task = .spawned entry := by simpa using hnew
        cases he
        exact h.spawning entry hd
  case h_6 hd =>
      rw [if_neg (by simp [hd])]
      cases hstep
      exact h.quiet rfl (fun j r hr => ⟨r, hr⟩) (fun _ _ _ hr => hr) h.working
        (fun e he => by cases he)

/-- A step of a submission. -/
theorem submissionStep {point : Submission} (h : p.Answers l) (ha : Accounted p.queue l)
    (hpoint : p.submissions[i]? = some point) (hi : ∀ k now, ev = .enqueue k now → k = i)
    (hstep : p.submissionStep i ev point = some p') : p'.Answers (p.record l ev) := by
  simp only [InferencePool.submissionStep] at hstep
  split at hstep
  case h_1 k now agentId prompt timeoutMs priority =>
      cases hstep
      obtain rfl := hi k now rfl
      simp only [record, hpoint]
      exact h.enqueue ha now hpoint
  case h_2 agentId result =>
      cases hstep
      exact (h.setSubmission hpoint (.awaiting agentId result) rfl (.inl rfl)).notifyOne
  case h_3 agentId result =>
      split at hstep
      · cases hstep
        exact h.setSubmission hpoint _ rfl (.inr rfl)
      · obtain ⟨r, hr, rfl⟩ := Option.map_eq_some_iff.mp hstep
        exact h.setSubmission hpoint _ rfl (.inl hr.symm)
  case h_4 agentId =>
      cases hstep
      have hset := h.setSubmission hpoint (.returning agentId (.error .cancelled)) rfl (.inr rfl)
      exact hset.frame rfl rfl rfl rfl
  case h_5 agentId result =>
      cases hstep
      have hset := h.setSubmission hpoint (.finished result) rfl (.inl rfl)
      exact hset.frame rfl rfl rfl rfl
  case h_6 => cases hstep

/-- A step of a task. -/
theorem taskStep {task : InferTask} (h : p.Answers l) (ha : Accounted p.queue l)
    (htask : p.tasks[i]? = some task) (hstep : p.taskStep i ev task = some p') :
    p'.Answers (p.record l ev) := by
  have htasks : ∀ j r, (p.sendResult j r).tasks[i]? = some task := by
    intro j r
    rw [sendResult_eq]
    exact htask
  simp only [InferencePool.taskStep] at hstep
  split at hstep
  case h_1 entry =>
      split at hstep <;> cases hstep
      · exact (h.sendResult ha htask rfl _).setTask (htasks _ _) _ (.inr rfl)
      · exact h.setTask htask _ (.inl rfl)
  case h_2 outcome entry =>
      cases hstep
      exact (h.sendResult ha htask rfl _).setTask (htasks _ _) _ (.inr rfl)
  case h_3 =>
      cases hstep
      have hset := h.setTask htask .decremented (.inr rfl)
      exact ⟨hset.entered, hset.distinct, hset.working, hset.spawning, hset.unanswered, hset.told⟩
  case h_4 =>
      cases hstep
      exact (h.setTask htask _ (.inr rfl)).notifyOne
  case h_5 =>
      cases hstep
      exact (h.setTask htask .freed (.inr rfl)).frame rfl rfl rfl rfl
  case h_6 =>
      cases hstep
      exact (h.setTask htask .ended (.inr rfl)).frame rfl rfl rfl rfl
  case h_7 => cases hstep

/-- **Step.** Every step of the pool answers the requests as it should. -/
theorem step (h : p.Answers l) (ha : Accounted p.queue l) (hstep : p.step ev = some p') :
    p'.Answers (p.record l ev) := by
  cases ev with
  | register agentId prompt timeoutMs priority =>
      cases hstep
      have hkept : ∀ {j r}, p.Answered j r → ∀ point,
          ({ p with submissions := p.submissions ++ [point] } : InferencePool).Answered j r := by
        rintro j r ⟨point₀, hj, hpast, hr⟩ point
        have hlt := (List.getElem?_eq_some_iff.mp hj).1
        exact ⟨point₀, (List.getElem?_append_left hlt).trans hj, hpast, hr⟩
      exact h.quiet rfl (fun _ r hr => ⟨r, hkept hr _⟩) (fun _ _ _ hr => hkept hr _) h.working
        (fun _ he => he)
  | enqueue i now | announce i | resolve i | withdraw i | unregister i =>
      obtain ⟨point, hpoint, hsub⟩ := Option.bind_eq_some_iff.mp hstep
      refine h.submissionStep ha hpoint (fun k now' heq => ?_) hsub
      cases heq <;> rfl
  | cancelOpen agentId =>
      cases hstep
      exact h.frame rfl rfl rfl rfl
  | cancelClose i =>
      obtain ⟨agentId, -, rfl⟩ := Option.map_eq_some_iff.mp hstep
      exact h.frame rfl rfl rfl rfl
  | start i | answer i outcome | taskDecrement i | taskNotify i | taskSlotFreed i
  | taskRelease i =>
      obtain ⟨task, htask, hgo⟩ := Option.bind_eq_some_iff.mp hstep
      exact h.taskStep ha htask hgo
  | dispatch now => exact h.dispatch hstep

end Answers

/-! ### The account -/

/-- What a step of a task leaves of the queue. -/
theorem taskStep_queue {task : InferTask} (hstep : p.taskStep i ev task = some p') :
    ∃ n, p'.queue = { p.queue with inFlight := n } := by
  simp only [taskStep] at hstep
  split at hstep
  case h_1 entry =>
      split at hstep <;> cases hstep
      · refine ⟨p.queue.inFlight, ?_⟩
        rw [sendResult_eq]
        rfl
      · exact ⟨p.queue.inFlight, rfl⟩
  case h_2 outcome entry =>
      cases hstep
      refine ⟨p.queue.inFlight, ?_⟩
      rw [sendResult_eq]
      rfl
  case h_3 =>
      cases hstep
      exact ⟨p.queue.inFlight - 1, rfl⟩
  case h_4 =>
      cases hstep
      refine ⟨p.queue.inFlight, ?_⟩
      simp only [notifyOne]
      split <;> rfl
  case h_5 | h_6 =>
      cases hstep
      exact ⟨p.queue.inFlight, rfl⟩
  case h_7 => cases hstep

/-- What a step of a submission leaves of the queue, its admission apart. -/
theorem submissionStep_queue {point : Submission} (hev : ∀ k now, ev ≠ .enqueue k now)
    (hstep : p.submissionStep i ev point = some p') : p'.queue = p.queue := by
  simp only [submissionStep] at hstep
  split at hstep
  case h_1 k now agentId prompt timeoutMs priority => exact absurd rfl (hev k now)
  case h_2 agentId result =>
      cases hstep
      simp only [notifyOne]
      split <;> rfl
  case h_3 agentId result =>
      split at hstep
      · cases hstep
        rfl
      · obtain ⟨r, -, rfl⟩ := Option.map_eq_some_iff.mp hstep
        rfl
  case h_4 | h_5 =>
      cases hstep
      rfl
  case h_6 => cases hstep

/-- The critical section of a submission keeps the account. -/
theorem accounted_enqueue {l : QueueLog} (ha : Accounted p.queue l) (agentId : AgentId)
    (prompt : List UInt8) (timeoutMs : ℕ) (priority : PriorityClass) (now : Instant) :
    Accounted (p.enqueue i agentId prompt timeoutMs priority now).queue
      (l.enqueue (p.queue.newEntry agentId prompt timeoutMs i priority now)
        (p.queue.tryEnqueue agentId prompt timeoutMs i priority now).1) := by
  simp only [enqueue]
  split
  case h_1 q hq | h_2 depth q hq =>
      have hkept := ha.tryEnqueue hq
      rwa [hq]
  case h_3 depth evicted q hq =>
      have hkept := ha.tryEnqueue hq
      rw [sendResult_eq, hq]
      exact hkept

/-- The critical section of the dispatcher keeps the account. -/
theorem accounted_pop {l : QueueLog} (ha : Accounted p.queue l) (now : Instant) :
    Accounted (p.pop now).queue (l.serve (p.queue.popNext now).1) := by
  simp only [pop]
  split
  case h_1 q hq =>
      have hkept := ha.popNext hq
      rwa [hq]
  case h_2 e q hq =>
      have hkept := ha.popNext hq
      rw [hq]
      exact hkept.setInFlight _

/-- **Step.** Every step of the pool keeps the account. -/
theorem accounted_step {l : QueueLog} (ha : Accounted p.queue l) (hstep : p.step ev = some p') :
    Accounted p'.queue (p.record l ev) := by
  cases ev with
  | register agentId prompt timeoutMs priority | cancelOpen agentId =>
      cases hstep
      exact ha
  | enqueue i now =>
      obtain ⟨point, hpoint, hsub⟩ := Option.bind_eq_some_iff.mp hstep
      cases point with
      | registered agentId prompt timeoutMs priority =>
          cases hsub
          simp only [record, hpoint]
          exact accounted_enqueue ha agentId prompt timeoutMs priority now
      | enqueued | awaiting | cancelling | returning | finished => cases hsub
  | announce i | resolve i | withdraw i | unregister i =>
      obtain ⟨point, -, hsub⟩ := Option.bind_eq_some_iff.mp hstep
      rw [submissionStep_queue (fun _ _ heq => by cases heq) hsub]
      exact ha
  | cancelClose i =>
      obtain ⟨agentId, -, rfl⟩ := Option.map_eq_some_iff.mp hstep
      exact ha
  | start i | answer i outcome | taskDecrement i | taskNotify i | taskSlotFreed i
  | taskRelease i =>
      obtain ⟨task, -, hgo⟩ := Option.bind_eq_some_iff.mp hstep
      obtain ⟨n, hqueue⟩ := taskStep_queue hgo
      rw [hqueue]
      exact ha.setInFlight n
  | dispatch now =>
      change p.dispatch now = some p' at hstep
      simp only [dispatch] at hstep
      simp only [record]
      split at hstep
      case h_1 => cases hstep
      case h_4 hd =>
          cases hstep
          rw [if_pos hd]
          exact accounted_pop ha now
      case h_2 hd | h_3 hd =>
          rw [if_neg (by simp [hd])]
          split at hstep <;> cases hstep <;> exact ha
      case h_5 hd | h_6 hd =>
          rw [if_neg (by simp [hd])]
          cases hstep
          exact ha

end InferencePool

/-! ### Conservation -/

/-- A pool and its log. -/
structure PoolHistory where
  pool : InferencePool
  log : QueueLog

namespace PoolHistory

open InferencePool

variable {s s' : PoolHistory} {ev : PoolEvent} {maxConcurrent queueCapacity maxStarvationMs : ℕ}

/-- A pool that has seen no request. -/
def new (maxConcurrent queueCapacity maxStarvationMs : ℕ) : PoolHistory :=
  { pool := newWithQueueParams maxConcurrent queueCapacity maxStarvationMs, log := .new }

/-- A step of the pool, on the record. -/
def step (s : PoolHistory) (ev : PoolEvent) : Option PoolHistory :=
  (s.pool.step ev).map fun pool => { pool, log := s.pool.record s.log ev }

/-- What holds of a pool and its log at every moment. -/
structure Conserved (maxConcurrent queueCapacity : ℕ) (s : PoolHistory) : Prop where
  bounded : s.pool.Bounded maxConcurrent queueCapacity
  accounted : Accounted s.pool.queue s.log
  answers : s.pool.Answers s.log

theorem Conserved.new (maxConcurrent queueCapacity maxStarvationMs : ℕ) :
    (PoolHistory.new maxConcurrent queueCapacity maxStarvationMs).Conserved maxConcurrent
      queueCapacity where
  bounded := ⟨rfl, rfl, Nat.zero_le _, rfl⟩
  accounted := .new queueCapacity maxStarvationMs
  answers := by
    constructor <;> simp [PoolHistory.new, newWithQueueParams, QueueLog.new, QueueState.new,
      QueueState.waiting]

theorem Conserved.step (h : s.Conserved maxConcurrent queueCapacity) (hstep : s.step ev = some s') :
    s'.Conserved maxConcurrent queueCapacity := by
  obtain ⟨pool, hpool, rfl⟩ := Option.map_eq_some_iff.mp hstep
  exact ⟨h.bounded.step hpool, accounted_step h.accounted hpool, h.answers.step h.accounted hpool⟩

/-- **Run.** Conservation holds along every run. -/
theorem Conserved.run {evs : List PoolEvent}
    (hrun : Machine.run PoolHistory.step (.new maxConcurrent queueCapacity maxStarvationMs) evs =
      some s) : s.Conserved maxConcurrent queueCapacity := by
  have hkept : ∀ (s : PoolHistory) ev s', s.Conserved maxConcurrent queueCapacity →
      s.step ev = some s' → s'.Conserved maxConcurrent queueCapacity :=
    fun s ev s' h hstep => h.step hstep
  exact run_invariant hkept (.new maxConcurrent queueCapacity maxStarvationMs) hrun

/-- A request is evicted only in favour of a supervisor that meets a full queue, and then it is
the newest one of the batch deque. -/
theorem Conserved.evicted_step (h : s.Conserved maxConcurrent queueCapacity)
    (hstep : s.step ev = some s') :
    s'.log.evicted = s.log.evicted ∨
      ∃ i now agentId prompt timeoutMs evicted, ev = .enqueue i now ∧
        s.pool.submissions[i]? = some (.registered agentId prompt timeoutMs .supervisor) ∧
        s.pool.queue.totalWaiting + s.pool.queue.inFlight = queueCapacity ∧
        evicted ∈ s.pool.queue.batch ∧
        (∀ e ∈ s.pool.queue.batch, e.admissionSeq ≤ evicted.admissionSeq) ∧
        s'.log.evicted = s.log.evicted ++ [evicted] := by
  obtain ⟨pool, hpool, rfl⟩ := Option.map_eq_some_iff.mp hstep
  cases ev with
  | enqueue i now =>
      simp only [record]
      split
      case h_1 agentId prompt timeoutMs priority hpoint =>
          obtain ⟨hanswer, -⟩ | ⟨rest, evicted, hanswer, rfl, hfull, hbatch, -⟩ | ⟨hanswer, -⟩ :=
            QueueState.tryEnqueue_cases
              (q := s.pool.queue) (Prod.eta (s.pool.queue.tryEnqueue agentId prompt timeoutMs i
                priority now)).symm
          · exact .inl (by rw [hanswer]; rfl)
          · have hroom := h.bounded.room
            rw [h.bounded.capacity] at hfull
            refine .inr ⟨i, now, agentId, prompt, timeoutMs, evicted, rfl, hpoint, by omega, ?_, ?_,
              by rw [hanswer]; rfl⟩
            · rw [hbatch]
              exact List.mem_append_right _ (List.mem_singleton_self _)
            · intro e he
              rw [hbatch] at he
              obtain hrest | hlast := List.mem_append.mp he
              · exact (h.accounted.newest_evicted hbatch e hrest).le
              · rw [List.mem_singleton.mp hlast]
          · exact .inl (by rw [hanswer]; simp [QueueLog.enqueue])
      case h_2 => exact .inl rfl
  | dispatch now =>
      simp only [record]
      split <;> exact .inl rfl
  | register | announce | resolve | withdraw | unregister | cancelOpen | cancelClose | start
  | answer | taskDecrement | taskNotify | taskSlotFreed | taskRelease => exact .inl rfl

/-- **Conservation and bounds**, for any submissions, cancellations, completions, schedule and
instants. The queue and what is in flight fit its capacity, and what is in flight the permits.
The requests that were admitted are numbered in order, and each of them is in one place: once in
one of the deques, dispatched once, or evicted once with `NoSlot`, which its submission has as
its answer unless it was cancelled. A request is evicted only by a supervisor that meets a full
queue, and then it is the newest one of the batch deque. -/
theorem conserved_run {evs : List PoolEvent}
    (hrun : Machine.run step (new maxConcurrent queueCapacity maxStarvationMs) evs = some s) :
    s.pool.queue.totalWaiting + s.pool.queue.inFlight ≤ queueCapacity ∧
      s.pool.queue.inFlight ≤ maxConcurrent ∧
      s.log.admitted.map (·.admissionSeq) = List.range' 1 s.pool.queue.totalAdmitted ∧
      ((s.pool.queue.supervisor ++ s.pool.queue.foreground ++ s.pool.queue.batch ++
        s.log.dispatched ++ s.log.evicted).map QueueEntry.asAdmitted).Perm s.log.admitted ∧
      (∀ e ∈ s.log.evicted, s.pool.Answered e.submission (some (.error .noSlot))) ∧
      s.pool.queue.totalAdmitted =
        s.pool.queue.totalWaiting + s.log.dispatched.length + s.log.evicted.length ∧
      ∀ ev s', s.step ev = some s' → s'.log.evicted = s.log.evicted ∨
        ∃ i now agentId prompt timeoutMs evicted, ev = .enqueue i now ∧
          s.pool.submissions[i]? = some (.registered agentId prompt timeoutMs .supervisor) ∧
          s.pool.queue.totalWaiting + s.pool.queue.inFlight = queueCapacity ∧
          evicted ∈ s.pool.queue.batch ∧
          (∀ e ∈ s.pool.queue.batch, e.admissionSeq ≤ evicted.admissionSeq) ∧
          s'.log.evicted = s.log.evicted ++ [evicted] := by
  have h : s.Conserved maxConcurrent queueCapacity := .run hrun
  have hnumbered := h.accounted.numbered
  rw [← h.accounted.counted] at hnumbered
  exact ⟨h.bounded.room, h.bounded.inFlight_le, hnumbered, h.accounted.places, h.answers.told,
    h.accounted.totalAdmitted_eq, fun _ _ hstep => h.evicted_step hstep⟩

/-- A batch request is served, two more fill the queue, and a supervisor evicts the last of
them. -/
def oneEviction : List PoolEvent :=
  [.register 1 [] 0 .batch, .enqueue 0 0, .announce 0, .dispatch 0, .dispatch 0, .dispatch 0,
    .dispatch 0, .start 0, .register 2 [] 0 .batch, .enqueue 1 1, .register 3 [] 0 .batch,
    .enqueue 2 2, .register 4 [] 0 .supervisor, .enqueue 3 3]

theorem conserved_oneEviction :
    ∃ s, Machine.run step (new 1 3 10000) oneEviction = some s ∧
      s.log.evicted.map (·.submission) = [2] ∧
      (∀ e ∈ s.log.evicted, s.pool.Answered e.submission (some (.error .noSlot))) ∧
      s.pool.queue.totalAdmitted =
        s.pool.queue.totalWaiting + s.log.dispatched.length + s.log.evicted.length := by
  have hend : ((Machine.run step (new 1 3 10000) oneEviction).any fun s =>
      s.log.evicted.map (·.submission) = [2]) = true := by decide +kernel
  obtain ⟨s, hrun, hend⟩ := (Option.any_eq_true _ _).mp hend
  obtain ⟨-, -, -, -, htold, htotal, -⟩ := conserved_run hrun
  exact ⟨s, hrun, of_decide_eq_true hend, htold, htotal⟩

end PoolHistory

end Torpor
