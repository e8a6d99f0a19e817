import Torpor.Inference.Pool
import Torpor.Lib.Gate
import Torpor.Lib.Machine

/-!
# Wake-ups of the Pool Dispatcher

The inference pool is a gate, along the runs in which its dispatcher is never refused a
permit that a finished task has announced but not released yet. A task notifies the
dispatcher in its last statements and drops its permit afterwards, with its local variables,
so that there are other runs; in one of them a request is left beside a free slot.

## Main results

* `gate_step`: the simulation.
* `not_stranded_of_slotSeen`: no lost wake-up when no release is missed.
* `second_request_stranded`: a lost wake-up.
-/

namespace Torpor

open Machine

/-- The phase of the gate's dispatcher. -/
def PoolDispatcher.phase : PoolDispatcher → Gate.Phase
  | parked => .parked
  | arriving => .arriving
  | trying => .trying
  | popping | spawning _ => .serving
  | returning => .returning

theorem PoolDispatcher.phase_eq_parked {d : PoolDispatcher} :
    d.phase = .parked ↔ d = .parked := by
  cases d <;> simp [PoolDispatcher.phase]

/-- A submission that still has to announce itself. -/
def Submission.joining : Submission → Bool
  | enqueued _ _ => true
  | _ => false

/-- A task whose permit is announced and not released yet. -/
def InferTask.leaving : InferTask → Bool
  | announced | freed => true
  | _ => false

/-- A task that has begun to end. -/
def InferTask.ending : InferTask → Bool
  | answered | decremented | announced | freed => true
  | _ => false

/-- A step of the dispatcher. -/
def PoolEvent.dispatches : PoolEvent → Bool
  | dispatch _ => true
  | _ => false

namespace InferencePool

variable {p p' : InferencePool} {ev : PoolEvent} {i : ℕ}

/-- The pool as a gate. -/
def gate (p : InferencePool) : Gate.State :=
  { waiting := p.queue.totalWaiting
    announcing := p.submissions.countP Submission.joining
    free := p.available
    releasing := p.tasks.countP InferTask.leaving
    notified := p.notified
    phase := p.dispatcher.phase }

theorem gate_notifyOne (p : InferencePool) : p.notifyOne.gate = p.gate.notify := by
  simp only [notifyOne, Gate.State.notify, gate, PoolDispatcher.phase_eq_parked]
  split <;> rfl

/-- A submission that moves from a point to another one. -/
theorem gate_setSubmission {point : Submission} (h : p.submissions[i]? = some point)
    (point' : Submission) :
    ∃ a, p.gate.announcing = a + point.joining.toNat ∧
      (p.setSubmission i point').gate =
        { p.gate with announcing := a + point'.joining.toNat } := by
  obtain ⟨a, ha, ha'⟩ := Gate.countP_set Submission.joining h point'
  exact ⟨a, ha, by simp only [gate, setSubmission, ha']⟩

theorem gate_setSubmission_of_eq {point : Submission} (h : p.submissions[i]? = some point)
    (point' : Submission) (hjoining : point'.joining = point.joining) :
    (p.setSubmission i point').gate = p.gate := by
  obtain ⟨a, ha, hgate⟩ := gate_setSubmission h point'
  rw [hgate, hjoining, ← ha]

/-- A submission that joins the queue. -/
theorem gate_setSubmission_enqueued {agentId : AgentId} {prompt : List UInt8} {timeoutMs : ℕ}
    {priority : PriorityClass}
    (h : p.submissions[i]? = some (.registered agentId prompt timeoutMs priority)) :
    (p.setSubmission i (.enqueued agentId none)).gate =
      { p.gate with announcing := p.gate.announcing + 1 } := by
  obtain ⟨a, ha, hgate⟩ := gate_setSubmission h (.enqueued agentId none)
  rw [hgate, ha]
  rfl

/-- A task that moves from a point to another one. -/
theorem gate_setTask {point : InferTask} (h : p.tasks[i]? = some point) (point' : InferTask) :
    ∃ r, p.gate.releasing = r + point.leaving.toNat ∧
      (p.setTask i point').gate = { p.gate with releasing := r + point'.leaving.toNat } := by
  obtain ⟨r, hr, hr'⟩ := Gate.countP_set InferTask.leaving h point'
  exact ⟨r, hr, by simp only [gate, setTask, hr']⟩

theorem gate_setTask_of_eq {point : InferTask} (h : p.tasks[i]? = some point)
    (point' : InferTask) (hleaving : point'.leaving = point.leaving) :
    (p.setTask i point').gate = p.gate := by
  obtain ⟨r, hr, hgate⟩ := gate_setTask h point'
  rw [hgate, hleaving, ← hr]

/-- A result moves no submission. -/
theorem gate_sendResult (p : InferencePool) (submission : ℕ) (result : InferResult) :
    (p.sendResult submission result).gate = p.gate := by
  simp only [sendResult]
  split
  case h_1 agentId hpoint => exact gate_setSubmission_of_eq hpoint _ rfl
  case h_2 agentId hpoint => exact gate_setSubmission_of_eq hpoint _ rfl
  case h_3 => rfl

/-- The semaphore refuses no permit to the dispatcher while a task is between its
`notify.notify_one()` and the release of its permit. -/
def SlotSeen (p : InferencePool) (ev : PoolEvent) : Prop :=
  ev.dispatches = true → p.dispatcher = .trying → p.available = 0 →
    ∀ task ∈ p.tasks, task.leaving = false

instance (p : InferencePool) (ev : PoolEvent) : Decidable (p.SlotSeen ev) :=
  inferInstanceAs (Decidable (_ → _))

/-- A step of the dispatcher is a step of the gate, unless it misses a release. -/
theorem gate_dispatch {now : Instant} (hstep : p.dispatch now = some p')
    (hseen : p.SlotSeen (.dispatch now)) : Gate.Step p.gate p'.gate := by
  simp only [dispatch] at hstep
  split at hstep
  case h_1 => cases hstep
  case h_2 hd =>
      have hphase : p.gate.phase = .arriving := by simp [gate, hd, PoolDispatcher.phase]
      split at hstep <;> cases hstep
      · exact .wake p.gate hphase ‹_›
      · exact .park p.gate hphase (by simpa [gate] using ‹¬ p.notified = true›)
  case h_3 hd =>
      have hphase : p.gate.phase = .trying := by simp [gate, hd, PoolDispatcher.phase]
      split at hstep <;> cases hstep
      · have hreleasing : p.gate.releasing = 0 := by
          refine List.countP_eq_zero.mpr fun task htask => ?_
          simp [hseen rfl hd ‹_› task htask]
        exact .refused p.gate hphase ‹_› hreleasing
      · exact .take p.gate _ hphase ‹_›
  case h_4 hd =>
      have hphase : p.gate.phase = .serving := by simp [gate, hd, PoolDispatcher.phase]
      cases hstep
      simp only [pop]
      split
      case h_1 q hpop =>
          obtain ⟨hwaiting, hwaiting'⟩ := QueueState.popNext_eq_none hpop
          have hgate : ({ p with queue := q, dispatcher := .returning } : InferencePool).gate =
              { p.gate with phase := .returning } := by
            simp only [gate, hwaiting, hwaiting', PoolDispatcher.phase]
          exact hgate ▸ .empty p.gate hphase hwaiting
      case h_2 entry q hpop => exact .serve p.gate _ hphase
  case h_5 entry hd =>
      have hphase : p.gate.phase = .serving := by simp [gate, hd, PoolDispatcher.phase]
      cases hstep
      have hgate : ({ p with
          tasks := p.tasks ++ [.spawned entry]
          dispatcher := .trying } : InferencePool).gate = { p.gate with phase := .trying } := by
        simp [gate, InferTask.leaving, PoolDispatcher.phase]
      exact hgate ▸ .next p.gate hphase
  case h_6 hd =>
      have hphase : p.gate.phase = .returning := by simp [gate, hd, PoolDispatcher.phase]
      cases hstep
      exact .giveBack p.gate hphase

/-- A result never touches a submission that has not been admitted. -/
theorem sendResult_registered {agentId : AgentId} {prompt : List UInt8} {timeoutMs : ℕ}
    {priority : PriorityClass}
    (h : p.submissions[i]? = some (.registered agentId prompt timeoutMs priority)) (j : ℕ)
    (result : InferResult) :
    (p.sendResult j result).submissions[i]? =
      some (.registered agentId prompt timeoutMs priority) := by
  simp only [sendResult]
  split
  case h_3 => exact h
  all_goals
    have hne : j ≠ i := by
      rintro rfl
      simp_all
    simpa [setSubmission, List.getElem?_set_ne hne] using h

/-- The critical section of a submission: it joins the queue, or is refused. -/
theorem gate_enqueue {agentId : AgentId} {prompt : List UInt8} {timeoutMs : ℕ}
    {priority : PriorityClass} (now : Instant)
    (h : p.submissions[i]? = some (.registered agentId prompt timeoutMs priority)) :
    (p.enqueue i agentId prompt timeoutMs priority now).gate = p.gate ∨
      Gate.Step p.gate (p.enqueue i agentId prompt timeoutMs priority now).gate := by
  simp only [enqueue]
  split
  case h_1 q hq =>
      have hgate : ({ p with queue := q } : InferencePool).gate = p.gate := by
        simp only [gate, QueueState.totalWaiting_of_refused hq]
      left
      rw [gate_setSubmission_of_eq (p := { p with queue := q }) h (.returning agentId _) rfl, hgate]
  case h_2 q hq =>
      right
      rw [gate_setSubmission_enqueued (p := { p with queue := q }) h]
      exact .join p.gate q.totalWaiting
  case h_3 evicted q hq =>
      right
      rw [gate_setSubmission_enqueued (sendResult_registered (p := { p with queue := q }) h _ _),
        gate_sendResult]
      exact .join p.gate q.totalWaiting

/-- A step of a submission is a step of the gate or invisible to it. -/
theorem gate_submissionStep {point : Submission} (h : p.submissions[i]? = some point)
    (hstep : p.submissionStep i ev point = some p') :
    p'.gate = p.gate ∨ Gate.Step p.gate p'.gate := by
  simp only [submissionStep] at hstep
  split at hstep
  case h_1 now agentId prompt timeoutMs priority =>
      cases hstep
      exact gate_enqueue now h
  case h_2 agentId result =>
      cases hstep
      obtain ⟨a, ha, hgate⟩ := gate_setSubmission h (.awaiting agentId result)
      rw [gate_notifyOne, hgate]
      exact .inr (.announce p.gate a ha)
  case h_3 agentId result =>
      split at hstep
      · cases hstep
        exact .inl (gate_setSubmission_of_eq h _ rfl)
      · obtain ⟨r, -, rfl⟩ := Option.map_eq_some_iff.mp hstep
        exact .inl (gate_setSubmission_of_eq h _ rfl)
  case h_4 agentId =>
      cases hstep
      left
      exact gate_setSubmission_of_eq (p := p.cancelAgent agentId) h _ rfl
  case h_5 agentId result =>
      cases hstep
      have hsame : (p.setSubmission i (.finished result)).gate = p.gate :=
        gate_setSubmission_of_eq h _ rfl
      exact .inl hsame
  case h_6 => cases hstep

/-- A step of a task is a step of the gate or invisible to it. -/
theorem gate_taskStep {point : InferTask} (h : p.tasks[i]? = some point)
    (hstep : p.taskStep i ev point = some p') :
    p'.gate = p.gate ∨ Gate.Step p.gate p'.gate := by
  have htasks (j : ℕ) (r : InferResult) : (p.sendResult j r).tasks[i]? = some point := by
    simp only [sendResult]
    split <;> exact h
  simp only [taskStep] at hstep
  split at hstep
  case h_1 entry =>
      split at hstep <;> cases hstep
      · exact .inl ((gate_setTask_of_eq (htasks _ _) .answered rfl).trans (gate_sendResult _ _ _))
      · exact .inl (gate_setTask_of_eq h _ rfl)
  case h_2 outcome entry =>
      cases hstep
      exact .inl ((gate_setTask_of_eq (htasks _ _) .answered rfl).trans (gate_sendResult _ _ _))
  case h_3 =>
      cases hstep
      have hsame : (p.setTask i .decremented).gate = p.gate := gate_setTask_of_eq h _ rfl
      exact .inl hsame
  case h_4 =>
      cases hstep
      obtain ⟨r, hr, hgate⟩ := gate_setTask h .announced
      obtain rfl : p.gate.releasing = r := hr
      rw [gate_notifyOne, hgate]
      exact .inr (.signal p.gate)
  case h_5 =>
      cases hstep
      have hsame : (p.setTask i .freed).gate = p.gate := gate_setTask_of_eq h _ rfl
      exact .inl hsame
  case h_6 =>
      cases hstep
      obtain ⟨r, hr, hgate⟩ := gate_setTask h .ended
      have hfree : ({ p.setTask i .ended with available := p.available + 1 } :
          InferencePool).gate = { (p.setTask i .ended).gate with free := p.gate.free + 1 } := rfl
      rw [hfree, hgate]
      exact .inr (.release p.gate r hr)
  case h_7 => cases hstep

/-- **Simulation.** Every step of the pool is a step of the gate or invisible to it, unless
it misses a release. -/
theorem gate_step (hstep : p.step ev = some p') (hseen : p.SlotSeen ev) :
    p'.gate = p.gate ∨ Gate.Step p.gate p'.gate := by
  cases ev with
  | register agentId prompt timeoutMs priority =>
      cases hstep
      exact .inl (by simp [gate, Submission.joining])
  | enqueue i now | announce i | resolve i | withdraw i | unregister i =>
      obtain ⟨point, h, hpoint⟩ := Option.bind_eq_some_iff.mp hstep
      exact gate_submissionStep h hpoint
  | cancelOpen agentId =>
      cases hstep
      exact .inl rfl
  | cancelClose i =>
      obtain ⟨agentId, -, rfl⟩ := Option.map_eq_some_iff.mp hstep
      exact .inl rfl
  | start i | answer i outcome | taskDecrement i | taskNotify i | taskSlotFreed i
  | taskRelease i =>
      obtain ⟨point, h, hpoint⟩ := Option.bind_eq_some_iff.mp hstep
      exact gate_taskStep h hpoint
  | dispatch now => exact .inr (gate_dispatch hstep hseen)

/-! ### No lost wake-up -/

/-- The dispatcher sleeps with no notification stored, a request is queued beside a free slot,
and no submission and no completion is between its steps. -/
def Stranded (p : InferencePool) : Prop :=
  p.dispatcher = .parked ∧ p.notified = false ∧ 0 < p.queue.totalWaiting ∧ 0 < p.available ∧
    (∀ point ∈ p.submissions, point.joining = false) ∧ ∀ task ∈ p.tasks, task.ending = false

instance (p : InferencePool) : Decidable p.Stranded :=
  inferInstanceAs (Decidable (_ ∧ _))

/-- **No lost wake-up**, for any submissions, cancellations, completions and schedule, as long
as the semaphore never refuses the dispatcher while a task is between its notification and
its release. -/
theorem not_stranded_of_slotSeen {maxConcurrent queueCapacity maxStarvationMs : ℕ}
    {evs : List PoolEvent}
    (hrun : run step (newWithQueueParams maxConcurrent queueCapacity maxStarvationMs) evs = some p)
    (hseen : Along step SlotSeen (newWithQueueParams maxConcurrent queueCapacity maxStarvationMs)
      evs) : ¬ p.Stranded := by
  rintro ⟨hparked, -, hwaiting, hfree, hsubmissions, -⟩
  have hkept : ∀ (s : InferencePool) ev s', Gate.Alert s.gate → s.SlotSeen ev →
      s.step ev = some s' → Gate.Alert s'.gate := by
    intro s ev s' hs hev hstep
    obtain hsame | hgate := gate_step hstep hev
    · rwa [hsame]
    · exact hs.step hgate
  have hnew : Gate.Alert
      (newWithQueueParams maxConcurrent queueCapacity maxStarvationMs).gate :=
    .inl (.inr (.inr rfl))
  have halert : Gate.Alert p.gate := run_invariant_along hkept hnew hseen hrun
  have hannouncing : p.gate.announcing = 0 := by
    refine List.countP_eq_zero.mpr fun point hpoint => ?_
    simp [hsubmissions point hpoint]
  have hphase : p.gate.phase = .parked := PoolDispatcher.phase_eq_parked.mpr hparked
  have hserved : p.queue.totalWaiting = 0 := halert.waiting_eq_zero hphase hfree hannouncing
  omega

/-- A request that is served at once, and a second one that the dispatcher finds no slot
for. -/
def twoRequests : List PoolEvent :=
  [.register 1 [] 0 .foreground, .enqueue 0 0, .announce 0, .dispatch 0, .dispatch 0,
    .dispatch 0, .dispatch 0, .start 0, .register 2 [] 0 .foreground, .enqueue 1 0, .announce 1,
    .dispatch 0, .dispatch 0, .dispatch 0, .dispatch 0, .answer 0 (.ok ⟨[], none⟩),
    .taskDecrement 0, .taskNotify 0]

/-- When the slot is released before the dispatcher asks for it, the second request is
served. -/
theorem second_request_served :
    ∃ p, run step (newWithQueueParams 1 4 10000)
        (twoRequests ++ [.taskSlotFreed 0, .taskRelease 0, .dispatch 0, .dispatch 0, .dispatch 0]) =
      some p ∧ p.tasks.length = 2 ∧ ¬ p.Stranded := by
  have hserved : ((run step (newWithQueueParams 1 4 10000)
      (twoRequests ++ [.taskSlotFreed 0, .taskRelease 0, .dispatch 0, .dispatch 0, .dispatch 0])).any
        fun p => p.tasks.length = 2) = true := by decide +kernel
  obtain ⟨p, hrun, hserved⟩ := (Option.any_eq_true _ _).mp hserved
  exact ⟨p, hrun, of_decide_eq_true hserved, not_stranded_of_slotSeen hrun (by decide +kernel)⟩

/-- When the dispatcher asks in between, it goes back to sleep and the second request waits
beside a free slot. -/
theorem second_request_stranded :
    ∃ evs p, run step (newWithQueueParams 1 4 10000) evs = some p ∧ p.Stranded := by
  have hstranded : ((run step (newWithQueueParams 1 4 10000)
      (twoRequests ++ [.dispatch 0, .dispatch 0, .taskSlotFreed 0, .taskRelease 0])).any
        fun p => p.Stranded) = true := by decide +kernel
  obtain ⟨p, hrun, hstranded⟩ := (Option.any_eq_true _ _).mp hstranded
  exact ⟨_, p, hrun, of_decide_eq_true hstranded⟩

end InferencePool

end Torpor
