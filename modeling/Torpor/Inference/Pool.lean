import Mathlib.Data.List.AList
import Torpor.Actor.Host
import Torpor.Inference.Queue

/-!
# The Inference Pool

`InferencePool`: the submissions, the dispatcher (`pool_dispatcher`), the tasks it spawns and
the cancellations, as one machine over the inference queue. Every submission, task and
cancellation runs on a thread of its own, so that one step is one access to what the threads
share: a critical section, a `notify_one`, an operation on the semaphore, on a channel or on a
cancellation token. What the backend answers, and when, is up to the environment.

A submission is listed under its number, which also names its channel and its cancellation
token. The ring of traces, which is read by tests only, is left out.
-/

namespace Torpor

/-- What a submission returns. -/
abbrev InferResult := Except InferError InferResponse

/-- Where a call of `submit_with_class` is. From its admission on, `result` is what has been
sent into its channel. -/
inductive Submission
  /-- Its token is in the table of active submissions; before `try_enqueue`. -/
  | registered (agentId : AgentId) (prompt : List UInt8) (timeoutMs : ℕ)
      (priority : PriorityClass)
  /-- In the queue, before its `notify_one`. -/
  | enqueued (agentId : AgentId) (result : Option InferResult)
  /-- At the `select!` of `do_submit`. -/
  | awaiting (agentId : AgentId) (result : Option InferResult)
  /-- Its token is cancelled; before `cancel_agent`. -/
  | cancelling (agentId : AgentId)
  /-- `do_submit` has returned; before the token leaves the table. -/
  | returning (agentId : AgentId) (result : InferResult)
  | finished (result : InferResult)
  deriving DecidableEq, Repr

/-- Where a spawned task is. -/
inductive InferTask
  /-- Before it looks at the cancellation token. -/
  | spawned (entry : QueueEntry)
  /-- The backend is at work. -/
  | inferring (entry : QueueEntry)
  /-- The result has been sent. -/
  | answered
  /-- After the critical section that takes `in_flight` back. -/
  | decremented
  /-- After `notify.notify_one()`. -/
  | announced
  /-- After `slot_freed.notify_one()`: `_permit` is still to be dropped. -/
  | freed
  | ended
  deriving DecidableEq, Repr

/-- Where `pool_dispatcher` is. -/
inductive PoolDispatcher
  /-- Asleep in `notified()`. -/
  | parked
  /-- At the top of the outer loop. -/
  | arriving
  /-- At the top of the inner loop, before `try_acquire_owned`. -/
  | trying
  /-- With a permit, before the critical section of `pop_next`. -/
  | popping
  /-- With a permit and an entry, before `tokio::spawn`. -/
  | spawning (entry : QueueEntry)
  /-- The queue is empty: before the drop of the permit. -/
  | returning
  deriving DecidableEq, Repr

/-- `InferencePool`. `notified` and `slotFreed` are the notifications that `notify` and
`slot_freed` store, `available` the free permits of the semaphore, `active` the table of
tokens, `cancelled` the tokens that are cancelled, and `cancels` the calls of `cancel` between
their two critical sections. -/
structure InferencePool where
  queue : QueueState
  notified : Bool
  slotFreed : Bool
  available : ℕ
  active : AList fun _ : AgentId => ℕ
  cancelled : List ℕ
  cancels : List AgentId
  submissions : List Submission
  tasks : List InferTask
  dispatcher : PoolDispatcher

/-- What happens next: a step of a submission, of a cancellation, of a task, or of the
dispatcher. -/
inductive PoolEvent
  | register (agentId : AgentId) (prompt : List UInt8) (timeoutMs : ℕ)
      (priority : PriorityClass)
  | enqueue (submission : ℕ) (now : Instant)
  /-- The `notify_one` of `do_submit`. -/
  | announce (submission : ℕ)
  /-- The `select!` of `do_submit` returns. -/
  | resolve (submission : ℕ)
  /-- The `cancel_agent` of `do_submit`. -/
  | withdraw (submission : ℕ)
  | unregister (submission : ℕ)
  /-- The first critical section of `cancel`. -/
  | cancelOpen (agentId : AgentId)
  /-- The second one. -/
  | cancelClose (cancel : ℕ)
  /-- A task looks at its cancellation token. -/
  | start (task : ℕ)
  /-- The backend answers a task, which sends the result. -/
  | answer (task : ℕ) (outcome : InferResult)
  | taskDecrement (task : ℕ)
  | taskNotify (task : ℕ)
  | taskSlotFreed (task : ℕ)
  | taskRelease (task : ℕ)
  | dispatch (now : Instant)
  deriving DecidableEq, Repr

/-- The `SlotAcquiredInfo` of an entry. -/
def QueueEntry.slotInfo (e : QueueEntry) : SlotAcquiredInfo :=
  { priorityClass := e.originalClass.toByte
    queueDepthAtAdmission := e.depthAtAdmission
    promotedFrom := if e.promoted then some e.originalClass.toByte else none }

namespace InferencePool

/-- `new_with_queue_params`, with the dispatcher it spawns. -/
def newWithQueueParams (maxConcurrent queueCapacity maxStarvationMs : ℕ) : InferencePool :=
  { queue := .new queueCapacity maxStarvationMs, notified := false, slotFreed := false,
    available := maxConcurrent, active := ∅, cancelled := [], cancels := [],
    submissions := [], tasks := [], dispatcher := .arriving }

/-- `InferencePool::new`. -/
def new (maxConcurrent : ℕ) : InferencePool :=
  newWithQueueParams maxConcurrent (max (4 * maxConcurrent) 4) 10000

/-- `queue.notify.notify_one()`. -/
def notifyOne (p : InferencePool) : InferencePool :=
  if p.dispatcher = .parked then { p with dispatcher := .trying }
  else { p with notified := true }

/-- Move a submission to a point. -/
def setSubmission (p : InferencePool) (submission : ℕ) (point : Submission) : InferencePool :=
  { p with submissions := p.submissions.set submission point }

/-- Move a task to a point. -/
def setTask (p : InferencePool) (task : ℕ) (point : InferTask) : InferencePool :=
  { p with tasks := p.tasks.set task point }

/-- `result_tx.send(result)`: without effect once the receiver is gone. -/
def sendResult (p : InferencePool) (submission : ℕ) (result : InferResult) : InferencePool :=
  match p.submissions[submission]? with
  | some (.enqueued agentId none) => p.setSubmission submission (.enqueued agentId (some result))
  | some (.awaiting agentId none) => p.setSubmission submission (.awaiting agentId (some result))
  | _ => p

/-- `cancel_agent`: cancel the tokens of the requests of an agent that are in the queue. -/
def cancelAgent (p : InferencePool) (agentId : AgentId) : InferencePool :=
  let queued := p.queue.supervisor ++ p.queue.foreground ++ p.queue.batch
  { p with
    cancelled := p.cancelled ++ (queued.filter (·.agentId == agentId)).map (·.submission) }

/-- The critical section of `do_submit`, for the submission `submission`. -/
def enqueue (p : InferencePool) (submission : ℕ) (agentId : AgentId) (prompt : List UInt8)
    (timeoutMs : ℕ) (priority : PriorityClass) (now : Instant) : InferencePool :=
  match p.queue.tryEnqueue agentId prompt timeoutMs submission priority now with
  | (.refused, q) =>
      { p with queue := q }.setSubmission submission (.returning agentId (.error .noSlot))
  | (.admitted _ none, q) =>
      { p with queue := q }.setSubmission submission (.enqueued agentId none)
  | (.admitted _ (some evicted), q) =>
      ({ p with queue := q }.sendResult evicted.submission (.error .noSlot)).setSubmission
        submission (.enqueued agentId none)

/-- The critical section of the dispatcher. -/
def pop (p : InferencePool) (now : Instant) : InferencePool :=
  match p.queue.popNext now with
  | (none, q) => { p with queue := q, dispatcher := .returning }
  | (some entry, q) =>
      { p with queue := { q with inFlight := q.inFlight + 1 }, dispatcher := .spawning entry }

/-- One step of `pool_dispatcher`; a sleeping dispatcher takes none. -/
def dispatch (p : InferencePool) (now : Instant) : Option InferencePool :=
  match p.dispatcher with
  | .parked => none
  | .arriving =>
      if p.notified then some { p with dispatcher := .trying, notified := false }
      else some { p with dispatcher := .parked }
  | .trying =>
      match p.available with
      | 0 => some { p with dispatcher := .arriving }
      | n + 1 => some { p with dispatcher := .popping, available := n }
  | .popping => some (p.pop now)
  | .spawning entry =>
      some { p with tasks := p.tasks ++ [.spawned entry], dispatcher := .trying }
  | .returning => some { p with available := p.available + 1, dispatcher := .arriving }

/-- One step of a submission; `none` when it is not at the point the step starts from. -/
def submissionStep (p : InferencePool) (submission : ℕ) :
    PoolEvent → Submission → Option InferencePool
  | .enqueue _ now, .registered agentId prompt timeoutMs priority =>
      some (p.enqueue submission agentId prompt timeoutMs priority now)
  | .announce _, .enqueued agentId result =>
      some (p.setSubmission submission (.awaiting agentId result)).notifyOne
  | .resolve _, .awaiting agentId result =>
      -- The `select!` is biased: a cancelled token wins over a result.
      if submission ∈ p.cancelled then some (p.setSubmission submission (.cancelling agentId))
      else result.map fun r => p.setSubmission submission (.returning agentId r)
  | .withdraw _, .cancelling agentId =>
      some ((p.cancelAgent agentId).setSubmission submission
        (.returning agentId (.error .cancelled)))
  | .unregister _, .returning agentId result =>
      some { p.setSubmission submission (.finished result) with
        active := p.active.erase agentId }
  | _, _ => none

/-- One step of a spawned task. -/
def taskStep (p : InferencePool) (task : ℕ) : PoolEvent → InferTask → Option InferencePool
  | .start _, .spawned entry =>
      if entry.submission ∈ p.cancelled then
        some ((p.sendResult entry.submission (.error .cancelled)).setTask task .answered)
      else some (p.setTask task (.inferring entry))
  | .answer _ outcome, .inferring entry =>
      let result := outcome.map fun r => { r with slotInfo := some entry.slotInfo }
      some ((p.sendResult entry.submission result).setTask task .answered)
  | .taskDecrement _, .answered =>
      some { p.setTask task .decremented with
        queue := { p.queue with inFlight := p.queue.inFlight - 1 } }
  | .taskNotify _, .decremented => some (p.setTask task .announced).notifyOne
  | .taskSlotFreed _, .announced => some { p.setTask task .freed with slotFreed := true }
  | .taskRelease _, .freed =>
      some { p.setTask task .ended with available := p.available + 1 }
  | _, _ => none

/-- One step of the machine; `none` when the event is not enabled. -/
def step (p : InferencePool) (ev : PoolEvent) : Option InferencePool :=
  match ev with
  | .register agentId prompt timeoutMs priority =>
      some { p with
        active := p.active.insert agentId p.submissions.length
        submissions := p.submissions ++ [.registered agentId prompt timeoutMs priority] }
  | .enqueue i _ | .announce i | .resolve i | .withdraw i | .unregister i =>
      p.submissions[i]?.bind (p.submissionStep i ev)
  | .cancelOpen agentId =>
      some { p with
        cancelled := p.cancelled ++ (p.active.lookup agentId).toList
        cancels := p.cancels ++ [agentId] }
  | .cancelClose i =>
      p.cancels[i]?.map fun agentId =>
        { p.cancelAgent agentId with cancels := p.cancels.eraseIdx i }
  | .start i | .answer i _ | .taskDecrement i | .taskNotify i | .taskSlotFreed i
  | .taskRelease i => p.tasks[i]?.bind (p.taskStep i ev)
  | .dispatch now => p.dispatch now

end InferencePool

end Torpor
