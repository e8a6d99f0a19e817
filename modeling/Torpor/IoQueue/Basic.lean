import Torpor.Inference.Queue

/-!
# The I/O Admission Queue

The queue that bounds the concurrent reads of the content store (`IoAdmissionQueue`): its
state under the lock (`IoQueueState`), the calls of `acquire`, the permits they return and
the dispatcher, as one machine. Every call runs on a thread of its own, so that one step is
one access to what the threads share: a critical section, a `notify_one`, an operation on the
semaphore or on the channel of a call. The queue is the one `IoAdmissionQueue::new` builds,
whose `c1_hint` nobody notifies.

A call is listed under the number of its channel and goes through the points of
`AcquireCall`, up to the last of the three steps in which its permit is dropped.
-/

namespace Torpor

/-- `IoError`, as far as the queue itself answers it. -/
inductive IoError
  | noSlot
  deriving DecidableEq, Repr

/-- `IoWaiter`; `resultTx` is the number of the call that waits on the channel. -/
structure IoWaiter where
  agentId : AgentId
  priority : PriorityClass
  cacheScore : ℕ
  admissionSeq : ℕ
  resultTx : ℕ
  deriving DecidableEq, Repr

/-- `IoQueueState`. -/
structure IoQueueState where
  supervisor : List IoWaiter
  foreground : List IoWaiter
  batch : List IoWaiter
  inFlight : ℕ
  queueCapacity : ℕ
  admissionCounter : ℕ
  totalAdmitted : ℕ
  totalRejected : ℕ
  popWithSupPresent : ℕ
  supChosenWhenPresent : ℕ
  deriving DecidableEq, Repr

/-- The order of `best_in`: a higher cache score first, then the earlier admission. -/
def IoWaiter.notBetter (a b : IoWaiter) : Bool :=
  a.cacheScore < b.cacheScore ||
    (a.cacheScore == b.cacheScore && b.admissionSeq ≤ a.admissionSeq)

namespace IoQueueState

/-- `IoQueueState::new`. -/
def new (queueCapacity : ℕ) : IoQueueState :=
  { supervisor := [], foreground := [], batch := [], inFlight := 0, queueCapacity,
    admissionCounter := 0, totalAdmitted := 0, totalRejected := 0, popWithSupPresent := 0,
    supChosenWhenPresent := 0 }

/-- `total_waiting`. -/
def totalWaiting (st : IoQueueState) : ℕ :=
  st.supervisor.length + st.foreground.length + st.batch.length

/-- Append a waiter to the deque of its class. -/
def pushBack (st : IoQueueState) (w : IoWaiter) : IoQueueState :=
  match w.priority with
  | .supervisor => { st with supervisor := st.supervisor ++ [w] }
  | .foreground => { st with foreground := st.foreground ++ [w] }
  | .batch => { st with batch := st.batch ++ [w] }

/-- `try_enqueue`. -/
def tryEnqueue (st : IoQueueState) (agentId : AgentId) (priority : PriorityClass)
    (cacheScore resultTx : ℕ) : Except IoError Unit × IoQueueState :=
  if st.totalWaiting + st.inFlight ≥ st.queueCapacity then
    (.error .noSlot, { st with totalRejected := st.totalRejected + 1 })
  else
    let admissionSeq := st.admissionCounter + 1
    (.ok (), { st with
      admissionCounter := admissionSeq
      totalAdmitted := st.totalAdmitted + 1 }.pushBack
        { agentId, priority, cacheScore, admissionSeq, resultTx })

/-- The rest of the scan of `best_in` at index `i`, with the best waiter so far and its
index; a later waiter replaces an equal one, as `max_by` does. -/
def bestFrom (best : IoWaiter) (idx i : ℕ) : List IoWaiter → ℕ
  | [] => idx
  | w :: rest =>
      if best.notBetter w then bestFrom w i (i + 1) rest else bestFrom best idx (i + 1) rest

/-- `best_in`. -/
def bestIn : List IoWaiter → ℕ
  | [] => 0
  | w :: rest => bestFrom w 0 1 rest

/-- `pop_best`. -/
def popBest (st : IoQueueState) : Option IoWaiter × IoQueueState :=
  if st.supervisor ≠ [] then
    let idx := bestIn st.supervisor
    let w := st.supervisor[idx]?
    (w, { st with
      supervisor := st.supervisor.eraseIdx idx
      popWithSupPresent := st.popWithSupPresent + 1
      supChosenWhenPresent := st.supChosenWhenPresent + if w.isSome then 1 else 0 })
  else if st.foreground ≠ [] then
    let idx := bestIn st.foreground
    (st.foreground[idx]?, { st with foreground := st.foreground.eraseIdx idx })
  else if st.batch ≠ [] then
    let idx := bestIn st.batch
    (st.batch[idx]?, { st with batch := st.batch.eraseIdx idx })
  else (none, st)

end IoQueueState

/-! ### The machine -/

/-- Where a call of `acquire`, and then the permit it returned, is. In the first two points
`delivered` says whether the dispatcher has already sent a permit into the channel. -/
inductive AcquireCall
  /-- In the queue, before its `notify_one`. -/
  | enqueued (delivered : Bool)
  /-- At `rx.await`. -/
  | awaiting (delivered : Bool)
  /-- Returned: an `IoPermit` is alive. -/
  | holding
  /-- `IoPermit::drop` after its critical section. -/
  | decremented
  /-- `IoPermit::drop` after its `notify_one`: the field `_permit` is still to be dropped. -/
  | announced
  | ended
  /-- The future was dropped at `rx.await`, before a permit was sent. -/
  | cancelled
  deriving DecidableEq, Repr

/-- Where `io_dispatcher` is. -/
inductive IoDispatcher
  /-- Asleep in `notified()`. -/
  | parked
  /-- At the top of the outer loop. -/
  | arriving
  /-- At the top of the inner loop, before `try_acquire_owned`. -/
  | trying
  /-- With a permit, before the critical section of `pop_best`. -/
  | popping
  /-- With a permit and a waiter, before `send`. -/
  | sending (w : IoWaiter)
  /-- The caller is gone: before the critical section that takes `in_flight` back. -/
  | undoing
  /-- Before the drop of the permit that `send` returned. -/
  | dropping
  /-- Nobody waits: before the drop of the permit. -/
  | returning
  deriving DecidableEq, Repr

/-- `IoAdmissionQueue` with its calls and its dispatcher. `notified` is the notification that
`notify` stores and `available` the free permits of the semaphore. -/
structure IoAdmissionQueue where
  state : IoQueueState
  notified : Bool
  available : ℕ
  capActif : ℕ
  calls : List AcquireCall
  dispatcher : IoDispatcher
  deriving DecidableEq, Repr

/-- What happens next: a step of one call, of the drop of one permit, or of the dispatcher. -/
inductive IoEvent
  /-- `acquire` up to the end of its critical section. -/
  | acquire (agentId : AgentId) (priority : PriorityClass) (lastActive : Option Instant)
      (now : Instant)
  /-- The `notify_one` of `acquire`. -/
  | announce (call : ℕ)
  /-- `rx.await` returns and `acquire` builds its `IoPermit`. -/
  | resume (call : ℕ)
  /-- The future of `acquire` is dropped at `rx.await`. -/
  | cancel (call : ℕ)
  | dropDecrement (call : ℕ)
  | dropNotify (call : ℕ)
  | dropRelease (call : ℕ)
  | dispatch
  deriving DecidableEq, Repr

/-- The cache score of an agent that last read the store at `lastActive`. -/
def cacheScore (lastActive : Option Instant) (now : Instant) : ℕ :=
  (lastActive.map fun t => 3600 - (now - t) / 1000000000).getD 0

namespace IoAdmissionQueue

/-- `IoAdmissionQueue::new`, with the dispatcher it spawns. -/
def new (capActif queueCapacity : ℕ) : IoAdmissionQueue :=
  { state := .new queueCapacity, notified := false, available := capActif, capActif,
    calls := [], dispatcher := .arriving }

/-- `notify.notify_one()`: a sleeping dispatcher is woken, else the notification is stored. -/
def notifyOne (q : IoAdmissionQueue) : IoAdmissionQueue :=
  if q.dispatcher = .parked then { q with dispatcher := .trying }
  else { q with notified := true }

/-- Move a call to a point. -/
def setCall (q : IoAdmissionQueue) (call : ℕ) (point : AcquireCall) : IoAdmissionQueue :=
  { q with calls := q.calls.set call point }

/-- `if st.in_flight > 0 { st.in_flight -= 1 }`. -/
def decrement (q : IoAdmissionQueue) : IoAdmissionQueue :=
  { q with state := { q.state with inFlight := q.state.inFlight - 1 } }

/-- The drop of an `OwnedSemaphorePermit`. -/
def release (q : IoAdmissionQueue) : IoAdmissionQueue :=
  { q with available := q.available + 1 }

/-- `w.result_tx.send(Ok(permit))`: the permit is in the channel, or comes back because the
receiver is gone. -/
def send (q : IoAdmissionQueue) (w : IoWaiter) : IoAdmissionQueue :=
  match q.calls[w.resultTx]? with
  | some (.enqueued false) =>
      { q.setCall w.resultTx (.enqueued true) with dispatcher := .trying }
  | some (.awaiting false) =>
      { q.setCall w.resultTx (.awaiting true) with dispatcher := .trying }
  | _ => { q with dispatcher := .undoing }

/-- The critical section of the dispatcher. -/
def pop (q : IoAdmissionQueue) : IoAdmissionQueue :=
  match q.state.popBest with
  | (none, st) => { q with state := st, dispatcher := .returning }
  | (some w, st) =>
      { q with state := { st with inFlight := st.inFlight + 1 }, dispatcher := .sending w }

/-- One step of `io_dispatcher`; a sleeping dispatcher takes none. -/
def dispatch (q : IoAdmissionQueue) : Option IoAdmissionQueue :=
  match q.dispatcher with
  | .parked => none
  | .arriving =>
      if q.notified then some { q with dispatcher := .trying, notified := false }
      else some { q with dispatcher := .parked }
  | .trying =>
      match q.available with
      | 0 => some { q with dispatcher := .arriving }
      | n + 1 => some { q with dispatcher := .popping, available := n }
  | .popping => some q.pop
  | .sending w => some (q.send w)
  | .undoing => some { q.decrement.notifyOne with dispatcher := .dropping }
  | .dropping => some { q.release with dispatcher := .trying }
  | .returning => some { q.release with dispatcher := .arriving }

/-- One step of the machine; `none` when the event is not enabled. -/
def step (q : IoAdmissionQueue) : IoEvent → Option IoAdmissionQueue
  | .acquire agentId priority lastActive now =>
      match q.state.tryEnqueue agentId priority (cacheScore lastActive now) q.calls.length with
      | (.error _, st) => some { q with state := st }
      | (.ok _, st) => some { q with state := st, calls := q.calls ++ [.enqueued false] }
  | .announce call =>
      match q.calls[call]? with
      | some (.enqueued delivered) => some (q.setCall call (.awaiting delivered)).notifyOne
      | _ => none
  | .resume call =>
      match q.calls[call]? with
      | some (.awaiting true) => some (q.setCall call .holding)
      | _ => none
  | .cancel call =>
      match q.calls[call]? with
      | some (.awaiting false) => some (q.setCall call .cancelled)
      -- The receiver drops the permit that is in the channel; no `IoPermit` was built.
      | some (.awaiting true) => some (q.setCall call .ended).release
      | _ => none
  | .dropDecrement call =>
      match q.calls[call]? with
      | some .holding => some (q.setCall call .decremented).decrement
      | _ => none
  | .dropNotify call =>
      match q.calls[call]? with
      | some .decremented => some (q.setCall call .announced).notifyOne
      | _ => none
  | .dropRelease call =>
      match q.calls[call]? with
      | some .announced => some (q.setCall call .ended).release
      | _ => none
  | .dispatch => q.dispatch

end IoAdmissionQueue

/-! ### What the operations do to the number of waiters -/

namespace IoQueueState

/-- A refused request only counts as rejected. -/
theorem tryEnqueue_error {st st' : IoQueueState} {agentId : AgentId} {priority : PriorityClass}
    {cacheScore resultTx : ℕ} {e : IoError}
    (h : st.tryEnqueue agentId priority cacheScore resultTx = (.error e, st')) :
    st'.totalWaiting = st.totalWaiting ∧ st'.inFlight = st.inFlight := by
  simp only [tryEnqueue] at h
  split at h <;> cases h
  exact ⟨rfl, rfl⟩

theorem bestFrom_lt (best : IoWaiter) {idx i : ℕ} (h : idx < i) (bucket : List IoWaiter) :
    bestFrom best idx i bucket < i + bucket.length := by
  induction bucket generalizing best idx i with
  | nil => simpa [bestFrom] using h
  | cons w rest ih =>
      simp only [bestFrom, List.length_cons]
      split
      · have hlt : bestFrom w i (i + 1) rest < i + 1 + rest.length := ih w (by omega)
        omega
      · have hlt : bestFrom best idx (i + 1) rest < i + 1 + rest.length := ih best (by omega)
        omega

/-- The best waiter of a deque that is not empty is one of its waiters. -/
theorem exists_best {bucket : List IoWaiter} (h : bucket ≠ []) :
    ∃ w, bucket[bestIn bucket]? = some w := by
  have hlt : bestIn bucket < bucket.length := by
    cases bucket with
    | nil => exact absurd rfl h
    | cons w rest =>
        have := bestFrom_lt w Nat.zero_lt_one rest
        simp only [bestIn, List.length_cons]
        omega
  exact ⟨_, List.getElem?_eq_getElem hlt⟩

/-- `pop_best` finds nobody only in an empty queue. -/
theorem popBest_eq_none {st st' : IoQueueState} (h : st.popBest = (none, st')) :
    st' = st ∧ st.totalWaiting = 0 := by
  simp only [popBest] at h
  split at h
  · obtain ⟨w, hw⟩ := exists_best ‹st.supervisor ≠ []›
    simp [hw] at h
  · split at h
    · obtain ⟨w, hw⟩ := exists_best ‹st.foreground ≠ []›
      simp [hw] at h
    · split at h
      · obtain ⟨w, hw⟩ := exists_best ‹st.batch ≠ []›
        simp [hw] at h
      · simp_all [totalWaiting]

end IoQueueState

end Torpor
