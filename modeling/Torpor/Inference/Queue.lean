import Torpor.Records

/-!
# The Inference Queue

The bounded queue of inference requests with its three classes of priority (`QueueState`):
admission with the eviction of a batch request in favour of a supervisor, promotion of the
requests that have starved, and service by strict priority.

An instant is a number of nanoseconds and the clock is an argument of every operation that
reads it. A request names the channel on which its result is awaited, and its cancellation
token, by the number of its submission.

## Main results

* `QueueState.totalWaiting_applyStarvationPromotions`: promotion loses no request.
* `QueueState.popNext_eq_none`: service finds no request only in an empty queue.
-/

namespace Torpor

/-- A point in time, in nanoseconds. -/
abbrev Instant := ℕ

/-- `PriorityClass`. -/
inductive PriorityClass
  | supervisor
  | foreground
  | batch
  deriving DecidableEq, Repr

/-- The byte that stands for a class. -/
def PriorityClass.toByte : PriorityClass → UInt8
  | supervisor => 0x01
  | foreground => 0x02
  | batch => 0x03

/-- `QueueEntry`; `submission` names both its channel (`result_tx`) and its cancellation
token. -/
structure QueueEntry where
  agentId : AgentId
  prompt : List UInt8
  timeoutMs : ℕ
  submission : ℕ
  admissionSeq : ℕ
  admissionInstant : Instant
  effectiveClass : PriorityClass
  originalClass : PriorityClass
  promoted : Bool
  depthAtAdmission : ℕ
  deriving DecidableEq, Repr

/-- The entry once it is promoted to a class. -/
def QueueEntry.promote (e : QueueEntry) (priority : PriorityClass) : QueueEntry :=
  { e with promoted := true, effectiveClass := priority }

/-- `QueueState`. -/
structure QueueState where
  supervisor : List QueueEntry
  foreground : List QueueEntry
  batch : List QueueEntry
  inFlight : ℕ
  queueCapacity : ℕ
  maxStarvationMs : ℕ
  admissionCounter : ℕ
  totalAdmitted : ℕ
  totalRejected : ℕ
  totalPromoted : ℕ
  deriving DecidableEq, Repr

/-- `now.duration_since(earlier).as_millis()`, which is zero when `earlier` is later. -/
def waitMs (now earlier : Instant) : ℕ := (now - earlier) / 1000000

namespace QueueState

/-- `QueueState::new`. -/
def new (queueCapacity maxStarvationMs : ℕ) : QueueState :=
  { supervisor := [], foreground := [], batch := [], inFlight := 0, queueCapacity,
    maxStarvationMs, admissionCounter := 0, totalAdmitted := 0, totalRejected := 0,
    totalPromoted := 0 }

/-- `total_waiting`. -/
def totalWaiting (q : QueueState) : ℕ :=
  q.supervisor.length + q.foreground.length + q.batch.length

/-- The entry that `try_enqueue` builds for an admitted request. -/
def newEntry (q : QueueState) (agentId : AgentId) (prompt : List UInt8) (timeoutMs : ℕ)
    (submission : ℕ) (priority : PriorityClass) (now : Instant) : QueueEntry :=
  { agentId, prompt, timeoutMs, submission
    admissionSeq := q.admissionCounter + 1
    admissionInstant := now
    effectiveClass := priority
    originalClass := priority
    promoted := false
    depthAtAdmission := q.totalWaiting % 2 ^ 16 }

/-- Append an entry to the deque of a class. -/
def pushBack (q : QueueState) (priority : PriorityClass) (e : QueueEntry) : QueueState :=
  match priority with
  | .supervisor => { q with supervisor := q.supervisor ++ [e] }
  | .foreground => { q with foreground := q.foreground ++ [e] }
  | .batch => { q with batch := q.batch ++ [e] }

/-- What `try_enqueue` answers: the request is refused (`NoSlot`), or admitted, possibly in
the place of a batch request whose channel receives `NoSlot`. -/
inductive Admission
  | refused
  | admitted (depth : ℕ) (evicted : Option QueueEntry)
  deriving DecidableEq, Repr

/-- `try_enqueue`. -/
def tryEnqueue (q : QueueState) (agentId : AgentId) (prompt : List UInt8) (timeoutMs : ℕ)
    (submission : ℕ) (priority : PriorityClass) (now : Instant) : Admission × QueueState :=
  let entry := q.newEntry agentId prompt timeoutMs submission priority now
  let depthBefore := q.totalWaiting % 2 ^ 16
  if q.totalWaiting + q.inFlight ≥ q.queueCapacity then
    match priority, q.batch.getLast? with
    | .supervisor, some evicted =>
        (.admitted depthBefore (some evicted),
          { q with
            batch := q.batch.dropLast
            supervisor := q.supervisor ++ [entry]
            totalRejected := q.totalRejected + 1
            admissionCounter := q.admissionCounter + 1
            totalAdmitted := q.totalAdmitted + 1 })
    | _, _ => (.refused, { q with totalRejected := q.totalRejected + 1 })
  else
    (.admitted depthBefore none,
      { q with
        admissionCounter := q.admissionCounter + 1
        totalAdmitted := q.totalAdmitted + 1 }.pushBack priority entry)

/-- Whether a promotion pass lifts an entry out of its deque. -/
def starved (q : QueueState) (now : Instant) (e : QueueEntry) : Bool :=
  !e.promoted && q.maxStarvationMs ≤ waitMs now e.admissionInstant

/-- `apply_starvation_promotions`, first loop: the starved batch requests move, in order, to
the front of the foreground deque. -/
def promoteBatch (q : QueueState) (now : Instant) : QueueState :=
  let lifted := q.batch.filter (q.starved now)
  { q with
    batch := q.batch.filter (!q.starved now ·)
    foreground := lifted.map (·.promote .foreground) ++ q.foreground
    totalPromoted := q.totalPromoted + lifted.length }

/-- Second loop: only requests that were foreground from the start move on. -/
def promoteForeground (q : QueueState) (now : Instant) : QueueState :=
  let moves := fun e => q.starved now e && e.originalClass == .foreground
  let lifted := q.foreground.filter moves
  { q with
    foreground := q.foreground.filter (!moves ·)
    supervisor := lifted.map (·.promote .supervisor) ++ q.supervisor
    totalPromoted := q.totalPromoted + lifted.length }

/-- `apply_starvation_promotions`. -/
def applyStarvationPromotions (q : QueueState) (now : Instant) : QueueState :=
  (q.promoteBatch now).promoteForeground now

/-- Strict priority: the front of the first deque that is not empty. -/
def popFront (q : QueueState) : Option QueueEntry × QueueState :=
  match q.supervisor, q.foreground, q.batch with
  | e :: rest, _, _ => (some e, { q with supervisor := rest })
  | [], e :: rest, _ => (some e, { q with foreground := rest })
  | [], [], e :: rest => (some e, { q with batch := rest })
  | [], [], [] => (none, q)

/-- `pop_next`. -/
def popNext (q : QueueState) (now : Instant) : Option QueueEntry × QueueState :=
  (q.applyStarvationPromotions now).popFront

/-! ### How many requests wait -/

/-- A refused request only counts as rejected. -/
theorem totalWaiting_of_refused {q q' : QueueState} {agentId : AgentId} {prompt : List UInt8}
    {timeoutMs submission : ℕ} {priority : PriorityClass} {now : Instant}
    (h : q.tryEnqueue agentId prompt timeoutMs submission priority now = (.refused, q')) :
    q'.totalWaiting = q.totalWaiting := by
  simp only [tryEnqueue] at h
  split at h
  · split at h <;> cases h
    rfl
  · cases h

theorem totalWaiting_promoteBatch (q : QueueState) (now : Instant) :
    (q.promoteBatch now).totalWaiting = q.totalWaiting := by
  have hsplit := List.length_eq_length_filter_add (l := q.batch) (q.starved now)
  simp only [totalWaiting, promoteBatch, List.length_append, List.length_map]
  omega

theorem totalWaiting_promoteForeground (q : QueueState) (now : Instant) :
    (q.promoteForeground now).totalWaiting = q.totalWaiting := by
  have hsplit := List.length_eq_length_filter_add (l := q.foreground)
    fun e => q.starved now e && e.originalClass == .foreground
  simp only [totalWaiting, promoteForeground, List.length_append, List.length_map]
  omega

/-- A promotion pass moves requests and loses none. -/
theorem totalWaiting_applyStarvationPromotions (q : QueueState) (now : Instant) :
    (q.applyStarvationPromotions now).totalWaiting = q.totalWaiting := by
  rw [applyStarvationPromotions, totalWaiting_promoteForeground, totalWaiting_promoteBatch]

theorem popFront_eq_none {q q' : QueueState} (h : q.popFront = (none, q')) :
    q' = q ∧ q.totalWaiting = 0 := by
  simp only [popFront] at h
  split at h <;> simp_all [totalWaiting]

/-- Service finds no request only in an empty queue. -/
theorem popNext_eq_none {q q' : QueueState} {now : Instant}
    (h : q.popNext now = (none, q')) : q.totalWaiting = 0 ∧ q'.totalWaiting = 0 := by
  obtain ⟨rfl, hzero⟩ := popFront_eq_none h
  rw [totalWaiting_applyStarvationPromotions] at hzero
  exact ⟨hzero, by rw [totalWaiting_applyStarvationPromotions, hzero]⟩

end QueueState

end Torpor
