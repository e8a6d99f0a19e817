import Mathlib.Data.List.Perm.Basic
import Torpor.Inference.Queue
import Torpor.Lib.Machine

/-!
# The History of the Inference Queue

A queue together with a log of the requests it admitted, evicted and dispatched, and the
account of them: every request that was admitted is waiting, dispatched or evicted, and only
one of these, once.

A promotion changes the entry of a request. The log keeps the entry as it was admitted, which
`QueueEntry.asAdmitted` recovers from any later state of it.

## Main results

* `QueueState.waiting_applyStarvationPromotions`: what a promotion pass does to the requests.
* `Accounted.tryEnqueue`, `Accounted.popNext`: the account balances after every operation.
* `Accounted.newest_evicted`: the request that is evicted is the newest one of its deque.
-/

namespace Torpor

namespace QueueEntry

/-- The entry as it was admitted, before any promotion. -/
def asAdmitted (e : QueueEntry) : QueueEntry :=
  { e with promoted := false, effectiveClass := e.originalClass }

@[simp] theorem asAdmitted_promote (e : QueueEntry) (priority : PriorityClass) :
    (e.promote priority).asAdmitted = e.asAdmitted := rfl

@[simp] theorem admissionSeq_asAdmitted (e : QueueEntry) :
    e.asAdmitted.admissionSeq = e.admissionSeq := rfl

@[simp] theorem admissionSeq_promote (e : QueueEntry) (priority : PriorityClass) :
    (e.promote priority).admissionSeq = e.admissionSeq := rfl

@[simp] theorem originalClass_promote (e : QueueEntry) (priority : PriorityClass) :
    (e.promote priority).originalClass = e.originalClass := rfl

@[simp] theorem effectiveClass_promote (e : QueueEntry) (priority : PriorityClass) :
    (e.promote priority).effectiveClass = priority := rfl

@[simp] theorem promoted_promote (e : QueueEntry) (priority : PriorityClass) :
    (e.promote priority).promoted = true := rfl

end QueueEntry

namespace QueueState

variable {q q' : QueueState} {agentId : AgentId} {prompt : List UInt8}
  {timeoutMs submission : ℕ} {priority : PriorityClass} {now : Instant}

/-- The requests that wait, deque by deque. -/
def waiting (q : QueueState) : List QueueEntry := q.supervisor ++ q.foreground ++ q.batch

@[simp] theorem length_waiting (q : QueueState) : q.waiting.length = q.totalWaiting := by
  simp only [waiting, totalWaiting, List.length_append]

@[simp] theorem asAdmitted_newEntry (q : QueueState) (agentId : AgentId) (prompt : List UInt8)
    (timeoutMs submission : ℕ) (priority : PriorityClass) (now : Instant) :
    (q.newEntry agentId prompt timeoutMs submission priority now).asAdmitted =
      q.newEntry agentId prompt timeoutMs submission priority now := rfl

/-- What `try_enqueue` does: it refuses the request for want of room, lets it in at the expense
of the last request of the batch deque, or lets it in. -/
theorem tryEnqueue_cases {answer : Admission}
    (h : q.tryEnqueue agentId prompt timeoutMs submission priority now = (answer, q')) :
    (answer = .refused ∧ q.queueCapacity ≤ q.totalWaiting + q.inFlight ∧
      q' = { q with totalRejected := q.totalRejected + 1 }) ∨
    (∃ rest evicted, answer = .admitted (q.totalWaiting % 2 ^ 16) (some evicted) ∧
      priority = .supervisor ∧ q.queueCapacity ≤ q.totalWaiting + q.inFlight ∧
      q.batch = rest ++ [evicted] ∧
      q' = { q with
        batch := rest
        supervisor := q.supervisor ++
          [q.newEntry agentId prompt timeoutMs submission priority now]
        totalRejected := q.totalRejected + 1
        admissionCounter := q.admissionCounter + 1
        totalAdmitted := q.totalAdmitted + 1 }) ∨
    (answer = .admitted (q.totalWaiting % 2 ^ 16) none ∧
      q.totalWaiting + q.inFlight < q.queueCapacity ∧
      q' = { q with
        admissionCounter := q.admissionCounter + 1
        totalAdmitted := q.totalAdmitted + 1 }.pushBack priority
          (q.newEntry agentId prompt timeoutMs submission priority now)) := by
  simp only [tryEnqueue] at h
  split at h
  case isTrue hfull =>
      split at h
      case h_1 evicted hlast =>
          cases h
          obtain ⟨rest, hbatch⟩ := List.getLast?_eq_some_iff.mp hlast
          refine .inr (.inl ⟨rest, evicted, rfl, rfl, hfull, hbatch, ?_⟩)
          simp only [hbatch, List.dropLast_concat]
      case h_2 =>
          cases h
          exact .inl ⟨rfl, hfull, rfl⟩
  case isFalse hroom =>
      cases h
      exact .inr (.inr ⟨rfl, Nat.lt_of_not_le hroom, rfl⟩)

theorem waiting_pushBack (q : QueueState) (priority : PriorityClass) (e : QueueEntry) :
    (q.pushBack priority e).waiting.Perm (e :: q.waiting) := by
  cases priority with
  | supervisor =>
      simp only [waiting, pushBack, List.append_assoc, List.singleton_append]
      exact List.perm_middle
  | foreground =>
      simp only [waiting, pushBack, List.append_assoc, List.singleton_append]
      rw [← List.append_assoc, ← List.append_assoc]
      exact List.perm_middle
  | batch =>
      simp only [waiting, pushBack, ← List.append_assoc]
      exact List.perm_append_singleton e _

/-! ### Promotion -/

/-- What the first loop of a promotion pass makes of a batch request. -/
def liftBatch (q : QueueState) (now : Instant) (e : QueueEntry) : QueueEntry :=
  if q.starved now e then e.promote .foreground else e

/-- Whether the second loop lifts a request out of the foreground deque. -/
def moves (q : QueueState) (now : Instant) (e : QueueEntry) : Bool :=
  q.starved now e && e.originalClass == .foreground

/-- What the second loop makes of a foreground request. -/
def liftForeground (q : QueueState) (now : Instant) (e : QueueEntry) : QueueEntry :=
  if q.moves now e then e.promote .supervisor else e

/-- The requests that a pass lifts, and those it leaves. -/
theorem perm_lift {α : Type*} (p : α → Bool) (f : α → α) (l : List α) :
    ((l.filter p).map f ++ l.filter (!p ·)).Perm (l.map fun a => if p a then f a else a) := by
  induction l with
  | nil => exact .nil
  | cons a l ih =>
      cases hp : p a with
      | true => simpa [List.filter_cons, hp] using ih
      | false =>
          simp only [List.filter_cons, hp, Bool.not_false, if_true, List.map_cons]
          exact List.perm_middle.trans (ih.cons a)

/-- The second loop passes over the requests that the first one has lifted. -/
theorem moves_promote (q : QueueState) (now : Instant) (e : QueueEntry)
    (priority : PriorityClass) : q.moves now (e.promote priority) = false := rfl

theorem filter_moves_promote (q : QueueState) (now : Instant) (l : List QueueEntry) :
    (l.map (·.promote .foreground)).filter (q.moves now) = [] := by
  simp only [List.filter_eq_nil_iff, List.mem_map]
  rintro _ ⟨e, -, rfl⟩
  simp [moves_promote]

theorem filter_not_moves_promote (q : QueueState) (now : Instant) (l : List QueueEntry) :
    (l.map (·.promote .foreground)).filter (!q.moves now ·) = l.map (·.promote .foreground) := by
  simp only [List.filter_eq_self, List.mem_map]
  rintro _ ⟨e, -, rfl⟩
  simp [moves_promote]

theorem promoteForeground_eq (q : QueueState) (now : Instant) :
    q.promoteForeground now =
      { q with
        foreground := q.foreground.filter (!q.moves now ·)
        supervisor := (q.foreground.filter (q.moves now)).map (·.promote .supervisor) ++
          q.supervisor
        totalPromoted := q.totalPromoted + (q.foreground.filter (q.moves now)).length } := rfl

/-- The deques after a promotion pass. -/
theorem applyStarvationPromotions_eq (q : QueueState) (now : Instant) :
    q.applyStarvationPromotions now =
      { q with
        supervisor := (q.foreground.filter (q.moves now)).map (·.promote .supervisor) ++
          q.supervisor
        foreground := (q.batch.filter (q.starved now)).map (·.promote .foreground) ++
          q.foreground.filter (!q.moves now ·)
        batch := q.batch.filter (!q.starved now ·)
        totalPromoted := q.totalPromoted + (q.batch.filter (q.starved now)).length +
          (q.foreground.filter (q.moves now)).length } := by
  have hmoves : (q.promoteBatch now).moves now = q.moves now := rfl
  rw [applyStarvationPromotions, promoteForeground_eq, hmoves]
  simp only [promoteBatch, List.filter_append, filter_moves_promote, filter_not_moves_promote,
    List.nil_append]

/-- A promotion pass changes no request but the ones it lifts, and loses none. -/
theorem waiting_applyStarvationPromotions (q : QueueState) (now : Instant) :
    (q.applyStarvationPromotions now).waiting.Perm
      (q.supervisor ++ q.foreground.map (q.liftForeground now) ++
        q.batch.map (q.liftBatch now)) := by
  have hforeground : (_ : List QueueEntry).Perm (q.foreground.map (q.liftForeground now)) :=
    perm_lift (q.moves now) (·.promote .supervisor) q.foreground
  have hbatch : (_ : List QueueEntry).Perm (q.batch.map (q.liftBatch now)) :=
    perm_lift (q.starved now) (·.promote .foreground) q.batch
  rw [applyStarvationPromotions_eq]
  refine List.Perm.trans ?_ ((hforeground.append_left q.supervisor).append hbatch)
  refine List.perm_iff_count.mpr fun e => ?_
  simp only [waiting, List.count_append]
  omega

@[simp] theorem asAdmitted_liftBatch (q : QueueState) (now : Instant) (e : QueueEntry) :
    (q.liftBatch now e).asAdmitted = e.asAdmitted := by
  simp only [liftBatch]
  split <;> rfl

@[simp] theorem asAdmitted_liftForeground (q : QueueState) (now : Instant) (e : QueueEntry) :
    (q.liftForeground now e).asAdmitted = e.asAdmitted := by
  simp only [liftForeground]
  split <;> rfl

/-- A promotion pass admits no request and drops none. -/
theorem asAdmitted_applyStarvationPromotions (q : QueueState) (now : Instant) :
    ((q.applyStarvationPromotions now).waiting.map QueueEntry.asAdmitted).Perm
      (q.waiting.map QueueEntry.asAdmitted) := by
  refine ((waiting_applyStarvationPromotions q now).map _).trans (.of_eq ?_)
  simp only [waiting, List.map_append, List.map_map, Function.comp_def, asAdmitted_liftBatch,
    asAdmitted_liftForeground]

/-- Service takes a request out of the queue, the one at the front of the first deque that is
not empty. -/
theorem popFront_cases {answer : Option QueueEntry} (h : q.popFront = (answer, q')) :
    (answer = none ∧ q' = q ∧ q.waiting = []) ∨
    (∃ e rest, answer = some e ∧ q.supervisor = e :: rest ∧ q' = { q with supervisor := rest }) ∨
    (∃ e rest, answer = some e ∧ q.supervisor = [] ∧ q.foreground = e :: rest ∧
      q' = { q with foreground := rest }) ∨
    (∃ e rest, answer = some e ∧ q.supervisor = [] ∧ q.foreground = [] ∧ q.batch = e :: rest ∧
      q' = { q with batch := rest }) := by
  simp only [popFront] at h
  split at h <;> cases h
  case h_1 e rest hsupervisor => exact .inr (.inl ⟨e, rest, rfl, hsupervisor, rfl⟩)
  case h_2 e rest hsupervisor hforeground =>
      exact .inr (.inr (.inl ⟨e, rest, rfl, hsupervisor, hforeground, rfl⟩))
  case h_3 e rest hsupervisor hforeground hbatch =>
      exact .inr (.inr (.inr ⟨e, rest, rfl, hsupervisor, hforeground, hbatch, rfl⟩))
  case h_4 hsupervisor hforeground hbatch =>
      exact .inl ⟨rfl, rfl, by simp [waiting, hsupervisor, hforeground, hbatch]⟩

theorem waiting_popFront {answer : Option QueueEntry} (h : q.popFront = (answer, q')) :
    q.waiting = answer.toList ++ q'.waiting := by
  obtain ⟨rfl, rfl, -⟩ | ⟨e, rest, rfl, hs, rfl⟩ | ⟨e, rest, rfl, hs, hf, rfl⟩ |
    ⟨e, rest, rfl, hs, hf, hb, rfl⟩ := popFront_cases h
  · rfl
  · simp [waiting, hs]
  · simp [waiting, hs, hf]
  · simp [waiting, hs, hf, hb]

end QueueState

/-! ### The log -/

/-- What has become of the requests of a queue: those it admitted, in the order of admission,
those it evicted, and those it dispatched, in the order of service. -/
structure QueueLog where
  admitted : List QueueEntry
  evicted : List QueueEntry
  dispatched : List QueueEntry
  deriving DecidableEq, Repr

namespace QueueLog

/-- No request yet. -/
def new : QueueLog := { admitted := [], evicted := [], dispatched := [] }

/-- The log after `try_enqueue` has answered a request. -/
def enqueue (l : QueueLog) (entry : QueueEntry) : QueueState.Admission → QueueLog
  | .refused => l
  | .admitted _ evicted =>
      { l with admitted := l.admitted ++ [entry], evicted := l.evicted ++ evicted.toList }

/-- The log after `pop_next` has returned. -/
def serve (l : QueueLog) (answer : Option QueueEntry) : QueueLog :=
  { l with dispatched := l.dispatched ++ answer.toList }

end QueueLog

/-- Where the requests are: in the queue, dispatched or evicted. -/
def QueueState.places (q : QueueState) (l : QueueLog) : List QueueEntry :=
  q.waiting ++ l.dispatched ++ l.evicted

/-- The places of the requests once `try_enqueue` has answered one. -/
theorem QueueState.places_tryEnqueue {q q' : QueueState} {agentId : AgentId} {prompt : List UInt8}
    {timeoutMs submission : ℕ} {priority : PriorityClass} {now : Instant}
    {answer : QueueState.Admission} (l : QueueLog)
    (hq : q.tryEnqueue agentId prompt timeoutMs submission priority now = (answer, q')) :
    (answer = .refused ∧ q'.places l = q.places l) ∨
      (answer ≠ .refused ∧
        (q'.places (l.enqueue (q.newEntry agentId prompt timeoutMs submission priority now)
          answer)).Perm (q.newEntry agentId prompt timeoutMs submission priority now ::
            q.places l)) := by
  obtain ⟨rfl, -, rfl⟩ | ⟨rest, evicted, rfl, -, -, hbatch, rfl⟩ | ⟨rfl, -, rfl⟩ :=
    QueueState.tryEnqueue_cases hq
  · exact .inl ⟨rfl, rfl⟩
  · refine .inr ⟨by simp, List.perm_iff_count.mpr fun e => ?_⟩
    simp only [places, waiting, QueueLog.enqueue, hbatch, Option.toList_some, List.count_append,
      List.count_cons, List.count_nil]
    omega
  · have hwaiting := QueueState.waiting_pushBack
      { q with
        admissionCounter := q.admissionCounter + 1
        totalAdmitted := q.totalAdmitted + 1 } priority
      (q.newEntry agentId prompt timeoutMs submission priority now)
    refine .inr ⟨by simp, ?_⟩
    simp only [places, QueueLog.enqueue, Option.toList_none, List.append_nil, List.append_assoc]
    exact hwaiting.append_right _

/-- The account of the requests. -/
structure Accounted (q : QueueState) (l : QueueLog) : Prop where
  /-- Every request that was admitted is in one place. -/
  places : ((q.places l).map QueueEntry.asAdmitted).Perm l.admitted
  numbered : l.admitted.map (·.admissionSeq) = List.range' 1 q.admissionCounter
  counted : q.totalAdmitted = q.admissionCounter
  newestLast : q.batch.Pairwise fun a b => a.admissionSeq < b.admissionSeq

namespace Accounted

variable {q q' : QueueState} {l : QueueLog} {agentId : AgentId} {prompt : List UInt8}
  {timeoutMs submission : ℕ} {priority : PriorityClass} {now : Instant}

theorem new (queueCapacity maxStarvationMs : ℕ) :
    Accounted (.new queueCapacity maxStarvationMs) .new :=
  ⟨.nil, rfl, rfl, .nil⟩

/-- No request has a number that is yet to be given. -/
theorem seq_le (h : Accounted q l) {e : QueueEntry} (he : e ∈ q.places l) :
    e.admissionSeq ≤ q.admissionCounter := by
  have hadmitted : e.asAdmitted ∈ l.admitted :=
    h.places.mem_iff.mp (List.mem_map_of_mem he)
  have hseq : e.admissionSeq ∈ List.range' 1 q.admissionCounter := by
    rw [← h.numbered]
    exact List.mem_map.mpr ⟨e.asAdmitted, hadmitted, rfl⟩
  have := List.mem_range'_1.mp hseq
  omega

/-- The requests have pairwise different numbers. -/
theorem seq_nodup (h : Accounted q l) : ((q.places l).map (·.admissionSeq)).Nodup := by
  have hseqs : (l.admitted.map (·.admissionSeq)).Nodup := by
    rw [h.numbered]
    exact List.nodup_range'
  have hplaces := (h.places.map (·.admissionSeq)).nodup_iff.mpr hseqs
  rwa [List.map_map] at hplaces

/-- The counter of admissions counts every place. -/
theorem totalAdmitted_eq (h : Accounted q l) :
    q.totalAdmitted = q.totalWaiting + l.dispatched.length + l.evicted.length := by
  have hplaces := h.places.length_eq
  have hnumbered := congrArg List.length h.numbered
  simp only [QueueState.places, List.length_map, List.length_append, List.length_range',
    QueueState.length_waiting] at hplaces hnumbered
  rw [h.counted, ← hnumbered, ← hplaces]

/-- The last request of the batch deque is the newest one there. -/
theorem newest_evicted (h : Accounted q l) {rest : List QueueEntry} {e : QueueEntry}
    (hbatch : q.batch = rest ++ [e]) : ∀ b ∈ rest, b.admissionSeq < e.admissionSeq := by
  have hsorted := h.newestLast
  rw [hbatch] at hsorted
  exact fun b hb => (List.pairwise_append.mp hsorted).2.2 b hb e (by simp)

/-- `in_flight` does not enter the account. -/
theorem setInFlight (h : Accounted q l) (n : ℕ) : Accounted { q with inFlight := n } l :=
  ⟨h.places, h.numbered, h.counted, h.newestLast⟩

/-- A request that is admitted under the next number finds a place of its own. -/
theorem admit_places {l' : QueueLog} {entry : QueueEntry} (h : Accounted q l)
    (hentry : entry.asAdmitted = entry)
    (hplaces : (q'.places l').Perm (entry :: q.places l))
    (hadmitted : l'.admitted = l.admitted ++ [entry]) :
    ((q'.places l').map QueueEntry.asAdmitted).Perm l'.admitted := by
  have hmap := hplaces.map QueueEntry.asAdmitted
  rw [List.map_cons, hentry] at hmap
  rw [hadmitted]
  exact hmap.trans ((h.places.cons entry).trans (List.perm_append_singleton entry _).symm)

theorem admit_numbered {entry : QueueEntry} (h : Accounted q l)
    (hseq : entry.admissionSeq = q.admissionCounter + 1) :
    (l.admitted ++ [entry]).map (·.admissionSeq) = List.range' 1 (q.admissionCounter + 1) := by
  rw [List.map_append, h.numbered, List.range'_1_concat, List.map_singleton, hseq,
    Nat.add_comm 1]

/-- Admission keeps the account. -/
theorem tryEnqueue {answer : QueueState.Admission} (h : Accounted q l)
    (hq : q.tryEnqueue agentId prompt timeoutMs submission priority now = (answer, q')) :
    Accounted q'
      (l.enqueue (q.newEntry agentId prompt timeoutMs submission priority now) answer) := by
  have hplaces := QueueState.places_tryEnqueue l hq
  obtain ⟨rfl, -, rfl⟩ | ⟨rest, evicted, rfl, -, -, hbatch, rfl⟩ | ⟨rfl, -, rfl⟩ :=
    QueueState.tryEnqueue_cases hq
  · exact ⟨h.places, h.numbered, h.counted, h.newestLast⟩
  · have hadmitted := (hplaces.resolve_left (by simp)).2
    refine ⟨h.admit_places rfl hadmitted rfl, h.admit_numbered rfl, by rw [← h.counted], ?_⟩
    have hsorted := h.newestLast
    rw [hbatch] at hsorted
    exact (List.pairwise_append.mp hsorted).1
  · have hadmitted := (hplaces.resolve_left (by simp)).2
    refine ⟨h.admit_places rfl hadmitted rfl, ?_, ?_, ?_⟩
    · cases priority <;> exact h.admit_numbered rfl
    · cases priority <;> simp only [QueueState.pushBack, h.counted]
    · cases priority with
      | supervisor | foreground => exact h.newestLast
      | batch =>
          refine List.pairwise_append.mpr ⟨h.newestLast, List.pairwise_singleton _ _, ?_⟩
          intro b hb e he
          have hle := h.seq_le (e := b) (by simp [QueueState.places, QueueState.waiting, hb])
          rw [List.mem_singleton.mp he]
          exact Nat.lt_succ_of_le hle

/-- Promotion keeps the account. -/
theorem applyStarvationPromotions (h : Accounted q l) (now : Instant) :
    Accounted (q.applyStarvationPromotions now) l := by
  have hwaiting := QueueState.asAdmitted_applyStarvationPromotions q now
  refine ⟨?_, ?_, ?_, ?_⟩
  · refine List.Perm.trans ?_ h.places
    simp only [QueueState.places, List.map_append]
    exact (hwaiting.append_right _).append_right _
  · rw [QueueState.applyStarvationPromotions_eq]
    exact h.numbered
  · rw [QueueState.applyStarvationPromotions_eq]
    exact h.counted
  · rw [QueueState.applyStarvationPromotions_eq]
    exact h.newestLast.filter _

/-- Service keeps the account. -/
theorem popFront {answer : Option QueueEntry} (h : Accounted q l)
    (hq : q.popFront = (answer, q')) : Accounted q' (l.serve answer) := by
  have hwaiting := QueueState.waiting_popFront hq
  have hplaces : (q'.places (l.serve answer)).Perm (q.places l) := by
    simp only [QueueState.places, QueueLog.serve, hwaiting]
    refine List.perm_iff_count.mpr fun e => ?_
    simp only [List.count_append]
    omega
  have hadmitted := (hplaces.map QueueEntry.asAdmitted).trans h.places
  obtain ⟨rfl, rfl, -⟩ | ⟨e, rest, rfl, -, rfl⟩ | ⟨e, rest, rfl, -, -, rfl⟩ |
    ⟨e, rest, rfl, -, -, hbatch, rfl⟩ := QueueState.popFront_cases hq
  · exact ⟨hadmitted, h.numbered, h.counted, h.newestLast⟩
  · exact ⟨hadmitted, h.numbered, h.counted, h.newestLast⟩
  · exact ⟨hadmitted, h.numbered, h.counted, h.newestLast⟩
  · have hsorted := h.newestLast
    rw [hbatch] at hsorted
    exact ⟨hadmitted, h.numbered, h.counted, hsorted.of_cons⟩

/-- `pop_next` keeps the account. -/
theorem popNext {answer : Option QueueEntry} (h : Accounted q l)
    (hq : q.popNext now = (answer, q')) : Accounted q' (l.serve answer) :=
  (h.applyStarvationPromotions now).popFront hq

end Accounted

end Torpor
