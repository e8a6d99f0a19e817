import Torpor.IoQueue.Wakeups

/-!
# Slots of the I/O Admission Queue

Where the permits of the semaphore are, and what `in_flight` counts. A permit is free, in the
hands of the dispatcher, in the channel of a call, or in an `IoPermit`; `in_flight` counts
the calls from the moment the dispatcher has chosen them to the first step of the drop of
their `IoPermit`. The one place where this fails is a future of `acquire` that is dropped
while its permit is in the channel: the permit goes back to the semaphore and `in_flight`
keeps the call.

## Main results

* `Accounted.step`: the accounts balance after every step that leaves no sent permit behind.
* `slots_accounted`: the accounts of an idle queue, and the acceptance of the next call.
* `slot_leaked`: a call that is dropped too late costs the queue a slot for good.
-/

namespace Torpor

open Machine

/-- A call that has a permit: in its channel, in its `IoPermit`, or in a drop of it. -/
def AcquireCall.equipped : AcquireCall → Bool
  | enqueued delivered | awaiting delivered => delivered
  | holding | decremented | announced => true
  | ended | cancelled => false

/-- A call that `in_flight` counts. -/
def AcquireCall.charged : AcquireCall → Bool
  | enqueued delivered | awaiting delivered => delivered
  | holding => true
  | decremented | announced | ended | cancelled => false

/-- The dispatcher has a permit in hand. -/
def IoDispatcher.equipped : IoDispatcher → Bool
  | popping | sending _ | undoing | dropping | returning => true
  | parked | arriving | trying => false

/-- The dispatcher has counted a call in `in_flight` and not delivered to it. -/
def IoDispatcher.charged : IoDispatcher → Bool
  | sending _ | undoing => true
  | parked | arriving | trying | popping | dropping | returning => false

namespace IoQueueState

variable {st st' : IoQueueState}

/-- Admission leaves `in_flight` alone. -/
theorem tryEnqueue_inFlight {agentId : AgentId} {priority : PriorityClass}
    {cacheScore resultTx : ℕ} {answer : Except IoError Unit}
    (h : st.tryEnqueue agentId priority cacheScore resultTx = (answer, st')) :
    st'.inFlight = st.inFlight := by
  simp only [tryEnqueue, pushBack] at h
  split at h
  · cases h
    rfl
  · cases priority <;> cases h <;> rfl

/-- Service leaves `in_flight` to the dispatcher. -/
theorem popBest_inFlight {w : Option IoWaiter} (h : st.popBest = (w, st')) :
    st'.inFlight = st.inFlight := by
  simp only [popBest] at h
  split at h
  · cases h
    rfl
  · split at h
    · cases h
      rfl
    · split at h <;> cases h <;> rfl

end IoQueueState

namespace IoAdmissionQueue

variable {q q' : IoAdmissionQueue} {ev : IoEvent} {call capActif : ℕ}

/-- The accounts balance: every permit is somewhere, and `in_flight` counts the calls that
are charged. -/
structure Accounted (capActif : ℕ) (q : IoAdmissionQueue) : Prop where
  permits : q.available + q.calls.countP AcquireCall.equipped + q.dispatcher.equipped.toNat =
    capActif
  slots : q.state.inFlight = q.calls.countP AcquireCall.charged + q.dispatcher.charged.toNat

/-- A notification moves nothing that is counted. -/
theorem Accounted.notifyOne (hq : q.Accounted capActif) : q.notifyOne.Accounted capActif := by
  simp only [IoAdmissionQueue.notifyOne]
  split
  case isTrue hparked =>
      obtain ⟨hpermits, hslots⟩ := hq
      rw [hparked] at hpermits hslots
      exact ⟨hpermits, hslots⟩
  case isFalse => exact ⟨hq.permits, hq.slots⟩

/-- A call that moves from a point to another one, with the free permits and the calls in
flight adjusted to it. -/
theorem Accounted.setCall {point : AcquireCall} (hq : q.Accounted capActif)
    (h : q.calls[call]? = some point) (point' : AcquireCall) {available inFlight : ℕ}
    (d : IoDispatcher)
    (havailable : available + point'.equipped.toNat + d.equipped.toNat =
      q.available + point.equipped.toNat + q.dispatcher.equipped.toNat)
    (hinFlight : inFlight + point.charged.toNat + q.dispatcher.charged.toNat =
      q.state.inFlight + point'.charged.toNat + d.charged.toNat) :
    Accounted capActif
      { q.setCall call point' with
        state := { q.state with inFlight := inFlight }
        available := available
        dispatcher := d } := by
  obtain ⟨e, he, he'⟩ := Gate.countP_set AcquireCall.equipped h point'
  obtain ⟨c, hc, hc'⟩ := Gate.countP_set AcquireCall.charged h point'
  obtain ⟨hpermits, hslots⟩ := hq
  constructor
  · simp only [IoAdmissionQueue.setCall, he']
    omega
  · simp only [IoAdmissionQueue.setCall, hc']
    omega

/-- A step of the dispatcher keeps the accounts. -/
theorem Accounted.dispatch (hq : q.Accounted capActif) (hstep : q.dispatch = some q') :
    q'.Accounted capActif := by
  obtain ⟨hpermits, hslots⟩ := id hq
  simp only [IoAdmissionQueue.dispatch] at hstep
  split at hstep
  case h_1 => cases hstep
  case h_2 hd =>
      rw [hd] at hpermits hslots
      split at hstep <;> cases hstep <;> exact ⟨hpermits, hslots⟩
  case h_3 hd =>
      rw [hd] at hpermits hslots
      split at hstep <;> cases hstep
      · exact ⟨hpermits, hslots⟩
      · rw [‹q.available = _›] at hpermits
        exact ⟨by simpa [IoDispatcher.equipped, Nat.add_right_comm] using hpermits, hslots⟩
  case h_4 hd =>
      rw [hd] at hpermits hslots
      cases hstep
      simp only [pop]
      split
      case h_1 st hpop =>
          exact ⟨hpermits, (IoQueueState.popBest_inFlight hpop).trans hslots⟩
      case h_2 w st hpop =>
          refine ⟨hpermits, ?_⟩
          rw [IoQueueState.popBest_inFlight hpop, hslots]
          rfl
  case h_5 w hd =>
      cases hstep
      simp only [send]
      split
      case h_1 hcall =>
          exact hq.setCall hcall _ .trying (by rw [hd]; rfl) (by rw [hd]; rfl)
      case h_2 hcall =>
          exact hq.setCall hcall _ .trying (by rw [hd]; rfl) (by rw [hd]; rfl)
      case h_3 =>
          rw [hd] at hpermits hslots
          exact ⟨hpermits, hslots⟩
  case h_6 hd =>
      rw [hd] at hpermits hslots
      cases hstep
      have hstored : q.decrement.notifyOne = { q.decrement with notified := true } := by
        simp [IoAdmissionQueue.notifyOne, decrement, hd]
      rw [hstored]
      refine ⟨hpermits, ?_⟩
      simp only [decrement, hslots]
      rfl
  case h_7 hd =>
      rw [hd] at hpermits hslots
      cases hstep
      refine ⟨?_, hslots⟩
      simpa [release, IoDispatcher.equipped, Nat.add_right_comm] using hpermits
  case h_8 hd =>
      rw [hd] at hpermits hslots
      cases hstep
      refine ⟨?_, hslots⟩
      simpa [release, IoDispatcher.equipped, Nat.add_right_comm] using hpermits

/-- Every step keeps the accounts, unless it drops a future whose permit has been sent. -/
theorem Accounted.step (hq : q.Accounted capActif) (hstep : q.step ev = some q')
    (hreceived : q.PermitReceived ev) : q'.Accounted capActif := by
  cases ev with
  | acquire agentId priority lastActive now =>
      simp only [IoAdmissionQueue.step] at hstep
      split at hstep <;> cases hstep
      all_goals have hinFlight := IoQueueState.tryEnqueue_inFlight ‹_ = (_, _)›
      · exact ⟨hq.permits, hinFlight.trans hq.slots⟩
      · constructor
        · simpa [AcquireCall.equipped] using hq.permits
        · simpa [AcquireCall.charged] using hinFlight.trans hq.slots
  | announce call =>
      simp only [IoAdmissionQueue.step] at hstep
      split at hstep <;> cases hstep
      case h_1 delivered hcall =>
          exact Accounted.notifyOne (hq.setCall hcall (.awaiting delivered) q.dispatcher rfl rfl)
  | resume call =>
      simp only [IoAdmissionQueue.step] at hstep
      split at hstep <;> cases hstep
      case h_1 hcall => exact hq.setCall hcall .holding q.dispatcher rfl rfl
  | cancel call =>
      simp only [IoAdmissionQueue.step] at hstep
      split at hstep <;> cases hstep
      case h_1 hcall => exact hq.setCall hcall .cancelled q.dispatcher rfl rfl
      case h_2 hcall => exact absurd hcall (hreceived call rfl)
  | dropDecrement call =>
      simp only [IoAdmissionQueue.step] at hstep
      split at hstep <;> cases hstep
      case h_1 hcall =>
          have hcharged : 0 < q.calls.countP AcquireCall.charged :=
            List.countP_pos_iff.mpr ⟨.holding, List.mem_of_getElem? hcall, rfl⟩
          have hslots := hq.slots
          refine hq.setCall hcall .decremented q.dispatcher rfl ?_
          change q.state.inFlight - 1 + 1 + _ = q.state.inFlight + 0 + _
          omega
  | dropNotify call =>
      simp only [IoAdmissionQueue.step] at hstep
      split at hstep <;> cases hstep
      case h_1 hcall =>
          exact Accounted.notifyOne (hq.setCall hcall .announced q.dispatcher rfl rfl)
  | dropRelease call =>
      simp only [IoAdmissionQueue.step] at hstep
      split at hstep <;> cases hstep
      case h_1 hcall => exact hq.setCall hcall .ended q.dispatcher rfl rfl
  | dispatch => exact hq.dispatch hstep

/-! ### The idle queue -/

/-- The number of live `IoPermit`s. -/
def live (q : IoAdmissionQueue) : ℕ := q.calls.countP (· = .holding)

/-- No future of `acquire` is pending, no drop is between its steps and the dispatcher
sleeps. -/
def Idle (q : IoAdmissionQueue) : Prop :=
  q.dispatcher = .parked ∧
    ∀ point ∈ q.calls, point = .holding ∨ point = .ended ∨ point = .cancelled

instance (q : IoAdmissionQueue) : Decidable q.Idle :=
  inferInstanceAs (Decidable (_ ∧ _))

/-- In an idle queue the calls that are equipped or charged are those that hold an
`IoPermit`. -/
theorem Idle.count {kind : AcquireCall → Bool} (h : q.Idle) (hholding : kind .holding = true)
    (hended : kind .ended = false) (hcancelled : kind .cancelled = false) :
    q.calls.countP kind = q.live := by
  refine List.countP_congr fun point hpoint => ?_
  obtain rfl | rfl | rfl := h.2 point hpoint <;> simp [hholding, hended, hcancelled]

/-- The accounts of an idle queue whose accounts balance. -/
theorem Idle.accounts (h : q.Idle) (hq : q.Accounted capActif) :
    q.state.inFlight = q.live ∧ q.available + q.live = capActif := by
  obtain ⟨hpermits, hslots⟩ := hq
  rw [h.1, h.count rfl rfl rfl] at hpermits hslots
  exact ⟨hslots, hpermits⟩

/-- In an idle queue no call is between its steps. -/
theorem Idle.quiet (h : q.Idle) : ∀ point ∈ q.calls, point.midway = false := by
  intro point hpoint
  obtain rfl | rfl | rfl := h.2 point hpoint <;> rfl

/-- A queue that nobody waits in and nothing is in flight of accepts a call. -/
theorem accepts_of_empty (hwaiting : q.state.totalWaiting = 0) (hinFlight : q.state.inFlight = 0)
    (hcapacity : 1 ≤ q.state.queueCapacity) (agentId : AgentId) (priority : PriorityClass)
    (cacheScore resultTx : ℕ) :
    (q.state.tryEnqueue agentId priority cacheScore resultTx).1 = .ok () := by
  have hroom : ¬ q.state.totalWaiting + q.state.inFlight ≥ q.state.queueCapacity := by omega
  simp only [IoQueueState.tryEnqueue, if_neg hroom]

/-- The accounts balance along every run that drops no future whose permit has been sent. -/
theorem accounted_run {queueCapacity : ℕ} {evs : List IoEvent}
    (hrun : run step (new capActif queueCapacity) evs = some q)
    (hreceived : Along step PermitReceived (new capActif queueCapacity) evs) :
    q.Accounted capActif := by
  have hkept : ∀ (s : IoAdmissionQueue) ev s', s.Accounted capActif → s.PermitReceived ev →
      s.step ev = some s' → s'.Accounted capActif :=
    fun s ev s' hs hev hstep => hs.step hstep hev
  exact run_invariant_along hkept ⟨rfl, rfl⟩ hreceived hrun

/-- **Slot accounting**, for any calls, drops, schedule and dropped futures. As long as no
future of `acquire` is dropped while its permit is in its channel, the accounts of an idle
queue are exact; a queue with no live `IoPermit` then accepts the next call, as long as there
is a permit at all and the dispatcher misses no release. -/
theorem slots_accounted {queueCapacity : ℕ} {evs : List IoEvent}
    (hrun : run step (new capActif queueCapacity) evs = some q)
    (hreceived : Along step PermitReceived (new capActif queueCapacity) evs)
    (hidle : q.Idle) :
    q.state.inFlight = q.live ∧ q.live ≤ capActif ∧ capActif - q.live = q.available ∧
      (q.live = 0 → q.state.inFlight = 0 ∧
        (0 < capActif → Along step ReleaseSeen (new capActif queueCapacity) evs →
          1 ≤ q.state.queueCapacity → ∀ agentId priority cacheScore resultTx,
            (q.state.tryEnqueue agentId priority cacheScore resultTx).1 = .ok ())) := by
  obtain ⟨hslots, hpermits⟩ := hidle.accounts (accounted_run hrun hreceived)
  refine ⟨hslots, by omega, by omega, fun hlive => ⟨by omega, ?_⟩⟩
  intro hcap hseen hcapacity
  have halert : Gate.Alert q.gate := alert_run hrun hseen hreceived
  have hwaiting : q.state.totalWaiting = 0 :=
    totalWaiting_eq_zero halert hidle.1 (by omega) hidle.quiet
  exact accepts_of_empty hwaiting (by omega) hcapacity

/-- A call whose future is dropped in the queue costs nothing: the dispatcher finds its
receiver gone. -/
theorem slot_regained :
    ∃ q, run step (new 1 1) ([.acquire 1 .foreground none 0, .announce 0, .cancel 0] ++
        List.replicate 14 .dispatch) = some q ∧ q.calls = [.cancelled] ∧ q.state.inFlight = 0 ∧
      ∀ agentId priority cacheScore resultTx,
        (q.state.tryEnqueue agentId priority cacheScore resultTx).1 = .ok () := by
  have hend : ((run step (new 1 1) ([.acquire 1 .foreground none 0, .announce 0, .cancel 0] ++
      List.replicate 14 .dispatch)).any fun q => q.calls = [.cancelled] ∧ q.Idle ∧
        q.live = 0 ∧ 1 ≤ q.state.queueCapacity) = true := by decide +kernel
  obtain ⟨q, hrun, hend⟩ := (Option.any_eq_true _ _).mp hend
  obtain ⟨hcalls, hidle, hlive, hcapacity⟩ := of_decide_eq_true hend
  obtain ⟨-, -, -, haccepts⟩ := slots_accounted hrun (by decide +kernel) hidle
  obtain ⟨hinFlight, haccepts⟩ := haccepts hlive
  exact ⟨q, hrun, hcalls, hinFlight,
    haccepts Nat.zero_lt_one (by decide +kernel) hcapacity⟩

/-- A call whose future is dropped after the dispatcher has sent it a permit: the queue is
idle, no `IoPermit` is alive, every permit is free, and the one slot is gone. -/
theorem slot_leaked :
    ∃ evs q, run step (new 1 1) evs = some q ∧ q.Idle ∧ q.live = 0 ∧ q.available = 1 ∧
      q.state.inFlight = 1 ∧
      (q.state.tryEnqueue 2 .foreground 0 1).1 = .error .noSlot := by
  have hend : ((run step (new 1 1) ([.acquire 1 .foreground none 0, .announce 0] ++
      List.replicate 4 .dispatch ++ [.cancel 0] ++ List.replicate 4 .dispatch)).any fun q =>
        q.Idle ∧ q.live = 0 ∧ q.available = 1 ∧ q.state.inFlight = 1 ∧
          q.state.totalWaiting + q.state.inFlight ≥ q.state.queueCapacity) = true := by
    decide +kernel
  obtain ⟨q, hrun, hend⟩ := (Option.any_eq_true _ _).mp hend
  obtain ⟨hidle, hlive, havailable, hinFlight, hfull⟩ := of_decide_eq_true hend
  refine ⟨_, q, hrun, hidle, hlive, havailable, hinFlight, ?_⟩
  simp only [IoQueueState.tryEnqueue, if_pos hfull]

end IoAdmissionQueue

end Torpor
