import Torpor.IoQueue.Basic
import Torpor.Lib.Gate
import Torpor.Lib.Machine

/-!
# Wake-ups of the I/O Dispatcher

The I/O admission queue is a gate, along the runs in which its dispatcher is never refused a
permit that a drop has announced but not released yet. `IoPermit::drop` notifies in its body
and releases the semaphore permit afterwards, with its fields, so that there are other runs;
in one of them a waiter is left beside a free permit.

## Main results

* `gate_step`: the simulation.
* `not_stranded_of_releaseSeen`: no lost wake-up when no release is missed.
* `second_call_stranded`: a lost wake-up.
-/

namespace Torpor

open Machine

/-- The phase of the gate's dispatcher. -/
def IoDispatcher.phase : IoDispatcher → Gate.Phase
  | parked => .parked
  | arriving => .arriving
  | trying => .trying
  | popping | sending _ | undoing | dropping => .serving
  | returning => .returning

theorem IoDispatcher.phase_eq_parked {d : IoDispatcher} : d.phase = .parked ↔ d = .parked := by
  cases d <;> simp [IoDispatcher.phase]

/-- A call that still has to announce itself. -/
def AcquireCall.joining : AcquireCall → Bool
  | enqueued _ => true
  | _ => false

/-- A call whose permit is announced and not released yet. -/
def AcquireCall.leaving : AcquireCall → Bool
  | announced => true
  | _ => false

/-- A call, or the drop of a permit, that is between two of its steps. -/
def AcquireCall.midway : AcquireCall → Bool
  | enqueued _ | decremented | announced => true
  | _ => false

theorem AcquireCall.leaving_eq_true {point : AcquireCall} :
    point.leaving = true ↔ point = .announced := by
  cases point <;> simp [leaving]

namespace IoAdmissionQueue

variable {q q' : IoAdmissionQueue} {ev : IoEvent} {call : ℕ}

/-- The queue as a gate. -/
def gate (q : IoAdmissionQueue) : Gate.State :=
  { waiting := q.state.totalWaiting
    announcing := q.calls.countP AcquireCall.joining
    free := q.available
    releasing := q.calls.countP AcquireCall.leaving
    notified := q.notified
    phase := q.dispatcher.phase }

theorem gate_notifyOne (q : IoAdmissionQueue) : q.notifyOne.gate = q.gate.notify := by
  simp only [notifyOne, Gate.State.notify, gate, IoDispatcher.phase_eq_parked]
  split <;> rfl

/-- A call that moves from a point to another one takes its own share out of the counts of
the gate and puts another one in. -/
theorem gate_setCall {point : AcquireCall} (h : q.calls[call]? = some point)
    (point' : AcquireCall) :
    ∃ a r, q.gate.announcing = a + point.joining.toNat ∧
      q.gate.releasing = r + point.leaving.toNat ∧
      (q.setCall call point').gate =
        { q.gate with
          announcing := a + point'.joining.toNat
          releasing := r + point'.leaving.toNat } := by
  obtain ⟨a, ha, ha'⟩ := Gate.countP_set AcquireCall.joining h point'
  obtain ⟨r, hr, hr'⟩ := Gate.countP_set AcquireCall.leaving h point'
  refine ⟨a, r, ha, hr, ?_⟩
  simp only [gate, setCall, ha', hr']

/-- A call that moves between two points of no interest to the gate is invisible to it. -/
theorem gate_setCall_of_eq {point point' : AcquireCall} (h : q.calls[call]? = some point)
    (hjoining : point'.joining = point.joining) (hleaving : point'.leaving = point.leaving) :
    (q.setCall call point').gate = q.gate := by
  obtain ⟨a, r, ha, hr, hgate⟩ := gate_setCall h point'
  rw [hgate, hjoining, hleaving, ← ha, ← hr]

/-- When no call is between its steps, none has to announce itself. -/
theorem announcing_eq_zero (h : ∀ point ∈ q.calls, point.midway = false) :
    q.gate.announcing = 0 := by
  refine List.countP_eq_zero.mpr fun point hpoint => ?_
  have hmidway := h point hpoint
  cases point <;> simp_all [AcquireCall.midway, AcquireCall.joining]

/-- The semaphore refuses no permit to the dispatcher while an `IoPermit` is between its
`notify_one` and the release of its permit. -/
def ReleaseSeen (q : IoAdmissionQueue) (ev : IoEvent) : Prop :=
  ev = .dispatch → q.dispatcher = .trying → q.available = 0 → .announced ∉ q.calls

/-- No future of `acquire` is dropped while a permit is in its channel. -/
def PermitReceived (q : IoAdmissionQueue) (ev : IoEvent) : Prop :=
  ∀ call, ev = .cancel call → q.calls[call]? ≠ some (.awaiting true)

instance (q : IoAdmissionQueue) (ev : IoEvent) : Decidable (q.ReleaseSeen ev) :=
  inferInstanceAs (Decidable (_ → _))

instance (q : IoAdmissionQueue) (ev : IoEvent) : Decidable (q.PermitReceived ev) :=
  decidable_of_iff (∀ call < q.calls.length, ev = .cancel call →
      q.calls[call]? ≠ some (.awaiting true)) <| by
    refine ⟨fun h call hev hcall => ?_, fun h call _ => h call⟩
    obtain ⟨hlt, -⟩ := List.getElem?_eq_some_iff.mp hcall
    exact h call hlt hev hcall

/-- A step of the dispatcher is a step of the gate, unless it misses a release. -/
theorem gate_dispatch (hstep : q.dispatch = some q') (hseen : q.ReleaseSeen .dispatch) :
    q'.gate = q.gate ∨ Gate.Step q.gate q'.gate := by
  simp only [dispatch] at hstep
  split at hstep
  case h_1 => cases hstep
  case h_2 hd =>
      have hphase : q.gate.phase = .arriving := by simp [gate, hd, IoDispatcher.phase]
      split at hstep <;> cases hstep
      · exact .inr (.wake q.gate hphase ‹_›)
      · exact .inr (.park q.gate hphase (by simpa [gate] using ‹¬ q.notified = true›))
  case h_3 hd =>
      have hphase : q.gate.phase = .trying := by simp [gate, hd, IoDispatcher.phase]
      split at hstep <;> cases hstep
      · have hreleasing : q.gate.releasing = 0 := by
          refine List.countP_eq_zero.mpr fun point hpoint hleaving => ?_
          exact hseen rfl hd ‹_› (AcquireCall.leaving_eq_true.mp hleaving ▸ hpoint)
        exact .inr (.refused q.gate hphase ‹_› hreleasing)
      · exact .inr (.take q.gate _ hphase ‹_›)
  case h_4 hd =>
      have hphase : q.gate.phase = .serving := by simp [gate, hd, IoDispatcher.phase]
      cases hstep
      simp only [pop]
      split
      case h_1 st hpop =>
          obtain ⟨rfl, hwaiting⟩ := IoQueueState.popBest_eq_none hpop
          exact .inr (.empty q.gate hphase hwaiting)
      case h_2 w st hpop => exact .inr (.serve q.gate _ hphase)
  case h_5 w hd =>
      have hphase : q.gate.phase = .serving := by simp [gate, hd, IoDispatcher.phase]
      cases hstep
      simp only [send]
      split
      case h_1 hcall =>
          have hsame : (q.setCall w.resultTx (.enqueued true)).gate = q.gate :=
            gate_setCall_of_eq hcall rfl rfl
          exact .inr (hsame ▸ Gate.Step.next (q.setCall w.resultTx (.enqueued true)).gate hphase)
      case h_2 hcall =>
          have hsame : (q.setCall w.resultTx (.awaiting true)).gate = q.gate :=
            gate_setCall_of_eq hcall rfl rfl
          exact .inr (hsame ▸ Gate.Step.next (q.setCall w.resultTx (.awaiting true)).gate hphase)
      case h_3 => exact .inl (by simp [gate, hd, IoDispatcher.phase])
  case h_6 hd =>
      have hphase : q.gate.phase = .serving := by simp [gate, hd, IoDispatcher.phase]
      cases hstep
      have hstored : q.decrement.notifyOne = { q.decrement with notified := true } := by
        simp [notifyOne, decrement, hd]
      rw [hstored]
      exact .inr (.renotify q.gate hphase)
  case h_7 hd =>
      have hphase : q.gate.phase = .serving := by simp [gate, hd, IoDispatcher.phase]
      cases hstep
      exact .inr (.giveUp q.gate hphase)
  case h_8 hd =>
      have hphase : q.gate.phase = .returning := by simp [gate, hd, IoDispatcher.phase]
      cases hstep
      exact .inr (.giveBack q.gate hphase)

/-- **Simulation.** Every step of the queue is a step of the gate or invisible to it, unless
it misses a release or drops a future whose permit has been sent. -/
theorem gate_step (hstep : q.step ev = some q') (hseen : q.ReleaseSeen ev)
    (hreceived : q.PermitReceived ev) : q'.gate = q.gate ∨ Gate.Step q.gate q'.gate := by
  cases ev with
  | acquire agentId priority lastActive now =>
      simp only [step] at hstep
      split at hstep <;> cases hstep
      · obtain ⟨hwaiting, -⟩ := IoQueueState.tryEnqueue_error ‹_›
        exact .inl (by simp only [gate, hwaiting])
      · have hjoin := Gate.Step.join q.gate (‹IoQueueState›).totalWaiting
        exact .inr (by simpa [gate, AcquireCall.joining, AcquireCall.leaving] using hjoin)
  | announce call =>
      simp only [step] at hstep
      split at hstep <;> cases hstep
      case h_1 delivered hcall =>
          obtain ⟨a, r, ha, hr, hgate⟩ := gate_setCall hcall (.awaiting delivered)
          simp only [AcquireCall.joining, AcquireCall.leaving, Bool.toNat_true,
            Bool.toNat_false, Nat.add_zero] at ha hr hgate
          rw [gate_notifyOne, hgate, ← hr]
          exact .inr (.announce q.gate a ha)
  | resume call =>
      simp only [step] at hstep
      split at hstep <;> cases hstep
      case h_1 hcall => exact .inl (gate_setCall_of_eq hcall rfl rfl)
  | cancel call =>
      simp only [step] at hstep
      split at hstep <;> cases hstep
      case h_1 hcall => exact .inl (gate_setCall_of_eq hcall rfl rfl)
      case h_2 hcall => exact absurd hcall (hreceived call rfl)
  | dropDecrement call =>
      simp only [step] at hstep
      split at hstep <;> cases hstep
      case h_1 hcall =>
          have hsame : (q.setCall call .decremented).gate = q.gate :=
            gate_setCall_of_eq hcall rfl rfl
          exact .inl hsame
  | dropNotify call =>
      simp only [step] at hstep
      split at hstep <;> cases hstep
      case h_1 hcall =>
          obtain ⟨a, r, ha, hr, hgate⟩ := gate_setCall hcall .announced
          simp only [AcquireCall.joining, AcquireCall.leaving, Bool.toNat_true,
            Bool.toNat_false, Nat.add_zero] at ha hr hgate
          rw [gate_notifyOne, hgate, ← ha, ← hr]
          exact .inr (.signal q.gate)
  | dropRelease call =>
      simp only [step] at hstep
      split at hstep <;> cases hstep
      case h_1 hcall =>
          obtain ⟨a, r, ha, hr, hgate⟩ := gate_setCall hcall .ended
          simp only [AcquireCall.joining, AcquireCall.leaving, Bool.toNat_true,
            Bool.toNat_false, Nat.add_zero] at ha hr hgate
          have hrelease := Gate.Step.release q.gate r hr
          have hfree : (q.setCall call .ended).release.gate =
              { (q.setCall call .ended).gate with free := q.gate.free + 1 } := rfl
          rw [hfree, hgate, ← ha]
          exact .inr hrelease
  | dispatch => exact gate_dispatch hstep hseen

/-- Along every run that misses no release and drops no future whose permit has been sent,
the queue stays alert. -/
theorem alert_run {capActif queueCapacity : ℕ} {evs : List IoEvent}
    (hrun : run step (new capActif queueCapacity) evs = some q)
    (hseen : Along step ReleaseSeen (new capActif queueCapacity) evs)
    (hreceived : Along step PermitReceived (new capActif queueCapacity) evs) :
    Gate.Alert q.gate := by
  have hkept : ∀ (s : IoAdmissionQueue) ev s', Gate.Alert s.gate →
      s.ReleaseSeen ev ∧ s.PermitReceived ev → s.step ev = some s' → Gate.Alert s'.gate := by
    rintro s ev s' hs ⟨hev, hev'⟩ hstep
    obtain hsame | hgate := gate_step hstep hev hev'
    · rwa [hsame]
    · exact hs.step hgate
  have hnew : Gate.Alert (new capActif queueCapacity).gate := .inl (.inr (.inr rfl))
  exact run_invariant_along hkept hnew (hseen.and hreceived) hrun

/-! ### No lost wake-up -/

/-- A quiet alert queue with a sleeping dispatcher and a free permit has served every
waiter. -/
theorem totalWaiting_eq_zero (halert : Gate.Alert q.gate) (hparked : q.dispatcher = .parked)
    (hfree : 0 < q.available) (hquiet : ∀ point ∈ q.calls, point.midway = false) :
    q.state.totalWaiting = 0 := by
  have hphase : q.gate.phase = .parked := IoDispatcher.phase_eq_parked.mpr hparked
  exact halert.waiting_eq_zero hphase hfree (announcing_eq_zero hquiet)

/-- The dispatcher sleeps with no notification stored, a waiter is queued beside a free
permit, and no `acquire` and no drop is between its steps. -/
def Stranded (q : IoAdmissionQueue) : Prop :=
  q.dispatcher = .parked ∧ q.notified = false ∧ 0 < q.state.totalWaiting ∧ 0 < q.available ∧
    ∀ point ∈ q.calls, point.midway = false

instance (q : IoAdmissionQueue) : Decidable q.Stranded :=
  inferInstanceAs (Decidable (_ ∧ _))

/-- **No lost wake-up**, for any calls, drops and schedule, as long as the semaphore never
refuses the dispatcher while a drop is between its notification and its release. -/
theorem not_stranded_of_releaseSeen {capActif queueCapacity : ℕ} {evs : List IoEvent}
    (hcancel : ∀ call, .cancel call ∉ evs)
    (hrun : run step (new capActif queueCapacity) evs = some q)
    (hseen : Along step ReleaseSeen (new capActif queueCapacity) evs) : ¬ q.Stranded := by
  rintro ⟨hparked, -, hwaiting, hfree, hquiet⟩
  have hreceived : Along step PermitReceived (new capActif queueCapacity) evs := by
    refine along_of_mem (fun ev hev s call heq => ?_) _
    exact absurd (heq ▸ hev) (hcancel call)
  have hserved := totalWaiting_eq_zero (alert_run hrun hseen hreceived) hparked hfree hquiet
  omega

/-- A call that is served at once, and a second one that the dispatcher finds no permit for. -/
def twoCalls : List IoEvent :=
  [.acquire 1 .foreground none 0, .announce 0, .dispatch, .dispatch, .dispatch, .dispatch,
    .resume 0, .acquire 2 .foreground none 0, .announce 1, .dispatch, .dispatch, .dispatch,
    .dispatch, .dropDecrement 0, .dropNotify 0]

/-- When the permit is released before the dispatcher asks for it, the second call is served. -/
theorem second_call_served :
    ∃ q, run step (new 1 4) (twoCalls ++ [.dropRelease 0, .dispatch, .dispatch, .dispatch]) =
      some q ∧ q.calls = [.ended, .awaiting true] ∧ ¬ q.Stranded := by
  have hcalls : ((run step (new 1 4)
      (twoCalls ++ [.dropRelease 0, .dispatch, .dispatch, .dispatch])).any fun q =>
        q.calls = [.ended, .awaiting true]) = true := by decide +kernel
  obtain ⟨q, hq, hcalls⟩ := (Option.any_eq_true _ _).mp hcalls
  refine ⟨q, hq, of_decide_eq_true hcalls, not_stranded_of_releaseSeen ?_ hq (by decide +kernel)⟩
  simp [twoCalls]

/-- When the dispatcher asks in between, it goes back to sleep and the second call waits
beside a free permit. -/
theorem second_call_stranded :
    ∃ evs q, (∀ call, .cancel call ∉ evs) ∧ run step (new 1 4) evs = some q ∧ q.Stranded := by
  have hstranded : ((run step (new 1 4) (twoCalls ++ [.dispatch, .dispatch, .dropRelease 0])).any
      fun q => q.Stranded) = true := by decide +kernel
  obtain ⟨q, hq, hstranded⟩ := (Option.any_eq_true _ _).mp hstranded
  exact ⟨_, q, by simp [twoCalls], hq, of_decide_eq_true hstranded⟩

end IoAdmissionQueue

end Torpor
