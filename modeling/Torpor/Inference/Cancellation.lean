import Torpor.Inference.Conservation

/-!
# Whom a Cancellation Hits

A call of `InferencePool::cancel` has two critical sections. The first one cancels the token
that the table of active submissions holds for the agent, the second one those of the agent's
requests that wait in the queue. The table has room for one token of an agent, which every
submission overwrites at its start and removes at its end; and a submission that was cancelled
sweeps the queue in its turn.

So a call misses a request that the table did not hold at the first lock and the queue does not
hold at the second one, and it hits a request that started after the first lock and waits at the
second one, or when a submission that was cancelled sweeps the queue.

## Main results

* `cancel_exact_iff`: every call hits exactly the requests that exist, in every state of a run,
  exactly if its sweeps find in the queue all that the table did not hold, and none that started
  later.
* `cancel_misses_and_overreaches`: a run that misses a request, and one that hits a later one.
* `sequential_exact`: every call hits exactly the requests that exist if the submissions of an
  agent follow one another and none starts during a call of `cancel`.
-/

namespace Torpor

open Machine

/-- The agent of a submission that has not returned. -/
def Submission.agent? : Submission → Option AgentId
  | registered agentId _ _ _ | enqueued agentId _ | awaiting agentId _ | cancelling agentId
  | returning agentId _ => some agentId
  | finished _ => none

namespace InferencePool

/-! ### What is cancelled -/

/-- The agent of a submission, while it has not returned. -/
def agentAt (p : InferencePool) (submission : ℕ) : Option AgentId :=
  p.submissions[submission]?.bind Submission.agent?

/-- The submissions of an agent that have started and not returned. -/
def unfinished (p : InferencePool) (agentId : AgentId) : List ℕ :=
  (List.range p.submissions.length).filter fun i => p.agentAt i = some agentId

/-- The requests of an agent that wait in the queue. -/
def queuedOf (p : InferencePool) (agentId : AgentId) : List ℕ :=
  (p.queue.waiting.filter (·.agentId == agentId)).map (·.submission)

/-- The tokens that a step cancels. -/
def hits (p : InferencePool) : PoolEvent → List ℕ
  | .cancelOpen agentId => (p.active.lookup agentId).toList
  | .cancelClose i => (p.cancels[i]?.map p.queuedOf).getD []
  | .withdraw i =>
      match p.submissions[i]? with
      | some (.cancelling agentId) => p.queuedOf agentId
      | _ => []
  | _ => []

/-- The calls of `cancel` between their critical sections after a step. -/
def cancelsAfter (p : InferencePool) : PoolEvent → List AgentId
  | .cancelOpen agentId => p.cancels ++ [agentId]
  | .cancelClose i => p.cancels.eraseIdx i
  | _ => p.cancels

/-- The table of active submissions after a step. -/
def activeAfter (p : InferencePool) : PoolEvent → AList fun _ : AgentId => ℕ
  | .register agentId _ _ _ => p.active.insert agentId p.submissions.length
  | .unregister i => ((p.agentAt i).map p.active.erase).getD p.active
  | _ => p.active

variable {p p' : InferencePool} {ev : PoolEvent} {i j : ℕ} {agentId : AgentId}

theorem mem_unfinished {s : ℕ} : s ∈ p.unfinished agentId ↔ p.agentAt s = some agentId := by
  simp only [unfinished, List.mem_filter, List.mem_range, decide_eq_true_eq, and_iff_right_iff_imp]
  intro h
  obtain ⟨point, hpoint, -⟩ := Option.bind_eq_some_iff.mp h
  exact (List.getElem?_eq_some_iff.mp hpoint).1

theorem mem_queuedOf {t : ℕ} : t ∈ p.queuedOf agentId ↔
    ∃ e ∈ p.queue.waiting, e.agentId = agentId ∧ e.submission = t := by
  simp only [queuedOf, List.mem_map, List.mem_filter, beq_iff_eq, and_assoc]

@[simp] theorem cancelled_sendResult (p : InferencePool) (submission : ℕ) (result : InferResult) :
    (p.sendResult submission result).cancelled = p.cancelled := by
  rw [sendResult_eq]

@[simp] theorem cancels_sendResult (p : InferencePool) (submission : ℕ) (result : InferResult) :
    (p.sendResult submission result).cancels = p.cancels := by
  rw [sendResult_eq]

@[simp] theorem active_sendResult (p : InferencePool) (submission : ℕ) (result : InferResult) :
    (p.sendResult submission result).active = p.active := by
  rw [sendResult_eq]

/-- What a step leaves alone of the tokens, the calls of `cancel` and the table. -/
structure Quiet (p p' : InferencePool) : Prop where
  cancelled : p'.cancelled = p.cancelled
  cancels : p'.cancels = p.cancels
  active : p'.active = p.active

theorem quiet_notifyOne (p : InferencePool) : p.Quiet p.notifyOne := by
  simp only [notifyOne]
  split <;> exact ⟨rfl, rfl, rfl⟩

theorem quiet_enqueue (p : InferencePool) (i : ℕ) (agentId : AgentId) (prompt : List UInt8)
    (timeoutMs : ℕ) (priority : PriorityClass) (now : Instant) :
    p.Quiet (p.enqueue i agentId prompt timeoutMs priority now) := by
  simp only [enqueue]
  split
  · exact ⟨rfl, rfl, rfl⟩
  · exact ⟨rfl, rfl, rfl⟩
  · exact ⟨cancelled_sendResult _ _ _, cancels_sendResult _ _ _, active_sendResult _ _ _⟩

theorem quiet_dispatch {now : Instant} (hstep : p.dispatch now = some p') : p.Quiet p' := by
  simp only [dispatch, pop] at hstep
  split at hstep
  case h_1 => cases hstep
  case h_4 =>
      cases hstep
      split <;> exact ⟨rfl, rfl, rfl⟩
  case h_2 | h_3 => split at hstep <;> cases hstep <;> exact ⟨rfl, rfl, rfl⟩
  case h_5 | h_6 =>
      cases hstep
      exact ⟨rfl, rfl, rfl⟩

theorem quiet_taskStep {task : InferTask} (hstep : p.taskStep i ev task = some p') :
    p.Quiet p' := by
  simp only [taskStep] at hstep
  split at hstep
  case h_1 =>
      split at hstep <;> cases hstep
      · exact ⟨cancelled_sendResult _ _ _, cancels_sendResult _ _ _, active_sendResult _ _ _⟩
      · exact ⟨rfl, rfl, rfl⟩
  case h_2 =>
      cases hstep
      exact ⟨cancelled_sendResult _ _ _, cancels_sendResult _ _ _, active_sendResult _ _ _⟩
  case h_4 =>
      cases hstep
      exact ⟨(quiet_notifyOne _).cancelled, (quiet_notifyOne _).cancels, (quiet_notifyOne _).active⟩
  case h_3 | h_5 | h_6 =>
      cases hstep
      exact ⟨rfl, rfl, rfl⟩
  case h_7 => cases hstep

/-- The effect of a step on the tokens, the calls and the table. -/
structure Effect (p : InferencePool) (ev : PoolEvent) (p' : InferencePool) : Prop where
  cancelled : p'.cancelled = p.cancelled ++ p.hits ev
  cancels : p'.cancels = p.cancelsAfter ev
  active : p'.active = p.activeAfter ev

/-- **Step.** -/
theorem effect_of_step (hstep : p.step ev = some p') : p.Effect ev p' := by
  cases ev with
  | register a prompt timeoutMs priority =>
      cases hstep
      exact ⟨(List.append_nil _).symm, rfl, rfl⟩
  | cancelOpen a =>
      cases hstep
      exact ⟨rfl, rfl, rfl⟩
  | cancelClose i =>
      obtain ⟨a, ha, rfl⟩ := Option.map_eq_some_iff.mp hstep
      refine ⟨?_, rfl, rfl⟩
      simp only [hits, ha]
      rfl
  | enqueue i now =>
      obtain ⟨point, hpoint, hsub⟩ := Option.bind_eq_some_iff.mp hstep
      cases point with
      | registered a prompt timeoutMs priority =>
          cases hsub
          have hquiet := quiet_enqueue p i a prompt timeoutMs priority now
          exact ⟨hquiet.cancelled.trans (List.append_nil _).symm, hquiet.cancels, hquiet.active⟩
      | enqueued | awaiting | cancelling | returning | finished => cases hsub
  | announce i =>
      obtain ⟨point, hpoint, hsub⟩ := Option.bind_eq_some_iff.mp hstep
      cases point with
      | enqueued a result =>
          cases hsub
          have hquiet := quiet_notifyOne (p.setSubmission i (.awaiting a result))
          exact ⟨hquiet.cancelled.trans (List.append_nil _).symm, hquiet.cancels, hquiet.active⟩
      | registered | awaiting | cancelling | returning | finished => cases hsub
  | resolve i =>
      obtain ⟨point, hpoint, hsub⟩ := Option.bind_eq_some_iff.mp hstep
      cases point with
      | awaiting a result =>
          simp only [submissionStep] at hsub
          split at hsub
          · cases hsub
            exact ⟨(List.append_nil _).symm, rfl, rfl⟩
          · obtain ⟨r, -, rfl⟩ := Option.map_eq_some_iff.mp hsub
            exact ⟨(List.append_nil _).symm, rfl, rfl⟩
      | registered | enqueued | cancelling | returning | finished => cases hsub
  | withdraw i =>
      obtain ⟨point, hpoint, hsub⟩ := Option.bind_eq_some_iff.mp hstep
      cases point with
      | cancelling a =>
          cases hsub
          refine ⟨?_, rfl, rfl⟩
          simp only [hits, hpoint]
          rfl
      | registered | enqueued | awaiting | returning | finished => cases hsub
  | unregister i =>
      obtain ⟨point, hpoint, hsub⟩ := Option.bind_eq_some_iff.mp hstep
      cases point with
      | returning a result =>
          cases hsub
          refine ⟨(List.append_nil _).symm, rfl, ?_⟩
          simp only [activeAfter, agentAt, hpoint]
          rfl
      | registered | enqueued | awaiting | cancelling | finished => cases hsub
  | start i | answer i outcome | taskDecrement i | taskNotify i | taskSlotFreed i
  | taskRelease i =>
      obtain ⟨task, -, hgo⟩ := Option.bind_eq_some_iff.mp hstep
      have hquiet := quiet_taskStep hgo
      exact ⟨hquiet.cancelled.trans (List.append_nil _).symm, hquiet.cancels, hquiet.active⟩
  | dispatch now =>
      have hquiet := quiet_dispatch hstep
      exact ⟨hquiet.cancelled.trans (List.append_nil _).symm, hquiet.cancels, hquiet.active⟩

/-- What the table holds after a submission has returned, it held before, for another agent. -/
theorem lookup_unregister {a : AgentId} {t : ℕ}
    (h : (((p.agentAt i).map p.active.erase).getD p.active).lookup a = some t) :
    p.active.lookup a = some t ∧ p.agentAt i ≠ some a := by
  cases hagent : p.agentAt i with
  | none =>
      rw [hagent] at h
      exact ⟨h, by simp⟩
  | some a' =>
      rw [hagent] at h
      simp only [Option.map_some, Option.getD_some] at h
      obtain rfl | hne := eq_or_ne a a'
      · simp at h
      · rw [AList.lookup_erase_ne hne] at h
        exact ⟨h, by simpa using hne.symm⟩

/-! ### The submissions -/

/-- The submissions of `l'` are those of `l`, each at a point of the same agent, and cancelling
only if it was. -/
structure Kept (l l' : List Submission) : Prop where
  length : l'.length = l.length
  point : ∀ (j : ℕ) (point' : Submission), l'[j]? = some point' → ∃ point, l[j]? = some point ∧
    point'.agent? = point.agent? ∧ ∀ a, point' = .cancelling a → point = .cancelling a

theorem Kept.refl (l : List Submission) : Kept l l :=
  ⟨rfl, fun _ point' h => ⟨point', h, rfl, fun _ heq => heq⟩⟩

theorem Kept.trans {l l' l'' : List Submission} (h : Kept l l') (h' : Kept l' l'') :
    Kept l l'' := by
  refine ⟨h'.length.trans h.length, fun j point'' hpoint'' => ?_⟩
  obtain ⟨point', hpoint', hagent', hcancelling'⟩ := h'.point j point'' hpoint''
  obtain ⟨point, hpoint, hagent, hcancelling⟩ := h.point j point' hpoint'
  exact ⟨point, hpoint, hagent'.trans hagent, fun a ha => hcancelling a (hcancelling' a ha)⟩

/-- What stands in a list after one place has been set. -/
theorem getElem?_set_cases {l : List Submission} {point point' q : Submission}
    (hpoint : l[i]? = some point) (hq : (l.set i point')[j]? = some q) :
    (j = i ∧ q = point') ∨ l[j]? = some q := by
  obtain rfl | hne := eq_or_ne i j
  · rw [List.getElem?_set_self (List.getElem?_eq_some_iff.mp hpoint).1] at hq
    exact .inl ⟨rfl, (Option.some.inj hq).symm⟩
  · rw [List.getElem?_set_ne hne] at hq
    exact .inr hq

/-- A submission that moves to another point. -/
theorem Kept.set {l : List Submission} {point point' : Submission} (hpoint : l[i]? = some point)
    (hagent : point'.agent? = point.agent?)
    (hcancelling : ∀ a, point' = .cancelling a → point = .cancelling a) :
    Kept l (l.set i point') := by
  refine ⟨List.length_set, fun j q hq => ?_⟩
  obtain ⟨rfl, rfl⟩ | hold := getElem?_set_cases hpoint hq
  · exact ⟨point, hpoint, hagent, hcancelling⟩
  · exact ⟨q, hold, rfl, fun _ heq => heq⟩

theorem kept_sendResult (p : InferencePool) (submission : ℕ) (result : InferResult) :
    Kept p.submissions (p.sendResult submission result).submissions := by
  simp only [sendResult]
  split
  case h_1 hpoint => exact Kept.set hpoint rfl fun a ha => by cases ha
  case h_2 hpoint => exact Kept.set hpoint rfl fun a ha => by cases ha
  case h_3 => exact .refl _

theorem kept_notifyOne (p : InferencePool) : Kept p.submissions p.notifyOne.submissions := by
  simp only [notifyOne]
  split <;> exact .refl _

/-- A result does not reach a submission before its admission. -/
theorem registered_sendResult {prompt : List UInt8} {timeoutMs : ℕ} {priority : PriorityClass}
    (hpoint : p.submissions[i]? = some (.registered agentId prompt timeoutMs priority))
    (submission : ℕ) (result : InferResult) :
    (p.sendResult submission result).submissions[i]? =
      some (.registered agentId prompt timeoutMs priority) := by
  simp only [sendResult]
  split
  case h_1 a heq | h_2 a heq =>
      have hne : submission ≠ i := by
        rintro rfl
        rw [hpoint] at heq
        cases heq
      rw [setSubmission, List.getElem?_set_ne hne]
      exact hpoint
  case h_3 => exact hpoint

theorem kept_enqueue {prompt : List UInt8} {timeoutMs : ℕ} {priority : PriorityClass}
    (hpoint : p.submissions[i]? = some (.registered agentId prompt timeoutMs priority))
    (now : Instant) :
    Kept p.submissions (p.enqueue i agentId prompt timeoutMs priority now).submissions := by
  simp only [enqueue]
  split
  case h_1 => exact Kept.set hpoint rfl fun a ha => by cases ha
  case h_2 => exact Kept.set hpoint rfl fun a ha => by cases ha
  case h_3 evicted q hq =>
      have hsent : Kept p.submissions _ :=
        kept_sendResult { p with queue := q } evicted.submission (.error .noSlot)
      exact hsent.trans (Kept.set (registered_sendResult (p := { p with queue := q }) hpoint
        evicted.submission (.error .noSlot)) rfl fun a ha => by cases ha)

theorem kept_dispatch {now : Instant} (hstep : p.dispatch now = some p') :
    Kept p.submissions p'.submissions := by
  simp only [dispatch, pop] at hstep
  split at hstep
  case h_1 => cases hstep
  case h_4 =>
      cases hstep
      split <;> exact .refl _
  case h_2 | h_3 => split at hstep <;> cases hstep <;> exact .refl _
  case h_5 | h_6 =>
      cases hstep
      exact .refl _

theorem kept_taskStep {task : InferTask} (hstep : p.taskStep i ev task = some p') :
    Kept p.submissions p'.submissions := by
  simp only [taskStep] at hstep
  split at hstep
  case h_1 entry =>
      split at hstep <;> cases hstep
      · exact kept_sendResult p entry.submission _
      · exact .refl _
  case h_2 outcome entry =>
      cases hstep
      exact kept_sendResult p entry.submission _
  case h_4 =>
      cases hstep
      exact kept_notifyOne (p.setTask i .announced)
  case h_3 | h_5 | h_6 =>
      cases hstep
      exact .refl _
  case h_7 => cases hstep

/-- What a step does to the submissions: one starts, returns or sees that it is cancelled, or
they are kept. -/
theorem submissions_of_step (hstep : p.step ev = some p') :
    (∃ a prompt timeoutMs priority, ev = .register a prompt timeoutMs priority ∧
      p'.submissions = p.submissions ++ [.registered a prompt timeoutMs priority]) ∨
    (∃ i a r, ev = .unregister i ∧ p.submissions[i]? = some (.returning a r) ∧
      p'.submissions = p.submissions.set i (.finished r)) ∨
    (∃ i a r, i ∈ p.cancelled ∧ p.submissions[i]? = some (.awaiting a r) ∧
      p'.submissions = p.submissions.set i (.cancelling a)) ∨
    Kept p.submissions p'.submissions := by
  cases ev with
  | register a prompt timeoutMs priority =>
      cases hstep
      exact .inl ⟨a, prompt, timeoutMs, priority, rfl, rfl⟩
  | cancelOpen a =>
      cases hstep
      exact .inr (.inr (.inr (.refl _)))
  | cancelClose i =>
      obtain ⟨a, -, rfl⟩ := Option.map_eq_some_iff.mp hstep
      exact .inr (.inr (.inr (.refl _)))
  | enqueue i now =>
      obtain ⟨point, hpoint, hsub⟩ := Option.bind_eq_some_iff.mp hstep
      cases point with
      | registered a prompt timeoutMs priority =>
          cases hsub
          exact .inr (.inr (.inr (kept_enqueue hpoint now)))
      | enqueued | awaiting | cancelling | returning | finished => cases hsub
  | announce i =>
      obtain ⟨point, hpoint, hsub⟩ := Option.bind_eq_some_iff.mp hstep
      cases point with
      | enqueued a result =>
          cases hsub
          have hmoved : Kept p.submissions (p.setSubmission i (.awaiting a result)).submissions :=
            Kept.set hpoint rfl fun a ha => by cases ha
          exact .inr (.inr (.inr (hmoved.trans (kept_notifyOne _))))
      | registered | awaiting | cancelling | returning | finished => cases hsub
  | resolve i =>
      obtain ⟨point, hpoint, hsub⟩ := Option.bind_eq_some_iff.mp hstep
      cases point with
      | awaiting a result =>
          simp only [submissionStep] at hsub
          split at hsub
          case isTrue hcancelled =>
              cases hsub
              exact .inr (.inr (.inl ⟨i, a, result, hcancelled, hpoint, rfl⟩))
          case isFalse =>
              obtain ⟨r, -, rfl⟩ := Option.map_eq_some_iff.mp hsub
              exact .inr (.inr (.inr (Kept.set hpoint rfl fun a ha => by cases ha)))
      | registered | enqueued | cancelling | returning | finished => cases hsub
  | withdraw i =>
      obtain ⟨point, hpoint, hsub⟩ := Option.bind_eq_some_iff.mp hstep
      cases point with
      | cancelling a =>
          cases hsub
          exact .inr (.inr (.inr (Kept.set hpoint rfl fun a ha => by cases ha)))
      | registered | enqueued | awaiting | returning | finished => cases hsub
  | unregister i =>
      obtain ⟨point, hpoint, hsub⟩ := Option.bind_eq_some_iff.mp hstep
      cases point with
      | returning a result =>
          cases hsub
          exact .inr (.inl ⟨i, a, result, rfl, hpoint, rfl⟩)
      | registered | enqueued | awaiting | cancelling | finished => cases hsub
  | start i | answer i outcome | taskDecrement i | taskNotify i | taskSlotFreed i
  | taskRelease i =>
      obtain ⟨task, -, hgo⟩ := Option.bind_eq_some_iff.mp hstep
      exact .inr (.inr (.inr (kept_taskStep hgo)))
  | dispatch now => exact .inr (.inr (.inr (kept_dispatch hstep)))

/-- Submissions are never struck off the list. -/
theorem length_step (hstep : p.step ev = some p') :
    p.submissions.length ≤ p'.submissions.length := by
  obtain ⟨a, prompt, timeoutMs, priority, -, heq⟩ | ⟨i, a, r, -, -, heq⟩ | ⟨i, a, r, -, -, heq⟩ |
    hkept := submissions_of_step hstep
  · simp [heq]
  · simp [heq]
  · simp [heq]
  · exact hkept.length.ge

/-- A submission is cancelling only if its token was cancelled. -/
theorem cancelling_step (hstep : p.step ev = some p') {a : AgentId}
    (hpoint' : p'.submissions[j]? = some (.cancelling a)) :
    p.submissions[j]? = some (.cancelling a) ∨ j ∈ p.cancelled := by
  obtain ⟨a, prompt, timeoutMs, priority, -, heq⟩ | ⟨i, a', r, -, hpoint, heq⟩ |
    ⟨i, a', r, hcancelled, hpoint, heq⟩ | hkept := submissions_of_step hstep
  · rw [heq, List.getElem?_append] at hpoint'
    split at hpoint'
    case isTrue => exact .inl hpoint'
    case isFalse => cases List.mem_singleton.mp (List.mem_of_getElem? hpoint')
  · rw [heq] at hpoint'
    obtain ⟨-, hsame⟩ | hold := getElem?_set_cases hpoint hpoint'
    · cases hsame
    · exact .inl hold
  · rw [heq] at hpoint'
    obtain ⟨rfl, -⟩ | hold := getElem?_set_cases hpoint hpoint'
    · exact .inr hcancelled
    · exact .inl hold
  · obtain ⟨point, hpoint, -, hcancelling⟩ := hkept.point j _ hpoint'
    exact .inl (hcancelling a rfl ▸ hpoint)

theorem agentAt_unregister (hstep : p.step (.unregister j) = some p') : p'.agentAt j = none := by
  obtain ⟨point, hpoint, hsub⟩ := Option.bind_eq_some_iff.mp hstep
  cases point with
  | returning a result =>
      cases hsub
      simp [agentAt, setSubmission, (List.getElem?_eq_some_iff.mp hpoint).1, Submission.agent?]
  | registered | enqueued | awaiting | cancelling | finished => cases hsub

/-- A submission that has not returned after a step has just started, or had not before, and is
not the one that returns in the step. -/
theorem agentAt_step (hstep : p.step ev = some p') {a : AgentId}
    (hagent : p'.agentAt j = some a) :
    (∃ prompt timeoutMs priority, ev = .register a prompt timeoutMs priority ∧
      j = p.submissions.length) ∨
    (p.agentAt j = some a ∧ ev ≠ .unregister j) := by
  have hother : ev ≠ .unregister j := by
    rintro rfl
    exact absurd ((agentAt_unregister hstep).symm.trans hagent) (by simp)
  obtain ⟨point', hpoint', ha⟩ := Option.bind_eq_some_iff.mp hagent
  have hat : ∀ {point}, p.submissions[j]? = some point → point.agent? = some a →
      p.agentAt j = some a := fun h ha => by simp only [agentAt, h, Option.bind_some, ha]
  obtain ⟨a', prompt, timeoutMs, priority, rfl, heq⟩ | ⟨i, a', r, -, hpoint, heq⟩ |
    ⟨i, a', r, -, hpoint, heq⟩ | hkept := submissions_of_step hstep
  · rw [heq, List.getElem?_append] at hpoint'
    split at hpoint'
    case isTrue => exact .inr ⟨hat hpoint' ha, hother⟩
    case isFalse hnew =>
        obtain ⟨hlt, rfl⟩ := List.getElem?_eq_some_iff.mp hpoint'
        rw [List.length_singleton] at hlt
        simp only [List.getElem_singleton, Submission.agent?, Option.some.injEq] at ha
        exact .inl ⟨prompt, timeoutMs, priority, by rw [ha], by omega⟩
  · rw [heq] at hpoint'
    obtain ⟨-, rfl⟩ | hold := getElem?_set_cases hpoint hpoint'
    · cases ha
    · exact .inr ⟨hat hold ha, hother⟩
  · rw [heq] at hpoint'
    obtain ⟨rfl, rfl⟩ | hold := getElem?_set_cases hpoint hpoint'
    · exact .inr ⟨hat hpoint ha, hother⟩
    · exact .inr ⟨hat hold ha, hother⟩
  · obtain ⟨point, hpoint, hsame, -⟩ := hkept.point j _ hpoint'
    exact .inr ⟨hat hpoint (hsame ▸ ha), hother⟩

/-! ### The queue -/

/-- The agent and the submission of a request. -/
def ticket (e : QueueEntry) : AgentId × ℕ := (e.agentId, e.submission)

/-- Whoever waits after `try_enqueue` waited before, or is the new request. -/
theorem waiting_tryEnqueue {q q' : QueueState} {answer : QueueState.Admission}
    {prompt : List UInt8} {timeoutMs : ℕ} {priority : PriorityClass} {now : Instant}
    (hq : q.tryEnqueue agentId prompt timeoutMs i priority now = (answer, q'))
    {e : QueueEntry} (he : e ∈ q'.waiting) :
    e ∈ q.waiting ∨ e = q.newEntry agentId prompt timeoutMs i priority now := by
  obtain ⟨-, -, rfl⟩ | ⟨rest, evicted, -, -, -, hbatch, rfl⟩ | ⟨-, -, rfl⟩ :=
    QueueState.tryEnqueue_cases hq
  · exact .inl he
  · simp only [QueueState.waiting, hbatch, List.mem_append, List.mem_singleton] at he ⊢
    tauto
  · obtain rfl | hold := List.mem_cons.mp
      ((QueueState.waiting_pushBack _ priority _).mem_iff.mp he)
    · exact .inr rfl
    · exact .inl hold

/-- Whoever waits after a promotion pass waited before, maybe in another class. -/
theorem waiting_pass {q : QueueState} {now : Instant} {e' : QueueEntry}
    (he' : e' ∈ (q.applyStarvationPromotions now).waiting) :
    ∃ e ∈ q.waiting, ticket e' = ticket e := by
  rw [(QueueState.waiting_applyStarvationPromotions q now).mem_iff] at he'
  simp only [QueueState.waiting, List.mem_append, List.mem_map] at he' ⊢
  obtain (hs | ⟨e, hf, rfl⟩) | ⟨e, hb, rfl⟩ := he'
  · exact ⟨e', .inl (.inl hs), rfl⟩
  · refine ⟨e, .inl (.inr hf), ?_⟩
    simp only [QueueState.liftForeground]
    split <;> rfl
  · refine ⟨e, .inr hb, ?_⟩
    simp only [QueueState.liftBatch]
    split <;> rfl

theorem waiting_popNext {q q' : QueueState} {now : Instant} {answer : Option QueueEntry}
    (hq : q.popNext now = (answer, q')) {e' : QueueEntry} (he' : e' ∈ q'.waiting) :
    ∃ e ∈ q.waiting, ticket e' = ticket e := by
  have hwaiting := QueueState.waiting_popFront hq
  have hpass : e' ∈ (q.applyStarvationPromotions now).waiting := by
    rw [hwaiting]
    exact List.mem_append_right _ he'
  exact waiting_pass hpass

theorem queue_enqueue (p : InferencePool) (prompt : List UInt8) (timeoutMs : ℕ)
    (priority : PriorityClass) (now : Instant) :
    (p.enqueue i agentId prompt timeoutMs priority now).queue =
      (p.queue.tryEnqueue agentId prompt timeoutMs i priority now).2 := by
  simp only [enqueue]
  split
  case h_1 q hq | h_2 q hq => rw [hq, setSubmission]
  case h_3 q hq => rw [hq, sendResult_eq, setSubmission]

theorem waiting_pop (p : InferencePool) (now : Instant) :
    (p.pop now).queue.waiting = (p.queue.popNext now).2.waiting := by
  simp only [pop]
  split
  case h_1 q hq => rw [hq]
  case h_2 e q hq =>
      rw [hq]
      rfl

/-- **Step.** Whoever waits after a step waited before, or belongs to the submission that the
step admits. -/
theorem waiting_step (hstep : p.step ev = some p') {e' : QueueEntry}
    (he' : e' ∈ p'.queue.waiting) :
    (∃ e ∈ p.queue.waiting, ticket e' = ticket e) ∨
      p.agentAt e'.submission = some e'.agentId := by
  cases ev with
  | register a prompt timeoutMs priority | cancelOpen a =>
      cases hstep
      exact .inl ⟨e', he', rfl⟩
  | cancelClose i =>
      obtain ⟨a, -, rfl⟩ := Option.map_eq_some_iff.mp hstep
      exact .inl ⟨e', he', rfl⟩
  | enqueue i now =>
      obtain ⟨point, hpoint, hsub⟩ := Option.bind_eq_some_iff.mp hstep
      cases point with
      | registered a prompt timeoutMs priority =>
          cases hsub
          rw [queue_enqueue] at he'
          obtain hold | rfl := waiting_tryEnqueue (Prod.eta _).symm he'
          · exact .inl ⟨e', hold, rfl⟩
          · right
            simp only [QueueState.newEntry, agentAt, hpoint]
            rfl
      | enqueued | awaiting | cancelling | returning | finished => cases hsub
  | announce i | resolve i | withdraw i | unregister i =>
      obtain ⟨point, -, hsub⟩ := Option.bind_eq_some_iff.mp hstep
      rw [submissionStep_queue (fun _ _ heq => by cases heq) hsub] at he'
      exact .inl ⟨e', he', rfl⟩
  | start i | answer i outcome | taskDecrement i | taskNotify i | taskSlotFreed i
  | taskRelease i =>
      obtain ⟨task, -, hgo⟩ := Option.bind_eq_some_iff.mp hstep
      obtain ⟨n, hqueue⟩ := taskStep_queue hgo
      rw [hqueue] at he'
      exact .inl ⟨e', he', rfl⟩
  | dispatch now =>
      change p.dispatch now = some p' at hstep
      simp only [dispatch] at hstep
      split at hstep
      case h_1 => cases hstep
      case h_4 =>
          cases hstep
          rw [waiting_pop] at he'
          exact .inl (waiting_popNext (Prod.eta _).symm he')
      case h_2 | h_3 => split at hstep <;> cases hstep <;> exact .inl ⟨e', he', rfl⟩
      case h_5 | h_6 =>
          cases hstep
          exact .inl ⟨e', he', rfl⟩

end InferencePool

/-! ### The calls of cancel -/

/-- A call of `cancel`, with what its first critical section finds: how many submissions have
started, which of the agent's have not returned, and the token that the table holds. -/
structure CancelCall where
  agentId : AgentId
  started : ℕ
  unfinished : List ℕ
  held : Option ℕ
  deriving DecidableEq, Repr

/-- A pool, its calls of `cancel` between their critical sections and those that have returned.
For a cancelled token, `since` is how many submissions had started when the call of `cancel` took
its first lock that cancelled it, by itself or through a submission that it had cancelled. -/
structure CancelHistory where
  pool : InferencePool
  pending : List CancelCall
  returned : List CancelCall
  since : ℕ → Option ℕ

namespace CancelHistory

open InferencePool

/-- A pool that has seen no request. -/
def new (maxConcurrent queueCapacity maxStarvationMs : ℕ) : CancelHistory :=
  { pool := newWithQueueParams maxConcurrent queueCapacity maxStarvationMs
    pending := []
    returned := []
    since := fun _ => none }

/-- How many submissions had started when the call took its first lock that a step carries
out. -/
def blame (h : CancelHistory) : PoolEvent → Option ℕ
  | .cancelOpen _ => some h.pool.submissions.length
  | .cancelClose i => h.pending[i]?.map (·.started)
  | .withdraw i => h.since i
  | _ => none

/-- The calls between their critical sections after a step. -/
def pendingAfter (h : CancelHistory) : PoolEvent → List CancelCall
  | .cancelOpen agentId => h.pending ++
      [{ agentId
         started := h.pool.submissions.length
         unfinished := h.pool.unfinished agentId
         held := h.pool.active.lookup agentId }]
  | .cancelClose i => h.pending.eraseIdx i
  | _ => h.pending

/-- The calls that have returned after a step. -/
def returnedAfter (h : CancelHistory) : PoolEvent → List CancelCall
  | .cancelClose i => h.returned ++ h.pending[i]?.toList
  | _ => h.returned

/-- A step of the pool, on the record. -/
def step (h : CancelHistory) (ev : PoolEvent) : Option CancelHistory :=
  (h.pool.step ev).map fun pool =>
    { pool
      pending := h.pendingAfter ev
      returned := h.returnedAfter ev
      since := fun t => if t ∈ h.pool.hits ev ∧ h.since t = none then h.blame ev else h.since t }

/-- Every call that has returned has cancelled the requests of its agent that were unfinished at
its first lock, and no cancelled request started later than the first lock of the call that
cancelled it. -/
def CancelsExactly (h : CancelHistory) : Prop :=
  (∀ call ∈ h.returned, ∀ s ∈ call.unfinished, s ∈ h.pool.cancelled) ∧
    ∀ t n, h.since t = some n → t < n

/-- The condition on a step. At the second lock, the queue holds every request that was unfinished
at the first lock and whose token the table did not hold then, unless it has been cancelled in
the meantime; and no request that started later waits in the queue, neither then nor when a
submission that was cancelled sweeps it. -/
def CancelSees (h : CancelHistory) : PoolEvent → Prop
  | .cancelClose i => ∀ call, h.pending[i]? = some call →
      (∀ s ∈ call.unfinished, call.held ≠ some s →
        s ∈ h.pool.queuedOf call.agentId ∨ s ∈ h.pool.cancelled) ∧
      ∀ t ∈ h.pool.queuedOf call.agentId, t ∉ h.pool.cancelled → t < call.started
  | .withdraw i => ∀ agentId n, h.pool.submissions[i]? = some (.cancelling agentId) →
      h.since i = some n → ∀ t ∈ h.pool.queuedOf agentId, t ∉ h.pool.cancelled → t < n
  | _ => True

/-- What the record says about the pool. -/
structure Recorded (h : CancelHistory) : Prop where
  cancels : h.pool.cancels = h.pending.map (·.agentId)
  held : ∀ call ∈ h.pending, ∀ s, call.held = some s → s ∈ h.pool.cancelled
  since : ∀ t, h.since t = none ↔ t ∉ h.pool.cancelled
  cancelling : ∀ i a, h.pool.submissions[i]? = some (.cancelling a) → i ∈ h.pool.cancelled
  table : ∀ a t, h.pool.active.lookup a = some t → t < h.pool.submissions.length

variable {h h' : CancelHistory} {ev : PoolEvent}

theorem Recorded.new (maxConcurrent queueCapacity maxStarvationMs : ℕ) :
    (new maxConcurrent queueCapacity maxStarvationMs).Recorded := by
  constructor <;> simp [CancelHistory.new, newWithQueueParams]

theorem exactly_new (maxConcurrent queueCapacity maxStarvationMs : ℕ) :
    (new maxConcurrent queueCapacity maxStarvationMs).CancelsExactly := by
  constructor <;> simp [CancelHistory.new]

/-- Whom a step blames, it blames for a call of `cancel`. -/
theorem Recorded.blame_isSome (hrec : h.Recorded) {pool : InferencePool}
    (hpool : h.pool.step ev = some pool) (hhits : h.pool.hits ev ≠ []) :
    ∃ n, h.blame ev = some n := by
  cases ev with
  | cancelOpen a => exact ⟨_, rfl⟩
  | cancelClose i =>
      obtain ⟨a, ha, -⟩ := Option.map_eq_some_iff.mp hpool
      rw [hrec.cancels, List.getElem?_map] at ha
      obtain ⟨call, hcall, -⟩ := Option.map_eq_some_iff.mp ha
      exact ⟨call.started, by simp [blame, hcall]⟩
  | withdraw i =>
      obtain ⟨point, hpoint, hsub⟩ := Option.bind_eq_some_iff.mp hpool
      cases point with
      | cancelling a =>
          have hcancelled := hrec.cancelling i a hpoint
          exact Option.ne_none_iff_exists'.mp fun hnone => (hrec.since i).mp hnone hcancelled
      | registered | enqueued | awaiting | returning | finished => cases hsub
  | register | enqueue | announce | resolve | unregister | start | answer | taskDecrement
  | taskNotify | taskSlotFreed | taskRelease | dispatch => exact absurd rfl hhits

/-- **Step.** The record stays true. -/
theorem Recorded.step (hrec : h.Recorded) (hstep : h.step ev = some h') : h'.Recorded := by
  obtain ⟨pool, hpool, rfl⟩ := Option.map_eq_some_iff.mp hstep
  have heffect := effect_of_step hpool
  have hmore : ∀ t ∈ h.pool.cancelled, t ∈ pool.cancelled := fun t ht => by
    rw [heffect.cancelled]
    exact List.mem_append_left _ ht
  refine ⟨?_, ?_, ?_, ?_, ?_⟩
  · rw [heffect.cancels]
    cases ev with
    | cancelOpen a => simp [pendingAfter, cancelsAfter, hrec.cancels]
    | cancelClose i => simp [pendingAfter, cancelsAfter, hrec.cancels, List.eraseIdx_map]
    | _ => exact hrec.cancels
  · intro call hcall s hs
    cases ev with
    | cancelOpen a =>
        obtain hold | hnew := List.mem_append.mp hcall
        · exact hmore s (hrec.held call hold s hs)
        · obtain rfl := List.mem_singleton.mp hnew
          rw [heffect.cancelled]
          exact List.mem_append_right _ (Option.mem_toList.mpr hs)
    | cancelClose i => exact hmore s (hrec.held call (List.mem_of_mem_eraseIdx hcall) s hs)
    | _ => exact hmore s (hrec.held call hcall s hs)
  · intro t
    simp only [heffect.cancelled, List.mem_append, not_or]
    split_ifs with hhit
    · obtain ⟨n, hn⟩ := hrec.blame_isSome hpool (List.ne_nil_of_mem hhit.1)
      simp [hn, hhit.1]
    · rw [hrec.since t]
      constructor
      · intro hfree
        exact ⟨hfree, fun hmem => hhit ⟨hmem, (hrec.since t).mpr hfree⟩⟩
      · exact And.left
  · intro i a hpoint
    obtain hold | hcancelled := cancelling_step hpool hpoint
    · exact hmore i (hrec.cancelling i a hold)
    · exact hmore i hcancelled
  · intro a t hlookup
    have hlength := length_step hpool
    rw [heffect.active] at hlookup
    cases ev with
    | register a' prompt timeoutMs priority =>
        cases hpool
        simp only [activeAfter] at hlookup
        simp only [List.length_append, List.length_singleton]
        obtain rfl | hne := eq_or_ne a a'
        · rw [AList.lookup_insert] at hlookup
          have hlast := Option.some.inj hlookup
          omega
        · rw [AList.lookup_insert_ne hne] at hlookup
          have hlt := hrec.table a t hlookup
          omega
    | unregister i => exact (hrec.table a t (lookup_unregister hlookup).1).trans_le hlength
    | _ => exact (hrec.table a t hlookup).trans_le hlength

/-- The calls that have returned miss nobody afterwards either. -/
theorem missed_iff {pool : InferencePool} (hexact : h.CancelsExactly)
    (heffect : h.pool.Effect ev pool) :
    (∀ call ∈ h.returnedAfter ev, ∀ s ∈ call.unfinished, s ∈ pool.cancelled) ↔
      ∀ i call, ev = .cancelClose i → h.pending[i]? = some call →
        ∀ s ∈ call.unfinished, s ∈ h.pool.cancelled ∨ s ∈ h.pool.hits ev := by
  simp only [heffect.cancelled, List.mem_append]
  constructor
  · rintro hall i call rfl hcall s hs
    refine hall call ?_ s hs
    simp [returnedAfter, hcall]
  · intro hclosed call hcall s hs
    cases ev with
    | cancelClose i =>
        obtain hold | hnew := List.mem_append.mp hcall
        · exact .inl (hexact.1 call hold s hs)
        · exact hclosed i call rfl (Option.mem_toList.mp hnew) s hs
    | _ => exact .inl (hexact.1 call hcall s hs)

/-- No step makes a request that was cancelled before one that started too late. -/
theorem later_iff (hrec : h.Recorded) (hexact : h.CancelsExactly) :
    (∀ t n, (if t ∈ h.pool.hits ev ∧ h.since t = none then h.blame ev else h.since t) = some n →
        t < n) ↔
      ∀ t ∈ h.pool.hits ev, t ∉ h.pool.cancelled → ∀ n, h.blame ev = some n → t < n := by
  constructor
  · intro hall t hhit hfree n hn
    refine hall t n ?_
    rw [if_pos ⟨hhit, (hrec.since t).mpr hfree⟩, hn]
  · intro hall t n hsince
    split_ifs at hsince with hhit
    · exact hall t hhit.1 ((hrec.since t).mp hhit.2) n hsince
    · exact hexact.2 t n hsince

/-- **Step.** From a state in which every call hits exactly the requests that exist, a step leads
to another one exactly if it meets the condition. -/
theorem Recorded.exactly_iff (hrec : h.Recorded) (hexact : h.CancelsExactly)
    (hstep : h.step ev = some h') : h'.CancelsExactly ↔ h.CancelSees ev := by
  obtain ⟨pool, hpool, rfl⟩ := Option.map_eq_some_iff.mp hstep
  have heffect := effect_of_step hpool
  refine (and_congr (missed_iff hexact heffect) (later_iff hrec hexact)).trans ?_
  cases ev with
  | cancelOpen a =>
      refine iff_of_true ⟨by simp, fun t hhit hfree n hn => ?_⟩ trivial
      obtain rfl := Option.some.inj hn
      exact hrec.table a t (Option.mem_toList.mp hhit)
  | cancelClose i =>
      obtain ⟨a, ha, -⟩ := Option.map_eq_some_iff.mp hpool
      have hhits : h.pool.hits (.cancelClose i) = h.pool.queuedOf a := by simp [hits, ha]
      rw [hrec.cancels, List.getElem?_map] at ha
      obtain ⟨call, hcall, rfl⟩ := Option.map_eq_some_iff.mp ha
      have hblame : h.blame (.cancelClose i) = some call.started := by simp [blame, hcall]
      rw [hhits]
      constructor
      · rintro ⟨hmissed, hlater⟩ call' hcall'
        obtain rfl := Option.some.inj (hcall.symm.trans hcall')
        refine ⟨fun s hs _ => (hmissed i call rfl hcall s hs).symm, fun t ht hfree => ?_⟩
        exact hlater t ht hfree call.started hblame
      · intro hsees
        obtain ⟨hqueued, hstarted⟩ := hsees call hcall
        refine ⟨fun i' call' hi hcall' s hs => ?_, fun t ht hfree n hn => ?_⟩
        · cases hi
          obtain rfl := Option.some.inj (hcall.symm.trans hcall')
          by_cases hheld : call.held = some s
          · exact .inl (hrec.held call (List.mem_of_getElem? hcall) s hheld)
          · exact (hqueued s hs hheld).symm
        · obtain rfl := Option.some.inj (hblame.symm.trans hn)
          exact hstarted t ht hfree
  | withdraw i =>
      obtain ⟨point, hpoint, hsub⟩ := Option.bind_eq_some_iff.mp hpool
      cases point with
      | cancelling a =>
          have hhits : h.pool.hits (.withdraw i) = h.pool.queuedOf a := by simp [hits, hpoint]
          rw [hhits]
          constructor
          · rintro ⟨-, hlater⟩ a' n hpoint' hsince t ht hfree
            rw [hpoint] at hpoint'
            cases hpoint'
            exact hlater t ht hfree n hsince
          · intro hsees
            refine ⟨by simp, fun t ht hfree n hn => ?_⟩
            exact hsees a n hpoint hn t ht hfree
      | registered | enqueued | awaiting | returning | finished => cases hsub
  | register | enqueue | announce | resolve | unregister | start | answer | taskDecrement
  | taskNotify | taskSlotFreed | taskRelease | dispatch =>
      refine iff_of_true ⟨by simp, fun t hhit => ?_⟩ trivial
      cases hhit

/-- The condition asks nothing of an event that is not enabled. -/
theorem Recorded.sees_of_stuck (hrec : h.Recorded) (hstuck : h.step ev = none) :
    h.CancelSees ev := by
  have hnone : h.pool.step ev = none := Option.map_eq_none_iff.mp hstuck
  cases ev with
  | cancelClose i =>
      intro call hcall
      have hagent : h.pool.cancels[i]? = some call.agentId := by
        rw [hrec.cancels, List.getElem?_map, hcall]
        rfl
      simp [InferencePool.step, hagent] at hnone
  | withdraw i =>
      intro a n hpoint
      simp [InferencePool.step, hpoint, submissionStep] at hnone
  | register | enqueue | announce | resolve | unregister | cancelOpen | start | answer
  | taskDecrement | taskNotify | taskSlotFreed | taskRelease | dispatch => exact trivial

/-- **Exactness**, for any submissions, cancellations, completions, schedule and instants: in every
state of a run, every call of `cancel` hits exactly the requests that exist, exactly if the sweeps
of all its steps find in the queue what the table did not hold, and nothing that started later. -/
theorem cancel_exact_iff (maxConcurrent queueCapacity maxStarvationMs : ℕ)
    (evs : List PoolEvent) :
    (∀ pre post h, evs = pre ++ post →
        run step (new maxConcurrent queueCapacity maxStarvationMs) pre = some h →
          h.CancelsExactly) ↔
      Along step CancelSees (new maxConcurrent queueCapacity maxStarvationMs) evs := by
  have hkept : ∀ h ev h', Recorded h → step h ev = some h' → Recorded h' :=
    fun h ev h' hrec hstep => hrec.step hstep
  have hiff : ∀ h ev h', Recorded h → h.CancelsExactly → step h ev = some h' →
      (h'.CancelsExactly ↔ h.CancelSees ev) :=
    fun h ev h' hrec hexact hstep => hrec.exactly_iff hexact hstep
  have hstuck : ∀ h ev, Recorded h → step h ev = none → h.CancelSees ev :=
    fun h ev hrec hstuck => hrec.sees_of_stuck hstuck
  exact always_iff_along hkept hiff hstuck (.new _ _ _) (exactly_new _ _ _) evs

/-- An agent submits twice: its first request is being served when the second one takes its place
in the table. -/
def overwritten : List PoolEvent :=
  [.register 7 [] 0 .foreground, .enqueue 0 0, .announce 0, .dispatch 0, .dispatch 0, .dispatch 0,
    .dispatch 0, .start 0, .register 7 [] 0 .foreground, .cancelOpen 7, .cancelClose 0]

/-- An agent submits between the two critical sections of a call. -/
def submittedBetween : List PoolEvent :=
  [.cancelOpen 7, .register 7 [] 0 .foreground, .enqueue 0 0, .cancelClose 0]

/-- A call misses a request that it should hit, and another one hits a request that started after
its first lock. -/
theorem cancel_misses_and_overreaches :
    (∃ h, run step (new 1 4 10000) overwritten = some h ∧
      (∃ call ∈ h.returned, 0 ∈ call.unfinished) ∧ 0 ∉ h.pool.cancelled ∧ ¬ h.CancelsExactly) ∧
    ∃ h, run step (new 1 4 10000) submittedBetween = some h ∧
      0 ∈ h.pool.cancelled ∧ h.since 0 = some 0 ∧ ¬ h.CancelsExactly := by
  have hmissed : ((run step (new 1 4 10000) overwritten).any fun h =>
      (∃ call ∈ h.returned, 0 ∈ call.unfinished) ∧ 0 ∉ h.pool.cancelled) = true := by
    decide +kernel
  have hlater : ((run step (new 1 4 10000) submittedBetween).any fun h =>
      0 ∈ h.pool.cancelled ∧ h.since 0 = some 0) = true := by decide +kernel
  constructor
  · obtain ⟨h, hrun, hend⟩ := (Option.any_eq_true _ _).mp hmissed
    obtain ⟨⟨call, hcall, hunfinished⟩, hfree⟩ := of_decide_eq_true hend
    refine ⟨h, hrun, ⟨call, hcall, hunfinished⟩, hfree, fun hexact => ?_⟩
    exact hfree (hexact.1 call hcall 0 hunfinished)
  · obtain ⟨h, hrun, hend⟩ := (Option.any_eq_true _ _).mp hlater
    obtain ⟨hhit, hsince⟩ := of_decide_eq_true hend
    exact ⟨h, hrun, hhit, hsince, fun hexact => absurd (hexact.2 0 0 hsince) (Nat.lt_irrefl 0)⟩

/-! ### Submissions one after another -/

/-- An agent submits only after its submissions have returned, and not during a call of `cancel`
for it. -/
def OneAfterAnother (h : CancelHistory) : PoolEvent → Prop
  | .register agentId _ _ _ =>
      h.pool.unfinished agentId = [] ∧ ∀ call ∈ h.pending, call.agentId ≠ agentId
  | _ => True

/-- Whatever belongs to the agent of a call started before it, and the table held its unfinished
submission. -/
structure CallCovers (p : InferencePool) (call : CancelCall) : Prop where
  held : ∀ s ∈ call.unfinished, call.held = some s
  waiting : ∀ e ∈ p.queue.waiting, e.agentId = call.agentId → e.submission < call.started
  unfinished : ∀ i, p.agentAt i = some call.agentId → i < call.started

/-- The table holds the unfinished submission of every agent, and what waits for the agent did not
start later. -/
structure Sequential (h : CancelHistory) : Prop where
  table : ∀ i a, h.pool.agentAt i = some a → h.pool.active.lookup a = some i
  started : ∀ e ∈ h.pool.queue.waiting, e.submission < h.pool.submissions.length
  waiting : ∀ e ∈ h.pool.queue.waiting, ∀ i, h.pool.agentAt i = some e.agentId →
    e.submission ≤ i
  calls : ∀ call ∈ h.pending, CallCovers h.pool call

theorem lt_of_agentAt {p : InferencePool} {i : ℕ} {a : AgentId} (h : p.agentAt i = some a) :
    i < p.submissions.length := by
  obtain ⟨point, hpoint, -⟩ := Option.bind_eq_some_iff.mp h
  exact (List.getElem?_eq_some_iff.mp hpoint).1

theorem Sequential.unique (hseq : h.Sequential) {i j : ℕ} {a : AgentId}
    (hi : h.pool.agentAt i = some a) (hj : h.pool.agentAt j = some a) : i = j :=
  Option.some.inj ((hseq.table i a hi).symm.trans (hseq.table j a hj))

theorem Sequential.new (maxConcurrent queueCapacity maxStarvationMs : ℕ) :
    (new maxConcurrent queueCapacity maxStarvationMs).Sequential := by
  constructor <;>
    simp [CancelHistory.new, newWithQueueParams, agentAt, QueueState.waiting, QueueState.new]

/-- The table after a step. -/
theorem Sequential.table_step (hseq : h.Sequential) (hone : h.OneAfterAnother ev)
    {pool : InferencePool} (hpool : h.pool.step ev = some pool) {i : ℕ} {a : AgentId}
    (hagent : pool.agentAt i = some a) : pool.active.lookup a = some i := by
  rw [(effect_of_step hpool).active]
  obtain ⟨prompt, timeoutMs, priority, rfl, rfl⟩ | ⟨hold, hother⟩ := agentAt_step hpool hagent
  · exact AList.lookup_insert _
  have htable := hseq.table i a hold
  cases ev with
  | register a' prompt timeoutMs priority =>
      have hne : a ≠ a' := by
        rintro rfl
        have hmem := mem_unfinished.mpr hold
        rw [hone.1] at hmem
        cases hmem
      exact (AList.lookup_insert_ne hne).trans htable
  | unregister j =>
      simp only [activeAfter]
      cases hreturns : h.pool.agentAt j with
      | none => exact htable
      | some a' =>
          have hne : a ≠ a' := by
            rintro rfl
            exact hother (congrArg PoolEvent.unregister (hseq.unique hreturns hold))
          exact (AList.lookup_erase_ne hne).trans htable
  | _ => exact htable

/-- What waits for an agent after a step waited before, or is its unfinished submission. -/
theorem Sequential.waiting_le (hseq : h.Sequential) {pool : InferencePool}
    (hpool : h.pool.step ev = some pool) {e : QueueEntry} (he : e ∈ pool.queue.waiting) :
    e.submission < h.pool.submissions.length ∧
      ∀ i, h.pool.agentAt i = some e.agentId → e.submission ≤ i := by
  obtain ⟨e₀, he₀, hticket⟩ | hadmitted := waiting_step hpool he
  · obtain ⟨hagent, hsub⟩ := Prod.mk.inj hticket
    rw [hagent, hsub]
    exact ⟨hseq.started e₀ he₀, hseq.waiting e₀ he₀⟩
  · exact ⟨lt_of_agentAt hadmitted, fun i hi => (hseq.unique hadmitted hi).le⟩

/-- A call that is not over keeps covering its agent. -/
theorem CallCovers.step {call : CancelCall} (hcovers : CallCovers h.pool call)
    (hpending : call ∈ h.pending) (hone : h.OneAfterAnother ev) {pool : InferencePool}
    (hpool : h.pool.step ev = some pool) : CallCovers pool call := by
  refine ⟨hcovers.held, fun e he hagent => ?_, fun i hi => ?_⟩
  · obtain ⟨e₀, he₀, hticket⟩ | hadmitted := waiting_step hpool he
    · obtain ⟨hsame, hsub⟩ := Prod.mk.inj hticket
      rw [hsub]
      exact hcovers.waiting e₀ he₀ (hsame.symm.trans hagent)
    · exact hcovers.unfinished _ (hadmitted.trans (congrArg some hagent))
  · obtain ⟨prompt, timeoutMs, priority, rfl, -⟩ | ⟨hold, -⟩ := agentAt_step hpool hi
    · exact absurd rfl (hone.2 call hpending)
    · exact hcovers.unfinished i hold

/-- **Step.** -/
theorem Sequential.step (hseq : h.Sequential) (hone : h.OneAfterAnother ev)
    (hstep : h.step ev = some h') : h'.Sequential := by
  obtain ⟨pool, hpool, rfl⟩ := Option.map_eq_some_iff.mp hstep
  refine ⟨fun i a hagent => hseq.table_step hone hpool hagent, fun e he => ?_, fun e he i hi => ?_,
    fun call hcall => ?_⟩
  · exact (hseq.waiting_le hpool he).1.trans_le (length_step hpool)
  · obtain ⟨hstarted, hle⟩ := hseq.waiting_le hpool he
    obtain ⟨prompt, timeoutMs, priority, -, rfl⟩ | ⟨hold, -⟩ := agentAt_step hpool hi
    · exact hstarted.le
    · exact hle i hold
  · cases ev with
    | cancelOpen a =>
        obtain hold | hnew := List.mem_append.mp hcall
        · exact (hseq.calls call hold).step hold hone hpool
        · obtain rfl := List.mem_singleton.mp hnew
          cases hpool
          exact ⟨fun s hs => hseq.table s a (mem_unfinished.mp hs), fun e he _ => hseq.started e he,
            fun i hi => lt_of_agentAt (p := h.pool) hi⟩
    | cancelClose i =>
        have hold := List.mem_of_mem_eraseIdx hcall
        exact (hseq.calls call hold).step hold hone hpool
    | _ => exact (hseq.calls call hcall).step hcall hone hpool

/-- The sweeps of sequential submissions find what they should. -/
theorem Sequential.sees (hseq : h.Sequential) (hexact : h.CancelsExactly) (ev : PoolEvent) :
    h.CancelSees ev := by
  cases ev with
  | cancelClose i =>
      intro call hcall
      have hcovers := hseq.calls call (List.mem_of_getElem? hcall)
      refine ⟨fun s hs hheld => absurd (hcovers.held s hs) hheld, fun t ht _ => ?_⟩
      obtain ⟨e, he, hagent, rfl⟩ := mem_queuedOf.mp ht
      exact hcovers.waiting e he hagent
  | withdraw i =>
      intro a n hpoint hsince t ht _
      obtain ⟨e, he, rfl, rfl⟩ := mem_queuedOf.mp ht
      have hagent : h.pool.agentAt i = some e.agentId := by
        simp only [agentAt, hpoint, Option.bind_some, Submission.agent?]
      exact (hseq.waiting e he i hagent).trans_lt (hexact.2 i n hsince)
  | _ => trivial

/-- **Exactness for sequential submissions.** If the submissions of an agent follow one another
and none starts during a call of `cancel` for it, every call hits exactly the requests that
exist. -/
theorem sequential_exact {maxConcurrent queueCapacity maxStarvationMs : ℕ} {evs : List PoolEvent}
    (hone : Along step OneAfterAnother (new maxConcurrent queueCapacity maxStarvationMs) evs)
    (hrun : run step (new maxConcurrent queueCapacity maxStarvationMs) evs = some h) :
    h.CancelsExactly := by
  have hkept : ∀ h ev h', Recorded h ∧ h.CancelsExactly ∧ h.Sequential → h.OneAfterAnother ev →
      step h ev = some h' → Recorded h' ∧ h'.CancelsExactly ∧ h'.Sequential := by
    rintro h ev h' ⟨hrec, hexact, hseq⟩ hone hstep
    exact ⟨hrec.step hstep, (hrec.exactly_iff hexact hstep).mpr (hseq.sees hexact ev),
      hseq.step hone hstep⟩
  have hnew := And.intro (exactly_new maxConcurrent queueCapacity maxStarvationMs)
    (Sequential.new maxConcurrent queueCapacity maxStarvationMs)
  exact (run_invariant_along hkept ⟨.new _ _ _, hnew⟩ hone hrun).2.1

end CancelHistory

end Torpor
