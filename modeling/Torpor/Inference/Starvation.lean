import Torpor.Inference.Discipline

/-!
# The Order of Starved Requests

A promotion pass keeps the order of the requests that it lifts, and puts them in front of all
that wait in the deque above: also in front of those that an earlier pass has lifted there. As
long as every pass finds none of them waiting, the promoted requests of a class are served in
the order of their admission.

## Main results

* `RisenInOrder.applyStarvationPromotions`: a pass that lifts alone keeps the order.
* `QueueHistory.starved_in_order`: the order of service along every run of such passes.
* `QueueHistory.starved_overtaken`: two passes, and a request that overtakes an earlier one.
-/

namespace Torpor

open Machine

namespace QueueEntry

/-- A promoted request of a class. -/
def risen (priority : PriorityClass) (e : QueueEntry) : Bool :=
  e.promoted && e.originalClass == priority

variable {e : QueueEntry} {priority : PriorityClass}

theorem risen_eq_true : e.risen priority = true ↔
    e.promoted = true ∧ e.originalClass = priority := by
  simp only [risen, Bool.and_eq_true, beq_iff_eq]

@[simp] theorem risen_promote (e : QueueEntry) (c priority : PriorityClass) :
    (e.promote c).risen priority = (e.originalClass == priority) := by
  simp only [risen, promoted_promote, originalClass_promote, Bool.true_and]

end QueueEntry

namespace QueueState

/-- The promoted requests of every class wait in the order of their admission. -/
def RisenInOrder (q : QueueState) : Prop :=
  ∀ priority, priority ≠ .supervisor → ((q.deque priority.promoted).filter
    (·.risen priority)).Pairwise fun a b => a.admissionSeq < b.admissionSeq

/-- A pass lifts no request of a class of which a promoted one still waits. -/
def LiftsAlone (q : QueueState) (now : Instant) : Prop :=
  ∀ e ∈ q.waiting, q.starved now e = true → e.originalClass ≠ .supervisor →
    ∀ e' ∈ q.waiting, e'.risen e.originalClass = false

instance (q : QueueState) (now : Instant) : Decidable (q.LiftsAlone now) :=
  inferInstanceAs (Decidable (∀ e ∈ q.waiting, _))

variable {q q' : QueueState} {l : QueueLog} {now : Instant} {priority : PriorityClass}
  {e e' : QueueEntry}

/-- Deques that lose requests, and get requests that are not promoted, keep the order. -/
theorem RisenInOrder.of_sublist (h : q.RisenInOrder)
    (hdeque : ∀ c, ((q'.deque c).filter (·.promoted)).Sublist (q.deque c)) :
    q'.RisenInOrder := by
  intro c hc
  have hsub := (hdeque c.promoted).filter (·.risen c)
  have hsame : ((q'.deque c.promoted).filter (·.promoted)).filter (·.risen c) =
      (q'.deque c.promoted).filter (·.risen c) := by
    rw [List.filter_filter]
    refine List.filter_congr fun e _ => ?_
    cases hp : e.promoted <;> simp [QueueEntry.risen, hp]
  rw [hsame] at hsub
  exact (h c hc).sublist hsub

/-- Admission lets in no promoted request. -/
theorem deque_tryEnqueue_promoted {answer : Admission} {agentId : AgentId}
    {prompt : List UInt8} {timeoutMs submission : ℕ}
    (hq : q.tryEnqueue agentId prompt timeoutMs submission priority now = (answer, q'))
    (c : PriorityClass) : ((q'.deque c).filter (·.promoted)).Sublist (q.deque c) := by
  have hentry : ([q.newEntry agentId prompt timeoutMs submission priority now].filter
      (·.promoted)) = [] := rfl
  obtain ⟨-, -, rfl⟩ | ⟨rest, evicted, -, -, -, hbatch, rfl⟩ | ⟨-, -, rfl⟩ :=
    tryEnqueue_cases hq
  · cases c <;> exact List.filter_sublist
  · cases c with
    | supervisor =>
        simp only [deque, List.filter_append, hentry, List.append_nil]
        exact List.filter_sublist
    | foreground => exact List.filter_sublist
    | batch =>
        simp only [deque, hbatch]
        exact List.filter_sublist.trans (List.sublist_append_left _ _)
  · have hsame : ({ q with
        admissionCounter := q.admissionCounter + 1
        totalAdmitted := q.totalAdmitted + 1 } : QueueState).deque c = q.deque c := by
      cases c <;> rfl
    rw [deque_pushBack, hsame, List.filter_append]
    split_ifs
    · rw [hentry, List.append_nil]
      exact List.filter_sublist
    · rw [List.filter_nil, List.append_nil]
      exact List.filter_sublist

/-- Admission evicts from the batch deque only. -/
theorem mem_deque_tryEnqueue {answer : Admission} {agentId : AgentId} {prompt : List UInt8}
    {timeoutMs submission : ℕ}
    (hq : q.tryEnqueue agentId prompt timeoutMs submission priority now = (answer, q'))
    {c : PriorityClass} (hc : c ≠ .batch) (he : e ∈ q.deque c) : e ∈ q'.deque c := by
  obtain ⟨-, -, rfl⟩ | ⟨rest, evicted, -, -, -, -, rfl⟩ | ⟨-, -, rfl⟩ := tryEnqueue_cases hq
  · cases c <;> exact he
  · cases c with
    | supervisor => exact List.mem_append_left _ he
    | foreground => exact he
    | batch => exact absurd rfl hc
  · rw [deque_pushBack]
    exact List.mem_append_left _ (by cases c <;> exact he)

theorem deque_popFront_sublist {answer : Option QueueEntry} (hq : q.popFront = (answer, q'))
    (c : PriorityClass) : (q'.deque c).Sublist (q.deque c) := by
  cases answer with
  | none =>
      obtain ⟨rfl, -⟩ := popFront_eq_none hq
      exact .refl _
  | some e =>
      obtain ⟨c', hfront, hother, -⟩ := deque_popFront hq
      obtain rfl | hne := eq_or_ne c c'
      · rw [hfront]
        exact List.sublist_cons_self e _
      · rw [hother c hne]

end QueueState

open QueueState

namespace Disciplined

variable {q q' : QueueState} {l : QueueLog} {now : Instant} {priority : PriorityClass}
  {e e' : QueueEntry}

/-- A promoted request waits one class above the one it was admitted to. -/
theorem mem_deque_of_risen (h : Disciplined q l) (he : e ∈ q.waiting)
    (hrisen : e.risen priority = true) :
    priority ≠ .supervisor ∧ e.effectiveClass = priority.promoted ∧
      e ∈ q.deque priority.promoted := by
  obtain ⟨hpromoted, rfl⟩ := QueueEntry.risen_eq_true.mp hrisen
  obtain ⟨c, hmem⟩ := mem_waiting.mp he
  obtain ⟨hnot, -⟩ | ⟨-, hclass, heffective⟩ := h.graded e
    (List.mem_append_left _ (List.mem_append_left _ he))
  · exact absurd (hpromoted.symm.trans hnot) (by decide)
  · refine ⟨hclass, heffective, ?_⟩
    rw [← heffective, h.seated c e hmem]
    exact hmem

/-- The requests that a pass lifts out of a deque are in the order of their admission. -/
theorem lifted_sorted (h : Disciplined q l) (priority c : PriorityClass)
    {p : QueueEntry → Bool} (hp : ∀ e, p e = true → e.promoted = false) :
    (((q.deque priority).filter p).map (·.promote c)).Pairwise
      fun a b => a.admissionSeq < b.admissionSeq := by
  have hdirect : (q.deque priority).filter p =
      ((q.deque priority).filter (·.direct priority)).filter p := by
    rw [List.filter_filter]
    refine List.filter_congr fun e he => ?_
    cases hpe : p e with
    | false => rfl
    | true =>
        have hnot := hp e hpe
        simp [QueueEntry.direct, hnot, h.originalClass_eq he hnot]
  have hordered := h.ordered priority
  rw [List.filter_append] at hordered
  rw [List.pairwise_map, hdirect]
  exact (List.pairwise_append.mp hordered).2.1.filter p

/-- Requests of a class that are lifted in front of a deque without promoted ones of it. -/
theorem pairwise_lifted {lifted old : List QueueEntry}
    (hlifted : lifted.Pairwise fun a b => a.admissionSeq < b.admissionSeq)
    (hold : (old.filter (·.risen priority)).Pairwise fun a b => a.admissionSeq < b.admissionSeq)
    (halone : lifted ≠ [] → old.filter (·.risen priority) = []) :
    ((lifted ++ old).filter (·.risen priority)).Pairwise
      fun a b => a.admissionSeq < b.admissionSeq := by
  rw [List.filter_append]
  obtain rfl | hne := eq_or_ne lifted []
  · exact hold
  · rw [halone hne, List.append_nil]
    exact hlifted.filter _

/-- A pass that lifts alone keeps the order. -/
theorem risenInOrder_pass (h : Disciplined q l) (hrisen : q.RisenInOrder)
    (halone : q.LiftsAlone now) : (q.applyStarvationPromotions now).RisenInOrder := by
  -- Where a request of a class is lifted, no promoted one of that class waits.
  have hnone : ∀ c, c ≠ .supervisor → ∀ e ∈ q.deque c, q.starved now e = true →
      ∀ c', (q.deque c').filter (·.risen c) = [] := by
    intro c hc e he hstarved c'
    have hclass := h.originalClass_eq he (starved_eq_true.mp hstarved).1
    refine List.filter_eq_nil_iff.mpr fun e' he' => ?_
    have hfree := halone e (mem_waiting.mpr ⟨c, he⟩) hstarved (hclass ▸ hc) e'
      (mem_waiting.mpr ⟨c', he'⟩)
    simp [← hclass, hfree]
  intro c hc
  rw [applyStarvationPromotions_eq]
  cases c with
  | supervisor => exact absurd rfl hc
  | foreground =>
      refine pairwise_lifted (h.lifted_sorted .foreground .supervisor fun e he =>
        (starved_eq_true.mp (moves_eq_true.mp he).1).1) (hrisen .foreground hc) fun hne => ?_
      obtain ⟨e', he'⟩ := List.exists_mem_of_ne_nil _ hne
      obtain ⟨e, he, -⟩ := List.mem_map.mp he'
      obtain ⟨hmem, hmoves⟩ := List.mem_filter.mp he
      exact hnone .foreground hc e hmem (moves_eq_true.mp hmoves).1 .supervisor
  | batch =>
      have hold : ((q.foreground.filter (!q.moves now ·)).filter (·.risen .batch)).Sublist
          (q.foreground.filter (·.risen .batch)) := List.filter_sublist.filter _
      refine pairwise_lifted (h.lifted_sorted .batch .foreground fun e he =>
        (starved_eq_true.mp he).1) ((hrisen .batch hc).sublist hold) fun hne => ?_
      obtain ⟨e', he'⟩ := List.exists_mem_of_ne_nil _ hne
      obtain ⟨e, he, -⟩ := List.mem_map.mp he'
      obtain ⟨hmem, hstarved⟩ := List.mem_filter.mp he
      have hempty := hnone .batch hc e hmem hstarved .foreground
      exact List.eq_nil_of_sublist_nil (hempty ▸ hold)

/-- Service in an ordered queue takes, of the promoted requests of a class, the one that was
admitted first. -/
theorem popFront_first (h : Disciplined q l) (hrisen : q.RisenInOrder)
    (hq : q.popFront = (some e, q')) (he : e.risen priority = true) (he' : e' ∈ q.waiting)
    (hrisen' : e'.risen priority = true) (hne : e' ≠ e) :
    e.admissionSeq < e'.admissionSeq := by
  obtain ⟨c, hfront, -⟩ := deque_popFront hq
  have hmem : e ∈ q.deque c := hfront ▸ List.mem_cons_self
  obtain ⟨hclass, heffective, -⟩ := h.mem_deque_of_risen (mem_waiting.mpr ⟨c, hmem⟩) he
  obtain ⟨-, -, hmem'⟩ := h.mem_deque_of_risen he' hrisen'
  have hc : priority.promoted = c := by rw [← heffective, h.seated c e hmem]
  have hordered := hrisen priority hclass
  rw [hc, hfront, List.filter_cons_of_pos he] at hordered
  rw [hc, hfront] at hmem'
  have hrest := (List.mem_cons.mp hmem').resolve_left hne
  exact (List.pairwise_cons.mp hordered).1 e' (List.mem_filter.mpr ⟨hrest, hrisen'⟩)

end Disciplined

namespace QueueHistory

variable {h h' : QueueHistory} {op : QueueOp} {queueCapacity maxStarvationMs : ℕ}
  {e e₁ e₂ : QueueEntry}

/-- The condition on an operation: a promotion pass lifts alone. -/
def LiftsAlone (h : QueueHistory) : QueueOp → Prop
  | .popNext now => h.queue.LiftsAlone now
  | _ => True

instance (h : QueueHistory) (op : QueueOp) : Decidable (h.LiftsAlone op) :=
  match op with
  | .popNext now => inferInstanceAs (Decidable (h.queue.LiftsAlone now))
  | .tryEnqueue .. => .isTrue trivial
  | .setInFlight _ => .isTrue trivial

/-- A history whose promoted requests wait in order. -/
structure InOrder (maxStarvationMs : ℕ) (h : QueueHistory) : Prop where
  fair : h.Fair maxStarvationMs
  risen : h.queue.RisenInOrder

/-- **Step.** -/
theorem InOrder.step (hin : h.InOrder maxStarvationMs) (halone : h.LiftsAlone op)
    (hstep : h.step op = some h') : h'.InOrder maxStarvationMs := by
  refine ⟨hin.fair.step hstep, ?_⟩
  cases op with
  | tryEnqueue agentId prompt timeoutMs submission priority now =>
      cases hstep
      exact hin.risen.of_sublist (deque_tryEnqueue_promoted rfl)
  | popNext now =>
      cases hstep
      have hpass := hin.fair.disciplined.risenInOrder_pass hin.risen halone
      exact hpass.of_sublist fun c =>
        List.filter_sublist.trans (deque_popFront_sublist rfl c)
  | setInFlight n =>
      cases hstep
      exact hin.risen.of_sublist fun c => by cases c <;> exact List.filter_sublist

/-! ### Who is served when -/

/-- What `pop_next` serves is, of the promoted requests of its class that wait once the pass is
made, the one that was admitted first. -/
theorem InOrder.popNext_first (hin : h.InOrder maxStarvationMs) {now : Instant}
    (halone : h.queue.LiftsAlone now) {q : QueueState} {priority : PriorityClass}
    (hq : h.queue.popNext now = (some e₁, q)) (hrisen₁ : e₁.risen priority = true)
    (he₂ : e₂ ∈ (h.queue.applyStarvationPromotions now).waiting)
    (hrisen₂ : e₂.risen priority = true) (hne : e₂ ≠ e₁) :
    e₁.admissionSeq < e₂.admissionSeq :=
  (hin.fair.disciplined.applyStarvationPromotions now).popFront_first
    (hin.fair.disciplined.risenInOrder_pass hin.risen halone) hq hrisen₁ he₂ hrisen₂ hne

/-- A promotion pass leaves the promoted requests alone. -/
theorem waiting_of_promoted {q : QueueState} (he : e ∈ q.waiting) (hp : e.promoted = true)
    (now : Instant) : e ∈ (q.applyStarvationPromotions now).waiting := by
  have hstays : q.starved now e = false := by simp [starved, hp]
  rw [(waiting_applyStarvationPromotions q now).mem_iff]
  simp only [waiting, List.mem_append, List.mem_map] at he ⊢
  obtain (hs | hf) | hb := he
  · exact .inl (.inl hs)
  · exact .inl (.inr ⟨e, hf, by simp [liftForeground, moves, hstays]⟩)
  · exact .inr ⟨e, hb, by simp [liftBatch, hstays]⟩

/-- A step serves at most one request, in `pop_next`. -/
theorem dispatched_step (hstep : h.step op = some h') :
    h'.log.dispatched = h.log.dispatched ∨ ∃ now e q, op = .popNext now ∧
      h.queue.popNext now = (some e, q) ∧ h'.log.dispatched = h.log.dispatched ++ [e] := by
  cases op with
  | tryEnqueue agentId prompt timeoutMs submission priority now =>
      cases hstep
      left
      simp only [QueueLog.enqueue]
      split <;> rfl
  | popNext now =>
      cases hstep
      obtain ⟨answer, q, hq⟩ : ∃ answer q, h.queue.popNext now = (answer, q) := ⟨_, _, rfl⟩
      rw [hq]
      cases answer with
      | none => exact .inl (List.append_nil _)
      | some e => exact .inr ⟨now, e, q, rfl, hq, rfl⟩
  | setInFlight n =>
      cases hstep
      exact .inl rfl

/-- A promoted request waits until it is served: it is never evicted. -/
theorem Fair.promoted_stays (hfair : h.Fair maxStarvationMs) (hstep : h.step op = some h')
    (he : e ∈ h.queue.waiting) (hp : e.promoted = true) :
    e ∈ h'.queue.waiting ∨ h'.log.dispatched = h.log.dispatched ++ [e] := by
  cases op with
  | tryEnqueue agentId prompt timeoutMs submission priority now =>
      cases hstep
      obtain ⟨hclass, -, hmem⟩ := hfair.disciplined.mem_deque_of_risen he
        (QueueEntry.risen_eq_true.mpr ⟨hp, rfl⟩)
      refine .inl (mem_waiting.mpr ⟨_, mem_deque_tryEnqueue rfl ?_ hmem⟩)
      cases e.originalClass <;> simp [PriorityClass.promoted]
  | popNext now =>
      cases hstep
      have hpass := waiting_of_promoted he hp now
      rw [waiting_popFront (Prod.eta (h.queue.popNext now)).symm] at hpass
      obtain hserved | hwaits := List.mem_append.mp hpass
      · have hanswer := Option.mem_toList.mp hserved
        right
        simp only [QueueLog.serve, show (h.queue.popNext now).1 = some e from hanswer]
        rfl
      · exact .inl hwaits
  | setInFlight n =>
      cases hstep
      exact .inl he

/-- `e₂` is not served before `e₁`, which waits or has been served. -/
def NotBefore (e₁ e₂ : QueueEntry) (h : QueueHistory) : Prop :=
  (e₁ ∈ h.queue.waiting ∧ e₂ ∉ h.log.dispatched) ∨
    ∃ before after, h.log.dispatched = before ++ e₁ :: after ∧ e₂ ∉ before

/-- **Step.** Of two promoted requests of a class, the one that was admitted later is not served
before the other one. -/
theorem NotBefore.step (hin : h.InOrder maxStarvationMs) (halone : h.LiftsAlone op)
    (hstep : h.step op = some h') {priority : PriorityClass}
    (hrisen₁ : e₁.risen priority = true) (hrisen₂ : e₂.risen priority = true)
    (hseq : e₁.admissionSeq < e₂.admissionSeq) (hbefore : NotBefore e₁ e₂ h) :
    NotBefore e₁ e₂ h' := by
  obtain ⟨hwaits, hnot⟩ | ⟨before, after, hsplit, hnot⟩ := hbefore
  · obtain hstays | hserved := hin.fair.promoted_stays hstep hwaits
      (QueueEntry.risen_eq_true.mp hrisen₁).1
    · refine .inl ⟨hstays, ?_⟩
      obtain hsame | ⟨now, e, q, rfl, hq, hserved⟩ := dispatched_step hstep
      · rw [hsame]
        exact hnot
      · rw [hserved]
        intro hmem
        obtain hold | hnew := List.mem_append.mp hmem
        · exact hnot hold
        · obtain rfl := List.mem_singleton.mp hnew
          have hpass := waiting_of_promoted hwaits (QueueEntry.risen_eq_true.mp hrisen₁).1 now
          have hfirst := hin.popNext_first halone hq hrisen₂ hpass hrisen₁ (by
            rintro rfl
            omega)
          omega
    · exact .inr ⟨h.log.dispatched, [], hserved, hnot⟩
  · obtain hsame | ⟨now, e, q, -, -, hserved⟩ := dispatched_step hstep
    · exact .inr ⟨before, after, hsame.trans hsplit, hnot⟩
    · refine .inr ⟨before, after ++ [e], ?_, hnot⟩
      rw [hserved, hsplit, List.append_assoc, List.cons_append]

/-- **Run.** In every run whose promotion passes all lift alone: of two promoted requests of one
class that wait at the same time, the one that was admitted first is served first; and so it is
of two that wait together for the moment between a promotion pass and the service after it. -/
theorem starved_in_order {pre post : List QueueOp}
    (hrun : Machine.run QueueHistory.step (.new queueCapacity maxStarvationMs) pre = some h)
    (halone : Along QueueHistory.step LiftsAlone (.new queueCapacity maxStarvationMs)
      (pre ++ post)) :
    (∀ h', Machine.run QueueHistory.step h post = some h' →
      ∀ e₁ ∈ h.queue.waiting, ∀ e₂ ∈ h.queue.waiting, e₁.promoted = true →
        e₂.promoted = true → e₁.originalClass = e₂.originalClass →
        e₁.admissionSeq < e₂.admissionSeq → e₂ ∈ h'.log.dispatched →
          ∃ before after, h'.log.dispatched = before ++ e₂ :: after ∧ e₁ ∈ before) ∧
    ∀ now rest e₂ q, post = .popNext now :: rest → h.queue.popNext now = (some e₂, q) →
      e₂.promoted = true → ∀ e₁ ∈ (h.queue.applyStarvationPromotions now).waiting,
        e₁.promoted = true → e₁.originalClass = e₂.originalClass →
          ¬ e₁.admissionSeq < e₂.admissionSeq := by
  have hkept : ∀ (h : QueueHistory) op h', h.InOrder maxStarvationMs → h.LiftsAlone op →
      h.step op = some h' → h'.InOrder maxStarvationMs :=
    fun h op h' hin halone hstep => hin.step halone hstep
  have hstart : (QueueHistory.new queueCapacity maxStarvationMs).InOrder maxStarvationMs := by
    refine ⟨.run (Machine.run_nil _), fun c _ => ?_⟩
    cases c <;> exact .nil
  have hin := run_invariant_along hkept hstart halone.left hrun
  have hrest := halone.right hrun
  refine ⟨fun h' hpost e₁ he₁ e₂ he₂ hp₁ hp₂ hclass hseq hserved => ?_, ?_⟩
  · have hrisen₁ : e₁.risen e₂.originalClass = true :=
      QueueEntry.risen_eq_true.mpr ⟨hp₁, hclass⟩
    have hrisen₂ : e₂.risen e₂.originalClass = true := QueueEntry.risen_eq_true.mpr ⟨hp₂, rfl⟩
    have hnot : e₂ ∉ h.log.dispatched := fun hgone => by
      have hnodup := hin.fair.accounted.seq_nodup
      simp only [places, List.map_append] at hnodup
      have hapart := (List.nodup_append.mp (List.nodup_append.mp hnodup).1).2.2
      exact hapart _ (List.mem_map_of_mem he₂) _ (List.mem_map_of_mem hgone) rfl
    have hkept₂ : ∀ h op h', h.InOrder maxStarvationMs ∧ NotBefore e₁ e₂ h →
        h.LiftsAlone op → h.step op = some h' →
          h'.InOrder maxStarvationMs ∧ NotBefore e₁ e₂ h' := fun h op h' hboth halone hstep =>
      ⟨hboth.1.step halone hstep, hboth.2.step hboth.1 halone hstep hrisen₁ hrisen₂ hseq⟩
    have hend := run_invariant_along hkept₂ ⟨hin, .inl ⟨he₁, hnot⟩⟩ hrest hpost
    obtain ⟨-, hnever⟩ | ⟨before, after, hsplit, hnever⟩ := hend.2
    · exact absurd hserved hnever
    · rw [hsplit] at hserved
      have hafter := (List.mem_append.mp hserved).resolve_left hnever
      have hlater := (List.mem_cons.mp hafter).resolve_left (by
        rintro rfl
        omega)
      obtain ⟨middle, after', rfl⟩ := List.append_of_mem hlater
      refine ⟨before ++ e₁ :: middle, after', ?_, by simp⟩
      rw [hsplit, List.append_assoc, List.cons_append]
  · rintro now rest e₂ q rfl hq hp₂ e₁ he₁ hp₁ hclass hseq
    have hfirst := hin.popNext_first hrest.1 hq (QueueEntry.risen_eq_true.mpr ⟨hp₂, rfl⟩) he₁
      (QueueEntry.risen_eq_true.mpr ⟨hp₁, hclass⟩) (by
        rintro rfl
        omega)
    omega

/-- Two batch requests and a supervisor; a pass that promotes both batch requests. -/
def promotedTogether : List QueueOp :=
  [.tryEnqueue 1 [] 0 0 .batch 0, .tryEnqueue 2 [] 0 1 .batch 1000000,
    .tryEnqueue 3 [] 0 2 .supervisor 2000000, .popNext 11000000]

/-- Promoted by one pass, they are served in the order of their admission. -/
theorem starved_in_order_promotedTogether :
    ∃ h h', Machine.run QueueHistory.step (.new 8 10) promotedTogether = some h ∧
      Machine.run QueueHistory.step h [.popNext 12000000, .popNext 13000000] = some h' ∧
      ∃ e₁ ∈ h.queue.waiting, ∃ e₂ ∈ h.queue.waiting, e₁.submission = 0 ∧ e₂.submission = 1 ∧
        ∃ before after, h'.log.dispatched = before ++ e₂ :: after ∧ e₁ ∈ before := by
  have hends : ((Machine.run QueueHistory.step (.new 8 10) promotedTogether).any fun h =>
      (Machine.run QueueHistory.step h [.popNext 12000000, .popNext 13000000]).any fun h' =>
        h.queue.waiting.any fun e₁ => h.queue.waiting.any fun e₂ =>
          decide (e₁.submission = 0 ∧ e₂.submission = 1 ∧ e₁.promoted = true ∧
            e₂.promoted = true ∧ e₁.originalClass = e₂.originalClass ∧
            e₁.admissionSeq < e₂.admissionSeq ∧ e₂ ∈ h'.log.dispatched)) = true := by
    decide +kernel
  obtain ⟨h, hrun, hends⟩ := (Option.any_eq_true _ _).mp hends
  obtain ⟨h', hpost, hends⟩ := (Option.any_eq_true _ _).mp hends
  obtain ⟨e₁, he₁, hends⟩ := List.any_eq_true.mp hends
  obtain ⟨e₂, he₂, hends⟩ := List.any_eq_true.mp hends
  obtain ⟨hfirst, hsecond, hp₁, hp₂, hclass, hseq, hserved⟩ := of_decide_eq_true hends
  have halone : Along QueueHistory.step LiftsAlone (.new 8 10)
      (promotedTogether ++ [.popNext 12000000, .popNext 13000000]) := by decide +kernel
  exact ⟨h, h', hrun, hpost, e₁, he₁, e₂, he₂, hfirst, hsecond,
    (starved_in_order hrun halone).1 h' hpost e₁ he₁ e₂ he₂ hp₁ hp₂ hclass hseq hserved⟩

/-- A batch request that is promoted while supervisors keep the queue busy, and a later one that
the next pass promotes: both wait, promoted, and the later one is served first. -/
theorem starved_overtaken :
    ∃ h h', Machine.run QueueHistory.step (.new 8 10)
        [.tryEnqueue 1 [] 0 0 .batch 0, .tryEnqueue 2 [] 0 1 .supervisor 0,
          .tryEnqueue 3 [] 0 2 .supervisor 0, .tryEnqueue 4 [] 0 3 .batch 5000000,
          .popNext 10000000, .popNext 15000000] = some h ∧
      h.step (.popNext 16000000) = some h' ∧
      ∃ e₁ ∈ h.queue.waiting, ∃ e₂ ∈ h.queue.waiting, e₁.promoted = true ∧
        e₂.promoted = true ∧ e₁.originalClass = e₂.originalClass ∧
        e₁.admissionSeq < e₂.admissionSeq ∧ e₂ ∈ h'.log.dispatched ∧
        e₁ ∉ h'.log.dispatched := by
  have hends : ((Machine.run QueueHistory.step (.new 8 10)
      [.tryEnqueue 1 [] 0 0 .batch 0, .tryEnqueue 2 [] 0 1 .supervisor 0,
        .tryEnqueue 3 [] 0 2 .supervisor 0, .tryEnqueue 4 [] 0 3 .batch 5000000,
        .popNext 10000000, .popNext 15000000]).any fun h =>
      (h.step (.popNext 16000000)).any fun h' =>
        h.queue.waiting.any fun e₁ => h.queue.waiting.any fun e₂ =>
          decide (e₁.promoted = true ∧ e₂.promoted = true ∧
            e₁.originalClass = e₂.originalClass ∧ e₁.admissionSeq < e₂.admissionSeq ∧
            e₂ ∈ h'.log.dispatched ∧ e₁ ∉ h'.log.dispatched)) = true := by
    decide +kernel
  obtain ⟨h, hrun, hends⟩ := (Option.any_eq_true _ _).mp hends
  obtain ⟨h', hpost, hends⟩ := (Option.any_eq_true _ _).mp hends
  obtain ⟨e₁, he₁, hends⟩ := List.any_eq_true.mp hends
  obtain ⟨e₂, he₂, hends⟩ := List.any_eq_true.mp hends
  exact ⟨h, h', hrun, hpost, e₁, he₁, e₂, he₂, of_decide_eq_true hends⟩

end QueueHistory

end Torpor
