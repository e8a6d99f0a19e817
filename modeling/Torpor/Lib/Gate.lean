import Mathlib.Logic.Relation
import Mathlib.Tactic.Common

/-!
# Gates: a Queue, a Pool of Permits and One Sleeping Dispatcher

Requests queue at a *gate*. A dispatcher takes a free permit, hands it to a queued request
and repeats; when it finds no free permit or no request it goes to sleep, and is woken by a
notification. A notification that finds the dispatcher awake is stored, and at most one is
stored. A request announces itself after it has joined the queue, and a permit on its way
back is *announced before it is released*.

The state keeps the counts only: who waits, who holds a permit and in which order requests
are served does not matter here. A refusal of the pool is a step of a gate only when no
announced permit is still on its way back; a concrete dispatcher for which this can fail is
a gate along the runs in which it does not.

## Main results

* `Alert.step`: a dispatcher that sleeps has nothing to do, or someone is about to wake it.
* `Alert.waiting_eq_zero`: in a quiet gate with a sleeping dispatcher no request waits beside
  a free permit.
-/

namespace Gate

/-- Where the dispatcher of a gate is. -/
inductive Phase
  /-- Asleep. -/
  | parked
  /-- About to look for a notification, and to sleep if there is none. -/
  | arriving
  /-- About to ask the pool for a permit. -/
  | trying
  /-- Awake, with a permit in hand or a request to serve. -/
  | serving
  /-- Found the queue empty and is about to give its permit back. -/
  | returning
  deriving DecidableEq, Repr

/-- A gate: the requests in the queue, those of them that still have to announce themselves,
the free permits, and the announced permits that are not released yet. -/
structure State where
  waiting : ℕ
  announcing : ℕ
  free : ℕ
  releasing : ℕ
  notified : Bool
  phase : Phase
  deriving DecidableEq, Repr

/-- A notification wakes a sleeping dispatcher and is stored otherwise. -/
def State.notify (g : State) : State :=
  if g.phase = .parked then { g with phase := .trying } else { g with notified := true }

/-- One step of a gate. -/
inductive Step : State → State → Prop
  /-- A request joins; others may leave the queue with it. -/
  | join (g : State) (w : ℕ) :
      Step g { g with waiting := w, announcing := g.announcing + 1 }
  | announce (g : State) (n : ℕ) (h : g.announcing = n + 1) :
      Step g { g with announcing := n }.notify
  | signal (g : State) : Step g { g with releasing := g.releasing + 1 }.notify
  | release (g : State) (n : ℕ) (h : g.releasing = n + 1) :
      Step g { g with releasing := n, free := g.free + 1 }
  | wake (g : State) (hphase : g.phase = .arriving) (h : g.notified = true) :
      Step g { g with phase := .trying, notified := false }
  | park (g : State) (hphase : g.phase = .arriving) (h : g.notified = false) :
      Step g { g with phase := .parked }
  | take (g : State) (n : ℕ) (hphase : g.phase = .trying) (h : g.free = n + 1) :
      Step g { g with phase := .serving, free := n }
  /-- The pool refuses, and nothing is on its way back. -/
  | refused (g : State) (hphase : g.phase = .trying) (hfree : g.free = 0)
      (hreleasing : g.releasing = 0) : Step g { g with phase := .arriving }
  | serve (g : State) (w : ℕ) (hphase : g.phase = .serving) :
      Step g { g with phase := .serving, waiting := w }
  | next (g : State) (hphase : g.phase = .serving) : Step g { g with phase := .trying }
  | empty (g : State) (hphase : g.phase = .serving) (h : g.waiting = 0) :
      Step g { g with phase := .returning }
  | giveBack (g : State) (hphase : g.phase = .returning) :
      Step g { g with phase := .arriving, free := g.free + 1 }
  /-- The dispatcher notifies itself and gives up a permit that nobody took. -/
  | renotify (g : State) (hphase : g.phase = .serving) :
      Step g { g with phase := .serving, notified := true }
  | giveUp (g : State) (hphase : g.phase = .serving) :
      Step g { g with phase := .trying, free := g.free + 1 }

/-- Someone is about to wake the dispatcher, or nothing waits. -/
def State.Attended (g : State) : Prop :=
  g.notified = true ∨ 0 < g.announcing ∨ g.waiting = 0

/-- The invariant of a gate: a dispatcher that sleeps, or is about to, is attended or has no
permit to hand out; and it does not sleep over a notification. -/
def Alert (g : State) : Prop :=
  match g.phase with
  | .parked => g.notified = false ∧ (g.Attended ∨ (g.free = 0 ∧ g.releasing = 0))
  | .arriving => g.Attended ∨ (g.free = 0 ∧ g.releasing = 0)
  | .returning => g.Attended
  | .trying | .serving => True

/-- After a notification the gate is alert, whatever it was before. -/
theorem alert_notify (g : State) : Alert g.notify := by
  simp only [State.notify]
  split
  · trivial
  · cases hphase : g.phase <;> simp_all [Alert, State.Attended]

/-- **Step rule.** Every step of a gate keeps it alert. -/
theorem Alert.step {g g' : State} (hg : Alert g) (hstep : Step g g') : Alert g' := by
  cases hstep with
  | join w => cases hphase : g.phase <;> simp_all [Alert, State.Attended]
  | announce n h => exact alert_notify _
  | signal => exact alert_notify _
  | release n h =>
      cases hphase : g.phase <;> simp only [Alert, State.Attended, hphase] at hg ⊢ <;> grind
  | wake hphase h => trivial
  | park hphase h =>
      have hnow : g.Attended ∨ (g.free = 0 ∧ g.releasing = 0) := by
        simpa [Alert, hphase] using hg
      exact ⟨h, hnow⟩
  | take n hphase h => trivial
  | refused hphase hfree hreleasing => exact .inr ⟨hfree, hreleasing⟩
  | serve w hphase => trivial
  | next hphase => trivial
  | empty hphase h => exact .inr (.inr h)
  | giveBack hphase =>
      have hatt : g.Attended := by simpa [Alert, hphase] using hg
      exact .inl hatt
  | renotify hphase => trivial
  | giveUp hphase => trivial

/-- **No lost wake-up.** A quiet alert gate with a sleeping dispatcher and a free permit has
served every request. -/
theorem Alert.waiting_eq_zero {g : State} (hg : Alert g) (hphase : g.phase = .parked)
    (hfree : 0 < g.free) (hannouncing : g.announcing = 0) : g.waiting = 0 := by
  obtain ⟨hnotified, hcases⟩ :
      g.notified = false ∧ (g.Attended ∨ (g.free = 0 ∧ g.releasing = 0)) := by
    simpa [Alert, hphase] using hg
  simp only [State.Attended, hnotified, Bool.false_eq_true, false_or] at hcases
  omega

/-! ### Counting a population -/

/-- When one member of a population changes, it takes its share out of the count of a kind
and puts the new one in; the others count as before. -/
theorem countP_set {α : Type*} (p : α → Bool) {l : List α} {i : ℕ} {a : α}
    (h : l[i]? = some a) (b : α) :
    ∃ n, l.countP p = n + (p a).toNat ∧ (l.set i b).countP p = n + (p b).toNat := by
  obtain ⟨hi, rfl⟩ := List.getElem?_eq_some_iff.mp h
  have hshare : (p l[i]).toNat ≤ l.countP p := by
    cases hp : p l[i] with
    | false => exact Nat.zero_le _
    | true => exact List.countP_pos_iff.mpr ⟨l[i], List.getElem_mem hi, hp⟩
  refine ⟨l.countP p - (p l[i]).toNat, by omega, ?_⟩
  rw [List.countP_set hi]
  cases p l[i] <;> cases p b <;> simp

end Gate
