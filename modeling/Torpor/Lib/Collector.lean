import Mathlib.Data.Finset.Insert
import Mathlib.Data.List.Induction

/-!
# Collecting Items until it is Enough

A collector passes on one item from each party that arrives, and closes once: when the parties
that have arrived are enough, or when it is cut off and some party has arrived. Each output is
traced with the place of the input that led to it. What the collector notes does not concern it.

## Main results

* `collects_run`: at most one item a party and at most one close; a close comes after an item,
  when it is due, and after the items of the parties that arrived by then; when some party has
  arrived and they are enough, the collector has closed.
-/

namespace Collector

structure State (α : Type*) where
  seen : Finset α
  closed : Bool

inductive Input (α : Type*)
  | arrive (a : α)
  | cutOff
  | note
  | skip

inductive Output (α : Type*)
  | item (a : α)
  | close
  | note

section Trace

variable {α : Type*}

/-- The output at the place `j` is the item of the party, put out for the input `k`. -/
def ItemAt (t : List (ℕ × Output α)) (j k : ℕ) (a : α) : Prop := t[j]? = some (k, Output.item a)

/-- The output at the place `i` is a close, put out for the input `k`. -/
def CloseAt (t : List (ℕ × Output α)) (i k : ℕ) : Prop := t[i]? = some (k, Output.close)

theorem getElem?_concat_iff {β : Type*} {t : List β} {x y : β} {j : ℕ} :
    (t ++ [x])[j]? = some y ↔ t[j]? = some y ∨ j = t.length ∧ x = y := by
  obtain hlt | rfl | hgt := Nat.lt_trichotomy j t.length
  · rw [List.getElem?_append_left hlt]
    exact ⟨.inl, fun h => h.resolve_right fun h' => by omega⟩
  · simp
  · rw [List.getElem?_eq_none (by rw [List.length_append, List.length_singleton]; omega),
      List.getElem?_eq_none (by omega)]
    simp
    omega

variable {t : List (ℕ × Output α)} {i j k n : ℕ} {a b : α}

theorem itemAt_item : ItemAt (t ++ [(n, .item b)]) j k a ↔
    ItemAt t j k a ∨ j = t.length ∧ n = k ∧ b = a := by
  simp [ItemAt, getElem?_concat_iff]

theorem itemAt_close : ItemAt (t ++ [(n, .close)]) j k a ↔ ItemAt t j k a := by
  simp [ItemAt, getElem?_concat_iff]

theorem closeAt_item : CloseAt (t ++ [(n, .item b)]) i k ↔ CloseAt t i k := by
  simp [CloseAt, getElem?_concat_iff]

theorem closeAt_close : CloseAt (t ++ [(n, .close)]) i k ↔
    CloseAt t i k ∨ i = t.length ∧ n = k := by
  simp [CloseAt, getElem?_concat_iff]

theorem ItemAt.lt (h : ItemAt t j k a) : j < t.length := (List.getElem?_eq_some_iff.mp h).1

theorem CloseAt.lt (h : CloseAt t i k) : i < t.length := (List.getElem?_eq_some_iff.mp h).1

end Trace

variable {α : Type*} [DecidableEq α]

/-- Close, unless it has happened or no party has arrived. -/
def State.close (s : State α) : List (Output α) × State α :=
  if !s.closed ∧ s.seen ≠ ∅ then ([.close], { s with closed := true }) else ([], s)

/-- Pass on the item of a party that is new. -/
def State.take (s : State α) (a : α) : List (Output α) × State α :=
  if a ∈ s.seen then ([], s) else ([.item a], { s with seen := insert a s.seen })

variable (enough : Finset α → Prop)

section Run

variable [DecidablePred enough]

def step (s : State α) : Input α → List (Output α) × State α
  | .arrive a =>
      if enough (s.take a).2.seen then
        ((s.take a).1 ++ (s.take a).2.close.1, (s.take a).2.close.2)
      else s.take a
  | .cutOff => s.close
  | .note => ([.note], s)
  | .skip => ([], s)

/-- The outputs of a run, each with the place of its input, and the state that it ends in. -/
def run (is : List (Input α)) : List (ℕ × Output α) × State α :=
  is.zipIdx.foldl
    (fun (t, s) (i, k) => (t ++ (step enough s i).1.map (k, ·), (step enough s i).2))
    ([], { seen := ∅, closed := false })

theorem run_concat (is : List (Input α)) (i : Input α) :
    run enough (is ++ [i]) =
      ((run enough is).1 ++ (step enough (run enough is).2 i).1.map (is.length, ·),
        (step enough (run enough is).2 i).2) := by
  simp [run, List.zipIdx_append]

end Run

/-- The parties that have arrived. -/
def arrived (is : List (Input α)) : Finset α :=
  (is.filterMap fun | .arrive a => some a | .cutOff | .note | .skip => none).toFinset

theorem mem_arrived {is : List (Input α)} {a : α} : a ∈ arrived is ↔ .arrive a ∈ is := by
  simp only [arrived, List.mem_toFinset, List.mem_filterMap]
  constructor
  · rintro ⟨i, hi, ha⟩
    cases i with
    | arrive b => exact Option.some.inj ha ▸ hi
    | cutOff => cases ha
    | note => cases ha
    | skip => cases ha
  · exact fun h => ⟨_, h, rfl⟩

theorem mem_arrived_concat {is : List (Input α)} {i : Input α} {a : α} :
    a ∈ arrived (is ++ [i]) ↔ a ∈ arrived is ∨ i = .arrive a := by
  simp only [mem_arrived, List.mem_append, List.mem_singleton, eq_comm]

/-- What a run of a collector has put out. -/
structure Collects (is : List (Input α)) (t : List (ℕ × Output α)) : Prop where
  item_mem : ∀ {j k a}, ItemAt t j k a → is[k]? = some (.arrive a)
  item_once : ∀ {j j' k k' a}, ItemAt t j k a → ItemAt t j' k' a → j = j'
  item_of_arrived : ∀ {a}, a ∈ arrived is → ∃ j k, ItemAt t j k a
  close_once : ∀ {i i' k k'}, CloseAt t i k → CloseAt t i' k' → i = i'
  after_item : ∀ {i k}, CloseAt t i k → ∃ j k' a, j < i ∧ ItemAt t j k' a
  due : ∀ {i k}, CloseAt t i k →
    enough (arrived (is.take (k + 1))) ∨ .cutOff ∈ is.take (k + 1)
  ordered : ∀ {i j k k' a}, CloseAt t i k → ItemAt t j k' a →
    a ∈ arrived (is.take (k + 1)) → j < i
  complete : (arrived is).Nonempty → enough (arrived is) → ∃ i k, CloseAt t i k

/-- What holds of the outputs within a step: the inputs taken so far are `is`, and the state is
`s`. -/
structure Invariant (is : List (Input α)) (t : List (ℕ × Output α)) (s : State α) : Prop where
  lt : ∀ {j : ℕ} {x}, t[j]? = some x → x.1 < is.length
  item_mem : ∀ {j k a}, ItemAt t j k a → is[k]? = some (.arrive a)
  item_once : ∀ {j j' k k' a}, ItemAt t j k a → ItemAt t j' k' a → j = j'
  seen_iff : ∀ a, a ∈ s.seen ↔ ∃ j k, ItemAt t j k a
  closed_iff : s.closed = true ↔ ∃ i k, CloseAt t i k
  close_once : ∀ {i i' k k'}, CloseAt t i k → CloseAt t i' k' → i = i'
  after_item : ∀ {i k}, CloseAt t i k → ∃ j k' a, j < i ∧ ItemAt t j k' a
  due : ∀ {i k}, CloseAt t i k →
    enough (arrived (is.take (k + 1))) ∨ .cutOff ∈ is.take (k + 1)
  ordered : ∀ {i j k k' a}, CloseAt t i k → ItemAt t j k' a →
    a ∈ arrived (is.take (k + 1)) → j < i

variable {enough} {is : List (Input α)} {t : List (ℕ × Output α)} {s : State α}

/-- One more input, before its outputs. -/
theorem Invariant.grow (h : Invariant enough is t s) (i : Input α) :
    Invariant enough (is ++ [i]) t s where
  lt hj := by
    have hlt := h.lt hj
    rw [List.length_append, List.length_singleton]
    omega
  item_mem hj := by
    rw [List.getElem?_append_left (h.lt hj)]
    exact h.item_mem hj
  item_once := h.item_once
  seen_iff := h.seen_iff
  closed_iff := h.closed_iff
  close_once := h.close_once
  after_item := h.after_item
  due hi := by
    rw [List.take_append_of_le_length (h.lt hi)]
    exact h.due hi
  ordered hi hj ha := by
    rw [List.take_append_of_le_length (h.lt hi)] at ha
    exact h.ordered hi hj ha

/-- The item of a party that arrives. -/
theorem Invariant.item {a : α} (h : Invariant enough is t s)
    (hseen : ∀ b, b ∈ s.seen ↔ b ∈ arrived is) (hnew : a ∉ s.seen) :
    Invariant enough (is ++ [.arrive a]) (t ++ [(is.length, .item a)])
      { s with seen := insert a s.seen } := by
  have hg := h.grow (.arrive a)
  have hnone : ∀ {j k}, ¬ ItemAt t j k a := fun hj => hnew ((h.seen_iff a).mpr ⟨_, _, hj⟩)
  constructor
  case lt =>
    intro j x hx
    rcases getElem?_concat_iff.mp hx with hx | ⟨-, rfl⟩
    · exact hg.lt hx
    · rw [List.length_append, List.length_singleton]
      exact Nat.lt_succ_self _
  case item_mem =>
    intro j k b hj
    rcases itemAt_item.mp hj with hj | ⟨-, rfl, rfl⟩
    · exact hg.item_mem hj
    · simp
  case item_once =>
    intro j j' k k' b hj hj'
    rcases itemAt_item.mp hj with hj | ⟨rfl, -, rfl⟩
    · rcases itemAt_item.mp hj' with hj' | ⟨rfl, -, rfl⟩
      · exact h.item_once hj hj'
      · exact absurd hj hnone
    · rcases itemAt_item.mp hj' with hj' | ⟨rfl, -, -⟩
      · exact absurd hj' hnone
      · rfl
  case seen_iff =>
    intro b
    simp only [Finset.mem_insert, itemAt_item, h.seen_iff b]
    constructor
    · rintro (rfl | ⟨j, k, hj⟩)
      · exact ⟨_, _, .inr ⟨rfl, rfl, rfl⟩⟩
      · exact ⟨j, k, .inl hj⟩
    · rintro ⟨j, k, hj | ⟨-, -, rfl⟩⟩
      · exact .inr ⟨j, k, hj⟩
      · exact .inl rfl
  case closed_iff =>
    simp only [closeAt_item]
    exact h.closed_iff
  case close_once =>
    intro i i' k k' hi hi'
    exact h.close_once (closeAt_item.mp hi) (closeAt_item.mp hi')
  case after_item =>
    intro i k hi
    obtain ⟨j, k', b, hlt, hj⟩ := h.after_item (closeAt_item.mp hi)
    exact ⟨j, k', b, hlt, itemAt_item.mpr (.inl hj)⟩
  case due => exact fun hi => hg.due (closeAt_item.mp hi)
  case ordered =>
    intro i j k k' b hi hj hb
    have hi := closeAt_item.mp hi
    rcases itemAt_item.mp hj with hj | ⟨-, -, rfl⟩
    · exact hg.ordered hi hj hb
    · -- A party that had arrived when the collector closed is not new.
      rw [List.take_append_of_le_length (h.lt hi), mem_arrived] at hb
      exact absurd ((hseen a).mpr (mem_arrived.mpr (List.mem_of_mem_take hb))) hnew

/-- The close. -/
theorem Invariant.close (h : Invariant enough is t s) {n : ℕ} (hn : n < is.length)
    (hopen : s.closed = false) (hsome : s.seen.Nonempty)
    (hdue : enough (arrived (is.take (n + 1))) ∨ .cutOff ∈ is.take (n + 1)) :
    Invariant enough is (t ++ [(n, .close)]) { s with closed := true } := by
  have hnone : ∀ {i k}, ¬ CloseAt t i k := by
    intro i k hi
    have hclosed := h.closed_iff.mpr ⟨i, k, hi⟩
    rw [hopen] at hclosed
    cases hclosed
  constructor
  case lt =>
    intro j x hx
    rcases getElem?_concat_iff.mp hx with hx | ⟨-, rfl⟩
    · exact h.lt hx
    · exact hn
  case item_mem => exact fun hj => h.item_mem (itemAt_close.mp hj)
  case item_once => exact fun hj hj' => h.item_once (itemAt_close.mp hj) (itemAt_close.mp hj')
  case seen_iff =>
    simp only [itemAt_close]
    exact h.seen_iff
  case closed_iff => exact iff_of_true rfl ⟨_, _, closeAt_close.mpr (.inr ⟨rfl, rfl⟩)⟩
  case close_once =>
    intro i i' k k' hi hi'
    rcases closeAt_close.mp hi with hi | ⟨rfl, -⟩
    · exact absurd hi hnone
    · rcases closeAt_close.mp hi' with hi' | ⟨rfl, -⟩
      · exact absurd hi' hnone
      · rfl
  case after_item =>
    intro i k hi
    rcases closeAt_close.mp hi with hi | ⟨rfl, -⟩
    · exact absurd hi hnone
    · obtain ⟨a, ha⟩ := hsome
      obtain ⟨j, k', hj⟩ := (h.seen_iff a).mp ha
      exact ⟨j, k', a, hj.lt, itemAt_close.mpr hj⟩
  case due =>
    intro i k hi
    rcases closeAt_close.mp hi with hi | ⟨-, rfl⟩
    · exact absurd hi hnone
    · exact hdue
  case ordered =>
    intro i j k k' a hi hj _
    rcases closeAt_close.mp hi with hi | ⟨rfl, -⟩
    · exact absurd hi hnone
    · exact (itemAt_close.mp hj).lt

/-- What the collector notes. -/
theorem Invariant.note (h : Invariant enough is t s) {n : ℕ} (hn : n < is.length) :
    Invariant enough is (t ++ [(n, .note)]) s := by
  have hitem : ∀ {j k a}, ItemAt (t ++ [(n, .note)]) j k a ↔ ItemAt t j k a := by
    simp [ItemAt, getElem?_concat_iff]
  have hclose : ∀ {i k}, CloseAt (t ++ [(n, .note)]) i k ↔ CloseAt t i k := by
    simp [CloseAt, getElem?_concat_iff]
  constructor
  case lt =>
    intro j x hx
    rcases getElem?_concat_iff.mp hx with hx | ⟨-, rfl⟩
    · exact h.lt hx
    · exact hn
  all_goals simp only [hitem, hclose]
  · exact h.item_mem
  · exact h.item_once
  · exact h.seen_iff
  · exact h.closed_iff
  · exact h.close_once
  · exact h.after_item
  · exact h.due
  · exact h.ordered

/-- The close, if there is one. -/
theorem Invariant.state_close (h : Invariant enough is t s) {n : ℕ} (hn : n < is.length)
    (hdue : enough (arrived (is.take (n + 1))) ∨ .cutOff ∈ is.take (n + 1)) :
    Invariant enough is (t ++ s.close.1.map (n, ·)) s.close.2 := by
  rw [State.close]
  split_ifs with hopen
  · refine h.close hn (by simpa using hopen.1) ?_ hdue
    exact Finset.nonempty_iff_ne_empty.mpr hopen.2
  · rw [List.map_nil, List.append_nil]
    exact h

/-- The item, if there is one. -/
theorem Invariant.state_take (h : Invariant enough is t s)
    (hseen : ∀ b, b ∈ s.seen ↔ b ∈ arrived is) (a : α) :
    Invariant enough (is ++ [.arrive a]) (t ++ (s.take a).1.map (is.length, ·)) (s.take a).2 := by
  rw [State.take]
  split_ifs with hmem
  · rw [List.map_nil, List.append_nil]
    exact h.grow _
  · exact h.item hseen hmem

theorem State.close_seen (s : State α) : s.close.2.seen = s.seen := by
  rw [close]
  split_ifs <;> rfl

/-- Where a party has arrived, the collector is closed afterwards. -/
theorem State.close_closed {s : State α} (hsome : s.seen.Nonempty) : s.close.2.closed = true := by
  rw [close]
  split_ifs with hopen
  · rfl
  · by_contra hclosed
    exact hopen ⟨by simpa using hclosed, Finset.nonempty_iff_ne_empty.mp hsome⟩

theorem State.take_seen (s : State α) (a : α) : (s.take a).2.seen = insert a s.seen := by
  rw [take]
  split_ifs with hmem
  · exact (Finset.insert_eq_of_mem hmem).symm
  · rfl

variable [DecidablePred enough]

/-- **Every run.** -/
theorem invariant_run (is : List (Input α)) :
    Invariant enough is (run enough is).1 (run enough is).2 ∧
      (∀ b, b ∈ (run enough is).2.seen ↔ b ∈ arrived is) ∧
      ((run enough is).2.seen.Nonempty → enough (run enough is).2.seen →
        (run enough is).2.closed = true) := by
  induction is using List.reverseRecOn with
  | nil =>
      refine ⟨⟨?_, ?_, ?_, ?_, ?_, ?_, ?_, ?_, ?_⟩, ?_, ?_⟩ <;>
        simp [run, ItemAt, CloseAt, arrived]
  | append_singleton is i ih =>
      rw [run_concat]
      generalize run enough is = r at ih
      obtain ⟨t, s⟩ := r
      obtain ⟨h, hseen, hcomplete⟩ := ih
      have hlast : is.length < (is ++ [i]).length := by simp
      have htake : (is ++ [i]).take (is.length + 1) = is ++ [i] := List.take_of_length_le (by simp)
      cases i with
      | arrive a =>
          have htaken := h.state_take hseen a
          have hseen' : ∀ b, b ∈ (s.take a).2.seen ↔ b ∈ arrived (is ++ [.arrive a]) := by
            intro b
            rw [s.take_seen, Finset.mem_insert, mem_arrived_concat, hseen, Input.arrive.injEq,
              or_comm, eq_comm (a := a)]
          simp only [step]
          split_ifs with henough
          · refine ⟨?_, ?_, fun hsome _ => ?_⟩
            · rw [List.map_append, ← List.append_assoc]
              refine htaken.state_close hlast (.inl ?_)
              rwa [htake, ← Finset.ext hseen']
            · rw [State.close_seen]
              exact hseen'
            · rw [State.close_seen] at hsome
              exact State.close_closed hsome
          · exact ⟨htaken, hseen', fun _ he => absurd he henough⟩
      | cutOff =>
          have hseen' : ∀ b, b ∈ s.close.2.seen ↔ b ∈ arrived (is ++ [.cutOff]) := by
            intro b
            rw [s.close_seen, mem_arrived_concat, hseen]
            simp
          refine ⟨?_, hseen', fun hsome _ => ?_⟩
          · refine (h.grow _).state_close hlast (.inr ?_)
            rw [htake]
            simp
          · change s.close.2.seen.Nonempty at hsome
            rw [s.close_seen] at hsome
            exact State.close_closed hsome
      | note =>
          refine ⟨(h.grow _).note hlast, fun b => ?_, hcomplete⟩
          rw [mem_arrived_concat, ← hseen]
          simp [step]
      | skip =>
          refine ⟨?_, fun b => ?_, hcomplete⟩
          · simp only [step, List.map_nil, List.append_nil]
            exact h.grow _
          · rw [mem_arrived_concat, ← hseen]
            simp [step]

/-- **What a run puts out.** -/
theorem collects_run (is : List (Input α)) : Collects enough is (run enough is).1 := by
  obtain ⟨h, hseen, hcomplete⟩ := @invariant_run α _ enough _ is
  exact {
    item_mem := h.item_mem
    item_once := h.item_once
    item_of_arrived := fun ha => (h.seen_iff _).mp ((hseen _).mpr ha)
    close_once := h.close_once
    after_item := h.after_item
    due := h.due
    ordered := h.ordered
    complete := by
      rw [← Finset.ext hseen]
      exact fun hsome henough => h.closed_iff.mp (hcomplete hsome henough) }

/-! ### Collectors in use -/

section Trace

variable {R E O : Type*}

/-- The outputs of a component over a list of events, each with the place of its event. -/
def trace (f : R → E → List O × R) (r : R) (es : List E) : List (ℕ × O) × R :=
  es.zipIdx.foldl (fun (t, r) (e, k) => (t ++ (f r e).1.map (k, ·), (f r e).2)) ([], r)

theorem trace_concat (f : R → E → List O × R) (r : R) (es : List E) (e : E) :
    trace f r (es ++ [e]) =
      ((trace f r es).1 ++ (f (trace f r es).2 e).1.map (es.length, ·),
        (f (trace f r es).2 e).2) := by
  simp [trace, List.zipIdx_append]

/-- The events may be converted on the way. -/
theorem trace_map {E' : Type*} (f : R → E → List O × R) (g : E' → E) (r : R) (es : List E') :
    trace (fun r e => f r (g e)) r es = trace f r (es.map g) := by
  induction es using List.reverseRecOn with
  | nil => rfl
  | append_singleton es e ih =>
      rw [trace_concat, List.map_append, List.map_singleton, trace_concat, List.length_map, ih]

/-- A component puts out for its events what the collector does for the inputs that they are. -/
theorem trace_rendered {f : R → E → List O × R} {r : R} {input : E → Input α}
    {render : E → Output α → O} (Holds : R → State α → Prop)
    (hstart : Holds r { seen := ∅, closed := false })
    (hstep : ∀ r s e, Holds r s → (f r e).1 = (step enough s (input e)).1.map (render e) ∧
      Holds (f r e).2 (step enough s (input e)).2) (es : List E) :
    List.Forall₂ (fun x o => x.1 = o.1 ∧ ∃ e, es[o.1]? = some e ∧ x.2 = render e o.2)
        (trace f r es).1 (run enough (es.map input)).1 ∧
      Holds (trace f r es).2 (run enough (es.map input)).2 := by
  induction es using List.reverseRecOn with
  | nil => exact ⟨.nil, hstart⟩
  | append_singleton es e ih =>
      obtain ⟨houtputs, hholds⟩ := ih
      obtain ⟨hout, hnext⟩ := hstep _ _ e hholds
      rw [trace_concat, List.map_append, List.map_singleton, run_concat, List.length_map]
      refine ⟨?_, hnext⟩
      refine List.rel_append ?_ ?_
      · refine houtputs.imp fun x o h => ?_
        obtain ⟨hplace, e', he', hx⟩ := h
        refine ⟨hplace, e', ?_, hx⟩
        rw [List.getElem?_append_left (List.getElem?_eq_some_iff.mp he').1, he']
      · rw [hout, List.map_map, List.forall₂_map_left_iff, List.forall₂_map_right_iff]
        refine List.forall₂_same.mpr fun o _ => ⟨rfl, e, ?_, rfl⟩
        simp

/-- Where one is a property of what the other renders, so are the places where they hold. -/
theorem rendered_at {β : Type*} {l : List (ℕ × O)} {t : List (ℕ × β)} {es : List E}
    {render : E → β → O} {P : O → Prop} {Q : β → Prop} (hiff : ∀ e o, P (render e o) ↔ Q o)
    (h : List.Forall₂ (fun x o => x.1 = o.1 ∧ ∃ e, es[o.1]? = some e ∧ x.2 = render e o.2) l t)
    (j k : ℕ) : (∃ x, l[j]? = some (k, x) ∧ P x) ↔ ∃ o, t[j]? = some (k, o) ∧ Q o := by
  obtain ⟨hlength, hplaces⟩ := List.forall₂_iff_get.mp h
  constructor
  · rintro ⟨x, hx, hp⟩
    obtain ⟨hlt, hget⟩ := List.getElem?_eq_some_iff.mp hx
    obtain ⟨hplace, e, -, hrender⟩ := hplaces j hlt (hlength ▸ hlt)
    simp only [List.get_eq_getElem, hget] at hplace hrender
    refine ⟨t[j].2, ?_, (hiff e _).mp (hrender ▸ hp)⟩
    rw [List.getElem?_eq_getElem (hlength ▸ hlt), hplace]
  · rintro ⟨o, ho, hq⟩
    obtain ⟨hlt, hget⟩ := List.getElem?_eq_some_iff.mp ho
    obtain ⟨hplace, e, -, hrender⟩ := hplaces j (hlength ▸ hlt) hlt
    simp only [List.get_eq_getElem, hget] at hplace hrender
    refine ⟨render e o, ?_, (hiff e o).mpr hq⟩
    rw [List.getElem?_eq_getElem (hlength ▸ hlt), ← hplace, ← hrender]

end Trace

end Collector
