import Mathlib.Data.Finset.Card
import Torpor.Fleet.Routes
import Torpor.Lib.Collector
import Torpor.Lib.Utf8

/-!
# The Aggregating Routers

`FanInRouter` and `QuorumRouter` pass what the members of a fleet report on to one agent, and then
tell it to conclude. Both are a collector: the first asks for every expected member, the second
for a number of voters.

## Main results

* `routers_finalizeOnce`: for every sequence of events, both routers report once a member and
  conclude once, in order and when it is due.
-/

namespace Torpor

open Collector

variable {D : Type}

/-- `FleetEvent`, as a router sees it. -/
inductive RouterInput (D : Type)
  | result (agent : AgentId) (cause : D) (text : List Char)
  | emit (agent : AgentId) (cause : D) (emitType : UInt8) (payload : List UInt8)
  | deadline (agent : AgentId)
  deriving DecidableEq, Repr

/-- `char::is_whitespace`. -/
def isWhitespace (c : Char) : Bool :=
  (0x09 ≤ c.val && c.val ≤ 0x0D) || c.val = 0x20 || c.val = 0x85 || c.val = 0xA0 ||
    c.val = 0x1680 || (0x2000 ≤ c.val && c.val ≤ 0x200A) || c.val = 0x2028 || c.val = 0x2029 ||
    c.val = 0x202F || c.val = 0x205F || c.val = 0x3000

/-- `str::trim`. -/
def trim (text : List Char) : List Char :=
  ((text.dropWhile isWhitespace).reverse.dropWhile isWhitespace).reverse

/-- The text of a result is decoded from its payload. -/
def RouterEvent.input : RouterEvent D → RouterInput D
  | .reported (.result agent cause payload) => .result agent cause (trim (Utf8.lossy payload))
  | .reported (.emit agent cause emitType payload) => .emit agent cause emitType payload
  | .deadline agent => .deadline agent

/-- The bytes of a text. -/
def textBytes (text : String) : List UInt8 := Utf8.encode text.toList

/-! ### FanInRouter -/

/-- `FanInRouter`. -/
structure FanInRouter (D : Type) where
  aggregator : AgentId
  finalizeCause : D
  labels : AList fun _ : AgentId => List Char
  seen : Finset AgentId
  finalized : Bool

namespace FanInRouter

/-- `FanInRouter::new`. -/
def new (aggregator : AgentId) (finalizeCause : D) (labels : AList fun _ : AgentId => List Char) :
    FanInRouter D :=
  { aggregator, finalizeCause, labels, seen := ∅, finalized := false }

/-- `finalize`. -/
def finalize (r : FanInRouter D) : List (Route D) × FanInRouter D :=
  if !r.finalized ∧ r.seen ≠ ∅ then
    ([.sendCaused r.aggregator (textBytes "FINALIZE") r.finalizeCause],
      { r with finalized := true })
  else ([], r)

/-- The payload of a report. -/
def reportPayload (r : FanInRouter D) (agent : AgentId) (text : List Char) : List UInt8 :=
  match r.labels.lookup agent with
  | some label => textBytes "REPORT:" ++ Utf8.encode (label ++ ':' :: text)
  | none => textBytes "REPORT:" ++ Utf8.encode text

/-- The report of an agent is passed on if it is the first one. -/
def report (r : FanInRouter D) (agent : AgentId) (cause : D) (text : List Char) :
    List (Route D) × FanInRouter D :=
  if agent ∈ r.seen then ([], r)
  else ([.sendCaused r.aggregator (r.reportPayload agent text) cause],
    { r with seen := insert agent r.seen })

/-- All expected members but the aggregator have reported. -/
def allIn (ctx : Ctx) (r : FanInRouter D) : Bool :=
  (ctx.expected.filter (· ≠ r.aggregator)).all (· ∈ r.seen)

/-- `on_event`. -/
def onEvent (ctx : Ctx) (r : FanInRouter D) (ev : RouterInput D) :
    List (Route D) × FanInRouter D :=
  match ev with
  | .deadline _ => r.finalize
  | .emit .. => ([], r)
  | .result agent cause text =>
      if agent = r.aggregator then ([.done], r)
      else
        let (routes, r) := r.report agent cause text
        if r.allIn ctx then (routes ++ r.finalize.1, r.finalize.2) else (routes, r)

/-- `FanInRouter` as a router of the driver. -/
def router : Router (FanInRouter D) D := ⟨fun r ev ctx => r.onEvent ctx ev.input⟩

end FanInRouter

/-! ### QuorumRouter -/

/-- `QuorumRouter`. -/
structure QuorumRouter (D : Type) where
  secretary : AgentId
  proposalCause : D
  threshold : ℕ
  votes : Finset AgentId
  tallied : Bool

namespace QuorumRouter

/-- `QuorumRouter::new`. -/
def new (secretary : AgentId) (proposalCause : D) (threshold : ℕ) : QuorumRouter D :=
  { secretary, proposalCause, threshold, votes := ∅, tallied := false }

/-- `tally`. -/
def tally (r : QuorumRouter D) : List (Route D) × QuorumRouter D :=
  if !r.tallied ∧ r.votes ≠ ∅ then
    ([.sendCaused r.secretary (textBytes "TALLY:" ++ textBytes (toString r.threshold))
        r.proposalCause], { r with tallied := true })
  else ([], r)

/-- The vote of an agent is passed on if it is the first one. -/
def vote (r : QuorumRouter D) (agent : AgentId) (cause : D) (text : List Char) :
    List (Route D) × QuorumRouter D :=
  if agent ∈ r.votes then ([], r)
  else ([.sendCaused r.secretary (textBytes "VOTE:" ++ Utf8.encode text) cause],
    { r with votes := insert agent r.votes })

/-- `on_event`. -/
def onEvent (r : QuorumRouter D) (ev : RouterInput D) : List (Route D) × QuorumRouter D :=
  match ev with
  | .deadline _ => r.tally
  | .emit .. => ([], r)
  | .result agent cause text =>
      if agent = r.secretary then ([.done], r)
      else
        let (routes, r) := r.vote agent cause text
        if r.threshold ≤ r.votes.card then (routes ++ r.tally.1, r.tally.2) else (routes, r)

/-- `QuorumRouter` as a router of the driver. -/
def router : Router (QuorumRouter D) D := ⟨fun r ev _ => r.onEvent ev.input⟩

end QuorumRouter

/-! ### What is said of a router -/

/-- A route that hands the center a payload beginning with this text. -/
def Route.Hands (center : AgentId) (text : String) (x : Route D) : Prop :=
  ∃ rest cause, x = .sendCaused center (textBytes text ++ rest) cause

/-- The event at the place `k` is a result of the agent. -/
def FromAt (evs : List (RouterInput D)) (k : ℕ) (a : AgentId) : Prop :=
  ∃ cause text, evs[k]? = some (.result a cause text)

/-- The agent has reported. -/
def Reported (evs : List (RouterInput D)) (a : AgentId) : Prop :=
  ∃ cause text, .result a cause text ∈ evs

/-- The agents that have reported to the center. -/
def reporters (center : AgentId) (evs : List (RouterInput D)) : Finset AgentId :=
  (evs.filterMap fun | .result a _ _ => some a | .emit .. | .deadline _ => none).toFinset.erase
    center

/-- The route at the place `j`, for the event `k`, hands the center such a payload. -/
def HandsAt (center : AgentId) (text : String) (routed : List (ℕ × Route D)) (j k : ℕ) : Prop :=
  ∃ x, routed[j]? = some (k, x) ∧ x.Hands center text

/-- What a router has routed for a list of events, each route with the place of its event: the
reports begin with one text and the conclusion with another, and `enough` says of the events so
far that the conclusion need not wait for a deadline. -/
structure FinalizesOnce (center : AgentId) (report final : String)
    (enough : List (RouterInput D) → Prop) (evs : List (RouterInput D))
    (routed : List (ℕ × Route D)) : Prop where
  report_from : ∀ {j k}, HandsAt center report routed j k → ∃ a ≠ center, FromAt evs k a
  report_once : ∀ {a j j' k k'}, HandsAt center report routed j k → FromAt evs k a →
    HandsAt center report routed j' k' → FromAt evs k' a → j = j'
  final_once : ∀ {i i' k k'}, HandsAt center final routed i k →
    HandsAt center final routed i' k' → i = i'
  after_report : ∀ {i k}, HandsAt center final routed i k →
    ∃ j k', j < i ∧ HandsAt center report routed j k'
  due : ∀ {i k}, HandsAt center final routed i k →
    enough (evs.take (k + 1)) ∨ ∃ a, .deadline a ∈ evs.take (k + 1)
  ordered : ∀ {a i j k k'}, HandsAt center final routed i k → HandsAt center report routed j k' →
    FromAt evs k' a → Reported (evs.take (k + 1)) a → j < i
  complete : (∃ j k, HandsAt center report routed j k) → enough evs →
    ∃ i k, HandsAt center final routed i k

/-! ### As collectors -/

/-- What an event is for a collector. -/
def RouterInput.collected (center : AgentId) : RouterInput D → Input AgentId
  | .result agent _ _ => if agent = center then .note else .arrive agent
  | .emit .. => .skip
  | .deadline _ => .cutOff

section

variable {center : AgentId} {evs : List (RouterInput D)} {a : AgentId}

theorem collected_eq_arrive_iff {ev : RouterInput D} : ev.collected center = .arrive a ↔
    a ≠ center ∧ ∃ cause text, ev = .result a cause text := by
  cases ev with
  | result agent cause text =>
      simp only [RouterInput.collected]
      split_ifs with hcenter
      · constructor
        · intro h
          cases h
        · rintro ⟨hne, _, _, h⟩
          exact absurd ((RouterInput.result.inj h).1 ▸ hcenter) hne
      · constructor
        · intro h
          obtain rfl := Input.arrive.inj h
          exact ⟨hcenter, cause, text, rfl⟩
        · rintro ⟨-, _, _, h⟩
          rw [(RouterInput.result.inj h).1]
  | emit agent cause emitType payload => simp [RouterInput.collected]
  | deadline agent => simp [RouterInput.collected]

theorem collected_eq_cutOff_iff {ev : RouterInput D} : ev.collected center = .cutOff ↔
    ∃ a, ev = .deadline a := by
  cases ev with
  | result agent cause text =>
      simp only [RouterInput.collected]
      split_ifs <;> simp
  | emit agent cause emitType payload => simp [RouterInput.collected]
  | deadline agent => simp [RouterInput.collected]

theorem mem_arrived_collected : a ∈ arrived (evs.map (·.collected center)) ↔
    a ≠ center ∧ Reported evs a := by
  simp only [mem_arrived, List.mem_map, collected_eq_arrive_iff, Reported]
  constructor
  · rintro ⟨ev, hev, hne, cause, text, rfl⟩
    exact ⟨hne, cause, text, hev⟩
  · rintro ⟨hne, cause, text, hev⟩
    exact ⟨_, hev, hne, cause, text, rfl⟩

theorem arrived_collected : arrived (evs.map (·.collected center)) = reporters center evs := by
  ext a
  rw [mem_arrived_collected, reporters, Finset.mem_erase, List.mem_toFinset, List.mem_filterMap]
  refine and_congr_right fun _ => ⟨?_, ?_⟩
  · rintro ⟨cause, text, hev⟩
    exact ⟨_, hev, rfl⟩
  · rintro ⟨ev, hev, ha⟩
    cases ev with
    | result agent cause text => exact ⟨cause, text, Option.some.inj ha ▸ hev⟩
    | emit agent cause emitType payload => cases ha
    | deadline agent => cases ha

end

/-- A router that puts out what a collector does, reports for its items and the conclusion for
its close, finalizes once. -/
theorem finalizesOnce_of_rendered {center : AgentId} {report final : String}
    {enough : Finset AgentId → Prop} [DecidablePred enough]
    {render : RouterInput D → Output AgentId → Route D} {evs : List (RouterInput D)}
    {routed : List (ℕ × Route D)}
    (hreport : ∀ e o, (render e o).Hands center report ↔ ∃ a, o = .item a)
    (hfinal : ∀ e o, (render e o).Hands center final ↔ o = .close)
    (hrendered : List.Forall₂
      (fun x o => x.1 = o.1 ∧ ∃ e, evs[o.1]? = some e ∧ x.2 = render e o.2) routed
        (run enough (evs.map (·.collected center))).1) :
    FinalizesOnce center report final (fun evs => enough (reporters center evs)) evs routed := by
  have hcollects : Collects enough _ _ := collects_run (evs.map (·.collected center))
  generalize (run enough (evs.map (·.collected center))).1 = t at hrendered hcollects
  have hitem : ∀ {j k}, HandsAt center report routed j k ↔ ∃ a, ItemAt t j k a := by
    intro j k
    rw [HandsAt, rendered_at hreport hrendered]
    constructor
    · rintro ⟨o, ho, a, rfl⟩
      exact ⟨a, ho⟩
    · rintro ⟨a, ha⟩
      exact ⟨_, ha, a, rfl⟩
  have hclose : ∀ {i k}, HandsAt center final routed i k ↔ CloseAt t i k := by
    intro i k
    rw [HandsAt, rendered_at hfinal hrendered]
    simp only [exists_eq_right]
    rfl
  have hfrom : ∀ {j k a b}, ItemAt t j k b → FromAt evs k a → b = a := by
    rintro j k a b hb ⟨cause, text, ha⟩
    have hinput := hcollects.item_mem hb
    rw [List.getElem?_map, ha, Option.map_some] at hinput
    obtain ⟨-, cause', text', heq⟩ := collected_eq_arrive_iff.mp (Option.some.inj hinput)
    exact (RouterInput.result.inj heq).1.symm
  have harrived : ∀ k, arrived ((evs.map (·.collected center)).take (k + 1)) =
      reporters center (evs.take (k + 1)) := by
    intro k
    rw [← List.map_take, arrived_collected]
  constructor
  case report_from =>
    intro j k hj
    obtain ⟨a, ha⟩ := hitem.mp hj
    have hinput := hcollects.item_mem ha
    rw [List.getElem?_map, Option.map_eq_some_iff] at hinput
    obtain ⟨ev, hev, harrive⟩ := hinput
    obtain ⟨hne, cause, text, rfl⟩ := collected_eq_arrive_iff.mp harrive
    exact ⟨a, hne, cause, text, hev⟩
  case report_once =>
    intro a j j' k k' hj hk hj' hk'
    obtain ⟨b, hb⟩ := hitem.mp hj
    obtain ⟨b', hb'⟩ := hitem.mp hj'
    rw [hfrom hb hk] at hb
    rw [hfrom hb' hk'] at hb'
    exact hcollects.item_once hb hb'
  case final_once => exact fun hi hi' => hcollects.close_once (hclose.mp hi) (hclose.mp hi')
  case after_report =>
    intro i k hi
    obtain ⟨j, k', a, hlt, hj⟩ := hcollects.after_item (hclose.mp hi)
    exact ⟨j, k', hlt, hitem.mpr ⟨a, hj⟩⟩
  case due =>
    intro i k hi
    have hdue := hcollects.due (hclose.mp hi)
    rw [harrived] at hdue
    refine hdue.imp_right fun hcut => ?_
    rw [← List.map_take, List.mem_map] at hcut
    obtain ⟨ev, hev, hcut⟩ := hcut
    obtain ⟨a, rfl⟩ := collected_eq_cutOff_iff.mp hcut
    exact ⟨a, hev⟩
  case ordered =>
    intro a i j k k' hi hj hk hreported
    obtain ⟨b, hb⟩ := hitem.mp hj
    obtain rfl := hfrom hb hk
    have hinput := mem_arrived.mpr (List.mem_of_getElem? (hcollects.item_mem hb))
    rw [mem_arrived_collected] at hinput
    refine hcollects.ordered (hclose.mp hi) hb ?_
    rw [← List.map_take, mem_arrived_collected]
    exact ⟨hinput.1, hreported⟩
  case complete =>
    rintro ⟨j, k, hj⟩ henough
    obtain ⟨a, ha⟩ := hitem.mp hj
    rw [← arrived_collected] at henough
    have hmem : a ∈ arrived (evs.map (·.collected center)) :=
      mem_arrived.mpr (List.mem_of_getElem? (hcollects.item_mem ha))
    obtain ⟨i, k, hi⟩ := hcollects.complete ⟨a, hmem⟩ henough
    exact ⟨i, k, hclose.mpr hi⟩

theorem hands_append (center : AgentId) (text : String) (rest : List UInt8) (cause : D) :
    (Route.sendCaused center (textBytes text ++ rest) cause).Hands center text :=
  ⟨rest, cause, rfl⟩

/-- A payload begins with one text only, if their first bytes differ. -/
theorem not_hands_append {center : AgentId} {text text' : String} {b c : UInt8}
    (hb : (textBytes text).head? = some b) (hc : (textBytes text').head? = some c)
    (hne : b ≠ c) (rest : List UInt8) (cause : D) :
    ¬ (Route.sendCaused center (textBytes text ++ rest) cause).Hands center text' := by
  rintro ⟨rest', cause', h⟩
  have hhead := congrArg List.head? (Route.sendCaused.inj h).2.1
  rw [List.head?_append, List.head?_append, hb, hc] at hhead
  exact hne (Option.some.inj hhead)

theorem not_hands_done (center : AgentId) (text : String) :
    ¬ (Route.done : Route D).Hands center text := by
  rintro ⟨_, _, h⟩
  cases h

/-- The text of an event, if it is a result. -/
def RouterInput.text : RouterInput D → List Char
  | .result _ _ text => text
  | .emit .. | .deadline _ => []

/-- The cause of an event, if it is a result. -/
def RouterInput.causeD (ev : RouterInput D) (default : D) : D :=
  match ev with
  | .result _ cause _ => cause
  | .emit .. | .deadline _ => default

namespace FanInRouter

variable (ctx : Ctx) (r : FanInRouter D) (s : State AgentId)

/-- The router when it has collected this. -/
def collecting : FanInRouter D := { r with seen := s.seen, finalized := s.closed }

def render (ev : RouterInput D) : Output AgentId → Route D
  | .item agent => .sendCaused r.aggregator (r.reportPayload agent ev.text)
      (ev.causeD r.finalizeCause)
  | .close => .sendCaused r.aggregator (textBytes "FINALIZE") r.finalizeCause
  | .note => .done

/-- The agents are all that the router waits for. -/
def Enough (seen : Finset AgentId) : Prop := ({ r with seen } : FanInRouter D).allIn ctx = true

instance : DecidablePred (r.Enough ctx) := fun _ => inferInstanceAs (Decidable (_ = true))

theorem finalize_collecting (ev : RouterInput D) :
    (r.collecting s).finalize = (s.close.1.map (r.render ev), r.collecting s.close.2) := by
  by_cases hopen : !s.closed ∧ s.seen ≠ ∅
  · have hopen' : !(r.collecting s).finalized ∧ (r.collecting s).seen ≠ ∅ := hopen
    rw [finalize, if_pos hopen', State.close, if_pos hopen]
    rfl
  · have hopen' : ¬ (!(r.collecting s).finalized ∧ (r.collecting s).seen ≠ ∅) := hopen
    rw [finalize, if_neg hopen', State.close, if_neg hopen]
    rfl

theorem report_collecting (agent : AgentId) (cause : D) (text : List Char) :
    (r.collecting s).report agent cause text =
      ((s.take agent).1.map (r.render (.result agent cause text)),
        r.collecting (s.take agent).2) := by
  by_cases hmem : agent ∈ s.seen
  · have hmem' : agent ∈ (r.collecting s).seen := hmem
    rw [report, if_pos hmem', State.take, if_pos hmem]
    rfl
  · have hmem' : agent ∉ (r.collecting s).seen := hmem
    rw [report, if_neg hmem', State.take, if_neg hmem]
    rfl

/-- One event is one step of the collector. -/
theorem onEvent_collecting (ev : RouterInput D) :
    (r.collecting s).onEvent ctx ev =
      ((step (r.Enough ctx) s (ev.collected r.aggregator)).1.map (r.render ev),
        r.collecting (step (r.Enough ctx) s (ev.collected r.aggregator)).2) := by
  cases ev with
  | result agent cause text =>
      have hcollecting : (r.collecting s).aggregator = r.aggregator := rfl
      by_cases hcenter : agent = r.aggregator
      · rw [RouterInput.collected, if_pos hcenter, onEvent, hcollecting, if_pos hcenter]
        rfl
      · rw [RouterInput.collected, if_neg hcenter, onEvent, hcollecting, if_neg hcenter,
          report_collecting, step]
        by_cases hall : r.Enough ctx (s.take agent).2.seen
        · have hall' : (r.collecting (s.take agent).2).allIn ctx = true := hall
          simp only [if_pos hall, if_pos hall', finalize_collecting r _
            (.result agent cause text), List.map_append]
        · have hall' : ¬ (r.collecting (s.take agent).2).allIn ctx = true := hall
          simp only [if_neg hall, if_neg hall']
  | emit agent cause emitType payload => rfl
  | deadline agent => exact r.finalize_collecting s _

theorem hands_report_iff (ev : RouterInput D) (o : Output AgentId) :
    (r.render ev o).Hands r.aggregator "REPORT:" ↔ ∃ a, o = .item a := by
  cases o with
  | item a =>
      refine iff_of_true ?_ ⟨a, rfl⟩
      simp only [render, reportPayload]
      cases r.labels.lookup a <;> exact hands_append _ _ _ _
  | close =>
      refine iff_of_false ?_ (by simp)
      rw [render, ← List.append_nil (textBytes "FINALIZE")]
      exact not_hands_append (b := 0x46) (c := 0x52) (by decide) (by decide) (by decide) _ _
  | note => exact iff_of_false (not_hands_done _ _) (by simp)

theorem hands_finalize_iff (ev : RouterInput D) (o : Output AgentId) :
    (r.render ev o).Hands r.aggregator "FINALIZE" ↔ o = .close := by
  cases o with
  | item a =>
      refine iff_of_false ?_ (by simp)
      simp only [render, reportPayload]
      cases r.labels.lookup a <;>
        exact not_hands_append (b := 0x52) (c := 0x46) (by decide) (by decide) (by decide) _ _
  | close =>
      refine iff_of_true ?_ rfl
      rw [render, ← List.append_nil (textBytes "FINALIZE")]
      exact hands_append _ _ _ _
  | note => exact iff_of_false (not_hands_done _ _) (by simp)

/-- **The fan-in**, for every sequence of events. -/
theorem finalizesOnce (evs : List (RouterInput D)) (hr : r.seen = ∅ ∧ r.finalized = false) :
    FinalizesOnce r.aggregator "REPORT:" "FINALIZE"
      (fun evs => r.Enough ctx (reporters r.aggregator evs)) evs (trace (onEvent ctx) r evs).1 := by
  have hstart : r = r.collecting { seen := ∅, closed := false } := by
    rw [collecting, ← hr.1, ← hr.2]
  refine finalizesOnce_of_rendered r.hands_report_iff r.hands_finalize_iff ?_
  refine (trace_rendered (fun r' s => r' = r.collecting s) hstart ?_ evs).1
  rintro _ s e rfl
  rw [r.onEvent_collecting ctx s e]
  exact ⟨rfl, rfl⟩

end FanInRouter

namespace QuorumRouter

variable (r : QuorumRouter D) (s : State AgentId)

/-- The router when it has collected this. -/
def collecting : QuorumRouter D := { r with votes := s.seen, tallied := s.closed }

def render (ev : RouterInput D) : Output AgentId → Route D
  | .item _ => .sendCaused r.secretary (textBytes "VOTE:" ++ Utf8.encode ev.text)
      (ev.causeD r.proposalCause)
  | .close => .sendCaused r.secretary
      (textBytes "TALLY:" ++ textBytes (toString r.threshold)) r.proposalCause
  | .note => .done

/-- The voters are as many as the router waits for. -/
def Enough (votes : Finset AgentId) : Prop := r.threshold ≤ votes.card

instance : DecidablePred r.Enough := fun _ => inferInstanceAs (Decidable (_ ≤ _))

theorem tally_collecting (ev : RouterInput D) :
    (r.collecting s).tally = (s.close.1.map (r.render ev), r.collecting s.close.2) := by
  by_cases hopen : !s.closed ∧ s.seen ≠ ∅
  · have hopen' : !(r.collecting s).tallied ∧ (r.collecting s).votes ≠ ∅ := hopen
    rw [tally, if_pos hopen', State.close, if_pos hopen]
    rfl
  · have hopen' : ¬ (!(r.collecting s).tallied ∧ (r.collecting s).votes ≠ ∅) := hopen
    rw [tally, if_neg hopen', State.close, if_neg hopen]
    rfl

theorem vote_collecting (agent : AgentId) (cause : D) (text : List Char) :
    (r.collecting s).vote agent cause text =
      ((s.take agent).1.map (r.render (.result agent cause text)),
        r.collecting (s.take agent).2) := by
  by_cases hmem : agent ∈ s.seen
  · have hmem' : agent ∈ (r.collecting s).votes := hmem
    rw [vote, if_pos hmem', State.take, if_pos hmem]
    rfl
  · have hmem' : agent ∉ (r.collecting s).votes := hmem
    rw [vote, if_neg hmem', State.take, if_neg hmem]
    rfl

/-- One event is one step of the collector. -/
theorem onEvent_collecting (ev : RouterInput D) :
    (r.collecting s).onEvent ev =
      ((step r.Enough s (ev.collected r.secretary)).1.map (r.render ev),
        r.collecting (step r.Enough s (ev.collected r.secretary)).2) := by
  cases ev with
  | result agent cause text =>
      have hcollecting : (r.collecting s).secretary = r.secretary := rfl
      by_cases hcenter : agent = r.secretary
      · rw [RouterInput.collected, if_pos hcenter, onEvent, hcollecting, if_pos hcenter]
        rfl
      · rw [RouterInput.collected, if_neg hcenter, onEvent, hcollecting, if_neg hcenter,
          vote_collecting, step]
        by_cases hall : r.Enough (s.take agent).2.seen
        · have hall' : (r.collecting (s.take agent).2).threshold ≤
              (r.collecting (s.take agent).2).votes.card := hall
          simp only [if_pos hall, if_pos hall', tally_collecting r _
            (.result agent cause text), List.map_append]
        · have hall' : ¬ (r.collecting (s.take agent).2).threshold ≤
              (r.collecting (s.take agent).2).votes.card := hall
          simp only [if_neg hall, if_neg hall']
  | emit agent cause emitType payload => rfl
  | deadline agent => exact r.tally_collecting s _

theorem hands_vote_iff (ev : RouterInput D) (o : Output AgentId) :
    (r.render ev o).Hands r.secretary "VOTE:" ↔ ∃ a, o = .item a := by
  cases o with
  | item a => exact iff_of_true (hands_append _ _ _ _) ⟨a, rfl⟩
  | close =>
      refine iff_of_false ?_ (by simp)
      exact not_hands_append (b := 0x54) (c := 0x56) (by decide) (by decide) (by decide) _ _
  | note => exact iff_of_false (not_hands_done _ _) (by simp)

theorem hands_tally_iff (ev : RouterInput D) (o : Output AgentId) :
    (r.render ev o).Hands r.secretary "TALLY:" ↔ o = .close := by
  cases o with
  | item a =>
      refine iff_of_false ?_ (by simp)
      exact not_hands_append (b := 0x56) (c := 0x54) (by decide) (by decide) (by decide) _ _
  | close => exact iff_of_true (hands_append _ _ _ _) rfl
  | note => exact iff_of_false (not_hands_done _ _) (by simp)

/-- **The quorum**, for every sequence of events. -/
theorem finalizesOnce (evs : List (RouterInput D)) (hr : r.votes = ∅ ∧ r.tallied = false) :
    FinalizesOnce r.secretary "VOTE:" "TALLY:"
      (fun evs => r.Enough (reporters r.secretary evs)) evs (trace onEvent r evs).1 := by
  have hstart : r = r.collecting { seen := ∅, closed := false } := by
    rw [collecting, ← hr.1, ← hr.2]
  refine finalizesOnce_of_rendered r.hands_vote_iff r.hands_tally_iff ?_
  refine (trace_rendered (fun r' s => r' = r.collecting s) hstart ?_ evs).1
  rintro _ s e rfl
  rw [r.onEvent_collecting s e]
  exact ⟨rfl, rfl⟩

end QuorumRouter

/-- **The aggregating routers**, for every sequence of events: the fan-in concludes when every
expected member but the aggregator has reported, the quorum when as many agents as its threshold
have voted. -/
theorem routers_finalizeOnce (ctx : Ctx) (center : AgentId) (cause : D)
    (labels : AList fun _ : AgentId => List Char) (threshold : ℕ)
    (evs : List (RouterInput D)) :
    FinalizesOnce center "REPORT:" "FINALIZE"
        (fun evs => ∀ a ∈ ctx.expected, a ≠ center → Reported evs a) evs
        (trace (FanInRouter.onEvent ctx) (.new center cause labels) evs).1 ∧
      FinalizesOnce center "VOTE:" "TALLY:"
        (fun evs => threshold ≤ (reporters center evs).card) evs
        (trace QuorumRouter.onEvent (.new center cause threshold) evs).1 := by
  refine ⟨?_, (QuorumRouter.new center cause threshold).finalizesOnce evs ⟨rfl, rfl⟩⟩
  have hfanIn := (FanInRouter.new center cause labels).finalizesOnce ctx evs ⟨rfl, rfl⟩
  have henough : (fun evs => (FanInRouter.new center cause labels).Enough ctx
      (reporters center evs)) = fun evs : List (RouterInput D) =>
        ∀ a ∈ ctx.expected, a ≠ center → Reported evs a := by
    funext evs
    simp only [FanInRouter.Enough, FanInRouter.allIn, List.all_eq_true, List.mem_filter,
      decide_eq_true_eq, and_imp, ← arrived_collected, mem_arrived_collected]
    refine propext ⟨fun h a ha hne => (h a ha hne).2, fun h a ha hne => ⟨hne, h a ha hne⟩⟩
  rwa [← henough]

/-- What the driver makes of the log is fed to them as such events. -/
theorem trace_router (ctx : Ctx) (center : AgentId) (cause : D)
    (labels : AList fun _ : AgentId => List Char) (threshold : ℕ)
    (evs : List (RouterEvent D)) :
    trace (fun r ev => FanInRouter.router.onEvent r ev ctx) (.new center cause labels) evs =
        trace (FanInRouter.onEvent ctx) (.new center cause labels)
          (evs.map RouterEvent.input) ∧
      trace (fun r ev => QuorumRouter.router.onEvent r ev ctx) (.new center cause threshold) evs =
        trace QuorumRouter.onEvent (.new center cause threshold) (evs.map RouterEvent.input) :=
  ⟨trace_map _ _ _ _, trace_map _ _ _ _⟩

end Torpor
