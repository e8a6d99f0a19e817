import Torpor.Actor.Emissions
import Torpor.Lib.FirstComers
import Torpor.Lib.Machine

/-!
# Refused Accesses

`emit_cap_denied` logs the refused accesses of an agent, within bounds: a limiter counts them in
windows of a second, and keeps the first distinct resources that were refused in the window. Here
a run is any sequence of refused accesses, with anything that does not touch the limiter in
between; the clock may read anything, and every append succeeds.

## Main results

* `Audit.attributed_iff`: the first distinct resources of a window are attributed exactly if the
  refusal at which the first aggregated entry is due is not the one that introduces a resource, or
  another one attributes the same bytes.
* `Audit.bounded`: what a window appends, and that no refusal without an entry comes before an
  aggregated one.
* `Audit.masked`: a hundred refusals of one resource, and the only one of another.
-/

namespace Torpor

open FirstComers

variable {D : Type} [ContentHash D]

/-! ### The entries of refusals -/

/-- The bytes of a resource that an entry carries. -/
def carriedBytes (resource : List Char) : List UInt8 := (Utf8.encode resource).take 255

namespace LogEntry

/-- The entry of an individual refusal of the resource. -/
def Attributes (e : LogEntry D) (resource : List Char) : Prop :=
  ∃ env agentId capId perm, e.emitPayload = some env ∧
    env.emitType = EmitType.capabilityDenied.asU8 ∧
    env.payload =
      (.capabilityDenied agentId capId resource perm : RuntimeEmission D).payload

/-- The entry of aggregated refusals. -/
def Aggregates (e : LogEntry D) : Prop :=
  ∃ env agentId capId count perm, e.emitPayload = some env ∧
    env.emitType = EmitType.capabilityDenied.asU8 ∧
    env.payload =
      (.capabilityDeniedAggregated agentId capId count perm : RuntimeEmission D).payload

/-- The two layouts end differently. -/
theorem Attributes.not_aggregates {e : LogEntry D} {resource : List Char}
    (h : e.Attributes resource) : ¬ e.Aggregates := by
  obtain ⟨env, agentId, capId, perm, henv, -, hpayload⟩ := h
  rintro ⟨env', agentId', capId', count, perm', henv', -, hpayload'⟩
  obtain rfl : env = env' := Option.some.inj (henv.symm.trans henv')
  have hlast := congrArg List.getLast? (hpayload.symm.trans hpayload')
  simp [RuntimeEmission.payload, List.getLast?_append, List.getLast?_cons] at hlast

/-- An entry carries the bytes of one resource only. -/
theorem Attributes.carriedBytes_eq {e : LogEntry D} {r s : List Char} (hr : e.Attributes r)
    (hs : e.Attributes s) : carriedBytes r = carriedBytes s := by
  obtain ⟨env, agentId, capId, perm, henv, -, hpayload⟩ := hr
  obtain ⟨env', agentId', capId', perm', henv', -, hpayload'⟩ := hs
  obtain rfl : env = env' := Option.some.inj (henv.symm.trans henv')
  have heq := hpayload.symm.trans hpayload'
  simp only [RuntimeEmission.payload, List.append_assoc, List.cons_append] at heq
  have hhead : (agentBytes agentId).length = (agentBytes agentId').length := by simp
  have hcap : (leBytes 8 capId.toNat).length = (leBytes 8 capId'.toNat).length := by simp
  obtain ⟨-, hbytes⟩ := List.cons.inj
    (List.append_inj_right (List.append_inj_right heq hhead) hcap)
  exact List.append_inj_left' hbytes rfl

/-- Resources with the same carried bytes have the same entries. -/
theorem Attributes.of_carriedBytes_eq {e : LogEntry D} {r s : List Char} (hr : e.Attributes r)
    (heq : carriedBytes r = carriedBytes s) : e.Attributes s := by
  obtain ⟨env, agentId, capId, perm, henv, htype, hpayload⟩ := hr
  refine ⟨env, agentId, capId, perm, henv, htype, hpayload.trans ?_⟩
  simp only [carriedBytes] at heq
  simp only [RuntimeEmission.payload, heq]

end LogEntry

/-! ### One refusal -/

namespace CapDeniedDecision

/-- The entries that a refusal of the resource leaves, decided so. -/
def Logs (resource : List Char) (entries : List (LogEntry D)) : CapDeniedDecision → Prop
  | silent => entries = []
  | attributed => ∃ e, entries = [e] ∧ e.Attributes resource
  | aggregated => ∃ e, entries = [e] ∧ e.Aggregates

end CapDeniedDecision

namespace Caller

/-- What `emit_cap_denied` decides. -/
def refusalDecision (c : Caller D) (resource : List Char) : CapDeniedDecision :=
  ( c.data.capDenied.admit c.now.1 resource).1

variable (c : Caller D) (capId : UInt64) (resource : List Char) (perm : UInt8)

theorem emitCapDenied_capDenied : (c.emitCapDenied capId resource perm).data.capDenied =
    ( c.data.capDenied.admit c.now.1 resource).2 := by
  obtain ⟨limiter, rfl, heq | ⟨nowMs, nowUs, payload, heq⟩⟩ :=
    c.emitCapDenied_cases capId resource perm
  · rw [heq]
    rfl
  · rw [heq]
    simp only [append]
    split <;> rfl

theorem emitCapDenied_fault : (c.emitCapDenied capId resource perm).world.fault =
    c.world.fault := by
  obtain ⟨limiter, -, heq | ⟨nowMs, nowUs, payload, heq⟩⟩ :=
    c.emitCapDenied_cases capId resource perm
  · rw [heq]
    rfl
  · rw [heq]
    simp only [append, write, World.write]
    split <;> rfl

theorem emitCapDenied_clock : (c.emitCapDenied capId resource perm).data.clock = c.data.clock := by
  obtain ⟨limiter, -, heq | ⟨nowMs, nowUs, payload, heq⟩⟩ :=
    c.emitCapDenied_cases capId resource perm
  · rw [heq]
    rfl
  · rw [heq]
    simp only [append]
    split <;> rfl

omit [ContentHash D] in
theorem append_writes [ContentHash D] {c : Caller D} (writer : Writer) (e : LogEntry D)
    (hfault : c.world.fault c.world.ios = false) :
    (c.append writer e).2.world.writes = c.world.writes ++ [.append writer e] := by
  simp only [append, write, World.write, hfault, Bool.false_eq_true, if_false, if_true, setData]

/-- If the append succeeds, the entries are those that were decided. -/
theorem emitCapDenied_logs (hfault : c.world.fault c.world.ios = false) :
    ∃ entries, (c.emitCapDenied capId resource perm).world.writes =
        c.world.writes ++ entries.map (.append .runtime) ∧
      (c.refusalDecision resource).Logs resource entries := by
  have hcap : c.now.2.data.capDenied = c.data.capDenied := rfl
  simp only [emitCapDenied, refusalDecision, hcap]
  obtain ⟨decision, limiter⟩ := c.data.capDenied.admit c.now.1 resource
  cases decision with
  | silent => exact ⟨[], (List.append_nil _).symm, rfl⟩
  | attributed =>
      refine ⟨[_], append_writes .runtime _ hfault, _, rfl, ?_⟩
      exact ⟨_, c.data.id, capId, perm, rfl, rfl, rfl⟩
  | aggregated =>
      refine ⟨[_], append_writes .runtime _ hfault, _, rfl, ?_⟩
      refine ⟨_, c.data.id, capId, .ofNat limiter.count, perm, rfl, rfl, ?_⟩
      rw [RuntimeEmission.payload, leBytes_uint32]
      rfl

end Caller

/-! ### Windows -/

/-- A refused access, and the entries that it left. -/
structure Refusal (D : Type) where
  resource : List Char
  entries : List (LogEntry D)

/-- The refusals between two resets of the limiter, in order. -/
abbrev Window (D : Type) : Type := List (Refusal D)

namespace Window

/-- The resources that were refused. -/
def resources (w : Window D) : List (List Char) := w.map (·.resource)

/-- The entries of the window. -/
def entries (w : Window D) : List (LogEntry D) := w.flatMap (·.entries)

/-- Each of the first distinct resources has an individual entry that carries it, written in the
window and in the log. -/
def Attributed (w : Window D) (log : List (Write D)) : Prop :=
  ∀ r ∈ firsts Caller.capDeniedMaxDistinctResources w.resources,
    ∃ x ∈ w, ∃ e ∈ x.entries, e.Attributes r ∧ .append .runtime e ∈ log

/-- A refusal without an entry comes after one with an aggregated entry. -/
def NoGap (w : Window D) : Prop :=
  ∀ (k : ℕ) (x : Refusal D), w[k]? = some x → x.entries = [] →
    ∃ (j : ℕ) (y : Refusal D), j < k ∧ w[j]? = some y ∧ ∃ e ∈ y.entries, e.Aggregates

end Window

/-- The refusal at the place `k` is attributed, unless it is the one at which the first aggregated
entry is due. -/
def Eligible (rs : List (List Char)) (k : ℕ) : Prop :=
  Introduces Caller.capDeniedMaxDistinctResources rs k ∨
    (k + 1) % 2 ^ 32 ≤ Caller.capDeniedRateLimit

/-- If the refusal at which the first aggregated entry is due introduces a resource, another one
is attributed and carries the same bytes. -/
def Attributable (rs : List (List Char)) : Prop :=
  ∀ r, rs[Caller.capDeniedRateLimit]? = some r →
    Introduces Caller.capDeniedMaxDistinctResources rs Caller.capDeniedRateLimit →
      ∃ k s, k ≠ Caller.capDeniedRateLimit ∧ rs[k]? = some s ∧ carriedBytes s = carriedBytes r ∧
        Eligible rs k

/-- What the place of a refusal in its window makes of it. -/
structure Outcome (rs : List (List Char)) (k : ℕ) (x : Refusal D) : Prop where
  aggregated : k = Caller.capDeniedRateLimit → ∃ e, x.entries = [e] ∧ e.Aggregates
  attributed : k ≠ Caller.capDeniedRateLimit → Eligible rs k →
    ∃ e, x.entries = [e] ∧ e.Attributes x.resource
  other : k ≠ Caller.capDeniedRateLimit → ¬ Eligible rs k → ∀ e ∈ x.entries, e.Aggregates

/-- Later refusals do not change what a place makes of one. -/
theorem Outcome.append {w : Window D} {rs : List (List Char)} {k : ℕ} {x : Refusal D}
    (h : Outcome w.resources k x) (hk : k < w.length) : Outcome (w.resources ++ rs) k x := by
  have heligible : Eligible (w.resources ++ rs) k ↔ Eligible w.resources k :=
    or_congr_left (introduces_append (by rwa [Window.resources, List.length_map]))
  exact ⟨h.aggregated, fun hne he => h.attributed hne (heligible.mp he),
    fun hne he => h.other hne (heligible.not.mp he)⟩

namespace CapDeniedLimiter

/-- A refusal at this time opens a new window. -/
def OpensAt (l : CapDeniedLimiter) (nowMs : ℕ) : Prop :=
  Caller.capDeniedWindowMs ≤ nowMs - l.windowStartMs

instance (l : CapDeniedLimiter) (nowMs : ℕ) : Decidable (l.OpensAt nowMs) :=
  inferInstanceAs (Decidable (_ ≤ _))

/-- A refusal that opens a window is decided with the limiter of the new one. -/
theorem admit_of_opensAt {l : CapDeniedLimiter} {nowMs : ℕ} (h : l.OpensAt nowMs)
    (resource : List Char) :
    l.admit nowMs resource = CapDeniedLimiter.admit (reset nowMs) nowMs resource := by
  have hopens : Caller.capDeniedWindowMs ≤ nowMs - l.windowStartMs := h
  have hstays : ¬ Caller.capDeniedWindowMs ≤ nowMs - (reset nowMs).windowStartMs := by
    simp [reset, Caller.capDeniedWindowMs]
  simp only [ CapDeniedLimiter.admit, if_pos hopens, if_neg hstays]

theorem not_opensAt_reset (nowMs : ℕ) : ¬ (reset nowMs).OpensAt nowMs := by
  simp [OpensAt, reset, Caller.capDeniedWindowMs]

/-- A resource is kept if it is new and there is room. -/
def Keeps (l : CapDeniedLimiter) (resource : List Char) : Prop :=
  resource ∉ l.resources ∧ l.resources.length < Caller.capDeniedMaxDistinctResources

instance (l : CapDeniedLimiter) (resource : List Char) : Decidable (l.Keeps resource) :=
  inferInstanceAs (Decidable (_ ∧ _))

/-- The four cases of a decision within a window. -/
theorem admit_cases {l : CapDeniedLimiter} {nowMs : ℕ} (hstays : ¬ l.OpensAt nowMs)
    (resource : List Char) :
    ∃ decision aggregate overflow, l.admit nowMs resource = (decision,
        { count := (l.count + 1) % 2 ^ 32
          windowStartMs := l.windowStartMs
          resources := if l.Keeps resource then resource :: l.resources else l.resources
          aggregateEmitted := aggregate
          setOverflowEmitted := overflow }) ∧
      ((Caller.capDeniedRateLimit < (l.count + 1) % 2 ^ 32 ∧ !l.aggregateEmitted) ∧
          decision = .aggregated ∧ aggregate = true ∧ overflow = l.setOverflowEmitted ∨
        ¬ (Caller.capDeniedRateLimit < (l.count + 1) % 2 ^ 32 ∧ !l.aggregateEmitted) ∧
          aggregate = l.aggregateEmitted ∧
          ((l.Keeps resource ∨ (l.count + 1) % 2 ^ 32 ≤ Caller.capDeniedRateLimit) ∧
            decision = .attributed ∧ overflow = l.setOverflowEmitted ∨
          ¬ (l.Keeps resource ∨ (l.count + 1) % 2 ^ 32 ≤ Caller.capDeniedRateLimit) ∧
            (decision = .aggregated ∧ l.setOverflowEmitted = false ∧ overflow = true ∨
              decision = .silent ∧ overflow = l.setOverflowEmitted))) := by
  have hopens : ¬ Caller.capDeniedWindowMs ≤ nowMs - l.windowStartMs := hstays
  simp only [ CapDeniedLimiter.admit, if_neg hopens]
  generalize (l.count + 1) % 2 ^ 32 = count
  by_cases hkeeps : l.Keeps resource
  · have hnew : resource ∉ l.resources ∧
        l.resources.length < Caller.capDeniedMaxDistinctResources := hkeeps
    simp only [if_pos hkeeps, if_pos hnew]
    by_cases hagg : Caller.capDeniedRateLimit < count ∧ !l.aggregateEmitted
    · simp only [if_pos hagg]
      exact ⟨_, _, _, rfl, .inl ⟨hagg, rfl, rfl, rfl⟩⟩
    · simp only [if_neg hagg]
      exact ⟨_, _, _, rfl, .inr ⟨hagg, rfl, .inl ⟨.inl hkeeps, rfl, rfl⟩⟩⟩
  · have hknown : ¬ (resource ∉ l.resources ∧
        l.resources.length < Caller.capDeniedMaxDistinctResources) := hkeeps
    simp only [if_neg hkeeps, if_neg hknown]
    by_cases hagg : Caller.capDeniedRateLimit < count ∧ !l.aggregateEmitted
    · simp only [if_pos hagg]
      exact ⟨_, _, _, rfl, .inl ⟨hagg, rfl, rfl, rfl⟩⟩
    · simp only [if_neg hagg]
      by_cases hbelow : count ≤ Caller.capDeniedRateLimit
      · simp only [if_pos hbelow]
        exact ⟨_, _, _, rfl, .inr ⟨hagg, rfl, .inl ⟨.inr hbelow, rfl, rfl⟩⟩⟩
      · simp only [if_neg hbelow]
        have hother := not_or.mpr ⟨hkeeps, hbelow⟩
        split_ifs with hovf
        · have hfirst : l.setOverflowEmitted = false := by simpa using hovf.2.2
          exact ⟨_, _, _, rfl, .inr ⟨hagg, rfl, .inr ⟨hother, .inl ⟨rfl, hfirst, rfl⟩⟩⟩⟩
        · exact ⟨_, _, _, rfl, .inr ⟨hagg, rfl, .inr ⟨hother, .inr ⟨rfl, rfl⟩⟩⟩⟩

/-- The limiter after the refusals of a window. -/
structure Tracks (l : CapDeniedLimiter) (w : Window D) : Prop where
  count : l.count = w.length % 2 ^ 32
  resources : l.resources.reverse =
    firsts Caller.capDeniedMaxDistinctResources w.resources
  aggregateEmitted : l.aggregateEmitted = decide (Caller.capDeniedRateLimit < w.length)
  bounded : w.length < 2 ^ 32 → w.entries.length ≤ min w.length Caller.capDeniedRateLimit +
    min (w.length - Caller.capDeniedRateLimit) 1 + (l.resources.length - 1) +
    l.setOverflowEmitted.toNat
  outcome : ∀ k x, w[k]? = some x → Outcome w.resources k x

theorem tracks_reset (nowMs : ℕ) : (reset nowMs).Tracks ([] : Window D) where
  count := rfl
  resources := by simp [reset, Window.resources]
  aggregateEmitted := rfl
  bounded := fun _ => Nat.zero_le _
  outcome := fun k x hx => by simp at hx

/-- The limiter keeps a resource if the refusal introduces it. -/
theorem Tracks.keeps_iff {l : CapDeniedLimiter} {w : Window D} (h : l.Tracks w)
    (resource : List Char) : l.Keeps resource ↔
      Introduces Caller.capDeniedMaxDistinctResources (w.resources ++ [resource]) w.length := by
  have hlen : w.length = w.resources.length := (List.length_map _).symm
  rw [hlen, introduces_length_iff, ← h.resources, List.mem_reverse, List.length_reverse]
  rfl

/-- The resources with one more refusal. -/
theorem Tracks.resources_concat {l : CapDeniedLimiter} {w : Window D} (h : l.Tracks w)
    (resource : List Char) :
    (if l.Keeps resource then resource :: l.resources else l.resources).reverse =
      firsts Caller.capDeniedMaxDistinctResources (w.resources ++ [resource]) := by
  rw [firsts_concat, ← h.resources]
  by_cases hkeeps : l.Keeps resource
  · rw [if_pos hkeeps, if_pos, List.reverse_cons]
    rwa [List.mem_reverse, List.length_reverse]
  · rw [if_neg hkeeps, if_neg]
    rwa [List.mem_reverse, List.length_reverse]

theorem Tracks.count_succ {l : CapDeniedLimiter} {w : Window D} (h : l.Tracks w) :
    (l.count + 1) % 2 ^ 32 = (w.length + 1) % 2 ^ 32 := by
  rw [h.count, Nat.mod_add_mod]

/-- The first aggregated entry is due at one place. -/
theorem Tracks.due_iff {l : CapDeniedLimiter} {w : Window D} (h : l.Tracks w) :
    (Caller.capDeniedRateLimit < (l.count + 1) % 2 ^ 32 ∧ !l.aggregateEmitted) ↔
      w.length = Caller.capDeniedRateLimit := by
  rw [h.count_succ, h.aggregateEmitted]
  simp only [Caller.capDeniedRateLimit, Bool.not_eq_true']
  constructor
  · rintro ⟨hover, hfirst⟩
    have hle : ¬ 100 < w.length := of_decide_eq_false hfirst
    omega
  · intro hlen
    rw [hlen]
    decide

theorem Tracks.eligible_iff {l : CapDeniedLimiter} {w : Window D} (h : l.Tracks w)
    (resource : List Char) :
    (l.Keeps resource ∨ (l.count + 1) % 2 ^ 32 ≤ Caller.capDeniedRateLimit) ↔
      Eligible (w.resources ++ [resource]) w.length := by
  rw [h.keeps_iff, h.count_succ]
  rfl

theorem Tracks.resources_pos {l : CapDeniedLimiter} {w : Window D} (h : l.Tracks w)
    (hpos : 0 < w.length) : 0 < l.resources.length := by
  rw [← List.length_reverse, h.resources]
  refine length_firsts_pos (by decide) ?_
  rwa [Window.resources, List.length_map]

/-- The decision about one more refusal, and the two flags after it. -/
inductive Decided (l : CapDeniedLimiter) (w : Window D) (resource : List Char) :
    CapDeniedDecision → Bool → Bool → Prop
  | due (hdue : w.length = Caller.capDeniedRateLimit) :
      Decided l w resource .aggregated true l.setOverflowEmitted
  | eligible (hdue : w.length ≠ Caller.capDeniedRateLimit)
      (heligible : Eligible (w.resources ++ [resource]) w.length) :
      Decided l w resource .attributed l.aggregateEmitted l.setOverflowEmitted
  | overflow (hdue : w.length ≠ Caller.capDeniedRateLimit)
      (hother : ¬ Eligible (w.resources ++ [resource]) w.length)
      (hfirst : l.setOverflowEmitted = false) :
      Decided l w resource .aggregated l.aggregateEmitted true
  | silent (hdue : w.length ≠ Caller.capDeniedRateLimit)
      (hother : ¬ Eligible (w.resources ++ [resource]) w.length) :
      Decided l w resource .silent l.aggregateEmitted l.setOverflowEmitted

theorem Tracks.decided {l : CapDeniedLimiter} {w : Window D} (h : l.Tracks w) {nowMs : ℕ}
    (hstays : ¬ l.OpensAt nowMs) (resource : List Char) :
    ∃ decision aggregate overflow, Decided l w resource decision aggregate overflow ∧
      l.admit nowMs resource = (decision,
        { count := (l.count + 1) % 2 ^ 32
          windowStartMs := l.windowStartMs
          resources := if l.Keeps resource then resource :: l.resources else l.resources
          aggregateEmitted := aggregate
          setOverflowEmitted := overflow }) := by
  obtain ⟨decision, aggregate, overflow, heq, hcases⟩ := admit_cases hstays resource
  rw [h.due_iff, h.eligible_iff] at hcases
  refine ⟨decision, aggregate, overflow, ?_, heq⟩
  rcases hcases with ⟨hdue, rfl, rfl, rfl⟩ |
    ⟨hdue, rfl, ⟨heligible, rfl, rfl⟩ | ⟨hother, ⟨rfl, hfirst, rfl⟩ | ⟨rfl, rfl⟩⟩⟩
  · exact .due hdue
  · exact .eligible hdue heligible
  · exact .overflow hdue hother hfirst
  · exact .silent hdue hother

/-- The sentinel is set once the window is over the limit. -/
theorem Decided.aggregateEmitted {l : CapDeniedLimiter} {w : Window D} {resource : List Char}
    {decision : CapDeniedDecision} {aggregate overflow : Bool} (h : l.Tracks w)
    (hd : Decided l w resource decision aggregate overflow) :
    aggregate = decide (Caller.capDeniedRateLimit < w.length + 1) := by
  have hkept : w.length ≠ Caller.capDeniedRateLimit →
      l.aggregateEmitted = decide (Caller.capDeniedRateLimit < w.length + 1) := by
    intro hdue
    rw [h.aggregateEmitted, decide_eq_decide]
    omega
  cases hd with
  | due hdue => exact (decide_eq_true (by omega)).symm
  | eligible hdue => exact hkept hdue
  | overflow hdue => exact hkept hdue
  | silent hdue => exact hkept hdue

/-- What one more refusal appends is within the bound. -/
theorem Decided.length_entries_le {l : CapDeniedLimiter} {w : Window D} {x : Refusal D}
    {decision : CapDeniedDecision} {aggregate overflow : Bool} (h : l.Tracks w)
    (hd : Decided l w x.resource decision aggregate overflow)
    (hx : decision.Logs x.resource x.entries) (hshort : w.length + 1 < 2 ^ 32) :
    w.entries.length + x.entries.length ≤ min (w.length + 1) Caller.capDeniedRateLimit +
      min (w.length + 1 - Caller.capDeniedRateLimit) 1 +
      ((if l.Keeps x.resource then x.resource :: l.resources else l.resources).length - 1) +
      overflow.toNat := by
  have hbounded := h.bounded (by omega)
  have hpos := h.resources_pos
  generalize hkept : (if l.Keeps x.resource then x.resource :: l.resources
    else l.resources) = kept
  have hgrows : l.resources.length ≤ kept.length := by
    rw [← hkept]
    split_ifs
    · exact Nat.le_succ _
    · exact le_rfl
  simp only [Caller.capDeniedRateLimit] at hbounded ⊢
  cases hd with
  | due hdue =>
      obtain ⟨e, he, -⟩ := hx
      rw [Caller.capDeniedRateLimit] at hdue
      rw [he, List.length_singleton]
      omega
  | eligible hdue heligible =>
      obtain ⟨e, he, -⟩ := hx
      rw [Caller.capDeniedRateLimit] at hdue
      rw [he, List.length_singleton]
      by_cases hbelow : w.length < 100
      · omega
      · -- Past the limit only a resource that is kept is attributed.
        have hlen : kept.length = l.resources.length + 1 := by
          rcases (h.eligible_iff _).mpr heligible with hkeeps | hcount
          · rw [← hkept, if_pos hkeeps, List.length_cons]
          · rw [h.count_succ, Caller.capDeniedRateLimit] at hcount
            omega
        omega
  | overflow hdue hother hfirst =>
      obtain ⟨e, he, -⟩ := hx
      rw [he, List.length_singleton, Bool.toNat_true]
      rw [hfirst, Bool.toNat_false] at hbounded
      omega
  | silent hdue hother =>
      have he : x.entries = [] := hx
      rw [he, List.length_nil]
      omega

/-- What the place of one more refusal makes of it. -/
theorem Decided.outcome {l : CapDeniedLimiter} {w : Window D} {x : Refusal D}
    {decision : CapDeniedDecision} {aggregate overflow : Bool}
    (hd : Decided l w x.resource decision aggregate overflow)
    (hx : decision.Logs x.resource x.entries) :
    Outcome (w.resources ++ [x.resource]) w.length x := by
  cases hd with
  | due hdue => exact ⟨fun _ => hx, fun hne => absurd hdue hne, fun hne => absurd hdue hne⟩
  | eligible hdue heligible =>
      exact ⟨fun heq => absurd heq hdue, fun _ _ => hx, fun _ hne => absurd heligible hne⟩
  | overflow hdue hother =>
      obtain ⟨e, he, hagg⟩ := hx
      refine ⟨fun heq => absurd heq hdue, fun _ heligible => absurd heligible hother, ?_⟩
      intro _ _ e' he'
      rw [he] at he'
      exact List.mem_singleton.mp he' ▸ hagg
  | silent hdue hother =>
      have he : x.entries = [] := hx
      refine ⟨fun heq => absurd heq hdue, fun _ heligible => absurd heligible hother, ?_⟩
      intro _ _ e' he'
      rw [he] at he'
      cases he'

/-- **One refusal.** The limiter tracks the window with it. -/
theorem Tracks.concat {l : CapDeniedLimiter} {w : Window D} (h : l.Tracks w) {nowMs : ℕ}
    (hstays : ¬ l.OpensAt nowMs) {x : Refusal D}
    (hx : ( l.admit nowMs x.resource).1.Logs x.resource x.entries) :
    ( l.admit nowMs x.resource).2.Tracks (w ++ [x]) := by
  have hresources : Window.resources (w ++ [x]) = w.resources ++ [x.resource] := by
    simp [Window.resources]
  have hlength : List.length (w ++ [x]) = w.length + 1 := List.length_append
  have hentries : Window.entries (w ++ [x]) = w.entries ++ x.entries := by
    simp [Window.entries]
  obtain ⟨decision, aggregate, overflow, hdecided, heq⟩ := h.decided hstays x.resource
  rw [heq] at hx ⊢
  constructor
  case count =>
    rw [hlength]
    exact h.count_succ
  case resources =>
    rw [hresources]
    exact h.resources_concat x.resource
  case aggregateEmitted =>
    rw [hlength]
    exact hdecided.aggregateEmitted h
  case bounded =>
    intro hshort
    rw [hlength] at hshort
    rw [hentries, hlength, List.length_append]
    exact hdecided.length_entries_le h hx hshort
  case outcome =>
    rw [hresources]
    intro k y hy
    obtain hlt | rfl | hgt := Nat.lt_trichotomy k w.length
    · rw [List.getElem?_append_left hlt] at hy
      exact (h.outcome k y hy).append hlt
    · obtain rfl : x = y := by simpa using hy
      exact hdecided.outcome hx
    · rw [List.getElem?_eq_none (by omega)] at hy
      cases hy

end CapDeniedLimiter

/-! ### What a window says -/

section

variable {l : CapDeniedLimiter} {w : Window D}

theorem attributed_iff_of_tracks (h : l.Tracks w) {log : List (Write D)}
    (hlogged : ∀ x ∈ w, ∀ e ∈ x.entries, .append .runtime e ∈ log) :
    w.Attributed log ↔ Attributable w.resources := by
  have hat : ∀ {k : ℕ} {r : List Char}, w.resources[k]? = some r → ∃ x : Refusal D, w[k]? = some x ∧
      x.resource = r := by
    intro k r hk
    rw [Window.resources, List.getElem?_map, Option.map_eq_some_iff] at hk
    exact hk
  constructor
  · intro hattributed r hr hintro
    obtain ⟨x, hx, e, he, hcarries, -⟩ := hattributed r (mem_firsts_iff.mpr ⟨_, hr, hintro⟩)
    obtain ⟨k, hk⟩ := List.mem_iff_getElem?.mp hx
    have houtcome := h.outcome k x hk
    -- An individual entry is that of an eligible refusal at another place.
    by_cases hdue : k = Caller.capDeniedRateLimit
    · obtain ⟨e', he', hagg⟩ := houtcome.aggregated hdue
      rw [he'] at he
      exact absurd (List.mem_singleton.mp he ▸ hagg) hcarries.not_aggregates
    · by_cases heligible : Eligible w.resources k
      · obtain ⟨e', he', hown⟩ := houtcome.attributed hdue heligible
        rw [he'] at he
        obtain rfl : e = e' := List.mem_singleton.mp he
        refine ⟨k, x.resource, hdue, ?_, hown.carriedBytes_eq hcarries, heligible⟩
        rw [Window.resources, List.getElem?_map, hk, Option.map_some]
      · exact absurd (houtcome.other hdue heligible e he) hcarries.not_aggregates
  · intro hattributable r hr
    have hother : ∃ k s, k ≠ Caller.capDeniedRateLimit ∧ w.resources[k]? = some s ∧
        carriedBytes s = carriedBytes r ∧ Eligible w.resources k := by
      obtain ⟨k, hk, hintro⟩ := mem_firsts_iff.mp hr
      by_cases hdue : k = Caller.capDeniedRateLimit
      · rw [hdue] at hk hintro
        exact hattributable r hk hintro
      · exact ⟨k, r, hdue, hk, rfl, .inl hintro⟩
    obtain ⟨k, s, hdue, hk, hbytes, heligible⟩ := hother
    obtain ⟨x, hx, rfl⟩ := hat hk
    obtain ⟨e, he, hcarries⟩ := (h.outcome k x hx).attributed hdue heligible
    have hmem : x ∈ w := List.mem_of_getElem? hx
    have hentry : e ∈ x.entries := he ▸ List.mem_singleton_self e
    exact ⟨x, hmem, e, hentry, hcarries.of_carriedBytes_eq hbytes, hlogged x hmem e hentry⟩

theorem noGap_of_tracks (h : l.Tracks w) : w.NoGap := by
  intro k x hk hnone
  have houtcome := h.outcome k x hk
  have hdue : k ≠ Caller.capDeniedRateLimit := by
    intro hdue
    obtain ⟨e, he, -⟩ := houtcome.aggregated hdue
    rw [hnone] at he
    cases he
  have hover : ¬ Eligible w.resources k := by
    intro heligible
    obtain ⟨e, he, -⟩ := houtcome.attributed hdue heligible
    rw [hnone] at he
    cases he
  have hlt : Caller.capDeniedRateLimit < k := by
    have hcount : ¬ (k + 1) % 2 ^ 32 ≤ Caller.capDeniedRateLimit := fun hle => hover (.inr hle)
    simp only [Caller.capDeniedRateLimit] at hcount hdue ⊢
    omega
  have hlen : k < w.length := (List.getElem?_eq_some_iff.mp hk).1
  obtain ⟨e, he, hagg⟩ := (h.outcome _ _ (List.getElem?_eq_getElem (hlt.trans hlen))).aggregated rfl
  exact ⟨_, _, hlt, List.getElem?_eq_getElem (hlt.trans hlen), e,
    he ▸ List.mem_singleton_self e, hagg⟩

theorem length_entries_le_of_tracks (h : l.Tracks w) (hshort : w.length < 2 ^ 32) :
    w.entries.length ≤ 133 := by
  have hbounded := h.bounded hshort
  have hroom : l.resources.length ≤ 32 := by
    rw [← List.length_reverse, h.resources]
    exact List.length_take_le _ _
  have hflag := l.setOverflowEmitted.toNat_le
  simp only [Caller.capDeniedRateLimit] at hbounded
  omega

end

/-! ### Runs -/

/-- An agent, with the windows of its refusals so far. -/
structure Audit (D : Type) where
  caller : Caller D
  closed : List (Window D)
  current : Window D

/-- A refused access, or what else happens: the limiter is not touched, and the log grows. -/
inductive AuditEvent (D : Type)
  | refuse (capId : UInt64) (resource : List Char) (perm : UInt8)
  | meanwhile (caller : Caller D) (writes : List (Write D))

namespace Audit

def start (c : Caller D) : Audit D := { caller := c, closed := [], current := [] }

/-- The windows, in order. -/
def windows (s : Audit D) : List (Window D) := s.closed ++ [s.current]

/-- A refused access, with the entries among the writes that it has added. -/
def refusal (c : Caller D) (capId : UInt64) (resource : List Char) (perm : UInt8) : Refusal D :=
  let writes := (c.emitCapDenied capId resource perm).world.writes
  { resource
    entries :=
      (writes.drop c.world.writes.length).filterMap fun w => w.entry?.map Prod.snd }

/-- One event; the append that a refusal may make succeeds. -/
def step (s : Audit D) : AuditEvent D → Option (Audit D)
  | .refuse capId resource perm =>
      if s.caller.world.fault s.caller.world.ios then none
      else
        let c := s.caller.emitCapDenied capId resource perm
        let x := refusal s.caller capId resource perm
        if s.caller.data.capDenied.OpensAt s.caller.now.1 then
          some { caller := c, closed := s.closed ++ [s.current], current := [x] }
        else some { s with caller := c, current := s.current ++ [x] }
  | .meanwhile c writes =>
      some { s with caller := { c with
        data := { c.data with id := s.caller.data.id, capDenied := s.caller.data.capDenied }
        world := { c.world with writes := s.caller.world.writes ++ writes } } }

/-- Every window is one that a limiter tracks, and its entries are in the log. -/
structure Invariant (s : Audit D) : Prop where
  current : s.caller.data.capDenied.Tracks s.current
  closed : ∀ w ∈ s.closed, ∃ l : CapDeniedLimiter, l.Tracks w
  logged : ∀ w ∈ s.windows, ∀ x ∈ w, ∀ e ∈ x.entries,
    .append .runtime e ∈ s.caller.world.writes

theorem invariant_start {c : Caller D} (hc : c.data.capDenied = {}) : (start c).Invariant where
  current := by
    have hfresh : (start c).caller.data.capDenied = .reset 0 := hc
    rw [hfresh]
    exact CapDeniedLimiter.tracks_reset 0
  closed := fun w hw => by cases hw
  logged := by
    intro w hw x hx
    obtain rfl : w = [] := by simpa [windows, start] using hw
    cases hx

/-- A refusal leaves the entries that were decided. -/
theorem refusal_logs {c : Caller D} (capId : UInt64) (resource : List Char) (perm : UInt8)
    (hfault : c.world.fault c.world.ios = false) :
    (c.emitCapDenied capId resource perm).world.writes = c.world.writes ++
        (refusal c capId resource perm).entries.map (.append .runtime) ∧
      (c.refusalDecision resource).Logs resource (refusal c capId resource perm).entries := by
  obtain ⟨entries, hwrites, hlogs⟩ := c.emitCapDenied_logs capId resource perm hfault
  have hnew : (refusal c capId resource perm).entries = entries := by
    simp only [refusal]
    rw [hwrites, List.drop_left, List.filterMap_map]
    exact List.filterMap_some
  rw [hnew]
  exact ⟨hwrites, hlogs⟩

/-- The entries of the windows so far stay in the log, and those of a refusal are in it. -/
theorem logged_of_refusal {s : Audit D} (h : s.Invariant) {x : Refusal D}
    {log : List (Write D)}
    (hwrites : log = s.caller.world.writes ++ x.entries.map (.append .runtime))
    {w : Window D} (hw : ∀ y ∈ w, y = x ∨ ∃ w' ∈ s.windows, y ∈ w') :
    ∀ y ∈ w, ∀ e ∈ y.entries, .append .runtime e ∈ log := by
  intro y hy e he
  rw [hwrites, List.mem_append]
  rcases hw y hy with rfl | ⟨w', hw', hy'⟩
  · exact .inr (List.mem_map.mpr ⟨e, he, rfl⟩)
  · exact .inl (h.logged w' hw' y hy' e he)

theorem invariant_step {s s' : Audit D} {ev : AuditEvent D} (h : s.Invariant)
    (hstep : s.step ev = some s') : s'.Invariant := by
  cases ev with
  | refuse capId resource perm =>
      simp only [step] at hstep
      split_ifs at hstep with hfault hopens
      all_goals
        obtain ⟨hwrites, hlogs⟩ := refusal_logs capId resource perm (by simpa using hfault)
        cases hstep
      · rw [Caller.refusalDecision, CapDeniedLimiter.admit_of_opensAt hopens] at hlogs
        refine ⟨?_, fun w hw => ?_, fun w hw => logged_of_refusal h hwrites fun y hy => ?_⟩
        · rw [Caller.emitCapDenied_capDenied, CapDeniedLimiter.admit_of_opensAt hopens]
          exact (CapDeniedLimiter.tracks_reset _).concat (CapDeniedLimiter.not_opensAt_reset _)
            (x := refusal s.caller capId resource perm) hlogs
        · rcases List.mem_append.mp hw with hw | hw
          · exact h.closed w hw
          · exact ⟨_, List.mem_singleton.mp hw ▸ h.current⟩
        · rcases List.mem_append.mp hw with hw | hw
          · exact .inr ⟨w, hw, hy⟩
          · rw [List.mem_singleton.mp hw] at hy
            exact .inl (List.mem_singleton.mp hy)
      · refine ⟨?_, h.closed, fun w hw => logged_of_refusal h hwrites fun y hy => ?_⟩
        · rw [Caller.emitCapDenied_capDenied]
          exact h.current.concat hopens (x := refusal s.caller capId resource perm) hlogs
        · rcases List.mem_append.mp hw with hw | hw
          · exact .inr ⟨w, List.mem_append_left _ hw, hy⟩
          · rw [List.mem_singleton.mp hw] at hy
            rcases List.mem_append.mp hy with hy | hy
            · exact .inr ⟨s.current, List.mem_append_right _ (List.mem_singleton_self _), hy⟩
            · exact .inl (List.mem_singleton.mp hy)
  | meanwhile c writes =>
      cases hstep
      refine ⟨h.current, h.closed, fun w hw x hx e he => ?_⟩
      exact List.mem_append_left _ (h.logged w hw x hx e he)

/-- **Every run.** -/
theorem invariant_run {c : Caller D} (hc : c.data.capDenied = {}) {evs : List (AuditEvent D)}
    {s : Audit D} (hrun : Machine.run step (start c) evs = some s) : s.Invariant :=
  Machine.run_invariant (fun _ _ _ h hstep => invariant_step h hstep) (invariant_start hc) hrun

/-- Every window of a run is one that a limiter tracks. -/
theorem exists_tracks {s : Audit D} (h : s.Invariant) {w : Window D} (hw : w ∈ s.windows) :
    ∃ l : CapDeniedLimiter, l.Tracks w := by
  rcases List.mem_append.mp hw with hw | hw
  · exact h.closed w hw
  · exact ⟨_, List.mem_singleton.mp hw ▸ h.current⟩

/-- **Attribution**, for every run and every window: the first distinct resources are attributed
exactly under the condition. -/
theorem attributed_iff {c : Caller D} (hc : c.data.capDenied = {}) {evs : List (AuditEvent D)}
    {s : Audit D} (hrun : Machine.run step (start c) evs = some s) :
    ∀ w ∈ s.windows, w.Attributed s.caller.world.writes ↔ Attributable w.resources := by
  intro w hw
  have h := invariant_run hc hrun
  obtain ⟨l, htracks⟩ := exists_tracks h hw
  exact attributed_iff_of_tracks htracks (h.logged w hw)

/-- **The audit is bounded and has no gaps**, for every run and every window. -/
theorem bounded {c : Caller D} (hc : c.data.capDenied = {}) {evs : List (AuditEvent D)}
    {s : Audit D} (hrun : Machine.run step (start c) evs = some s) :
    ∀ w ∈ s.windows, w.length < 2 ^ 32 → w.entries.length ≤ 133 ∧ w.NoGap := by
  intro w hw hshort
  obtain ⟨l, htracks⟩ := exists_tracks (invariant_run hc hrun) hw
  exact ⟨length_entries_le_of_tracks htracks hshort, noGap_of_tracks htracks⟩

/-! ### The calls of a guest -/

/-- What leaves the agent, its limiter and the log as they are. -/
theorem run_quiet (s : Audit D) {c : Caller D} (hid : c.data.id = s.caller.data.id)
    (hlimiter : c.data.capDenied = s.caller.data.capDenied)
    (hwrites : c.world.writes = s.caller.world.writes) :
    Machine.run step s [.meanwhile c []] = some { s with caller := c } := by
  have hcaller : { c with
      data := { c.data with id := s.caller.data.id, capDenied := s.caller.data.capDenied }
      world := { c.world with writes := s.caller.world.writes ++ [] } } = c := by
    rw [← hid, ← hlimiter, ← hwrites, List.append_nil]
  simp only [Machine.run, step, hcaller, Option.bind_some]

theorem run_refuse (s : Audit D) (hfault : s.caller.world.fault s.caller.world.ios = false)
    (capId : UInt64) (resource : List Char) (perm : UInt8) :
    ∃ s', Machine.run step s [.refuse capId resource perm] = some s' ∧
      s'.caller = s.caller.emitCapDenied capId resource perm := by
  simp only [Machine.run, step, hfault, Bool.false_eq_true, if_false]
  split_ifs
  · exact ⟨_, rfl, rfl⟩
  · exact ⟨_, rfl, rfl⟩

/-- `agent_store_get` is a refused access, or does not touch the limiter. -/
theorem exists_run_agentStoreGet (s : Audit D)
    (hfault : s.caller.world.fault s.caller.world.ios = false) (resourcePtr resourceLen : Int32)
    (capId : UInt64) (outPtr : Int32) :
    ∃ evs s', Machine.run step s evs = some s' ∧
      s'.caller = (s.caller.agentStoreGet resourcePtr resourceLen capId outPtr).2 := by
  rcases s.caller.agentStoreGet_cases resourcePtr resourceLen capId outPtr with
    ⟨memory, h⟩ | ⟨resource, -, -, h⟩
  · exact ⟨_, _, run_quiet s (c := { s.caller with memory }) rfl rfl rfl, h.symm⟩
  · obtain ⟨s', hrun, hcaller⟩ := run_refuse s hfault capId resource 0x01
    exact ⟨_, s', hrun, hcaller.trans h.symm⟩

/-- `agent_store_put` as well. -/
theorem exists_run_agentStorePut (s : Audit D)
    (hfault : s.caller.world.fault s.caller.world.ios = false) (resourcePtr resourceLen : Int32)
    (capId : UInt64) (valPtr valLen : Int32) :
    ∃ evs s', Machine.run step s evs = some s' ∧
      s'.caller = (s.caller.agentStorePut resourcePtr resourceLen capId valPtr valLen).2 := by
  rcases s.caller.agentStorePut_cases resourcePtr resourceLen capId valPtr valLen with
    h | ⟨resource, value, -, h | ⟨-, h⟩⟩
  · exact ⟨[], s, rfl, h.symm⟩
  · exact ⟨_, _, run_quiet s (c := s.caller.kvInsert resource value) rfl rfl rfl, h.symm⟩
  · obtain ⟨s', hrun, hcaller⟩ := run_refuse s hfault capId resource 0x02
    exact ⟨_, s', hrun, hcaller.trans h.symm⟩

/-! ### Concrete runs -/

/-- An agent whose clock stands still. -/
def sampleCaller : Caller (List ℕ) :=
  (Actor.new 10 { clock := fun _ => 0, capStore := 0, kvStore := 0, causeHandleRegistry := 0 }
    [] Actor.blankWorld).caller

/-- Refusals of these resources for capability `7`. -/
def refusals (rs : List (List Char)) : List (AuditEvent D) := rs.map fun r => .refuse 7 r 0x01

/-- Nothing fails, and the clock stands still at the start of the window. -/
structure Steady (c : Caller D) : Prop where
  fault : c.world.fault = fun _ => false
  clock : c.data.clock = fun _ => 0
  window : c.data.capDenied.windowStartMs = 0

omit [ContentHash D] in
theorem Steady.stays {c : Caller D} (h : Steady c) : ¬ c.data.capDenied.OpensAt c.now.1 := by
  simp [CapDeniedLimiter.OpensAt, Caller.now, h.clock, Caller.capDeniedWindowMs]

theorem Steady.emitCapDenied {c : Caller D} (h : Steady c) (capId : UInt64)
    (resource : List Char) (perm : UInt8) : Steady (c.emitCapDenied capId resource perm) where
  fault := (c.emitCapDenied_fault capId resource perm).trans h.fault
  clock := (c.emitCapDenied_clock capId resource perm).trans h.clock
  window := by
    obtain ⟨_, _, _, heq, -⟩ := CapDeniedLimiter.admit_cases h.stays resource
    rw [c.emitCapDenied_capDenied capId resource perm, heq]
    exact h.window

/-- Then the window stays open. -/
theorem run_refusals {s : Audit D} (h : Steady s.caller) (rs : List (List Char)) :
    ∃ s', Machine.run step s (refusals rs) = some s' ∧
      s'.current.resources = s.current.resources ++ rs := by
  induction rs generalizing s with
  | nil => exact ⟨s, rfl, (List.append_nil _).symm⟩
  | cons r rs ih =>
      have hstep : s.step (.refuse 7 r 0x01) = some { s with
          caller := s.caller.emitCapDenied 7 r 0x01
          current := s.current ++ [refusal s.caller 7 r 0x01] } := by
        have hfault : ¬ s.caller.world.fault s.caller.world.ios = true := by simp [h.fault]
        simp only [step, if_neg hfault, if_neg h.stays]
      obtain ⟨s', hrun, hresources⟩ := ih (s := { s with
        caller := s.caller.emitCapDenied 7 r 0x01
        current := s.current ++ [refusal s.caller 7 r 0x01] }) (h.emitCapDenied 7 r 0x01)
      refine ⟨s', Machine.run_cons_eq_some.mpr ⟨_, hstep, hrun⟩, ?_⟩
      rw [hresources]
      simp [Window.resources, refusal]

theorem steady_sampleCaller : Steady sampleCaller := ⟨rfl, rfl, rfl⟩

theorem attributed_iff_one :
    ∃ s, Machine.run step (start sampleCaller) (refusals [['a']]) = some s ∧
    ∀ w ∈ s.windows, w.Attributed s.caller.world.writes ↔ Attributable w.resources := by
  obtain ⟨s, hrun, -⟩ := run_refusals (s := start sampleCaller) steady_sampleCaller [['a']]
  exact ⟨s, hrun, attributed_iff rfl hrun⟩

theorem bounded_one :
    ∃ s, Machine.run step (start sampleCaller) (refusals [['a']]) = some s ∧
    ∀ w ∈ s.windows, w.length < 2 ^ 32 → w.entries.length ≤ 133 ∧ w.NoGap := by
  obtain ⟨s, hrun, -⟩ := run_refusals (s := start sampleCaller) steady_sampleCaller [['a']]
  exact ⟨s, hrun, bounded rfl hrun⟩

/-- A hundred refusals of one resource, then one of another. -/
def flood : List (List Char) := List.replicate 100 ['a'] ++ [['b']]

theorem not_attributable_flood : ¬ Attributable flood := by
  intro h
  obtain ⟨k, s, hk, hs, hbytes, -⟩ := h ['b'] (by decide) (by decide)
  have hlt : k < 101 := (List.getElem?_eq_some_iff.mp hs).1
  have hk : k < 100 := by
    simp only [Caller.capDeniedRateLimit] at hk
    omega
  rw [flood, List.getElem?_append_left (by simpa using hk), List.getElem?_replicate,
    if_pos hk] at hs
  obtain rfl : ['a'] = s := Option.some.inj hs
  revert hbytes
  decide

/-- The second resource is refused and no entry carries it. -/
theorem masked : ¬ ∀ (c : Caller (List ℕ)) (evs : List (AuditEvent (List ℕ)))
    (s : Audit (List ℕ)), c.data.capDenied = {} → Machine.run step (start c) evs = some s →
      ∀ w ∈ s.windows, w.Attributed s.caller.world.writes := by
  intro h
  obtain ⟨s, hrun, hresources⟩ :=
    run_refusals (s := start sampleCaller) steady_sampleCaller flood
  have hcurrent : s.current ∈ s.windows :=
    List.mem_append_right _ (List.mem_singleton_self _)
  have hinv := invariant_run (c := sampleCaller) rfl hrun
  have hattributable : Attributable s.current.resources :=
    (attributed_iff_of_tracks hinv.current (hinv.logged _ hcurrent)).mp
      (h sampleCaller _ s rfl hrun s.current hcurrent)
  rw [hresources] at hattributable
  exact not_attributable_flood hattributable

end Audit

end Torpor
