import Torpor.Actor.Trail

/-!
# Attribution of Causes

Which entry of an agent a cause ends up in. A run of an agent leaves marks: a message brings a
cause, `agent_add_cause` accepts one, `commit_barrier` succeeds, the agent is restored, an
entry is logged. An automaton over these marks (`Attribution`) says what the entries have to be:
every entry has at most one parent, an earlier entry of the agent, or is the entry of the latest
commit, whose parents are the last action and all causes that came since the commit before.

Only a commit that succeeds and a restoration end the collection of causes; a message, a cycle
without a commit, a commit that fails, a rollback or the wait for a verdict leave no mark.

## Main results

* `causes_attributed`: the marks of every run are accepted.
* `cause_outlives_message`: the cause of a message in the entry of a later one, and more than
  sixteen of them in one entry.
-/

namespace Torpor

open ContentHash Relation

variable {D : Type}

/-! ### The automaton -/

/-- A cause that an agent keeps for its next commit: of a message, or from
`agent_add_cause`. -/
inductive Cause (D : Type)
  | delivered (id : D)
  | cited (id : D)
  deriving DecidableEq, Repr

/-- The action that a cause names. -/
def Cause.id : Cause D → D
  | .delivered id => id
  | .cited id => id

/-- The cause comes from `agent_add_cause`. -/
def Cause.isCited : Cause D → Bool
  | .delivered _ => false
  | .cited _ => true

/-- What a run leaves. -/
inductive CauseMark (D : Type)
  | cause (c : Cause D)
  | commit
  | restored
  | entry (e : LogEntry D)

/-- The last action and the causes at a commit. -/
structure CommitParents (D : Type) where
  lastAction : Option D
  causes : List (Cause D)

/-- The parents of the entry of a commit. -/
def CommitParents.ids (k : CommitParents D) : List D :=
  k.lastAction.toList ++ k.causes.map Cause.id

/-- The entries of the agent so far (the newest first), the causes since the latest commit, and
this commit as long as it has no entry. -/
structure Attribution (D : Type) where
  own : List D
  causes : List (Cause D)
  pending : Option (CommitParents D)

namespace Attribution

/-- A newly built agent. -/
def start : Attribution D := ⟨[], [], none⟩

variable [ContentHash D]

/-- What each mark has to be. -/
inductive Next : Attribution D → CauseMark D → Attribution D → Prop
  | delivered {s : Attribution D} {id : D} :
      Next s (.cause (.delivered id)) { s with causes := s.causes ++ [.delivered id] }
  | cited {s : Attribution D} {id : D} : s.causes.length < Caller.maxExtraCauses →
      Next s (.cause (.cited id)) { s with causes := s.causes ++ [.cited id] }
  | commit {s : Attribution D} :
      Next s .commit { s with causes := [], pending := some ⟨s.own.head?, s.causes⟩ }
  | restored {s : Attribution D} : Next s .restored { s with causes := [], pending := none }
  | follow {s : Attribution D} {e : LogEntry D} {last : Option D} :
      e.parentIds = last.toList → (∀ x ∈ last, x ∈ s.own) →
      Next s (.entry e) { s with own := actionId e :: s.own }
  | publish {s : Attribution D} {e : LogEntry D} {k : CommitParents D} :
      s.pending = some k → e.parentIds = k.ids →
      k.causes.countP Cause.isCited ≤ Caller.maxExtraCauses →
      Next s (.entry e) { s with own := actionId e :: s.own, pending := none }

/-- The marks are what they have to be. -/
inductive Accepts : Attribution D → List (CauseMark D) → Attribution D → Prop
  | nil {s : Attribution D} : Accepts s [] s
  | cons {s s' s'' : Attribution D} {m : CauseMark D} {ms : List (CauseMark D)} :
      Next s m s' → Accepts s' ms s'' → Accepts s (m :: ms) s''

theorem Accepts.append {s s' s'' : Attribution D} {ms ms' : List (CauseMark D)}
    (h : Accepts s ms s') (h' : Accepts s' ms' s'') : Accepts s (ms ++ ms') s'' := by
  induction h with
  | nil => exact h'
  | cons hnext _ ih => exact .cons hnext (ih h')

theorem Accepts.single {s s' : Attribution D} {m : CauseMark D} (h : Next s m s') :
    Accepts s [m] s' :=
  .cons h .nil

theorem Next.own_subset {s s' : Attribution D} {m : CauseMark D} (h : Next s m s') :
    s.own ⊆ s'.own := by
  cases h with
  | follow _ _ => exact List.subset_cons_self _ _
  | publish _ _ _ => exact List.subset_cons_self _ _
  | _ => exact List.Subset.refl _

/-- Entries of the agent stay its entries. -/
theorem Accepts.own_subset {s s' : Attribution D} {ms : List (CauseMark D)} (h : Accepts s ms s') :
    s.own ⊆ s'.own := by
  induction h with
  | nil => exact List.Subset.refl _
  | cons hnext _ ih => exact fun _ hx => ih (hnext.own_subset hx)

/-! ### Marks of a run -/

/-- The automaton is where the trail of the agent is. -/
structure Tracks (s : Attribution D) (t : Trail D) : Prop where
  lastAction : t.lastAction = s.own.head?
  extraCauses : t.extraCauses = s.causes.map Cause.id
  cited_le : s.causes.countP Cause.isCited ≤ Caller.maxExtraCauses
  pending : ∀ p, t.pendingCommit = some p → ∃ k, s.pending = some k ∧ p.parentIds = k.ids ∧
    k.causes.countP Cause.isCited ≤ Caller.maxExtraCauses

omit [ContentHash D] in
theorem Tracks.last_mem {s : Attribution D} {t : Trail D} (h : s.Tracks t) :
    ∀ x ∈ t.lastAction, x ∈ s.own := by
  intro x hx
  rw [h.lastAction] at hx
  exact List.mem_of_mem_head? hx

/-- From `t` to `t'` the agent logs entries that are accepted, and the automaton keeps up. -/
structure Logs (s : Attribution D) (t : Trail D) (s' : Attribution D) (t' : Trail D) :
    Prop where
  tracks : s'.Tracks t'
  accepts : ∃ ws, t'.writes = t.writes ++ ws ∧ Accepts s ((entriesOf ws).map .entry) s'

variable {s s' : Attribution D} {t t' : Trail D}

theorem Tracks.logs (h : s.Tracks t') {ws : List (Write D)} (hws : t'.writes = t.writes ++ ws)
    (hnone : entriesOf ws = []) : s.Logs t s t' :=
  ⟨h, ws, hws, by rw [hnone]; exact .nil⟩

theorem Logs.refl (h : s.Tracks t) : s.Logs t s t :=
  h.logs (List.append_nil _).symm rfl

theorem Logs.trans {s'' : Attribution D} {t'' : Trail D} (h : s.Logs t s' t')
    (h' : s'.Logs t' s'' t'') : s.Logs t s'' t'' := by
  obtain ⟨ws, hws, haccepts⟩ := h.accepts
  obtain ⟨ws', hws', haccepts'⟩ := h'.accepts
  refine ⟨h'.tracks, ws ++ ws', by rw [hws', hws, List.append_assoc], ?_⟩
  rw [entriesOf_append, List.map_append]
  exact haccepts.append haccepts'

omit [ContentHash D] in
theorem entriesOf_map_append (writer : Writer) (es : List (LogEntry D)) :
    entriesOf (es.map (.append writer)) = es := by
  induction es with
  | nil => rfl
  | cons e es ih =>
      rw [List.map_cons, ← List.singleton_append, entriesOf_append, ih]
      rfl

/-- Entries that each follow the one before are accepted. -/
theorem accepts_chained {last last' : Option D} {es : List (LogEntry D)}
    (h : Chained last es last') (hlast : last = s.own.head?) :
    ∃ own, own.head? = last' ∧ Accepts s (es.map .entry) { s with own } := by
  induction h generalizing s with
  | nil => exact ⟨s.own, hlast.symm, .nil⟩
  | @cons last last' e k es hparents _ _ _ ih =>
      obtain ⟨own, hhead, haccepts⟩ := ih (s := { s with own := actionId e :: s.own }) rfl
      refine ⟨own, hhead, .cons (.follow hparents fun x hx => ?_) haccepts⟩
      rw [hlast] at hx
      exact List.mem_of_mem_head? hx

/-- Where an agent only logs, its entries are accepted. -/
theorem Tracks.onlyLogs {b b' : Books D} (h : s.Tracks b.trail) (hlogs : b.OnlyLogs b') :
    ∃ s', s.Logs b.trail s' b'.trail := by
  obtain ⟨es, hws, hes⟩ := hlogs.logged
  obtain ⟨own, hhead, haccepts⟩ := accepts_chained hes h.lastAction
  refine ⟨{ s with own }, ⟨hhead.symm, hlogs.extraCauses.trans h.extraCauses, h.cited_le, ?_⟩,
    _, hws, ?_⟩
  · rw [hlogs.pendingCommit]
    exact h.pending
  · rwa [entriesOf_map_append]

/-- An entry that cites an earlier entry of the agent is accepted, whether it is logged or
not. -/
theorem Tracks.append {c : Caller D} (h : s.Tracks c.trail) {e : LogEntry D} {last : Option D}
    (hparents : e.parentIds = last.toList) (hlast : ∀ x ∈ last, x ∈ s.own) :
    ∃ s', s.Logs c.trail s' (c.append .runtime e).2.trail := by
  rcases c.append_books .runtime e with ⟨-, hbooks⟩ | ⟨-, hbooks⟩
  · have htrail : (c.append .runtime e).2.trail = c.trail.append .runtime e :=
      congrArg Books.trail hbooks
    rw [htrail]
    exact ⟨{ s with own := actionId e :: s.own }, ⟨rfl, h.extraCauses, h.cited_le, h.pending⟩,
      [.append .runtime e], rfl, .single (.follow hparents hlast)⟩
  · have htrail : (c.append .runtime e).2.trail = c.trail := congrArg Books.trail hbooks
    rw [htrail]
    exact ⟨s, .refl h⟩

omit [ContentHash D] in
/-- A commit in progress stays or is dropped. -/
theorem Tracks.pend {b : Books D} (h : s.Tracks b.trail) {p : Option (PendingCommit D)}
    (hp : p = b.trail.pendingCommit ∨ p = none) : s.Tracks (b.pend p).trail := by
  refine ⟨h.lastAction, h.extraCauses, h.cited_le, fun q hq => ?_⟩
  rcases hp with rfl | rfl
  · exact h.pending q hq
  · cases hq

/-- The entry of the commit in progress is accepted. -/
theorem Tracks.publish {b : Books D} (h : s.Tracks b.trail) {p : PendingCommit D}
    (hp : b.trail.pendingCommit = some p) {e : LogEntry D} (hparents : e.parentIds = p.parentIds)
    (writer : Writer) :
    ∃ s', s.Logs b.trail s' ((b.append writer e).pend none).trail := by
  obtain ⟨k, hk, hids, hcited⟩ := h.pending p hp
  exact ⟨{ s with own := actionId e :: s.own, pending := none },
    ⟨rfl, h.extraCauses, h.cited_le, fun q hq => (by cases hq)⟩,
    [.append writer e], rfl, .single (.publish hk (hparents.trans hids) hcited)⟩

/-- The causes of a message are accepted. -/
theorem Tracks.deliver {b : Books D} (h : s.Tracks b.trail) (causes : List D) :
    ∃ s', Accepts s (causes.map fun id => .cause (.delivered id)) s' ∧
      s'.Tracks (b.withCauses (b.trail.extraCauses ++ causes)).trail := by
  induction causes generalizing s b with
  | nil =>
      rw [List.append_nil]
      exact ⟨s, .nil, h⟩
  | cons id causes ih =>
      have hone : ({ s with causes := s.causes ++ [.delivered id] } : Attribution D).Tracks
          (b.withCauses (b.trail.extraCauses ++ [id])).trail := by
        refine ⟨h.lastAction, ?_, ?_, h.pending⟩
        · simp only [Books.withCauses]
          rw [h.extraCauses, List.map_append]
          rfl
        · rw [List.countP_append]
          exact h.cited_le
      obtain ⟨s', haccepts, htracks⟩ := ih hone
      refine ⟨s', .cons .delivered haccepts, ?_⟩
      have hcauses : b.trail.extraCauses ++ id :: causes =
          (b.withCauses (b.trail.extraCauses ++ [id])).trail.extraCauses ++ causes := by
        simp [Books.withCauses]
      rw [hcauses]
      exact htracks

/-- A cause from `agent_add_cause` is accepted. -/
theorem Tracks.cite {b : Books D} (h : s.Tracks b.trail) (id : D)
    (hroom : b.trail.extraCauses.length < Caller.maxExtraCauses) :
    ∃ s', Next s (.cause (.cited id)) s' ∧
      s'.Tracks (b.withCauses (b.trail.extraCauses ++ [id])).trail := by
  have hlength : s.causes.length < Caller.maxExtraCauses := by
    rwa [h.extraCauses, List.length_map] at hroom
  refine ⟨_, .cited hlength, h.lastAction, ?_, ?_, h.pending⟩
  · simp only [Books.withCauses]
    rw [h.extraCauses, List.map_append]
    rfl
  · -- every cause that is kept counts against the bound, whoever brought it
    have hcount := List.countP_le_length (p := Cause.isCited) (l := s.causes ++ [.cited id])
    rw [List.length_append, List.length_singleton] at hcount
    exact hcount.trans hlength

/-- A commit takes the causes. -/
theorem Tracks.commit {b : Books D} (h : s.Tracks b.trail) {p : PendingCommit D}
    (hparents : p.parentIds = b.trail.lastAction.toList ++ b.trail.extraCauses) :
    ∃ s', Next s .commit s' ∧ s'.Tracks ((b.withCauses []).pend (some p)).trail := by
  refine ⟨_, .commit, h.lastAction, rfl, Nat.zero_le _, fun q hq => ?_⟩
  obtain rfl := Option.some.inj hq
  refine ⟨_, rfl, ?_, h.cited_le⟩
  rw [hparents, h.lastAction, h.extraCauses]
  rfl

end Attribution

namespace Actor

/-- What a step does to the causes. A message brings its cause when the loop takes it up; one
that arrives while a verdict is awaited is passed over. -/
def signals [ContentHash D] [LinearOrder D] (a a' : Actor D) : Event D → List (CauseMark D)
  | .recv message _ =>
      match a.phase with
      | .idle => message.causes.map fun id => .cause (.delivered id)
      | _ => []
  | .resume _ =>
      ((a.pendingMsg.map Message.causes).getD []).map fun id => .cause (.delivered id)
  | .host memory (.agentAddCause actionIdPtr) =>
      if ((a.setMemory memory).caller.agentAddCause actionIdPtr).1 = 0 then
        [.cause (.cited (ofBytes (readMem memory (usize actionIdPtr) 32)))]
      else []
  | .host _ .commitBarrier =>
      if a'.caller.data.seq = a.caller.data.seq then [] else [.commit]
  | .wake _ _ =>
      match a'.phase with
      | .spawned => [.restored]
      | _ => []
  | _ => []

variable [ContentHash D] [LinearOrder D]

/-- The marks of a step; of a message that brings a cause and entries, the cause comes first. -/
def marks (a : Actor D) (ev : Event D) (a' : Actor D) : List (CauseMark D) :=
  a.signals a' ev ++ (entriesOf (a.written ev a')).map .entry

end Actor

namespace Attribution

variable [ContentHash D] [LinearOrder D] {s s' : Attribution D} {a a' : Actor D} {ev : Event D}

/-- A step that first does something to the causes and then logs. -/
theorem Logs.marks {m : Attribution D} {b : Actor D}
    (hothers : ∀ ws c k h, ev ≠ .others ws c k h) (hsignals : Accepts s (a.signals b ev) m)
    (h : m.Logs a.trail s' b.trail) :
    Accepts s (a.marks ev b) s' ∧ s'.Tracks b.trail := by
  obtain ⟨ws, hws, haccepts⟩ := h.accepts
  rw [Actor.marks, Actor.written_eq hothers hws]
  exact ⟨hsignals.append haccepts, h.tracks⟩

/-- A step that only logs. -/
theorem Tracks.quiet (h : s.Tracks a.trail) (hothers : ∀ ws c k h, ev ≠ .others ws c k h)
    (hsignals : a.signals a' ev = []) (hlogs : a.books.OnlyLogs a'.books) :
    ∃ s', Accepts s (a.marks ev a') s' ∧ s'.Tracks a'.trail := by
  have hlogged : ∃ s', s.Logs a.trail s' a'.trail := Tracks.onlyLogs (b := a.books) h hlogs
  obtain ⟨s', hlogged⟩ := hlogged
  exact ⟨s', hlogged.marks hothers (by rw [hsignals]; exact .nil)⟩

/-- A message that the loop takes up. -/
theorem Tracks.handle {b : Actor D} (h : s.Tracks b.trail) (message : Message D)
    (order : List CapabilityId) :
    ∃ s₁ s', Accepts s (message.causes.map fun id => .cause (.delivered id)) s₁ ∧
      s₁.Logs b.trail s' (b.handle order message).trail := by
  have hother (hdata : ∀ payload cause, message ≠ .data payload cause)
      (hrollback : ∀ targetSeq, message ≠ .rollback targetSeq) :
      ∃ s', s.Logs b.trail s' (b.handle order message).trail :=
    Tracks.onlyLogs (b := b.books) h (b.handle_onlyLogs order hdata hrollback)
  cases message with
  | data payload cause =>
      obtain ⟨m, hbefore, hafter⟩ := b.handle_data_books order payload cause
      obtain ⟨s₁, haccepts, htracks⟩ := Tracks.deliver (b := b.books) h cause.toList
      have hbefore' := hbefore.withCauses (b.books.trail.extraCauses ++ cause.toList)
      rw [hbefore.extraCauses] at hafter
      obtain ⟨s', hlogged⟩ := htracks.onlyLogs (hbefore'.trans hafter)
      exact ⟨s₁, s', haccepts, hlogged.tracks, hlogged.accepts⟩
  | rollback targetSeq =>
      rcases b.handle_rollback_books order targetSeq with hlogs | ⟨tip, path, -, -, hlogs⟩
      · obtain ⟨s', hlogged⟩ := Tracks.onlyLogs (b := b.books) h hlogs
        exact ⟨s, s', .nil, hlogged⟩
      · obtain ⟨s', hlogged⟩ := Tracks.onlyLogs (b := { b.books with capStores := _ }) h hlogs
        exact ⟨s, s', .nil, hlogged⟩
  | _ =>
      obtain ⟨s', hlogged⟩ := hother (by simp) (by simp)
      exact ⟨s, s', .nil, hlogged⟩

omit [LinearOrder D] in
/-- The answer of an inference logs two entries that cite earlier ones. -/
theorem Tracks.inferFinish {c : Caller D} (h : s.Tracks c.trail) {call : InferCall D}
    {last : Option D} (hparents : call.parents = last.toList) (hlast : ∀ x ∈ last, x ∈ s.own)
    (result : Except InferError InferResponse) (durationMs : ℕ) :
    ∃ s', s.Logs c.trail s' (c.agentInferFinish call result durationMs).2.trail := by
  obtain ⟨c₁, c₂, request, response, k, hbefore, hcited, -, hbetween, hcited', -, -, hafter⟩ :=
    c.agentInferFinish_books call result durationMs
  have hbefore : c₁.trail = c.trail := congrArg Books.trail hbefore
  have hbetween : c₂.trail = (c₁.append .runtime request).2.trail := congrArg Books.trail hbetween
  obtain ⟨s₁, hrequest⟩ := Tracks.append (hbefore ▸ h) (hcited.trans hparents) hlast
  have hown : ∀ x ∈ c.data.lastAction, x ∈ s₁.own := by
    obtain ⟨ws, -, haccepts⟩ := hrequest.accepts
    exact fun x hx => haccepts.own_subset (h.last_mem x hx)
  obtain ⟨s₂, hresponse⟩ := Tracks.append (hbetween ▸ hrequest.tracks) hcited' hown
  obtain ⟨s', hlogged⟩ := Tracks.onlyLogs hresponse.tracks hafter
  rw [hbefore] at hrequest
  rw [hbetween] at hresponse
  exact ⟨s', (hrequest.trans hresponse).trans hlogged⟩

omit [LinearOrder D] in
/-- The end of a cycle logs the entry of the commit, if it logs one, before anything else. -/
theorem Tracks.endCycle {b : Actor D} (h : s.Tracks b.trail) (kind : CycleKind) :
    ∃ s', s.Logs b.trail s' (b.endCycle kind).trail := by
  have hend := b.endCycle_onlyLogs kind
  obtain ⟨m, ⟨p, hp, rfl⟩ | ⟨-, p, e, hp, hparents, -, rfl⟩, hlogs⟩ := b.caller.processEnd_books
  · have hpend := Tracks.pend (b := b.caller.books) h hp
    obtain ⟨s', hlogged⟩ := hpend.onlyLogs (hlogs.trans hend)
    exact ⟨s', hlogged.tracks, hlogged.accepts⟩
  · obtain ⟨s₁, hpublished⟩ := Tracks.publish (b := b.caller.books) h hp hparents .runtime
    obtain ⟨s', hlogged⟩ := hpublished.tracks.onlyLogs (hlogs.trans hend)
    exact ⟨s', hpublished.trans hlogged⟩

omit [LinearOrder D] in
/-- `commit_barrier` takes the causes if it succeeds. -/
theorem Tracks.commitBarrier {c : Caller D} (h : s.Tracks c.trail) :
    ∃ s', (c.commitBarrier.data.seq = c.data.seq ∧ s' = s ∨
        c.commitBarrier.data.seq ≠ c.data.seq ∧ Next s .commit s') ∧
      s'.Logs c.trail s' c.commitBarrier.trail := by
  have hwrite (ws : List (Write D)) : s.Tracks (c.books.write ws).trail :=
    ⟨h.lastAction, h.extraCauses, h.cited_le, h.pending⟩
  rcases c.commitBarrier_cases with ⟨hsame, ws, hws, hbooks⟩ | ⟨hnext, p, hparents, hbooks⟩
  · have htrail : c.commitBarrier.trail = (c.books.write ws).trail := congrArg Books.trail hbooks
    refine ⟨s, .inl ⟨hsame, rfl⟩, ?_⟩
    rw [htrail]
    exact (hwrite ws).logs rfl (by rcases hws with rfl | rfl <;> rfl)
  · obtain ⟨s', hcommit, htracks⟩ := (hwrite [.putBlock c.stateBytes,
      .putSnapshot (c.commitHeader (c.data.clock c.data.reads))]).commit hparents
    have htrail := congrArg Books.trail hbooks
    refine ⟨s', .inr ⟨by rw [hnext]; exact Nat.succ_ne_self _, hcommit⟩, ?_⟩
    change s'.Logs c.trail s' c.commitBarrier.books.trail
    rw [htrail]
    exact htracks.logs rfl rfl

omit [LinearOrder D] in
/-- `emit` logs the entry of the commit, or nothing. -/
theorem Tracks.emit {c : Caller D} (h : s.Tracks c.trail) (emitType ptr len : Int32) :
    ∃ s', s.Logs c.trail s' (c.emit emitType ptr len).trail := by
  change ∃ s', s.Logs c.trail s' (c.emit emitType ptr len).books.trail
  rcases c.emit_cases emitType ptr len with
    ⟨p, hp, hbooks⟩ | ⟨-, p, e, k, hp, hparents, -, -, hbooks⟩
  · rw [hbooks]
    exact ⟨s, (Tracks.pend (b := c.books) h hp).logs (List.append_nil _).symm rfl⟩
  · rw [hbooks]
    exact Tracks.publish (b := c.books) h hp hparents .guest

/-- `agent_add_cause` keeps one more cause if it accepts it. -/
theorem Tracks.agentAddCause {c : Caller D} (h : s.Tracks c.trail) (actionIdPtr : Int32) :
    ∃ s', ((c.agentAddCause actionIdPtr).1 ≠ 0 ∧ s' = s ∨
        (c.agentAddCause actionIdPtr).1 = 0 ∧
          Next s (.cause (.cited (ofBytes (readMem c.memory (usize actionIdPtr) 32)))) s') ∧
      s'.Logs c.trail s' (c.agentAddCause actionIdPtr).2.trail := by
  rcases c.agentAddCause_cases actionIdPtr with
    ⟨hrefused, hbooks⟩ | ⟨haccepted, hroom, id, entry, rfl, -, hbooks⟩
  · have htrail : (c.agentAddCause actionIdPtr).2.trail = c.trail := congrArg Books.trail hbooks
    refine ⟨s, .inl ⟨hrefused, rfl⟩, ?_⟩
    rw [htrail]
    exact .refl h
  · obtain ⟨s', hcited, htracks⟩ := Tracks.cite (b := c.books) h
      (ofBytes (readMem c.memory (usize actionIdPtr) 32)) hroom
    refine ⟨s', .inr ⟨haccepted, hcited⟩, ?_⟩
    change s'.Logs c.trail s' (c.agentAddCause actionIdPtr).2.books.trail
    rw [hbooks]
    exact htracks.logs (List.append_nil _).symm rfl

/-- A call of the guest. -/
theorem Tracks.host (h : s.Tracks a.trail) {kind : CycleKind} {memory : List UInt8}
    {call : HostCall} (heq : a' = (a.setMemory memory).hostCall kind call) :
    ∃ s', Accepts s (a.marks (.host memory call) a') s' ∧ s'.Tracks a'.trail := by
  have hbooks : a'.books = ((a.setMemory memory).caller.host call).2.books :=
    heq ▸ Actor.hostCall_books _ kind call
  have htrail : a'.trail = ((a.setMemory memory).caller.host call).2.trail :=
    congrArg Books.trail hbooks
  have hcaller : s.Tracks (a.setMemory memory).caller.trail := h
  cases hcall : call.onlyLogs with
  | true =>
      refine h.quiet (by simp) ?_ (hbooks ▸ Caller.host_onlyLogs (a.setMemory memory).caller hcall)
      cases call with
      | commitBarrier => cases hcall
      | agentAddCause actionIdPtr => cases hcall
      | _ => rfl
  | false =>
      cases call with
      | commitBarrier =>
          have hseq : a'.caller.data.seq = (a.setMemory memory).caller.commitBarrier.data.seq := by
            rw [heq]
            rfl
          obtain ⟨s', hcommit, hlogs⟩ := hcaller.commitBarrier
          refine ⟨s', Logs.marks (m := s') (by simp) ?_ (htrail ▸ hlogs)⟩
          simp only [Actor.signals, hseq]
          rcases hcommit with ⟨hsame, rfl⟩ | ⟨hnext, hcommit⟩
          · exact (if_pos hsame).symm ▸ .nil
          · exact (if_neg hnext).symm ▸ .single hcommit
      | emit emitType ptr len =>
          obtain ⟨s', hlogs⟩ := hcaller.emit emitType ptr len
          exact ⟨s', Logs.marks (m := s) (by simp) .nil (htrail ▸ hlogs)⟩
      | agentAddCause actionIdPtr =>
          obtain ⟨s', hcause, hlogs⟩ := hcaller.agentAddCause actionIdPtr
          refine ⟨s', Logs.marks (m := s') (by simp) ?_ (htrail ▸ hlogs)⟩
          simp only [Actor.signals]
          rcases hcause with ⟨hrefused, rfl⟩ | ⟨haccepted, hcited⟩
          · exact (if_neg hrefused).symm ▸ .nil
          · exact (if_pos haccepted).symm ▸ .single hcited
      | _ => cases hcall

omit [ContentHash D] [LinearOrder D] in
/-- A restoration drops the causes and the commit in progress. -/
theorem Tracks.restore (h : s.Tracks t) : ({ s with causes := [], pending := none } :
    Attribution D).Tracks { t with extraCauses := [], pendingCommit := none } :=
  ⟨h.lastAction, rfl, Nat.zero_le _, fun q hq => (by cases hq)⟩

/-- The automaton is where the agent is, and a suspended call cites an earlier entry. -/
structure Attributed (s : Attribution D) (a : Actor D) : Prop where
  coherent : a.Coherent
  tracks : s.Tracks a.trail
  suspended : ∃ last : Option D, a.phase.parents = last.toList ∧ ∀ x ∈ last, x ∈ s.own

/-- **The marks of a step** are accepted. -/
theorem Attributed.accepts (h : s.Attributed a) (hstep : a.step ev = some a') :
    ∃ s', Accepts s (a.marks ev a') s' ∧ s'.Tracks a'.trail := by
  cases Actor.trans_of_step hstep with
  | start _ =>
      exact h.tracks.quiet (by simp) rfl (Caller.logLifecycleEvent_onlyLogs a.caller _)
  | @handle message order hidle _ =>
      obtain ⟨s₁, s', haccepts, hlogs⟩ := h.tracks.handle message order
      refine ⟨s', hlogs.marks (by simp) ?_⟩
      simp only [Actor.signals, hidle]
      exact haccepts
  | @await message order hawaiting _ =>
      refine h.tracks.quiet (by simp) ?_ (Actor.await_onlyLogs a message)
      simp only [Actor.signals, hawaiting]
  | @resume message order _ hpending =>
      obtain ⟨s₁, s', haccepts, hlogs⟩ := Tracks.handle (b := { a with pendingMsg := none })
        h.tracks message order
      refine ⟨s', hlogs.marks (a := a) (by simp) ?_⟩
      simp only [Actor.signals, hpending]
      exact haccepts
  | exit _ _ => exact h.tracks.quiet (by simp) rfl (Actor.exitLoop_onlyLogs a)
  | abandon _ _ => exact h.tracks.quiet (by simp) rfl (.refl _)
  | timeout _ => exact h.tracks.quiet (by simp) rfl (Actor.recordVerdict_onlyLogs a _)
  | host _ _ => exact h.tracks.host rfl
  | @inferDone kind call result durationMs hphase =>
      obtain ⟨last, hparents, hlast⟩ := h.suspended
      rw [hphase] at hparents
      obtain ⟨s', hlogs⟩ := Tracks.inferFinish (c := a.caller) h.tracks hparents hlast result
        durationMs
      exact ⟨s', Logs.marks (b := { a with caller := _, phase := .guest kind }) (by simp) .nil
        hlogs⟩
  | @ret kind memory _ _ =>
      obtain ⟨s', hlogs⟩ := Tracks.endCycle (b := a.setMemory memory) h.tracks kind
      exact ⟨s', hlogs.marks (a := a) (by simp) .nil⟩
  | @trap kind memory interrupt _ _ =>
      exact h.tracks.quiet (by simp) rfl (Actor.crash_onlyLogs (a.setMemory memory) _)
  | @wake evicted params memory hphase _ =>
      have htrail := Actor.trail_restore h.coherent hphase params memory
      refine ⟨{ s with causes := [], pending := none },
        Logs.marks (by simp) (.single .restored) ?_⟩
      change Logs _ _ _ (Caller.trail _)
      rw [htrail]
      exact h.tracks.restore.logs (List.append_nil _).symm rfl
  | @refuse evicted params memory hphase _ =>
      have hnil : a.signals (a.setCaller { a.caller with
          world := (Caller.checkResumeSnapshot a.caller.world evicted.lastSnapshot).2 })
          (.wake params memory) = [] := by
        simp only [Actor.signals, Actor.setCaller, hphase]
      refine ⟨s, Logs.marks (m := s) (by simp) (hnil ▸ .nil) ?_⟩
      rw [Actor.trail_refuse]
      exact .refl h.tracks
  | others _ => exact ⟨s, .nil, h.tracks.lastAction, h.tracks.extraCauses, h.tracks.cited_le,
      h.tracks.pending⟩

/-- A step keeps the automaton where the agent is. -/
theorem Attributed.step (h : s.Attributed a) (hstep : a.step ev = some a') :
    ∃ s', Accepts s (a.marks ev a') s' ∧ s'.Attributed a' := by
  obtain ⟨s', haccepts, htracks⟩ := h.accepts hstep
  refine ⟨s', haccepts, Actor.step_coherent h.coherent hstep, htracks, ?_⟩
  rcases Actor.step_parents hstep with hparents | hparents | hparents
  · exact ⟨none, hparents, by simp⟩
  · obtain ⟨last, hkept, hlast⟩ := h.suspended
    exact ⟨last, hparents.trans hkept, fun x hx => haccepts.own_subset (hlast x hx)⟩
  · exact ⟨a.caller.data.lastAction, hparents, fun x hx =>
      haccepts.own_subset (h.tracks.last_mem x hx)⟩

end Attribution

end Torpor
