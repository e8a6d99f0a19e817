import Torpor.Actor.Trail
import Torpor.System.Basic

/-!
# The Causal Graph

Parents come from many places: the last action, the causes kept for the next commit, the
parents of a commit whose entry is still to come, those that a suspended `agent_infer` has
taken, and the last action of an evicted agent. All of them hold identifiers of entries that
were appended, so that an entry only cites entries that are in the log before it.

## Main results

* `Trail.Step.grounded`: every move of an agent keeps the log closed.
* `causal_graph_closed`: in every run of any number of agents, every parent of every entry was
  appended strictly earlier; the parent relation of the log is well-founded and leads nowhere
  outside of the log.
-/

namespace Torpor

open ContentHash Relation

variable {D : Type} [ContentHash D]

/-! ### Moves of an agent -/

/-- Everything that a trail may cite. -/
def Trail.refs (t : Trail D) : List D :=
  t.lastAction.toList ++ t.extraCauses ++ (t.pendingCommit.map PendingCommit.parentIds).getD []

/-- In the journal, every parent is an entry further to the left. -/
def CausallyClosed (ws : List (Write D)) : Prop :=
  AppendGraph.Closed actionId LogEntry.parentIds (entriesOf ws)

/-- All of these are entries of the journal. -/
def Logged (ws : List (Write D)) (ids : List D) : Prop := ∀ x ∈ ids, x ∈ loggedIds ws

instance [DecidableEq D] (ws : List (Write D)) (ids : List D) : Decidable (Logged ws ids) :=
  inferInstanceAs (Decidable (∀ x ∈ ids, x ∈ loggedIds ws))

/-- The journal is closed, and what the agent may cite is in it. -/
structure Trail.Grounded (t : Trail D) : Prop where
  closed : CausallyClosed t.writes
  refs : Logged t.writes t.refs

theorem loggedIds_append (ws ws' : List (Write D)) :
    loggedIds (ws ++ ws') = loggedIds ws ++ loggedIds ws' := by
  rw [loggedIds, entriesOf_append, List.map_append]
  rfl

theorem Logged.append {ws : List (Write D)} {ids : List D} (h : Logged ws ids)
    (ws' : List (Write D)) : Logged (ws ++ ws') ids := by
  intro x hx
  rw [loggedIds_append]
  exact List.mem_append_left _ (h x hx)

theorem Logged.mono {ws ws' : List (Write D)} {ids : List D} (h : Logged ws ids)
    (hpre : ws <+: ws') : Logged ws' ids := by
  obtain ⟨rest, rfl⟩ := hpre
  exact h.append rest

theorem logged_concat {ids ids' : List D} {ws : List (Write D)} :
    Logged ws (ids ++ ids') ↔ Logged ws ids ∧ Logged ws ids' :=
  List.forall_mem_append

/-- An entry whose parents are logged keeps the journal closed. -/
theorem CausallyClosed.append {ws : List (Write D)} {e : LogEntry D} (h : CausallyClosed ws)
    (hparents : Logged ws e.parentIds) (writer : Writer) :
    CausallyClosed (ws ++ [.append writer e]) := by
  rw [CausallyClosed, entriesOf_concat]
  exact AppendGraph.closed_concat.mpr ⟨h, hparents⟩

theorem CausallyClosed.store {ws : List (Write D)} {w : Write D} (h : CausallyClosed ws)
    (hw : w.entry? = none) : CausallyClosed (ws ++ [w]) := by
  have hnone : entriesOf [w] = [] := by simp [entriesOf, hw]
  rw [CausallyClosed, entriesOf_append, hnone, List.append_nil]
  exact h

namespace Trail

theorem logged_refs {t : Trail D} :
    Logged t.writes t.refs ↔ Logged t.writes t.lastAction.toList ∧
      Logged t.writes t.extraCauses ∧
      ∀ p, t.pendingCommit = some p → Logged t.writes p.parentIds := by
  rw [refs, logged_concat, logged_concat, and_assoc]
  refine and_congr_right fun _ => and_congr_right fun _ => ?_
  cases t.pendingCommit with
  | none => simp [Logged]
  | some p => simp

/-- An entry whose parents are logged becomes the last action. -/
theorem Grounded.append {t : Trail D} {e : LogEntry D} (h : t.Grounded)
    (hparents : Logged t.writes e.parentIds) (writer : Writer) :
    (t.append writer e).Grounded := by
  obtain ⟨-, hextra, hpending⟩ := logged_refs.mp h.refs
  refine ⟨h.closed.append hparents writer, logged_refs.mpr ⟨?_, hextra.append _, ?_⟩⟩
  · intro x hx
    obtain rfl : x = actionId e := by simpa [Trail.append] using hx
    rw [Trail.append, loggedIds_append]
    exact List.mem_append_right _ (List.mem_singleton_self _)
  · intro p hp
    exact (hpending p hp).append _

/-- The entry of a commit cites what the commit has taken. -/
theorem Grounded.publish {t : Trail D} {p : PendingCommit D} {e : LogEntry D}
    (h : t.Grounded) (hp : t.pendingCommit = some p) (hparents : e.parentIds = p.parentIds)
    (writer : Writer) : ({ t.append writer e with pendingCommit := none } : Trail D).Grounded := by
  have hlogged : Logged t.writes e.parentIds := by
    rw [hparents]
    exact (logged_refs.mp h.refs).2.2 p hp
  obtain ⟨hclosed, hrefs⟩ := h.append hlogged writer
  obtain ⟨hlast, hextra, -⟩ := logged_refs.mp hrefs
  exact ⟨hclosed, logged_refs.mpr ⟨hlast, hextra, fun _ hq => (by cases hq)⟩⟩

variable {given : List D} {types : List EmitType}

theorem Calm.grounded {t t' : Trail D} (h : t.Grounded) (hgiven : Logged t.writes given)
    (hstep : Calm given t t') : t'.Grounded := by
  obtain ⟨hlast, hextra, hpending⟩ := logged_refs.mp h.refs
  cases hstep with
  | @follow e k hparents _ _ =>
      refine h.append ?_ .runtime
      rw [hparents]
      exact hlast
  | store hw =>
      exact ⟨h.closed.store hw, h.refs.append _⟩
  | @cause id hid =>
      refine ⟨h.closed, logged_refs.mpr ⟨hlast, logged_concat.mpr ⟨hextra, ?_⟩, hpending⟩⟩
      intro x hx
      obtain rfl := List.mem_singleton.mp hx
      exact hid.elim (fun hlogged => hlogged) (hgiven x)
  | @commit p hparents =>
      refine ⟨h.closed, logged_refs.mpr ⟨hlast, by simp [Logged], fun q hq => ?_⟩⟩
      obtain rfl := Option.some.inj hq
      rw [hparents]
      exact logged_concat.mpr ⟨hlast, hextra⟩
  | forget =>
      exact ⟨h.closed, logged_refs.mpr ⟨hlast, hextra, fun _ hq => (by cases hq)⟩⟩
  | restore =>
      exact ⟨h.closed, logged_refs.mpr ⟨hlast, by simp [Logged], fun _ hq => (by cases hq)⟩⟩

/-- Every move keeps the log closed, as long as what it is given is in the log. -/
theorem Step.grounded {t t' : Trail D} (h : t.Grounded) (hgiven : Logged t.writes given)
    (hstep : Step given types t t') : t'.Grounded := by
  cases hstep with
  | calm hcalm => exact hcalm.grounded h hgiven
  | publish hpublish =>
      cases hpublish with
      | emit hp hparents _ _ => exact h.publish hp hparents .guest
      | flush hp hparents _ => exact h.publish hp hparents .runtime
  | cite hparents _ _ =>
      exact h.append (fun x hx => (hparents x hx).elim (fun hlogged => hlogged) (hgiven x)) _

/-- A move only adds to the journal. -/
theorem Step.writes_prefix {t t' : Trail D} (hstep : Step given types t t') :
    t.writes <+: t'.writes := by
  cases hstep with
  | calm hcalm =>
      cases hcalm with
      | follow _ _ _ => exact List.prefix_append _ _
      | store _ => exact List.prefix_append _ _
      | _ => exact List.prefix_rfl
  | publish hpublish => cases hpublish <;> exact List.prefix_append _ _
  | cite _ _ _ => exact List.prefix_append _ _

theorem Steps.grounded {t t' : Trail D} (hsteps : Steps given types t t') (h : t.Grounded)
    (hgiven : Logged t.writes given) : t'.Grounded ∧ t.writes <+: t'.writes := by
  refine hsteps.invariant (P := fun t' => t'.Grounded ∧ t.writes <+: t'.writes) ?_
    ⟨h, List.prefix_rfl⟩
  rintro t₁ t₂ ⟨h₁, hprefix⟩ hstep
  exact ⟨hstep.grounded h₁ (hgiven.mono hprefix), hprefix.trans hstep.writes_prefix⟩

end Trail

/-! ### Agents -/

namespace Actor

/-- Everything that an agent may cite. The state of an evicted agent has no identifier but the
last action. -/
def refs (a : Actor D) : List D :=
  a.trail.refs ++ a.phase.parents ++ (a.pendingMsg.map Message.causes).getD []

variable [LinearOrder D]

/-- An agent in its world is coherent and cites what is in the log. -/
structure Grounded (a : Actor D) : Prop where
  coherent : a.Coherent
  refs : Logged a.trail.writes a.refs

theorem handle_pendingMsg {a : Actor D} (hpending : a.pendingMsg = none)
    (order : List CapabilityId) (message : Message D) :
    (a.handle order message).pendingMsg = none := by
  cases message with
  | data payload cause =>
      simp only [handle, enter]
      split
      · rfl
      · exact hpending
  | suspend =>
      simp only [handle, exitLoop]
      split_ifs <;> rfl
  | rollback targetSeq =>
      simp only [handle]
      split
      · exact hpending
      · rfl
  | sessionResume summary =>
      simp only [handle, enter]
      split
      · rfl
      · exact hpending
  | evict => rfl
  | checkpoint => exact hpending
  | validationResponse verdict => exact hpending

omit [LinearOrder D] in
theorem recordVerdict_pendingMsg (a : Actor D) (verdict : ValidationVerdict) :
    (a.recordVerdict verdict).pendingMsg = a.pendingMsg ∨
      (a.recordVerdict verdict).pendingMsg = none := by
  simp only [recordVerdict, afterData]
  split_ifs
  · exact .inr rfl
  · exact .inl rfl

omit [LinearOrder D] in
theorem endCycle_pendingMsg (a : Actor D) (kind : CycleKind) :
    (a.endCycle kind).pendingMsg = a.pendingMsg ∨ (a.endCycle kind).pendingMsg = none := by
  rcases a.endCycle_cases kind with ⟨cause, h⟩ | ⟨phase, -, h⟩ | h
  · rw [h]
    exact .inr rfl
  · rw [h]
    exact .inl rfl
  · rw [h]
    exact .inr rfl

omit [LinearOrder D] in
/-- Only a rollback is put back. -/
theorem await_pendingMsg {a : Actor D} (hpending : a.pendingMsg = none) (message : Message D) :
    ((a.await message).pendingMsg.map Message.causes).getD [] = [] := by
  cases message with
  | validationResponse verdict =>
      rcases recordVerdict_pendingMsg a verdict with h | h
      · rw [await, h, hpending]
        rfl
      · rw [await, h]
        rfl
  | rollback targetSeq =>
      rcases recordVerdict_pendingMsg { a with pendingMsg := some (.rollback targetSeq) }
        .cancelled with h | h
      · rw [await, h]
        rfl
      · rw [await, h]
        rfl
  | suspend => rfl
  | _ => simp [await, hpending]

/-- A step takes no cause of a message into the one that is put back. -/
theorem step_pendingMsg {a a' : Actor D} {ev : Event D} (h : a.step ev = some a') :
    (a'.pendingMsg.map Message.causes).getD [] = [] ∨ a'.pendingMsg = a.pendingMsg := by
  have hnil : ∀ {m : Option (Message D)}, m = none → (m.map Message.causes).getD [] = [] := by
    rintro m rfl
    rfl
  cases trans_of_step h with
  | start _ => exact .inr rfl
  | @handle message order _ hnone => exact .inl (hnil (handle_pendingMsg hnone order message))
  | @await message order _ hnone => exact .inl (await_pendingMsg hnone message)
  | @resume message order _ _ =>
      exact .inl (hnil (handle_pendingMsg (a := { a with pendingMsg := none }) rfl order message))
  | exit _ _ =>
      left
      simp only [exitLoop]
      split_ifs <;> rfl
  | abandon _ _ => exact .inl rfl
  | timeout _ => exact (recordVerdict_pendingMsg a .timeout).symm.imp hnil id
  | @host kind memory call _ _ =>
      right
      simp only [hostCall]
      split <;> rfl
  | inferDone _ => exact .inr rfl
  | @ret kind memory _ _ =>
      exact (endCycle_pendingMsg (a.setMemory memory) kind).symm.imp hnil id
  | trap _ _ => exact .inl rfl
  | wake _ _ => exact .inl rfl
  | refuse _ _ => exact .inr rfl
  | others _ => exact .inr rfl

/-- What an agent keeps besides its trail comes from what it could cite before. -/
theorem step_kept {a a' : Actor D} {ev : Event D} (h : a.step ev = some a') :
    ∀ x ∈ a'.phase.parents ++ (a'.pendingMsg.map Message.causes).getD [], x ∈ a.refs := by
  intro x hx
  rcases List.mem_append.mp hx with hx | hx
  · rcases step_parents h with hparents | hparents | hparents
    · simp [hparents] at hx
    · rw [hparents] at hx
      exact List.mem_append_left _ (List.mem_append_right _ hx)
    · rw [hparents] at hx
      exact List.mem_append_left _ (List.mem_append_left _ (List.mem_append_left _
        (List.mem_append_left _ hx)))
  · rcases step_pendingMsg h with hpending | hpending
    · simp [hpending] at hx
    · rw [hpending] at hx
      exact List.mem_append_right _ hx

omit [LinearOrder D] in
/-- What a step is given has been logged. -/
theorem Grounded.inputs {a : Actor D} {ev : Event D} (ha : a.Grounded)
    (hmessage : ∀ message order, ev = .recv message order →
      Logged a.trail.writes message.causes) : Logged a.trail.writes (a.inputs ev) := by
  obtain ⟨hkept, hpending⟩ := logged_concat.mp ha.refs
  obtain ⟨htrail, hphase⟩ := logged_concat.mp hkept
  cases ev with
  | recv message order => exact hmessage message order rfl
  | resume order => exact hpending
  | inferDone result durationMs =>
      simp only [Actor.inputs]
      split
      · rename_i kind call hinfer
        rw [hinfer] at hphase
        exact logged_concat.mpr ⟨hphase, (Trail.logged_refs.mp htrail).1⟩
      · simp [Logged]
  | _ => simp [Actor.inputs, Logged]

/-- A step keeps the log closed, and the agent cites what is in it. -/
theorem Grounded.step {a a' : Actor D} {ev : Event D} (hclosed : CausallyClosed a.trail.writes)
    (ha : a.Grounded)
    (hmessage : ∀ message order, ev = .recv message order →
      Logged a.trail.writes message.causes)
    (hothers : ∀ ws c k h, ev ≠ .others ws c k h) (h : a.step ev = some a') :
    CausallyClosed a'.trail.writes ∧ a'.Grounded := by
  have htrail : a.trail.Grounded := ⟨hclosed, (logged_concat.mp (logged_concat.mp ha.refs).1).1⟩
  rcases step_trail ha.coherent h with hsteps | ⟨ws, c, k, r, heq, -⟩
  · obtain ⟨htrail', hprefix⟩ := hsteps.grounded htrail (ha.inputs hmessage)
    have hkept : Logged a'.trail.writes
        (a'.phase.parents ++ (a'.pendingMsg.map Message.causes).getD []) :=
      fun x hx => (ha.refs.mono hprefix) x (step_kept h x hx)
    refine ⟨htrail'.closed, step_coherent ha.coherent h, ?_⟩
    rw [Actor.refs, List.append_assoc]
    exact logged_concat.mpr ⟨htrail'.refs, hkept⟩
  · exact absurd heq (hothers ws c k r)

end Actor

/-! ### Any number of agents -/

section

variable [LinearOrder D]

/-- The causes that a message carries are in the log. -/
def CausesLogged (ws : List (Write D)) (message : Message D) : Prop := Logged ws message.causes

/-- The log is closed, and all agents cite what is in it. -/
theorem agentInvariant_grounded :
    AgentInvariant (D := D) CausallyClosed CausesLogged Actor.Grounded where
  coherent _ ha := ha.coherent
  nil := AppendGraph.closed_nil
  cut _ _ hle h := h.of_prefix (hle.filterMap _)
  scheduler _ _ _ _ h := h.append (by simp [Logged, schedulerEntry]) .scheduler
  rollback _ _ := by simp [CausesLogged, Logged, Message.causes]
  message _ _ _ hprefix hm := hm.mono hprefix
  new _ _ _ _ _ := ⟨trivial, by simp [Logged, Actor.refs, Actor.new, Actor.trail, Caller.trail,
    AgentState.build, Trail.refs, Phase.parents]⟩
  grow _ _ _ hprefix _ ha := ⟨ha.coherent, ha.refs.mono hprefix⟩
  kept _ _ _ hclosed ha hmessage hothers h := ha.step hclosed hmessage hothers h

/-- The first identifier is a parent of the entry that the log holds under the second one. -/
def CausalLog.ParentOf (log : CausalLog D) (x y : D) : Prop :=
  ∃ e, log.get y = some e ∧ x ∈ e.parentIds

/-- In every run of any number of agents whose messages carry only causes that are in the log
when they are sent, every parent of every entry was appended strictly earlier. The parent
relation of the log is well-founded, and every parent is in the log. -/
theorem causal_graph_closed {w : World D} {evs : List (SystemEvent D)} {s : System D}
    (hposts : Machine.Along System.step (System.PostsHave CausesLogged) (System.boot w) evs)
    (hrun : Machine.run System.step (System.boot w) evs = some s) :
    (∀ before e after, entriesOf s.world.writes = before ++ e :: after →
      ∀ x ∈ e.parentIds, ∃ e' ∈ before, actionId e' = x) ∧
    WellFounded s.world.log.ParentOf ∧
    ∀ id e, s.world.log.get id = some e →
      ∀ x ∈ e.parentIds, ∃ e', s.world.log.get x = some e' := by
  have hclosed : CausallyClosed s.world.writes :=
    (agentInvariant_grounded.holds_of_run hposts hrun).journal
  have hlog : s.world.log = .ofEntries (entriesOf s.world.writes) := Disk.replay_log _
  refine ⟨?_, ?_, ?_⟩
  · intro before e after heq x hx
    exact List.mem_map.mp (hclosed before e after heq x hx)
  · refine Subrelation.wf ?_ (AppendGraph.Closed.wellFounded hclosed actionId_injective)
    rintro x y ⟨e, hget, hx⟩
    rw [hlog] at hget
    have hid := (CausalLog.wellFormed_ofEntries _).get_eq y e hget
    exact ⟨e, CausalLog.mem_of_get_ofEntries hget, hid.symm, hx⟩
  · intro id e hget x hx
    rw [hlog] at hget ⊢
    have hnamed := AppendGraph.Closed.mem_names hclosed (CausalLog.mem_of_get_ofEntries hget) hx
    obtain ⟨e', he', rfl⟩ := List.mem_map.mp hnamed
    exact ⟨e', CausalLog.get_ofEntries he'⟩

/-- Whether the posts of a step carry only logged causes. -/
instance (s : System D) (ev : SystemEvent D) : Decidable (s.PostsHave CausesLogged ev) :=
  match ev with
  | .post _ message => decidable_of_iff (Logged s.world.writes message.causes)
      ⟨fun h _ _ heq => (by cases heq; exact h), fun h => h _ message rfl⟩
  | .spawn _ _ _ _ => .isTrue fun _ _ heq => (by cases heq)
  | .deliver _ _ => .isTrue fun _ _ heq => (by cases heq)
  | .act _ _ => .isTrue fun _ _ heq => (by cases heq)
  | .rollbackOpen _ _ _ _ => .isTrue fun _ _ heq => (by cases heq)
  | .rollbackSend _ _ => .isTrue fun _ _ heq => (by cases heq)
  | .rollbackClose _ _ => .isTrue fun _ _ heq => (by cases heq)
  | .crash _ => .isTrue fun _ _ heq => (by cases heq)

end

/-! ### A concrete run -/

/-- Agent `10` commits and emits. -/
def directive : List (SystemEvent (List ℕ)) :=
  [.spawn 0 10 sampleParams [0, 0, 0, 0], .act 0 .start, .post 0 (.data [] none), .deliver 0 [],
    .act 0 (.host [0, 0, 0, 0] .commitBarrier), .act 0 (.host [0, 0, 0, 0] (.emit 1 0 4)),
    .act 0 (.ret [0, 0, 0, 0])]

/-- The last entry of agent `10`. -/
def directiveId : List ℕ :=
  ((Machine.run System.step (System.boot Actor.blankWorld) directive).bind fun s =>
    (loggedIds s.world.writes).getLast?).getD []

/-- Agent `11` gets a message that this entry has caused, asks for an inference, commits, is
evicted and wakes again. -/
def causedCycle : List (SystemEvent (List ℕ)) :=
  [.spawn 1 11 sampleParams [0, 0, 0, 0], .act 1 .start,
    .post 1 (.data [] (some directiveId)), .deliver 1 [],
    .act 1 (.host [0, 0, 0, 0] (.agentInfer 0 0 0 0 0 5)),
    .act 1 (.inferDone (.ok ⟨[], none⟩) 1), .act 1 (.host [0, 0, 0, 0] .commitBarrier),
    .act 1 (.ret [0, 0, 0, 0]), .post 1 .evict, .deliver 1 [],
    .act 1 (.wake sampleParams [0, 0, 0, 0]), .act 1 .start]

/-- The log of the run is closed, and its parent relation is well-founded. -/
theorem causal_graph_closed_causedCycle :
    ∃ s : System (List ℕ), Machine.run System.step (System.boot Actor.blankWorld)
        (directive ++ causedCycle) = some s ∧
      (∃ e ∈ entriesOf s.world.writes, 2 ≤ e.parentIds.length) ∧
      (∀ before e after, entriesOf s.world.writes = before ++ e :: after →
        ∀ x ∈ e.parentIds, ∃ e' ∈ before, actionId e' = x) ∧
      WellFounded s.world.log.ParentOf ∧
      ∀ id e, s.world.log.get id = some e →
        ∀ x ∈ e.parentIds, ∃ e', s.world.log.get x = some e' := by
  have hposts : Machine.Along System.step (System.PostsHave CausesLogged)
      (System.boot Actor.blankWorld) (directive ++ causedCycle) := by
    decide +kernel
  have hmerge : (Machine.run System.step (System.boot Actor.blankWorld)
      (directive ++ causedCycle)).any (fun s : System (List ℕ) =>
        decide (∃ e ∈ entriesOf s.world.writes, 2 ≤ e.parentIds.length)) = true := by
    decide +kernel
  obtain ⟨s, hs, hparents⟩ := (Option.any_eq_true _ _).mp hmerge
  exact ⟨s, hs, of_decide_eq_true hparents, causal_graph_closed hposts hs⟩

end Torpor
