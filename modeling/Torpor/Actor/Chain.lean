import Torpor.Actor.Trail

/-!
# One Causal Chain

Every entry that an agent logs follows its last action, except where the parents were taken
earlier: the entry of a commit has those that `commit_barrier` took, and both entries of an
answered inference those from before the first of them. What was logged in between is then no
ancestor of anything that follows.

## Main results

* `Actor.KeepsChain`: the steps that bypass nothing.
* `history_is_chain`: in a run of such steps, every entry of the agent is an ancestor of its
  last action, or the last action itself.
* `entries_bypassed`: an answered inference and a checkpoint between `commit_barrier` and
  `emit`, of which an entry is bypassed.
-/

namespace Torpor

open ContentHash Relation

variable {D : Type} [ContentHash D]

/-! ### Moves of an agent -/

/-- From an entry along parents to an ancestor, or to itself. -/
def ReachesIn (ws : List (Write D)) : D → D → Prop :=
  AppendGraph.Reaches actionId LogEntry.parentIds (entriesOf ws)

namespace Trail

/-- The entries among some writes are ancestors of the last action, or the last action. -/
def Linked (own : List (Write D)) (t : Trail D) : Prop :=
  ∀ e ∈ entriesOf own, ∃ last, t.lastAction = some last ∧ ReachesIn t.writes last (actionId e)

/-- A commit in progress cites the last action: nothing was logged since it was made. -/
def Current (t : Trail D) : Prop :=
  ∀ p ∈ t.pendingCommit, ∀ last ∈ t.lastAction, last ∈ p.parentIds

omit [ContentHash D] in
instance [DecidableEq D] (t : Trail D) : Decidable t.Current :=
  inferInstanceAs (Decidable (∀ p ∈ t.pendingCommit, ∀ last ∈ t.lastAction, last ∈ p.parentIds))

/-- After a move, the writes before it and those that it adds are still linked. -/
def KeepsLinked (t t' : Trail D) : Prop :=
  ∀ own, t.Linked own → ∃ ws, t'.writes = t.writes ++ ws ∧ t'.Linked (own ++ ws)

/-- An entry that cites the last action is linked, and so is what was linked before. -/
theorem Linked.append {t : Trail D} {own : List (Write D)} (h : t.Linked own) {e : LogEntry D}
    (hparents : ∀ last, t.lastAction = some last → last ∈ e.parentIds) (writer : Writer) :
    (t.append writer e).Linked (own ++ [.append writer e]) := by
  intro e' he'
  refine ⟨actionId e, rfl, ?_⟩
  rw [entriesOf_concat] at he'
  rcases List.mem_append.mp he' with he' | he'
  · obtain ⟨last, hlast, hreach⟩ := h e' he'
    have hconcat := AppendGraph.reaches_concat (hparents last hlast) hreach
    rwa [ReachesIn, Trail.append, entriesOf_concat]
  · obtain rfl := List.mem_singleton.mp he'
    exact .refl

theorem Linked.mono {t : Trail D} {own : List (Write D)} (h : t.Linked own)
    (ws : List (Write D)) : ({ t with writes := t.writes ++ ws } : Trail D).Linked own := by
  intro e he
  obtain ⟨last, hlast, hreach⟩ := h e he
  refine ⟨last, hlast, AppendGraph.Reaches.mono ?_ hreach⟩
  rw [entriesOf_append]
  exact List.subset_append_left _ _

theorem KeepsLinked.refl (t : Trail D) : t.KeepsLinked t :=
  fun _ h => ⟨[], (List.append_nil _).symm, by rwa [List.append_nil]⟩

theorem KeepsLinked.trans {t t' t'' : Trail D} (h : t.KeepsLinked t') (h' : t'.KeepsLinked t'') :
    t.KeepsLinked t'' := by
  intro own hown
  obtain ⟨ws, hws, hlinked⟩ := h own hown
  obtain ⟨ws', hws', hlinked'⟩ := h' _ hlinked
  refine ⟨ws ++ ws', ?_, ?_⟩
  · rw [hws', hws, List.append_assoc]
  · rwa [← List.append_assoc]

variable {given : List D} {types : List EmitType}

/-- A move that follows the last action bypasses nothing. -/
theorem Calm.keepsLinked {t t' : Trail D} (hstep : Calm given t t') : t.KeepsLinked t' := by
  intro own h
  cases hstep with
  | @follow e k hparents _ _ =>
      refine ⟨_, rfl, h.append (fun last hlast => ?_) .runtime⟩
      simp [hparents, hlast]
  | @store w hw =>
      refine ⟨[w], rfl, ?_⟩
      have hnone : entriesOf [w] = [] := by simp [entriesOf, hw]
      intro e he
      rw [entriesOf_append, hnone, List.append_nil] at he
      exact h.mono [w] e he
  | _ => exact ⟨[], (List.append_nil _).symm, by rw [List.append_nil]; exact h⟩

theorem Calms.keepsLinked {t t' : Trail D} (hsteps : Calms given t t') : t.KeepsLinked t' := by
  induction hsteps with
  | refl => exact .refl t
  | tail _ hlast ih => exact ih.trans hlast.keepsLinked

/-- The entry of a commit bypasses nothing if the commit cites the last action. -/
theorem Publish.keepsLinked {t t' : Trail D} (hcurrent : t.Current)
    (hstep : Publish types t t') : t.KeepsLinked t' := by
  intro own h
  cases hstep with
  | @emit p e k hp hparents _ _ =>
      refine ⟨_, rfl, h.append (fun last hlast => ?_) .guest⟩
      rw [hparents]
      exact hcurrent p hp last hlast
  | @flush p e hp hparents _ =>
      refine ⟨_, rfl, h.append (fun last hlast => ?_) .runtime⟩
      rw [hparents]
      exact hcurrent p hp last hlast

end Trail

/-- Nor do entries that each follow the one before. -/
theorem Books.OnlyLogs.keepsLinked {b b' : Books D} (h : b.OnlyLogs b') :
    b.trail.KeepsLinked b'.trail :=
  (h.trail : Trail.Calms [] _ _).keepsLinked

/-! ### Steps of an agent -/

namespace Actor

/-- The step bypasses nothing: it publishes a commit only if nothing was logged since
`commit_barrier`, and it is not the answer of an inference. -/
def KeepsChain (a : Actor D) : Event D → Prop
  | .host memory call => (a.setMemory memory).caller.publishes call = true → a.trail.Current
  | .ret _ => a.caller.data.hostError = none → a.trail.Current
  | .inferDone _ _ => False
  | _ => True

instance [DecidableEq D] (a : Actor D) (ev : Event D) : Decidable (a.KeepsChain ev) :=
  match ev with
  | .host _ _ => inferInstanceAs (Decidable (_ → _))
  | .ret _ => inferInstanceAs (Decidable (_ → _))
  | .inferDone _ _ => .isFalse id
  | .start => .isTrue trivial
  | .recv _ _ => .isTrue trivial
  | .resume _ => .isTrue trivial
  | .closed => .isTrue trivial
  | .timeout => .isTrue trivial
  | .trap _ _ => .isTrue trivial
  | .wake _ _ => .isTrue trivial
  | .others _ _ _ _ => .isTrue trivial

variable [LinearOrder D]

/-- Such a step of the agent keeps everything linked. -/
theorem KeepsChain.keepsLinked {a a' : Actor D} {ev : Event D} (hk : a.KeepsChain ev)
    (hc : a.Coherent) (hothers : ∀ ws c k h, ev ≠ .others ws c k h)
    (h : a.step ev = some a') : a.trail.KeepsLinked a'.trail := by
  cases trans_of_step h with
  | start _ => exact (Caller.logLifecycleEvent_onlyLogs a.caller _).keepsLinked
  | @handle message order _ _ => exact (handle_trail a order fun _ hx => hx).keepsLinked
  | @await message order _ _ => exact (await_onlyLogs a message).keepsLinked
  | @resume message order _ _ =>
      exact (handle_trail { a with pendingMsg := none } order fun _ hx => hx).keepsLinked
  | exit _ _ => exact (exitLoop_onlyLogs a).keepsLinked
  | abandon _ _ => exact .refl _
  | timeout _ => exact (recordVerdict_onlyLogs a .timeout).keepsLinked
  | @host kind memory call _ _ =>
      rw [hostCall_trail]
      rcases Caller.host_trail [] (a.setMemory memory).caller call with
        hcalm | ⟨hpublishes, hpublish⟩
      · exact hcalm.keepsLinked
      · exact hpublish.keepsLinked (hk hpublishes)
  | inferDone _ => exact absurd hk id
  | @ret kind memory _ _ =>
      obtain ⟨t, hfirst, hrest⟩ := endCycle_trail [] [] (a.setMemory memory) kind
      refine Trail.KeepsLinked.trans ?_ hrest.keepsLinked
      rcases hfirst with hcalm | ⟨herror, hpublish⟩
      · exact hcalm.keepsLinked
      · exact hpublish.keepsLinked (hk herror)
  | @trap kind memory interrupt _ _ =>
      exact (crash_onlyLogs (a.setMemory memory) _).keepsLinked
  | @wake ev params memory hphase _ =>
      have hrestore : Trail.Calm [] a.trail
          { a.trail with extraCauses := [], pendingCommit := none } := .restore
      rw [← trail_restore hc hphase params memory] at hrestore
      exact hrestore.keepsLinked
  | @refuse ev params memory _ _ =>
      rw [trail_refuse]
      exact .refl _
  | others _ => exact absurd rfl (hothers _ _ _ _)

/-- The agent is coherent and its writes are linked. -/
structure Linked (own : List (Write D)) (a : Actor D) : Prop where
  coherent : a.Coherent
  linked : a.trail.Linked own

/-- What others write bypasses nothing. -/
theorem Linked.step {own : List (Write D)} {a a' : Actor D} {ev : Event D} (hl : a.Linked own)
    (hk : a.KeepsChain ev) (h : a.step ev = some a') : a'.Linked (own ++ a.written ev a') := by
  refine ⟨step_coherent hl.coherent h, ?_⟩
  cases ev with
  | others ws capStores kvStores causeHandles =>
      cases trans_of_step h with
      | others _ =>
          rw [written, List.append_nil]
          exact hl.linked.mono ws
  | _ =>
      obtain ⟨ws, hwrites, hlinked⟩ :=
        hk.keepsLinked hl.coherent (by simp) h own hl.linked
      rwa [written_eq (by simp) hwrites]

end Actor

/-- In every run in which a commit is published only if nothing was logged since
`commit_barrier`, and in which no inference is answered, every entry of the agent is an
ancestor of its last action, or the last action itself. -/
theorem history_is_chain [LinearOrder D] {id : AgentId} {params : BuildParams}
    {memory : List UInt8} {w : World D} {evs : List (Event D)} {a : Actor D}
    (hkeeps : Machine.Along Actor.step Actor.KeepsChain (.new id params memory w) evs)
    (hrun : Machine.run Actor.step (.new id params memory w) evs = some a) :
    ∀ e ∈ entriesOf ((Actor.new id params memory w).ownWrites evs),
      ∃ last, a.caller.data.lastAction = some last ∧
        ReachesIn a.caller.world.writes last (actionId e) := by
  have hnew : (Actor.new id params memory w).Linked [] := ⟨trivial, fun e he => by cases he⟩
  have hkept : ∀ own (b : Actor D) ev b', b.Linked own → b.KeepsChain ev →
      b.step ev = some b' → b'.Linked (own ++ b.written ev b') :=
    fun _ _ _ _ hl hk h => hl.step hk h
  exact (Machine.run_outputs_invariant hkept hnew hkeeps hrun).linked

/-- Two cycles with a commit each, with an eviction and a wake between them; the checkpoint of
the first one comes after `emit`. -/
def chainedCycles : List (Event (List ℕ)) :=
  .start :: Actor.dataCycle [.commitBarrier, .emit 1 0 4, .agentCheckpoint] ++
    [.recv .evict [],
      .wake { clock := fun n => n + 9, capStore := 0, kvStore := 0, causeHandleRegistry := 0 }
        [0, 0, 0, 0], .start] ++
    Actor.dataCycle [.commitBarrier]

/-- All entries of this run are ancestors of the last action. -/
theorem history_is_chain_chainedCycles :
    ∃ a : Actor (List ℕ), Machine.run Actor.step Actor.sampleAgent chainedCycles = some a ∧
      8 ≤ (entriesOf (Actor.sampleAgent.ownWrites chainedCycles)).length ∧
      ∀ e ∈ entriesOf (Actor.sampleAgent.ownWrites chainedCycles),
        ∃ last, a.caller.data.lastAction = some last ∧
          ReachesIn a.caller.world.writes last (actionId e) := by
  have hkeeps : Machine.Along Actor.step Actor.KeepsChain Actor.sampleAgent chainedCycles := by
    decide +kernel
  have hrun : (Machine.run Actor.step Actor.sampleAgent chainedCycles).isSome = true := by
    decide +kernel
  have hlength : 8 ≤ (entriesOf (Actor.sampleAgent.ownWrites chainedCycles)).length := by
    decide +kernel
  obtain ⟨a, ha⟩ := Option.isSome_iff_exists.mp hrun
  exact ⟨a, ha, hlength, history_is_chain hkeeps ha⟩

/-- After the run no commit is in progress, and an entry of the agent is no ancestor of its last
action. -/
def Bypasses (evs : List (Event (List ℕ))) : Prop :=
  ∃ a : Actor (List ℕ), Machine.run Actor.step Actor.sampleAgent evs = some a ∧
    a.caller.data.pendingCommit = none ∧
    ∃ e ∈ entriesOf (Actor.sampleAgent.ownWrites evs), ∀ last,
      a.caller.data.lastAction = some last →
        ¬ ReachesIn a.caller.world.writes last (actionId e)

/-- An entry that is not the last action and that no entry cites. -/
theorem bypasses_of_uncited {evs : List (Event (List ℕ))}
    (h : (Machine.run Actor.step Actor.sampleAgent evs).any (fun a : Actor (List ℕ) =>
      decide (a.caller.data.pendingCommit = none ∧
        ∃ e ∈ entriesOf (Actor.sampleAgent.ownWrites evs),
          a.caller.data.lastAction ≠ some (actionId e) ∧
          ∀ e' ∈ entriesOf a.caller.world.writes, actionId e ∉ e'.parentIds)) = true) :
    Bypasses evs := by
  obtain ⟨a, ha, hdecided⟩ := (Option.any_eq_true _ _).mp h
  obtain ⟨hpending, e, he, hlast, hcited⟩ := of_decide_eq_true hdecided
  refine ⟨a, ha, hpending, e, he, fun last heq => ?_⟩
  refine AppendGraph.not_reaches hcited ?_
  rintro rfl
  exact hlast heq

/-- A cycle whose guest asks for an inference. -/
def inferenceCycle : List (Event (List ℕ)) :=
  [.start, .recv (.data [] none) [], .host [0, 0, 0, 0] (.agentInfer 0 0 0 0 0 5),
    .inferDone (.ok ⟨[], none⟩) 1, .ret [0, 0, 0, 0]]

/-- This cycle bypasses the request of the inference, and one with a checkpoint before `emit`
bypasses the checkpoint. -/
theorem entries_bypassed : Bypasses inferenceCycle ∧ Bypasses Actor.checkpointedCycle := by
  constructor
  · exact bypasses_of_uncited (by decide +kernel)
  · exact bypasses_of_uncited (by decide +kernel)

end Torpor
