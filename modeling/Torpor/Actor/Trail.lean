import Torpor.Actor.Books
import Torpor.Actor.Steps
import Torpor.Lib.AppendGraph

/-!
# What an Agent Cites

The elementary moves of an agent on the log and on the variables from which it takes the
parents of its entries (`Trail`): an entry that follows the last action, a cause that is kept
for the next commit, a commit that takes the parents of its entry, the entry of a commit. Only
`agent_infer` cites what it took before (`Trail.Step.cite`).

What a step is given from outside is a parameter of the moves: `given` are the digests that the
step takes from a message or from a suspended call, `types` the types that its guest asks for.

## Main results

* `Trail.Step`: the elementary moves.
* `Caller.host_calm_trail`: which host functions do no more than follow the last action.
* `Actor.step_trail`: every step of an agent is a sequence of moves, or consists of writes of
  others.
-/

namespace Torpor

open ContentHash Relation

variable {D : Type}

variable [ContentHash D]

/-- The identifiers of the entries of a journal. -/
def loggedIds (ws : List (Write D)) : List D := (entriesOf ws).map actionId

namespace Trail

/-- The moves that keep the last action or follow it. -/
inductive Calm (given : List D) : Trail D → Trail D → Prop
  | follow {t : Trail D} {e : LogEntry D} {k : EmitType} : e.parentIds = t.lastAction.toList →
      e.HasType k → k.writer = .runtime → Calm given t (t.append .runtime e)
  | store {t : Trail D} {w : Write D} : w.entry? = none →
      Calm given t { t with writes := t.writes ++ [w] }
  | cause {t : Trail D} {id : D} : id ∈ loggedIds t.writes ∨ id ∈ given →
      Calm given t { t with extraCauses := t.extraCauses ++ [id] }
  | commit {t : Trail D} {p : PendingCommit D} :
      p.parentIds = t.lastAction.toList ++ t.extraCauses →
      Calm given t { t with extraCauses := [], pendingCommit := some p }
  | forget {t : Trail D} : Calm given t { t with pendingCommit := none }
  | restore {t : Trail D} : Calm given t { t with extraCauses := [], pendingCommit := none }

/-- The entry of a commit: of an emission, or of the end of a cycle. -/
inductive Publish (types : List EmitType) : Trail D → Trail D → Prop
  | emit {t : Trail D} {p : PendingCommit D} {e : LogEntry D} {k : EmitType} :
      t.pendingCommit = some p → e.parentIds = p.parentIds → e.HasType k → k ∈ types →
      Publish types t { t.append .guest e with pendingCommit := none }
  | flush {t : Trail D} {p : PendingCommit D} {e : LogEntry D} :
      t.pendingCommit = some p → e.parentIds = p.parentIds → e.emitPayload = none →
      Publish types t { t.append .runtime e with pendingCommit := none }

/-- The elementary moves of an agent. -/
inductive Step (given : List D) (types : List EmitType) : Trail D → Trail D → Prop
  | calm {t t' : Trail D} : Calm given t t' → Step given types t t'
  | publish {t t' : Trail D} : Publish types t t' → Step given types t t'
  | cite {t : Trail D} {e : LogEntry D} {k : EmitType} :
      (∀ x ∈ e.parentIds, x ∈ loggedIds t.writes ∨ x ∈ given) → e.HasType k →
      k.writer = .runtime → Step given types t (t.append .runtime e)

/-- Any number of moves that keep the last action or follow it. -/
abbrev Calms (given : List D) : Trail D → Trail D → Prop := ReflTransGen (Calm given)

/-- Any number of elementary moves. -/
abbrev Steps (given : List D) (types : List EmitType) : Trail D → Trail D → Prop :=
  ReflTransGen (Step given types)

variable {given : List D} {types : List EmitType}

theorem Calms.steps {t t' : Trail D} (h : Calms given t t') : Steps given types t t' := by
  induction h with
  | refl => exact .refl
  | tail _ hlast ih => exact ih.tail (.calm hlast)

/-- Writes to the content store. -/
theorem calms_store {t : Trail D} {ws : List (Write D)} (hws : ∀ w ∈ ws, w.entry? = none) :
    Calms given t { t with writes := t.writes ++ ws } := by
  induction ws generalizing t with
  | nil => rw [List.append_nil]
  | cons w ws ih =>
      refine ReflTransGen.head (.store (hws w List.mem_cons_self)) ?_
      have hrest := ih (t := { t with writes := t.writes ++ [w] })
        fun w' hw' => hws w' (List.mem_cons_of_mem _ hw')
      rwa [List.append_assoc] at hrest

/-- Entries of which each follows the one before. -/
theorem calms_of_chained {t : Trail D} {last last' : Option D} {es : List (LogEntry D)}
    (h : Chained last es last') (ht : t.lastAction = last) :
    Calms given t { t with
      writes := t.writes ++ es.map (.append .runtime), lastAction := last' } := by
  induction h generalizing t with
  | nil =>
      subst ht
      rw [List.map_nil, List.append_nil]
  | @cons last last' e k es hparents htype hwriter _ ih =>
      subst ht
      refine ReflTransGen.head (.follow hparents htype hwriter) ?_
      have hrest := ih (t := t.append .runtime e) rfl
      rwa [append, List.append_assoc] at hrest

/-- A property that every move preserves holds after any number of them. -/
theorem Steps.invariant {P : Trail D → Prop}
    (hstep : ∀ t t', P t → Step given types t t' → P t') {t t' : Trail D}
    (h : Steps given types t t') (ht : P t) : P t' := by
  induction h with
  | refl => exact ht
  | tail _ hlast ih => exact hstep _ _ ih hlast

end Trail

/-- Logging entries that follow the last action is a sequence of calm moves. -/
theorem Books.OnlyLogs.trail {given : List D} {b b' : Books D} (h : b.OnlyLogs b') :
    Trail.Calms given b.trail b'.trail := by
  obtain ⟨es, hws, hes⟩ := h.logged
  have hcalms : Trail.Calms given b.trail _ := Trail.calms_of_chained hes rfl
  rwa [← hws, ← h.extraCauses, ← h.pendingCommit] at hcalms

namespace Caller

variable {given : List D} {types : List EmitType}

/-! ### Appends -/

theorem trail_append_of_ok {c : Caller D} {writer : Writer} {e : LogEntry D}
    (hok : (c.append writer e).1 = true) :
    (c.append writer e).2.trail = c.trail.append writer e :=
  congrArg Books.trail (append_books_of_ok hok)

theorem trail_append_of_failed {c : Caller D} {writer : Writer} {e : LogEntry D}
    (hfailed : (c.append writer e).1 = false) : (c.append writer e).2.trail = c.trail :=
  congrArg Books.trail (append_books_of_failed hfailed)

/-! ### Host functions -/

/-- A commit stores a block, then a header, and takes the causes. -/
theorem commitBarrier_trail (c : Caller D) :
    Trail.Calms given c.trail c.commitBarrier.trail := by
  rcases c.commitBarrier_cases with ⟨-, ws, hws, h⟩ | ⟨-, p, hparents, h⟩
  · have htrail : c.commitBarrier.trail = { c.trail with writes := c.trail.writes ++ ws } :=
      congrArg Books.trail h
    rw [htrail]
    exact Trail.calms_store (by rcases hws with rfl | rfl <;> simp [Write.entry?])
  · have htrail : c.commitBarrier.trail = { c.trail with
        writes := c.trail.writes ++ [.putBlock c.stateBytes,
          .putSnapshot (c.commitHeader (c.data.clock c.data.reads))]
        extraCauses := []
        pendingCommit := some p } := congrArg Books.trail h
    rw [htrail]
    exact (Trail.calms_store (by simp [Write.entry?])).tail (.commit hparents)

section

variable [LinearOrder D]

/-- An entry that is found has been logged under its identifier. -/
theorem mem_loggedIds_of_get {ws : List (Write D)} {id : D} {e : LogEntry D}
    (h : (Disk.replay ws).log.get id = some e) : id ∈ loggedIds ws := by
  rw [Disk.replay_log] at h
  have hid := (CausalLog.wellFormed_ofEntries (entriesOf ws)).get_eq id e h
  rw [hid]
  exact List.mem_map_of_mem (CausalLog.mem_of_get_ofEntries h)

theorem agentAddCause_trail (c : Caller D) (actionIdPtr : Int32) :
    Trail.Calms given c.trail (c.agentAddCause actionIdPtr).2.trail := by
  rcases c.agentAddCause_cases actionIdPtr with ⟨-, h⟩ | ⟨-, -, id, entry, -, hget, h⟩
  · have htrail : (c.agentAddCause actionIdPtr).2.trail = c.trail := congrArg Books.trail h
    rw [htrail]
  · have htrail : (c.agentAddCause actionIdPtr).2.trail =
        { c.trail with extraCauses := c.trail.extraCauses ++ [id] } := congrArg Books.trail h
    rw [htrail]
    exact .single (.cause (.inl (mem_loggedIds_of_get hget)))

end

/-- Another commit in progress than before is none. -/
theorem pend_trail {c : Caller D} {p : Option (PendingCommit D)}
    (hp : p = c.books.trail.pendingCommit ∨ p = none) :
    Trail.Calms given c.trail (c.books.pend p).trail := by
  rcases hp with rfl | rfl
  · exact .refl
  · exact .single .forget

/-- An emission publishes the commit, or leaves no entry. -/
theorem emit_trail (c : Caller D) (emitType ptr len : Int32) :
    Trail.Calms given c.trail (c.emit emitType ptr len).trail ∨
      c.publishes (.emit emitType ptr len) = true ∧
        Trail.Publish (HostCall.emit emitType ptr len).types c.trail
          (c.emit emitType ptr len).trail := by
  rcases c.emit_cases emitType ptr len with
    ⟨p, hp, h⟩ | ⟨hpublishes, p, e, k, hp, hparents, htype, hmem, h⟩
  · left
    have hpend : Trail.Calms given c.trail (c.books.pend p).trail := pend_trail hp
    rwa [← h] at hpend
  · right
    have hemit : Trail.Publish (HostCall.emit emitType ptr len).types c.trail
        ((c.books.append .guest e).pend none).trail := .emit hp hparents htype hmem
    rw [← h] at hemit
    exact ⟨hpublishes, hemit⟩

/-- Every call but `emit` keeps the last action or follows it; of `agent_infer` this is the
part before the answer. -/
theorem host_calm_trail [LinearOrder D] (c : Caller D) {call : HostCall}
    (hemit : ∀ emitType ptr len, call ≠ .emit emitType ptr len) :
    Trail.Calms given c.trail (c.host call).2.trail := by
  cases hcall : call.onlyLogs with
  | true => exact (host_onlyLogs c hcall).trail
  | false =>
      cases call with
      | commitBarrier => exact commitBarrier_trail c
      | emit emitType ptr len => exact absurd rfl (hemit emitType ptr len)
      | agentAddCause actionIdPtr => exact agentAddCause_trail c actionIdPtr
      | _ => cases hcall

/-- A call follows the last action, or publishes the commit. -/
theorem host_trail [LinearOrder D] (given : List D) (c : Caller D) (call : HostCall) :
    Trail.Calms given c.trail (c.host call).2.trail ∨
      c.publishes call = true ∧ Trail.Publish call.types c.trail (c.host call).2.trail := by
  cases call with
  | emit emitType ptr len => exact emit_trail c emitType ptr len
  | _ => exact .inl (host_calm_trail c (by simp))

/-! ### The answer of an inference -/

/-- An append of an entry that cites what the step was given is at most one move. -/
theorem append_cite {t : Trail D} {c : Caller D} {e : LogEntry D} {k : EmitType}
    (ht : t = c.trail) (hparents : ∀ x ∈ e.parentIds, x ∈ given) (htype : e.HasType k)
    (hwriter : k.writer = .runtime) :
    Trail.Steps given types t (c.append .runtime e).2.trail := by
  cases hok : (c.append .runtime e).1 with
  | true =>
      rw [trail_append_of_ok hok, ← ht]
      exact .single (.cite (fun x hx => .inr (hparents x hx)) htype hwriter)
  | false => rw [trail_append_of_failed hok, ← ht]

/-- Both entries of an answered inference cite what was taken before: the parents of the
suspended call, and the last action before the first of them. -/
theorem agentInferFinish_trail {c : Caller D} {call : InferCall D}
    (hparents : ∀ x ∈ call.parents, x ∈ given)
    (hlast : ∀ x ∈ c.data.lastAction.toList, x ∈ given)
    (result : Except InferError InferResponse) (durationMs : ℕ) :
    Trail.Steps given types c.trail (c.agentInferFinish call result durationMs).2.trail := by
  obtain ⟨c₁, c₂, request, response, k, hbefore, hcited, htype, hbetween, hcited', htype', hwriter,
    hafter⟩ := c.agentInferFinish_books call result durationMs
  have hrequest : Trail.Steps given types c.trail (c₁.append .runtime request).2.trail :=
    append_cite (congrArg Books.trail hbefore.symm) (hcited ▸ hparents) htype rfl
  have hresponse : Trail.Steps given types (c₁.append .runtime request).2.trail
      (c₂.append .runtime response).2.trail :=
    append_cite (congrArg Books.trail hbetween.symm) (hcited' ▸ hlast) htype' hwriter
  exact (hrequest.trans hresponse).trans hafter.trail.steps

/-- The end of a cycle publishes the commit, if there is one, before anything else. -/
theorem processEnd_trail (given : List D) (types : List EmitType) (c : Caller D) :
    ∃ t, (Trail.Calms given c.trail t ∨
        c.data.hostError = none ∧ Trail.Publish types c.trail t) ∧
      Trail.Calms given t c.processEnd.2.trail := by
  obtain ⟨b, ⟨p, hp, rfl⟩ | ⟨herror, p, e, hp, hparents, hpayload, rfl⟩, hend⟩ :=
    c.processEnd_books
  · exact ⟨_, .inl (pend_trail hp), hend.trail⟩
  · exact ⟨_, .inr ⟨herror, .flush hp hparents hpayload⟩, hend.trail⟩

end Caller

/-! ### Steps of an agent -/

/-- The causes that a message carries. -/
def Message.causes : Message D → List D
  | .data _ cause => cause.toList
  | _ => []

/-- What a suspended call has taken. -/
def Phase.parents : Phase D → List D
  | .infer _ call => call.parents
  | _ => []

/-- The types that the guest of a step asks for. -/
def Event.types : Event D → List EmitType
  | .host _ call => call.types
  | _ => []

namespace Actor

/-- What a step is given: the causes of its message, and what a suspended call has kept. -/
def inputs (a : Actor D) : Event D → List D
  | .recv message _ => message.causes
  | .resume _ => (a.pendingMsg.map Message.causes).getD []
  | .inferDone _ _ =>
      match a.phase with
      | .infer _ call => call.parents ++ a.caller.data.lastAction.toList
      | _ => []
  | _ => []

variable {given : List D} {types : List EmitType}

/-- The end of a cycle publishes the commit, if there is one, before anything else. -/
theorem endCycle_trail (given : List D) (types : List EmitType) (a : Actor D)
    (kind : CycleKind) :
    ∃ t, (Trail.Calms given a.trail t ∨
        a.caller.data.hostError = none ∧ Trail.Publish types a.trail t) ∧
      Trail.Calms given t (a.endCycle kind).trail := by
  obtain ⟨t, hfirst, hrest⟩ := Caller.processEnd_trail given types a.caller
  exact ⟨t, hfirst, hrest.trans (endCycle_onlyLogs a kind).trail⟩

theorem handle_trail [LinearOrder D] (a : Actor D) (order : List CapabilityId)
    {message : Message D} (hcauses : ∀ x ∈ message.causes, x ∈ given) :
    Trail.Calms given a.trail (a.handle order message).trail := by
  cases message with
  | data payload cause =>
      obtain ⟨b, hbefore, hafter⟩ := a.handle_data_books order payload cause
      cases cause with
      | none =>
          rw [Option.toList_none, List.append_nil] at hafter
          exact hbefore.trail.trans hafter.trail
      | some id =>
          exact (hbefore.trail.tail (.cause (.inr (hcauses id (List.mem_singleton_self _))))).trans
            hafter.trail
  | rollback targetSeq =>
      rcases a.handle_rollback_books order targetSeq with h | ⟨tip, path, -, -, h⟩
      · exact h.trail
      · exact h.trail
  | _ => exact (a.handle_onlyLogs order (by simp) (by simp)).trail

theorem hostCall_trail [LinearOrder D] (a : Actor D) (kind : CycleKind) (call : HostCall) :
    (a.hostCall kind call).trail = (a.caller.host call).2.trail :=
  congrArg Books.trail (hostCall_books a kind call)

/-- A restored agent has the last action of the evicted one and nothing that is pending. -/
theorem trail_restore [LinearOrder D] {a : Actor D} {ev : EvictedState D} (hc : a.Coherent)
    (hphase : a.phase = .evicted ev) (params : BuildParams) (memory : List UInt8) :
    (Caller.restore (Caller.checkResumeSnapshot a.caller.world ev.lastSnapshot).2 params memory
      ev).trail = { a.trail with extraCauses := [], pendingCommit := none } := by
  simp only [Coherent, hphase] at hc
  subst hc
  simp [trail, Caller.trail, Caller.restore, Caller.allocate, AgentState.build, evictedState]

/-- A wake that is refused leaves the trail as it is. -/
theorem trail_refuse [LinearOrder D] (a : Actor D) (tip : Option D) :
    (a.setCaller { a.caller with
      world := (Caller.checkResumeSnapshot a.caller.world tip).2 }).trail = a.trail := by
  simp [trail, setCaller, Caller.trail]

/-- What a step does to the trail: moves of the agent, or writes of others. -/
theorem step_trail [LinearOrder D] {a a' : Actor D} {ev : Event D} (hc : a.Coherent)
    (h : a.step ev = some a') :
    Trail.Steps (a.inputs ev) ev.types a.trail a'.trail ∨
      ∃ ws capStores kvStores causeHandles, ev = .others ws capStores kvStores causeHandles ∧
        foreign a.caller.data.id ws = true ∧
        a'.trail = { a.trail with writes := a.trail.writes ++ ws } := by
  cases trans_of_step h with
  | start _ => exact .inl (Caller.logLifecycleEvent_onlyLogs a.caller _).trail.steps
  | @handle message order _ _ => exact .inl (handle_trail a order fun _ hx => hx).steps
  | @await message order _ _ => exact .inl (await_onlyLogs a message).trail.steps
  | @resume message order _ hpending =>
      have hcauses : ∀ x ∈ message.causes, x ∈ a.inputs (.resume order) := by
        simp [inputs, hpending]
      exact .inl (handle_trail { a with pendingMsg := none } order hcauses).steps
  | exit _ _ => exact .inl (exitLoop_onlyLogs a).trail.steps
  | abandon _ _ => exact .inl .refl
  | timeout _ => exact .inl (recordVerdict_onlyLogs a .timeout).trail.steps
  | @host kind memory call _ _ =>
      left
      rw [hostCall_trail]
      rcases Caller.host_trail (a.inputs (.host memory call)) (a.setMemory memory).caller call with
        hcalm | ⟨-, hpublish⟩
      · exact hcalm.steps
      · exact .single (.publish hpublish)
  | @inferDone kind call result durationMs hphase =>
      left
      refine Caller.agentInferFinish_trail ?_ ?_ result durationMs
      · intro x hx
        simp [inputs, hphase, hx]
      · intro x hx
        simp only [inputs, hphase, List.mem_append]
        exact .inr hx
  | @ret kind memory _ _ =>
      obtain ⟨t, hfirst, hrest⟩ := endCycle_trail (a.inputs (.ret memory))
        (Event.ret memory : Event D).types (a.setMemory memory) kind
      refine .inl (ReflTransGen.trans ?_ hrest.steps)
      rcases hfirst with hcalm | ⟨-, hpublish⟩
      · exact hcalm.steps
      · exact .single (.publish hpublish)
  | @trap kind memory interrupt _ _ =>
      exact .inl (crash_onlyLogs (a.setMemory memory) _).trail.steps
  | @wake ev params memory hphase _ =>
      have hrestore : Trail.Step (a.inputs (.wake params memory))
          (Event.wake params memory : Event D).types a.trail
          { a.trail with extraCauses := [], pendingCommit := none } := .calm .restore
      rw [← trail_restore hc hphase params memory] at hrestore
      exact .inl (.single hrestore)
  | @refuse ev params memory _ _ =>
      left
      rw [trail_refuse]
  | others hforeign => exact .inr ⟨_, _, _, _, rfl, hforeign, rfl⟩

/-! ### What a suspended call has taken -/

/-- A call that is suspended by a step has taken the last action as its parents. -/
theorem hostCall_parents [LinearOrder D] {a : Actor D} {kind : CycleKind} (call : HostCall)
    (hguest : a.phase = .guest kind) : (a.hostCall kind call).phase.parents = [] ∨
      (a.hostCall kind call).phase.parents = a.caller.data.lastAction.toList := by
  simp only [hostCall]
  split
  · simp [setCaller, hguest, Phase.parents]
  · rename_i icall hinfer
    cases call with
    | agentInfer promptPtr promptLen responseBufPtr responseBufCap responseLenOutPtr
        timeoutMsReq =>
        simp only [Caller.host] at hinfer
        split_ifs at hinfer
        cases hinfer
        exact .inr rfl
    | _ => simp [Caller.host] at hinfer

theorem handle_parents [LinearOrder D] {a : Actor D} (hidle : a.phase = .idle)
    (order : List CapabilityId) (message : Message D) :
    (a.handle order message).phase.parents = [] := by
  rcases handle_phase a order message with h | h | ⟨kind, h⟩ | h
  · rw [h, hidle]
    rfl
  all_goals
    rw [h]
    rfl

/-- After a step, a suspended call has taken nothing, what one had taken before, or the last
action. -/
theorem step_parents [LinearOrder D] {a a' : Actor D} {ev : Event D} (h : a.step ev = some a') :
    a'.phase.parents = [] ∨ a'.phase.parents = a.phase.parents ∨
      a'.phase.parents = a.caller.data.lastAction.toList := by
  have hidle : ∀ {b : Actor D}, b.phase = .idle ∨ b.phase = .stopped → b.phase.parents = [] := by
    rintro b (h | h) <;> rw [h] <;> rfl
  cases trans_of_step h with
  | start _ => exact .inl rfl
  | @handle message order hphase _ => exact .inl (handle_parents hphase order message)
  | @await message order _ _ =>
      rcases await_phase a message with h | h
      · exact .inr (.inl (congrArg Phase.parents h))
      · exact .inl (hidle h)
  | @resume message order hphase _ =>
      exact .inl (handle_parents (a := { a with pendingMsg := none }) hphase order message)
  | exit _ _ => exact .inl (hidle (.inr (exitLoop_phase a)))
  | abandon _ _ => exact .inl rfl
  | timeout _ => exact .inl (hidle (afterData_phase _))
  | @host kind memory call hguest _ =>
      rcases hostCall_parents (a := a.setMemory memory) call hguest with h | h
      · exact .inl h
      · exact .inr (.inr h)
  | inferDone _ => exact .inl rfl
  | @ret kind memory _ _ =>
      left
      rcases endCycle_phase (a.setMemory memory) kind with h | h | h
      all_goals
        rw [h]
        rfl
  | trap _ _ => exact .inl rfl
  | wake _ _ => exact .inl rfl
  | refuse _ _ => exact .inr (.inl rfl)
  | others _ => exact .inr (.inl rfl)

end Actor

end Torpor
