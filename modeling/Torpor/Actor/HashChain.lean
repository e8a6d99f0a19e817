import Mathlib.Data.List.Chain
import Torpor.Actor.Commits

/-!
# Continuity of State Hashes

An entry of the log goes from one snapshot to another: most stay at the last snapshot of the
agent, a rollback goes back from it, and a commit goes forward to it. `commit_barrier` moves the
last snapshot at once, but its entry is only appended by `emit` or at the end of the cycle, so
that the entries of an agent are continuous only if nothing else is appended in between.

## Main results

* `Caller.passes`: the calls that append nothing, or the entry of the commit.
* `Actor.Seamless`: the steps that keep the entries of the agent continuous.
* `hash_continuity`: in a run of such steps, every entry starts where the one before it ends,
  and outside of a cycle the last one ends at the last snapshot.
* `checkpoint_breaks_hash_chain`: a checkpoint between `commit_barrier` and `emit`.
-/

namespace Torpor

open ContentHash

variable {D : Type}

/-! ### Continuous entries -/

/-- The first entry starts at the first hash, every other one where the one before it ends, and
the last one ends at the last hash. -/
structure HashChain (first : D) (es : List (LogEntry D)) (last : D) : Prop where
  head : ∀ e ∈ es.head?, e.hashBefore = first
  linked : es.IsChain fun e e' => e'.hashBefore = e.hashAfter
  last : (es.getLast?.map LogEntry.hashAfter).getD first = last

theorem hashChain_nil (x : D) : HashChain x [] x :=
  ⟨by simp, .nil, rfl⟩

/-- A further entry that starts where the last one ends. -/
theorem HashChain.concat {x y : D} {es : List (LogEntry D)} {e : LogEntry D}
    (h : HashChain x es y) (hbefore : e.hashBefore = y) :
    HashChain x (es ++ [e]) e.hashAfter := by
  have hlast := h.last
  refine ⟨?_, List.isChain_append.mpr ⟨h.linked, .singleton e, ?_⟩, by simp⟩
  · cases es with
    | nil =>
        simp only [List.getLast?_nil, Option.map_none, Option.getD_none] at hlast
        simpa [hlast] using hbefore
    | cons e' es => exact h.head
  · intro e₁ he₁ e₂ he₂
    obtain rfl : e = e₂ := by simpa using he₂
    rw [hbefore, ← hlast, Option.mem_def.mp he₁]
    rfl

namespace Ledger

variable [ContentHash D]

/-- Where the next entry has to start: at the start of the commit in progress, or else at the
last snapshot. -/
def front (l : Ledger D) : D :=
  match l.pendingCommit with
  | some p => p.hashBefore
  | none => l.tipHash

/-- The writes of an agent are continuous up to its front, and the commit in progress ends at
the last snapshot. -/
structure Continuous (own : List (Write D)) (l : Ledger D) : Prop where
  chain : HashChain zero (entriesOf own) l.front
  pending : ∀ p, l.pendingCommit = some p → p.hashAfter = l.tipHash

/-- After a move, the writes before it and those that it adds are still continuous. -/
def KeepsContinuous (l l' : Ledger D) : Prop :=
  ∀ own, l.Continuous own → ∃ ws, l'.writes = l.writes ++ ws ∧ l'.Continuous (own ++ ws)

theorem KeepsContinuous.refl (l : Ledger D) : l.KeepsContinuous l :=
  fun _ h => ⟨[], (List.append_nil _).symm, by rwa [List.append_nil]⟩

theorem KeepsContinuous.trans {l l' l'' : Ledger D} (h : l.KeepsContinuous l')
    (h' : l'.KeepsContinuous l'') : l.KeepsContinuous l'' := by
  intro own hown
  obtain ⟨ws, hws, hcont⟩ := h own hown
  obtain ⟨ws', hws', hcont'⟩ := h' _ hcont
  refine ⟨ws ++ ws', ?_, ?_⟩
  · rw [hws', hws, List.append_assoc]
  · rwa [← List.append_assoc]

/-- A change that concerns neither the journal nor the snapshots. -/
theorem keepsContinuous_of_frame {l l' : Ledger D} (hwrites : l'.writes = l.writes)
    (htip : l'.lastSnapshot = l.lastSnapshot) (hpending : l'.pendingCommit = l.pendingCommit) :
    l.KeepsContinuous l' := by
  intro own h
  have htip' : l'.tipHash = l.tipHash := by rw [tipHash, tipHash, htip]
  refine ⟨[], by rw [hwrites, List.append_nil], ?_, ?_⟩
  · rw [List.append_nil, front, hpending, htip']
    exact h.chain
  · rw [hpending, htip']
    exact h.pending

/-- An entry from the front to a new last snapshot, with no commit in progress after it. -/
theorem Continuous.append {l l' : Ledger D} {own : List (Write D)} (h : l.Continuous own)
    {e : LogEntry D} (writer : Writer) (hbefore : e.hashBefore = l.front)
    (hafter : e.hashAfter = l'.tipHash) (hnone : l'.pendingCommit = none) :
    l'.Continuous (own ++ [.append writer e]) := by
  have hchain := h.chain.concat hbefore
  refine ⟨?_, fun p hp => by simp [hnone] at hp⟩
  rw [entriesOf_concat, front, hnone]
  rwa [hafter] at hchain

/-- A calm move while no commit is in progress. -/
theorem Calm.keepsContinuous [LinearOrder D] {l l' : Ledger D} (h : Ledger.Calm l l')
    (hnone : l.pendingCommit = none) : l.KeepsContinuous l' := by
  have hfront : l.front = l.tipHash := by rw [front, hnone]
  intro own hown
  cases h with
  | @quiet e _ hbefore hafter =>
      exact ⟨_, rfl, hown.append .runtime (hbefore.trans hfront.symm) hafter hnone⟩
  | @move tip target seq e htip _ _ _ hbefore hafter =>
      refine ⟨_, rfl, hown.append .runtime ?_ ?_ hnone⟩
      · rw [hbefore, hfront, tipHash, htip, Option.getD_some]
      · rw [hafter]
        rfl

theorem Calms.keepsContinuous [LinearOrder D] {l l' : Ledger D} (h : Ledger.Calms l l')
    (hnone : l.pendingCommit = none) : l.KeepsContinuous l' := by
  induction h with
  | refl => exact .refl l
  | tail hsteps hlast ih =>
      have hmid := (Ledger.Calms.frame hsteps).2.1.trans hnone
      exact ih.trans (hlast.keepsContinuous hmid)

/-- A commit while no other one is in progress. -/
theorem CommitOf.keepsContinuous {l : Ledger D} {data : List UInt8}
    {header : SnapshotHeader D} {p : PendingCommit D} (h : l.CommitOf data header p)
    (hnone : l.pendingCommit = none) : l.KeepsContinuous (l.commit data header p) := by
  intro own hown
  refine ⟨_, rfl, ?_, ?_⟩
  · have hchain := hown.chain
    rw [front, hnone] at hchain
    rw [entriesOf_append, front]
    simp only [commit, h.before]
    simpa [entriesOf, Write.entry?] using hchain
  · intro q hq
    obtain rfl := Option.some.inj hq
    exact h.after

/-- The entry of the commit in progress. -/
theorem keepsContinuous_publish {l : Ledger D} {p : PendingCommit D} {e : LogEntry D}
    (writer : Writer) (hp : l.pendingCommit = some p) (hbefore : e.hashBefore = p.hashBefore)
    (hafter : e.hashAfter = p.hashAfter) :
    l.KeepsContinuous { l.extend [.append writer e] with pendingCommit := none } := by
  intro own hown
  refine ⟨_, rfl, hown.append writer ?_ ?_ rfl⟩
  · rw [hbefore, front, hp]
  · rw [hafter]
    exact hown.pending p hp

end Ledger

/-! ### Host functions -/

namespace Caller

/-- `agent_self_rollback` refuses the call. -/
def selfRollbackRefused [LinearOrder D] [ContentHash D] (c : Caller D) (depth : Int32) : Bool :=
  c.data.terminationRequested || decide (depth < 1 ∨ maxSelfRollbackDepth < usize depth) ||
    match c.data.lastSnapshot with
    | none => true
    | some tip => decide (c.data.seq < 1 + usize depth) ||
        !(c.rollbackPath tip (c.data.seq - 1 - usize depth)).1.toBool

/-- The limiter of `emit_cap_denied` suppresses the event of a refusal. -/
def refusalSilent (c : Caller D) (resource : List Char) : Bool :=
  let decision := c.data.capDenied.admit c.now.1 resource
  decide (decision.1 = .silent)

/-- The call appends nothing and commits nothing, or it is an emission whose payload is in
bounds. -/
def passes [LinearOrder D] [ContentHash D] (c : Caller D) : HostCall → Bool
  | .commitBarrier => c.data.terminationRequested
  | .agentCheckpoint => c.data.terminationRequested || decide (c.data.lifecycle = .terminated)
  | .agentTerminate => false
  | .agentSelfRollback depth => c.selfRollbackRefused depth
  | .agentRequestValidation riskLevel =>
      c.data.terminationRequested || decide (riskLevel < 0 ∨ 2 < riskLevel)
  | .agentStoreGet resourcePtr resourceLen capId _ =>
      (readStr c.memory (usize resourcePtr) (usize resourceLen)).all fun resource =>
        c.checkCap capId resource ⟨true, false, false, false⟩ || c.refusalSilent resource
  | .agentStorePut resourcePtr resourceLen capId valPtr valLen =>
      (c.storePutArgs resourcePtr resourceLen valPtr valLen).all fun args =>
        c.checkCap capId args.1 ⟨false, true, false, false⟩ || c.refusalSilent args.1
  | .emit _ ptr len => c.data.terminationRequested || c.data.hostError.isSome ||
      inBounds c.memory (usize ptr) (usize len)
  | .agentInfer promptPtr promptLen responseBufPtr responseBufCap responseLenOutPtr _ =>
      !c.inferArgsOk promptPtr promptLen responseBufPtr responseBufCap responseLenOutPtr
  | _ => true

variable [LinearOrder D] [ContentHash D]

theorem agentSelfRollback_of_refused {c : Caller D} {depth : Int32}
    (h : c.selfRollbackRefused depth = true) :
    (c.agentSelfRollback depth).2.ledger = c.ledger := by
  simp only [agentSelfRollback]
  split
  · rfl
  · rename_i hterm
    split
    · rfl
    · rename_i hdepth
      split
      · rfl
      · rename_i tip htip
        split
        · rfl
        · rename_i hseq
          split
          · rfl
          · rename_i path hpath
            simp [selfRollbackRefused, hterm, hdepth, htip, hseq, hpath, Except.toBool] at h

omit [LinearOrder D] in
theorem emitCapDenied_of_silent {c : Caller D} {resource : List Char}
    (h : c.refusalSilent resource = true) (capId : UInt64) (permFlags : UInt8) :
    (c.emitCapDenied capId resource permFlags).ledger = c.ledger := by
  have hsilent := of_decide_eq_true h
  have hdata : c.now.2.data.capDenied = c.data.capDenied := rfl
  simp only [emitCapDenied, hdata, hsilent, capDeniedPayload]
  rfl

/-- A call that passes and is no emission returns and leaves the ledger as it is. -/
theorem host_of_passes {c : Caller D} {call : HostCall} (hpasses : c.passes call = true)
    (hemit : ∀ emitType ptr len, call ≠ .emit emitType ptr len) :
    (c.host call).1 = none ∧ (c.host call).2.ledger = c.ledger := by
  cases call with
  | commitBarrier =>
      have hterm : c.data.terminationRequested = true := hpasses
      exact ⟨rfl, by simp [host, commitBarrier, hterm]⟩
  | agentAddCause actionIdPtr => exact ⟨rfl, agentAddCause_ledger c actionIdPtr⟩
  | agentCheckpoint =>
      refine ⟨rfl, ?_⟩
      simp only [host, agentCheckpoint]
      split_ifs with hterm
      · rfl
      · have hlife : c.data.lifecycle = .terminated := by simpa [passes, hterm] using hpasses
        simp [logLifecycleEvent, hlife]
  | agentTerminate => cases hpasses
  | agentIntrospect outPtr outMaxLen => exact ⟨rfl, writeOut_ledger c _ _ _⟩
  | agentSelfRollback depth => exact ⟨rfl, agentSelfRollback_of_refused hpasses⟩
  | agentSessionInfo outPtr outMaxLen => exact ⟨rfl, writeOut_ledger c _ _ _⟩
  | agentRequestValidation riskLevel =>
      refine ⟨rfl, ?_⟩
      simp only [host, agentRequestValidation]
      split_ifs with hterm hrisk
      · rfl
      · rfl
      all_goals simp [passes, hterm, hrisk] at hpasses
  | agentGetVerdict => exact ⟨rfl, rfl⟩
  | agentCheckCap capId resourcePtr resourceLen permFlags => exact ⟨rfl, rfl⟩
  | agentStoreGet resourcePtr resourceLen capId outPtr =>
      refine ⟨rfl, ?_⟩
      rcases c.agentStoreGet_cases resourcePtr resourceLen capId outPtr with
        ⟨memory, h⟩ | ⟨resource, hresource, hdenied, h⟩
      · rw [host, h]
        rfl
      · rw [host, h]
        refine emitCapDenied_of_silent ?_ _ _
        simpa [passes, hresource, hdenied] using hpasses
  | agentStorePut resourcePtr resourceLen capId valPtr valLen =>
      refine ⟨rfl, ?_⟩
      rcases c.agentStorePut_cases resourcePtr resourceLen capId valPtr valLen with
        h | ⟨resource, value, hargs, h | ⟨hdenied, h⟩⟩
      · rw [host, h]
      · rw [host, h]
        rfl
      · rw [host, h]
        refine emitCapDenied_of_silent ?_ _ _
        simpa [passes, hargs, hdenied] using hpasses
  | emit emitType ptr len => exact absurd rfl (hemit emitType ptr len)
  | agentInfer promptPtr promptLen responseBufPtr responseBufCap responseLenOutPtr
      timeoutMsReq =>
      have hargs : c.inferArgsOk promptPtr promptLen responseBufPtr responseBufCap
          responseLenOutPtr = false := by
        simpa [passes] using hpasses
      simp only [host, hargs, Bool.false_eq_true, if_false]
      exact ⟨trivial, inferRefused_ledger c _ _ _⟩

omit [LinearOrder D] in
/-- An emission without a commit leaves an error of the host at most. -/
theorem emit_of_none {c : Caller D} (hnone : c.data.pendingCommit = none)
    (emitType ptr len : Int32) :
    ∃ error, (c.emit emitType ptr len).ledger = { c.ledger with hostError := error } := by
  simp only [emit, hnone]
  split_ifs
  · exact ⟨_, rfl⟩
  · exact ⟨_, rfl⟩
  · exact ⟨_, rfl⟩

/-- While no commit is in progress, every call keeps the entries continuous. -/
theorem host_keepsContinuous {c : Caller D} (hfault : c.ledger.fault = fun _ => false)
    (hnone : c.ledger.pendingCommit = none) (call : HostCall) :
    c.ledger.KeepsContinuous (c.host call).2.ledger := by
  cases hcalm : call.calm with
  | true => exact (host_calm c hcalm).keepsContinuous hnone
  | false =>
      cases call with
      | commitBarrier =>
          cases hterm : c.ledger.terminationRequested with
          | true =>
              rw [host, commitBarrier_of_terminated hterm]
              exact .refl _
          | false =>
              obtain ⟨data, header, p, hcommit, -, hledger⟩ := commitBarrier_spec hfault hterm
              rw [host, hledger]
              exact hcommit.keepsContinuous hnone
      | emit emitType ptr len =>
          obtain ⟨error, hledger⟩ := emit_of_none hnone emitType ptr len
          rw [host, hledger]
          exact Ledger.keepsContinuous_of_frame rfl rfl rfl
      | agentTerminate =>
          have hflag : c.ledger.KeepsContinuous
              (c.setData fun s => { s with terminationRequested := true }).ledger :=
            Ledger.keepsContinuous_of_frame rfl rfl rfl
          have hlogged := logLifecycleEvent_calm
            (c.setData fun s => { s with terminationRequested := true }) .terminated
          exact hflag.trans (hlogged.keepsContinuous hnone)
      | _ => cases hcalm

omit [LinearOrder D] in
/-- An emission whose payload is in bounds publishes the commit, or does nothing. -/
theorem emit_keepsContinuous {c : Caller D} (hfault : c.ledger.fault = fun _ => false)
    {p : PendingCommit D} (hp : c.ledger.pendingCommit = some p) {ptr len : Int32}
    (hbounds : inBounds c.memory (usize ptr) (usize len) = true) (emitType : Int32) :
    c.ledger.KeepsContinuous (c.emit emitType ptr len).ledger := by
  have hp' : c.data.pendingCommit = some p := hp
  have hmemory : c.takePending.now.2.memory = c.memory := rfl
  simp only [emit, hp', hmemory, hbounds, Bool.not_true, Bool.false_eq_true, if_false]
  split_ifs with hterm herror hok
  · exact .refl _
  · exact .refl _
  · rw [ledger_append_of_ok hok]
    exact Ledger.keepsContinuous_publish .guest hp rfl rfl
  · have hwritten := write_of_noFault (c := c.takePending.now.2) hfault
    simp [append, hwritten] at hok

/-- While a commit is in progress, a call that passes keeps the entries continuous. -/
theorem host_keepsContinuous_of_passes {c : Caller D}
    (hfault : c.ledger.fault = fun _ => false) {p : PendingCommit D}
    (hp : c.ledger.pendingCommit = some p) {call : HostCall} (hpasses : c.passes call = true) :
    (c.host call).1 = none ∧ c.ledger.KeepsContinuous (c.host call).2.ledger := by
  by_cases hemit : ∃ emitType ptr len, call = .emit emitType ptr len
  · obtain ⟨emitType, ptr, len, rfl⟩ := hemit
    refine ⟨rfl, ?_⟩
    simp only [passes, Bool.or_eq_true] at hpasses
    rcases hpasses with (hterm | herror) | hbounds
    · rw [host, emit_of_terminated hterm]
      exact .refl _
    · have hsame : c.emit emitType ptr len = c := by simp [emit, herror]
      rw [host, hsame]
      exact .refl _
    · exact emit_keepsContinuous hfault hp hbounds emitType
  · push Not at hemit
    obtain ⟨hreturns, hledger⟩ := host_of_passes hpasses hemit
    rw [hledger]
    exact ⟨hreturns, .refl _⟩

/-! ### The end of a cycle -/

/-- The end of a cycle keeps the entries continuous, unless it fails while a commit is in
progress; after it, no commit is. -/
theorem processEnd_keepsContinuous {c : Caller D} (hfault : c.ledger.fault = fun _ => false)
    (herror : c.ledger.pendingCommit ≠ none → c.data.hostError = none) :
    c.ledger.KeepsContinuous c.processEnd.2.ledger ∧
      c.processEnd.2.ledger.pendingCommit = none := by
  rcases c.processEnd_cases with
    ⟨error, hraised, h⟩ | ⟨-, hnone, h⟩ | ⟨-, p, hp, ⟨hok, h⟩ | ⟨hfailed, -⟩⟩
  · have hnone : c.ledger.pendingCommit = none := by
      by_contra hpending
      simp [herror hpending] at hraised
    rw [h]
    exact ⟨Ledger.keepsContinuous_of_frame rfl rfl rfl, hnone⟩
  · have hsession := checkSession_calm c
    rw [h]
    exact ⟨hsession.keepsContinuous hnone, (hsession.frame).2.1.trans hnone⟩
  · have hledger : (c.takePending.append .runtime (c.commitEntry p none)).2.ledger =
        { c.ledger.extend [.append .runtime (c.commitEntry p none)] with
          pendingCommit := none } :=
      ledger_append_of_ok hok
    have hpublish : c.ledger.KeepsContinuous
        (c.takePending.append .runtime (c.commitEntry p none)).2.ledger := by
      rw [hledger]
      exact Ledger.keepsContinuous_publish .runtime hp rfl rfl
    have hnone : (c.takePending.append .runtime (c.commitEntry p none)).2.ledger.pendingCommit =
        none := by
      rw [hledger]
    have hsession := checkSession_calm
      (c.takePending.append .runtime (c.commitEntry p none)).2
    rw [h]
    exact ⟨hpublish.trans (hsession.keepsContinuous hnone), (hsession.frame).2.1.trans hnone⟩
  · have hok : (c.takePending.append .runtime (c.commitEntry p none)).1 = true :=
      write_of_noFault (c := c.takePending) hfault _
    simp [hok] at hfailed

end Caller

/-! ### Steps of an agent -/

namespace Actor

variable [LinearOrder D] [ContentHash D]

/-- While a commit is in progress, the guest makes only calls that pass, and its cycle neither
traps nor ends with an error of the host. -/
def Seamless (a : Actor D) : Event D → Prop
  | .host memory call =>
      a.ledger.pendingCommit ≠ none → (a.setMemory memory).caller.passes call = true
  | .ret _ => a.ledger.pendingCommit ≠ none → a.caller.data.hostError = none
  | .trap _ _ => a.ledger.pendingCommit = none
  | _ => True

instance (a : Actor D) (ev : Event D) : Decidable (a.Seamless ev) :=
  match ev with
  | .host _ _ => inferInstanceAs (Decidable (_ → _))
  | .ret _ => inferInstanceAs (Decidable (_ → _))
  | .trap _ _ => inferInstanceAs (Decidable (_ = _))
  | .start => .isTrue trivial
  | .recv _ _ => .isTrue trivial
  | .resume _ => .isTrue trivial
  | .closed => .isTrue trivial
  | .timeout => .isTrue trivial
  | .inferDone _ _ => .isTrue trivial
  | .wake _ _ => .isTrue trivial
  | .others _ _ _ _ => .isTrue trivial

/-- What holds in a run of seamless steps: the writes of the agent are continuous, and a commit
is in progress only while the guest runs. -/
structure Continuous (own : List (Write D)) (a : Actor D) : Prop where
  sound : a.Sound
  continuous : a.ledger.Continuous own
  inCycle : a.ledger.pendingCommit ≠ none → ∃ kind, a.phase = .guest kind

theorem Continuous.pending_none {own : List (Write D)} {a : Actor D} (ha : a.Continuous own)
    (hphase : ∀ kind, a.phase ≠ .guest kind) : a.ledger.pendingCommit = none := by
  by_contra hpending
  obtain ⟨kind, hguest⟩ := ha.inCycle hpending
  exact hphase kind hguest

/-- A step keeps the entries continuous, and after it a commit is in progress only if the guest
runs. -/
structure KeepsContinuous (a a' : Actor D) : Prop where
  ledger : a.ledger.KeepsContinuous a'.ledger
  inCycle : a'.ledger.pendingCommit ≠ none → ∃ kind, a'.phase = .guest kind

theorem keepsContinuous_of_calms {a a' : Actor D} (h : Ledger.Calms a.ledger a'.ledger)
    (hnone : a.ledger.pendingCommit = none) : a.KeepsContinuous a' :=
  ⟨h.keepsContinuous hnone, fun hpending => absurd (h.frame.2.1.trans hnone) hpending⟩

/-- A call of the guest that is seamless. -/
theorem hostCall_keepsContinuous {a : Actor D} {kind : CycleKind} {call : HostCall}
    (hguest : a.phase = .guest kind) (hfault : a.ledger.fault = fun _ => false)
    (hpasses : a.ledger.pendingCommit ≠ none → a.caller.passes call = true) :
    a.KeepsContinuous (a.hostCall kind call) := by
  have hledger : (a.hostCall kind call).ledger = (a.caller.host call).2.ledger :=
    ledger_hostCall a kind call
  have hreturns : ∀ (c : Caller D), (a.caller.host call) = (none, c) →
      ∃ kind', (a.hostCall kind call).phase = .guest kind' := by
    intro c hc
    refine ⟨kind, ?_⟩
    simp only [hostCall, hc]
    exact hguest
  cases hpending : a.ledger.pendingCommit with
  | none =>
      refine ⟨?_, fun hsome => ?_⟩
      · rw [hledger]
        exact Caller.host_keepsContinuous hfault hpending call
      · cases hcalm : call.calm with
        | true =>
            have hframe := (Caller.host_calm a.caller hcalm).frame.2.1
            exact absurd (by rw [hledger, hframe]; exact hpending) hsome
        | false =>
            refine hreturns (a.caller.host call).2 ?_
            cases call with
            | commitBarrier => rfl
            | emit emitType ptr len => rfl
            | agentTerminate => rfl
            | _ => cases hcalm
  | some p =>
      obtain ⟨hnone, hcont⟩ := Caller.host_keepsContinuous_of_passes (c := a.caller) hfault
        hpending (hpasses (by simp [hpending]))
      refine ⟨?_, fun _ => hreturns (a.caller.host call).2 ?_⟩
      · rw [hledger]
        exact hcont
      · rw [← hnone]

/-- The return of the guest, unless it fails while a commit is in progress. -/
theorem endCycle_keepsContinuous {a : Actor D} (kind : CycleKind)
    (hfault : a.ledger.fault = fun _ => false)
    (herror : a.ledger.pendingCommit ≠ none → a.caller.data.hostError = none) :
    a.KeepsContinuous (a.endCycle kind) := by
  obtain ⟨hcont, hnone⟩ := Caller.processEnd_keepsContinuous (c := a.caller) hfault herror
  have hrest : Ledger.Calms a.caller.processEnd.2.ledger (a.endCycle kind).ledger := by
    cases hend : a.caller.processEnd.1 with
    | error e =>
        simp only [endCycle, hend]
        exact crash_calm (a.setCaller a.caller.processEnd.2) _
    | ok _ => rw [ledger_endCycle kind hend]
  refine ⟨hcont.trans (hrest.keepsContinuous hnone), fun hpending => ?_⟩
  exact absurd (hrest.frame.2.1.trans hnone) hpending

/-- A seamless step of the agent. -/
theorem Seamless.keepsContinuous {own : List (Write D)} {a a' : Actor D} {ev : Event D}
    (hs : a.Seamless ev) (ha : a.Continuous own) (hothers : ∀ ws c k h, ev ≠ .others ws c k h)
    (h : a.step ev = some a') : a.KeepsContinuous a' := by
  have hcoherent := ha.sound.coherent
  cases trans_of_step h with
  | start hphase =>
      exact keepsContinuous_of_calms (Caller.logLifecycleEvent_calm a.caller _)
        (ha.pending_none (by simp [hphase]))
  | @handle message order hphase _ =>
      exact keepsContinuous_of_calms (handle_calm a order message)
        (ha.pending_none (by simp [hphase]))
  | @await message order hphase _ =>
      exact keepsContinuous_of_calms (await_calm a message) (ha.pending_none (by simp [hphase]))
  | @resume message order hphase _ =>
      exact keepsContinuous_of_calms (handle_calm { a with pendingMsg := none } order message)
        (ha.pending_none (by simp [hphase]))
  | exit hphase _ =>
      exact keepsContinuous_of_calms (exitLoop_calm a) (ha.pending_none (by simp [hphase]))
  | abandon hphase _ =>
      exact keepsContinuous_of_calms .refl (ha.pending_none (by simp [hphase]))
  | timeout hphase =>
      exact keepsContinuous_of_calms (recordVerdict_calm a .timeout)
        (ha.pending_none (by simp [hphase]))
  | @host kind memory call hguest _ =>
      have hcall := hostCall_keepsContinuous (a := a.setMemory memory) hguest ha.sound.noFault hs
      exact ⟨hcall.ledger, hcall.inCycle⟩
  | @inferDone kind call result durationMs hphase =>
      simp only [Coherent, hphase] at hcoherent
      exact keepsContinuous_of_calms
        (Caller.agentInferFinish_calm hcoherent result durationMs)
        (ha.pending_none (by simp [hphase]))
  | @ret kind memory _ _ =>
      have hend := endCycle_keepsContinuous (a := a.setMemory memory) kind ha.sound.noFault hs
      exact ⟨hend.ledger, hend.inCycle⟩
  | @trap kind memory interrupt _ _ =>
      exact keepsContinuous_of_calms (crash_calm (a.setMemory memory) _) hs
  | @wake ev params memory hphase _ =>
      have hnone := ha.pending_none (by simp [hphase])
      have hrestored := ledger_restore hcoherent hphase params memory
      refine ⟨Ledger.keepsContinuous_of_frame ?_ ?_ ?_, fun hpending => ?_⟩
      · exact (congrArg Ledger.writes hrestored).trans rfl
      · exact (congrArg Ledger.lastSnapshot hrestored).trans rfl
      · exact (congrArg Ledger.pendingCommit hrestored).trans hnone.symm
      · exact absurd (congrArg Ledger.pendingCommit hrestored) hpending
  | @refuse ev params memory hphase _ =>
      refine keepsContinuous_of_calms ?_ (ha.pending_none (by simp [hphase]))
      rw [ledger_setCaller, ledger_refuse]
  | others _ => exact absurd rfl (hothers _ _ _ _)

/-- A seamless step keeps the writes of the agent continuous. -/
theorem Continuous.step {own : List (Write D)} {a a' : Actor D} {ev : Event D}
    (ha : a.Continuous own) (hs : a.Seamless ev) (h : a.step ev = some a') :
    a'.Continuous (own ++ a.written ev a') := by
  have hsound := ha.sound.step h
  cases ev with
  | others ws capStores kvStores causeHandles =>
      cases trans_of_step h with
      | others _ =>
          rw [written, List.append_nil]
          exact ⟨hsound, ⟨ha.continuous.chain, ha.continuous.pending⟩, ha.inCycle⟩
  | _ =>
      have hkeeps := hs.keepsContinuous ha (by simp) h
      obtain ⟨ws, hwrites, hcont⟩ := hkeeps.ledger own ha.continuous
      rw [written_eq (by simp) hwrites]
      exact ⟨hsound, hcont, hkeeps.inCycle⟩

end Actor

/-- The guest of the agent runs, or waits for an inference. -/
def Phase.inCycle : Phase D → Bool
  | .guest _ => true
  | .infer _ _ => true
  | _ => false

/-- In a run of seamless steps in which no access fails, the first entry of the agent starts at
the zero hash and every other one where the one before it ends. Outside of a cycle the last
entry ends at the last snapshot. -/
theorem hash_continuity [LinearOrder D] [ContentHash D] {id : AgentId} {params : BuildParams}
    {memory : List UInt8} {w : World D} {evs : List (Event D)} {a : Actor D}
    (hfault : w.fault = fun _ => false)
    (hseamless : Machine.Along Actor.step Actor.Seamless (.new id params memory w) evs)
    (hrun : Machine.run Actor.step (.new id params memory w) evs = some a) :
    (∀ e ∈ (entriesOf ((Actor.new id params memory w).ownWrites evs)).head?,
      e.hashBefore = zero) ∧
    (entriesOf ((Actor.new id params memory w).ownWrites evs)).IsChain
      (fun e e' => e'.hashBefore = e.hashAfter) ∧
    (a.phase.inCycle = false →
      ((entriesOf ((Actor.new id params memory w).ownWrites evs)).getLast?.map
        LogEntry.hashAfter).getD zero = a.caller.data.lastSnapshot.getD zero) := by
  have hnew : (Actor.new id params memory w).Continuous [] := by
    refine ⟨⟨trivial, hfault, fun tip htip => by cases htip⟩, ⟨hashChain_nil _, ?_⟩, ?_⟩
    · exact fun p hp => by cases hp
    · exact fun hpending => absurd rfl hpending
  have hkept : ∀ own (b : Actor D) ev b', b.Continuous own → b.Seamless ev →
      b.step ev = some b' → b'.Continuous (own ++ b.written ev b') :=
    fun _ _ _ _ hb hs h => hb.step hs h
  have ha := Machine.run_outputs_invariant hkept hnew hseamless hrun
  refine ⟨ha.continuous.chain.head, ha.continuous.chain.linked, fun hphase => ?_⟩
  have hnone : a.ledger.pendingCommit = none :=
    ha.pending_none fun kind hguest => by simp [hguest, Phase.inCycle] at hphase
  have hlast := ha.continuous.chain.last
  rw [Ledger.front, hnone] at hlast
  exact hlast

/-- Two commits, one of them published, a rollback by the guest and one by the scheduler, an
eviction, a wake, and a third commit. -/
def seamlessRun : List (Event (List ℕ)) :=
  .start :: Actor.dataCycle [.commitBarrier, .emit 1 0 4] ++
    Actor.dataCycle [.commitBarrier] ++ Actor.dataCycle [.agentSelfRollback 1] ++
    [.recv (.rollback 0) [], .recv .evict [],
      .wake { clock := fun n => n + 30, capStore := 0, kvStore := 0, causeHandleRegistry := 0 }
        [0, 0, 0, 0], .start] ++
    Actor.dataCycle [.agentIntrospect 0 0, .commitBarrier, .agentGetVerdict, .emit 3 0 2]

/-- Its entries are continuous, and the last one ends at the last snapshot. -/
theorem hash_continuity_seamlessRun :
    ∃ a : Actor (List ℕ), Machine.run Actor.step Actor.sampleAgent seamlessRun = some a ∧
      12 ≤ (entriesOf (Actor.sampleAgent.ownWrites seamlessRun)).length ∧
      (∀ e ∈ (entriesOf (Actor.sampleAgent.ownWrites seamlessRun)).head?,
        e.hashBefore = zero) ∧
      (entriesOf (Actor.sampleAgent.ownWrites seamlessRun)).IsChain
        (fun e e' => e'.hashBefore = e.hashAfter) ∧
      (a.phase.inCycle = false →
        ((entriesOf (Actor.sampleAgent.ownWrites seamlessRun)).getLast?.map
          LogEntry.hashAfter).getD zero = a.caller.data.lastSnapshot.getD zero) := by
  have hseamless : Machine.Along Actor.step Actor.Seamless Actor.sampleAgent seamlessRun := by
    decide +kernel
  have hrun : (Machine.run Actor.step Actor.sampleAgent seamlessRun).isSome = true := by
    decide +kernel
  have hlength : 12 ≤ (entriesOf (Actor.sampleAgent.ownWrites seamlessRun)).length := by
    decide +kernel
  obtain ⟨a, ha⟩ := Option.isSome_iff_exists.mp hrun
  exact ⟨a, ha, hlength, hash_continuity rfl hseamless ha⟩

/-- The checkpoint starts at the new snapshot while the entry before it ends at the zero hash,
and the entry of the commit starts at the zero hash again. -/
theorem checkpoint_breaks_hash_chain :
    (Machine.run Actor.step Actor.sampleAgent Actor.checkpointedCycle).isSome = true ∧
      ¬ (entriesOf (Actor.sampleAgent.ownWrites Actor.checkpointedCycle)).IsChain
        (fun e e' => e'.hashBefore = e.hashAfter) := by
  constructor
  · decide +kernel
  · decide +kernel

end Torpor
