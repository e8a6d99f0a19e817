import Torpor.Actor.Steps

/-!
# Termination

`agent_terminate` sets a flag that most host functions test before they do anything, and the
lifecycle state `Terminated`, which no logged transition leaves and at which the loop stops at
the end of a cycle of `Message::Data`. Four host functions do not test the flag
(`agent_store_put`, `agent_store_get` when it refuses, `agent_infer`, and `agent_terminate`
itself), and a cycle of `Message::SessionResume` does not end the loop.

## Main results

* `Caller.host_after_terminate`: under the flag, the other calls change the memory of the guest
  at most.
* `termination_final`: in a run that calls none of the four after a termination and terminates
  in cycles of `Message::Data` only, a termination is final.
* `terminated_agent_goes_on`: an agent that writes to the shared key-value store after it has
  terminated, and one that is evicted after it has terminated.
-/

namespace Torpor

open ContentHash

variable {D : Type} [ContentHash D]

/-! ### Calls under the flag -/

/-- The call is none of those that have an effect after a termination. -/
def Caller.harmless (c : Caller D) : HostCall → Bool
  | .agentTerminate => false
  | .agentStoreGet resourcePtr resourceLen capId _ =>
      (readStr c.memory (usize resourcePtr) (usize resourceLen)).all fun resource =>
        c.checkCap capId resource ⟨true, false, false, false⟩
  | .agentStorePut resourcePtr resourceLen _ valPtr valLen =>
      (c.storePutArgs resourcePtr resourceLen valPtr valLen).isNone
  | .agentInfer promptPtr promptLen responseBufPtr responseBufCap responseLenOutPtr _ =>
      !c.inferArgsOk promptPtr promptLen responseBufPtr responseBufCap responseLenOutPtr
  | _ => true

namespace Caller

/-- After a termination, a harmless call returns and changes the memory of the guest at
most. -/
theorem host_after_terminate [LinearOrder D] {c : Caller D} {call : HostCall}
    (hterm : c.data.terminationRequested = true) (hcall : c.harmless call = true) :
    ∃ memory, c.host call = (none, { c with memory }) := by
  cases call with
  | commitBarrier => exact ⟨c.memory, by simp [host, commitBarrier, hterm]⟩
  | agentAddCause actionIdPtr => exact ⟨c.memory, by simp [host, agentAddCause, hterm]⟩
  | agentCheckpoint => exact ⟨c.memory, by simp [host, agentCheckpoint, hterm]⟩
  | agentTerminate => cases hcall
  | agentIntrospect outPtr outMaxLen =>
      obtain ⟨memory, hmemory⟩ := writeOut_memory c outPtr outMaxLen _
      exact ⟨memory, by rw [host, agentIntrospect, hmemory]⟩
  | agentSelfRollback depth => exact ⟨c.memory, by simp [host, agentSelfRollback, hterm]⟩
  | agentSessionInfo outPtr outMaxLen =>
      obtain ⟨memory, hmemory⟩ := writeOut_memory c outPtr outMaxLen _
      exact ⟨memory, by rw [host, agentSessionInfo, hmemory]⟩
  | agentRequestValidation riskLevel =>
      exact ⟨c.memory, by simp [host, agentRequestValidation, hterm]⟩
  | agentGetVerdict => exact ⟨c.memory, rfl⟩
  | agentCheckCap capId resourcePtr resourceLen permFlags => exact ⟨c.memory, rfl⟩
  | agentStoreGet resourcePtr resourceLen capId outPtr =>
      rcases c.agentStoreGet_cases resourcePtr resourceLen capId outPtr with
        ⟨memory, h⟩ | ⟨resource, hresource, hdenied, -⟩
      · exact ⟨memory, by rw [host, h]⟩
      · simp [harmless, hresource, hdenied] at hcall
  | agentStorePut resourcePtr resourceLen capId valPtr valLen =>
      have hargs : c.storePutArgs resourcePtr resourceLen valPtr valLen = none :=
        Option.isNone_iff_eq_none.mp hcall
      exact ⟨c.memory, by simp [host, agentStorePut, hargs]⟩
  | emit emitType ptr len => exact ⟨c.memory, by simp [host, emit, hterm]⟩
  | agentInfer promptPtr promptLen responseBufPtr responseBufCap responseLenOutPtr
      timeoutMsReq =>
      have hargs : c.inferArgsOk promptPtr promptLen responseBufPtr responseBufCap
          responseLenOutPtr = false := by
        simpa [harmless] using hcall
      obtain ⟨memory, h⟩ := c.inferRefused_memory promptPtr promptLen responseLenOutPtr
      simp only [host, hargs, Bool.false_eq_true, if_false]
      exact ⟨memory, by rw [h]⟩

end Caller

/-! ### Runs after a termination -/

namespace Actor

variable [LinearOrder D]

/-- What a step after a termination must not do. A host call adds nothing to the databases and
changes neither the shared key-value stores nor the snapshot, the sequence number and the
pending causes of the agent; a message does not enter the guest; and the agent does not become
one that is, or can be, restored. -/
structure Final (a : Actor D) (ev : Event D) (a' : Actor D) : Prop where
  calls : ∀ memory call, ev = .host memory call → a'.ledger.writes = a.ledger.writes ∧
    a'.caller.world.kvStores = a.caller.world.kvStores ∧
    a'.ledger.lastSnapshot = a.ledger.lastSnapshot ∧ a'.ledger.seq = a.ledger.seq ∧
    a'.caller.data.pendingExtraCauses = a.caller.data.pendingExtraCauses
  messages : ∀ message order, ev = .recv message order → ∀ kind, a'.phase ≠ .guest kind
  dead : a'.phase ≠ .spawned ∧ ∀ state, a'.phase ≠ .evicted state

/-- In a run, everything after a call of `agent_terminate` is final. -/
def TerminationFinal (start : Actor D) (events : List (Event D)) : Prop :=
  ∀ before memory between ev after a b c d,
    events = before ++ .host memory .agentTerminate :: (between ++ ev :: after) →
    Machine.run step start before = some a → a.step (.host memory .agentTerminate) = some b →
    Machine.run step b between = some c → c.step ev = some d → Final c ev d

/-- What a run has to avoid: once the agent has asked for its termination, a call that is not
harmless, and the regular end of a cycle of `Message::SessionResume`. -/
def terminationRespected (a : Actor D) : Event D → Bool
  | .host memory call =>
      !a.caller.data.terminationRequested || (a.setMemory memory).caller.harmless call
  | .ret _ =>
      !a.caller.data.terminationRequested || a.inDataCycle || a.caller.data.hostError.isSome
  | _ => true

/-- The agent has stopped, or its guest is in the cycle in which it terminated. -/
def Terminating (a : Actor D) : Prop :=
  a.phase = .stopped ∨ ∃ kind, a.phase = .guest kind ∧
    a.caller.data.terminationRequested = true ∧ a.caller.data.lifecycle = .terminated

omit [ContentHash D] [LinearOrder D] in
/-- A terminating agent is in no other phase. -/
theorem Terminating.no_phase {a : Actor D} {phase : Phase D} (ht : a.Terminating)
    (hphase : a.phase = phase) (hstopped : phase ≠ .stopped)
    (hguest : ∀ kind, phase ≠ .guest kind) : False := by
  obtain h | ⟨kind, h, -⟩ := ht
  · exact hstopped (hphase.symm.trans h)
  · exact hguest kind (hphase.symm.trans h)

omit [ContentHash D] [LinearOrder D] in
/-- A step that is no host call and no message, and ends in a phase of a terminating agent, is
final. -/
theorem final_of_phase {a a' : Actor D} {ev : Event D}
    (hhost : ∀ memory call, ev ≠ .host memory call)
    (hrecv : ∀ message order, ev ≠ .recv message order) (ht : a'.Terminating) :
    Final a ev a' where
  calls memory call hev := (hhost memory call hev).elim
  messages message order hev := (hrecv message order hev).elim
  dead := ⟨fun h => ht.no_phase h (by simp) (by simp),
    fun _ h => ht.no_phase h (by simp) (by simp)⟩

theorem terminating_of_terminate {a b : Actor D} {memory : List UInt8}
    (h : a.step (.host memory .agentTerminate) = some b) : b.Terminating := by
  cases trans_of_step h with
  | @host kind _ _ hphase _ =>
      have hdata := Caller.logLifecycleEvent_data ((a.setMemory memory).caller.setData
        fun s => { s with terminationRequested := true }) .terminated
      refine .inr ⟨kind, hphase, congrArg AgentState.terminationRequested hdata, ?_⟩
      exact (congrArg AgentState.lifecycle hdata).trans (by simp)

omit [LinearOrder D] in
/-- The end of a cycle in which the agent terminated stops it. -/
theorem endCycle_terminated {a : Actor D} {kind : CycleKind}
    (hlife : a.caller.data.lifecycle = .terminated)
    (hkind : kind = .data ∨ a.caller.data.hostError.isSome) :
    (a.endCycle kind).phase = .stopped := by
  have hend := Caller.processEnd_terminated hlife
  simp only [endCycle]
  split
  · rfl
  · rename_i hok
    cases kind with
    | data =>
        simp only [setCaller, afterData, hend, if_true]
        rfl
    | sessionResume =>
        obtain ⟨error, herror⟩ := Option.isSome_iff_exists.mp (hkind.resolve_left (by simp))
        simp [Caller.processEnd, herror] at hok

/-- A host call of a terminating agent that respects the termination changes its memory at
most. -/
theorem Terminating.hostCall {a : Actor D} {kind : CycleKind} {memory : List UInt8}
    {call : HostCall} (ht : a.Terminating) (hphase : a.phase = .guest kind)
    (hrespect : a.terminationRespected (.host memory call) = true) :
    ∃ memory', (a.setMemory memory).hostCall kind call = a.setMemory memory' := by
  obtain hstopped | ⟨-, -, hterm, -⟩ := ht
  · exact absurd (hphase.symm.trans hstopped) (by simp)
  · have hharmless : (a.setMemory memory).caller.harmless call = true := by
      simpa [terminationRespected, hterm] using hrespect
    obtain ⟨memory', hhost⟩ := Caller.host_after_terminate (c := (a.setMemory memory).caller)
      hterm hharmless
    refine ⟨memory', ?_⟩
    simp only [Actor.hostCall, hhost]
    rfl

omit [LinearOrder D] in
/-- The end of its cycle stops it. -/
theorem Terminating.endCycle {a : Actor D} {kind : CycleKind} {memory : List UInt8}
    (ht : a.Terminating) (hphase : a.phase = .guest kind)
    (hrespect : a.terminationRespected (.ret memory) = true) :
    ((a.setMemory memory).endCycle kind).phase = .stopped := by
  obtain hstopped | ⟨-, -, hterm, hlife⟩ := ht
  · exact absurd (hphase.symm.trans hstopped) (by simp)
  · refine endCycle_terminated (a := a.setMemory memory) hlife ?_
    have hend : a.inDataCycle = true ∨ a.caller.data.hostError.isSome = true := by
      simpa [terminationRespected, hterm] using hrespect
    refine hend.imp_left fun hdata => ?_
    cases kind with
    | data => rfl
    | sessionResume => simp [inDataCycle, hphase] at hdata

/-- A step of a terminating agent that respects the termination leaves it terminating, and is
final. -/
theorem Terminating.step {a a' : Actor D} {ev : Event D} (ht : a.Terminating)
    (hrespect : a.terminationRespected ev = true) (h : a.step ev = some a') :
    a'.Terminating ∧ Final a ev a' := by
  cases trans_of_step h with
  | @host kind memory call hphase _ =>
      obtain ⟨memory', hcall⟩ := ht.hostCall hphase hrespect
      have ht' : (a.setMemory memory').Terminating := ht
      rw [hcall]
      refine ⟨ht', fun _ _ _ => ⟨rfl, rfl, rfl, rfl, rfl⟩, ?_, ?_⟩
      · intro _ _ hev
        cases hev
      · exact ⟨fun h => ht'.no_phase h (by simp) (by simp),
          fun _ h => ht'.no_phase h (by simp) (by simp)⟩
  | @ret kind memory hphase _ =>
      have ht' : ((a.setMemory memory).endCycle kind).Terminating :=
        .inl (ht.endCycle hphase hrespect)
      exact ⟨ht', final_of_phase (by simp) (by simp) ht'⟩
  | @trap kind memory interrupt _ _ =>
      have ht' : ((a.setMemory memory).crash (classifyProcessOneError
        (.trap interrupt))).Terminating := .inl rfl
      exact ⟨ht', final_of_phase (by simp) (by simp) ht'⟩
  | others _ => exact ⟨ht, final_of_phase (by simp) (by simp) ht⟩
  | start hphase => exact (ht.no_phase hphase (by simp) (by simp)).elim
  | handle hphase _ => exact (ht.no_phase hphase (by simp) (by simp)).elim
  | await hphase _ => exact (ht.no_phase hphase (by simp) (by simp)).elim
  | resume hphase _ => exact (ht.no_phase hphase (by simp) (by simp)).elim
  | exit hphase _ => exact (ht.no_phase hphase (by simp) (by simp)).elim
  | abandon hphase _ => exact (ht.no_phase hphase (by simp) (by simp)).elim
  | timeout hphase => exact (ht.no_phase hphase (by simp) (by simp)).elim
  | inferDone hphase => exact (ht.no_phase hphase (by simp) (by simp)).elim
  | wake hphase _ => exact (ht.no_phase hphase (by simp) (by simp)).elim
  | refuse hphase _ => exact (ht.no_phase hphase (by simp) (by simp)).elim

/-- In every run whose steps respect a termination, from any state of any agent, everything
after a call of `agent_terminate` is final. -/
theorem termination_final {start : Actor D} {events : List (Event D)}
    (h : Machine.Along step (fun a ev => a.terminationRespected ev = true) start events) :
    TerminationFinal start events := by
  rintro before memory between ev after a b c d rfl hbefore hterminate hbetween hstep
  have hafter := ((h.right hbefore).2 b hterminate)
  have hkept : ∀ (s : Actor D) (i : Event D) (s' : Actor D), Terminating s →
      terminationRespected s i = true → s.step i = some s' → Terminating s' :=
    fun s i s' hs hi hi' => (hs.step hi hi').1
  have hc : c.Terminating := Machine.run_invariant_along hkept
    (terminating_of_terminate hterminate) hafter.left hbetween
  exact (hc.step (hafter.at_step hbetween) hstep).2

/-! ### Agents that go on -/

/-- The memory of a guest whose first byte is the name of a resource, `k`. -/
def keyMemory : List UInt8 := [0x6b, 0, 0, 0]

/-- A capability store in which agent `10` may write to `k`. -/
def grantedStore : CapabilityStore :=
  (CapabilityStore.new.grantRoot 0 10 ⟨true, true, true, true⟩ ['k']).2

/-- A guest that terminates and then writes to the shared store. -/
def putAfterTerminate : List (Event (List ℕ)) :=
  [.start, .others [] (fun _ => grantedStore) (fun _ => ∅) (fun _ _ => []),
    .recv (.data [] none) [], .host keyMemory .agentTerminate,
    .host keyMemory (.agentStorePut 0 1 0 0 1)]

/-- An agent that terminates when its session is resumed, and is then evicted. -/
def evictAfterTerminate : List (Event (List ℕ)) :=
  [.start, .recv (.sessionResume []) [], .host keyMemory .agentTerminate, .ret keyMemory,
    .recv .evict []]

/-- A termination in a cycle of `Message::Data`, with a call that is refused after it. -/
def terminateRun : List (Event (List ℕ)) :=
  .start :: dataCycle [.agentTerminate, .commitBarrier]

/-- The termination in it is final: the commit that follows it adds nothing. -/
theorem terminateRun_final : ∃ a b c d : Actor (List ℕ),
    Machine.run step sampleAgent [.start, .recv (.data [] none) []] = some a ∧
    a.step (.host [0, 0, 0, 0] .agentTerminate) = some b ∧
    b.step (.host [0, 0, 0, 0] .commitBarrier) = some c ∧
    c.step (.ret [0, 0, 0, 0]) = some d ∧ c.ledger.writes = b.ledger.writes ∧
    d.phase = .stopped := by
  have hrun : (Machine.run step sampleAgent [.start, .recv (.data [] none) []]).any (fun a =>
      (a.step (.host [0, 0, 0, 0] .agentTerminate)).any fun b =>
      (b.step (.host [0, 0, 0, 0] .commitBarrier)).any fun c =>
      (c.step (.ret [0, 0, 0, 0])).any fun d => decide (d.phase = .stopped)) = true := by
    decide +kernel
  simp only [Option.any_eq_true] at hrun
  obtain ⟨a, ha, b, hb, c, hc, d, hd, hstopped⟩ := hrun
  have hall : TerminationFinal sampleAgent terminateRun := termination_final (by decide +kernel)
  have hfinal := hall [.start, .recv (.data [] none) []] [0, 0, 0, 0] []
    (.host [0, 0, 0, 0] .commitBarrier) [.ret [0, 0, 0, 0]] a b b c rfl ha hb rfl hc
  exact ⟨a, b, c, d, ha, hb, hc, hd, (hfinal.calls _ _ rfl).1, of_decide_eq_true hstopped⟩

/-- A terminated agent that writes to the shared store, and one that can be restored. -/
theorem terminated_agent_goes_on : ¬ TerminationFinal sampleAgent putAfterTerminate ∧
    ¬ TerminationFinal sampleAgent evictAfterTerminate := by
  constructor
  · intro hfinal
    have hrun : (Machine.run step sampleAgent (putAfterTerminate.take 3)).any (fun a =>
        (a.step (.host keyMemory .agentTerminate)).any fun b =>
        (b.step (.host keyMemory (.agentStorePut 0 1 0 0 1))).any fun d =>
          decide ((b.caller.world.kvStores 0).lookup ['k'] = none ∧
            (d.caller.world.kvStores 0).lookup ['k'] = some [0x6b])) = true := by
      decide +kernel
    simp only [Option.any_eq_true] at hrun
    obtain ⟨a, ha, b, hb, d, hd, hkv⟩ := hrun
    obtain ⟨hnone, hsome⟩ := of_decide_eq_true hkv
    have hcall := hfinal (putAfterTerminate.take 3) keyMemory []
      (.host keyMemory (.agentStorePut 0 1 0 0 1)) [] a b b d rfl ha hb rfl hd
    obtain ⟨-, hkept, -⟩ := hcall.calls _ _ rfl
    rw [hkept, hnone] at hsome
    cases hsome
  · intro hfinal
    have hrun : (Machine.run step sampleAgent (evictAfterTerminate.take 2)).any (fun a =>
        (a.step (.host keyMemory .agentTerminate)).any fun b =>
        (b.step (.ret keyMemory)).any fun c =>
        (c.step (.recv .evict [])).any fun d =>
          decide (d.phase = .evicted d.evictedState)) = true := by
      decide +kernel
    simp only [Option.any_eq_true] at hrun
    obtain ⟨a, ha, b, hb, c, hc, d, hd, hevicted⟩ := hrun
    have hmessage := hfinal (evictAfterTerminate.take 2) keyMemory [.ret keyMemory]
      (.recv .evict []) [] a b c d rfl ha hb (Machine.run_cons_eq_some.mpr ⟨c, hc, rfl⟩) hd
    exact hmessage.dead.2 _ (of_decide_eq_true hevicted)

end Actor

end Torpor
