import Torpor.Actor.Trail
import Torpor.System.Basic

/-!
# Authenticity of the Events of the Runtime

Most types of emissions stand for something that the runtime or the scheduler does, and readers
of the log take an entry of such a type as evidence for it. `emit` takes the type from the guest
as a number, keeps its low byte, and accepts every type that there is.

## Main results

* `Authentic`: the entries of a reserved type have been written by the code it is reserved for.
* `Actor.EmitsOwn`: the guest does not emit an entry of a reserved type.
* `events_authentic_iff`: the journal is authentic in all states of a run exactly if no guest
  emits an entry of a reserved type in it.
* `guest_forges_crash`: a guest that emits an `AgentCrash`.
-/

namespace Torpor

open ContentHash

variable {D : Type}

/-- An entry of a reserved type has been written by the code that the type is reserved for. -/
def Authentic (ws : List (Write D)) : Prop :=
  ∀ writer e, Write.append writer e ∈ ws → ∀ k : EmitType, e.HasType k → k.writer ≠ .guest →
    writer = k.writer

theorem authentic_nil : Authentic ([] : List (Write D)) := by
  rintro writer e h
  cases h

theorem Authentic.of_subset {ws ws' : List (Write D)} (h : Authentic ws) (hsub : ws' ⊆ ws) :
    Authentic ws' :=
  fun writer e he => h writer e (hsub he)

theorem Authentic.concat {ws : List (Write D)} (h : Authentic ws) {w : Write D}
    (hw : ∀ writer e, w = .append writer e → ∀ k : EmitType, e.HasType k → k.writer ≠ .guest →
      writer = k.writer) : Authentic (ws ++ [w]) := by
  intro writer e he
  rcases List.mem_append.mp he with he | he
  · exact h writer e he
  · exact hw writer e (List.mem_singleton.mp he).symm

/-- An entry of a type that its writer may write. -/
theorem Authentic.append {ws : List (Write D)} (h : Authentic ws) {writer : Writer}
    {e : LogEntry D} {k : EmitType} (htype : e.HasType k)
    (hwriter : k.writer ≠ .guest → writer = k.writer) :
    Authentic (ws ++ [.append writer e]) := by
  refine h.concat fun writer' e' heq k' htype' hreserved => ?_
  cases heq
  obtain rfl := htype.unique htype'
  exact hwriter hreserved

/-! ### Moves of an agent -/

section

variable [ContentHash D]

theorem Trail.Calm.authentic {given : List D} {t t' : Trail D} (ha : Authentic t.writes)
    (hstep : Trail.Calm given t t') : Authentic t'.writes := by
  cases hstep with
  | follow _ htype hwriter => exact ha.append htype fun _ => hwriter.symm
  | @store w hw =>
      refine ha.concat ?_
      rintro writer e rfl
      cases hw
  | _ => exact ha

/-- A move keeps the journal authentic if the guest asks for no reserved type. -/
theorem Trail.Step.authentic {given : List D} {types : List EmitType} {t t' : Trail D}
    (htypes : ∀ k ∈ types, k.writer = .guest) (ha : Authentic t.writes)
    (hstep : Trail.Step given types t t') : Authentic t'.writes := by
  cases hstep with
  | calm hcalm => exact hcalm.authentic ha
  | publish hpublish =>
      cases hpublish with
      | emit _ _ htype hmem =>
          refine ha.append htype fun hreserved => ?_
          exact absurd (htypes _ hmem) hreserved
      | flush _ _ hnone =>
          refine ha.concat ?_
          rintro writer e heq k ⟨env, henv, -⟩
          cases heq
          simp [hnone] at henv
  | cite _ htype hwriter => exact ha.append htype fun _ => hwriter.symm

theorem Trail.Steps.authentic {given : List D} {types : List EmitType} {t t' : Trail D}
    (htypes : ∀ k ∈ types, k.writer = .guest) (ha : Authentic t.writes)
    (hsteps : Trail.Steps given types t t') : Authentic t'.writes :=
  hsteps.invariant (P := fun t => Authentic t.writes)
    (fun _ _ ha hstep => hstep.authentic htypes ha) ha

theorem Trail.Calms.authentic {given : List D} {t t' : Trail D} (ha : Authentic t.writes)
    (hsteps : Trail.Calms given t t') : Authentic t'.writes :=
  have hnone : ∀ k ∈ ([] : List EmitType), k.writer = .guest := by simp
  Trail.Steps.authentic hnone ha hsteps.steps

/-- An emission that is appended adds an entry of the type that the guest asks for. -/
theorem Caller.emit_appends {c : Caller D} {emitType ptr len : Int32}
    (h : c.publishes (.emit emitType ptr len) = true) :
    ∃ e k, e.HasType k ∧ k ∈ (HostCall.emit emitType ptr len).types ∧
      (c.emit emitType ptr len).world.writes = c.world.writes ++ [.append .guest e] := by
  simp only [publishes, Bool.and_eq_true, Bool.not_eq_true', Option.isNone_iff_eq_none] at h
  obtain ⟨⟨⟨⟨hterm, herror⟩, hpending⟩, hbounds⟩, hfault⟩ := h
  obtain ⟨p, hp⟩ := Option.isSome_iff_exists.mp hpending
  let c' : Caller D := c.takePending.now.2
  let k : EmitType := (EmitType.tryFrom (UInt8.ofNat (usize emitType))).getD .actionResult
  let e : LogEntry D := c'.commitEntry p (some (.new k c'.data.id p.seq c.takePending.now.1
    (readMem c'.memory (usize ptr) (usize len))))
  have hok : (c'.append .guest e).1 = true := by
    have hworld : c'.world.fault c'.world.ios = false := hfault
    simp [Caller.append, write, World.write, hworld]
  have hmemory : c.takePending.now.2.memory = c.memory := rfl
  have hemit : c.emit emitType ptr len = (c'.append .guest e).2 := by
    simp only [emit, hterm, herror, hp, hmemory, hbounds, Option.isSome_none, Bool.not_true,
      Bool.false_eq_true, if_false]
    exact if_pos hok
  refine ⟨e, k, ⟨_, rfl, rfl⟩, List.mem_singleton_self _, ?_⟩
  rw [hemit]
  exact congrArg Trail.writes (trail_append_of_ok hok)

/-! ### Steps of an agent -/

namespace Actor

omit [ContentHash D] in
/-- The call appends an emission of the guest to the log. -/
def appendsEmission (a : Actor D) (memory : List UInt8) (call : HostCall) : Bool :=
  match a.phase with
  | .guest _ => decide (a.caller.memory.length ≤ memory.length) &&
      (a.setMemory memory).caller.publishes call
  | _ => false

omit [ContentHash D] in
/-- The guest does not emit an entry of a reserved type. -/
def EmitsOwn (a : Actor D) : Event D → Prop
  | .host memory call =>
      a.appendsEmission memory call = true → ∀ k ∈ call.types, k.writer = .guest
  | _ => True

omit [ContentHash D] in
instance (a : Actor D) (ev : Event D) : Decidable (a.EmitsOwn ev) :=
  match ev with
  | .host memory call => inferInstanceAs (Decidable (a.appendsEmission memory call = true →
      ∀ k ∈ call.types, k.writer = .guest))
  | .start => .isTrue trivial
  | .recv _ _ => .isTrue trivial
  | .resume _ => .isTrue trivial
  | .closed => .isTrue trivial
  | .timeout => .isTrue trivial
  | .inferDone _ _ => .isTrue trivial
  | .ret _ => .isTrue trivial
  | .trap _ _ => .isTrue trivial
  | .wake _ _ => .isTrue trivial
  | .others _ _ _ _ => .isTrue trivial

variable [LinearOrder D]

/-- Such a step keeps the journal authentic. -/
theorem EmitsOwn.authentic {a a' : Actor D} {ev : Event D} (he : a.EmitsOwn ev)
    (hc : a.Coherent) (hothers : ∀ ws c k h, ev ≠ .others ws c k h) (h : a.step ev = some a')
    (ha : Authentic a.trail.writes) : Authentic a'.trail.writes := by
  by_cases hhost : ∃ memory call, ev = .host memory call
  · obtain ⟨memory, call, rfl⟩ := hhost
    cases trans_of_step h with
    | @host kind _ _ hguest hmem =>
        rw [hostCall_trail]
        rcases Caller.host_trail [] (a.setMemory memory).caller call with
          hcalm | ⟨hpublishes, hpublish⟩
        · exact Trail.Calms.authentic ha hcalm
        · have happends : a.appendsEmission memory call = true := by
            simp [appendsEmission, hguest, hmem, hpublishes]
          have hstep : Trail.Step [] call.types a.trail
              ((a.setMemory memory).caller.host call).2.trail := .publish hpublish
          exact hstep.authentic (he happends) ha
  · rcases step_trail hc h with hsteps | ⟨ws, c, k, r, heq, -⟩
    · refine Trail.Steps.authentic ?_ ha hsteps
      intro k hk
      cases ev with
      | host memory call => exact absurd ⟨memory, call, rfl⟩ hhost
      | _ => cases hk
    · exact absurd heq (hothers ws c k r)

/-- A step that keeps the journal authentic is such a step. -/
theorem emitsOwn_of_authentic {a a' : Actor D} {ev : Event D} (h : a.step ev = some a')
    (ha : Authentic a'.trail.writes) : a.EmitsOwn ev := by
  cases ev with
  | host memory call =>
      intro happends k hk
      by_contra hreserved
      cases call with
      | emit emitType ptr len =>
          cases trans_of_step h with
          | @host kind _ _ hguest hmem =>
              have hpublishes : (a.setMemory memory).caller.publishes
                  (.emit emitType ptr len) = true := by
                simpa [appendsEmission, hguest, hmem] using happends
              obtain ⟨e, k', htype, hk', hwrites⟩ := Caller.emit_appends hpublishes
              obtain rfl : k = k' :=
                (List.mem_singleton.mp hk).trans (List.mem_singleton.mp hk').symm
              rw [hostCall_trail] at ha
              have hmem' : Write.append .guest e ∈
                  ((a.setMemory memory).caller.emit emitType ptr len).world.writes := by
                rw [hwrites]
                exact List.mem_append_right _ (List.mem_singleton_self _)
              exact hreserved (ha .guest e hmem' k htype hreserved).symm
      | _ => cases hk
  | _ => trivial

/-- A call whose emission is appended is a step. -/
theorem exists_step_of_appendsEmission {a : Actor D} {memory : List UInt8} {call : HostCall}
    (h : a.appendsEmission memory call = true) : ∃ a', a.step (.host memory call) = some a' := by
  simp only [appendsEmission] at h
  split at h
  · rename_i kind hguest
    obtain ⟨hmem, -⟩ := Bool.and_eq_true_iff.mp h
    refine ⟨(a.setMemory memory).hostCall kind call, ?_⟩
    simp only [step, hguest, of_decide_eq_true hmem, if_true]
  · cases h

end Actor

/-! ### Any number of agents -/

variable [LinearOrder D]

/-- An entry of a reserved type that the log holds has been appended by the code that the type
is reserved for. -/
theorem Authentic.mem_of_get {ws : List (Write D)} (h : Authentic ws) {id : D} {e : LogEntry D}
    (hget : (Disk.replay ws).log.get id = some e) {k : EmitType} (htype : e.HasType k)
    (hreserved : k.writer ≠ .guest) : Write.append k.writer e ∈ ws := by
  rw [Disk.replay_log] at hget
  obtain ⟨w, hw, hentry⟩ := List.mem_filterMap.mp (CausalLog.mem_of_get_ofEntries hget)
  cases w with
  | append writer e' =>
      obtain rfl : e' = e := by simpa [Write.entry?] using hentry
      rwa [h writer e' hw k htype hreserved] at hw
  | _ => simp [Write.entry?] at hentry

/-- Being coherent is an invariant of all agents. -/
theorem agentInvariant_coherent :
    AgentInvariant (D := D) (fun _ => True) (fun _ _ => True) Actor.Coherent where
  coherent _ ha := ha
  nil := trivial
  cut _ _ _ _ := trivial
  scheduler _ _ _ _ _ := trivial
  rollback _ _ := trivial
  message _ _ _ _ _ := trivial
  new _ _ _ _ _ := trivial
  grow _ _ _ _ _ ha := ha
  kept _ _ _ _ ha _ _ h := ⟨trivial, Actor.step_coherent ha h⟩

namespace System

/-- No guest emits an entry of a reserved type in the step. -/
def EmitsOwn (s : System D) : SystemEvent D → Prop
  | .act slot event =>
      ∀ p, s.processes slot = some p → (p.actor.inWorld s.world).EmitsOwn event
  | _ => True

/-- A step of the agent of a process in which its guest emits no entry of a reserved type. -/
theorem authentic_run {s s' : System D} {slot : ℕ} {p : Process D} {tag : Option ℕ}
    {event : Event D} (hc : p.actor.Coherent)
    (he : (p.actor.inWorld s.world).EmitsOwn event)
    (hothers : ∀ ws c k h, event ≠ .others ws c k h) (h : s.run slot p tag event = some s')
    (ha : Authentic s.world.writes) : Authentic s'.world.writes := by
  obtain ⟨a, hstep, hworld, -⟩ := run_eq_some h
  rw [hworld]
  exact he.authentic (a := p.actor.inWorld s.world) hc hothers hstep ha

omit [LinearOrder D] in
/-- An entry of the scheduler is of a type that is reserved for it. -/
theorem authentic_append {s : System D} (ha : Authentic s.world.writes) (request : ℕ)
    {k : EmitType} (hk : k.writer = .scheduler) (now : Reading) (payload : List UInt8) :
    Authentic (s.append request (schedulerEntry k now payload)).world.writes := by
  simp only [append, advance, World.write]
  split_ifs
  · exact ha
  · exact ha.append ⟨_, rfl, rfl⟩ fun _ => hk.symm

/-- A step in which no guest emits an entry of a reserved type keeps the journal authentic. -/
theorem EmitsOwn.authentic {s s' : System D} {ev : SystemEvent D} (he : s.EmitsOwn ev)
    (hs : s.Holds (fun _ => True) (fun _ _ => True) Actor.Coherent) (h : s.step ev = some s')
    (ha : Authentic s.world.writes) : Authentic s'.world.writes := by
  cases trans_of_step h with
  | spawn _ => exact ha
  | post _ _ => exact ha
  | @deliver slot order p tag message inbox _ hp _ hrun =>
      have hown : (p.actor.inWorld s.world).EmitsOwn (.recv message order) := trivial
      exact authentic_run (p := { p with inbox }) (hs.agents slot p hp) hown (by simp) hrun ha
  | @act slot event p _ hp henabled hrun =>
      refine authentic_run (hs.agents slot p hp) (he p hp) ?_ hrun ha
      rintro ws c k r rfl
      cases henabled
  | @opened request _ _ _ _ => exact authentic_append ha request rfl _ _
  | unsent _ => exact ha
  | sent _ _ _ _ => exact ha
  | @closed request _ _ _ _ _ => exact authentic_append ha request rfl _ _
  | crash => exact ha.of_subset (List.take_subset _ _)

/-- A step that keeps the journal authentic is such a step. -/
theorem emitsOwn_of_authentic {s s' : System D} {ev : SystemEvent D} (h : s.step ev = some s')
    (ha : Authentic s'.world.writes) : s.EmitsOwn ev := by
  cases ev with
  | act slot event =>
      intro p hp
      cases trans_of_step h with
      | act hp' _ hrun =>
          obtain rfl := Option.some.inj (hp.symm.trans hp')
          obtain ⟨a, hstep, hworld, -⟩ := run_eq_some hrun
          rw [hworld] at ha
          exact Actor.emitsOwn_of_authentic hstep ha
  | _ => trivial

/-- So is a step that is not possible. -/
theorem emitsOwn_of_stuck {s : System D} {ev : SystemEvent D} (h : s.step ev = none) :
    s.EmitsOwn ev := by
  cases ev with
  | act slot event =>
      intro p hp
      cases event with
      | host memory call =>
          intro happends
          obtain ⟨a, ha⟩ := Actor.exists_step_of_appendsEmission happends
          simp [step, hp, Process.enabled, run, ha] at h
      | _ => trivial
  | _ => trivial

end System

/-- The journal is authentic in all states of a run of any number of agents exactly if in none
of its steps a guest emits an entry of a reserved type. -/
theorem events_authentic_iff {w : World D} {evs : List (SystemEvent D)} :
    (∀ pre post s, evs = pre ++ post → Machine.run System.step (System.boot w) pre = some s →
      Authentic s.world.writes) ↔
    Machine.Along System.step System.EmitsOwn (System.boot w) evs := by
  have hinv : ∀ (s : System D) ev s', s.Holds (fun _ => True) (fun _ _ => True) Actor.Coherent →
      s.step ev = some s' → s'.Holds (fun _ => True) (fun _ _ => True) Actor.Coherent :=
    fun s ev s' hs h => agentInvariant_coherent.step hs (fun _ _ _ => trivial) h
  have hiff : ∀ (s : System D) ev s', s.Holds (fun _ => True) (fun _ _ => True) Actor.Coherent →
      Authentic s.world.writes → s.step ev = some s' →
      (Authentic s'.world.writes ↔ s.EmitsOwn ev) := fun s ev s' hs ha h =>
    ⟨fun hs' => System.emitsOwn_of_authentic h hs', fun he => he.authentic hs h ha⟩
  exact Machine.always_iff_along hinv hiff (fun s ev _ h => System.emitsOwn_of_stuck h)
    (agentInvariant_coherent.boot w) authentic_nil evs

end

/-- An agent whose guest calls `emit(0x13, 0, 4)` after its commit. -/
def forgedCrash : List (SystemEvent (List ℕ)) :=
  [.spawn 0 10 sampleParams [0, 0, 0, 0], .act 0 .start, .post 0 (.data [] none), .deliver 0 [],
    .act 0 (.host [0, 0, 0, 0] .commitBarrier), .act 0 (.host [0, 0, 0, 0] (.emit 0x13 0 4)),
    .act 0 (.ret [0, 0, 0, 0])]

/-- The log holds an `AgentCrash` that the guest has written, and no agent has crashed. -/
theorem guest_forges_crash :
    ∃ s : System (List ℕ), Machine.run System.step (System.boot Actor.blankWorld) forgedCrash =
      some s ∧ ¬ Authentic s.world.writes := by
  have hrun : (Machine.run System.step (System.boot Actor.blankWorld) forgedCrash).any
      (fun s : System (List ℕ) => s.world.writes.any fun w =>
        decide (∃ entry ∈ w.entry?, entry.1 = .guest ∧ entry.2.HasType .agentCrash)) = true := by
    decide +kernel
  obtain ⟨s, hs, hforged⟩ := (Option.any_eq_true _ _).mp hrun
  obtain ⟨w, hw, hcheck⟩ := List.any_eq_true.mp hforged
  obtain ⟨⟨writer, e⟩, hentry, hguest, htype⟩ := of_decide_eq_true hcheck
  refine ⟨s, hs, fun hauthentic => ?_⟩
  cases w with
  | append writer' e' =>
      obtain ⟨rfl, rfl⟩ : writer' = writer ∧ e' = e := by simpa [Write.entry?] using hentry
      have hwriter : writer' = EmitType.agentCrash.writer :=
        hauthentic writer' e' hw .agentCrash htype (by decide)
      cases hguest.symm.trans hwriter
  | _ => cases hentry

end Torpor
