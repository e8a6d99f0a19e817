import Torpor.Lab.Daemon

/-!
# Sessions Under Concurrency

A request may name the action that it expects to be the last of its session, and is answered
409 when another one is. The check and the creation of the request's own action are two uses
of the connection, so that two requests can pass the check before either creates an action;
and the last action is the one with the greatest id, which within a millisecond is random.
Where checks and creations do not overlap and ids grow within a session, at most one request
is accepted for an expectation, and its action follows the expected one.

## Main results

* `session_exclusive`: the condition under which the check does what it is for, for every
  interleaving of requests.
* `session_lost_update`: two requests that both pass the check.
-/

namespace Torpor.Lab

open Atomic Atomic.Program

/-! ### Expectations -/

/-- A session and the action that is expected to be its last. -/
abbrev Expectation := Text × ActionId

/-- What a request expects; without a session or an action nothing is checked. -/
def Request.expectation : Request → Option Expectation
  | .think _ (some session) (some expected) => some (session, expected)
  | .memoryWrite _ _ _ _ (some session) (some expected) => some (session, expected)
  | _ => none

/-- The action of a request, as opposed to those of its tools and of denials. -/
def ActionType.OfRequest : ActionType → Prop
  | .think => True
  | .memoryWrite => True
  | _ => False

/-- The answer is a 409. -/
def IsConflict : Except DaemonError Response → Prop
  | .ok (.conflict _ _) => True
  | _ => False

/-- The action that a use creates. -/
def Use.created {α : Type} : Use α → Option NewAction
  | .createAction a => some a
  | _ => none

/-- The session whose last action a use reads. -/
def Use.lastOf {α : Type} : Use α → Option (Option Text)
  | .getLastActionId session => some session
  | _ => none

/-- How far a request with an expectation has come. -/
inductive Phase
  /-- Before the check. -/
  | unchecked
  /-- Answered 409. -/
  | rejected
  /-- Past the check, without an action yet. -/
  | pending
  /-- Past the check, with a creation that was refused. -/
  | failed
  /-- Past the check, with its action created. -/
  | created
deriving DecidableEq

/-- The expectation of a request and how far the request has come; `none` when it expects
nothing. -/
abbrev Stage := Option (Expectation × Phase)

namespace Stage

def start (r : Request) : Stage := r.expectation.map fun p => (p, .unchecked)

/-- What the check makes of the actual last action. -/
def afterCheck (p : Expectation) (actual : Option ActionId) : Phase :=
  if actual = some p.2 then .pending else .rejected

def next (t : Stage) (α : Type) (u : Use α) : α → Stage :=
  match u with
  | .getLastActionId _ => fun actual =>
      match t with
      | some (p, .unchecked) => some (p, afterCheck p actual)
      | t => t
  | .createAction _ => fun r =>
      match t with
      | some (p, .pending) =>
          match r with
          | .ok _ => some (p, .created)
          | .error _ => some (p, .failed)
      | t => t
  | _ => fun _ => t

/-- The first thing a request with an expectation does is to read the last action of its
session; past the check its first action is one of its session, and later ones are not its
own. -/
def Follows (t : Stage) (α : Type) (u : Use α) : Prop :=
  match t with
  | none => True
  | some (p, .unchecked) => u.lastOf = some (some p.1)
  | some (p, .pending) => ∀ a ∈ u.created, a.sessionId = some p.1
  | some (_, .created) => ∀ a ∈ u.created, ¬ a.type.OfRequest
  | some (_, _) => u.created = none

/-- The request has passed the check of an expectation. -/
def Passed (t : Stage) (p : Expectation) : Prop :=
  t = some (p, .pending) ∨ t = some (p, .failed) ∨ t = some (p, .created)

end Stage

/-- The daemon, with how far its requests have come. -/
def sessionDaemon (sha256 : Text → Text) (maxIterations : ℕ) :
    System DaemonError Use Env Database Request Response Stage :=
  daemon sha256 maxIterations Stage.start Stage.next

abbrev SessionPool := Pool DaemonError Use Database Request Response Stage

abbrev SessionThread := Thread DaemonError Use Request Response Stage

/-- A request is checked while no other one with its expectation has passed the check and has
no action yet. -/
def ChecksAlone (s : SessionPool) (t : SessionThread) : Prop :=
  ∀ m ∈ t.mark, m.2 = .unchecked →
    ∀ t' ∈ s.threads, t'.mark ≠ some (m.1, .pending) ∧ t'.mark ≠ some (m.1, .failed)

/-- The new id is above those of its session, and no other request is between the check and
the creation of its action in this session. -/
def CreatesInOrder (s : SessionPool) (i : ℕ) (session : Text) (actionId : ActionId) : Prop :=
  (∀ id ∈ sessionIds s.store session, id < actionId) ∧
    ∀ t ∈ s.threads.eraseIdx i, ∀ m ∈ t.mark, m.2 = .pending → m.1.1 ≠ session

/-- Checks and creations of a session do not overlap, and its ids grow. -/
def OrderlyTurn (s : SessionPool) (i : ℕ) (t : SessionThread) (α : Type) (u : Use α)
    (e : Env) : Prop :=
  (u.lastOf.isSome = true → ChecksAlone s t) ∧
    ∀ a ∈ u.created, ∀ session ∈ a.sessionId,
      CreatesInOrder s i session (uuid7 e.toReading)

instance (s : SessionPool) (t : SessionThread) : Decidable (ChecksAlone s t) :=
  inferInstanceAs (Decidable (∀ m ∈ t.mark, m.2 = .unchecked →
    ∀ t' ∈ s.threads, t'.mark ≠ some (m.1, .pending) ∧ t'.mark ≠ some (m.1, .failed)))

instance (s : SessionPool) (i : ℕ) (session : Text) (actionId : ActionId) :
    Decidable (CreatesInOrder s i session actionId) :=
  inferInstanceAs (Decidable ((∀ id ∈ sessionIds s.store session, id < actionId) ∧
    ∀ t ∈ s.threads.eraseIdx i, ∀ m ∈ t.mark, m.2 = .pending → m.1.1 ≠ session))

instance (s : SessionPool) (i : ℕ) (t : SessionThread) (α : Type) (u : Use α) (e : Env) :
    Decidable (OrderlyTurn s i t α u e) :=
  inferInstanceAs (Decidable ((u.lastOf.isSome = true → ChecksAlone s t) ∧
    ∀ a ∈ u.created, ∀ session ∈ a.sessionId,
      CreatesInOrder s i session (uuid7 e.toReading)))

/-! ### What a use does to a session -/

theorem exec_sessionIds (sha256 : Text → Text) {α : Type} (u : Use α) (e : Env)
    (db : Database) (session : Text) :
    sessionIds (exec sha256 α u e db).2 session = sessionIds db session ∨
      ∃ a ∈ u.created, a.sessionId = some session ∧
        sessionIds (exec sha256 α u e db).2 session =
          sessionIds db session ++ [uuid7 e.toReading] := by
  cases u with
  | createAction a =>
      obtain ⟨err, h⟩ | ⟨-, h⟩ := createAction_cases db a e.toReading
      · exact .inl (by simp only [exec, h])
      · simp only [exec, h, sessionIds, List.filter_append, List.map_append]
        by_cases hs : a.sessionId = some session
        · exact .inr ⟨a, rfl, hs, by simp [hs]⟩
        · exact .inl (by simp [hs])
  | insertSnapshot name stateHash actionCount lastActionId state =>
      obtain ⟨snapshots, h⟩ :=
        insertSnapshot_eq db name stateHash actionCount lastActionId state e.toReading
      exact .inl (by simp only [exec, h, sessionIds])
  | _ => exact .inl rfl

theorem subset_sessionIds_exec (sha256 : Text → Text) {α : Type} (u : Use α) (e : Env)
    (db : Database) (session : Text) :
    sessionIds db session ⊆ sessionIds (exec sha256 α u e db).2 session := by
  obtain h | ⟨a, -, -, h⟩ := exec_sessionIds sha256 u e db session
  · exact h ▸ List.Subset.refl _
  · exact h ▸ List.subset_append_left _ _

/-- The last action of a session is the greatest of its ids. -/
theorem getLastActionId_eq_some {db : Database} {session : Text} {id : ActionId} :
    getLastActionId db (some session) = some id ↔
      id ∈ sessionIds db session ∧ ∀ other ∈ sessionIds db session, other ≤ id :=
  List.max?_eq_some_iff

/-- What a turn does to the stage of its request. -/
theorem stage_exec (sha256 : Text → Text) {t : Stage} {α : Type} {u : Use α}
    (hu : t.Follows α u) (e : Env) (db : Database) :
    (t.next α u (exec sha256 α u e db).1 = t ∧
      ∀ p, t = some (p, .pending) → u.created = none) ∨
    (∃ p, t = some (p, .unchecked) ∧ u.lastOf = some (some p.1) ∧
      t.next α u (exec sha256 α u e db).1 =
        some (p, Stage.afterCheck p (getLastActionId db (some p.1)))) ∨
    ∃ p a, t = some (p, .pending) ∧ u.created = some a ∧
      (t.next α u (exec sha256 α u e db).1 = some (p, .failed) ∨
        t.next α u (exec sha256 α u e db).1 = some (p, .created) ∧
          uuid7 e.toReading ∈ sessionIds (exec sha256 α u e db).2 p.1) := by
  obtain _ | ⟨p, phase⟩ := t
  · cases u <;> exact .inl ⟨rfl, fun _ h => nomatch h⟩
  · cases phase with
    | unchecked =>
        cases u with
        | getLastActionId session =>
            obtain rfl : session = some p.1 := Option.some.inj hu
            exact .inr (.inl ⟨p, rfl, rfl, rfl⟩)
        | _ => cases hu
    | pending =>
        cases u with
        | createAction a =>
            refine .inr (.inr ⟨p, a, rfl, rfl, ?_⟩)
            have hsession : a.sessionId = some p.1 := hu a rfl
            obtain ⟨err, h⟩ | ⟨-, h⟩ := createAction_cases db a e.toReading
            · exact .inl (by simp only [exec, h, Stage.next])
            · refine .inr ⟨by simp only [exec, h, Stage.next], ?_⟩
              simp [exec, h, sessionIds, hsession]
        | _ => exact .inl ⟨rfl, fun _ _ => rfl⟩
    | _ => cases u <;> exact .inl ⟨rfl, fun _ h => nomatch h⟩

/-! ### What the handlers do -/

/-- How a request with an expectation ends: past the check, or with a 409. -/
def Ends (r : Request) (t : Stage) (answer : Except DaemonError Response) : Prop :=
  ∀ p, r.expectation = some p →
    (t.Passed p ∧ ¬ IsConflict answer) ∨ (t = some (p, .rejected) ∧ IsConflict answer)

/-- A program that goes on from the check of an expectation. -/
theorem obeys_unlessConflict {p : Expectation} {serve : Daemon Response}
    {Q : Stage → Except DaemonError Response → Prop}
    (hserve : Obeys Stage.Follows Stage.next (some (p, .pending)) serve Q)
    (hconflict : ∀ actual, Q (some (p, .rejected)) (.ok (.conflict (some p.2) actual))) :
    Obeys Stage.Follows Stage.next (some (p, .unchecked))
      (unlessConflict (some p.1) (some p.2) serve) Q := by
  refine ⟨rfl, fun actual => ?_⟩
  by_cases h : actual = some p.2
  · simpa [Stage.next, Stage.afterCheck, h] using hserve
  · simpa [Stage.next, Stage.afterCheck, h] using hconflict actual

/-- A creation in the session past the check. -/
theorem obeys_newAction {p : Expectation} {a : NewAction} (ha : a.sessionId = some p.1)
    {Q : Stage → Except DaemonError ActionId → Prop}
    (hcreated : ∀ id, Q (some (p, .created)) (.ok id))
    (hfailed : ∀ e, Q (some (p, .failed)) (.error e)) :
    Obeys Stage.Follows Stage.next (some (p, .pending)) (newAction a) Q := by
  refine ⟨fun a' ha' => Option.some.inj ha' ▸ ha, fun r => ?_⟩
  cases r with
  | ok id => exact hcreated id
  | error e => exact hfailed _

theorem obeys_resolveCausedBy {p : Expectation} {causedBy : Option ActionId}
    {session : Option Text} {Q : Stage → Except DaemonError (Option ActionId) → Prop}
    (hQ : ∀ r, Q (some (p, .pending)) (.ok r)) :
    Obeys Stage.Follows Stage.next (some (p, .pending)) (resolveCausedBy causedBy session)
      Q := by
  cases causedBy with
  | none => exact ⟨fun a ha => (nomatch ha), fun r => hQ r⟩
  | some c => exact hQ _

/-- Access to a namespace past the check: what is created on a denial is the first action of
the request. -/
theorem obeys_withAccess {p : Expectation} {ns : Option Text} {op : Text}
    {denied : Text → Response} {access : Daemon Response}
    {Q : Stage → Except DaemonError Response → Prop}
    (haccess : Obeys Stage.Follows Stage.next (some (p, .pending)) access Q)
    (hdenied : ∀ scope, Q (some (p, .created)) (.ok (denied scope)))
    (hfailed : ∀ e, Q (some (p, .failed)) (.error e)) :
    Obeys Stage.Follows Stage.next (some (p, .pending))
      (withAccess (some p.1) ns op denied access) Q := by
  unfold withAccess
  split
  · rename_i session ns' hsession hns
    have hs : session = p.1 := by
      obtain ⟨_ | ⟨c, cs⟩, expected⟩ := p
      · cases hsession
      · exact (Option.some.inj hsession).symm
    refine ⟨fun a ha => (nomatch ha), fun r => ?_⟩
    obtain ⟨allowed, c⟩ := r
    cases allowed with
    | true => exact haccess
    | false =>
        refine obeys_bind.mpr (obeys_bind.mpr ⟨fun a ha => (nomatch ha), fun causedBy => ?_⟩)
        exact obeys_newAction (by rw [hs]) (fun _ => hdenied _) hfailed
  · exact haccess

/-- Past its creation a request only calls tools. -/
theorem obeys_toolLoop {p : Expectation} (actionId : ActionId) (session : Option Text)
    (n : ℕ) {Q : Stage → Except DaemonError (Bool × List ToolCallMade) → Prop}
    (hQ : ∀ r, Q (some (p, .created)) r) :
    Obeys Stage.Follows Stage.next (some (p, .created)) (runToolLoop actionId session n [])
      Q := by
  have huses : Uses (fun _ u => ∀ a ∈ Use.created u, ¬ a.type.OfRequest)
      (runToolLoop actionId session n []) := by
    refine always_runToolLoop (fun _ α u hu a ha => ?_) (fun name => ?_) actionId session n []
    · cases u <;> cases ha
      rintro htype
      obtain h | ⟨⟨tool, h⟩, -⟩ := hu <;> rw [h] at htype <;> exact htype
    · refine Always.call_bind (fun _ _ h => nomatch h) fun state => ?_
      refine Always.call_bind (fun _ _ h => nomatch h) fun stateHash => ?_
      refine Always.call_bind (fun _ _ h => nomatch h) fun actionCount => ?_
      refine Always.call_bind (fun _ _ h => nomatch h) fun lastActionId => ?_
      refine Always.call_bind (fun _ _ h => nomatch h) fun r => ?_
      cases r
      · exact always_raise _
      · exact always_done _
  refine huses.obeys (fun α u hu => hu) (fun α u b _ => ?_) hQ
  cases u <;> rfl

theorem obeys_handle (n : ℕ) (r : Request) :
    Obeys Stage.Follows Stage.next (Stage.start r) (handle n r) (Ends r) := by
  cases hr : r.expectation with
  | none =>
      rw [Stage.start, hr]
      refine obeys_of_stays (fun _ _ => trivial) (fun α u b => ?_) fun _ p hp => ?_
      · cases u <;> rfl
      · rw [hr] at hp
        cases hp
  | some p =>
      rw [Stage.start, hr]
      have hend : ∀ t answer, Stage.Passed t p → ¬ IsConflict answer → Ends r t answer := by
        intro t answer ht hanswer q hq
        obtain rfl : p = q := Option.some.inj (hr.symm.trans hq)
        exact .inl ⟨ht, hanswer⟩
      have hconflict : ∀ actual,
          Ends r (some (p, .rejected)) (.ok (.conflict (some p.2) actual)) := by
        intro actual q hq
        obtain rfl : p = q := Option.some.inj (hr.symm.trans hq)
        exact .inr ⟨rfl, trivial⟩
      have hcreated : ∀ answer, ¬ IsConflict answer → Ends r (some (p, .created)) answer :=
        fun answer => hend _ answer (.inr (.inr rfl))
      have hfailed : ∀ e, Ends r (some (p, .failed)) (.error e) :=
        fun e => hend _ _ (.inr (.inl rfl)) id
      cases r with
      | think causedBy session expected =>
          obtain _ | session := session
          · cases hr
          obtain _ | expected := expected
          · cases hr
          obtain rfl := Option.some.inj hr
          refine obeys_unlessConflict (obeys_bind.mpr (obeys_bind.mpr ?_)) hconflict
          refine obeys_resolveCausedBy fun resolved => obeys_bind.mpr ?_
          refine obeys_newAction rfl (fun actionId => obeys_bind.mpr ?_) hfailed
          refine obeys_toolLoop _ _ _ fun result => ?_
          cases result with
          | ok made => exact hcreated _ id
          | error e => exact hcreated _ id
      | memoryWrite key value ns causedBy session expected =>
          obtain _ | session := session
          · cases hr
          obtain _ | expected := expected
          · cases hr
          obtain rfl := Option.some.inj hr
          refine obeys_unlessConflict (obeys_withAccess ?_ (fun _ => hcreated _ id) hfailed)
            hconflict
          refine obeys_bind.mpr (obeys_bind.mpr ?_)
          refine obeys_resolveCausedBy fun resolved => obeys_bind.mpr ?_
          refine obeys_newAction rfl (fun actionId => ?_) hfailed
          exact ⟨fun _ h => (nomatch h), fun _ => hcreated _ id⟩
      | _ => cases hr

/-! ### What every run keeps -/

/-- The stage agrees with the request and with the session: while the request is pending the
expected action is the last one, and once its action is created there is a later one. -/
structure Supported (db : Database) (t : SessionThread) : Prop where
  about : t.mark.map Prod.fst = t.request.expectation
  pending : ∀ p, t.mark = some (p, .pending) → getLastActionId db (some p.1) = some p.2
  created : ∀ p, t.mark = some (p, .created) → ∃ id ∈ sessionIds db p.1, p.2 < id

/-- What the runs keep: the stages are supported, no two requests have passed the check of
one expectation, and every handler follows its stages. -/
structure Exclusive (s : SessionPool) : Prop where
  supported : ∀ t ∈ s.threads, Supported s.store t
  alone : ∀ (i j : ℕ) (ti tj : SessionThread) (p : Expectation), s.threads[i]? = some ti →
    s.threads[j]? = some tj → ti.mark.Passed p → tj.mark.Passed p → i = j
  obey : ∀ t ∈ s.threads,
    Obeys Stage.Follows Stage.next t.mark t.program (Ends t.request)

theorem supported_start (db : Database) (r : Request) (program : Daemon Response) :
    Supported db ⟨r, Stage.start r, program⟩ := by
  unfold Stage.start
  refine ⟨?_, fun p hp => ?_, fun p hp => ?_⟩
  · cases r.expectation <;> rfl
  · cases hr : r.expectation <;> simp [hr] at hp
  · cases hr : r.expectation <;> simp [hr] at hp

/-- A thread that takes no turn stays supported. -/
theorem Supported.exec_other {sha256 : Text → Text} {db : Database} {t : SessionThread}
    (ht : Supported db t) {α : Type} (u : Use α) (e : Env)
    (hother : ∀ a ∈ u.created, ∀ p, t.mark = some (p, .pending) →
      a.sessionId ≠ some p.1) : Supported (exec sha256 α u e db).2 t := by
  refine ⟨ht.about, fun p hp => ?_, fun p hp => ?_⟩
  · have hlast := ht.pending p hp
    obtain h | ⟨a, ha, hsession, -⟩ := exec_sessionIds sha256 u e db p.1
    · rw [getLastActionId, h, ← getLastActionId, hlast]
    · exact absurd hsession (hother a ha p hp)
  · obtain ⟨id, hid, hlt⟩ := ht.created p hp
    exact ⟨id, subset_sessionIds_exec sha256 u e db p.1 hid, hlt⟩

/-- The thread that takes its turn stays supported, when the new id is above those of its
session. -/
theorem Supported.exec_self {sha256 : Text → Text} {db : Database} {r : Request} {t : Stage}
    {program program' : Daemon Response} (ht : Supported db ⟨r, t, program⟩) {α : Type}
    {u : Use α} (e : Env) (hu : t.Follows α u)
    (horder : ∀ a ∈ u.created, ∀ session ∈ a.sessionId, ∀ id ∈ sessionIds db session,
      id < uuid7 e.toReading) :
    Supported (exec sha256 α u e db).2
      ⟨r, t.next α u (exec sha256 α u e db).1, program'⟩ := by
  obtain ⟨hstay, hnone⟩ | ⟨p, rfl, hlast, hnext⟩ | ⟨p, a, rfl, ha, hnext⟩ :=
    stage_exec sha256 hu e db
  · rw [hstay]
    have hother : Supported (exec sha256 α u e db).2 ⟨r, t, program⟩ :=
      ht.exec_other u e fun a ha p hp => by
        rw [hnone p hp] at ha
        cases ha
    exact ⟨hother.about, hother.pending, hother.created⟩
  · have hdb : (exec sha256 α u e db).2 = db := by
      cases u <;> first | rfl | cases hlast
    rw [hnext, hdb]
    refine ⟨ht.about, fun q hq => ?_, fun q hq => ?_⟩
    · simp only [Option.some.injEq, Prod.mk.injEq, Stage.afterCheck] at hq
      obtain ⟨rfl, hq⟩ := hq
      split_ifs at hq with h
      exact h
    · simp only [Option.some.injEq, Prod.mk.injEq, Stage.afterCheck] at hq
      obtain ⟨rfl, hq⟩ := hq
      split_ifs at hq
  · obtain hfailed | ⟨hcreated, hmem⟩ := hnext
    · rw [hfailed]
      exact ⟨ht.about, fun q hq => (by cases hq), fun q hq => (by cases hq)⟩
    · rw [hcreated]
      refine ⟨ht.about, fun q hq => (by cases hq), fun q hq => ?_⟩
      obtain rfl : p = q := congrArg Prod.fst (Option.some.inj hq)
      have hexpected := (getLastActionId_eq_some.mp (ht.pending p rfl)).1
      exact ⟨_, hmem, horder a ha p.1 (hu a ha) _ hexpected⟩

/-- Whoever passes a check is the only one to have passed it. -/
theorem passed_exec {sha256 : Text → Text} {s : SessionPool} (hs : Exclusive s) {i : ℕ}
    {r : Request} {t : Stage} {program : Daemon Response}
    (hi : s.threads[i]? = some ⟨r, t, program⟩) {α : Type} {u : Use α} (e : Env)
    (hu : t.Follows α u) (hcheck : u.lastOf.isSome = true → ChecksAlone s ⟨r, t, program⟩)
    {p : Expectation} (hp : (t.next α u (exec sha256 α u e s.store).1).Passed p) :
    t.Passed p ∨ ∀ t' ∈ s.threads, ¬ t'.mark.Passed p := by
  obtain ⟨hstay, -⟩ | ⟨q, rfl, hlast, hnext⟩ | ⟨q, a, rfl, -, hnext⟩ :=
    stage_exec sha256 hu e s.store
  · exact .inl (hstay ▸ hp)
  · right
    rw [hnext] at hp
    have hq : q = p ∧ getLastActionId s.store (some q.1) = some q.2 := by
      simp only [Stage.Passed, Stage.afterCheck, Option.some.injEq, Prod.mk.injEq] at hp
      split_ifs at hp with h
      · simpa [h] using hp
      · simp at hp
    obtain ⟨rfl, hactual⟩ := hq
    intro t' ht' hpassed
    have halone := hcheck (by rw [hlast]; rfl) _ rfl rfl t' ht'
    rcases hpassed with hpending | hfailed | hcreated
    · exact halone.1 hpending
    · exact halone.2 hfailed
    · obtain ⟨id, hid, hlt⟩ := (hs.supported t' ht').created q hcreated
      exact absurd ((getLastActionId_eq_some.mp hactual).2 id hid) (not_le.mpr hlt)
  · left
    have hq : q = p := by
      rcases hnext with hnext | ⟨hnext, -⟩ <;> rw [hnext] at hp <;>
        simpa [Stage.Passed] using hp
    exact .inl (by rw [hq])

theorem exclusive_step {sha256 : Text → Text} {n : ℕ} (s : SessionPool)
    (input : Input Env Request) (s' : SessionPool) (hs : Exclusive s)
    (hcond : System.Permits OrderlyTurn s input)
    (hstep : (sessionDaemon sha256 n).step s input = some s') : Exclusive s' := by
  have hobey := System.allObey_step (S := sessionDaemon sha256 n) (Q := Ends)
    (obeys_handle n) s input s' hs.obey hstep
  obtain ⟨r, rfl, rfl⟩ | ⟨i, e, r, t, γ, u, k, rfl, hi, rfl⟩ := System.step_cases hstep
  · have hnew : ∀ p, ¬ (Stage.start r).Passed p := by
      intro p hp
      unfold Stage.start at hp
      cases hr : r.expectation <;> simp [Stage.Passed, hr] at hp
    have hold : ∀ (j : ℕ) (t : SessionThread) p,
        (s.threads ++ [⟨r, Stage.start r, handle n r⟩])[j]? = some t → t.mark.Passed p →
        s.threads[j]? = some t := by
      intro j t p hj hp
      rw [List.getElem?_append] at hj
      split_ifs at hj with hlt
      · exact hj
      · obtain rfl := List.mem_singleton.mp (List.mem_of_getElem? hj)
        exact absurd hp (hnew p)
    refine ⟨fun t ht => ?_, fun i j ti tj p hi hj hpi hpj => ?_, hobey⟩
    · rcases List.mem_append.mp ht with ht | ht
      · exact hs.supported t ht
      · obtain rfl := List.mem_singleton.mp ht
        exact supported_start s.store r _
    · exact hs.alone i j ti tj p (hold i ti p hi hpi) (hold j tj p hj hpj) hpi hpj
  · have hmem := List.mem_of_getElem? hi
    have hu : t.Follows γ u := (hs.obey _ hmem).1
    obtain ⟨hcheck, horder⟩ := (System.permits_turn hi).mp hcond
    -- The thread that has taken its turn shares no passed check with another one.
    have hself : ∀ (j : ℕ) (tj : SessionThread) (p : Expectation), i ≠ j →
        s.threads[j]? = some tj → tj.mark.Passed p →
        ¬ (t.next γ u (exec sha256 γ u e s.store).1).Passed p := by
      intro j tj p hne hj hpj hp
      rcases passed_exec hs hi e hu hcheck hp with hpi | hnobody
      · exact hne (hs.alone i j _ tj p hi hj hpi hpj)
      · exact hnobody tj (List.mem_of_getElem? hj) hpj
    refine ⟨fun t' ht' => ?_, fun a b ta tb p ha hb hpa hpb => ?_, hobey⟩
    · obtain ⟨j, hj⟩ := List.getElem?_of_mem ht'
      rw [List.getElem?_set] at hj
      split_ifs at hj with hij hlen
      · obtain rfl := Option.some.inj hj
        exact (hs.supported _ hmem).exec_self e hu
          fun a ha session hsession => (horder a ha session hsession).1
      · have hj' : t' ∈ s.threads.eraseIdx i :=
          List.mem_eraseIdx_iff_getElem?.mpr ⟨j, Ne.symm hij, hj⟩
        refine (hs.supported t' (List.mem_of_getElem? hj)).exec_other u e ?_
        intro a ha p hp hsession
        exact (horder a ha p.1 hsession).2 t' hj' _ hp rfl rfl
    · rw [List.getElem?_set] at ha hb
      split_ifs at ha hb with hia _ hib _ hib
      · exact hia ▸ hib
      · obtain rfl := Option.some.inj ha
        exact absurd hpa (hself b tb p hib hb hpb)
      · obtain rfl := Option.some.inj hb
        exact absurd hpb (hself a ta p hia ha hpa)
      · exact hs.alone a b ta tb p ha hb hpa hpb

/-! ### Every run -/

/-- The request expects `p` and was answered otherwise than with a 409. -/
def Accepted (t : SessionThread) (p : Expectation) : Prop :=
  t.request.expectation = some p ∧
    ∃ answer, t.program.answer = some answer ∧ ¬ IsConflict answer

theorem Exclusive.passed {s : SessionPool} (hs : Exclusive s) {t : SessionThread}
    (ht : t ∈ s.threads) {p : Expectation} (hp : Accepted t p) : t.mark.Passed p := by
  obtain ⟨hexp, answer, hanswer, hok⟩ := hp
  rcases (hs.obey t ht).of_answer hanswer p hexp with h | h
  · exact h.1
  · exact absurd h.2 hok

/-- A request about to create its own action finds the expected one the last. -/
theorem Exclusive.expected_last {s : SessionPool} (hs : Exclusive s) {t : SessionThread}
    (ht : t ∈ s.threads) {p : Expectation} (hp : t.request.expectation = some p)
    {a : NewAction} {k : Except IntegrityError ActionId → Daemon Response}
    (huse : t.program = .use (.createAction a) k) (hown : a.type.OfRequest) :
    getLastActionId s.store (some p.1) = some p.2 := by
  have hsupported := hs.supported t ht
  have hfollows : t.mark.Follows _ (.createAction a) := by
    have hobey := hs.obey t ht
    rw [huse] at hobey
    exact hobey.1
  have habout := hsupported.about.trans hp
  cases hmark : t.mark with
  | none =>
      rw [hmark] at habout
      cases habout
  | some m =>
      obtain ⟨q, phase⟩ := m
      rw [hmark] at habout hfollows
      obtain rfl : q = p := Option.some.inj habout
      cases phase with
      | pending => exact hsupported.pending q hmark
      | created => exact absurd hown (hfollows a rfl)
      | unchecked => cases hfollows
      | rejected => cases hfollows
      | failed => cases hfollows

/-- **Optimistic concurrency control.** In every interleaving of requests in which no check
and no creation of a session falls between the check and the creation of a request with an
expectation, and the ids of a session grow: of the requests with one expectation at most one
is answered otherwise than with a 409, and each creates its own action while the expected one
is the last of the session. -/
theorem session_exclusive {sha256 : Text → Text} {n : ℕ} {db : Database}
    {is : List (Input Env Request)} {s : SessionPool}
    (horderly : Machine.Along (sessionDaemon sha256 n).step (System.Permits OrderlyTurn)
      ⟨db, []⟩ is)
    (hrun : Machine.run (sessionDaemon sha256 n).step ⟨db, []⟩ is = some s) :
    (∀ (i j : ℕ) (ti tj : SessionThread) (p : Expectation), s.threads[i]? = some ti →
      s.threads[j]? = some tj → Accepted ti p → Accepted tj p → i = j) ∧
    ∀ (before after : List (Input Env Request)) (m : SessionPool) (i : ℕ) (e : Env)
      (t : SessionThread) (p : Expectation) (a : NewAction)
      (k : Except IntegrityError ActionId → Daemon Response),
      is = before ++ .turn i e :: after →
      Machine.run (sessionDaemon sha256 n).step ⟨db, []⟩ before = some m →
      m.threads[i]? = some t → t.request.expectation = some p →
      t.program = .use (.createAction a) k → a.type.OfRequest →
      getLastActionId m.store (some p.1) = some p.2 := by
  have hstart : Exclusive ⟨db, []⟩ :=
    ⟨fun t ht => absurd ht List.not_mem_nil, fun i j ti tj p hi => (nomatch hi),
      fun t ht => absurd ht List.not_mem_nil⟩
  constructor
  · intro i j ti tj p hi hj hpi hpj
    have hs : Exclusive s :=
      Machine.run_invariant_along exclusive_step hstart horderly hrun
    exact hs.alone i j ti tj p hi hj (hs.passed (List.mem_of_getElem? hi) hpi)
      (hs.passed (List.mem_of_getElem? hj) hpj)
  · rintro before after m i e t p a k rfl hm hi hp huse hown
    have hs : Exclusive m :=
      Machine.run_invariant_along exclusive_step hstart horderly.left hm
    exact hs.expected_last (List.mem_of_getElem? hi) hp huse hown

instance : DecidablePred IsConflict
  | .ok (.conflict _ _) => .isTrue trivial
  | .ok (.denied _ _) => .isFalse id
  | .ok .notFound => .isFalse id
  | .ok .badRequest => .isFalse id
  | .ok (.thought _) => .isFalse id
  | .ok (.keys _) => .isFalse id
  | .ok (.history _) => .isFalse id
  | .ok (.row _) => .isFalse id
  | .ok (.written _ _ _) => .isFalse id
  | .ok (.granted _) => .isFalse id
  | .ok (.revoked _) => .isFalse id
  | .ok (.snapshot _) => .isFalse id
  | .ok (.rolledBack _) => .isFalse id
  | .ok (.spawned _) => .isFalse id
  | .error _ => .isFalse id

/-- A write in the session `s` that expects the given action to be the last. -/
def sessionWrite (expected : Option ActionId) : Request :=
  .memoryWrite ['k'] ['v'] none none (some ['s']) expected

/-- What the two writes expect: the action of a write before them. -/
def firstAction : ActionId := uuid7 (readingAt 2).toReading

/-- The write before them, then two requests that expect its action. -/
def twoWriters : List (Input Env Request) :=
  .arrive (sessionWrite none) ::
    [.turn 0 (readingAt 1), .turn 0 (readingAt 2), .turn 0 (readingAt 3)] ++
  [.arrive (sessionWrite (some firstAction)), .arrive (sessionWrite (some firstAction))]

/-- One after the other: the second request is answered 409. -/
def oneAfterTheOther : List (Input Env Request) :=
  twoWriters ++
    [.turn 1 (readingAt 4), .turn 1 (readingAt 5), .turn 1 (readingAt 6),
     .turn 1 (readingAt 7), .turn 2 (readingAt 8)]

theorem session_exclusive_oneAfterTheOther :
    ∃ s, Machine.run (sessionDaemon id 10).step ⟨Database.empty, []⟩ oneAfterTheOther =
        some s ∧
      ∀ (i j : ℕ) (ti tj : SessionThread) (p : Expectation), s.threads[i]? = some ti →
        s.threads[j]? = some tj → Accepted ti p → Accepted tj p → i = j := by
  have hrun : (Machine.run (sessionDaemon id 10).step ⟨Database.empty, []⟩
      oneAfterTheOther).isSome = true := by decide +kernel
  obtain ⟨s, hs⟩ := Option.isSome_iff_exists.mp hrun
  exact ⟨s, hs, (session_exclusive (by decide +kernel) hs).1⟩

/-- Both requests are checked before either creates its action. -/
def bothChecked : List (Input Env Request) :=
  twoWriters ++
    [.turn 1 (readingAt 4), .turn 2 (readingAt 5), .turn 1 (readingAt 6),
     .turn 1 (readingAt 7), .turn 1 (readingAt 8), .turn 2 (readingAt 9),
     .turn 2 (readingAt 10), .turn 2 (readingAt 11)]

/-- Two requests with one expectation are both accepted: the first write is lost to the
second, which has not seen it. -/
theorem session_lost_update :
    ∃ (s : SessionPool) (t₁ t₂ : SessionThread),
      Machine.run (sessionDaemon id 10).step ⟨Database.empty, []⟩ bothChecked = some s ∧
      s.threads[1]? = some t₁ ∧ s.threads[2]? = some t₂ ∧
      Accepted t₁ (['s'], firstAction) ∧ Accepted t₂ (['s'], firstAction) := by
  have hrun : (Machine.run (sessionDaemon id 10).step ⟨Database.empty, []⟩ bothChecked).map
      (fun s => s.threads.map fun t => (t.request.expectation,
        t.program.answer.any fun answer => decide (¬ IsConflict answer))) =
        some [(none, true), (some (['s'], firstAction), true),
          (some (['s'], firstAction), true)] := by decide +kernel
  obtain ⟨s, hs, hthreads⟩ := Option.map_eq_some_iff.mp hrun
  have haccepted : ∀ i : ℕ, i = 1 ∨ i = 2 →
      ∃ t, s.threads[i]? = some t ∧ Accepted t (['s'], firstAction) := by
    intro i hi
    have hget : (s.threads.map fun t => (t.request.expectation,
        t.program.answer.any fun answer => decide (¬ IsConflict answer)))[i]? =
          some (some (['s'], firstAction), true) := by
      rw [hthreads]
      rcases hi with rfl | rfl <;> rfl
    rw [List.getElem?_map] at hget
    obtain ⟨t, ht, heq⟩ := Option.map_eq_some_iff.mp hget
    simp only [Prod.mk.injEq, Option.any_eq_true, decide_eq_true_eq] at heq
    exact ⟨t, ht, heq⟩
  obtain ⟨t₁, ht₁, h₁⟩ := haccepted 1 (.inl rfl)
  obtain ⟨t₂, ht₂, h₂⟩ := haccepted 2 (.inr rfl)
  exact ⟨s, t₁, t₂, hs, ht₁, ht₂, h₁, h₂⟩

end Torpor.Lab
