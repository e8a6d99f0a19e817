import Torpor.Lab.Daemon

/-!
# What the Daemon's Actions Cite

Every handler takes the causes of the actions that it creates from three places: the ids that
the client names in its request, the last action that it has just read, and the actions that it
has created itself. The monitor `Origin` follows a request on its way and says which.

## Main results

* `obeyed_handle`: every handler obeys the rule `Origin.Cites`.
-/

namespace Torpor.Lab

open Atomic Atomic.Program

/-- The ids that a new action gives as its causes, in either column. -/
def NewAction.cites (a : NewAction) : List ActionId := a.causedBy.toList ++ a.listColumn.getD []

/-- The ids in the columns `caused_by` and `caused_by_list`. -/
def Action.cites (a : Action) : List ActionId := a.causedBy.toList ++ a.causedByList.getD []

/-- The ids that a client names as causes. -/
def Request.named : Request → List ActionId
  | .think causedBy _ _ => causedBy.toList
  | .memoryWrite _ _ _ causedBy _ _ => causedBy.toList
  | .spawn parentActionId => [parentActionId]
  | .merge parentActionIds _ => parentActionIds
  | _ => []

/-- Where a request may take causes from: what its client names, the session whose last action it
has read, with that action, and the actions that it has created. -/
structure Origin where
  named : List ActionId
  read : Option (Option Text × Option ActionId)
  own : List ActionId

namespace Origin

def start (r : Request) : Origin := ⟨r.named, none, []⟩

/-- Whether the request creates this action in a session without an explicit cause. -/
def implicit (o : Origin) (a : NewAction) : Bool :=
  a.sessionId.isSome && (a.type = .capabilityDenied || o.named.isEmpty)

def next (o : Origin) (α : Type) (u : Use α) : α → Origin :=
  match u with
  | .getLastActionId session => fun last => { o with read := some (session, last) }
  | .createAction _ => fun r =>
      match r with
      | .ok actionId => { o with read := none, own := o.own ++ [actionId] }
      | .error _ => o
  | _ => fun _ => o

/-- The rule of a creation. Every cause is one that the request may take, and an action without an
explicit one cites the last action of its session. -/
def Cites (o : Origin) (α : Type) (u : Use α) : Prop :=
  match u with
  | .createAction a =>
      (∀ c ∈ a.cites, c ∈ o.named ∨ (∃ session, o.read = some (session, some c)) ∨ c ∈ o.own) ∧
        (o.implicit a = true → o.read = some (a.sessionId, a.causedBy))
  | _ => True

end Origin

/-- Whether a use creates an action. -/
def Use.creates {α : Type} : Use α → Bool
  | .createAction _ => true
  | _ => false

/-- What a program leaves of the origins. -/
structure Origin.Grows (o o' : Origin) : Prop where
  named : o'.named = o.named
  own : o.own ⊆ o'.own

theorem Origin.Grows.refl (o : Origin) : o.Grows o := ⟨rfl, List.Subset.refl _⟩

theorem Origin.Grows.trans {o o' o'' : Origin} (h : o.Grows o') (h' : o'.Grows o'') :
    o.Grows o'' :=
  ⟨h'.named.trans h.named, List.Subset.trans h.own h'.own⟩

theorem Origin.grows_next (o : Origin) {α : Type} (u : Use α) (b : α) : o.Grows (o.next α u b) := by
  cases u with
  | createAction a =>
      cases b with
      | ok actionId => exact ⟨rfl, List.subset_append_left _ _⟩
      | error e => exact .refl o
  | _ => exact ⟨rfl, List.Subset.refl _⟩

/-- From every origin the program obeys, and takes none away. -/
def Tidy {α : Type} (p : Daemon α) : Prop :=
  ∀ o, Obeys Origin.Cites Origin.next o p fun o' _ => o.Grows o'

/-- From this origin the program obeys. -/
def Origin.Obeyed {α : Type} (o : Origin) (p : Daemon α) : Prop :=
  Obeys Origin.Cites Origin.next o p fun _ _ => True

section Tidy

variable {α β : Type} {o : Origin}

theorem tidy_done (a : α) : Tidy (done a) := fun o => .refl o

theorem tidy_raise (e : DaemonError) : Tidy (raise e : Daemon α) := fun o => .refl o

theorem cites_of_not_creates {u : Use α} (hu : u.creates = false) : o.Cites α u := by
  cases u with
  | createAction a => cases hu
  | _ => trivial

theorem Tidy.use {u : Use α} {k : α → Daemon β} (hu : u.creates = false)
    (hk : ∀ a, Tidy (k a)) : Tidy (use u k) := by
  refine fun o => ⟨cites_of_not_creates hu, fun a => (hk a _).imp fun o' _ hgrows => ?_⟩
  exact (o.grows_next u a).trans hgrows

/-- A use first, then the rest. -/
theorem Tidy.call_bind {u : Use α} {f : α → Daemon β} (hu : u.creates = false)
    (hf : ∀ a, Tidy (f a)) : Tidy (call u >>= f) :=
  Tidy.use hu hf

theorem Tidy.bind {p : Daemon α} {f : α → Daemon β} (hp : Tidy p) (hf : ∀ a, Tidy (f a)) :
    Tidy (p >>= f) := by
  refine fun o => obeys_bind.mpr ((hp o).imp fun o' r hgrows => ?_)
  cases r with
  | ok a => exact (hf a o').imp fun o'' _ hgrows' => hgrows.trans hgrows'
  | error e => exact hgrows

theorem Tidy.tryCatch {p : Daemon α} {f : DaemonError → Daemon α} (hp : Tidy p)
    (hf : ∀ e, Tidy (f e)) : Tidy (MonadExcept.tryCatch p f) := by
  refine fun o => obeys_tryCatch.mpr ((hp o).imp fun o' r hgrows => ?_)
  cases r with
  | ok a => exact hgrows
  | error e => exact (hf e o').imp fun o'' _ hgrows' => hgrows.trans hgrows'

theorem Tidy.obeyed {p : Daemon α} (hp : Tidy p) : o.Obeyed p := (hp o).imp fun _ _ _ => trivial

/-- A tidy part first, then the rest. -/
theorem Tidy.obeyed_bind {p : Daemon α} {f : α → Daemon β} (hp : Tidy p)
    (hf : ∀ a o', o.Grows o' → o'.Obeyed (f a)) : o.Obeyed (p >>= f) := by
  refine obeys_bind.mpr ((hp o).imp fun o' r hgrows => ?_)
  cases r with
  | ok a => exact hf a o' hgrows
  | error e => trivial

/-- A creation first, then the rest. -/
theorem obeyed_newAction_bind {a : NewAction} {f : ActionId → Daemon β}
    (hcites : o.Cites _ (.createAction a))
    (hf : ∀ actionId, Origin.Obeyed ⟨o.named, none, o.own ++ [actionId]⟩ (f actionId)) :
    o.Obeyed (newAction a >>= f) := by
  refine ⟨hcites, fun r => ?_⟩
  cases r with
  | ok actionId => exact hf actionId
  | error e => trivial

/-- The causes of an action without a list. -/
theorem mem_cites {type : ActionType} {causedBy : Option ActionId} {session : Option Text}
    {c : ActionId} : c ∈ (NewAction.mk type causedBy session none).cites ↔ causedBy = some c := by
  cases causedBy <;> simp [NewAction.cites, NewAction.listColumn, eq_comm]

/-- An action that cites the last one of its own session, which has just been read. -/
theorem cites_read {session : Option Text} {last : Option ActionId} (type : ActionType)
    (h : o.read = some (session, last)) : o.Cites _ (.createAction ⟨type, last, session, none⟩) :=
  ⟨fun _ hc => .inr (.inl ⟨session, mem_cites.mp hc ▸ h⟩), fun _ => h⟩

/-- An action of no session that cites the last one of all. -/
theorem cites_read_none {session : Option Text} {last : Option ActionId} (type : ActionType)
    (h : o.read = some (session, last)) : o.Cites _ (.createAction ⟨type, last, none, none⟩) :=
  ⟨fun _ hc => .inr (.inl ⟨session, mem_cites.mp hc ▸ h⟩), fun himplicit => by cases himplicit⟩

/-! ### The parts of the handlers -/

theorem tidy_logDenied (subject : Text) : Tidy (logDenied subject) := by
  refine fun o => ⟨trivial, fun last => ⟨cites_read _ rfl, fun r => ?_⟩⟩
  cases r with
  | ok actionId => exact ⟨rfl, List.subset_append_left _ _⟩
  | error e => exact ⟨rfl, List.Subset.refl _⟩

/-- An access that may be denied, and the record of the denial. -/
theorem obeyed_withAccess {session ns : Option Text} {op : Text} {denied : Text → α}
    {access : Daemon α} (haccess : o.Obeyed access) :
    o.Obeyed (withAccess session ns op denied access) := by
  unfold withAccess
  split
  · refine obeys_bind.mpr ⟨trivial, fun r => ?_⟩
    obtain ⟨allowed, c⟩ := r
    change o.Obeyed (if allowed = true then access else _)
    split
    · exact haccess
    · exact ((tidy_logDenied _).bind fun _ => tidy_done _).obeyed
  · exact haccess

theorem tidy_withAccess {session ns : Option Text} {op : Text} {denied : Text → α}
    {access : Daemon α} (haccess : Tidy access) :
    Tidy (withAccess session ns op denied access) := by
  unfold withAccess
  split
  · refine Tidy.call_bind rfl fun r => ?_
    obtain ⟨allowed, c⟩ := r
    dsimp only
    split
    · exact haccess
    · exact (tidy_logDenied _).bind fun _ => tidy_done _
  · exact haccess

theorem tidy_listReadable (session : Text) : Tidy (listReadable session) := by
  refine Tidy.use rfl fun readable => ?_
  cases readable with
  | none => exact Tidy.use rfl fun _ => tidy_done _
  | some readable => exact Tidy.use rfl fun _ => tidy_done _

theorem tidy_argument (name : Text) (a : Option α) : Tidy (argument name a) := by
  cases a with
  | none => exact tidy_raise _
  | some a => exact tidy_done a

theorem tidy_insertCurrentState (name : Text) : Tidy (insertCurrentState name) := by
  refine Tidy.use rfl fun state => Tidy.use rfl fun stateHash => Tidy.use rfl fun count =>
    Tidy.use rfl fun last => Tidy.use rfl fun r => ?_
  cases r with
  | ok row => exact tidy_done _
  | error e => exact tidy_raise _

theorem tidy_executeTool (c : ToolCall) (toolActionId : ActionId) (session : Option Text) :
    Tidy (executeTool c toolActionId session) := by
  obtain ⟨tool, args⟩ := c
  cases tool with
  | memoryRead =>
      refine (tidy_argument _ _).bind fun key => tidy_withAccess ?_
      exact Tidy.use rfl fun _ => tidy_done _
  | memoryWrite =>
      refine (tidy_argument _ _).bind fun key => tidy_withAccess ?_
      refine (tidy_argument _ _).bind fun value => ?_
      exact Tidy.use rfl fun _ => tidy_done _
  | memoryList =>
      simp only [executeTool]
      split
      · exact (tidy_listReadable _).bind fun _ => tidy_done _
      · exact tidy_withAccess (Tidy.use rfl fun _ => tidy_done _)
  | snapshotCreate =>
      refine (tidy_argument _ _).bind fun name => ?_
      exact (tidy_insertCurrentState name).bind fun _ => tidy_done _
  | capabilityGrant =>
      simp only [executeTool]
      split
      · exact tidy_done _
      · refine (tidy_argument _ _).bind fun toSubject => (tidy_argument _ _).bind fun op =>
          (tidy_argument _ _).bind fun scope => (tidy_argument _ _).bind fun parentCap =>
            Tidy.call_bind rfl fun parentRows => ?_
        split
        · exact tidy_done _
        · refine Tidy.call_bind rfl fun r => ?_
          split
          · exact tidy_done _
          · exact tidy_done _
          · exact tidy_raise _
  | other name => exact tidy_raise _

/-- The calls of the loop cite the action of the loop, which the request has created. -/
theorem obeyed_runToolLoop {actionId : ActionId} (session : Option Text) (n : ℕ)
    (made : List ToolCallMade) (hown : actionId ∈ o.own) :
    o.Obeyed (runToolLoop actionId session n made) := by
  induction n generalizing o made with
  | zero => trivial
  | succ n ih =>
      refine ⟨trivial, fun reply => ?_⟩
      cases reply with
      | none => trivial
      | some c =>
          refine obeyed_newAction_bind ⟨fun x hx => ?_, fun himplicit => by cases himplicit⟩
            fun toolActionId => Tidy.obeyed_bind ?_ fun result o' hgrows => ?_
          · obtain rfl := Option.some.inj (mem_cites.mp hx)
            exact .inr (.inr hown)
          · refine Tidy.tryCatch ?_ fun _ => tidy_done _
            exact (tidy_executeTool c toolActionId session).bind fun _ => tidy_done _
          · exact ih _ (hgrows.own (List.mem_append_left _ hown))

/-- The cause of a request is the one that its client names, or the last action of the session. -/
theorem obeyed_resolveCausedBy_bind {causedBy : Option ActionId} {session : Option Text}
    {f : Option ActionId → Daemon β} (hnamed : o.named = causedBy.toList)
    (hf : ∀ (resolved : Option ActionId) (o' : Origin),
      (∀ type : ActionType, type ≠ .capabilityDenied →
        o'.Cites _ (.createAction ⟨type, resolved, session, none⟩)) → o'.Obeyed (f resolved)) :
    o.Obeyed (resolveCausedBy causedBy session >>= f) := by
  cases causedBy with
  | none => exact ⟨trivial, fun last => hf last _ fun type _ => cites_read type rfl⟩
  | some c =>
      refine hf (some c) o fun type htype => ⟨fun x hx => ?_, ?_⟩
      · obtain rfl := Option.some.inj (mem_cites.mp hx)
        exact .inl (by simp [hnamed])
      · simp [Origin.implicit, htype, hnamed]

theorem obeyed_unlessConflict {session : Option Text} {expected : Option ActionId}
    {serve : Daemon Response} (hserve : ∀ o', o.Grows o' → o'.Obeyed serve) :
    o.Obeyed (unlessConflict session expected serve) := by
  refine Tidy.obeyed_bind ?_ fun r o' hgrows => ?_
  · unfold checkSessionConflict
    split
    · refine Tidy.call_bind rfl fun actual => ?_
      split <;> exact tidy_done _
    · exact tidy_done _
  · obtain ⟨conflict, actual⟩ := r
    dsimp only
    split
    · trivial
    · exact hserve o' hgrows

theorem tidy_memoryGet (key ns : Option Text) (history : Bool) (session : Option Text) :
    Tidy (memoryGet key ns history session) := by
  cases key with
  | none =>
      simp only [memoryGet]
      split
      · exact (tidy_listReadable _).bind fun _ => tidy_done _
      · exact tidy_withAccess (Tidy.use rfl fun _ => tidy_done _)
  | some key =>
      refine tidy_withAccess ?_
      split
      · exact Tidy.use rfl fun _ => tidy_done _
      · refine Tidy.use rfl fun row => ?_
        cases row <;> exact tidy_done _

theorem tidy_restoreSnapshot (snap : Snapshot) : Tidy (restoreSnapshot snap) := by
  unfold restoreSnapshot
  split
  · exact Tidy.use rfl fun _ => tidy_done _
  · exact Tidy.use rfl fun _ => tidy_done _

end Tidy

/-! ### The handlers -/

theorem obeyed_think {o : Origin} (n : ℕ) {causedBy : Option ActionId} (session : Option Text)
    (hnamed : o.named = causedBy.toList) : o.Obeyed (think n causedBy session) := by
  refine obeyed_resolveCausedBy_bind hnamed fun resolved o' hcites => ?_
  refine obeyed_newAction_bind (hcites .think (by simp)) fun actionId => ?_
  refine obeys_bind.mpr ((obeyed_runToolLoop session n [] ?_).imp fun o'' r _ => ?_)
  · exact List.mem_append_right _ (List.mem_singleton_self _)
  · cases r <;> trivial

theorem obeyed_mergeThink {o : Origin} (n : ℕ) {parentActionIds : List ActionId}
    (session : Option Text) (hnamed : o.named = parentActionIds) (hne : parentActionIds ≠ []) :
    o.Obeyed (mergeThink n parentActionIds session) := by
  refine obeyed_newAction_bind ⟨fun c hc => .inl ?_, ?_⟩ fun actionId => ?_
  · rw [hnamed]
    simp only [NewAction.cites, NewAction.listColumn, List.mem_append, Option.mem_toList] at hc
    obtain hhead | hlist := hc
    · exact List.mem_of_mem_head? hhead
    · split_ifs at hlist
      · cases hlist
      · exact hlist
  · simp [Origin.implicit, hnamed, hne]
  · refine obeys_bind.mpr ((obeyed_runToolLoop session n [] ?_).imp fun o' r _ => ?_)
    · exact List.mem_append_right _ (List.mem_singleton_self _)
    · cases r <;> trivial

theorem obeyed_writeMemory {o : Origin} (key value : Text) {causedBy : Option ActionId}
    (session ns : Option Text) (hnamed : o.named = causedBy.toList) :
    o.Obeyed (writeMemory key value causedBy session ns) := by
  refine obeyed_resolveCausedBy_bind hnamed fun resolved o' hcites => ?_
  refine obeyed_newAction_bind (hcites .memoryWrite (by simp)) fun actionId => ?_
  exact (Tidy.use rfl fun _ => tidy_done _).obeyed

theorem obeyed_rollbackToSnapshot {o : Origin} (snapshotId : SnapshotId) :
    o.Obeyed (rollbackToSnapshot snapshotId) := by
  refine ⟨trivial, fun snap => ?_⟩
  cases snap with
  | none => trivial
  | some snap =>
      refine ⟨trivial, fun last => ?_⟩
      refine obeyed_newAction_bind (cites_read_none _ rfl) fun actionId => ?_
      refine Tidy.obeyed ((tidy_restoreSnapshot snap).bind fun keys => ?_)
      exact Tidy.use rfl fun _ => Tidy.use rfl fun _ => tidy_done _

theorem obeyed_createSnapshot {o : Origin} (name : Text) : o.Obeyed (createSnapshot name) := by
  refine ⟨trivial, fun last => ?_⟩
  exact obeyed_newAction_bind (cites_read_none _ rfl) fun _ =>
    (tidy_insertCurrentState name).obeyed

/-- An obeying part first, then its answer. -/
theorem Origin.Obeyed.bind_done {o : Origin} {α β : Type} {p : Daemon α} (hp : o.Obeyed p)
    (f : α → β) : o.Obeyed (p >>= fun a => done (f a)) := by
  refine obeys_bind.mpr (hp.imp fun o' r _ => ?_)
  cases r <;> trivial

/-- Every handler takes its causes from where it may. -/
theorem obeyed_handle (n : ℕ) (r : Request) : (Origin.start r).Obeyed (handle n r) := by
  cases r with
  | think causedBy session expected =>
      exact obeyed_unlessConflict fun o' hgrows =>
        (obeyed_think n session hgrows.named).bind_done _
  | memoryGet key ns history session => exact (tidy_memoryGet key ns history session).obeyed
  | memoryWrite key value ns causedBy session expected =>
      exact obeyed_unlessConflict fun o' hgrows => obeyed_withAccess
        ((obeyed_writeMemory key value session ns hgrows.named).bind_done _)
  | capGrant subject op scope issuedBy parentCap =>
      refine (Tidy.call_bind rfl fun r => ?_).obeyed
      split
      · exact tidy_done _
      · exact tidy_done _
      · exact tidy_raise _
  | capRevoke capId revokedBy => exact (Tidy.use rfl fun _ => tidy_done _).obeyed
  | snapshot name => exact (obeyed_createSnapshot name).bind_done _
  | rollback snapshotId =>
      refine obeys_bind.mpr ((obeyed_rollbackToSnapshot snapshotId).imp fun o' r _ => ?_)
      rcases r with e | (_ | row) <;> trivial
  | spawn parentActionId =>
      refine obeyed_newAction_bind ⟨fun c hc => .inl ?_, fun himplicit => by cases himplicit⟩
        fun _ => trivial
      obtain rfl := Option.some.inj (mem_cites.mp hc)
      exact List.mem_singleton_self _
  | merge parentActionIds session =>
      simp only [handle]
      split
      case isTrue => trivial
      case isFalse hlength =>
          refine (obeyed_mergeThink n session rfl ?_).bind_done _
          rintro rfl
          exact hlength (by decide)

end Torpor.Lab
