import Torpor.Lab.Causes
import Torpor.Lib.AppendGraph
import Mathlib.Data.List.Sort

/-!
# The Order of the Daemon's Actions

The daemon recovers the order in which actions were created from their ids, by the order of their
texts: the last action of a session is the one with the greatest id, and a client that polls the
log asks for the ids beyond the last one that it has received. An id starts with a reading of the
clock in milliseconds and ends in random bits, so two actions of one millisecond may be created in
one order and listed in the other one. The causes that a client names come to the database as they
are, and of a merge it checks the first one only.

## Main results

* `ordered_iff`: in every state of a run of requests one after another, the last action of a
  session is the one created last, the actions without an explicit cause cite the previous one of
  their session, the client has received every action once and every cause is an earlier action,
  exactly if the ids of a session increase, no id comes to lie behind the client's last one before
  a poll, and the causes that clients name exist.
* `order_lost`: a run with two actions in one millisecond, and one with a merge of an action that
  does not exist.
-/

namespace Torpor.Lab

open Atomic Atomic.Program Machine

/-! ### The log -/

def ToolName.text : ToolName → Text
  | .memoryRead => "memory_read".toList
  | .memoryWrite => "memory_write".toList
  | .memoryList => "memory_list".toList
  | .snapshotCreate => "snapshot_create".toList
  | .capabilityGrant => "capability_grant".toList
  | .other name => name

/-- The column `type`. -/
def ActionType.text : ActionType → Text
  | .think => "think".toList
  | .thinkMerge => "think_merge".toList
  | .toolCall tool => "tool_call_".toList ++ tool.text
  | .spawn => "spawn".toList
  | .rollback => "rollback".toList
  | .memoryRead => "memory_read".toList
  | .memoryWrite => "memory_write".toList
  | .snapshot => "snapshot".toList
  | .capabilityDenied => "capability_denied".toList

/-- Whether a filter, if there is one, lets a type pass. -/
def passes (typeFilter : Option Text) (a : Action) : Bool :=
  (orNone typeFilter).all (a.type.text = ·)

/-- The actions beyond an id that pass the filter, in the order of their ids. -/
def actionsSince (db : Database) (since : Option ActionId) (typeFilter : Option Text) :
    List Action :=
  (db.actions.filter fun a => since.all (· < a.actionId) && passes typeFilter a).insertionSort
    fun a b => a.actionId ≤ b.actionId

/-- A limit that cuts nothing off; SQLite reads a negative one as none. -/
def Sufficient (limit : ℤ) (rows : ℕ) : Prop := limit < 0 ∨ rows ≤ limit

instance (limit : ℤ) (rows : ℕ) : Decidable (Sufficient limit rows) :=
  inferInstanceAs (Decidable (_ ∨ _))

/-- `list_actions`, without the payloads and results. -/
def listActions (db : Database) (limit : ℤ) (since : Option ActionId)
    (typeFilter : Option Text) : List Action :=
  let rows := actionsSince db since typeFilter
  if limit < 0 then rows else rows.take limit.toNat

theorem listActions_of_sufficient {db : Database} {limit : ℤ} {since : Option ActionId}
    {typeFilter : Option Text}
    (h : Sufficient limit (actionsSince db since typeFilter).length) :
    listActions db limit since typeFilter = actionsSince db since typeFilter := by
  simp only [listActions]
  split_ifs with hneg
  · rfl
  · obtain hneg' | hle := h
    · exact absurd hneg' hneg
    · exact List.take_of_length_le (by omega)

/-- The id of the action of a session that was created last. -/
def lastCreated (actions : List Action) (session : Text) : Option ActionId :=
  ((actions.filter (·.sessionId = some session)).map (·.actionId)).getLast?

/-- Whether an insertion is admitted: the id is new, and the cause exists or is the action
itself. -/
def Admits (db : Database) (a : NewAction) (r : Reading) : Prop :=
  uuid7 r ∉ db.actions.map (·.actionId) ∧
    ∀ c ∈ a.causedBy, c ∈ db.actions.map (·.actionId) ∨ c = uuid7 r

/-- The row of a new action. -/
def NewAction.row (a : NewAction) (r : Reading) : Action :=
  ⟨uuid7 r, r.now, a.type, a.causedBy, a.listColumn, a.sessionId⟩

theorem createAction_of_admits {db : Database} {a : NewAction} {r : Reading}
    (h : Admits db a r) :
    createAction db a r = (.ok (uuid7 r), { db with actions := db.actions ++ [a.row r] }) := by
  simp only [createAction]
  rw [if_neg h.1, if_neg]
  · rfl
  · rintro ⟨c, hc, hmissing, hother⟩
    exact (h.2 c hc).elim hmissing hother

theorem createAction_of_not_admits {db : Database} {a : NewAction} {r : Reading}
    (h : ¬ Admits db a r) : ∃ e, createAction db a r = (.error e, db) := by
  simp only [createAction]
  split_ifs with hunique hforeign
  · exact ⟨_, rfl⟩
  · exact ⟨_, rfl⟩
  · refine absurd ⟨hunique, fun c hc => ?_⟩ h
    by_contra hneither
    obtain ⟨hmissing, hother⟩ := not_or.mp hneither
    exact hforeign ⟨c, hc, hmissing, hother⟩

/-- A use that creates no action leaves the log alone. -/
theorem exec_actions (sha256 : Text → Text) {α : Type} {u : Use α} (hu : u.creates = false)
    (e : Env) (db : Database) : (exec sha256 α u e db).2.actions = db.actions := by
  cases u with
  | createAction a => cases hu
  | insertSnapshot name stateHash actionCount lastActionId state =>
      obtain ⟨snapshots, h⟩ :=
        insertSnapshot_eq db name stateHash actionCount lastActionId state e.toReading
      simp only [exec, h]
  | _ => rfl

theorem mem_of_getLastActionId {db : Database} {session : Option Text} {c : ActionId}
    (h : getLastActionId db session = some c) : c ∈ db.actions.map (·.actionId) := by
  cases session with
  | none => exact List.max?_mem h
  | some session =>
      obtain ⟨a, ha, rfl⟩ := List.mem_map.mp (List.max?_mem h)
      exact List.mem_map_of_mem (List.mem_filter.mp ha).1

theorem getLastActionId_congr {db db' : Database} (h : db'.actions = db.actions)
    (session : Option Text) : getLastActionId db' session = getLastActionId db session := by
  cases session <;> simp only [getLastActionId, sessionIds, h]

/-! ### Requests one after another, and a client that polls -/

/-- The database, the request being handled, and a client. Of the actions, `implicit` are those
that were created in a session without an explicit cause; the client has received the ids
`received` by polling, the last time when `polled` actions had been created. -/
structure LabRun where
  db : Database
  serving : Option (Origin × Daemon Response)
  implicit : List ActionId
  received : List ActionId
  polled : ℕ

/-- What happens next: a request arrives, the one being handled performs its next use of the
database, or the client polls. -/
inductive LabEvent
  | request (r : Request)
  | turn (e : Env)
  | poll (limit : ℤ)

/-- The ids of the actions without an explicit cause that a use creates. -/
def Origin.implicitIds (o : Origin) (α : Type) (u : Use α) : α → List ActionId :=
  match u with
  | .createAction a => fun r =>
      match r with
      | .ok actionId => if o.implicit a then [actionId] else []
      | .error _ => []
  | _ => fun _ => []

namespace LabRun

def new : LabRun := ⟨.empty, none, [], [], 0⟩

/-- No request is being handled. -/
def idle (s : LabRun) : Bool :=
  match s.serving with
  | some (_, .use _ _) => false
  | _ => true

/-- The state after a use. -/
def turned (sha256 : Text → Text) (s : LabRun) (o : Origin) {α : Type} (u : Use α)
    (k : α → Daemon Response) (e : Env) : LabRun :=
  let (b, db) := exec sha256 α u e s.db
  { s with
    db
    serving := some (o.next α u b, k b)
    implicit := s.implicit ++ o.implicitIds α u b }

/-- One step. A request waits for the one before it to end, and so does a poll, whose limit
suffices. -/
def step (sha256 : Text → Text) (maxIterations : ℕ) (typeFilter : Option Text) (s : LabRun) :
    LabEvent → Option LabRun
  | .request r =>
      if s.idle then some { s with serving := some (.start r, handle maxIterations r) } else none
  | .turn e =>
      match s.serving with
      | some (o, .use u k) => some (s.turned sha256 o u k e)
      | _ => none
  | .poll limit =>
      let since := s.received.getLast?
      if s.idle ∧ Sufficient limit (actionsSince s.db since typeFilter).length then
        some { s with
          received := s.received ++
            (listActions s.db limit since typeFilter).map (·.actionId)
          polled := s.db.actions.length }
      else none

/-- The order of the actions as the daemon and the client see it, and the causes. -/
structure Ordered (typeFilter : Option Text) (s : LabRun) : Prop where
  last : ∀ session, getLastActionId s.db (some session) = lastCreated s.db.actions session
  chain : ∀ before a after, s.db.actions = before ++ a :: after → a.actionId ∈ s.implicit →
    ∀ session ∈ a.sessionId, a.causedBy = lastCreated before session
  received : s.received.Perm
    (((s.db.actions.take s.polled).filter (passes typeFilter)).map (·.actionId))
  closed : AppendGraph.Closed Action.actionId Action.cites s.db.actions

end LabRun

/-- The condition on a creation: if it is admitted, its id is greater than those of its session,
and the causes among those that the client named exist. -/
def Origin.CreatesInOrder (o : Origin) (db : Database) (α : Type) (u : Use α) (e : Env) : Prop :=
  match u with
  | .createAction a => Admits db a e.toReading →
      (∀ session ∈ a.sessionId, ∀ id ∈ sessionIds db session, id < uuid7 e.toReading) ∧
        ∀ c ∈ a.cites, c ∈ o.named → c ∈ db.actions.map (·.actionId)
  | _ => True

/-- The condition on a step. A creation is in order, and at a poll, if it takes place, no action
that has been created since the last one lies behind the last id that the client has received. -/
def LabRun.InOrder (typeFilter : Option Text) (s : LabRun) : LabEvent → Prop
  | .request _ => True
  | .turn e =>
      match s.serving with
      | some (o, .use u _) => o.CreatesInOrder s.db _ u e
      | _ => True
  | .poll limit =>
      s.idle = true ∧ Sufficient limit (actionsSince s.db s.received.getLast? typeFilter).length →
        ∀ a ∈ s.db.actions.drop s.polled, passes typeFilter a = true →
          ∀ since ∈ s.received.getLast?, since < a.actionId

namespace LabRun

variable {sha256 : Text → Text} {n : ℕ} {typeFilter : Option Text} {s s' : LabRun}
  {ev : LabEvent}

/-- What holds in every state, in order or not. -/
structure Tracked (s : LabRun) : Prop where
  nodup : (s.db.actions.map (·.actionId)).Nodup
  implicit : ∀ id ∈ s.implicit, id ∈ s.db.actions.map (·.actionId)
  received : s.received.Pairwise (· < ·)
  polled : s.polled ≤ s.db.actions.length
  obeyed : ∀ o p, s.serving = some (o, p) → o.Obeyed p
  read : ∀ o p, s.serving = some (o, p) → ∀ session last, o.read = some (session, last) →
    getLastActionId s.db session = last
  own : ∀ o p, s.serving = some (o, p) → ∀ id ∈ o.own, id ∈ s.db.actions.map (·.actionId)

theorem Tracked.new : LabRun.new.Tracked := by
  constructor <;> simp [LabRun.new, Database.empty]

theorem Ordered.new (typeFilter : Option Text) : LabRun.new.Ordered typeFilter := by
  constructor <;>
    simp [LabRun.new, Database.empty, getLastActionId, sessionIds, lastCreated,
      AppendGraph.closed_nil]

/-! ### Creations -/

section Turn

variable {o : Origin} {α : Type} {u : Use α} {k : α → Daemon Response} {e : Env}

/-- A use that creates no action leaves the order as it is. -/
theorem turned_of_not_creates (hu : u.creates = false) :
    (s.turned sha256 o u k e).db.actions = s.db.actions ∧
      (s.turned sha256 o u k e).implicit = s.implicit := by
  refine ⟨exec_actions sha256 hu e s.db, ?_⟩
  cases u with
  | createAction a => cases hu
  | _ => exact List.append_nil _

variable {a : NewAction} {k' : Except IntegrityError ActionId → Daemon Response}

theorem turned_of_admits (h : Admits s.db a e.toReading) :
    s.turned sha256 o (.createAction a) k' e =
      { s with
        db := { s.db with actions := s.db.actions ++ [a.row e.toReading] }
        serving := some (⟨o.named, none, o.own ++ [uuid7 e.toReading]⟩, k' (.ok (uuid7 e.toReading)))
        implicit := s.implicit ++ if o.implicit a then [uuid7 e.toReading] else [] } := by
  simp only [turned, exec, createAction_of_admits h]
  rfl

theorem turned_of_not_admits (h : ¬ Admits s.db a e.toReading) :
    ∃ err, s.turned sha256 o (.createAction a) k' e =
      { s with serving := some (o, k' (.error err)) } := by
  obtain ⟨err, herr⟩ := createAction_of_not_admits h
  refine ⟨err, ?_⟩
  simp only [turned, exec, herr]
  simp only [Origin.next, Origin.implicitIds, List.append_nil]

/-- What a request has read last stays true while it creates no action. -/
theorem read_next (hu : u.creates = false) {db : Database}
    (hread : ∀ session last, o.read = some (session, last) → getLastActionId db session = last) :
    ∀ session last, (o.next α u (exec sha256 α u e db).1).read = some (session, last) →
      getLastActionId db session = last := by
  cases u with
  | createAction a => cases hu
  | getLastActionId session =>
      rintro session' last ⟨⟩
      rfl
  | _ => exact hread

theorem own_next (hu : u.creates = false) (b : α) : (o.next α u b).own = o.own := by
  cases u with
  | createAction a => cases hu
  | _ => rfl

/-- A use that creates no action keeps the record. -/
theorem Tracked.turned_of_not_creates (ht : s.Tracked) (hserving : s.serving = some (o, .use u k))
    (hu : u.creates = false) : (s.turned sha256 o u k e).Tracked := by
  obtain ⟨hactions, himplicit⟩ : (s.turned sha256 o u k e).db.actions = s.db.actions ∧
      (s.turned sha256 o u k e).implicit = s.implicit := LabRun.turned_of_not_creates hu
  refine ⟨?_, ?_, ht.received, ?_, ?_, ?_, ?_⟩
  · rw [hactions]
    exact ht.nodup
  · rw [hactions, himplicit]
    exact ht.implicit
  · rw [hactions]
    exact ht.polled
  · rintro o' p' ⟨⟩
    exact (ht.obeyed o _ hserving).2 _
  · rintro o' p' ⟨⟩ session last hlast
    rw [getLastActionId_congr hactions]
    exact read_next hu (ht.read o _ hserving) session last hlast
  · rintro o' p' ⟨⟩
    rw [hactions, own_next hu]
    exact ht.own o _ hserving

/-- A creation that is admitted keeps the record. -/
theorem Tracked.turned_of_admits (ht : s.Tracked)
    (hserving : s.serving = some (o, .use (.createAction a) k'))
    (hadmits : Admits s.db a e.toReading) :
    (s.turned sha256 o (.createAction a) k' e).Tracked := by
  have hmore : ∀ id ∈ s.db.actions.map (·.actionId),
      id ∈ (s.db.actions ++ [a.row e.toReading]).map (·.actionId) := fun id hid => by
    rw [List.map_append]
    exact List.mem_append_left _ hid
  have hself : uuid7 e.toReading ∈
      (s.db.actions ++ [a.row e.toReading]).map (·.actionId) :=
    List.mem_map_of_mem (List.mem_append_right _ (List.mem_singleton_self _))
  rw [LabRun.turned_of_admits hadmits]
  refine ⟨?_, fun id hid => ?_, ht.received, ?_, ?_, ?_, ?_⟩
  · rw [List.map_append]
    exact List.concat_eq_append ▸ ht.nodup.concat hadmits.1
  · obtain hold | hnew := List.mem_append.mp hid
    · exact hmore id (ht.implicit id hold)
    · split_ifs at hnew
      · obtain rfl := List.mem_singleton.mp hnew
        exact hself
      · cases hnew
  · simp only [List.length_append]
    exact ht.polled.trans (Nat.le_add_right _ _)
  · rintro o' p' ⟨⟩
    exact (ht.obeyed o _ hserving).2 (.ok (uuid7 e.toReading))
  · rintro o' p' ⟨⟩ session last ⟨⟩
  · rintro o' p' ⟨⟩ id hid
    obtain hold | hnew := List.mem_append.mp hid
    · exact hmore id (ht.own o _ hserving id hold)
    · obtain rfl := List.mem_singleton.mp hnew
      exact hself

/-- **Step.** A use of the database keeps the record. -/
theorem Tracked.turned (ht : s.Tracked) (hserving : s.serving = some (o, .use u k)) :
    (s.turned sha256 o u k e).Tracked := by
  cases hu : u.creates with
  | false => exact ht.turned_of_not_creates hserving hu
  | true =>
      cases u with
      | createAction a =>
          by_cases hadmits : Admits s.db a e.toReading
          · exact ht.turned_of_admits hserving hadmits
          · obtain ⟨err, herr⟩ : ∃ err, s.turned sha256 o (.createAction a) k e =
                { s with serving := some (o, k (.error err)) } := turned_of_not_admits hadmits
            rw [herr]
            refine ⟨ht.nodup, ht.implicit, ht.received, ht.polled, ?_, ?_, ?_⟩
            · rintro o' p' ⟨⟩
              exact (ht.obeyed o _ hserving).2 (.error err)
            · rintro o' p' ⟨⟩
              exact ht.read o _ hserving
            · rintro o' p' ⟨⟩
              exact ht.own o _ hserving
      | _ => cases hu

/-! ### What a creation does to the order -/

/-- The order speaks of the actions, the record of the causes and the client. -/
theorem ordered_congr (hactions : s'.db.actions = s.db.actions)
    (himplicit : s'.implicit = s.implicit) (hreceived : s'.received = s.received)
    (hpolled : s'.polled = s.polled) : s'.Ordered typeFilter ↔ s.Ordered typeFilter := by
  have hlast : ∀ session, getLastActionId s'.db session = getLastActionId s.db session :=
    getLastActionId_congr hactions
  constructor
  · intro h
    refine ⟨fun session => ?_, ?_, ?_, ?_⟩
    · rw [← hlast, ← hactions]
      exact h.last session
    · rw [← hactions, ← himplicit]
      exact h.chain
    · rw [← hactions, ← hreceived, ← hpolled]
      exact h.received
    · rw [← hactions]
      exact h.closed
  · intro h
    refine ⟨fun session => ?_, ?_, ?_, ?_⟩
    · rw [hlast, hactions]
      exact h.last session
    · rw [hactions, himplicit]
      exact h.chain
    · rw [hactions, hreceived, hpolled]
      exact h.received
    · rw [hactions]
      exact h.closed

theorem Ordered.withServing (hord : s.Ordered typeFilter)
    (serving : Option (Origin × Daemon Response)) :
    LabRun.Ordered typeFilter { s with serving } :=
  ⟨hord.last, hord.chain, hord.received, hord.closed⟩

theorem sessionIds_concat (db : Database) (row : Action) (session : Text) :
    sessionIds { db with actions := db.actions ++ [row] } session =
      sessionIds db session ++ if row.sessionId = some session then [row.actionId] else [] := by
  simp only [sessionIds, List.filter_append, List.map_append]
  by_cases h : row.sessionId = some session <;> simp [h]

/-- With one more action the greatest id of each session is that of its last action exactly if
the new one is the greatest of its own. -/
theorem last_concat_iff {db : Database} {row : Action}
    (hnew : row.actionId ∉ db.actions.map (·.actionId))
    (hlast : ∀ session, getLastActionId db (some session) = lastCreated db.actions session) :
    (∀ session, getLastActionId { db with actions := db.actions ++ [row] } (some session) =
      lastCreated (db.actions ++ [row]) session) ↔
      ∀ session ∈ row.sessionId, ∀ id ∈ sessionIds db session, id < row.actionId := by
  refine forall_congr' fun session => ?_
  change (sessionIds _ session).max? =
    (sessionIds { db with actions := db.actions ++ [row] } session).getLast? ↔ _
  rw [sessionIds_concat]
  split_ifs with hsession
  · rw [List.getLast?_concat, List.max?_eq_some_iff]
    have hne : ∀ id ∈ sessionIds db session, id ≠ row.actionId := by
      rintro id hid rfl
      obtain ⟨b, hb, hb'⟩ := List.mem_map.mp hid
      exact hnew (hb' ▸ List.mem_map_of_mem (List.mem_filter.mp hb).1)
    constructor
    · rintro ⟨-, hmax⟩ - id hid
      exact lt_of_le_of_ne (hmax id (List.mem_append_left _ hid)) (hne id hid)
    · intro hlt
      refine ⟨List.mem_append_right _ (List.mem_singleton_self _), fun id hid => ?_⟩
      obtain hold | hself := List.mem_append.mp hid
      · exact (hlt hsession id hold).le
      · exact (List.mem_singleton.mp hself).le
  · rw [List.append_nil]
    exact iff_of_true (hlast session) fun h => absurd h hsession

/-- An action without an explicit cause cites the last action of its session. -/
theorem chain_concat (ht : s.Tracked) (hord : s.Ordered typeFilter)
    (hserving : s.serving = some (o, .use (.createAction a) k'))
    (hadmits : Admits s.db a e.toReading) :
    ∀ before b after, s.db.actions ++ [a.row e.toReading] = before ++ b :: after →
      b.actionId ∈ (s.implicit ++ if o.implicit a then [uuid7 e.toReading] else []) →
        ∀ session ∈ b.sessionId, b.causedBy = lastCreated before session := by
  refine AppendGraph.forall_split_concat.mpr ⟨fun before b after heq hb => ?_, fun hb => ?_⟩
  · refine hord.chain before b after heq ((List.mem_append.mp hb).resolve_right fun hnew => ?_)
    -- an older action has another id than the new one
    split_ifs at hnew
    · refine hadmits.1 (List.mem_singleton.mp hnew ▸ List.mem_map_of_mem ?_)
      rw [heq]
      exact List.mem_append_right _ List.mem_cons_self
    · cases hnew
  · intro session hsession
    obtain hold | hnew := List.mem_append.mp hb
    · exact absurd (ht.implicit _ hold) hadmits.1
    · split_ifs at hnew with himplicit
      · have hsome : a.sessionId = some session := hsession
        have hread := (ht.obeyed o _ hserving).1.2 himplicit
        rw [hsome] at hread
        exact (ht.read o _ hserving _ _ hread).symm.trans (hord.last session)
      · cases hnew

/-- The causes of a new action exist if those that the client named do. -/
theorem cited_iff (ht : s.Tracked)
    (hserving : s.serving = some (o, .use (.createAction a) k')) :
    (∀ c ∈ a.cites, c ∈ s.db.actions.map (·.actionId)) ↔
      ∀ c ∈ a.cites, c ∈ o.named → c ∈ s.db.actions.map (·.actionId) := by
  refine ⟨fun h c hc _ => h c hc, fun h c hc => ?_⟩
  obtain hnamed | ⟨session, hread⟩ | hown := (ht.obeyed o _ hserving).1.1 c hc
  · exact h c hc hnamed
  · exact mem_of_getLastActionId (ht.read o _ hserving session _ hread)
  · exact ht.own o _ hserving c hown

/-- **Step.** From a state in order, a creation that is admitted leads to one in order exactly if
it is in order. -/
theorem ordered_turned_of_admits (ht : s.Tracked) (hord : s.Ordered typeFilter)
    (hserving : s.serving = some (o, .use (.createAction a) k'))
    (hadmits : Admits s.db a e.toReading) :
    (s.turned sha256 o (.createAction a) k' e).Ordered typeFilter ↔
      o.CreatesInOrder s.db _ (.createAction a) e := by
  have hnew : (a.row e.toReading).actionId ∉ s.db.actions.map (·.actionId) := hadmits.1
  have hlast := last_concat_iff hnew hord.last
  have hclosed : AppendGraph.Closed Action.actionId Action.cites
      (s.db.actions ++ [a.row e.toReading]) ↔ _ :=
    AppendGraph.closed_concat.trans ((and_iff_right hord.closed).trans (cited_iff ht hserving))
  rw [turned_of_admits hadmits]
  constructor
  · intro h _
    exact ⟨hlast.mp h.last, hclosed.mp h.closed⟩
  · intro h
    refine ⟨hlast.mpr (h hadmits).1, chain_concat ht hord hserving hadmits, ?_,
      hclosed.mpr (h hadmits).2⟩
    rw [List.take_append_of_le_length ht.polled]
    exact hord.received

/-- **Step.** -/
theorem ordered_turned_iff (ht : s.Tracked) (hord : s.Ordered typeFilter)
    (hserving : s.serving = some (o, .use u k)) :
    (s.turned sha256 o u k e).Ordered typeFilter ↔ o.CreatesInOrder s.db α u e := by
  cases hu : u.creates with
  | false =>
      obtain ⟨hactions, himplicit⟩ : (s.turned sha256 o u k e).db.actions = s.db.actions ∧
          (s.turned sha256 o u k e).implicit = s.implicit := turned_of_not_creates hu
      refine iff_of_true ((ordered_congr hactions himplicit rfl rfl).mpr hord) ?_
      cases u with
      | createAction a => cases hu
      | _ => trivial
  | true =>
      cases u with
      | createAction a =>
          by_cases hadmits : Admits s.db a e.toReading
          · exact ordered_turned_of_admits ht hord hserving hadmits
          · obtain ⟨err, herr⟩ : ∃ err, s.turned sha256 o (.createAction a) k e =
                { s with serving := some (o, k (.error err)) } := turned_of_not_admits hadmits
            rw [herr]
            exact iff_of_true (hord.withServing _)
              fun h => absurd h hadmits
      | _ => cases hu

end Turn

/-! ### What a poll receives -/

/-- The last id that the client has received is the greatest one. -/
theorem Tracked.le_since (ht : s.Tracked) {id since : ActionId} (hid : id ∈ s.received)
    (hsince : s.received.getLast? = some since) : id ≤ since := by
  obtain ⟨before, hbefore⟩ := List.getLast?_eq_some_iff.mp hsince
  have hsorted := ht.received
  rw [hbefore] at hsorted hid
  obtain hold | hlast := List.mem_append.mp hid
  · exact ((List.pairwise_append.mp hsorted).2.2 id hold since (List.mem_singleton_self _)).le
  · exact (List.mem_singleton.mp hlast).le

/-- The state after a poll. -/
def afterPoll (typeFilter : Option Text) (s : LabRun) : LabRun :=
  { s with
    received := s.received ++
      (actionsSince s.db s.received.getLast? typeFilter).map (·.actionId)
    polled := s.db.actions.length }

/-- A poll receives the actions beyond the last id, in increasing order. -/
theorem Tracked.afterPoll (ht : s.Tracked) (typeFilter : Option Text) :
    (s.afterPoll typeFilter).Tracked := by
  have hperm : ((actionsSince s.db s.received.getLast? typeFilter).map (·.actionId)).Perm
      ((s.db.actions.filter _).map (·.actionId)) :=
    (List.perm_insertionSort _ _).map _
  refine ⟨ht.nodup, ht.implicit, ?_, le_refl _, ht.obeyed, ht.read, ht.own⟩
  refine List.pairwise_append.mpr ⟨ht.received, ?_, fun x hx y hy => ?_⟩
  · have hnodup := hperm.nodup_iff.mpr (ht.nodup.sublist (List.filter_sublist.map _))
    have hsorted : (actionsSince s.db s.received.getLast? typeFilter).Pairwise
        fun a b => a.actionId ≤ b.actionId := List.pairwise_insertionSort _ _
    refine ((List.pairwise_map.mpr hsorted).and hnodup).imp fun h => ?_
    exact lt_of_le_of_ne h.1 h.2
  · obtain ⟨a, ha, rfl⟩ := List.mem_map.mp (hperm.mem_iff.mp hy)
    have hbeyond := (Bool.and_eq_true _ _ ▸ (List.mem_filter.mp ha).2).1
    cases hsince : s.received.getLast? with
    | none =>
        rw [List.getLast?_eq_none_iff.mp hsince] at hx
        cases hx
    | some since =>
        rw [hsince] at hbeyond
        exact (ht.le_since hx hsince).trans_lt (of_decide_eq_true hbeyond)

/-- A filter that keeps as many elements as another one that implies nothing of it. -/
theorem filter_and_perm_iff {β : Type} {l : List Action} {p q : Action → Bool} {f : Action → β} :
    ((l.filter fun a => p a && q a).map f).Perm ((l.filter q).map f) ↔
      ∀ a ∈ l, q a = true → p a = true := by
  have hsplit : l.filter (fun a => p a && q a) = (l.filter q).filter p := List.filter_filter.symm
  rw [hsplit]
  constructor
  · intro hperm a ha hq
    have hlength := hperm.length_eq
    simp only [List.length_map] at hlength
    exact List.length_filter_eq_length_iff.mp hlength a (List.mem_filter.mpr ⟨ha, hq⟩)
  · intro hall
    rw [List.filter_eq_self.mpr fun a ha =>
      hall a (List.mem_filter.mp ha).1 (List.mem_filter.mp ha).2]

/-- **Step.** From a state in order, a poll leads to one in order exactly if no action that has
been created since the last poll lies behind. -/
theorem ordered_afterPoll_iff (ht : s.Tracked) (hord : s.Ordered typeFilter) :
    (s.afterPoll typeFilter).Ordered typeFilter ↔
      ∀ a ∈ s.db.actions.drop s.polled, passes typeFilter a = true →
        ∀ since ∈ s.received.getLast?, since < a.actionId := by
  have hsplit : s.db.actions = s.db.actions.take s.polled ++ s.db.actions.drop s.polled :=
    (List.take_append_drop _ _).symm
  -- what the client has received lies behind, so the poll finds only what has been created since
  have hbehind : (s.db.actions.take s.polled).filter (fun a =>
      s.received.getLast?.all (· < a.actionId) && passes typeFilter a) = [] := by
    refine List.filter_eq_nil_iff.mpr fun a ha hboth => ?_
    obtain ⟨hbeyond, hpasses⟩ := Bool.and_eq_true_iff.mp hboth
    have hmem : a.actionId ∈ s.received :=
      hord.received.mem_iff.mpr (List.mem_map_of_mem (List.mem_filter.mpr ⟨ha, hpasses⟩))
    obtain ⟨since, hsince⟩ := Option.ne_none_iff_exists'.mp
      fun hnone => List.ne_nil_of_mem hmem (List.getLast?_eq_none_iff.mp hnone)
    rw [hsince] at hbeyond
    exact absurd (of_decide_eq_true hbeyond) (ht.le_since hmem hsince).not_gt
  have hrows : ((actionsSince s.db s.received.getLast? typeFilter).map (·.actionId)).Perm
      (((s.db.actions.drop s.polled).filter fun a =>
        s.received.getLast?.all (· < a.actionId) && passes typeFilter a).map (·.actionId)) := by
    refine ((List.perm_insertionSort _ _).map _).trans (.of_eq ?_)
    conv_lhs => rw [hsplit]
    rw [List.filter_append, hbehind, List.nil_append]
  have htarget : ((s.db.actions.take s.db.actions.length).filter (passes typeFilter)).map
      (·.actionId) = ((s.db.actions.take s.polled).filter (passes typeFilter)).map (·.actionId) ++
        ((s.db.actions.drop s.polled).filter (passes typeFilter)).map (·.actionId) := by
    rw [List.take_length]
    conv_lhs => rw [hsplit]
    rw [List.filter_append, List.map_append]
  have hreceived : (s.afterPoll typeFilter).received.Perm
      (((s.db.actions.take s.db.actions.length).filter (passes typeFilter)).map (·.actionId)) ↔
        ∀ a ∈ s.db.actions.drop s.polled, passes typeFilter a = true →
          s.received.getLast?.all (· < a.actionId) = true := by
    have hleft : (s.afterPoll typeFilter).received.Perm _ := hord.received.append hrows
    rw [hleft.congr_left, htarget, List.perm_append_left_iff]
    exact filter_and_perm_iff
  simp only [Option.all_eq_true, decide_eq_true_eq] at hreceived
  constructor
  · intro h
    exact hreceived.mp h.received
  · intro h
    exact ⟨hord.last, hord.chain, hreceived.mpr h, hord.closed⟩

/-! ### Every run -/

/-- A step is the arrival of a request, a use of the database or a poll. -/
theorem step_cases (hstep : s.step sha256 n typeFilter ev = some s') :
    (∃ r, ev = .request r ∧ s' = { s with serving := some (.start r, handle n r) }) ∨
    (∃ e o α, ∃ (u : Use α) (k : α → Daemon Response), ev = .turn e ∧
      s.serving = some (o, .use u k) ∧ s' = s.turned sha256 o u k e) ∨
    ∃ limit, ev = .poll limit ∧ s.idle = true ∧
      Sufficient limit (actionsSince s.db s.received.getLast? typeFilter).length ∧
      s' = s.afterPoll typeFilter := by
  cases ev with
  | request r =>
      simp only [step] at hstep
      split_ifs at hstep
      exact .inl ⟨r, rfl, (Option.some.inj hstep).symm⟩
  | turn e =>
      simp only [step] at hstep
      split at hstep
      case h_1 o α u k hserving =>
          exact .inr (.inl ⟨e, o, α, u, k, rfl, hserving, (Option.some.inj hstep).symm⟩)
      case h_2 => cases hstep
  | poll limit =>
      simp only [step] at hstep
      split_ifs at hstep with hguard
      rw [listActions_of_sufficient hguard.2] at hstep
      exact .inr (.inr ⟨limit, rfl, hguard.1, hguard.2, (Option.some.inj hstep).symm⟩)

/-- **Step.** The record stays true. -/
theorem Tracked.step (ht : s.Tracked) (hstep : s.step sha256 n typeFilter ev = some s') :
    s'.Tracked := by
  obtain ⟨r, rfl, rfl⟩ | ⟨e, o, α, u, k, rfl, hserving, rfl⟩ | ⟨limit, rfl, -, -, rfl⟩ :=
    step_cases hstep
  · refine ⟨ht.nodup, ht.implicit, ht.received, ht.polled, ?_, ?_, ?_⟩
    · rintro o p ⟨⟩
      exact obeyed_handle n r
    · rintro o p ⟨⟩ session last hread
      cases hread
    · rintro o p ⟨⟩ id hid
      cases hid
  · exact ht.turned hserving
  · exact ht.afterPoll typeFilter

/-- **Step.** From a state in order, a step leads to one in order exactly if it is in order. -/
theorem ordered_step_iff (ht : s.Tracked) (hord : s.Ordered typeFilter)
    (hstep : s.step sha256 n typeFilter ev = some s') :
    s'.Ordered typeFilter ↔ s.InOrder typeFilter ev := by
  obtain ⟨r, rfl, rfl⟩ | ⟨e, o, α, u, k, rfl, hserving, rfl⟩ |
    ⟨limit, rfl, hidle, hlimit, rfl⟩ := step_cases hstep
  · exact iff_of_true (hord.withServing _) trivial
  · simp only [InOrder, hserving]
    exact ordered_turned_iff ht hord hserving
  · exact (ordered_afterPoll_iff ht hord).trans ⟨fun h _ => h, fun h => h ⟨hidle, hlimit⟩⟩

/-- The condition asks nothing of an event that does not take place. -/
theorem inOrder_of_stuck (hstuck : s.step sha256 n typeFilter ev = none) :
    s.InOrder typeFilter ev := by
  cases ev with
  | request r => trivial
  | turn e =>
      simp only [step, InOrder] at hstuck ⊢
      split at hstuck
      · cases hstuck
      · trivial
  | poll limit =>
      intro hguard
      simp [step, hguard] at hstuck

/-- **Order and closure**, for any requests one after another, readings of the clock and random
bits, and polls of a client with limits that suffice. In every state of a run the daemon and the
client see the actions in the order in which they were created, and every cause is an earlier
action, exactly if every step is in order. -/
theorem ordered_iff (sha256 : Text → Text) (maxIterations : ℕ) (typeFilter : Option Text)
    (evs : List LabEvent) :
    (∀ pre post s, evs = pre ++ post →
        run (step sha256 maxIterations typeFilter) new pre = some s → s.Ordered typeFilter) ↔
      Along (step sha256 maxIterations typeFilter) (InOrder typeFilter) new evs := by
  have hkept : ∀ s ev s', Tracked s → step sha256 maxIterations typeFilter s ev = some s' →
      Tracked s' := fun s ev s' ht hstep => ht.step hstep
  have hiff : ∀ s ev s', Tracked s → s.Ordered typeFilter →
      step sha256 maxIterations typeFilter s ev = some s' →
        (s'.Ordered typeFilter ↔ s.InOrder typeFilter ev) :=
    fun s ev s' ht hord hstep => ordered_step_iff ht hord hstep
  have hstuck : ∀ s ev, Tracked s → step sha256 maxIterations typeFilter s ev = none →
      s.InOrder typeFilter ev := fun s ev _ hstuck => inOrder_of_stuck hstuck
  exact always_iff_along hkept hiff hstuck .new (.new typeFilter) evs

/-- A write in the session `s`. -/
def sessionWrite : Request := .memoryWrite ['k'] ['v'] none none (some ['s']) none

/-- A reading of the clock, with the first random bits of an id. -/
def drawing (ms : ℕ) (randA : BitVec 12) : Env := ⟨⟨ms, randA, 0, 1000 * ms, 0⟩, none⟩

/-- Two writes in one millisecond, the second one with the smaller random bits, and a poll after
each. -/
def sameMillisecond : List LabEvent :=
  [.request sessionWrite, .turn (drawing 1 1), .turn (drawing 1 1), .turn (drawing 1 1), .poll (-1),
    .request sessionWrite, .turn (drawing 1 0), .turn (drawing 1 0), .turn (drawing 1 0),
    .poll (-1)]

/-- A write, and a merge of it with an action that does not exist. -/
def danglingMerge : List LabEvent :=
  [.request sessionWrite, .turn (drawing 1 0), .turn (drawing 1 0), .turn (drawing 1 0),
    .request (.merge [uuid7 (drawing 1 0).toReading, 0] none), .turn (drawing 2 0)]

/-- The readings of the clock. -/
def clock (evs : List LabEvent) : List ℕ :=
  evs.filterMap fun ev =>
    match ev with
    | .turn e => some e.ms
    | _ => none

/-- In one millisecond the last action of a session is not the one that was created last, and the
client never receives it; and a merge cites an action that does not exist. -/
theorem order_lost :
    ((clock sameMillisecond).Pairwise (· ≤ ·) ∧ ∃ s, run (step id 10 none) new sameMillisecond = some s ∧
      getLastActionId s.db (some ['s']) ≠ lastCreated s.db.actions ['s'] ∧
      s.polled = 2 ∧ s.received.length = 1 ∧ ¬ s.Ordered none) ∧
    (clock danglingMerge).Pairwise (· ≤ ·) ∧ ∃ s, run (step id 10 none) new danglingMerge = some s ∧
      (∃ a ∈ s.db.actions, 0 ∈ a.cites) ∧ 0 ∉ s.db.actions.map (·.actionId) ∧
      ¬ s.Ordered none := by
  have hsame : ((run (step id 10 none) new sameMillisecond).any fun s =>
      getLastActionId s.db (some ['s']) ≠ lastCreated s.db.actions ['s'] ∧
        s.polled = 2 ∧ s.received.length = 1) = true := by decide +kernel
  have hmerge : ((run (step id 10 none) new danglingMerge).any fun s =>
      (∃ a ∈ s.db.actions, 0 ∈ a.cites) ∧ 0 ∉ s.db.actions.map (·.actionId)) = true := by
    decide +kernel
  refine ⟨⟨by decide, ?_⟩, by decide, ?_⟩
  · obtain ⟨s, hrun, hend⟩ := (Option.any_eq_true _ _).mp hsame
    obtain ⟨hlast, hpolled, hreceived⟩ := of_decide_eq_true hend
    exact ⟨s, hrun, hlast, hpolled, hreceived, fun hord => hlast (hord.last _)⟩
  · obtain ⟨s, hrun, hend⟩ := (Option.any_eq_true _ _).mp hmerge
    obtain ⟨⟨a, ha, hcites⟩, hmissing⟩ := of_decide_eq_true hend
    exact ⟨s, hrun, ⟨a, ha, hcites⟩, hmissing, fun hord =>
      hmissing (hord.closed.mem_names ha hcites)⟩

end LabRun

end Torpor.Lab
