import Torpor.Lab.Capabilities
import Torpor.Lib.Atomic
import Mathlib.Data.List.DropRight

/-!
# The Lab Daemon's Handlers

`tools.py`, `primitives.py` and the requests of `main.py`, as programs whose atomic
operations are the uses of a SQLite connection, from its opening to its commit or close. A
call of the language model is an operation too: it leaves the database alone, and the
environment says what the model replies.

Texts that are only logged or shown are left out, and so are `update_action_result`, which
writes a column that nothing reads back, and the requests that only read.

## Main definitions

* `Use`, `exec`: the uses of a connection and what they do.
* `executeTool`: the tools of the model.
* `think`, `writeMemory`, `createSnapshot`, `rollbackToSnapshot`: the primitives.
* `handle`: the requests.
-/

namespace Torpor.Lab

open Atomic Atomic.Program

/-! ### Uses of a connection -/

/-- The arguments of a tool call, of the types that the tool definitions give. -/
structure Arguments where
  key : Option Text
  value : Option Text
  namespace_ : Option Text
  name : Option Text
  toSubject : Option Text
  op : Option Text
  scope : Option Text
  parentCap : Option CapId

/-- What the model asks for. -/
structure ToolCall where
  tool : ToolName
  arguments : Arguments

/-- The readings of the environment, and the first tool call of the model's reply. -/
structure Env extends Reading where
  reply : Option ToolCall

/-- The readings at a time at which the model replies nothing. -/
def readingAt (ms : ℕ) : Env := ⟨⟨ms, 0, 0, 1000 * ms, ms⟩, none⟩

/-- The uses of a connection, with what each returns. -/
inductive Use : Type → Type
  | getLastActionId (session : Option Text) : Use (Option ActionId)
  | createAction (a : NewAction) : Use (Except IntegrityError ActionId)
  | getActionCount : Use ℕ
  | listKeys (ns : Option Text) : Use (List Text)
  | readKey (key : Text) (ns : Option Text) : Use (Option MemoryRow)
  | readHistory (key : Text) : Use (List HistoryRow)
  | writeKey (key value : Text) (actionId : ActionId) (ns : Option Text) : Use Unit
  | getStateSnapshot : Use (SortedMap Text Text)
  | restoreFromStateJson (state : SortedMap Text Text) : Use ℕ
  | restoreToTimestamp (timestamp : Timestamp) : Use ℕ
  | computeStateHash : Use Text
  | selectSnapshot (snapshotId : SnapshotId) : Use (Option Snapshot)
  | insertSnapshot (name stateHash : Text) (actionCount : ℕ)
      (lastActionId : Option ActionId) (state : SortedMap Text Text) :
      Use (Except IntegrityError Snapshot)
  | checkAccess (subject requiredOp requiredScope : Text) : Use (Bool × Option CapId)
  | getReadableScopes (subject : Text) : Use (Option (List Text))
  | listCapabilities (subject : Option Text) : Use (List Capability)
  | grantCapability (subject op scope : Text) (issuedBy : Principal)
      (parentCap : Option CapId) : Use (Except DaemonError Capability)
  | revokeCapability (capId : CapId) (revokedBy : Principal) : Use Bool
  | revokePostSnapshotCaps (snapshotTimestamp : Timestamp) (revokedBy : Principal) : Use ℕ
  | chat : Use (Option ToolCall)

/-- A use with a result over the table of capabilities. -/
def onCapabilities {α : Type} (db : Database) (r : α × List Capability) : α × Database :=
  (r.1, { db with capabilities := r.2 })

/-- What a use returns and the database that it leaves. -/
def exec (sha256 : Text → Text) (α : Type) (u : Use α) (e : Env) (db : Database) :
    α × Database :=
  match u with
  | .getLastActionId session => (Lab.getLastActionId db session, db)
  | .createAction a => Lab.createAction db a e.toReading
  | .getActionCount => (Lab.getActionCount db, db)
  | .listKeys ns => (Lab.listKeys db ns, db)
  | .readKey key ns => (Lab.readKey db key ns, db)
  | .readHistory key => (Lab.readHistory db key, db)
  | .writeKey key value actionId ns => ((), Lab.writeKey db key value actionId ns e.now)
  | .getStateSnapshot => (stateOf db, db)
  | .restoreFromStateJson state => Lab.restoreFromStateJson db state e.now
  | .restoreToTimestamp timestamp => Lab.restoreToTimestamp db timestamp e.now
  | .computeStateHash => (Lab.computeStateHash sha256 db, db)
  | .selectSnapshot snapshotId => (Lab.selectSnapshot db snapshotId, db)
  | .insertSnapshot name stateHash actionCount lastActionId state =>
      Lab.insertSnapshot db name stateHash actionCount lastActionId state e.toReading
  | .checkAccess subject requiredOp requiredScope =>
      (Lab.checkAccess db.capabilities subject requiredOp requiredScope, db)
  | .getReadableScopes subject => (Lab.getReadableScopes db.capabilities subject, db)
  | .listCapabilities subject => (Lab.listCapabilities db.capabilities subject, db)
  | .grantCapability subject op scope issuedBy parentCap =>
      onCapabilities db (Lab.grantCapability db.capabilities subject op scope issuedBy
        parentCap e.toReading)
  | .revokeCapability capId revokedBy =>
      onCapabilities db (Lab.revokeCapability db.capabilities capId revokedBy e.now)
  | .revokePostSnapshotCaps snapshotTimestamp revokedBy =>
      onCapabilities db
        (Lab.revokePostSnapshotCaps db.capabilities snapshotTimestamp revokedBy e.now)
  | .chat => (e.reply, db)

/-- The programs of the daemon. -/
abbrev Daemon (α : Type) := Program DaemonError Use α

/-- `create_action`, with the exception that a refused insertion raises. -/
def newAction (a : NewAction) : Daemon ActionId := do
  match ← call (.createAction a) with
  | .ok actionId => pure actionId
  | .error e => throw (.integrity e)

def resolveCausedBy (causedBy : Option ActionId) (session : Option Text) :
    Daemon (Option ActionId) :=
  match causedBy with
  | some c => pure (some c)
  | none => call (.getLastActionId session)

/-- Record a denial in the session of the subject. -/
def logDenied (subject : Text) : Daemon ActionId := do
  let causedBy ← call (.getLastActionId (some subject))
  newAction ⟨.capabilityDenied, causedBy, some subject, none⟩

/-- Whether the caller's last action is stale, with the actual one. Without an expectation or
a session nothing is checked. -/
def checkSessionConflict (session : Option Text) (expectedLastActionId : Option ActionId) :
    Daemon (Bool × Option ActionId) :=
  match expectedLastActionId, session with
  | some expected, some session => do
      let actual ← call (.getLastActionId (some session))
      if actual ≠ some expected then pure (true, actual) else pure (false, actual)
  | _, _ => pure (false, none)

/-! ### Tools -/

/-- What a tool returns. -/
inductive ToolResult
  | value (v : Option Text)
  | written (key value : Text)
  | keys (keys : List Text)
  | denied (requiredOp requiredScope : Text)
  | snapshot (snapshotId : SnapshotId) (stateHash : Text) (actionCount : ℕ)
  | granted (row : Capability)
  | noSession
  | parentNotHeld
  | refused (e : ValueError)
deriving DecidableEq

/-- `arguments[name]`. -/
def argument {α : Type} (name : Text) : Option α → Daemon α
  | some a => pure a
  | none => throw (.missingArgument name)

/-- Take an accidental namespace prefix off a key. -/
def stripNsPrefix (ns : Option Text) (key : Text) : Text :=
  match orNone ns with
  | some ns => if (ns ++ ['/']).isPrefixOf key then key.drop (ns.length + 1) else key
  | none => key

/-- Ask whether the session may access the namespace, record a denial, and go on if it may.
Without a session or without a namespace nothing is asked. -/
def withAccess {α : Type} (session ns : Option Text) (op : Text) (denied : Text → α)
    (access : Daemon α) : Daemon α :=
  match orNone session, orNone ns with
  | some session, some ns => do
      let (allowed, _) ← call (.checkAccess session op (ns ++ ['/']))
      if allowed then access
      else do
        let _ ← logDenied session
        pure (denied (ns ++ ['/']))
  | _, _ => access

/-- `scope.rstrip("/")`. -/
def rstripSlash (scope : Text) : Text := scope.rdropWhile (· = '/')

/-- Whether an unscoped listing shows a key to a reader of these scopes. A key without a
namespace is shown to all. -/
def keyAllowed (readable : List Text) (k : Text) : Bool :=
  readable.any (fun scope => scope.isEmpty || k = rstripSlash scope || scope.isPrefixOf k) ||
    '/' ∉ k

/-- The keys that a session is shown without naming a namespace. -/
def listReadable (session : Text) : Daemon (List Text) := do
  match ← call (.getReadableScopes session) with
  | none => call (.listKeys none)
  | some readable => do
      let keys ← call (.listKeys none)
      pure (keys.filter (keyAllowed readable))

/-- Assemble a snapshot of the memory and insert it. -/
def insertCurrentState (name : Text) : Daemon Snapshot := do
  let state ← call .getStateSnapshot
  let stateHash ← call .computeStateHash
  let actionCount ← call .getActionCount
  let lastActionId ← call (.getLastActionId none)
  match ← call (.insertSnapshot name stateHash actionCount lastActionId state) with
  | .ok row => pure row
  | .error e => throw (.integrity e)

def executeTool (c : ToolCall) (toolActionId : ActionId) (session : Option Text) :
    Daemon ToolResult :=
  let args := c.arguments
  let ns := orNone args.namespace_
  match c.tool with
  | .memoryRead => do
      let key := stripNsPrefix ns (← argument "key".toList args.key)
      withAccess session ns "read".toList (.denied "read".toList) do
        let row ← call (.readKey key ns)
        pure (.value (row.map (·.value)))
  | .memoryWrite => do
      let key := stripNsPrefix ns (← argument "key".toList args.key)
      withAccess session ns "write".toList (.denied "write".toList) do
        let value ← argument "value".toList args.value
        call (.writeKey key value toolActionId ns)
        pure (.written (nsKey ns key) value)
  | .memoryList =>
      match orNone session, ns with
      | some session, none => do
          let keys ← listReadable session
          pure (.keys keys)
      | _, _ =>
          withAccess session ns "read".toList (.denied "read".toList) do
            let keys ← call (.listKeys ns)
            pure (.keys keys)
  | .snapshotCreate => do
      let name ← argument "name".toList args.name
      let row ← insertCurrentState name
      pure (.snapshot row.snapshotId row.stateHash row.actionCount)
  | .capabilityGrant =>
      match orNone session with
      | none => pure .noSession
      | some session => do
          let toSubject ← argument "to_subject".toList args.toSubject
          let op ← argument "op".toList args.op
          let scope ← argument "scope".toList args.scope
          let parentCap ← argument "parent_cap".toList args.parentCap
          let parentRows ← call (.listCapabilities (some session))
          let owned := (parentRows.filter (·.revokedAt.isNone)).map (·.capId)
          if parentCap ∉ owned then pure .parentNotHeld
          else do
            match ← call (.grantCapability toSubject op scope (.action toolActionId)
                (some parentCap)) with
            | .ok row => pure (.granted row)
            | .error (.value e) => pure (.refused e)
            | .error e => throw e
  | .other name => throw (.value (.unknownTool name))

/-! ### Primitives -/

/-- A tool call that was made, with its action. -/
structure ToolCallMade where
  actionId : ActionId
  call : ToolCall
  result : Except DaemonError ToolResult

/-- The tool-calling loop, with the iterations that are left: whether the model came to an
answer, and the calls it made. An exception of a tool becomes its result. -/
def runToolLoop (actionId : ActionId) (session : Option Text) :
    ℕ → List ToolCallMade → Daemon (Bool × List ToolCallMade)
  | 0, made => pure (false, made)
  | n + 1, made => do
      match ← call .chat with
      | none => pure (true, made)
      | some c => do
          let toolActionId ← newAction ⟨.toolCall c.tool, some actionId, none, none⟩
          let result ← tryCatch
            (do let r ← executeTool c toolActionId session
                pure (Except.ok r))
            (fun e => pure (Except.error e))
          runToolLoop actionId session n (made ++ [⟨toolActionId, c, result⟩])

structure ThinkResult where
  actionId : ActionId
  causedBy : Option ActionId
  finished : Bool
  toolCalls : List ToolCallMade

def think (maxIterations : ℕ) (causedBy : Option ActionId) (session : Option Text) :
    Daemon ThinkResult := do
  let resolved ← resolveCausedBy causedBy session
  let actionId ← newAction ⟨.think, resolved, session, none⟩
  let (finished, made) ← runToolLoop actionId session maxIterations []
  pure ⟨actionId, resolved, finished, made⟩

def mergeThink (maxIterations : ℕ) (parentActionIds : List ActionId)
    (session : Option Text) : Daemon ThinkResult := do
  let causedBy := parentActionIds.head?
  let actionId ← newAction ⟨.thinkMerge, causedBy, session, some parentActionIds⟩
  let (finished, made) ← runToolLoop actionId session maxIterations []
  pure ⟨actionId, causedBy, finished, made⟩

/-- The spawn action belongs to no session. -/
def spawnAgent (parentActionId : ActionId) : Daemon ActionId :=
  newAction ⟨.spawn, some parentActionId, none, none⟩

structure RollbackResult where
  rollbackActionId : ActionId
  snapshotId : SnapshotId
  restoredHash : Text
  expectedHash : Text
  hashMatches : Bool
  keysRestored : ℕ
  capsRevoked : ℕ
deriving DecidableEq

/-- Restore the memory from the map of the snapshot, or from the history for a snapshot
without one; returns the number of keys. -/
def restoreSnapshot (snap : Snapshot) : Daemon ℕ :=
  match snap.stateJson with
  | some state => call (.restoreFromStateJson state)
  | none => call (.restoreToTimestamp snap.timestamp)

def rollbackToSnapshot (snapshotId : SnapshotId) : Daemon (Option RollbackResult) := do
  match ← call (.selectSnapshot snapshotId) with
  | none => pure none
  | some snap => do
      let causedBy ← call (.getLastActionId none)
      let actionId ← newAction ⟨.rollback, causedBy, none, none⟩
      let keysRestored ← restoreSnapshot snap
      let restoredHash ← call .computeStateHash
      let capsRevoked ← call (.revokePostSnapshotCaps snap.timestamp (.rollback actionId))
      pure (some ⟨actionId, snapshotId, restoredHash, snap.stateHash,
        restoredHash = snap.stateHash, keysRestored, capsRevoked⟩)

def writeMemory (key value : Text) (causedBy : Option ActionId) (session ns : Option Text) :
    Daemon ActionId := do
  let resolved ← resolveCausedBy causedBy session
  let actionId ← newAction ⟨.memoryWrite, resolved, session, none⟩
  call (.writeKey key value actionId ns)
  pure actionId

def createSnapshot (name : Text) : Daemon Snapshot := do
  let causedBy ← call (.getLastActionId none)
  let _ ← newAction ⟨.snapshot, causedBy, none, none⟩
  insertCurrentState name

/-! ### Requests -/

/-- The requests that may change the database. -/
inductive Request
  | think (causedBy : Option ActionId) (session : Option Text)
      (expectedLastActionId : Option ActionId)
  | memoryGet (key ns : Option Text) (history : Bool) (session : Option Text)
  | memoryWrite (key value : Text) (ns : Option Text) (causedBy : Option ActionId)
      (session : Option Text) (expectedLastActionId : Option ActionId)
  | capGrant (subject op scope : Text) (issuedBy : Text) (parentCap : Option CapId)
  | capRevoke (capId : CapId) (revokedBy : Text)
  | snapshot (name : Text)
  | rollback (snapshotId : SnapshotId)
  | spawn (parentActionId : ActionId)
  | merge (parentActionIds : List ActionId) (session : Option Text)

/-- The responses. -/
inductive Response
  | conflict (expectedLastActionId : Option ActionId) (actual : Option ActionId)
  | denied (requiredOp requiredScope : Text)
  | notFound
  | badRequest
  | thought (r : ThinkResult)
  | keys (keys : List Text)
  | history (rows : List HistoryRow)
  | row (row : MemoryRow)
  | written (actionId : ActionId) (key value : Text)
  | granted (row : Capability)
  | revoked (capId : CapId)
  | snapshot (row : Snapshot)
  | rolledBack (r : RollbackResult)
  | spawned (actionId : ActionId)

/-- Answer 409 when the caller's last action is stale, and go on otherwise. -/
def unlessConflict (session : Option Text) (expectedLastActionId : Option ActionId)
    (serve : Daemon Response) : Daemon Response := do
  let (conflict, actual) ← checkSessionConflict session expectedLastActionId
  if conflict then pure (.conflict expectedLastActionId actual) else serve

def memoryGet (key ns : Option Text) (history : Bool) (session : Option Text) :
    Daemon Response :=
  match key with
  | none =>
      match orNone session, orNone ns with
      | some session, none => do
          let keys ← listReadable session
          pure (.keys keys)
      | _, _ =>
          withAccess session ns "read".toList (.denied "read".toList) do
            let keys ← call (.listKeys ns)
            pure (.keys keys)
  | some key =>
      withAccess session ns "read".toList (.denied "read".toList) do
        if history then do
          let rows ← call (.readHistory (nsKey ns key))
          pure (.history rows)
        else do
          match ← call (.readKey key ns) with
          | none => pure .notFound
          | some row => pure (.row row)

def handle (maxIterations : ℕ) : Request → Daemon Response
  | .think causedBy session expectedLastActionId =>
      unlessConflict session expectedLastActionId do
        let r ← think maxIterations causedBy session
        pure (.thought r)
  | .memoryGet key ns history session => memoryGet key ns history session
  | .memoryWrite key value ns causedBy session expectedLastActionId =>
      unlessConflict session expectedLastActionId do
        withAccess session ns "write".toList (.denied "write".toList) do
          let actionId ← writeMemory key value causedBy session ns
          pure (.written actionId (nsKey ns key) value)
  | .capGrant subject op scope issuedBy parentCap => do
      match ← call (.grantCapability subject op scope (.named issuedBy) parentCap) with
      | .ok row => pure (.granted row)
      | .error (.value _) => pure .badRequest
      | .error e => throw e
  | .capRevoke capId revokedBy => do
      let ok ← call (.revokeCapability capId (.named revokedBy))
      pure (if ok then .revoked capId else .notFound)
  | .snapshot name => do
      let row ← createSnapshot name
      pure (.snapshot row)
  | .rollback snapshotId => do
      match ← rollbackToSnapshot snapshotId with
      | none => pure .notFound
      | some r => pure (.rolledBack r)
  | .spawn parentActionId => do
      let actionId ← spawnAgent parentActionId
      pure (.spawned actionId)
  | .merge parentActionIds session =>
      if parentActionIds.length < 2 then pure .badRequest
      else do
        let r ← mergeThink maxIterations parentActionIds session
        pure (.thought r)

/-- The daemon under a monitor of its requests. -/
def daemon {Mark : Type} (sha256 : Text → Text) (maxIterations : ℕ) (start : Request → Mark)
    (next : Mark → (α : Type) → Use α → α → Mark) :
    System DaemonError Use Env Database Request Response Mark where
  exec := exec sha256
  handler := handle maxIterations
  start := start
  next := next

/-! ### The uses of the tools -/

/-- What a tool call may use outside the assembly of a snapshot: of the insertions only the
action of the call, which belongs to no session, and the record of a denial. -/
def ToolUse (α : Type) (u : Use α) : Prop :=
  match u with
  | .insertSnapshot .. => False
  | .createAction a =>
      a.type = .capabilityDenied ∨ (∃ tool, a.type = .toolCall tool) ∧ a.sessionId = none
  | _ => True

section ToolUse

variable {Mark : Type} {ok : Mark → (α : Type) → Use α → Prop}
  {next : Mark → (α : Type) → Use α → α → Mark}

theorem always_newAction {a : NewAction} (ha : ∀ t, ok t _ (.createAction a)) :
    Always ok next (newAction a) := by
  refine Always.call_bind ha fun r => ?_
  cases r with
  | ok actionId => exact always_done actionId
  | error e => exact always_raise _

theorem always_argument {α : Type} (name : Text) (a : Option α) :
    Always ok next (argument name a) := by
  cases a with
  | none => exact always_raise _
  | some a => exact always_done a

variable (hok : ∀ t α (u : Use α), ToolUse α u → ok t α u)
include hok

theorem always_logDenied (subject : Text) : Always ok next (logDenied subject) := by
  refine Always.call_bind (fun t => hok t _ _ trivial) fun causedBy => ?_
  exact always_newAction fun t => hok t _ _ (Or.inl rfl)

theorem always_withAccess {α : Type} {session ns : Option Text} {op : Text}
    {denied : Text → α} {access : Daemon α} (haccess : Always ok next access) :
    Always ok next (withAccess session ns op denied access) := by
  unfold withAccess
  split
  · refine Always.call_bind (fun t => hok t _ _ trivial) fun r => ?_
    obtain ⟨allowed, c⟩ := r
    dsimp only
    split
    · exact haccess
    · exact (always_logDenied hok _).bind fun _ => always_done _
  · exact haccess

theorem always_listReadable (session : Text) : Always ok next (listReadable session) := by
  refine Always.call_bind (fun t => hok t _ _ trivial) fun readable => ?_
  cases readable with
  | none => exact Always.use (fun t => hok t _ _ trivial) fun _ => always_done _
  | some readable => exact Always.call_bind (fun t => hok t _ _ trivial) fun _ => always_done _

theorem always_executeTool
    (hsnapshot : ∀ name, Always ok next (insertCurrentState name)) (c : ToolCall)
    (toolActionId : ActionId) (session : Option Text) :
    Always ok next (executeTool c toolActionId session) := by
  obtain ⟨tool, args⟩ := c
  cases tool with
  | memoryRead =>
      refine (always_argument _ _).bind fun key => always_withAccess hok ?_
      exact Always.call_bind (fun t => hok t _ _ trivial) fun _ => always_done _
  | memoryWrite =>
      refine (always_argument _ _).bind fun key => always_withAccess hok ?_
      refine (always_argument _ _).bind fun value => ?_
      exact Always.call_bind (fun t => hok t _ _ trivial) fun _ => always_done _
  | memoryList =>
      simp only [executeTool]
      split
      · exact (always_listReadable hok _).bind fun _ => always_done _
      · refine always_withAccess hok ?_
        exact Always.call_bind (fun t => hok t _ _ trivial) fun _ => always_done _
  | snapshotCreate =>
      refine (always_argument _ _).bind fun name => ?_
      exact (hsnapshot name).bind fun _ => always_done _
  | capabilityGrant =>
      simp only [executeTool]
      split
      · exact always_done _
      · refine (always_argument _ _).bind fun toSubject => ?_
        refine (always_argument _ _).bind fun op => ?_
        refine (always_argument _ _).bind fun scope => ?_
        refine (always_argument _ _).bind fun parentCap => ?_
        refine Always.call_bind (fun t => hok t _ _ trivial) fun parentRows => ?_
        split
        · exact always_done _
        · refine Always.call_bind (fun t => hok t _ _ trivial) fun r => ?_
          split
          · exact always_done _
          · exact always_done _
          · exact always_raise _
  | other name => exact always_raise _

theorem always_runToolLoop
    (hsnapshot : ∀ name, Always ok next (insertCurrentState name)) (actionId : ActionId)
    (session : Option Text) (n : ℕ) (made : List ToolCallMade) :
    Always ok next (runToolLoop actionId session n made) := by
  induction n generalizing made with
  | zero => exact always_done _
  | succ n ih =>
      refine Always.call_bind (fun t => hok t _ _ trivial) fun reply => ?_
      cases reply with
      | none => exact always_done _
      | some c =>
          refine Always.bind (always_newAction fun t =>
            hok t _ _ (Or.inr ⟨⟨c.tool, rfl⟩, rfl⟩)) fun toolActionId => ?_
          refine Always.bind (Always.tryCatch ?_ fun _ => always_done _) fun _ => ih _
          exact (always_executeTool hok hsnapshot c toolActionId session).bind
            fun _ => always_done _

end ToolUse

end Torpor.Lab
