import Torpor.Lib.SortedMap
import Mathlib.Data.String.Basic

/-!
# The Lab Daemon's Database

The tables of the daemon and the functions of `memory.py` and `actions.py` on them, each one
use of a connection. Texts are lists of characters, so that the order of two texts is the
order of their UTF-8 bytes, which is SQLite's. An action id is the 128-bit number of its
UUID: the text of a UUID has a fixed width, so texts compare as the numbers do. A timestamp
counts microseconds; ISO 8601 texts of one time zone compare as the times do.

The payload and the result of an action, which no modelled function reads back, are left out.

## Main definitions

* `uuid7`: the id of a new action.
* `getLastActionId`, `createAction`: the causal log.
* `readKey`, `writeKey`, `listKeys`, `stateOf`, `restoreFromStateJson`, `restoreToTimestamp`:
  the memory.
* `canonical`: the text that `compute_state_hash` hashes.
-/

namespace Torpor.Lab

abbrev Text := List Char

abbrev ActionId := ℕ

abbrev SnapshotId := ℕ

abbrev CapId := ℕ

abbrev Timestamp := ℕ

/-! ### Tables -/

/-- A row of `memory`. Without an action id: `last_action_id` is the text "rollback". -/
structure MemoryRow where
  value : Text
  updatedAt : Timestamp
  lastActionId : Option ActionId
deriving DecidableEq

/-- A row of `memory_history`; its `history_id` is its place in the table. -/
structure HistoryRow where
  key : Text
  value : Text
  timestamp : Timestamp
  actionId : ActionId
deriving DecidableEq

/-- The tools of the model; it may name one that does not exist. -/
inductive ToolName
  | memoryRead
  | memoryWrite
  | memoryList
  | snapshotCreate
  | capabilityGrant
  | other (name : Text)
deriving DecidableEq

/-- The texts that `type` takes. -/
inductive ActionType
  | think
  | thinkMerge
  | toolCall (tool : ToolName)
  | spawn
  | rollback
  | memoryRead
  | memoryWrite
  | snapshot
  | capabilityDenied
deriving DecidableEq

/-- A row of `actions`. -/
structure Action where
  actionId : ActionId
  timestamp : Timestamp
  type : ActionType
  causedBy : Option ActionId
  causedByList : Option (List ActionId)
  sessionId : Option Text
deriving DecidableEq

/-- A row of `snapshots`; `stateJson` is the map that the JSON text encodes. -/
structure Snapshot where
  snapshotId : SnapshotId
  name : Text
  timestamp : Timestamp
  stateHash : Text
  actionCount : ℕ
  lastActionId : Option ActionId
  stateJson : Option (SortedMap Text Text)

/-- Who issued or revoked a capability: a caller by name, a tool call by its action, or a
rollback by its action. -/
inductive Principal
  | named (name : Text)
  | action (id : ActionId)
  | rollback (id : ActionId)
deriving DecidableEq

/-- A row of `capabilities`. -/
structure Capability where
  capId : CapId
  parentCap : Option CapId
  subject : Text
  op : Text
  scope : Text
  issuedAt : Timestamp
  issuedBy : Principal
  revokedAt : Option Timestamp
  revokedBy : Option Principal
deriving DecidableEq

/-- The database, each table in the order of its insertions. -/
structure Database where
  memory : SortedMap Text MemoryRow
  memoryHistory : List HistoryRow
  actions : List Action
  snapshots : List Snapshot
  capabilities : List Capability

/-- The tables as `schema.sql` creates them. -/
def Database.empty : Database := ⟨.empty, [], [], [], []⟩

/-- What a function of the daemon takes from outside: readings of the clock and random
bits. -/
structure Reading where
  ms : ℕ
  randA : BitVec 12
  randB : BitVec 62
  now : Timestamp
  uuid4 : ℕ

/-- A constraint of the schema refuses a statement. -/
inductive IntegrityError
  | unique
  | foreignKey
deriving DecidableEq

/-! ### Actions -/

/-- UUIDv7: 48 bits of milliseconds, the version, 12 random bits, the variant, 62 random
bits. -/
def uuid7 (r : Reading) : ActionId :=
  (r.ms <<< 80) ||| (0x7 <<< 76) ||| (r.randA.toNat <<< 64) ||| (0b10 <<< 62) |||
    r.randB.toNat

/-- The ids of the actions of a session. -/
def sessionIds (db : Database) (session : Text) : List ActionId :=
  (db.actions.filter (·.sessionId = some session)).map (·.actionId)

/-- The greatest action id, of one session or of all actions. -/
def getLastActionId (db : Database) : Option Text → Option ActionId
  | some session => (sessionIds db session).max?
  | none => (db.actions.map (·.actionId)).max?

/-- The columns of a new action that its creator chooses. -/
structure NewAction where
  type : ActionType
  causedBy : Option ActionId
  sessionId : Option Text
  causedByList : Option (List ActionId)

/-- The column `caused_by_list`: the single cause by default, and no empty list. -/
def NewAction.listColumn (a : NewAction) : Option (List ActionId) :=
  match a.causedByList with
  | some l => if l.isEmpty then none else some l
  | none => a.causedBy.map fun c => [c]

/-- Insert an action under a new id; its cause has to exist. -/
def createAction (db : Database) (a : NewAction) (r : Reading) :
    Except IntegrityError ActionId × Database :=
  let actionId := uuid7 r
  let ids := db.actions.map (·.actionId)
  if actionId ∈ ids then (.error .unique, db)
  else if ∃ c ∈ a.causedBy, c ∉ ids ∧ c ≠ actionId then (.error .foreignKey, db)
  else
    (.ok actionId,
      { db with
        actions := db.actions ++
          [⟨actionId, r.now, a.type, a.causedBy, a.listColumn, a.sessionId⟩] })

def getActionCount (db : Database) : ℕ := db.actions.length

/-! ### Memory -/

/-- `x or None` for a text. -/
def orNone (t : Option Text) : Option Text := t.filter (!·.isEmpty)

/-- `_ns_key`: the key that a namespace and a key name together. -/
def nsKey (ns : Option Text) (key : Text) : Text :=
  match orNone ns with
  | some ns => ns ++ '/' :: key
  | none => key

/-- SQLite's `LIKE`: `%` stands for any text, `_` for any character, and ASCII letters match
in either case. -/
def like : Text → Text → Bool
  | [], s => s.isEmpty
  | c :: p, s =>
      if c = '%' then s.tails.any fun t => like p t
      else
        match s with
        | [] => false
        | d :: s => (c = '_' || c.toLower = d.toLower) && like p s

def listKeys (db : Database) (ns : Option Text) : List Text :=
  match orNone ns with
  | some ns =>
      let pre := ns ++ ['/']
      (db.memory.keys.filter (like (pre ++ ['%']))).map (·.drop pre.length)
  | none => db.memory.keys

/-- The rows of a key's history, oldest first. -/
def readHistory (db : Database) (key : Text) : List HistoryRow :=
  db.memoryHistory.filter (·.key = key)

def readKey (db : Database) (key : Text) (ns : Option Text) : Option MemoryRow :=
  db.memory.get (nsKey ns key)

def writeKey (db : Database) (key value : Text) (actionId : ActionId) (ns : Option Text)
    (now : Timestamp) : Database :=
  { db with
    memory := db.memory.put (nsKey ns key) ⟨value, now, some actionId⟩
    memoryHistory := db.memoryHistory ++ [⟨nsKey ns key, value, now, actionId⟩] }

/-- The current key-to-value map, as `get_state_snapshot` returns it. -/
def stateOf (db : Database) : SortedMap Text Text := db.memory.mapVal (·.value)

/-- Replace the memory by the map of a snapshot; returns the number of keys. -/
def restoreFromStateJson (db : Database) (state : SortedMap Text Text) (now : Timestamp) :
    ℕ × Database :=
  (state.keys.length, { db with memory := state.mapVal fun value => ⟨value, now, none⟩ })

/-- Replace the memory by what the history says of a time: of each key its last row up to
then. Returns the number of keys. -/
def restoreToTimestamp (db : Database) (timestamp now : Timestamp) : ℕ × Database :=
  let rows := (db.memoryHistory.filter (·.timestamp ≤ timestamp)).foldl
    (fun m h => m.put h.key ⟨h.value, now, some h.actionId⟩) SortedMap.empty
  (rows.keys.length, { db with memory := rows })

/-! ### The hash of the state -/

/-- Four hexadecimal digits after a backslash and `u`. -/
def unicodeEscape (n : ℕ) : Text :=
  ['\\', 'u', (n / 4096 % 16).digitChar, (n / 256 % 16).digitChar, (n / 16 % 16).digitChar,
    (n % 16).digitChar]

/-- A character of a JSON string in ASCII, as `json.dumps` writes it. -/
def jsonChar (c : Char) : Text :=
  if c = '\"' then ['\\', '\"']
  else if c = '\\' then ['\\', '\\']
  else if c = '\n' then ['\\', 'n']
  else if c = '\r' then ['\\', 'r']
  else if c = '\t' then ['\\', 't']
  else if c = Char.ofNat 12 then ['\\', 'f']
  else if c = Char.ofNat 8 then ['\\', 'b']
  else if ' ' ≤ c ∧ c ≤ '~' then [c]
  else if c.toNat < 0x10000 then unicodeEscape c.toNat
  else
    unicodeEscape (0xd800 + (c.toNat - 0x10000) / 0x400) ++
      unicodeEscape (0xdc00 + (c.toNat - 0x10000) % 0x400)

def jsonString (t : Text) : Text := '\"' :: t.flatMap jsonChar ++ ['\"']

/-- The canonical JSON of a map: keys in order, no blanks. -/
def canonical (state : SortedMap Text Text) : Text :=
  '{' :: [','].intercalate
    (state.entries.map fun e => jsonString e.1 ++ ':' :: jsonString e.2) ++ ['}']

/-- `compute_state_hash`, over the hash function of texts. -/
def computeStateHash (sha256 : Text → Text) (db : Database) : Text :=
  sha256 (canonical (stateOf db))

/-! ### Snapshots -/

def selectSnapshot (db : Database) (snapshotId : SnapshotId) : Option Snapshot :=
  db.snapshots.find? (·.snapshotId = snapshotId)

/-- Insert a snapshot; its last action has to exist. -/
def insertSnapshot (db : Database) (name stateHash : Text) (actionCount : ℕ)
    (lastActionId : Option ActionId) (state : SortedMap Text Text) (r : Reading) :
    Except IntegrityError Snapshot × Database :=
  let row : Snapshot :=
    ⟨r.uuid4, name, r.now, stateHash, actionCount, lastActionId, some state⟩
  if r.uuid4 ∈ db.snapshots.map (·.snapshotId) then (.error .unique, db)
  else if ∃ a ∈ lastActionId, a ∉ db.actions.map (·.actionId) then (.error .foreignKey, db)
  else (.ok row, { db with snapshots := db.snapshots ++ [row] })

/-! ### Lemmas -/

@[simp] theorem stateOf_restoreFromStateJson (db : Database) (state : SortedMap Text Text)
    (now : Timestamp) : stateOf (restoreFromStateJson db state now).2 = state := by
  simp [stateOf, restoreFromStateJson]

/-- What a creation does: it is refused and changes nothing, or it adds one action under a
new id. -/
theorem createAction_cases (db : Database) (a : NewAction) (r : Reading) :
    (∃ e, createAction db a r = (.error e, db)) ∨
      uuid7 r ∉ db.actions.map (·.actionId) ∧
        createAction db a r = (.ok (uuid7 r), { db with
          actions := db.actions ++
            [⟨uuid7 r, r.now, a.type, a.causedBy, a.listColumn, a.sessionId⟩] }) := by
  simp only [createAction]
  split_ifs with hunique hforeign
  · exact .inl ⟨_, rfl⟩
  · exact .inl ⟨_, rfl⟩
  · exact .inr ⟨hunique, rfl⟩

/-- A creation touches the table of actions only. -/
theorem createAction_eq (db : Database) (a : NewAction) (r : Reading) :
    ∃ actions, (createAction db a r).2 = { db with actions } := by
  obtain ⟨e, h⟩ | ⟨-, h⟩ := createAction_cases db a r
  · exact ⟨db.actions, by rw [h]⟩
  · exact ⟨_, by rw [h]⟩

/-- An insertion of a snapshot is refused and changes nothing, or it adds one row. -/
theorem insertSnapshot_cases (db : Database) (name stateHash : Text) (actionCount : ℕ)
    (lastActionId : Option ActionId) (state : SortedMap Text Text) (r : Reading) :
    (∃ e, insertSnapshot db name stateHash actionCount lastActionId state r =
      (.error e, db)) ∨
      ∃ row, insertSnapshot db name stateHash actionCount lastActionId state r =
        (.ok row, { db with snapshots := db.snapshots ++ [row] }) ∧
        row.stateHash = stateHash ∧ row.stateJson = some state := by
  simp only [insertSnapshot]
  split_ifs
  · exact .inl ⟨_, rfl⟩
  · exact .inl ⟨_, rfl⟩
  · exact .inr ⟨_, rfl, rfl, rfl⟩

/-- An insertion of a snapshot touches the table of snapshots only. -/
theorem insertSnapshot_eq (db : Database) (name stateHash : Text) (actionCount : ℕ)
    (lastActionId : Option ActionId) (state : SortedMap Text Text) (r : Reading) :
    ∃ snapshots, (insertSnapshot db name stateHash actionCount lastActionId state r).2 =
      { db with snapshots } := by
  obtain ⟨e, h⟩ | ⟨row, h, -⟩ :=
    insertSnapshot_cases db name stateHash actionCount lastActionId state r
  · exact ⟨db.snapshots, by rw [h]⟩
  · exact ⟨_, by rw [h]⟩

end Torpor.Lab
