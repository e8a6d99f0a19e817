import Torpor.Lib.Assoc
import Torpor.Records

/-!
# The Capability Store

Capabilities are tokens with an owner, permissions and a resource scope; a delegated
capability names the one it was derived from, and the store keeps the derivation tree
(`children`) so that revoking a capability revokes everything derived from it.

`HashMap`s are association lists whose order carries no meaning. Where the source iterates
over one (`revoke_owned_after`), the order of the iteration is an argument, any permutation
of the keys. The wall clock of `now_ms` is an argument of the operations that read it.
Identifiers are counted without the bound of `u64`.

The worklist of `revoke` terminates because each capability it takes off the tree gives up
at least the entry that its children were pushed from (`edges_erase`).
-/

namespace Torpor

/-- Identifier of a capability. -/
abbrev CapabilityId := ℕ

/-- What a capability allows on its resource. -/
structure Permissions where
  read : Bool
  write : Bool
  execute : Bool
  delegate : Bool
  deriving DecidableEq, Repr

/-- Every permission asked for is held. -/
def Permissions.allows (held asked : Permissions) : Bool :=
  (!asked.read || held.read) && (!asked.write || held.write) &&
    (!asked.execute || held.execute) && (!asked.delegate || held.delegate)

/-- A capability; resources are strings of characters. -/
structure Capability where
  id : CapabilityId
  owner : AgentId
  permissions : Permissions
  resource : List Char
  parent : Option CapabilityId
  issuedAtMs : ℕ
  deriving DecidableEq, Repr

/-- `CapError`. -/
inductive CapError
  | notFound (id : CapabilityId)
  | notOwner
  | delegationNotAllowed
  | permissionEscalation
  deriving DecidableEq, Repr

/-- The live capabilities, the derivation tree, and the next identifier. -/
structure CapabilityStore where
  caps : AList fun _ : CapabilityId => Capability
  children : AList fun _ : CapabilityId => List CapabilityId
  nextId : CapabilityId

namespace CapabilityStore

/-- `CapabilityStore::new`. -/
def new : CapabilityStore := ⟨∅, ∅, 0⟩

/-- `get`. -/
def get (s : CapabilityStore) (id : CapabilityId) : Option Capability :=
  s.caps.lookup id

/-- `grant_root`. -/
def grantRoot (s : CapabilityStore) (nowMs : ℕ) (owner : AgentId)
    (permissions : Permissions) (resource : List Char) : CapabilityId × CapabilityStore :=
  let id := s.nextId
  (id, { s with
    caps := s.caps.insert id
      { id, owner, permissions, resource, parent := none, issuedAtMs := nowMs }
    nextId := id + 1 })

/-- The permission test of `delegate`. -/
def escalates (asked source : Permissions) : Bool :=
  (asked.read && !source.read) || (asked.write && !source.write) ||
    (asked.execute && !source.execute) || (asked.delegate && !source.delegate)

/-- `children.entry(source).or_default().insert(child)`. -/
def addChild (children : AList fun _ : CapabilityId => List CapabilityId)
    (source child : CapabilityId) : AList fun _ : CapabilityId => List CapabilityId :=
  let set := (children.lookup source).getD []
  children.insert source (if child ∈ set then set else child :: set)

/-- `delegate`: the owner of a capability with the delegate permission derives another one
with no more permissions. The resource of the new capability is taken as given. -/
def delegate (s : CapabilityStore) (nowMs : ℕ) (sourceId : CapabilityId)
    (fromAgent toAgent : AgentId) (permissions : Permissions) (resource : List Char) :
    Except CapError CapabilityId × CapabilityStore :=
  match s.get sourceId with
  | none => (.error (.notFound sourceId), s)
  | some source =>
      if source.owner ≠ fromAgent then (.error .notOwner, s)
      else if !source.permissions.delegate then (.error .delegationNotAllowed, s)
      else if escalates permissions source.permissions then (.error .permissionEscalation, s)
      else
        let childId := s.nextId
        (.ok childId,
          { caps := s.caps.insert childId
              { id := childId, owner := toAgent, permissions, resource, parent := some sourceId,
                issuedAtMs := nowMs }
            children := addChild s.children sourceId childId
            nextId := childId + 1 })

/-- The derivation edges in a list of sets of children, plus one for each set. -/
def edgeCount : List (Sigma fun _ : CapabilityId => List CapabilityId) → ℕ
  | [] => 0
  | e :: l => e.2.length + 1 + edgeCount l

/-- The derivation edges still in the tree, plus one for each set: what the worklist of
`revoke` can still consume. -/
def edges (children : AList fun _ : CapabilityId => List CapabilityId) : ℕ :=
  edgeCount children.entries

theorem edges_erase {children : AList fun _ : CapabilityId => List CapabilityId}
    {id : CapabilityId} {set : List CapabilityId} (h : children.lookup id = some set) :
    edges (children.erase id) + set.length + 1 = edges children := by
  have hcount : ∀ l : List (Sigma fun _ : CapabilityId => List CapabilityId),
      l.dlookup id = some set → edgeCount (l.kerase id) + (set.length + 1) = edgeCount l := by
    intro l
    induction l with
    | nil => intro hl; simp at hl
    | cons e l ih =>
        intro hl
        obtain ⟨k, v⟩ := e
        by_cases hk : id = k
        · subst hk
          rw [List.dlookup_cons_eq] at hl
          obtain rfl := Option.some.inj hl
          have herase : List.kerase id (⟨id, v⟩ :: l) = l := List.kerase_cons_eq rfl
          rw [herase, edgeCount]
          exact Nat.add_comm _ _
        · rw [List.dlookup_cons_ne _ _ hk] at hl
          rw [List.kerase_cons_ne hk, edgeCount, edgeCount, ← ih hl]
          omega
  exact hcount children.entries h

/-- The worklist of `revoke`: the head is the next capability to go. -/
def revokeLoop (s : CapabilityStore) (count : ℕ) : List CapabilityId → ℕ × CapabilityStore
  | [] => (count, s)
  | current :: rest =>
      let count' := if (s.caps.lookup current).isSome then count + 1 else count
      match _h : s.children.lookup current with
      | none => revokeLoop { s with caps := s.caps.erase current } count' rest
      | some set =>
          revokeLoop { s with caps := s.caps.erase current, children := s.children.erase current }
            count' (set.reverse ++ rest)
  termination_by toRevoke => edges s.children + toRevoke.length
  decreasing_by
    · simp
    · have := edges_erase ‹_›
      simp only [List.length_append, List.length_reverse, List.length_cons]
      omega

/-- `revoke`: a capability and everything derived from it; returns how many went. -/
def revoke (s : CapabilityStore) (id : CapabilityId) : ℕ × CapabilityStore :=
  revokeLoop s 0 [id]

/-- One round of `revoke_owned_after`: unhook the victim from its parent, then revoke it. -/
def revokeVictim (s : CapabilityStore) (victim : CapabilityId × Option CapabilityId) :
    ℕ × CapabilityStore :=
  let s' := match victim.2 with
    | none => s
    | some parentId =>
        match s.children.lookup parentId with
        | none => s
        | some siblings =>
            { s with children := s.children.insert parentId (siblings.filter (· ≠ victim.1)) }
  s'.revoke victim.1

/-- The capabilities of `owner` issued after `afterTsMs`, in the order of iteration. -/
def victims (s : CapabilityStore) (order : List CapabilityId) (owner : AgentId)
    (afterTsMs : ℕ) : List (CapabilityId × Option CapabilityId) :=
  order.filterMap fun id =>
    match s.get id with
    | none => none
    | some c => if c.owner = owner ∧ afterTsMs < c.issuedAtMs then some (id, c.parent) else none

/-- The loop of `revoke_owned_after`, with the number of capabilities gone so far. -/
def revokeVictims (count : ℕ) (s : CapabilityStore) :
    List (CapabilityId × Option CapabilityId) → ℕ × CapabilityStore
  | [] => (count, s)
  | victim :: rest =>
      revokeVictims (count + (s.revokeVictim victim).1) (s.revokeVictim victim).2 rest

/-- `revoke_owned_after`. -/
def revokeOwnedAfter (s : CapabilityStore) (order : List CapabilityId) (owner : AgentId)
    (afterTsMs : ℕ) : ℕ × CapabilityStore :=
  revokeVictims 0 s (s.victims order owner afterTsMs)

end CapabilityStore

/-- `scope_covers`: the same name, or a name below it. -/
def scopeCovers (cap req : List Char) : Bool :=
  req == cap || (cap ++ ['/']).isPrefixOf req

/-- `check`. -/
def CapabilityStore.check (s : CapabilityStore) (agent : AgentId) (capId : CapabilityId)
    (resource : List Char) (perm : Permissions) : Bool :=
  match s.get capId with
  | none => false
  | some cap => cap.owner == agent && scopeCovers cap.resource resource &&
      cap.permissions.allows perm

/-! ### Runs of the store -/

/-- The operations of the store, with the readings of the wall clock and the orders of
iteration they meet. -/
inductive CapOp
  | grantRoot (nowMs : ℕ) (owner : AgentId) (permissions : Permissions)
      (resource : List Char)
  | delegate (nowMs : ℕ) (sourceId : CapabilityId) (fromAgent toAgent : AgentId)
      (permissions : Permissions) (resource : List Char)
  | revoke (id : CapabilityId)
  | revokeOwnedAfter (order : List CapabilityId) (owner : AgentId) (afterTsMs : ℕ)

/-- One operation. An order of iteration must list the live capabilities, each once. -/
def CapabilityStore.step (s : CapabilityStore) : CapOp → Option CapabilityStore
  | .grantRoot nowMs owner permissions resource =>
      some (s.grantRoot nowMs owner permissions resource).2
  | .delegate nowMs sourceId fromAgent toAgent permissions resource =>
      some (s.delegate nowMs sourceId fromAgent toAgent permissions resource).2
  | .revoke id => some (s.revoke id).2
  | .revokeOwnedAfter order owner afterTsMs =>
      if order.Perm s.caps.keys then some (s.revokeOwnedAfter order owner afterTsMs).2
      else none

end Torpor
