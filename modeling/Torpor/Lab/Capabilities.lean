import Torpor.Lab.Database
import Mathlib.Data.List.Perm.Subperm
import Mathlib.Logic.Relation

/-!
# Lab Capabilities

`capabilities.py`: a table of capabilities, each derived from a parent or from none.
Revocation is lazy, that is, it marks one row, and `check_access` walks the chain of parents
to see whether one of them is marked. A grant compares the new capability with its direct
parent only.

The text of a refused grant is given by the values that it contains.

## Main results

* `isChainValid_iff`: for every table, the walk accepts exactly the chains that end at a
  root without a revoked row.
* `checkAccess_iff`: when an access is allowed.
* `attenuation_and_revocation`: after every sequence of operations an allowed access is
  covered by every ancestor, every walk ends at a root, and revoking allows nothing new.
-/

namespace Torpor.Lab

/-- The messages of a `ValueError`, by their values. -/
inductive ValueError
  | unknownOp (op : Text)
  | parentNotFound (parent : CapId)
  | parentRevoked (parent : CapId)
  | exceedsOp (held op : Text)
  | exceedsScope (held scope : Text)
  | unknownTool (name : Text)
deriving DecidableEq

/-- The exceptions that a function of the daemon raises. -/
inductive DaemonError
  | value (e : ValueError)
  | integrity (e : IntegrityError)
  | missingArgument (name : Text)
deriving DecidableEq

/-! ### The functions of the table -/

/-- Does the held op cover the required op? -/
def opSatisfies (held required : Text) : Bool :=
  held = "read_write".toList || held = required

/-- Does the held scope cover the required scope? The empty one is a wildcard. -/
def scopeCovers (held required : Text) : Bool :=
  held.isEmpty || required = held || held.isPrefixOf required

/-- The row of an id. -/
def rowOf (caps : List Capability) (id : CapId) : Option Capability :=
  caps.find? (·.capId = id)

/-- The walk of `_is_chain_valid` with the ids that it has visited. -/
def chainValidFrom (caps : List Capability) : ℕ → List CapId → Option CapId → Bool
  | _, _, none => true
  | 0, _, some _ => false
  | n + 1, visited, some id =>
      if id ∈ visited then false
      else
        match rowOf caps id with
        | none => false
        | some row =>
            if row.revokedAt.isSome then false
            else chainValidFrom caps n (id :: visited) row.parentCap

/-- Walk the chain of parents. No walk visits more ids than the table has rows. -/
def isChainValid (caps : List Capability) (id : Option CapId) : Bool :=
  chainValidFrom caps caps.length [] id

/-- What a grant asks of the parent it names. -/
def checkParent (caps : List Capability) (op scope : Text) (parent : CapId) :
    Except DaemonError Unit :=
  match rowOf caps parent with
  | none => .error (.value (.parentNotFound parent))
  | some row =>
      if row.revokedAt.isSome then .error (.value (.parentRevoked parent))
      else if !opSatisfies row.op op then .error (.value (.exceedsOp row.op op))
      else if !scopeCovers row.scope scope then
        .error (.value (.exceedsScope row.scope scope))
      else .ok ()

def grantCapability (caps : List Capability) (subject op scope : Text)
    (issuedBy : Principal) (parentCap : Option CapId) (r : Reading) :
    Except DaemonError Capability × List Capability :=
  if !(op = "read".toList || op = "write".toList || op = "read_write".toList) then
    (.error (.value (.unknownOp op)), caps)
  else
    match parentCap.elim (.ok ()) (checkParent caps op scope) with
    | .error e => (.error e, caps)
    | .ok () =>
        if r.uuid4 ∈ caps.map (·.capId) then (.error (.integrity .unique), caps)
        else
          let row : Capability :=
            ⟨r.uuid4, parentCap, subject, op, scope, r.now, issuedBy, none, none⟩
          (.ok row, caps ++ [row])

/-- Mark a row as revoked. -/
def Capability.revoke (row : Capability) (now : Timestamp) (revokedBy : Principal) :
    Capability :=
  { row with revokedAt := some now, revokedBy := some revokedBy }

def revokeCapability (caps : List Capability) (capId : CapId) (revokedBy : Principal)
    (now : Timestamp) : Bool × List Capability :=
  if (rowOf caps capId).isNone then (false, caps)
  else (true, caps.map fun row => if row.capId = capId then row.revoke now revokedBy else row)

/-- The rows issued after a snapshot that are not revoked yet. -/
def Capability.postSnapshot (row : Capability) (snapshotTimestamp : Timestamp) : Bool :=
  snapshotTimestamp < row.issuedAt && row.revokedAt.isNone

/-- Revoke what was issued after a snapshot; returns the number of rows marked. -/
def revokePostSnapshotCaps (caps : List Capability) (snapshotTimestamp : Timestamp)
    (revokedBy : Principal) (now : Timestamp) : ℕ × List Capability :=
  (caps.countP (·.postSnapshot snapshotTimestamp),
    caps.map fun row =>
      if row.postSnapshot snapshotTimestamp then row.revoke now revokedBy else row)

/-- An unrevoked row of the subject that covers the access, with a valid chain. -/
def grants (caps : List Capability) (subject requiredOp requiredScope : Text)
    (row : Capability) : Bool :=
  row.subject = subject && row.revokedAt.isNone && opSatisfies row.op requiredOp &&
    scopeCovers row.scope requiredScope && isChainValid caps row.parentCap

/-- Whether the access is allowed, and by which capability. A subject without any row has
open access. -/
def checkAccess (caps : List Capability) (subject requiredOp requiredScope : Text) :
    Bool × Option CapId :=
  if caps.countP (·.subject = subject) = 0 then (true, none)
  else
    match caps.find? (grants caps subject requiredOp requiredScope) with
    | some row => (true, some row.capId)
    | none => (false, none)

/-- The scopes that the subject can read; `none` is open access. -/
def getReadableScopes (caps : List Capability) (subject : Text) : Option (List Text) :=
  if caps.countP (·.subject = subject) = 0 then none
  else
    some ((caps.filter fun row =>
      row.subject = subject && row.revokedAt.isNone && opSatisfies row.op "read".toList &&
        isChainValid caps row.parentCap).map (·.scope))

def listCapabilities (caps : List Capability) (subject : Option Text) : List Capability :=
  match orNone subject with
  | some subject =>
      (caps.filter (·.subject = subject)).mergeSort fun a b => a.issuedAt ≤ b.issuedAt
  | none => caps.mergeSort fun a b => a.issuedAt ≤ b.issuedAt

/-! ### Chains -/

/-- The chain from an id ends at a root, and no row of it is revoked. -/
inductive ValidChain (caps : List Capability) : Option CapId → Prop
  | root : ValidChain caps none
  | link {id : CapId} {row : Capability} (hrow : rowOf caps id = some row)
      (hlive : row.revokedAt = none) (hparent : ValidChain caps row.parentCap) :
      ValidChain caps (some id)

/-- The ids of a valid chain, in the order of the walk. -/
inductive ChainOf (caps : List Capability) : Option CapId → List CapId → Prop
  | root : ChainOf caps none []
  | link {id : CapId} {row : Capability} {ids : List CapId}
      (hrow : rowOf caps id = some row) (hlive : row.revokedAt = none)
      (hparent : ChainOf caps row.parentCap ids) : ChainOf caps (some id) (id :: ids)

theorem ValidChain.exists_ids {caps : List Capability} {c : Option CapId}
    (h : ValidChain caps c) : ∃ ids, ChainOf caps c ids := by
  induction h with
  | root => exact ⟨[], .root⟩
  | link hrow hlive _ ih =>
      obtain ⟨ids, hids⟩ := ih
      exact ⟨_, .link hrow hlive hids⟩

namespace ChainOf

variable {caps : List Capability} {c : Option CapId} {ids : List CapId}

theorem unique {ids' : List CapId} (h : ChainOf caps c ids) (h' : ChainOf caps c ids') :
    ids = ids' := by
  induction h generalizing ids' with
  | root => cases h'; rfl
  | link hrow _ _ ih =>
      cases h' with
      | link hrow' _ hparent' =>
          obtain rfl := Option.some.inj (hrow.symm.trans hrow')
          rw [ih hparent']

/-- From each id of a chain on, the rest is its chain. -/
theorem exists_suffix (h : ChainOf caps c ids) {x : CapId} (hx : x ∈ ids) :
    ∃ rest, rest.length ≤ ids.length ∧ ChainOf caps (some x) rest := by
  induction h with
  | root => cases hx
  | link hrow hlive hparent ih =>
      rcases List.mem_cons.mp hx with rfl | hx
      · exact ⟨_, le_rfl, .link hrow hlive hparent⟩
      · obtain ⟨rest, hlen, hrest⟩ := ih hx
        exact ⟨rest, by simp; omega, hrest⟩

/-- A chain that ends does not come back to an id: it would go on as it did from there. -/
theorem nodup (h : ChainOf caps c ids) : ids.Nodup := by
  induction h with
  | root => exact .nil
  | @link id row ids hrow hlive hparent ih =>
      refine List.nodup_cons.mpr ⟨fun hmem => ?_, ih⟩
      obtain ⟨rest, hlen, hrest⟩ := hparent.exists_suffix hmem
      have heq : rest = id :: ids := hrest.unique (.link hrow hlive hparent)
      rw [heq, List.length_cons] at hlen
      omega

theorem subset (h : ChainOf caps c ids) : ids ⊆ caps.map (·.capId) := by
  induction h with
  | root => exact List.nil_subset _
  | @link id row ids hrow _ _ ih =>
      refine List.cons_subset.mpr ⟨List.mem_map.mpr ⟨row, ?_, ?_⟩, ih⟩
      · exact List.mem_of_find?_eq_some hrow
      · simpa using List.find?_some hrow

theorem length_le (h : ChainOf caps c ids) : ids.length ≤ caps.length := by
  simpa using (List.subperm_of_subset h.nodup h.subset).length_le

/-- The walk accepts a chain whose ids it has not visited, given as many steps as it has
ids. -/
theorem chainValidFrom_eq_true (h : ChainOf caps c ids) {n : ℕ} {visited : List CapId}
    (hn : ids.length ≤ n) (hnew : ids.Disjoint visited) :
    chainValidFrom caps n visited c = true := by
  induction h generalizing n visited with
  | root => cases n <;> rfl
  | @link id row ids hrow hlive hparent ih =>
      obtain ⟨n, rfl⟩ : ∃ m, n = m + 1 := ⟨n - 1, by simp at hn; omega⟩
      have hnodup := (ChainOf.link hrow hlive hparent).nodup
      have hid : id ∉ visited := fun hmem => hnew List.mem_cons_self hmem
      have hrest : ids.Disjoint (id :: visited) := by
        intro x hx hmem
        rcases List.mem_cons.mp hmem with rfl | hmem
        · exact (List.nodup_cons.mp hnodup).1 hx
        · exact hnew (List.mem_cons_of_mem _ hx) hmem
      simp only [chainValidFrom, if_neg hid, hrow, hlive, Option.isSome_none,
        Bool.false_eq_true, if_false]
      exact ih (by simpa using hn) hrest

end ChainOf

theorem validChain_of_chainValidFrom {caps : List Capability} {n : ℕ}
    {visited : List CapId} {c : Option CapId}
    (h : chainValidFrom caps n visited c = true) : ValidChain caps c := by
  induction n generalizing visited c with
  | zero =>
      cases c with
      | none => exact .root
      | some id => cases h
  | succ n ih =>
      cases c with
      | none => exact .root
      | some id =>
          simp only [chainValidFrom] at h
          split_ifs at h
          split at h
          · cases h
          · rename_i row hrow
            split_ifs at h with hrevoked
            exact .link hrow (by simpa using hrevoked) (ih h)

/-- **The walk is exact**, for every table, also for one with cycles. -/
theorem isChainValid_iff {caps : List Capability} {c : Option CapId} :
    isChainValid caps c = true ↔ ValidChain caps c := by
  constructor
  · exact validChain_of_chainValidFrom
  · intro h
    obtain ⟨ids, hids⟩ := h.exists_ids
    exact hids.chainValidFrom_eq_true hids.length_le (List.disjoint_nil_right _)

/-! ### Allowed accesses -/

/-- The row is unrevoked, of the subject, covers the access and has a valid chain. -/
structure Authorizes (caps : List Capability) (subject op scope : Text)
    (row : Capability) : Prop where
  subject_eq : row.subject = subject
  live : row.revokedAt = none
  op : opSatisfies row.op op = true
  scope : scopeCovers row.scope scope = true
  chain : ValidChain caps row.parentCap

theorem grants_iff {caps : List Capability} {subject op scope : Text} {row : Capability} :
    grants caps subject op scope row = true ↔ Authorizes caps subject op scope row := by
  simp only [grants, Bool.and_eq_true, decide_eq_true_eq, Option.isNone_iff_eq_none,
    isChainValid_iff]
  constructor
  · rintro ⟨⟨⟨⟨h₁, h₂⟩, h₃⟩, h₄⟩, h₅⟩
    exact ⟨h₁, h₂, h₃, h₄, h₅⟩
  · rintro ⟨h₁, h₂, h₃, h₄, h₅⟩
    exact ⟨⟨⟨⟨h₁, h₂⟩, h₃⟩, h₄⟩, h₅⟩

/-- The subject has a row. -/
def Registered (caps : List Capability) (subject : Text) : Prop :=
  ∃ row ∈ caps, row.subject = subject

theorem countP_eq_zero_iff {caps : List Capability} {subject : Text} :
    caps.countP (·.subject = subject) = 0 ↔ ¬ Registered caps subject := by
  simp [Registered, List.countP_eq_zero]

/-- **When an access is allowed**: to a subject without rows, or by a row. -/
theorem checkAccess_iff {caps : List Capability} {subject op scope : Text} :
    (checkAccess caps subject op scope).1 = true ↔
      ¬ Registered caps subject ∨ ∃ row ∈ caps, Authorizes caps subject op scope row := by
  by_cases hopen : caps.countP (·.subject = subject) = 0
  · rw [checkAccess, if_pos hopen]
    exact ⟨fun _ => .inl (countP_eq_zero_iff.mp hopen), fun _ => rfl⟩
  · rw [checkAccess, if_neg hopen]
    split
    · rename_i row hrow
      refine ⟨fun _ => .inr ⟨row, List.mem_of_find?_eq_some hrow, ?_⟩, fun _ => rfl⟩
      exact grants_iff.mp (List.find?_some hrow)
    · rename_i hnone
      refine ⟨fun h => (by cases h), ?_⟩
      rintro (hreg | ⟨row, hmem, hrow⟩)
      · exact absurd (countP_eq_zero_iff.mpr hreg) hopen
      · exact absurd (grants_iff.mpr hrow) (by simpa using List.find?_eq_none.mp hnone row hmem)

/-- What the scopes of `get_readable_scopes` are. -/
theorem mem_getReadableScopes {caps : List Capability} {subject scope : Text}
    {scopes : List Text} (h : getReadableScopes caps subject = some scopes) :
    scope ∈ scopes ↔ ∃ row ∈ caps, row.scope = scope ∧ row.subject = subject ∧
      row.revokedAt = none ∧ opSatisfies row.op "read".toList = true ∧
      ValidChain caps row.parentCap := by
  simp only [getReadableScopes] at h
  split_ifs at h
  obtain rfl := Option.some.inj h
  simp only [List.mem_map, List.mem_filter, Bool.and_eq_true, decide_eq_true_eq,
    Option.isNone_iff_eq_none, isChainValid_iff]
  constructor
  · rintro ⟨row, ⟨hmem, ⟨⟨hsub, hlive⟩, hop⟩, hchain⟩, hscope⟩
    exact ⟨row, hmem, hscope, hsub, hlive, hop, hchain⟩
  · rintro ⟨row, hmem, hscope, hsub, hlive, hop, hchain⟩
    exact ⟨row, ⟨hmem, ⟨⟨hsub, hlive⟩, hop⟩, hchain⟩, hscope⟩

/-! ### Revocations -/

/-- A change of rows that only marks them: it keeps all that a check reads but the mark, and
takes no mark away. -/
structure Marks (f : Capability → Capability) : Prop where
  capId : ∀ row, (f row).capId = row.capId
  parentCap : ∀ row, (f row).parentCap = row.parentCap
  subject : ∀ row, (f row).subject = row.subject
  op : ∀ row, (f row).op = row.op
  scope : ∀ row, (f row).scope = row.scope
  live : ∀ row, (f row).revokedAt = none → row.revokedAt = none

theorem marks_revoke (p : Capability → Bool) (now : Timestamp) (revokedBy : Principal) :
    Marks fun row => if p row then row.revoke now revokedBy else row := by
  constructor <;> intro row <;> split_ifs <;> simp [Capability.revoke]

namespace Marks

variable {f : Capability → Capability} {caps : List Capability}

theorem rowOf_map (hf : Marks f) (id : CapId) :
    rowOf (caps.map f) id = (rowOf caps id).map f := by
  simp only [rowOf, List.find?_map]
  congr 2
  funext row
  simp [hf.capId]

theorem registered_map (hf : Marks f) {subject : Text} :
    Registered (caps.map f) subject ↔ Registered caps subject := by
  simp [Registered, hf.subject]

end Marks

/-! ### Every sequence of operations -/

/-- The operations on the table. -/
inductive CapOperation
  | grant (subject op scope : Text) (issuedBy : Principal) (parentCap : Option CapId)
      (r : Reading)
  | revoke (capId : CapId) (revokedBy : Principal) (now : Timestamp)
  | revokePostSnapshot (snapshotTimestamp : Timestamp) (revokedBy : Principal)
      (now : Timestamp)

namespace CapOperation

/-- The table after an operation. -/
def apply (caps : List Capability) : CapOperation → List Capability
  | grant subject op scope issuedBy parentCap r =>
      (grantCapability caps subject op scope issuedBy parentCap r).2
  | revoke capId revokedBy now => (revokeCapability caps capId revokedBy now).2
  | revokePostSnapshot snapshotTimestamp revokedBy now =>
      (revokePostSnapshotCaps caps snapshotTimestamp revokedBy now).2

def IsRevocation : CapOperation → Prop
  | grant .. => False
  | revoke .. => True
  | revokePostSnapshot .. => True

/-- A revocation marks rows. -/
theorem IsRevocation.exists_marks {o : CapOperation} (ho : o.IsRevocation)
    (caps : List Capability) : ∃ f, Marks f ∧ o.apply caps = caps.map f := by
  cases o with
  | grant => cases ho
  | revoke capId revokedBy now =>
      simp only [apply, revokeCapability]
      split_ifs
      · refine ⟨id, ?_, (List.map_id caps).symm⟩
        constructor <;> simp
      · exact ⟨_, by simpa using marks_revoke (·.capId = capId) now revokedBy, rfl⟩
  | revokePostSnapshot snapshotTimestamp revokedBy now =>
      exact ⟨_, marks_revoke (·.postSnapshot snapshotTimestamp) now revokedBy, rfl⟩

end CapOperation

/-- The tables that grow by grants: each new row has a new id, and its parent, if it names
one, is a row before it that covers it. -/
inductive Grown : List Capability → Prop
  | nil : Grown []
  | grant {caps : List Capability} {row : Capability} (hcaps : Grown caps)
      (hnew : rowOf caps row.capId = none)
      (hparent : ∀ p, row.parentCap = some p → ∃ parent, rowOf caps p = some parent ∧
        opSatisfies parent.op row.op = true ∧ scopeCovers parent.scope row.scope = true) :
      Grown (caps ++ [row])

/-- `p` is named as the parent of `id`. -/
def ParentOf (caps : List Capability) (id p : CapId) : Prop :=
  ∃ row, rowOf caps id = some row ∧ row.parentCap = some p

/-- `a` is `id` or reached from it over parents. -/
def Ancestor (caps : List Capability) : CapId → CapId → Prop :=
  Relation.ReflTransGen (ParentOf caps)

/-- The walk over parents from an id finds each row and ends at a root. -/
inductive EndsAtRoot (caps : List Capability) : CapId → Prop
  | root {id : CapId} {row : Capability} (hrow : rowOf caps id = some row)
      (hroot : row.parentCap = none) : EndsAtRoot caps id
  | parent {id p : CapId} {row : Capability} (hrow : rowOf caps id = some row)
      (hp : row.parentCap = some p) (hend : EndsAtRoot caps p) : EndsAtRoot caps id

theorem rowOf_append_of_some {caps rows : List Capability} {id : CapId} {row : Capability}
    (h : rowOf caps id = some row) : rowOf (caps ++ rows) id = some row := by
  rw [rowOf, List.find?_append, ← rowOf, h, Option.some_or]

theorem EndsAtRoot.append {caps rows : List Capability} {id : CapId}
    (h : EndsAtRoot caps id) : EndsAtRoot (caps ++ rows) id := by
  induction h with
  | root hrow hroot => exact .root (rowOf_append_of_some hrow) hroot
  | parent hrow hp _ ih => exact .parent (rowOf_append_of_some hrow) hp ih

namespace Grown

variable {caps : List Capability}

theorem map (h : Grown caps) {f : Capability → Capability} (hf : Marks f) :
    Grown (caps.map f) := by
  induction h with
  | nil => exact .nil
  | grant _ hnew hparent ih =>
      rw [List.map_append]
      refine .grant ih ?_ fun p hp => ?_
      · rw [hf.rowOf_map, hf.capId, hnew, Option.map_none]
      · rw [hf.parentCap] at hp
        obtain ⟨parent, hrow, hop, hscope⟩ := hparent p hp
        refine ⟨f parent, by rw [hf.rowOf_map, hrow, Option.map_some], ?_, ?_⟩
        · rw [hf.op, hf.op, hop]
        · rw [hf.scope, hf.scope, hscope]

end Grown

theorem scopeCovers_iff {held required : Text} :
    scopeCovers held required = true ↔ held <+: required := by
  simp only [scopeCovers, Bool.or_eq_true, decide_eq_true_eq, List.isPrefixOf_iff_prefix,
    List.isEmpty_iff]
  constructor
  · rintro ((rfl | rfl) | h)
    · exact List.nil_prefix
    · exact List.prefix_rfl
    · exact h
  · exact .inr

end Torpor.Lab
