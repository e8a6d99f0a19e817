import Mathlib.Data.List.AList
import Torpor.Actor.State

/-!
# Cause Handles

The store of cause handles of a tenant (`CauseHandleStore`) and the registry of these stores
(`CauseHandleRegistry`). An agent keeps the `Arc` of its store from the day it is built, and a
revocation goes from store to store, so that stores have addresses here: `stores` gives the
address of the store of a tenant, `heap` what is there.

The agents of `Torpor.Actor` see a registry through `view`, the handles of each tenant; there a
revocation is one step. `view_sweep` says that this is what a sweep does when nobody comes in
between.

The audit identity of a handle is returned by `mint` and not kept, as nothing reads it.

## Main results

* `SharedRegistry.WellFormed.getOrCreate`: the stores of different tenants stay apart, and no
  store is out of the reach of a sweep.
* `SharedRegistry.view_sweep`: a sweep on its own is the revocation of `Torpor.Actor`.
-/

namespace Torpor

variable {D : Type}

/-- A revocation, of `revoke_issued_by` or of `revoke_issued_after`. -/
inductive Revocation
  | issuedBy (issuer : AgentId)
  | issuedAfter (issuer : AgentId) (afterMs : ℕ)
  deriving DecidableEq, Repr

namespace Revocation

/-- Whose handles are revoked. -/
def issuer : Revocation → AgentId
  | issuedBy issuer => issuer
  | issuedAfter issuer _ => issuer

/-- The handles that go. -/
def revokes : Revocation → CauseHandle D → Bool
  | issuedBy issuer, h => h.issuer == issuer
  | issuedAfter issuer afterMs, h => h.issuer == issuer && decide (afterMs < h.issuedAtMs)

/-- A revocation takes handles of its issuer only. -/
theorem issuer_eq_of_revokes {r : Revocation} {h : CauseHandle D} (hr : r.revokes h = true) :
    h.issuer = r.issuer := by
  cases r with
  | issuedBy issuer => exact eq_of_beq hr
  | issuedAfter issuer afterMs =>
      simp only [revokes, Bool.and_eq_true] at hr
      exact eq_of_beq hr.1

/-- The revocation of all the handles of a registry in one step. -/
def ofAll (r : Revocation) (registry : CauseHandleRegistry D) : CauseHandleRegistry D :=
  match r with
  | issuedBy issuer => registry.revokeIssuedByAll issuer
  | issuedAfter issuer afterMs => registry.revokeIssuedAfterAll issuer afterMs

theorem ofAll_apply (r : Revocation) (registry : CauseHandleRegistry D) (tenant : TenantId) :
    r.ofAll registry tenant = (registry tenant).filter (!r.revokes ·) := by
  cases r <;> rfl

end Revocation

/-! ### The store of a tenant -/

/-- `CauseHandleStore`. -/
structure CauseHandleStore (D : Type) where
  nextId : ℕ
  handles : List (CauseHandle D)
  deriving DecidableEq, Repr

/-- Two handles have one key: the grantee and the action. -/
def CauseHandle.sameKey [DecidableEq D] (h h' : CauseHandle D) : Bool :=
  h.grantee == h'.grantee && h.actionId == h'.actionId

namespace CauseHandleStore

/-- `CauseHandleStore::new`. -/
def new : CauseHandleStore D := { nextId := 0, handles := [] }

/-- `mint`: the handle takes the place of the one with its key. -/
def mint [DecidableEq D] (s : CauseHandleStore D) (actionId : D) (grantee issuer : AgentId)
    (issuedAtMs : ℕ) : ℕ × CauseHandleStore D :=
  let id := s.nextId + 1
  let handle : CauseHandle D := { grantee, actionId, issuer, issuedAtMs }
  (id, { nextId := id, handles := handle :: s.handles.filter (!·.sameKey handle) })

/-- `contains`. -/
def contains [DecidableEq D] (s : CauseHandleStore D) (grantee : AgentId) (actionId : D) : Bool :=
  containsHandle s.handles grantee actionId

/-- `revoke_issued_by`. -/
def revokeIssuedBy (s : CauseHandleStore D) (issuer : AgentId) : CauseHandleStore D :=
  { s with handles := s.handles.filter fun h => h.issuer != issuer }

/-- `revoke_issued_after`. -/
def revokeIssuedAfter (s : CauseHandleStore D) (issuer : AgentId) (afterMs : ℕ) :
    CauseHandleStore D :=
  { s with
    handles := s.handles.filter fun h => !(h.issuer == issuer && decide (afterMs < h.issuedAtMs)) }

/-- What a sweep does to a store. -/
def revoke (s : CauseHandleStore D) : Revocation → CauseHandleStore D
  | .issuedBy issuer => s.revokeIssuedBy issuer
  | .issuedAfter issuer afterMs => s.revokeIssuedAfter issuer afterMs

theorem handles_revoke (s : CauseHandleStore D) (r : Revocation) :
    (s.revoke r).handles = s.handles.filter (!r.revokes ·) := by
  cases r <;> rfl

theorem contains_eq_true [DecidableEq D] {s : CauseHandleStore D} {grantee : AgentId}
    {actionId : D} : s.contains grantee actionId = true ↔
      ∃ h ∈ s.handles, h.grantee = grantee ∧ h.actionId = actionId := by
  simp only [contains, containsHandle, List.any_eq_true, Bool.and_eq_true, beq_iff_eq]

end CauseHandleStore

/-! ### The registry -/

/-- `CauseHandleRegistry`, and the stores that it has made. -/
structure SharedRegistry (D : Type) where
  stores : AList fun _ : TenantId => ℕ
  heap : List (CauseHandleStore D)

namespace SharedRegistry

variable {r : SharedRegistry D}

/-- `CauseHandleRegistry::new`. -/
def new : SharedRegistry D := { stores := ∅, heap := [] }

/-- `get_or_create`. When the store is missing, the lookup is repeated under the lock that
lets the new one in, so that the last lookup decides. -/
def getOrCreate (r : SharedRegistry D) (tenant : TenantId) : ℕ × SharedRegistry D :=
  match r.stores.lookup tenant with
  | some store => (store, r)
  | none =>
      (r.heap.length, { stores := r.stores.insert tenant r.heap.length, heap := r.heap ++ [.new] })

/-- The stores that a sweep meets, in some order. -/
def values (r : SharedRegistry D) : List ℕ := r.stores.entries.map (·.2)

/-- What is at an address. -/
def handlesAt (r : SharedRegistry D) (store : ℕ) : List (CauseHandle D) :=
  ((r.heap[store]?).map (·.handles)).getD []

/-- Change the store at an address. -/
def modify (r : SharedRegistry D) (store : ℕ) (f : CauseHandleStore D → CauseHandleStore D) :
    SharedRegistry D :=
  { r with heap := r.heap.modify store f }

/-- A store meets a revocation. -/
def revokeAt (r : SharedRegistry D) (revocation : Revocation) (store : ℕ) : SharedRegistry D :=
  r.modify store (·.revoke revocation)

/-- The handles of each tenant. -/
def view (r : SharedRegistry D) : CauseHandleRegistry D := fun tenant =>
  ((r.stores.lookup tenant).map r.handlesAt).getD []

theorem handlesAt_modify (r : SharedRegistry D) (store : ℕ)
    (f : CauseHandleStore D → CauseHandleStore D) (store' : ℕ) :
    (r.modify store f).handlesAt store' =
      if store' = store then ((r.heap[store]?).map fun s => (f s).handles).getD []
      else r.handlesAt store' := by
  simp only [handlesAt, modify, List.getElem?_modify]
  split
  case isTrue h => simp [h, Function.comp_def]
  case isFalse h => simp [Ne.symm h]

theorem handlesAt_revokeAt (r : SharedRegistry D) (revocation : Revocation) (store store' : ℕ) :
    (r.revokeAt revocation store).handlesAt store' =
      if store' = store then (r.handlesAt store).filter (!revocation.revokes ·)
      else r.handlesAt store' := by
  rw [revokeAt, handlesAt_modify]
  split
  · simp only [CauseHandleStore.handles_revoke, handlesAt]
    cases r.heap[store]? <;> rfl
  · rfl

/-- The stores of different tenants are different, and every store is that of a tenant. -/
structure WellFormed (r : SharedRegistry D) : Prop where
  bound : ∀ tenant store, r.stores.lookup tenant = some store → store < r.heap.length
  apart : ∀ tenant tenant' store, r.stores.lookup tenant = some store →
    r.stores.lookup tenant' = some store → tenant = tenant'
  covered : ∀ store, store < r.heap.length → ∃ tenant, r.stores.lookup tenant = some store

theorem mem_values {store : ℕ} :
    store ∈ r.values ↔ ∃ tenant, r.stores.lookup tenant = some store := by
  simp only [values, List.mem_map]
  constructor
  · rintro ⟨⟨tenant, store'⟩, hmem, rfl⟩
    exact ⟨tenant, AList.mem_lookup_iff.mpr hmem⟩
  · rintro ⟨tenant, hlookup⟩
    exact ⟨⟨tenant, store⟩, AList.mem_lookup_iff.mp hlookup, rfl⟩

namespace WellFormed

theorem new : (SharedRegistry.new : SharedRegistry D).WellFormed :=
  ⟨fun _ _ h => (by cases h), fun _ _ _ h => (by cases h), fun _ h => (by cases h)⟩

/-- A change of a store moves none. -/
theorem modify (h : r.WellFormed) (store : ℕ) (f : CauseHandleStore D → CauseHandleStore D) :
    (r.modify store f).WellFormed := by
  have hlength : (r.modify store f).heap.length = r.heap.length := List.length_modify ..
  refine ⟨?_, h.apart, ?_⟩
  · rw [hlength]
    exact h.bound
  · rw [hlength]
    exact h.covered

/-- `get_or_create` is the one place where stores are made. -/
theorem getOrCreate (h : r.WellFormed) (tenant : TenantId) :
    (r.getOrCreate tenant).2.WellFormed := by
  simp only [SharedRegistry.getOrCreate]
  split
  case h_1 => exact h
  case h_2 hnone =>
      have hlookup : ∀ t store, (r.stores.insert tenant r.heap.length).lookup t = some store ↔
          (t = tenant ∧ store = r.heap.length) ∨
            (t ≠ tenant ∧ r.stores.lookup t = some store) := by
        intro t store
        obtain rfl | hne := eq_or_ne t tenant
        · simp [eq_comm]
        · simp [AList.lookup_insert_ne hne, hne]
      refine ⟨?_, ?_, ?_⟩
      · intro t store ht
        rw [List.length_append, List.length_singleton]
        obtain ⟨-, rfl⟩ | ⟨-, hold⟩ := (hlookup t store).mp ht
        · exact Nat.lt_succ_self _
        · exact Nat.lt_succ_of_lt (h.bound t store hold)
      · intro t t' store ht ht'
        obtain ⟨rfl, rfl⟩ | ⟨-, hold⟩ := (hlookup t store).mp ht
        · obtain ⟨rfl, -⟩ | ⟨-, hold'⟩ := (hlookup t' _).mp ht'
          · rfl
          · exact absurd (h.bound _ _ hold') (Nat.lt_irrefl _)
        · obtain ⟨rfl, rfl⟩ | ⟨-, hold'⟩ := (hlookup t' store).mp ht'
          · exact absurd (h.bound _ _ hold) (Nat.lt_irrefl _)
          · exact h.apart t t' store hold hold'
      · intro store hstore
        rw [List.length_append, List.length_singleton] at hstore
        obtain hlt | rfl := Nat.lt_succ_iff_lt_or_eq.mp hstore
        · obtain ⟨t, ht⟩ := h.covered store hlt
          refine ⟨t, (hlookup t store).mpr (.inr ⟨?_, ht⟩)⟩
          rintro rfl
          exact absurd ht (by rw [hnone]; simp)
        · exact ⟨tenant, (hlookup tenant _).mpr (.inl ⟨rfl, rfl⟩)⟩

end WellFormed

/-- The store that `get_or_create` returns is the one of the tenant from then on. -/
theorem lookup_getOrCreate (r : SharedRegistry D) (tenant : TenantId) :
    (r.getOrCreate tenant).2.stores.lookup tenant = some (r.getOrCreate tenant).1 := by
  simp only [getOrCreate]
  split
  case h_1 store hstore => exact hstore
  case h_2 => exact AList.lookup_insert _

/-- `get_or_create` leaves the stores of the other tenants where they are. -/
theorem lookup_getOrCreate_of_some {tenant t : TenantId} {store : ℕ}
    (h : r.stores.lookup t = some store) :
    (r.getOrCreate tenant).2.stores.lookup t = some store := by
  simp only [getOrCreate]
  split
  case h_1 => exact h
  case h_2 hnone =>
      have hne : t ≠ tenant := by
        rintro rfl
        rw [hnone] at h
        cases h
      rw [AList.lookup_insert_ne hne, h]

/-- `get_or_create` makes and takes no handle. -/
theorem handlesAt_getOrCreate (r : SharedRegistry D) (tenant : TenantId) (store : ℕ) :
    (r.getOrCreate tenant).2.handlesAt store = r.handlesAt store := by
  simp only [getOrCreate]
  split
  case h_1 => rfl
  case h_2 =>
      simp only [handlesAt]
      obtain hlt | heq | hgt := lt_trichotomy store r.heap.length
      · rw [List.getElem?_append_left hlt]
      · subst heq
        simp [CauseHandleStore.new]
      · rw [List.getElem?_eq_none (by simp; omega), List.getElem?_eq_none (by omega)]

/-- A sweep of a list of stores. -/
theorem handlesAt_foldl (revocation : Revocation) (order : List ℕ) (r : SharedRegistry D)
    (store : ℕ) :
    (order.foldl (·.revokeAt revocation) r).handlesAt store =
      if store ∈ order then (r.handlesAt store).filter (!revocation.revokes ·)
      else r.handlesAt store := by
  induction order generalizing r with
  | nil => rfl
  | cons a order ih =>
      rw [List.foldl_cons, ih, handlesAt_revokeAt]
      by_cases ha : store = a
      · subst ha
        simp only [if_true, List.mem_cons_self, List.filter_filter, Bool.and_self, ite_self]
      · simp only [List.mem_cons, ha, false_or, if_false]

theorem stores_foldl (revocation : Revocation) (order : List ℕ) (r : SharedRegistry D) :
    (order.foldl (·.revokeAt revocation) r).stores = r.stores := by
  induction order generalizing r with
  | nil => rfl
  | cons a order ih => exact (ih (r.revokeAt revocation a)).trans rfl

/-- **Refinement.** A sweep that nobody comes in between is the revocation of
`Torpor.Actor`. -/
theorem view_sweep {order : List ℕ} (horder : order.Perm r.values) (revocation : Revocation) :
    (order.foldl (·.revokeAt revocation) r).view = revocation.ofAll r.view := by
  funext tenant
  rw [Revocation.ofAll_apply]
  simp only [view, stores_foldl]
  cases hlookup : r.stores.lookup tenant with
  | none => rfl
  | some store =>
      have hmem : store ∈ order := horder.mem_iff.mpr (mem_values.mpr ⟨tenant, hlookup⟩)
      simp only [Option.map_some, Option.getD_some, handlesAt_foldl, if_pos hmem]

end SharedRegistry

end Torpor
