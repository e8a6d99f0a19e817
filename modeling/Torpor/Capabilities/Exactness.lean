import Mathlib.Data.Set.Card
import Torpor.Capabilities.Cascade

/-!
# A Revocation Removes What It Is For

Both revocations remove the live capabilities at or below some roots: `revoke` those below the
capability it is given, `revoke_owned_after` those below the capabilities that the owner was
given after the time. They return how many these are, and leave every other capability and the
derivation edges between the others as they were. None of this depends on the order in which
`revoke_owned_after` meets the capabilities, although it removes a victim that an earlier
victim has already taken with it, and counts it once.

## Main results

* `CapabilityStore.revokeLoop_count`: the worklist counts what it removes.
* `CapabilityStore.removes_revoke`, `CapabilityStore.removes_revokeOwnedAfter`: what the two
  revocations remove.
* `revocation_exact`: this holds of every reachable store.
-/

namespace Torpor

open Machine

namespace CapabilityStore

variable {s t : CapabilityStore} {id : CapabilityId} {c : Capability}

/-- The capability is live. -/
def Live (s : CapabilityStore) (id : CapabilityId) : Prop := ∃ c, s.get id = some c

/-- The derivation edge from `p` to `id` is in the tree. -/
def Lists (s : CapabilityStore) (p id : CapabilityId) : Prop :=
  ∃ set, s.children.lookup p = some set ∧ id ∈ set

/-- The live capabilities that are one of the roots or have one as an ancestor. -/
def below (s : CapabilityStore) (roots : Set CapabilityId) : Set CapabilityId :=
  {id | s.Live id ∧ ∃ v ∈ roots, v = id ∨ s.Ancestor id v}

/-- The live capabilities of an owner that were issued after a time. -/
def ownedAfter (s : CapabilityStore) (owner : AgentId) (afterTsMs : ℕ) : Set CapabilityId :=
  {id | ∃ c, s.get id = some c ∧ c.owner = owner ∧ afterTsMs < c.issuedAtMs}

/-- The result of a removal: these capabilities are gone and counted, the others are unchanged,
and so are the derivation edges between them. -/
structure Removes (s : CapabilityStore) (gone : Set CapabilityId) (r : ℕ × CapabilityStore) :
    Prop where
  count : r.1 = gone.ncard
  get_of_mem : ∀ id ∈ gone, r.2.get id = none
  get_of_notMem : ∀ id ∉ gone, r.2.get id = s.get id
  lists_iff : ∀ p id, s.Live p → s.Live id → p ∉ gone → id ∉ gone →
    (r.2.Lists p id ↔ s.Lists p id)
  nextId : r.2.nextId = s.nextId

/-! ### Counting -/

theorem live_iff_mem_keys : s.Live id ↔ id ∈ s.caps.keys := by
  rw [← AList.mem_keys, ← AList.lookup_isSome, Option.isSome_iff_exists]
  rfl

/-- One round of the worklist counts a capability if it removes one. -/
theorem length_keys_erase (s : CapabilityStore) (current : CapabilityId) :
    (s.caps.erase current).keys.length + (if (s.caps.lookup current).isSome then 1 else 0) =
      s.caps.keys.length := by
  rw [AList.keys_erase]
  by_cases hlive : (s.caps.lookup current).isSome
  · have hmem : current ∈ s.caps.keys := AList.mem_keys.mp (AList.lookup_isSome.mp hlive)
    have hpos := List.length_pos_of_mem hmem
    rw [List.length_erase_of_mem hmem, if_pos hlive]
    omega
  · have hmem : current ∉ s.caps.keys :=
      fun hmem => hlive (AList.lookup_isSome.mpr (AList.mem_keys.mpr hmem))
    rw [List.erase_of_not_mem hmem, if_neg hlive, Nat.add_zero]

/-- The worklist counts what it removes. -/
theorem revokeLoop_count (s : CapabilityStore) (count : ℕ) (toRevoke : List CapabilityId) :
    (revokeLoop s count toRevoke).1 + (revokeLoop s count toRevoke).2.caps.keys.length =
      count + s.caps.keys.length := by
  induction s, count, toRevoke using revokeLoop.induct with
  | case1 s count => rw [revokeLoop]
  | case2 s count current rest count' hnone ih =>
      have hround := length_keys_erase s current
      rw [revokeLoop]
      split
      · refine ih.trans ?_
        rw [← hround]
        simp only [count']
        split_ifs <;> omega
      · rename_i hsome
        exact absurd (hnone.symm.trans hsome) (by simp)
  | case3 s count current rest count' set hset ih =>
      have hround := length_keys_erase s current
      rw [revokeLoop]
      split
      · rename_i hnone
        exact absurd (hset.symm.trans hnone) (by simp)
      · rename_i set' hset'
        obtain rfl := Option.some.inj (hset.symm.trans hset')
        refine ih.trans ?_
        rw [← hround]
        simp only [count']
        split_ifs <;> omega

theorem revoke_count (s : CapabilityStore) (id : CapabilityId) :
    (s.revoke id).1 + (s.revoke id).2.caps.keys.length = s.caps.keys.length := by
  rw [revoke, revokeLoop_count, Nat.zero_add]

theorem revokeVictim_count (s : CapabilityStore)
    (victim : CapabilityId × Option CapabilityId) :
    (s.revokeVictim victim).1 + (s.revokeVictim victim).2.caps.keys.length =
      s.caps.keys.length := by
  unfold revokeVictim
  rw [revoke_count]
  split
  · rfl
  · split <;> rfl

/-- The loop of `revoke_owned_after` counts what it removes: a victim that is gone already does
not count again. -/
theorem revokeVictims_count (victims : List (CapabilityId × Option CapabilityId)) (count : ℕ)
    (s : CapabilityStore) :
    (revokeVictims count s victims).1 + (revokeVictims count s victims).2.caps.keys.length =
      count + s.caps.keys.length := by
  induction victims generalizing count s with
  | nil => rfl
  | cons v vs ih =>
      have hround := revokeVictim_count s v
      rw [revokeVictims, ih]
      omega

/-- The number of capabilities that a removal has taken away. -/
theorem Remains.ncard_gone (hrem : t.Remains s) :
    {id | s.Live id ∧ t.get id = none}.ncard + t.caps.keys.length = s.caps.keys.length := by
  have hgone : {id | s.Live id ∧ t.get id = none} =
      ((s.caps.keys.toFinset \ t.caps.keys.toFinset : Finset CapabilityId) :
        Set CapabilityId) := by
    ext id
    rw [Finset.mem_coe, Finset.mem_sdiff, List.mem_toFinset, List.mem_toFinset,
      ← live_iff_mem_keys, ← live_iff_mem_keys]
    simp [Live, Option.eq_none_iff_forall_ne_some]
  have hsub : t.caps.keys.toFinset ⊆ s.caps.keys.toFinset := by
    intro id hid
    rw [List.mem_toFinset, ← live_iff_mem_keys] at hid ⊢
    obtain ⟨c, hc⟩ := hid
    exact ⟨c, hrem.get_of id c hc⟩
  have hcard := Finset.card_sdiff_add_card_eq_card hsub
  rwa [List.toFinset_card_of_nodup s.caps.keys_nodup,
    List.toFinset_card_of_nodup t.caps.keys_nodup, ← Set.ncard_coe_finset, ← hgone] at hcard

/-! ### Removals -/

/-- A removal that leaves no orphan keeps the edges between the capabilities that it leaves. -/
theorem Remains.lists_iff (ht : s.TreeInv) (hrem : t.Remains s) (hhooked : t.Hooked [])
    {p : CapabilityId} (hid : t.Live id) : t.Lists p id ↔ s.Lists p id := by
  obtain ⟨c, hc⟩ := hid
  constructor
  · rintro ⟨set', hset', hmem⟩
    obtain ⟨set, hset, hsub⟩ := hrem.children_of p set' hset'
    exact ⟨set, hset, hsub hmem⟩
  · rintro ⟨set, hset, hmem⟩
    have hparent := ht.parent_of_listed p set id c hset hmem (hrem.get_of id c hc)
    exact (hhooked id c p hc hparent (by simp)).2

/-- A removal that leaves no orphan and counts what it takes removes what is gone after it. -/
theorem removes_of_remains (ht : s.TreeInv) {r : ℕ × CapabilityStore} (hrem : r.2.Remains s)
    (hhooked : r.2.Hooked []) (hcount : r.1 + r.2.caps.keys.length = s.caps.keys.length)
    {gone : Set CapabilityId} (hgone : ∀ id, s.Live id → (r.2.get id = none ↔ id ∈ gone))
    (hlive : ∀ id ∈ gone, s.Live id) : s.Removes gone r := by
  have hset : {id | s.Live id ∧ r.2.get id = none} = gone := by
    ext id
    exact ⟨fun ⟨hid, hnone⟩ => (hgone id hid).mp hnone,
      fun hid => ⟨hlive id hid, (hgone id (hlive id hid)).mpr hid⟩⟩
  have hkept : ∀ id ∉ gone, r.2.get id = s.get id := by
    intro id hid
    cases hs : s.get id with
    | none =>
        cases hr : r.2.get id with
        | none => rfl
        | some c => exact absurd (hrem.get_of id c hr) (by simp [hs])
    | some c =>
        have hleft : r.2.get id ≠ none := fun hnone => hid ((hgone id ⟨c, hs⟩).mp hnone)
        obtain ⟨c', hc'⟩ := Option.ne_none_iff_exists'.mp hleft
        exact hc'.trans ((hrem.get_of id c' hc').symm.trans hs)
  refine ⟨?_, fun id hid => (hgone id (hlive id hid)).mpr hid, hkept, ?_, hrem.nextId_eq⟩
  · have hncard := hrem.ncard_gone
    rw [hset] at hncard
    omega
  · intro p id _ hid _ hnot
    obtain ⟨c, hc⟩ := hid
    exact hrem.lists_iff ht hhooked ⟨c, (hkept id hnot).trans hc⟩

/-- `revoke` removes what is at or below the capability. -/
theorem removes_revoke (ht : s.TreeInv) (root : CapabilityId) :
    s.Removes (s.below {root}) (s.revoke root) := by
  obtain ⟨hrem, hhooked⟩ := revoke_remains ht root
  refine removes_of_remains ht hrem hhooked (revoke_count s root) ?_ fun id hid => hid.1
  rintro id ⟨c, hc⟩
  constructor
  · intro hgone
    obtain ⟨v, hv, hunder⟩ := revokeLoop_removes ht s 0 [root] (.refl s)
      (fun id hid _ _ => ⟨id, hid, .inl rfl⟩) id c hc hgone
    exact ⟨⟨c, hc⟩, v, List.mem_singleton.mp hv, hunder⟩
  · rintro ⟨-, v, rfl, hunder⟩
    have hgone := (revokeLoop_clears s 0 [v]).2 v List.mem_cons_self
    by_contra hleft
    obtain ⟨c', hc'⟩ := Option.ne_none_iff_exists'.mp hleft
    rcases hunder with rfl | hanc
    · exact absurd (hgone.symm.trans hc') (by simp)
    · -- a capability that is left has all its ancestors
      have htree := ht.revoke v
      have hkept := (Persists.of_remains hrem).ancestor ht htree hc' hanc
      obtain ⟨ca, hca, -⟩ := htree.ancestor hc' hkept
      exact absurd (hgone.symm.trans hca) (by simp)

/-- `revoke_owned_after` removes what is at or below what the owner was given after the time. -/
theorem removes_revokeOwnedAfter (ht : s.TreeInv) {order : List CapabilityId}
    (hperm : order.Perm s.caps.keys) (owner : AgentId) (afterTsMs : ℕ) :
    s.Removes (s.below (s.ownedAfter owner afterTsMs))
      (s.revokeOwnedAfter order owner afterTsMs) := by
  obtain ⟨hrem, hhooked⟩ := revokeOwnedAfter_remains ht order owner afterTsMs
  have hcount := revokeVictims_count (s.victims order owner afterTsMs) 0 s
  rw [Nat.zero_add] at hcount
  refine removes_of_remains ht hrem hhooked hcount ?_ fun id hid => hid.1
  rintro id ⟨c, hc⟩
  rw [revokeOwnedAfter_get_eq_none ht hperm hc]
  constructor
  · rintro ⟨v, cv, hunder, hcv, howner, hlater⟩
    exact ⟨⟨c, hc⟩, v, ⟨cv, hcv, howner, hlater⟩, hunder⟩
  · rintro ⟨-, v, ⟨cv, hcv, howner, hlater⟩, hunder⟩
    exact ⟨v, cv, hunder, hcv, howner, hlater⟩

end CapabilityStore

/-- **Revocation is exact.** In every store that the operations reach, `revoke` removes the live
capabilities that have the given one as an ancestor or are it, and `revoke_owned_after` those
that have as an ancestor, or are, one that the owner was given after the time. Both return how
many these are, for every order of iteration the same, and leave every other capability and the
derivation edges between the others unchanged. -/
theorem revocation_exact {ops : List CapOp} {s : CapabilityStore}
    (hrun : run CapabilityStore.step .new ops = some s) :
    (∀ id, s.Removes (s.below {id}) (s.revoke id)) ∧
    (∀ owner afterTsMs order, order.Perm s.caps.keys →
      s.Removes (s.below (s.ownedAfter owner afterTsMs))
        (s.revokeOwnedAfter order owner afterTsMs)) ∧
    ∀ owner afterTsMs order order', order.Perm s.caps.keys → order'.Perm s.caps.keys →
      (s.revokeOwnedAfter order owner afterTsMs).1 =
          (s.revokeOwnedAfter order' owner afterTsMs).1 ∧
        ∀ id, (s.revokeOwnedAfter order owner afterTsMs).2.get id =
          (s.revokeOwnedAfter order' owner afterTsMs).2.get id := by
  have ht : s.TreeInv := CapabilityStore.treeInv_run hrun
  refine ⟨CapabilityStore.removes_revoke ht, ?_, ?_⟩
  · intro owner afterTsMs order hperm
    exact CapabilityStore.removes_revokeOwnedAfter ht hperm owner afterTsMs
  · intro owner afterTsMs order order' hperm hperm'
    have h := CapabilityStore.removes_revokeOwnedAfter ht hperm owner afterTsMs
    have h' := CapabilityStore.removes_revokeOwnedAfter ht hperm' owner afterTsMs
    refine ⟨h.count.trans h'.count.symm, fun id => ?_⟩
    by_cases hid : id ∈ s.below (s.ownedAfter owner afterTsMs)
    · rw [h.get_of_mem id hid, h'.get_of_mem id hid]
    · rw [h.get_of_notMem id hid, h'.get_of_notMem id hid]

/-- When `0xB` loses what it was given after the time zero, the second capability of
`derivationOps` goes and takes the third one with it, in whatever order they are met. -/
theorem revocation_exact_derivationOps :
    ∃ s, run CapabilityStore.step .new derivationOps = some s ∧
      s.Removes (s.below (s.ownedAfter 0xB 0)) (s.revokeOwnedAfter [2, 0, 1] 0xB 0) ∧
      (s.revokeOwnedAfter [2, 0, 1] 0xB 0).1 = 2 := by
  obtain ⟨s, hs⟩ : ∃ s, run CapabilityStore.step .new derivationOps = some s := ⟨_, rfl⟩
  obtain ⟨-, howned, -⟩ := revocation_exact hs
  obtain rfl := Option.some.inj hs
  exact ⟨_, rfl, howned 0xB 0 [2, 0, 1] (by decide +kernel), by decide +kernel⟩

end Torpor
