import Torpor.Capabilities.Attenuation

/-!
# Revocation Is Final

What a sequence of operations leaves of a capability: identifiers are never handed out
twice, a capability never changes while it lives, and once it is gone it stays gone. With the
derivation tree this makes a revocation final for everything that was derived from the
revoked capability.

## Main results

* `CapabilityStore.Persists.of_run`: what a run leaves of the capabilities it starts from.
* `CapabilityStore.nodup_allocations`: no identifier is handed out twice.
* `derivation_tree_sound`: the tree of every reachable store, and what `check` accepts.
-/

namespace Torpor

open Machine

namespace CapabilityStore

variable {s t : CapabilityStore} {op : CapOp} {ops : List CapOp}

/-- The identifier that an operation hands out. -/
def allocated (s : CapabilityStore) : CapOp → Option CapabilityId
  | .grantRoot nowMs owner permissions resource =>
      some (s.grantRoot nowMs owner permissions resource).1
  | .delegate nowMs sourceId fromAgent toAgent permissions resource =>
      (s.delegate nowMs sourceId fromAgent toAgent permissions resource).1.toOption
  | .revoke _ => none
  | .revokeOwnedAfter _ _ _ => none

/-- The identifiers that a run hands out, in order. -/
def allocations (s : CapabilityStore) : List CapOp → List CapabilityId
  | [] => []
  | op :: ops => (s.allocated op).toList ++ ((s.step op).map (·.allocations ops)).getD []

/-! ### What a run leaves -/

/-- `t` is a later store than `s`: of the capabilities that `s` has handed out, those that
live in `t` lived in `s` and are unchanged. -/
structure Persists (s t : CapabilityStore) : Prop where
  nextId_le : s.nextId ≤ t.nextId
  get_of : ∀ id c, id < s.nextId → t.get id = some c → s.get id = some c

theorem Persists.refl (s : CapabilityStore) : s.Persists s :=
  ⟨le_rfl, fun _ _ _ h => h⟩

theorem Persists.trans {u : CapabilityStore} (h : s.Persists t) (h' : t.Persists u) :
    s.Persists u where
  nextId_le := h.nextId_le.trans h'.nextId_le
  get_of id c hid hc := by
    have hidt : id < t.nextId := hid.trans_le h.nextId_le
    exact h.get_of id c hid (h'.get_of id c hidt hc)

theorem Persists.of_remains (h : t.Remains s) : s.Persists t :=
  ⟨h.nextId_eq.ge, fun id c _ hc => h.get_of id c hc⟩

/-- A new capability under the next identifier leaves the others alone. -/
theorem persists_insert (s : CapabilityStore) (c : Capability)
    (children : AList fun _ : CapabilityId => List CapabilityId) :
    s.Persists ⟨s.caps.insert s.nextId c, children, s.nextId + 1⟩ where
  nextId_le := Nat.le_succ _
  get_of id c' hid hc := by
    rwa [get_insert, if_neg hid.ne] at hc

theorem Persists.of_step (ht : s.TreeInv) (hs : s.step op = some t) : s.Persists t := by
  cases op with
  | grantRoot nowMs owner permissions resource =>
      obtain rfl := Option.some.inj hs
      exact persists_insert s _ _
  | delegate nowMs sourceId fromAgent toAgent permissions resource =>
      obtain rfl := Option.some.inj hs
      cases hr : (s.delegate nowMs sourceId fromAgent toAgent permissions resource).1 with
      | error e =>
          rw [delegate_eq_error hr]
          exact .refl s
      | ok id =>
          obtain ⟨source, -, -, -, -, heq⟩ := delegate_eq_ok hr
          rw [heq]
          exact persists_insert s _ _
  | revoke id =>
      obtain rfl := Option.some.inj hs
      exact .of_remains (revoke_remains ht id).1
  | revokeOwnedAfter order owner afterTsMs =>
      simp only [step] at hs
      split_ifs at hs with hperm
      obtain rfl := Option.some.inj hs
      exact .of_remains (revokeOwnedAfter_remains ht order owner afterTsMs).1

/-- What a run leaves of the capabilities it starts from. -/
theorem Persists.of_run (ht : s.TreeInv) (hrun : run step s ops = some t) :
    t.TreeInv ∧ s.Persists t := by
  have hkept : ∀ (u : CapabilityStore) op u', u.TreeInv ∧ s.Persists u → u.step op = some u' →
      u'.TreeInv ∧ s.Persists u' := by
    rintro u op u' ⟨hu, hpers⟩ hstep
    exact ⟨hu.step hstep, hpers.trans (.of_step hu hstep)⟩
  exact run_invariant hkept ⟨ht, .refl s⟩ hrun

/-! ### Identifiers -/

/-- An operation hands out the next identifier, and moves on. -/
theorem allocated_eq_some {id : CapabilityId} (h : s.allocated op = some id)
    (hs : s.step op = some t) : id = s.nextId ∧ t.nextId = s.nextId + 1 := by
  cases op with
  | grantRoot nowMs owner permissions resource =>
      obtain rfl := Option.some.inj hs
      exact ⟨(Option.some.inj h).symm, rfl⟩
  | delegate nowMs sourceId fromAgent toAgent permissions resource =>
      obtain rfl := Option.some.inj hs
      cases hr : (s.delegate nowMs sourceId fromAgent toAgent permissions resource).1 with
      | error e => simp [allocated, hr, Except.toOption] at h
      | ok id' =>
          obtain ⟨source, -, -, -, rfl, heq⟩ := delegate_eq_ok hr
          obtain rfl : s.nextId = id := by simpa [allocated, hr, Except.toOption] using h
          exact ⟨rfl, by rw [heq]⟩
  | revoke id' => cases h
  | revokeOwnedAfter order owner afterTsMs => cases h

theorem allocated_eq_none (hs : s.step op = none) : s.allocated op = none := by
  cases op with
  | revokeOwnedAfter order owner afterTsMs => rfl
  | _ => cases hs

/-- The identifiers of a run increase, from the next identifier of its first store on. -/
theorem allocations_sorted (ht : s.TreeInv) (ops : List CapOp) :
    (s.allocations ops).Pairwise (· < ·) ∧ ∀ id ∈ s.allocations ops, s.nextId ≤ id := by
  induction ops generalizing s with
  | nil => exact ⟨.nil, fun id hid => by cases hid⟩
  | cons op ops ih =>
      cases hs : s.step op with
      | none =>
          have hnil : s.allocations (op :: ops) = [] := by
            simp [allocations, allocated_eq_none hs, hs]
          rw [hnil]
          exact ⟨.nil, fun id hid => by cases hid⟩
      | some t =>
          obtain ⟨hsorted, hle⟩ := ih (ht.step hs)
          have hnext := (Persists.of_step ht hs).nextId_le
          cases ha : s.allocated op with
          | none =>
              simp only [allocations, ha, hs, Option.toList_none, List.nil_append,
                Option.map_some, Option.getD_some]
              exact ⟨hsorted, fun id hid => hnext.trans (hle id hid)⟩
          | some id =>
              obtain ⟨rfl, hsucc⟩ := allocated_eq_some ha hs
              simp only [allocations, ha, hs, Option.toList_some, List.singleton_append,
                Option.map_some, Option.getD_some]
              refine ⟨List.pairwise_cons.mpr ⟨fun id hid => ?_, hsorted⟩, fun id hid => ?_⟩
              · have hnext' := hle id hid
                rw [hsucc] at hnext'
                exact hnext'
              · obtain rfl | hid := List.mem_cons.mp hid
                · exact le_rfl
                · exact hnext.trans (hle id hid)

/-- No identifier is handed out twice. -/
theorem nodup_allocations (ht : s.TreeInv) (ops : List CapOp) : (s.allocations ops).Nodup :=
  (allocations_sorted ht ops).1.imp Nat.ne_of_lt

/-! ### Ancestors -/

/-- The parent of a live capability is live and allows what the capability allows. -/
theorem TreeInv.parent (ht : s.TreeInv) {id p : CapabilityId} {c : Capability}
    (hc : s.get id = some c) (hp : s.ParentOf id p) :
    ∃ cp, s.get p = some cp ∧ cp.permissions.allows c.permissions := by
  obtain ⟨c', hc', hparent⟩ := hp
  obtain rfl : c = c' := Option.some.inj (hc.symm.trans hc')
  obtain ⟨⟨cp, hcp⟩, -⟩ := ht.hooked id c p hc hparent (by simp)
  exact ⟨cp, hcp, ht.permissions_le id c p cp hc hparent hcp⟩

/-- Every ancestor of a live capability is live and allows what the capability allows. -/
theorem TreeInv.ancestor (ht : s.TreeInv) {id a : CapabilityId} {c : Capability}
    (hc : s.get id = some c) (ha : s.Ancestor id a) :
    ∃ ca, s.get a = some ca ∧ ca.permissions.allows c.permissions := by
  induction ha with
  | single hp => exact ht.parent hc hp
  | tail _ hp ih =>
      obtain ⟨cb, hb, hperm⟩ := ih
      obtain ⟨ca, ha, hperm'⟩ := ht.parent hb hp
      exact ⟨ca, ha, Permissions.allows_trans hperm' hperm⟩

/-- A capability that still lives in a later store has the same parent there. -/
theorem Persists.parentOf (ht : s.TreeInv) (h : s.Persists t) {id p : CapabilityId}
    {c : Capability} (hc : t.get id = some c) (hp : s.ParentOf id p) : t.ParentOf id p := by
  obtain ⟨c', hc', hparent⟩ := hp
  have hkept := h.get_of id c (ht.lt_nextId id c' hc') hc
  obtain rfl : c = c' := Option.some.inj (hkept.symm.trans hc')
  exact ⟨c, hc, hparent⟩

/-- A capability that still lives in a later store has the same ancestors there. -/
theorem Persists.ancestor (ht : s.TreeInv) (htt : t.TreeInv) (h : s.Persists t)
    {id a : CapabilityId} {c : Capability} (hc : t.get id = some c) (ha : s.Ancestor id a) :
    t.Ancestor id a := by
  induction ha with
  | single hp => exact .single (h.parentOf ht hc hp)
  | tail _ hp ih =>
      obtain ⟨cb, hb, -⟩ := htt.ancestor hc ih
      exact .tail ih (h.parentOf ht hb hp)

/-- Once an ancestor of a capability is gone, so is the capability, for good. -/
theorem gone_of_ancestor_gone (ht : s.TreeInv) {id a : CapabilityId} {c : Capability}
    (hc : s.get id = some c) (ha : a = id ∨ s.Ancestor id a) {later post : List CapOp}
    {m : CapabilityStore} (hm : run step s later = some m) (hgone : m.get a = none)
    (hpost : run step m post = some t) : t.get id = none := by
  obtain ⟨htm, hsm⟩ := Persists.of_run ht hm
  obtain ⟨-, hmt⟩ := Persists.of_run htm hpost
  have hgone' : m.get id = none := by
    by_contra hlive
    obtain ⟨cm, hcm⟩ := Option.ne_none_iff_exists'.mp hlive
    obtain rfl | ha := ha
    · exact hlive hgone
    · obtain ⟨ca, hca, -⟩ := htm.ancestor hcm (hsm.ancestor ht htm hcm ha)
      simp [hgone] at hca
  by_contra hlive
  obtain ⟨ct, hct⟩ := Option.ne_none_iff_exists'.mp hlive
  have hid : id < m.nextId := (ht.lt_nextId id c hc).trans_le hsm.nextId_le
  have := hmt.get_of id ct hid hct
  simp [hgone'] at this

end CapabilityStore

open CapabilityStore

/-- **The derivation tree.** After any sequence of operations: no identifier was handed out
twice; a live capability with a parent has a live parent of smaller identifier that lists it;
a live capability that a live one lists has it for its parent; permissions never grow along a
derivation; whatever `check` accepts, every ancestor lives and allows; and a capability is
refused for good once it or one of its ancestors is gone. -/
theorem derivation_tree_sound {ops : List CapOp} {s : CapabilityStore}
    (hrun : run CapabilityStore.step .new ops = some s) :
    (CapabilityStore.new.allocations ops).Nodup ∧
    (∀ id c p, s.get id = some c → c.parent = some p →
      (∃ cp, s.get p = some cp) ∧ p < id ∧ ∃ set, s.children.lookup p = some set ∧ id ∈ set) ∧
    (∀ p cp set id c, s.get p = some cp → s.children.lookup p = some set → id ∈ set →
      s.get id = some c → c.parent = some p) ∧
    (∀ id c a ca, s.get id = some c → s.Ancestor id a → s.get a = some ca →
      ca.permissions.allows c.permissions) ∧
    (∀ agent id resource perm, s.check agent id resource perm = true →
      ∀ a, s.Ancestor id a → ∃ ca, s.get a = some ca ∧ ca.permissions.allows perm) ∧
    (∀ id c a, s.get id = some c → (a = id ∨ s.Ancestor id a) →
      ∀ later m, run CapabilityStore.step s later = some m → m.get a = none →
      ∀ post t, run CapabilityStore.step m post = some t →
      ∀ agent resource perm, t.check agent id resource perm = false) := by
  have ht : s.TreeInv := treeInv_run hrun
  refine ⟨nodup_allocations treeInv_new ops, ?_, ?_, ?_, ?_, ?_⟩
  · intro id c p hc hp
    obtain ⟨hlive, hlisted⟩ := ht.hooked id c p hc hp (by simp)
    exact ⟨hlive, ht.parent_lt id c p hc hp, hlisted⟩
  · intro p cp set id c _ hset hid hc
    exact ht.parent_of_listed p set id c hset hid hc
  · intro id c a ca hc ha hca
    obtain ⟨ca', hca', hperm⟩ := ht.ancestor hc ha
    obtain rfl : ca = ca' := Option.some.inj (hca.symm.trans hca')
    exact hperm
  · intro agent id resource perm hcheck a ha
    obtain ⟨c, hc⟩ : ∃ c, s.get id = some c := by
      cases hc : s.get id with
      | none => simp [check, hc] at hcheck
      | some c => exact ⟨c, rfl⟩
    obtain ⟨-, -, hperm⟩ := (check_eq_true hc).mp hcheck
    obtain ⟨ca, hca, hperm'⟩ := ht.ancestor hc ha
    exact ⟨ca, hca, Permissions.allows_trans hperm' hperm⟩
  · intro id c a hc ha later m hm hgone post t hpost agent resource perm
    simp [check, gone_of_ancestor_gone ht hc ha hm hgone hpost]

/-- A capability, one derived from it, and one derived from that. -/
def derivationOps : List CapOp :=
  [.grantRoot 0 0xA ⟨true, true, true, true⟩ ['r'],
    .delegate 1 0 0xA 0xB ⟨true, true, false, true⟩ ['r'],
    .delegate 2 1 0xB 0xC ⟨true, false, false, false⟩ ['r']]

/-- When the first one is revoked, the third one is refused, also after another grant. -/
theorem grandchild_refused :
    ∃ s m t, run CapabilityStore.step .new derivationOps = some s ∧
      s.check 0xC 2 ['r'] ⟨true, false, false, false⟩ = true ∧
      run CapabilityStore.step s [.revoke 0] = some m ∧
      run CapabilityStore.step m [.grantRoot 3 0xA ⟨true, true, true, true⟩ ['r']] = some t ∧
      t.check 0xC 2 ['r'] ⟨true, false, false, false⟩ = false := by
  obtain ⟨s, hs⟩ : ∃ s, run CapabilityStore.step .new derivationOps = some s := ⟨_, rfl⟩
  obtain ⟨-, -, -, -, -, hfinal⟩ := derivation_tree_sound hs
  obtain rfl := Option.some.inj hs
  refine ⟨_, _, _, rfl, by decide, rfl, rfl, ?_⟩
  exact hfinal 2 _ 0 rfl (.inr (.tail (.single ⟨_, rfl, rfl⟩) ⟨_, rfl, rfl⟩)) [.revoke 0] _ rfl
    (by decide +kernel) [.grantRoot 3 0xA ⟨true, true, true, true⟩ ['r']] _ rfl _ _ _

end Torpor
