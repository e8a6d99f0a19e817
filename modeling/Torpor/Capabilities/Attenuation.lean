import Torpor.Capabilities.Tree

/-!
# Attenuation Along Delegations

A capability should never accept more than the capabilities it was derived from. In the
permissions this is what `delegate` checks. In the scope it is not: the resource of a
delegated capability is taken as given, so attenuation holds along a run exactly when every
accepted delegation asked for a resource that its source covers.

## Main results

* `scopeCovers_forest`: scopes nest as the paths of a tree do.
* `attenuated_iff_delegations_covered`: the exact condition, for every run.
* `delegate_escapes_scope`: two operations after which a capability accepts a resource its
  parent does not cover.
-/

namespace Torpor

open Machine

/-! ### Scopes and permissions -/

theorem scopeCovers_iff {cap req : List Char} :
    scopeCovers cap req ↔ req = cap ∨ cap ++ ['/'] <+: req := by
  simp [scopeCovers]

@[simp] theorem scopeCovers_refl (r : List Char) : scopeCovers r r :=
  scopeCovers_iff.mpr (.inl rfl)

/-- Scopes nest. -/
theorem scopeCovers_trans {a b c : List Char} (hab : scopeCovers a b)
    (hbc : scopeCovers b c) : scopeCovers a c := by
  rcases scopeCovers_iff.mp hab with rfl | hab'
  · exact hbc
  · rcases scopeCovers_iff.mp hbc with rfl | hbc'
    · exact hab
    · exact scopeCovers_iff.mpr
        (.inr (hab'.trans ((List.prefix_append b ['/']).trans hbc')))

/-- A scope covers no shorter name, and none of its length but itself. -/
theorem scopeCovers_antisymm {a b : List Char} (hab : scopeCovers a b)
    (hba : scopeCovers b a) : a = b := by
  rcases scopeCovers_iff.mp hab with rfl | hab'
  · rfl
  · rcases scopeCovers_iff.mp hba with rfl | hba'
    · rfl
    · have hlt := hab'.length_le
      have hgt := hba'.length_le
      rw [List.length_append, List.length_singleton] at hlt hgt
      omega

/-- Of two scopes that are followed by a separator in one name, the shorter one covers the
other. -/
theorem scopeCovers_of_start {a b r : List Char} (ha : a ++ ['/'] <+: r)
    (hb : b ++ ['/'] <+: r) (hle : a.length ≤ b.length) : scopeCovers a b := by
  have hprefix : a ++ ['/'] <+: b ++ ['/'] :=
    List.prefix_of_prefix_length_le ha hb (by simpa using hle)
  rcases List.prefix_concat_iff.mp hprefix with heq | hshort
  · rw [List.append_cancel_right heq]
    exact scopeCovers_refl b
  · exact scopeCovers_iff.mpr (.inr hshort)

/-- Two scopes of one resource are on one path. -/
theorem scopeCovers_or_scopeCovers {a b r : List Char} (ha : scopeCovers a r)
    (hb : scopeCovers b r) : scopeCovers a b ∨ scopeCovers b a := by
  rcases scopeCovers_iff.mp ha with rfl | ha'
  · exact .inr hb
  · rcases scopeCovers_iff.mp hb with rfl | hb'
    · exact .inl ha
    · obtain hle | hle := Nat.le_total a.length b.length
      · exact .inl (scopeCovers_of_start ha' hb' hle)
      · exact .inr (scopeCovers_of_start hb' ha' hle)

/-- **Scopes form a forest**: `scope_covers` is an order, and the scopes that cover a resource are
a chain. -/
theorem scopeCovers_forest :
    (∀ a : List Char, scopeCovers a a) ∧
      (∀ a b : List Char, scopeCovers a b → scopeCovers b a → a = b) ∧
      (∀ a b c : List Char, scopeCovers a b → scopeCovers b c → scopeCovers a c) ∧
      ∀ a b r : List Char, scopeCovers a r → scopeCovers b r →
        scopeCovers a b ∨ scopeCovers b a :=
  ⟨scopeCovers_refl, fun _ _ => scopeCovers_antisymm, fun _ _ _ => scopeCovers_trans,
    fun _ _ _ => scopeCovers_or_scopeCovers⟩

theorem Permissions.allows_trans {p q r : Permissions} (hpq : p.allows q)
    (hqr : q.allows r) : p.allows r := by
  obtain ⟨r₁, w₁, x₁, d₁⟩ := p
  obtain ⟨r₂, w₂, x₂, d₂⟩ := q
  obtain ⟨r₃, w₃, x₃, d₃⟩ := r
  simp only [allows, Bool.and_eq_true, Bool.or_eq_true, Bool.not_eq_true'] at *
  refine ⟨⟨⟨?_, ?_⟩, ?_⟩, ?_⟩ <;> grind

namespace CapabilityStore

/-! ### Attenuated stores -/

/-- `p` is the capability that the live capability `id` was derived from. -/
def ParentOf (s : CapabilityStore) (id p : CapabilityId) : Prop :=
  ∃ c, s.get id = some c ∧ c.parent = some p

/-- `a` is reached from `id` by one or more derivation steps. -/
def Ancestor (s : CapabilityStore) : CapabilityId → CapabilityId → Prop :=
  Relation.TransGen s.ParentOf

/-- Whatever `check` accepts for the owner of a capability lies within the scope and the
permissions of all its ancestors, which are live. -/
def Attenuated (s : CapabilityStore) : Prop :=
  ∀ id c resource perm, s.get id = some c → s.check c.owner id resource perm = true →
    ∀ a, s.Ancestor id a →
      ∃ ca, s.get a = some ca ∧ scopeCovers ca.resource resource ∧ ca.permissions.allows perm

/-- A delegation, if it is accepted, asks for a resource that its source covers. -/
def DelegationCovered (s : CapabilityStore) : CapOp → Prop
  | .delegate nowMs sourceId fromAgent toAgent permissions resource =>
      ∀ id source,
        (s.delegate nowMs sourceId fromAgent toAgent permissions resource).1 = .ok id →
        s.get sourceId = some source → scopeCovers source.resource resource
  | _ => True

/-- Every parent covers the resource of its children. -/
def ScopeInv (s : CapabilityStore) : Prop :=
  ∀ id c p cp, s.get id = some c → c.parent = some p → s.get p = some cp →
    scopeCovers cp.resource c.resource

theorem check_eq_true {s : CapabilityStore} {agent : AgentId} {id : CapabilityId}
    {resource : List Char} {perm : Permissions} {c : Capability}
    (hc : s.get id = some c) :
    s.check agent id resource perm = true ↔
      c.owner = agent ∧ scopeCovers c.resource resource ∧ c.permissions.allows perm := by
  simp [check, hc, and_assoc]

/-- Attenuation at each edge is attenuation along every path. -/
theorem attenuated_of_scopeInv {s : CapabilityStore} (ht : s.TreeInv) (hs : s.ScopeInv) :
    s.Attenuated := by
  intro id c resource perm hc hcheck a ha
  obtain ⟨-, hscope, hperm⟩ := (check_eq_true hc).mp hcheck
  -- one edge, from any capability that covers the resource and holds the permissions
  have hedge : ∀ x cx p, s.get x = some cx → scopeCovers cx.resource resource →
      cx.permissions.allows perm → s.ParentOf x p →
      ∃ cp, s.get p = some cp ∧ scopeCovers cp.resource resource ∧
        cp.permissions.allows perm := by
    rintro x cx p hx hxs hxp ⟨cx', hx', hp⟩
    rw [hx] at hx'
    obtain rfl := Option.some.inj hx'
    obtain ⟨⟨cp, hcp⟩, -⟩ := ht.hooked x cx p hx hp (by simp)
    exact ⟨cp, hcp, scopeCovers_trans (hs x cx p cp hx hp hcp) hxs,
      Permissions.allows_trans (ht.permissions_le x cx p cp hx hp hcp) hxp⟩
  induction ha with
  | single hp => exact hedge id c _ hc hscope hperm hp
  | tail _ hp ih =>
      obtain ⟨cb, hb, hbs, hbp⟩ := ih
      exact hedge _ cb _ hb hbs hbp hp

theorem ScopeInv.of_remains {s s' : CapabilityStore} (h : s.ScopeInv)
    (hr : s'.Remains s) : s'.ScopeInv := fun id c p cp hc hp hcp =>
  h id c p cp (hr.get_of id c hc) hp (hr.get_of p cp hcp)

/-- A covered operation keeps the scopes nested. -/
theorem ScopeInv.step {s s' : CapabilityStore} {op : CapOp} (ht : s.TreeInv)
    (h : s.ScopeInv) (hcov : s.DelegationCovered op) (hs : s.step op = some s') :
    s'.ScopeInv := by
  have hfresh : ∀ id c, s.get id = some c → id ≠ s.nextId := fun id c hc =>
    (ht.lt_nextId id c hc).ne
  cases op with
  | grantRoot nowMs owner permissions resource =>
      obtain rfl := Option.some.inj hs
      intro id c p cp hc hp hcp
      simp only [grantRoot, get_insert] at hc hcp
      split_ifs at hc with hid
      · obtain rfl := Option.some.inj hc
        cases hp
      · obtain ⟨⟨cp', hcp'⟩, -⟩ := ht.hooked id c p hc hp (by simp)
        rw [if_neg (hfresh p cp' hcp')] at hcp
        exact h id c p cp hc hp hcp
  | delegate nowMs sourceId fromAgent toAgent permissions resource =>
      obtain rfl := Option.some.inj hs
      cases hr : (s.delegate nowMs sourceId fromAgent toAgent permissions resource).1 with
      | error e => rw [delegate_eq_error hr]; exact h
      | ok id' =>
          obtain ⟨source, hsource, -, -, -, heq⟩ := delegate_eq_ok hr
          rw [heq]
          intro id c p cp hc hp hcp
          rw [get_insert] at hc hcp
          split_ifs at hc with hid
          · obtain rfl := Option.some.inj hc
            obtain rfl := Option.some.inj hp
            rw [if_neg (hfresh _ _ hsource), hsource] at hcp
            obtain rfl := Option.some.inj hcp
            exact hcov id' source hr hsource
          · obtain ⟨⟨cp', hcp'⟩, -⟩ := ht.hooked id c p hc hp (by simp)
            rw [if_neg (hfresh p cp' hcp')] at hcp
            exact h id c p cp hc hp hcp
  | revoke id =>
      obtain rfl := Option.some.inj hs
      exact h.of_remains (revoke_remains ht id).1
  | revokeOwnedAfter order owner afterTsMs =>
      simp only [CapabilityStore.step] at hs
      split_ifs at hs with hperm
      obtain rfl := Option.some.inj hs
      exact h.of_remains (revokeOwnedAfter_remains ht order owner afterTsMs).1

/-- An accepted delegation beyond the scope of its source leaves a store that is not
attenuated: the owner of the new capability may use it on its own resource. -/
theorem delegationCovered_of_attenuated {s s' : CapabilityStore} {op : CapOp}
    (ht : s.TreeInv) (hs : s.step op = some s') (h : s'.Attenuated) :
    s.DelegationCovered op := by
  cases op with
  | grantRoot _ _ _ _ => trivial
  | revoke _ => trivial
  | revokeOwnedAfter _ _ _ => trivial
  | delegate nowMs sourceId fromAgent toAgent permissions resource =>
      intro id source hr hsource
      obtain rfl := Option.some.inj hs
      obtain ⟨source', hsource', -, -, rfl, heq⟩ := delegate_eq_ok hr
      rw [heq] at h
      rw [hsource] at hsource'
      obtain rfl := Option.some.inj hsource'
      have hchild := get_insert s s.nextId
        ⟨s.nextId, toAgent, permissions, resource, some sourceId, nowMs⟩
        (addChild s.children sourceId s.nextId) (s.nextId + 1) s.nextId
      rw [if_pos rfl] at hchild
      obtain ⟨ca, hca, hcov, -⟩ := h s.nextId _ resource ⟨false, false, false, false⟩ hchild
        ((check_eq_true hchild).mpr ⟨rfl, scopeCovers_refl _, rfl⟩) sourceId
        (.single ⟨_, hchild, rfl⟩)
      rw [get_insert, if_neg (ht.lt_nextId _ _ hsource).ne, hsource] at hca
      obtain rfl := Option.some.inj hca
      exact hcov

theorem scopeInv_new : new.ScopeInv := by
  intro id c p cp hc
  simp [get, new] at hc

end CapabilityStore

open CapabilityStore

/-- **Attenuation, exactly.** Along a run of the store from its creation, every capability
of every state reached accepts only what all its ancestors accept, if and only if every
accepted delegation of the run asked for a resource that its source covers. -/
theorem attenuated_iff_delegations_covered (ops : List CapOp) :
    (∀ pre post s, ops = pre ++ post → run CapabilityStore.step .new pre = some s →
      s.Attenuated) ↔
    Along CapabilityStore.step DelegationCovered .new ops := by
  constructor
  · intro hatt
    have hstuck : ∀ (s : CapabilityStore) op, s.step op = none → s.DelegationCovered op := by
      intro s op hs
      cases op with
      | delegate _ _ _ _ _ _ => cases hs
      | _ => trivial
    have htree : ∀ (s : CapabilityStore) op s', s.TreeInv → s.step op = some s' →
        s'.TreeInv := fun _ _ _ ht hstep => ht.step hstep
    exact along_of_always htree
      (fun _ _ _ ht hstep h => delegationCovered_of_attenuated ht hstep h) hstuck
      treeInv_new hatt
  · rintro hcov pre post s rfl hrun
    have hkeep : ∀ (s : CapabilityStore) op s', s.TreeInv ∧ s.ScopeInv →
        DelegationCovered s op → s.step op = some s' → s'.TreeInv ∧ s'.ScopeInv :=
      fun _ _ _ hinv hc hstep => ⟨hinv.1.step hstep, hinv.2.step hinv.1 hc hstep⟩
    have hinv := run_invariant_along hkeep ⟨treeInv_new, scopeInv_new⟩ hcov.left hrun
    exact attenuated_of_scopeInv hinv.1 hinv.2

/-- The owner of a capability on `store/A` delegates one on `store/B`. -/
def escapeOps : List CapOp :=
  [.grantRoot 0 0xA ⟨true, true, true, true⟩ ['s', 't', 'o', 'r', 'e', '/', 'A'],
    .delegate 1 0 0xA 0xB ⟨true, true, false, false⟩ ['s', 't', 'o', 'r', 'e', '/', 'B']]

/-- `delegate` accepts it, and the store it leaves is not attenuated. -/
theorem delegate_escapes_scope :
    ∃ s, run CapabilityStore.step .new escapeOps = some s ∧ ¬ s.Attenuated := by
  refine ⟨_, rfl, fun h => ?_⟩
  obtain ⟨ca, hca, hcov, -⟩ := h 1 _ ['s', 't', 'o', 'r', 'e', '/', 'B']
    ⟨true, true, false, false⟩ rfl (by decide) 0 (.single ⟨_, rfl, rfl⟩)
  obtain rfl := Option.some.inj hca
  revert hcov
  decide

end Torpor
