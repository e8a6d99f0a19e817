import Mathlib.Tactic.Common
import Torpor.Capabilities.Basic
import Torpor.Lib.Machine

/-!
# The Derivation Tree

What a removal leaves behind, and the invariant of the derivation tree: every live
capability has a live parent of smaller identifier, which lists it among its children, and
no more permissions than that parent.

## Main results

* `CapabilityStore.revokeLoop_induction`, `CapabilityStore.revokeLoop_spec`: the worklist of
  `revoke` leaves no orphan behind.
* `CapabilityStore.TreeInv.step`, `CapabilityStore.treeInv_run`: every operation, and so
  every sequence of operations, keeps the tree.
-/

namespace Torpor

open Machine

/-! ### What a removal leaves -/

namespace CapabilityStore

/-- `s'` is what a removal left of `s`: no capability changed, none was added. -/
structure Remains (s' s : CapabilityStore) : Prop where
  get_of : ∀ id c, s'.get id = some c → s.get id = some c
  children_of : ∀ p set', s'.children.lookup p = some set' →
    ∃ set, s.children.lookup p = some set ∧ set' ⊆ set
  nextId_eq : s'.nextId = s.nextId

theorem Remains.refl (s : CapabilityStore) : s.Remains s where
  get_of _ _ h := h
  children_of _ set h := ⟨set, h, fun _ hx => hx⟩
  nextId_eq := rfl

theorem Remains.trans {s s' s'' : CapabilityStore} (h : s''.Remains s') (h' : s'.Remains s) :
    s''.Remains s where
  get_of id c hc := h'.get_of id c (h.get_of id c hc)
  children_of p set'' hset := by
    obtain ⟨set', hset', hsub⟩ := h.children_of p set'' hset
    obtain ⟨set, hset, hsub'⟩ := h'.children_of p set' hset'
    exact ⟨set, hset, fun _ hx => hsub' (hsub hx)⟩
  nextId_eq := h.nextId_eq.trans h'.nextId_eq

/-- Every live capability outside the worklist has a live parent that lists it. -/
def Hooked (s : CapabilityStore) (toRevoke : List CapabilityId) : Prop :=
  ∀ id c p, s.get id = some c → c.parent = some p → id ∉ toRevoke →
    (∃ cp, s.get p = some cp) ∧ ∃ set, s.children.lookup p = some set ∧ id ∈ set

theorem get_erase_eq_some {s : CapabilityStore} {current id : CapabilityId}
    {children : AList fun _ : CapabilityId => List CapabilityId} {c : Capability} :
    CapabilityStore.get { s with caps := s.caps.erase current, children } id = some c ↔
      id ≠ current ∧ s.get id = some c := by
  unfold get
  by_cases h : id = current
  · subst h
    simp
  · simp [AList.lookup_erase_ne h, h]

/-- One round of the worklist. -/
theorem remains_erase (s : CapabilityStore) (current : CapabilityId) :
    CapabilityStore.Remains
      { s with caps := s.caps.erase current, children := s.children.erase current } s where
  get_of id c h := (get_erase_eq_some.mp h).2
  children_of p set h := by
    by_cases hp : p = current
    · subst hp
      simp at h
    · rw [AList.lookup_erase_ne hp] at h
      exact ⟨set, h, fun _ hx => hx⟩
  nextId_eq := rfl

theorem Hooked.erase {s : CapabilityStore} {current : CapabilityId}
    {rest : List CapabilityId} (h : s.Hooked (current :: rest)) :
    CapabilityStore.Hooked
      { s with caps := s.caps.erase current, children := s.children.erase current }
      (((s.children.lookup current).getD []).reverse ++ rest) := by
  intro id c p hc hp hid
  simp only [List.mem_append, List.mem_reverse, not_or] at hid
  obtain ⟨hne, hc⟩ := get_erase_eq_some.mp hc
  obtain ⟨⟨cp, hcp⟩, set, hset, hmem⟩ := h id c p hc hp (by simp [hne, hid.2])
  -- a child of the removed capability is in the worklist now
  have hpne : p ≠ current := by
    rintro rfl
    rw [hset] at hid
    exact hid.1 hmem
  exact ⟨⟨cp, get_erase_eq_some.mpr ⟨hpne, hcp⟩⟩, set,
    by rw [AList.lookup_erase_ne hpne]; exact hset, hmem⟩

/-- Without a children set there is nothing to erase. -/
theorem erase_of_lookup_eq_none {s : CapabilityStore} {current : CapabilityId}
    (h : s.children.lookup current = none) : s.children.erase current = s.children := by
  refine AList.ext (List.kerase_of_notMem_keys ?_)
  exact fun hm => AList.lookup_eq_none.mp h (AList.mem_keys.mpr hm)

/-- **Rule for the worklist.** What holds at its end and, if it holds after a round, holds before
it, holds of the store that the worklist starts from and the one it leaves. -/
theorem revokeLoop_induction
    {P : CapabilityStore → List CapabilityId → CapabilityStore → Prop}
    (hnil : ∀ s, P s [] s)
    (hround : ∀ (s : CapabilityStore) current rest t,
      P { s with caps := s.caps.erase current, children := s.children.erase current }
        (((s.children.lookup current).getD []).reverse ++ rest) t → P s (current :: rest) t)
    (s : CapabilityStore) (count : ℕ) (toRevoke : List CapabilityId) :
    P s toRevoke (revokeLoop s count toRevoke).2 := by
  induction s, count, toRevoke using revokeLoop.induct with
  | case1 s count =>
      rw [revokeLoop]
      exact hnil s
  | case2 s count current rest count' hnone ih =>
      rw [revokeLoop]
      split
      · refine hround s current rest _ ?_
        rw [hnone, erase_of_lookup_eq_none hnone]
        exact ih
      · rename_i hsome
        rw [hnone] at hsome
        cases hsome
  | case3 s count current rest count' set hset ih =>
      rw [revokeLoop]
      split
      · rename_i hnone
        rw [hset] at hnone
        cases hnone
      · rename_i set' hset'
        obtain rfl := Option.some.inj (hset.symm.trans hset')
        refine hround s current rest _ ?_
        rw [hset]
        exact ih

/-- What the worklist leaves, and that it leaves no orphan. -/
theorem revokeLoop_spec (s : CapabilityStore) (count : ℕ) (toRevoke : List CapabilityId) :
    s.Hooked toRevoke → (revokeLoop s count toRevoke).2.Remains s ∧
      (revokeLoop s count toRevoke).2.Hooked [] := by
  refine revokeLoop_induction (P := fun s toRevoke t => s.Hooked toRevoke →
    t.Remains s ∧ t.Hooked []) (fun s h => ⟨.refl s, h⟩) ?_ s count toRevoke
  intro s current rest t ih h
  obtain ⟨hrem, hhooked⟩ := ih h.erase
  exact ⟨hrem.trans (remains_erase s current), hhooked⟩

/-! ### The derivation tree -/

/-- The derivation tree of a reachable store. -/
structure TreeInv (s : CapabilityStore) : Prop where
  lt_nextId : ∀ id c, s.get id = some c → id < s.nextId
  listed_lt_nextId : ∀ p set, s.children.lookup p = some set → ∀ id ∈ set, id < s.nextId
  parent_lt : ∀ id c p, s.get id = some c → c.parent = some p → p < id
  hooked : s.Hooked []
  parent_of_listed : ∀ p set id c, s.children.lookup p = some set → id ∈ set →
    s.get id = some c → c.parent = some p
  permissions_le : ∀ id c p cp, s.get id = some c → c.parent = some p →
    s.get p = some cp → cp.permissions.allows c.permissions

theorem treeInv_new : new.TreeInv where
  lt_nextId id c h := by simp [get, new] at h
  listed_lt_nextId p set h := by simp [new] at h
  parent_lt id c p h := by simp [get, new] at h
  hooked id c p h := by simp [get, new] at h
  parent_of_listed p set id c h := by simp [new] at h
  permissions_le id c p cp h := by simp [get, new] at h

/-- A removal that leaves no orphan keeps the tree. -/
theorem TreeInv.of_remains {s s' : CapabilityStore} (h : s.TreeInv) (hr : s'.Remains s)
    (hh : s'.Hooked []) : s'.TreeInv where
  lt_nextId id c hc := hr.nextId_eq ▸ h.lt_nextId id c (hr.get_of id c hc)
  listed_lt_nextId p set' hset id hid := by
    obtain ⟨set, hset', hsub⟩ := hr.children_of p set' hset
    exact hr.nextId_eq ▸ h.listed_lt_nextId p set hset' id (hsub hid)
  parent_lt id c p hc hp := h.parent_lt id c p (hr.get_of id c hc) hp
  hooked := hh
  parent_of_listed p set' id c hset hid hc := by
    obtain ⟨set, hset', hsub⟩ := hr.children_of p set' hset
    exact h.parent_of_listed p set id c hset' (hsub hid) (hr.get_of id c hc)
  permissions_le id c p cp hc hp hcp :=
    h.permissions_le id c p cp (hr.get_of id c hc) hp (hr.get_of p cp hcp)

theorem Hooked.mono {s : CapabilityStore} {l l' : List CapabilityId} (h : s.Hooked l)
    (hsub : l ⊆ l') : s.Hooked l' :=
  fun id c p hc hp hid => h id c p hc hp fun hm => hid (hsub hm)

theorem revoke_remains {s : CapabilityStore} (h : s.TreeInv) (id : CapabilityId) :
    (s.revoke id).2.Remains s ∧ (s.revoke id).2.Hooked [] :=
  revokeLoop_spec s 0 [id] (h.hooked.mono (by simp))

theorem TreeInv.revoke {s : CapabilityStore} (h : s.TreeInv) (id : CapabilityId) :
    (s.revoke id).2.TreeInv :=
  h.of_remains (revoke_remains h id).1 (revoke_remains h id).2

/-- Unhooking a victim leaves everything else in place. -/
theorem remains_unhook {s : CapabilityStore} {p : CapabilityId}
    {siblings : List CapabilityId} (hset : s.children.lookup p = some siblings)
    (id : CapabilityId) :
    CapabilityStore.Remains
      { s with children := s.children.insert p (siblings.filter (· ≠ id)) } s where
  get_of _ _ h := h
  children_of q set h := by
    by_cases hq : q = p
    · subst hq
      rw [AList.lookup_insert] at h
      obtain rfl := Option.some.inj h
      exact ⟨siblings, hset, fun x hx => (List.mem_filter.mp hx).1⟩
    · rw [AList.lookup_insert_ne hq] at h
      exact ⟨set, h, fun _ hx => hx⟩
  nextId_eq := rfl

theorem hooked_unhook {s : CapabilityStore} {p : CapabilityId}
    {siblings : List CapabilityId} (hset : s.children.lookup p = some siblings)
    (id : CapabilityId) (h : s.Hooked []) :
    CapabilityStore.Hooked
      { s with children := s.children.insert p (siblings.filter (· ≠ id)) } [id] := by
  intro x c q hc hq hx
  obtain ⟨hlive, set, hset', hmem⟩ := h x c q hc hq (by simp)
  refine ⟨hlive, ?_⟩
  by_cases hqp : q = p
  · subst hqp
    rw [hset] at hset'
    obtain rfl := Option.some.inj hset'
    exact ⟨_, AList.lookup_insert _, List.mem_filter.mpr ⟨hmem, by simpa using hx⟩⟩
  · exact ⟨set, by rw [AList.lookup_insert_ne hqp]; exact hset', hmem⟩

theorem revokeVictim_remains {s : CapabilityStore} (h : s.TreeInv)
    (victim : CapabilityId × Option CapabilityId) :
    (s.revokeVictim victim).2.Remains s ∧ (s.revokeVictim victim).2.Hooked [] := by
  obtain ⟨id, parent⟩ := victim
  unfold revokeVictim
  cases parent with
  | none => exact revoke_remains h id
  | some p =>
      cases hset : s.children.lookup p with
      | none => simpa only [hset] using revoke_remains h id
      | some siblings =>
          simp only [hset]
          obtain ⟨h1, h2⟩ := revokeLoop_spec _ 0 [id] (hooked_unhook hset id h.hooked)
          exact ⟨h1.trans (remains_unhook hset id), h2⟩

theorem revokeVictims_remains (victims : List (CapabilityId × Option CapabilityId))
    {s : CapabilityStore} (h : s.TreeInv) (n : ℕ) :
    (revokeVictims n s victims).2.Remains s ∧ (revokeVictims n s victims).2.Hooked [] := by
  induction victims generalizing s n with
  | nil => exact ⟨.refl s, h.hooked⟩
  | cons v vs ih =>
      obtain ⟨h1, h2⟩ := revokeVictim_remains h v
      obtain ⟨h3, h4⟩ := ih (h.of_remains h1 h2) (n + (s.revokeVictim v).1)
      exact ⟨h3.trans h1, h4⟩

theorem revokeOwnedAfter_remains {s : CapabilityStore} (h : s.TreeInv)
    (order : List CapabilityId) (owner : AgentId) (afterTsMs : ℕ) :
    (s.revokeOwnedAfter order owner afterTsMs).2.Remains s ∧
      (s.revokeOwnedAfter order owner afterTsMs).2.Hooked [] :=
  revokeVictims_remains _ h 0

theorem TreeInv.revokeOwnedAfter {s : CapabilityStore} (h : s.TreeInv)
    (order : List CapabilityId) (owner : AgentId) (afterTsMs : ℕ) :
    (s.revokeOwnedAfter order owner afterTsMs).2.TreeInv :=
  h.of_remains (revokeOwnedAfter_remains h order owner afterTsMs).1
    (revokeOwnedAfter_remains h order owner afterTsMs).2

/-! ### Granting and delegating -/

theorem get_insert (s : CapabilityStore) (id : CapabilityId) (c : Capability)
    (children : AList fun _ : CapabilityId => List CapabilityId) (n x : CapabilityId) :
    CapabilityStore.get ⟨s.caps.insert id c, children, n⟩ x =
      if x = id then some c else s.get x :=
  AList.lookup_insert_ite s.caps id c x

theorem lookup_addChild (children : AList fun _ : CapabilityId => List CapabilityId)
    (source child p : CapabilityId) :
    (addChild children source child).lookup p =
      if p = source then some (if child ∈ (children.lookup source).getD [] then
        (children.lookup source).getD [] else child :: (children.lookup source).getD [])
      else children.lookup p := by
  unfold addChild
  split_ifs with h h'
  · subst h
    simp [h']
  · subst h
    simp [h']
  · rw [AList.lookup_insert_ne h]

/-- What `addChild` lists: what was listed, and the new child. -/
theorem mem_lookup_addChild {children : AList fun _ : CapabilityId => List CapabilityId}
    {source child p : CapabilityId} {set : List CapabilityId}
    (hset : (addChild children source child).lookup p = some set) {id : CapabilityId}
    (hid : id ∈ set) :
    (p = source ∧ id = child) ∨ ∃ set', children.lookup p = some set' ∧ id ∈ set' := by
  rw [lookup_addChild] at hset
  split_ifs at hset with hp hmem
  · subst hp
    cases hc : children.lookup p with
    | none => simp [hc] at hmem
    | some set' =>
        rw [hc] at hset
        obtain rfl := Option.some.inj hset
        exact .inr ⟨_, rfl, hid⟩
  · subst hp
    obtain rfl := Option.some.inj hset
    rcases List.mem_cons.mp hid with rfl | hid
    · exact .inl ⟨rfl, rfl⟩
    · cases hc : children.lookup p with
      | none => simp [hc] at hid
      | some set' => exact .inr ⟨set', rfl, by simpa [hc] using hid⟩
  · exact .inr ⟨set, hset, hid⟩

/-- The set that `addChild` adds the child to. -/
theorem exists_lookup_addChild (children : AList fun _ : CapabilityId => List CapabilityId)
    (source child : CapabilityId) :
    ∃ set, (addChild children source child).lookup source = some set ∧ child ∈ set := by
  rw [lookup_addChild, if_pos rfl]
  refine ⟨_, rfl, ?_⟩
  split_ifs with hmem
  · exact hmem
  · exact List.mem_cons_self

/-- `addChild` takes nobody off a list. -/
theorem subset_lookup_addChild {children : AList fun _ : CapabilityId => List CapabilityId}
    {p : CapabilityId} {set : List CapabilityId} (hset : children.lookup p = some set)
    (source child : CapabilityId) :
    ∃ set', (addChild children source child).lookup p = some set' ∧ set ⊆ set' := by
  rw [lookup_addChild]
  split_ifs with hp hmem
  · subst hp
    exact ⟨_, rfl, by simp [hset]⟩
  · subst hp
    exact ⟨_, rfl, by simp [hset]⟩
  · exact ⟨set, hset, List.Subset.refl _⟩

/-- A new capability under the next identifier, with the lists of children that go with it:
it is listed by its parent only, which lives and has its permissions. -/
theorem TreeInv.insert {s : CapabilityStore} (h : s.TreeInv) {new : Capability}
    {children : AList fun _ : CapabilityId => List CapabilityId}
    (hlisted : ∀ p set, children.lookup p = some set → ∀ id ∈ set,
      (new.parent = some p ∧ id = s.nextId) ∨ ∃ set', s.children.lookup p = some set' ∧ id ∈ set')
    (hkept : ∀ p set, s.children.lookup p = some set →
      ∃ set', children.lookup p = some set' ∧ set ⊆ set')
    (hparent : ∀ p, new.parent = some p →
      (∃ cp, s.get p = some cp ∧ cp.permissions.allows new.permissions) ∧
        ∃ set, children.lookup p = some set ∧ s.nextId ∈ set) :
    TreeInv ⟨s.caps.insert s.nextId new, children, s.nextId + 1⟩ := by
  have hold : ∀ id c, s.get id = some c →
      CapabilityStore.get ⟨s.caps.insert s.nextId new, children, s.nextId + 1⟩ id = some c := by
    intro id c hc
    rw [get_insert, if_neg (h.lt_nextId id c hc).ne, hc]
  constructor
  · intro id c hc
    rw [get_insert] at hc
    split_ifs at hc with hid
    · simp [hid]
    · exact Nat.lt_succ_of_lt (h.lt_nextId id c hc)
  · intro p set hset id hid
    rcases hlisted p set hset id hid with ⟨-, rfl⟩ | ⟨set', hset', hid'⟩
    · exact Nat.lt_succ_self _
    · exact Nat.lt_succ_of_lt (h.listed_lt_nextId p set' hset' id hid')
  · intro id c p hc hp
    rw [get_insert] at hc
    split_ifs at hc with hid
    · obtain rfl := Option.some.inj hc
      obtain ⟨⟨cp, hcp, -⟩, -⟩ := hparent p hp
      exact hid ▸ h.lt_nextId p cp hcp
    · exact h.parent_lt id c p hc hp
  · intro id c p hc hp _
    rw [get_insert] at hc
    split_ifs at hc with hid
    · obtain rfl := Option.some.inj hc
      obtain ⟨⟨cp, hcp, -⟩, hset⟩ := hparent p hp
      exact ⟨⟨cp, hold p cp hcp⟩, hid ▸ hset⟩
    · obtain ⟨⟨cp, hcp⟩, set, hset, hmem⟩ := h.hooked id c p hc hp (by simp)
      obtain ⟨set', hset', hsub⟩ := hkept p set hset
      exact ⟨⟨cp, hold p cp hcp⟩, set', hset', hsub hmem⟩
  · intro p set id c hset hid hc
    rcases hlisted p set hset id hid with ⟨hp, rfl⟩ | ⟨set', hset', hid'⟩
    · rw [get_insert, if_pos rfl] at hc
      obtain rfl := Option.some.inj hc
      exact hp
    · rw [get_insert, if_neg (h.listed_lt_nextId p set' hset' id hid').ne] at hc
      exact h.parent_of_listed p set' id c hset' hid' hc
  · intro id c p cp hc hp hcp
    rw [get_insert] at hc
    split_ifs at hc with hid
    · obtain rfl := Option.some.inj hc
      obtain ⟨⟨cp', hcp', hle⟩, -⟩ := hparent p hp
      obtain rfl := Option.some.inj ((hold p cp' hcp').symm.trans hcp)
      exact hle
    · obtain ⟨⟨cp', hcp'⟩, -⟩ := h.hooked id c p hc hp (by simp)
      obtain rfl := Option.some.inj ((hold p cp' hcp').symm.trans hcp)
      exact h.permissions_le id c p cp' hc hp hcp'

theorem TreeInv.grantRoot {s : CapabilityStore} (h : s.TreeInv) (nowMs : ℕ)
    (owner : AgentId) (permissions : Permissions) (resource : List Char) :
    (s.grantRoot nowMs owner permissions resource).2.TreeInv := by
  refine h.insert ?_ ?_ ?_
  · exact fun p set hset id hid => .inr ⟨set, hset, hid⟩
  · exact fun p set hset => ⟨set, hset, List.Subset.refl _⟩
  · exact fun p hp => by cases hp

theorem allows_of_not_escalates {asked source : Permissions}
    (h : escalates asked source = false) : source.allows asked := by
  obtain ⟨r, w, x, d⟩ := asked
  obtain ⟨r', w', x', d'⟩ := source
  revert h
  cases r <;> cases w <;> cases x <;> cases d <;> simp [escalates, Permissions.allows]

/-- What an accepted delegation does. -/
theorem delegate_eq_ok {s : CapabilityStore} {nowMs : ℕ} {sourceId id : CapabilityId}
    {fromAgent toAgent : AgentId} {permissions : Permissions} {resource : List Char}
    (h : (s.delegate nowMs sourceId fromAgent toAgent permissions resource).1 = .ok id) :
    ∃ source, s.get sourceId = some source ∧ source.owner = fromAgent ∧
      source.permissions.allows permissions ∧ id = s.nextId ∧
      (s.delegate nowMs sourceId fromAgent toAgent permissions resource).2 =
        ⟨s.caps.insert s.nextId ⟨s.nextId, toAgent, permissions, resource, some sourceId, nowMs⟩,
          addChild s.children sourceId s.nextId, s.nextId + 1⟩ := by
  unfold delegate at h ⊢
  cases hs : s.get sourceId with
  | none => simp [hs] at h
  | some source =>
      simp only [hs] at h ⊢
      split_ifs at h ⊢ with howner hdel hesc
      refine ⟨source, rfl, not_not.mp howner, allows_of_not_escalates (by simpa using hesc), ?_,
        rfl⟩
      exact (Except.ok.inj h).symm

/-- A refused delegation changes nothing. -/
theorem delegate_eq_error {s : CapabilityStore} {nowMs : ℕ} {sourceId : CapabilityId}
    {fromAgent toAgent : AgentId} {permissions : Permissions} {resource : List Char}
    {e : CapError}
    (h : (s.delegate nowMs sourceId fromAgent toAgent permissions resource).1 = .error e) :
    (s.delegate nowMs sourceId fromAgent toAgent permissions resource).2 = s := by
  unfold delegate at h ⊢
  cases hs : s.get sourceId with
  | none => rfl
  | some source =>
      simp only [hs] at h ⊢
      split_ifs at h ⊢ with howner hdel hesc
      all_goals rfl

theorem TreeInv.delegate_ok {s : CapabilityStore} (h : s.TreeInv) {sourceId : CapabilityId}
    {source : Capability} (hs : s.get sourceId = some source) {permissions : Permissions}
    (hle : source.permissions.allows permissions) (owner : AgentId) (resource : List Char)
    (nowMs : ℕ) :
    TreeInv ⟨s.caps.insert s.nextId
        ⟨s.nextId, owner, permissions, resource, some sourceId, nowMs⟩,
      addChild s.children sourceId s.nextId, s.nextId + 1⟩ := by
  refine h.insert ?_ ?_ ?_
  · intro p set hset id hid
    rcases mem_lookup_addChild hset hid with ⟨rfl, rfl⟩ | hbefore
    · exact .inl ⟨rfl, rfl⟩
    · exact .inr hbefore
  · exact fun p set hset => subset_lookup_addChild hset sourceId s.nextId
  · intro p hp
    obtain rfl := Option.some.inj hp
    exact ⟨⟨source, hs, hle⟩, exists_lookup_addChild s.children sourceId s.nextId⟩

theorem TreeInv.delegate {s : CapabilityStore} (h : s.TreeInv) (nowMs : ℕ)
    (sourceId : CapabilityId) (fromAgent toAgent : AgentId) (permissions : Permissions)
    (resource : List Char) :
    (s.delegate nowMs sourceId fromAgent toAgent permissions resource).2.TreeInv := by
  cases hr : (s.delegate nowMs sourceId fromAgent toAgent permissions resource).1 with
  | error e => rw [delegate_eq_error hr]; exact h
  | ok id =>
      obtain ⟨source, hs, -, hle, -, heq⟩ := delegate_eq_ok hr
      rw [heq]
      exact h.delegate_ok hs hle toAgent resource nowMs

end CapabilityStore

/-! ### Runs -/

theorem CapabilityStore.TreeInv.step {s s' : CapabilityStore} {op : CapOp} (h : s.TreeInv)
    (hs : s.step op = some s') : s'.TreeInv := by
  cases op with
  | grantRoot nowMs owner permissions resource =>
      obtain rfl := Option.some.inj hs
      exact h.grantRoot nowMs owner permissions resource
  | delegate nowMs sourceId fromAgent toAgent permissions resource =>
      obtain rfl := Option.some.inj hs
      exact h.delegate nowMs sourceId fromAgent toAgent permissions resource
  | revoke id =>
      obtain rfl := Option.some.inj hs
      exact h.revoke id
  | revokeOwnedAfter order owner afterTsMs =>
      simp only [CapabilityStore.step] at hs
      split_ifs at hs with hperm
      obtain rfl := Option.some.inj hs
      exact h.revokeOwnedAfter order owner afterTsMs

/-- Every sequence of operations keeps the derivation tree. -/
theorem CapabilityStore.treeInv_run {s : CapabilityStore} {ops : List CapOp}
    (h : run CapabilityStore.step .new ops = some s) : s.TreeInv :=
  run_invariant (fun _ _ _ hinv hstep => hinv.step hstep) treeInv_new h

end Torpor
