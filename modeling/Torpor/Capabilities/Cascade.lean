import Torpor.Capabilities.Revocation

/-!
# The Cascade of a Revocation

Which capabilities a revocation removes: those it is asked for and everything derived from
them, and no others. The worklist of `revoke` starts with a victim, and a round adds only the
children of a capability that goes, so whatever goes is a victim or derived from one; nothing
derived from a victim is left, since that would be an orphan.

## Main results

* `CapabilityStore.revokeLoop_removes`, `CapabilityStore.revokeLoop_clears`: the worklist
  removes nothing that is not derived from its members, and all of them.
* `CapabilityStore.revokeOwnedAfter_get_eq_none`: what `revoke_owned_after` removes.
-/

namespace Torpor

namespace CapabilityStore

variable {s t : CapabilityStore} {id : CapabilityId} {c : Capability}

/-- The capability is one of the given ones or derived from one of them. -/
def Under (s : CapabilityStore) (victims : List CapabilityId) (id : CapabilityId) : Prop :=
  ∃ v ∈ victims, v = id ∨ s.Ancestor id v

/-- What is derived from a capability goes where it goes. -/
theorem Under.child {victims : List CapabilityId} {p : CapabilityId} (h : s.Under victims p)
    (hparent : s.ParentOf id p) : s.Under victims id := by
  obtain ⟨v, hv, rfl | hanc⟩ := h
  · exact ⟨v, hv, .inr (.single hparent)⟩
  · exact ⟨v, hv, .inr (.head hparent hanc)⟩

/-- A list of children holds nothing but capabilities derived from the parent. -/
theorem TreeInv.parentOf_of_listed (ht : s.TreeInv) {p : CapabilityId} {set : List CapabilityId}
    (hset : s.children.lookup p = some set) (hid : id ∈ set) (hc : s.get id = some c) :
    s.ParentOf id p :=
  ⟨c, hc, ht.parent_of_listed p set id c hset hid hc⟩

/-! ### The worklist -/

/-- Everything in the worklist that lived in `s` goes with the victims. -/
def Doomed (s : CapabilityStore) (victims toRevoke : List CapabilityId) : Prop :=
  ∀ id ∈ toRevoke, ∀ c, s.get id = some c → s.Under victims id

/-- A round of the worklist puts the children of a capability that goes in its place. -/
theorem Doomed.push (ht : s.TreeInv) (hrem : t.Remains s) {victims rest : List CapabilityId}
    {current : CapabilityId} (h : s.Doomed victims (current :: rest)) :
    s.Doomed victims (((t.children.lookup current).getD []).reverse ++ rest) := by
  intro id hid c hc
  rcases List.mem_append.mp hid with hid | hid
  · cases hset : t.children.lookup current with
    | none => simp [hset] at hid
    | some set =>
        obtain ⟨set', hset', hsub⟩ := hrem.children_of current set hset
        rw [hset] at hid
        have hparent := ht.parentOf_of_listed hset' (hsub (List.mem_reverse.mp hid)) hc
        obtain ⟨cp, hcp, -⟩ := ht.parent hc hparent
        exact (h current List.mem_cons_self cp hcp).child hparent
  · exact h id (List.mem_cons_of_mem _ hid) c hc

/-- What the worklist removes goes with the victims. -/
theorem revokeLoop_removes (ht : s.TreeInv) {victims : List CapabilityId} (t : CapabilityStore)
    (count : ℕ) (toRevoke : List CapabilityId) :
    t.Remains s → s.Doomed victims toRevoke → ∀ id c, t.get id = some c →
      (revokeLoop t count toRevoke).2.get id = none → s.Under victims id := by
  refine revokeLoop_induction (P := fun t toRevoke t' => t.Remains s →
    s.Doomed victims toRevoke → ∀ id c, t.get id = some c → t'.get id = none →
      s.Under victims id) ?_ ?_ t count toRevoke
  · intro t _ _ id c hc hgone
    simp [hgone] at hc
  · intro t current rest t' ih hrem hdoomed id c hc hgone
    by_cases hid : id = current
    · subst hid
      exact hdoomed id List.mem_cons_self c (hrem.get_of id c hc)
    · exact ih ((remains_erase t current).trans hrem) (hdoomed.push ht hrem) id c
        (get_erase_eq_some.mpr ⟨hid, hc⟩) hgone

/-- Nothing in the worklist is left. -/
theorem revokeLoop_clears (t : CapabilityStore) (count : ℕ) (toRevoke : List CapabilityId) :
    (revokeLoop t count toRevoke).2.Remains t ∧
      ∀ id ∈ toRevoke, (revokeLoop t count toRevoke).2.get id = none := by
  refine revokeLoop_induction (P := fun t toRevoke t' => t'.Remains t ∧
    ∀ id ∈ toRevoke, t'.get id = none) (fun t => ⟨.refl t, by simp⟩) ?_ t count toRevoke
  rintro t current rest t' ⟨hrem, hclear⟩
  refine ⟨hrem.trans (remains_erase t current), fun id hid => ?_⟩
  rcases List.mem_cons.mp hid with rfl | hid
  · by_contra hlive
    obtain ⟨c, hc⟩ := Option.ne_none_iff_exists'.mp hlive
    exact (get_erase_eq_some.mp (hrem.get_of id c hc)).1 rfl
  · exact hclear id (List.mem_append_right _ hid)

/-! ### The victims -/

/-- The tree of which a victim is unhooked. -/
theorem revokeVictim_eq (s : CapabilityStore) (victim : CapabilityId × Option CapabilityId) :
    ∃ t : CapabilityStore, t.Remains s ∧ (∀ id, t.get id = s.get id) ∧
      s.revokeVictim victim = t.revoke victim.1 := by
  obtain ⟨id, parent⟩ := victim
  unfold revokeVictim
  cases parent with
  | none => exact ⟨s, .refl s, fun _ => rfl, rfl⟩
  | some p =>
      cases hset : s.children.lookup p with
      | none => exact ⟨s, .refl s, fun _ => rfl, by simp only [hset]⟩
      | some siblings =>
          exact ⟨_, remains_unhook hset id, fun _ => rfl, by simp only [hset]⟩

/-- A round of `revoke_owned_after` removes the victim, and nothing that is not derived from
it. -/
theorem revokeVictim_removes (ht : s.TreeInv) {victims : List CapabilityId}
    (hrem : t.Remains s) {victim : CapabilityId × Option CapabilityId}
    (hvictim : victim.1 ∈ victims) :
    (t.revokeVictim victim).2.get victim.1 = none ∧
      ∀ id c, t.get id = some c → (t.revokeVictim victim).2.get id = none →
        s.Under victims id := by
  obtain ⟨u, hu, hsame, heq⟩ := t.revokeVictim_eq victim
  rw [heq]
  refine ⟨(revokeLoop_clears u 0 [victim.1]).2 _ List.mem_cons_self, fun id c hc hgone => ?_⟩
  refine revokeLoop_removes ht u 0 [victim.1] (hu.trans hrem) ?_ id c ((hsame id).trans hc) hgone
  intro id' hid' c' _
  obtain rfl := List.mem_singleton.mp hid'
  exact ⟨_, hvictim, .inl rfl⟩

/-- The loop of `revoke_owned_after` removes all victims, and nothing that is not derived from
one. -/
theorem revokeVictims_removes (ht : s.TreeInv) {roots : List CapabilityId}
    (victims : List (CapabilityId × Option CapabilityId)) (n : ℕ) :
    ∀ t : CapabilityStore, t.TreeInv → t.Remains s → (∀ v ∈ victims, v.1 ∈ roots) →
      (∀ v ∈ victims, (revokeVictims n t victims).2.get v.1 = none) ∧
        ∀ id c, t.get id = some c → (revokeVictims n t victims).2.get id = none →
          s.Under roots id := by
  induction victims generalizing n with
  | nil =>
      intro t _ _ _
      refine ⟨by simp, fun id c hc hgone => ?_⟩
      simp [revokeVictims, hc] at hgone
  | cons v vs ih =>
      intro t htree hrem hroots
      obtain ⟨hgone, hremoved⟩ := revokeVictim_removes ht hrem (hroots v List.mem_cons_self)
      obtain ⟨hround, hhooked⟩ := revokeVictim_remains htree v
      have htree' := htree.of_remains hround hhooked
      obtain ⟨hrest, hremoved'⟩ := ih (n + (t.revokeVictim v).1) (t.revokeVictim v).2 htree'
        (hround.trans hrem) fun w hw => hroots w (List.mem_cons_of_mem _ hw)
      have hlater := (revokeVictims_remains vs htree' (n + (t.revokeVictim v).1)).1
      refine ⟨fun w hw => ?_, fun id c hc hleft => ?_⟩
      · rcases List.mem_cons.mp hw with rfl | hw
        · by_contra hlive
          obtain ⟨c, hc⟩ := Option.ne_none_iff_exists'.mp hlive
          have hback := hlater.get_of _ c hc
          simp [hgone] at hback
        · exact hrest w hw
      · cases hmiddle : (t.revokeVictim v).2.get id with
        | none => exact hremoved id c hc hmiddle
        | some c' => exact hremoved' id c' hmiddle hleft

/-- The loop of `revoke_owned_after` leaves no victim, in any store. -/
theorem revokeVictims_clears (victims : List (CapabilityId × Option CapabilityId)) (n : ℕ)
    (s : CapabilityStore) : (revokeVictims n s victims).2.Remains s ∧
      ∀ v ∈ victims, (revokeVictims n s victims).2.get v.1 = none := by
  induction victims generalizing n s with
  | nil => exact ⟨.refl s, by simp⟩
  | cons v vs ih =>
      obtain ⟨hrest, hcleared⟩ := ih (n + (s.revokeVictim v).1) (s.revokeVictim v).2
      obtain ⟨u, hu, -, heq⟩ := s.revokeVictim_eq v
      obtain ⟨hround, hgone⟩ := revokeLoop_clears u 0 [v.1]
      refine ⟨hrest.trans (heq ▸ hround.trans hu), fun w hw => ?_⟩
      rcases List.mem_cons.mp hw with rfl | hw
      · by_contra hlive
        obtain ⟨c, hc⟩ := Option.ne_none_iff_exists'.mp hlive
        have hback := hrest.get_of _ c hc
        rw [heq] at hback
        exact absurd ((hgone _ List.mem_cons_self).symm.trans hback) (by simp)
      · exact hcleared w hw

/-- The victims of `revoke_owned_after`. -/
theorem mem_victims {order : List CapabilityId} (hperm : order.Perm s.caps.keys)
    {owner : AgentId} {afterTsMs : ℕ} {v : CapabilityId} :
    v ∈ (s.victims order owner afterTsMs).map Prod.fst ↔
      ∃ c, s.get v = some c ∧ c.owner = owner ∧ afterTsMs < c.issuedAtMs := by
  simp only [victims, List.mem_map, List.mem_filterMap, Prod.exists, exists_and_right,
    exists_eq_right]
  constructor
  · rintro ⟨parent, id, -, hid⟩
    split at hid
    · cases hid
    · rename_i c hc
      split_ifs at hid with hvictim
      obtain ⟨rfl, -⟩ := Prod.mk.inj (Option.some.inj hid)
      exact ⟨c, hc, hvictim⟩
  · rintro ⟨c, hc, howner, hlater⟩
    have hkey : v ∈ s.caps.keys :=
      AList.mem_keys.mp (AList.lookup_isSome.mp (by simp [show s.caps.lookup v = some c from hc]))
    refine ⟨c.parent, v, hperm.mem_iff.mpr hkey, ?_⟩
    rw [hc]
    exact if_pos ⟨howner, hlater⟩

/-- **The cascade.** `revoke_owned_after` removes a capability if and only if the owner holds it,
or one that it is derived from, and was given that one after the time. -/
theorem revokeOwnedAfter_get_eq_none (ht : s.TreeInv) {order : List CapabilityId}
    (hperm : order.Perm s.caps.keys) {owner : AgentId} {afterTsMs : ℕ} (hc : s.get id = some c) :
    (s.revokeOwnedAfter order owner afterTsMs).2.get id = none ↔
      ∃ v cv, (v = id ∨ s.Ancestor id v) ∧ s.get v = some cv ∧ cv.owner = owner ∧
        afterTsMs < cv.issuedAtMs := by
  have hroots : ∀ v ∈ s.victims order owner afterTsMs,
      v.1 ∈ (s.victims order owner afterTsMs).map Prod.fst :=
    fun v hv => List.mem_map_of_mem hv
  obtain ⟨hcleared, hremoved⟩ := revokeVictims_removes ht _ 0 s ht (.refl s) hroots
  constructor
  · intro hgone
    obtain ⟨v, hv, hunder⟩ := hremoved id c hc hgone
    obtain ⟨cv, hcv, howner, hlater⟩ := (mem_victims hperm).mp hv
    exact ⟨v, cv, hunder, hcv, howner, hlater⟩
  · rintro ⟨v, cv, hunder, hcv, howner, hlater⟩
    obtain ⟨w, hw, rfl⟩ := List.mem_map.mp ((mem_victims hperm).mpr ⟨cv, hcv, howner, hlater⟩)
    have hgone := hcleared w hw
    rcases hunder with rfl | hanc
    · exact hgone
    · by_contra hlive
      obtain ⟨c', hc'⟩ := Option.ne_none_iff_exists'.mp hlive
      -- a capability that is left has all its ancestors
      have htree := ht.revokeOwnedAfter order owner afterTsMs
      have hrem := (revokeOwnedAfter_remains ht order owner afterTsMs).1
      have hkept := (Persists.of_remains hrem).ancestor ht htree hc' hanc
      obtain ⟨ca, hca, -⟩ := htree.ancestor hc' hkept
      exact absurd (hgone.symm.trans hca) (by simp)

end CapabilityStore

end Torpor
