import Torpor.Sel4.Protection

/-!
# The Regions of the JIT Pool

`wasmtime_mmap_new` hands out what lies behind `POOL_BUMP`, from the next start of a page on. The
regions that it hands out share no page, so that the protection of one is changed without touching
another one, as long as `aligned + size` is a number of 64 bits. A sum that wraps around is a small
number again: the call then hands out what is not in the pool and sets `POOL_BUMP` back.

## Main results

* `Runtime.mmapNew_refused`: a call that returns 1 leaves the runtime as it is.
* `separate_always_iff`: the regions of a run are separate exactly if no sum in it wraps around.
-/

namespace Torpor.JitPool

/-- What `wasmtime_mmap_new` hands out. -/
structure Region where
  ptr : ℕ
  size : ℕ
  deriving DecidableEq

/-- The page has an address of the region. -/
def Region.Has (g : Region) (i : ℕ) : Prop := Meets g.ptr g.size i

namespace Runtime

/-- The next start of a page from `POOL_BUMP` on. -/
def aligned (r : Runtime) : ℕ := (r.poolBump + pageSize - 1) / pageSize * pageSize

/-- The region that a call of the platform stores through `ret`. -/
def granted (r : Runtime) : Call → Option Region
  | .mmapNew size _ =>
      if (r.mmapNew size.toNat).result = 0 then some ⟨jitPoolVaBase + r.aligned, size.toNat⟩
      else none
  | .mprotect _ _ _ => none
  | .crashInRemapWindow => none

end Runtime

/-- The runtime with the regions that it has handed out. -/
structure Session where
  runtime : Runtime
  regions : List Region

namespace Session

def step (s : Session) (call : Call) : Option Session :=
  (s.runtime.step call).map fun r => ⟨r, s.regions ++ (s.runtime.granted call).toList⟩

/-- The supervisor has started the runtime. -/
def init (v : VSpace) : Session := ⟨start v, []⟩

/-- The call does not add up to more than 64 bits, or the runtime has suspended itself. -/
def Fits (s : Session) : Call → Prop
  | .mmapNew size _ => s.runtime.suspended = true ∨ s.runtime.aligned + size.toNat < 2 ^ 64
  | .mprotect _ _ _ => True
  | .crashInRemapWindow => True

end Session

/-- Whatever protection is asked for within the region, the entries of the pages of the other one
stay. -/
def LeavesAlone (r : Runtime) (g g' : Region) : Prop :=
  ∀ (ptr size : UInt64) (protFlags : UInt32), g.ptr ≤ ptr.toNat →
    ptr.toNat + size.toNat ≤ g.ptr + g.size → ∀ i, g'.Has i →
    (r.vspace.invokeAll (r.invocations (.mprotect ptr size protFlags))).entries (pageVa i) =
      r.vspace.entries (pageVa i)

/-- The regions are in the pool, no page meets two of them, and the protection of one is changed
without touching another one. -/
structure Session.Separate (s : Session) : Prop where
  inside : ∀ g ∈ s.regions,
    jitPoolVaBase ≤ g.ptr ∧ g.ptr + g.size ≤ jitPoolVaBase + jitPoolPages * pageSize
  disjoint : s.regions.Pairwise fun g g' => ∀ i, ¬(g.Has i ∧ g'.Has i)
  protection : s.regions.Pairwise fun g g' =>
    LeavesAlone s.runtime g g' ∧ LeavesAlone s.runtime g' g

/-! ### One call -/

namespace Runtime

/-- A call that returns 1 leaves `POOL_BUMP` as it is. -/
theorem mmapNew_refused {r : Runtime} {size : ℕ} (h : (r.mmapNew size).result = 1) :
    (r.mmapNew size).poolBump = r.poolBump := by
  simp only [mmapNew] at h ⊢
  split_ifs at h ⊢
  · rfl
  · cases h

/-- A call without a wrapped sum is refused, or hands out what it then reserves. -/
theorem mmapNew_cases {r : Runtime} {size : ℕ} (h : r.aligned + size < 2 ^ 64) :
    ((r.mmapNew size).result = 1 ∧ (r.mmapNew size).poolBump = r.poolBump) ∨
      (r.mmapNew size).result = 0 ∧ (r.mmapNew size).poolBump = r.aligned + size ∧
        r.aligned + size ≤ jitPoolPages * pageSize := by
  rw [aligned] at h
  simp only [mmapNew, aligned, Nat.mod_eq_of_lt h]
  split_ifs with hfull
  · exact .inl ⟨rfl, rfl⟩
  · exact .inr ⟨rfl, rfl, Nat.le_of_not_lt hfull⟩

/-- A sum that wraps around is taken for one that is in the pool. -/
theorem mmapNew_wrapped {r : Runtime} {size : ℕ} (hbump : r.poolBump ≤ jitPoolPages * pageSize)
    (hsize : size < 2 ^ 64) (h : 2 ^ 64 ≤ r.aligned + size) : (r.mmapNew size).result = 0 := by
  have hwrapped : (r.aligned + size) % 2 ^ 64 ≤ jitPoolPages * pageSize := by
    simp only [aligned, jitPoolPages, pageSize] at *
    omega
  rw [aligned] at hwrapped
  simp only [mmapNew, if_neg (Nat.not_lt.mpr hwrapped)]

theorem poolBump_le_aligned (r : Runtime) : r.poolBump ≤ r.aligned := by
  simp only [aligned, pageSize]
  omega

theorem poolBump_mmapNew_le {r : Runtime} (size : ℕ)
    (hbump : r.poolBump ≤ jitPoolPages * pageSize) :
    (r.mmapNew size).poolBump ≤ jitPoolPages * pageSize := by
  simp only [mmapNew]
  split_ifs with hfull
  · exact hbump
  · exact Nat.le_of_not_lt hfull

/-- No other call moves `POOL_BUMP`. -/
theorem poolBump_effect_le {r : Runtime} (call : Call)
    (hbump : r.poolBump ≤ jitPoolPages * pageSize) :
    (r.effect call).poolBump ≤ jitPoolPages * pageSize := by
  cases call with
  | mmapNew size protFlags => exact poolBump_mmapNew_le size.toNat hbump
  | mprotect ptr size protFlags =>
      simp only [effect, mprotect]
      split_ifs <;> exact hbump
  | crashInRemapWindow =>
      simp only [effect, crashInRemapWindow]
      split_ifs <;> exact hbump

/-- What is behind the next start of a page shares no page with what is before `POOL_BUMP`. -/
theorem not_has_of_below {r : Runtime} {g : Region} {size i : ℕ}
    (hbelow : g.ptr + g.size ≤ jitPoolVaBase + r.poolBump) :
    ¬(g.Has i ∧ Region.Has ⟨jitPoolVaBase + r.aligned, size⟩ i) := by
  rintro ⟨⟨a, _, ha, hpage, -⟩, b, hb, -, -, hlast⟩
  simp only [aligned, pageVa, pageSize] at *
  omega

end Runtime

/-- A change of protection within a region touches the pages of the region only. -/
theorem leavesAlone_of_disjoint {r : Runtime} (h : VSpace.Mapped r.vspace) {g g' : Region}
    (hlow : jitPoolVaBase ≤ g.ptr)
    (hhigh : g.ptr + g.size ≤ jitPoolVaBase + jitPoolPages * pageSize)
    (hdisjoint : ∀ i, ¬(g.Has i ∧ g'.Has i)) : LeavesAlone r g g' := by
  intro ptr size protFlags hptr hend i hi
  have hrange : jitPoolVaBase ≤ ptr.toNat := Nat.le_trans hlow hptr
  obtain ⟨-, hothers, -⟩ := Runtime.mprotect_entries h hrange (Nat.le_trans hend hhigh) protFlags
  refine hothers _ fun j hj heq => hdisjoint i ⟨?_, hi⟩
  obtain rfl := pageVa_inj heq
  obtain ⟨a, ha, ha', hpage⟩ := hj.meets hrange
  exact ⟨a, by omega, by omega, hpage⟩

/-! ### Runs -/

namespace Session

/-- What holds between two calls if no sum has wrapped around. -/
structure Kept (v₀ : VSpace) (s : Session) : Prop where
  runtime : Runtime.Inv v₀ s.runtime
  bump : s.runtime.poolBump ≤ jitPoolPages * pageSize
  below : ∀ g ∈ s.regions,
    jitPoolVaBase ≤ g.ptr ∧ g.ptr + g.size ≤ jitPoolVaBase + s.runtime.poolBump
  disjoint : s.regions.Pairwise fun g g' => ∀ i, ¬(g.Has i ∧ g'.Has i)

theorem kept_init (v₀ : VSpace) : Kept v₀ (init v₀) :=
  ⟨Runtime.inv_start v₀, Nat.zero_le _, by simp [init], .nil⟩

theorem Kept.separate {v₀ : VSpace} {s : Session} (h : Kept v₀ s) : s.Separate := by
  have hinside : ∀ g ∈ s.regions, jitPoolVaBase ≤ g.ptr ∧
      g.ptr + g.size ≤ jitPoolVaBase + jitPoolPages * pageSize := fun g hg => by
    have := h.below g hg
    have := h.bump
    omega
  refine ⟨hinside, h.disjoint, h.disjoint.imp_of_mem fun {g g'} hg hg' hdisjoint => ⟨?_, ?_⟩⟩
  · exact leavesAlone_of_disjoint h.runtime.pool.mapped (hinside g hg).1 (hinside g hg).2 hdisjoint
  · exact leavesAlone_of_disjoint h.runtime.pool.mapped (hinside g' hg').1 (hinside g' hg').2
      fun i hi => hdisjoint i hi.symm

theorem step_eq_some {s s' : Session} {call : Call} (h : s.step call = some s') :
    s.runtime.suspended = false ∧ s.runtime.step call = some s'.runtime ∧
      s'.runtime.poolBump = (s.runtime.effect call).poolBump ∧
      s'.regions = s.regions ++ (s.runtime.granted call).toList := by
  obtain ⟨r, hr, rfl⟩ := Option.map_eq_some_iff.mp h
  have hstep := hr
  simp only [Runtime.step] at hr
  split_ifs at hr with hsuspended
  obtain rfl := Option.some.inj hr
  exact ⟨Bool.eq_false_iff.mpr hsuspended, hstep, rfl, rfl⟩

/-- A call without a wrapped sum keeps the regions apart. -/
theorem Kept.step {v₀ : VSpace} {s s' : Session} {call : Call} (h : Kept v₀ s)
    (hfits : s.Fits call) (hstep : s.step call = some s') : Kept v₀ s' := by
  obtain ⟨hrunning, hruntime, hbump, hregions⟩ := step_eq_some hstep
  have hinv := h.runtime.step hruntime
  have hpool : s'.runtime.poolBump ≤ jitPoolPages * pageSize := by
    rw [hbump]
    exact Runtime.poolBump_effect_le call h.bump
  -- Without a new region it is enough that `POOL_BUMP` stays.
  have hsame : s.runtime.granted call = none →
      (s.runtime.effect call).poolBump = s.runtime.poolBump → Kept v₀ s' := by
    intro hnone heq
    rw [hnone, Option.toList_none, List.append_nil] at hregions
    refine ⟨hinv, hpool, ?_, ?_⟩
    · rw [hregions, hbump, heq]
      exact h.below
    · rw [hregions]
      exact h.disjoint
  cases call with
  | mprotect ptr size protFlags =>
      refine hsame rfl ?_
      simp only [Runtime.effect, Runtime.mprotect]
      split_ifs <;> rfl
  | crashInRemapWindow =>
      refine hsame rfl ?_
      simp only [Runtime.effect, Runtime.crashInRemapWindow]
      split_ifs <;> rfl
  | mmapNew size protFlags =>
      have hsum : s.runtime.aligned + size.toNat < 2 ^ 64 := by
        refine hfits.resolve_left fun hsuspended => ?_
        rw [hrunning] at hsuspended
        cases hsuspended
      rcases Runtime.mmapNew_cases hsum with ⟨hresult, heq⟩ | ⟨hresult, heq, hle⟩
      · exact hsame (by rw [Runtime.granted, hresult]; rfl) heq
      · have hnew : s'.regions =
            s.regions ++ [⟨jitPoolVaBase + s.runtime.aligned, size.toNat⟩] := by
          rw [hregions, Runtime.granted, if_pos hresult, Option.toList_some]
        have hend : s'.runtime.poolBump = s.runtime.aligned + size.toNat := hbump.trans heq
        have hgrows := Runtime.poolBump_le_aligned s.runtime
        refine ⟨hinv, hpool, fun g hg => ?_, ?_⟩
        · rw [hnew] at hg
          rw [hend]
          rcases List.mem_append.mp hg with hg | hg
          · have := h.below g hg
            omega
          · rw [List.mem_singleton.mp hg]
            exact ⟨Nat.le_add_right _ _, Nat.le_of_eq (Nat.add_assoc _ _ _)⟩
        · rw [hnew]
          refine List.pairwise_append.mpr ⟨h.disjoint, List.pairwise_singleton _ _, ?_⟩
          intro g hg g' hg' i
          rw [List.mem_singleton.mp hg']
          exact Runtime.not_has_of_below (h.below g hg).2

/-- A region that is in the pool was not handed out by a wrapped sum. -/
theorem fits_of_separate {s s' : Session} {call : Call}
    (hbump : s.runtime.poolBump ≤ jitPoolPages * pageSize) (hstep : s.step call = some s')
    (hseparate : s'.Separate) : s.Fits call := by
  obtain ⟨-, -, -, hregions⟩ := step_eq_some hstep
  cases call with
  | mprotect ptr size protFlags => trivial
  | crashInRemapWindow => trivial
  | mmapNew size protFlags =>
      by_contra hwrapped
      have hsum : 2 ^ 64 ≤ s.runtime.aligned + size.toNat := by
        have := not_or.mp hwrapped
        omega
      have hresult := Runtime.mmapNew_wrapped hbump size.toNat_lt hsum
      have hinside := hseparate.inside ⟨jitPoolVaBase + s.runtime.aligned, size.toNat⟩ (by
        rw [hregions, Runtime.granted, if_pos hresult]
        simp)
      simp only [jitPoolVaBase, jitPoolPages, pageSize] at hinside
      omega

end Session

/-- In every run of the platform the regions are separate after each call exactly if no call adds
up to more than 64 bits; and a call that returns 1 leaves `POOL_BUMP` as it is. -/
theorem separate_always_iff (v₀ : VSpace) (calls : List Call) :
    ((∀ pre post s, calls = pre ++ post →
        Machine.run Session.step (Session.init v₀) pre = some s → s.Separate) ↔
      Machine.Along Session.step Session.Fits (Session.init v₀) calls) ∧
    ∀ (r : Runtime) (size : UInt64) (protFlags : UInt32),
      (r.effect (.mmapNew size protFlags)).result = 1 →
        (r.effect (.mmapNew size protFlags)).poolBump = r.poolBump := by
  refine ⟨⟨fun hall => ?_, ?_⟩, fun r size _ h => Runtime.mmapNew_refused h⟩
  · refine @Machine.along_of_always _ _ _
      (fun s : Session => s.runtime.poolBump ≤ jitPoolPages * pageSize) _ _ ?_ ?_ ?_ _ _
      (Nat.zero_le _) hall
    · intro s call s' hbump hstep
      rw [(Session.step_eq_some hstep).2.2.1]
      exact Runtime.poolBump_effect_le call hbump
    · exact fun s call s' hbump hstep hseparate =>
        Session.fits_of_separate hbump hstep hseparate
    · intro s call hstuck
      have hsuspended : s.runtime.suspended = true := by
        by_contra hrunning
        simp [Session.step, Runtime.step, hrunning] at hstuck
      cases call with
      | mmapNew size protFlags => exact .inl hsuspended
      | mprotect ptr size protFlags => trivial
      | crashInRemapWindow => trivial
  · rintro halong pre post s rfl hrun
    have hkept := Machine.run_invariant_along (fun _ _ _ h hfits hstep =>
      Session.Kept.step h hfits hstep) (Session.kept_init v₀) halong.left hrun
    exact hkept.separate

/-- Two ordinary requests with one between them that wraps around to 0. -/
def wrappedCalls : List Call :=
  [.mmapNew 4096 0x3, .mmapNew 0xFFFFFFFFFFFFF000 0x3, .mmapNew 4096 0x3]

/-- The first page is handed out a second time. -/
theorem wrapped_not_separate :
    ¬∀ pre post s, wrappedCalls = pre ++ post →
      Machine.run Session.step (Session.init blankVSpace) pre = some s → s.Separate := by
  intro hall
  obtain ⟨s, hrun, hregions⟩ : ∃ s,
      Machine.run Session.step (Session.init blankVSpace) wrappedCalls = some s ∧
        s.regions = [⟨jitPoolVaBase, 4096⟩, ⟨jitPoolVaBase + 4096, 0xFFFFFFFFFFFFF000⟩,
          ⟨jitPoolVaBase, 4096⟩] := ⟨_, rfl, by decide +kernel⟩
  have hdisjoint := (hall wrappedCalls [] s rfl hrun).disjoint
  rw [hregions] at hdisjoint
  have hpair := (List.pairwise_cons.mp hdisjoint).1 ⟨jitPoolVaBase, 4096⟩ (by simp) 0
  have hhas : Region.Has ⟨jitPoolVaBase, 4096⟩ 0 := ⟨jitPoolVaBase, by decide⟩
  exact hpair ⟨hhas, hhas⟩

end Torpor.JitPool
