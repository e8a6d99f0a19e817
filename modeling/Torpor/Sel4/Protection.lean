import Torpor.Sel4.JitPool

/-!
# The Protection That `wasmtime_mprotect` Gives

Wasmtime asks for a protection with three flags, and the platform has two states for a page of the
JIT pool, writable or executable. What is asked for with the flag for execution is given as an
executable page, and everything else as a writable one, also what is asked for without the flag
for writing: `want_write` is computed and not used.

## Main results

* `Runtime.mprotect_entries`: exactly which entries of the page table a call changes, and to what.
* `Runtime.mprotect_given_iff`: what was asked for is given exactly if it includes writing or
  execution.
-/

namespace Torpor.JitPool

/-- `PROT_WRITE`. -/
def protWrite : UInt32 := 0x2

/-- The page has an address of the range. -/
def Meets (ptr size i : ℕ) : Prop :=
  ∃ a, ptr ≤ a ∧ a < ptr + size ∧ pageVa i ≤ a ∧ a < pageVa i + pageSize

namespace VSpace

/-- A frame of the pool is mapped at its own page, or nowhere. -/
def Mapped (v : VSpace) : Prop :=
  ∀ i < jitPoolPages, v.mappedAt (frameCap i) = none ∨ v.mappedAt (frameCap i) = some (pageVa i)

def Executable (v : VSpace) (i : ℕ) : Prop :=
  ∃ e, v.entries (pageVa i) = some e ∧ e.executeNever = false

def Writable (v : VSpace) (i : ℕ) : Prop :=
  ∃ e, v.entries (pageVa i) = some e ∧ e.rights = .readWrite

end VSpace

open VSpace (Mapped)

/-- Of the pages that meet the range, those are executable for which execution was asked, and only
those writable for which writing was; every other entry of the page table is as before. -/
structure Given (v v' : VSpace) (ptr size : ℕ) (protFlags : UInt32) : Prop where
  exec : ∀ i < jitPoolPages, Meets ptr size i → (v'.Executable i ↔ protFlags &&& protExec ≠ 0)
  write : ∀ i < jitPoolPages, Meets ptr size i → v'.Writable i → protFlags &&& protWrite ≠ 0
  others : ∀ va, (∀ i < jitPoolPages, Meets ptr size i → va ≠ pageVa i) →
    v'.entries va = v.entries va

/-! ### Ranges -/

/-- The pages that the loop visits. -/
def InLoop (ptr size i : ℕ) : Prop :=
  (ptr - jitPoolVaBase) / pageSize ≤ i ∧
    i < (ptr - jitPoolVaBase) / pageSize + (size + (pageSize - 1)) / pageSize

instance (ptr size i : ℕ) : Decidable (InLoop ptr size i) := inferInstanceAs (Decidable (_ ∧ _))

/-- A page that the loop visits meets the range, wherever in a page this starts. -/
theorem InLoop.meets {ptr size i : ℕ} (hlow : jitPoolVaBase ≤ ptr) (h : InLoop ptr size i) :
    Meets ptr size i := by
  obtain ⟨hstart, hend⟩ := h
  simp only [Meets, pageVa, pageSize] at hstart hend ⊢
  by_cases hfirst : i = (ptr - jitPoolVaBase) / 4096
  · exact ⟨ptr, by omega, by omega, by omega, by omega⟩
  · exact ⟨jitPoolVaBase + i * 4096, by omega, by omega, by omega, by omega⟩

theorem not_meets_empty {ptr i : ℕ} : ¬Meets ptr 0 i := by
  rintro ⟨a, hptr, hend, -, -⟩
  omega

/-- From the start of a page on the loop visits what meets the range. -/
theorem inLoop_iff_meets {ptr size i : ℕ} (hlow : jitPoolVaBase ≤ ptr)
    (haligned : ptr % pageSize = 0) : InLoop ptr size i ↔ Meets ptr size i := by
  refine ⟨InLoop.meets hlow, ?_⟩
  rintro ⟨a, hptr, hend, hpage, hlast⟩
  simp only [InLoop, pageVa, pageSize, jitPoolVaBase] at *
  omega

theorem nextMultipleOfPage_div {size : ℕ} (h : size + pageSize ≤ 2 ^ 64) :
    nextMultipleOfPage size / pageSize = (size + (pageSize - 1)) / pageSize := by
  rw [nextMultipleOfPage]
  split_ifs with haligned
  · simp only [pageSize] at *
    omega
  · have hlt : size + (pageSize - size % pageSize) < 2 ^ 64 := by
      simp only [pageSize] at *
      omega
    rw [Nat.mod_eq_of_lt hlt]
    simp only [pageSize] at *
    omega

/-! ### The remap of one page -/

/-- The entry that a page gets. -/
def pageEntry (i : ℕ) (wantExec : Bool) : PageEntry :=
  if wantExec then ⟨frameCap i, .readOnly, false⟩ else ⟨frameCap i, .readWrite, true⟩

namespace Runtime

/-- The remap of a page sets its entry and no other one. -/
theorem entries_remap {v : VSpace} (h : Mapped v) {i : ℕ} (hi : i < jitPoolPages)
    (wantExec : Bool) (va : ℕ) : (v.invokeAll (remap i wantExec)).entries va =
      if va = pageVa i then some (pageEntry i wantExec) else v.entries va := by
  have hunmapped : va ≠ pageVa i → (v.frameUnmap (frameCap i)).entries va = v.entries va := by
    intro hne
    rcases h i hi with hnone | hsome
    · rw [VSpace.frameUnmap, hnone]
    · simp only [VSpace.frameUnmap, hsome, Function.update_apply]
      rw [if_neg hne]
  by_cases hva : va = pageVa i
  · cases wantExec <;>
      simp [remap, VSpace.invokeAll, VSpace.invoke, VSpace.frameMap, pageEntry, hva]
  · cases wantExec <;>
      simp [remap, VSpace.invokeAll, VSpace.invoke, VSpace.frameMap, hva, hunmapped hva]

theorem mapped_remap {v : VSpace} (h : Mapped v) {i : ℕ} (hi : i < jitPoolPages)
    (wantExec : Bool) : Mapped (v.invokeAll (remap i wantExec)) := by
  intro j hj
  have hunmapped : (v.frameUnmap (frameCap i)).mappedAt (frameCap j) = none ∨
      (v.frameUnmap (frameCap i)).mappedAt (frameCap j) = some (pageVa j) := by
    rcases h i hi with hnone | hsome
    · rw [VSpace.frameUnmap, hnone]
      exact h j hj
    · simp only [VSpace.frameUnmap, hsome, Function.update_apply]
      split_ifs
      · exact .inl rfl
      · exact h j hj
  by_cases hji : j = i
  · cases wantExec <;>
      simp [remap, VSpace.invokeAll, VSpace.invoke, VSpace.frameMap, hji]
  · have hframe : frameCap j ≠ frameCap i := fun heq => hji (frameCap_inj heq)
    cases wantExec <;>
      simpa [remap, VSpace.invokeAll, VSpace.invoke, VSpace.frameMap, Function.update_apply,
        hframe] using hunmapped

theorem invokeAll_append (v : VSpace) (is js : List Invocation) :
    v.invokeAll (is ++ js) = (v.invokeAll is).invokeAll js := List.foldl_append

/-- The loop sets the entries of the pages from the first one on, as many as it is told. -/
theorem entries_mprotectLoop {v : VSpace} (h : Mapped v) (wantExec : Bool) {pageIdx nPages : ℕ}
    (hend : pageIdx + nPages ≤ jitPoolPages) (firstRx : ℕ) :
    (mprotectLoop wantExec pageIdx nPages firstRx).2.1 = 0 ∧
    (∀ va, (∀ i, pageIdx ≤ i → i < pageIdx + nPages → va ≠ pageVa i) →
      (v.invokeAll (mprotectLoop wantExec pageIdx nPages firstRx).1).entries va = v.entries va) ∧
    ∀ i, pageIdx ≤ i → i < pageIdx + nPages →
      (v.invokeAll (mprotectLoop wantExec pageIdx nPages firstRx).1).entries (pageVa i) =
        some (pageEntry i wantExec) := by
  induction nPages generalizing v pageIdx firstRx with
  | zero => exact ⟨rfl, fun va _ => rfl, fun i hle hlt => by omega⟩
  | succ nPages ih =>
      have hpage : pageIdx < jitPoolPages := by omega
      simp only [mprotectLoop, if_neg (Nat.not_le.mpr hpage), invokeAll_append]
      obtain ⟨hresult, hothers, hset⟩ := @ih _ (mapped_remap h hpage wantExec)
        (pageIdx + 1) (by omega)
        (if wantExec = true ∧ firstRx = 0 then pageVa pageIdx else firstRx)
      refine ⟨hresult, fun va hva => ?_, fun i hle hlt => ?_⟩
      · rw [hothers va fun i hi hi' => hva i (by omega) (by omega), entries_remap h hpage,
          if_neg (hva pageIdx (Nat.le_refl _) (by omega))]
      · by_cases hfirst : i = pageIdx
        · subst hfirst
          rw [hothers _ fun j hj _ heq => by have := pageVa_inj heq; omega,
            entries_remap h hpage, if_pos rfl]
        · exact hset i (by omega) (by omega)

/-- A call on a range of the pool ends with 0. It sets the entries of the pages that its loop
visits, executable or writable, and no other ones. -/
theorem mprotect_entries {r : Runtime} (h : Mapped r.vspace) {ptr size : ℕ}
    (hlow : jitPoolVaBase ≤ ptr) (hhigh : ptr + size ≤ jitPoolVaBase + jitPoolPages * pageSize)
    (protFlags : UInt32) :
    (r.mprotect ptr size protFlags).result = 0 ∧
    (∀ va, (∀ i, InLoop ptr size i → va ≠ pageVa i) →
      (r.vspace.invokeAll (r.mprotect ptr size protFlags).invocations).entries va =
        r.vspace.entries va) ∧
    ∀ i, InLoop ptr size i →
      (r.vspace.invokeAll (r.mprotect ptr size protFlags).invocations).entries (pageVa i) =
        some (pageEntry i (protFlags &&& protExec != 0)) := by
  have hdiv : nextMultipleOfPage size / pageSize = (size + (pageSize - 1)) / pageSize := by
    refine nextMultipleOfPage_div ?_
    simp only [jitPoolPages, pageSize] at *
    omega
  by_cases hout : jitPoolVaBase + jitPoolPages * pageSize ≤ ptr
  · have hnone : ∀ i, ¬InLoop ptr size i := fun i hi => by
      obtain rfl : size = 0 := by omega
      have := hi.1
      have := hi.2
      simp only [pageSize] at *
      omega
    rw [mprotect, if_pos (.inr hout)]
    exact ⟨rfl, fun _ _ => rfl, fun i hi => absurd hi (hnone i)⟩
  · have hloop : (ptr - jitPoolVaBase) / pageSize + (size + (pageSize - 1)) / pageSize ≤
        jitPoolPages := by
      simp only [jitPoolPages, pageSize] at *
      omega
    rw [mprotect, if_neg (not_or.mpr ⟨Nat.not_lt.mpr hlow, hout⟩)]
    simp only [hdiv]
    obtain ⟨hresult, hothers, hset⟩ :=
      entries_mprotectLoop h (protFlags &&& protExec != 0) hloop r.firstRxPageVa
    exact ⟨hresult, fun va hva => hothers va fun i hi hi' => hva i ⟨hi, hi'⟩,
      fun i hi => hset i hi.1 hi.2⟩

/-! ### What is given -/

theorem executable_pageEntry {v : VSpace} {i : ℕ} {wantExec : Bool}
    (h : v.entries (pageVa i) = some (pageEntry i wantExec)) :
    v.Executable i ↔ wantExec = true := by
  simp only [VSpace.Executable, h, Option.some.injEq, exists_eq_left', pageEntry]
  cases wantExec <;> simp

theorem writable_pageEntry {v : VSpace} {i : ℕ} {wantExec : Bool}
    (h : v.entries (pageVa i) = some (pageEntry i wantExec)) :
    v.Writable i ↔ wantExec = false := by
  simp only [VSpace.Writable, h, Option.some.injEq, exists_eq_left', pageEntry]
  cases wantExec <;> simp

/-- A call that asks for execution or for writing gives what it asks for. -/
theorem mprotect_given {r : Runtime} (h : Mapped r.vspace) {ptr size : ℕ}
    (haligned : ptr % pageSize = 0) (hlow : jitPoolVaBase ≤ ptr)
    (hhigh : ptr + size ≤ jitPoolVaBase + jitPoolPages * pageSize) {protFlags : UInt32}
    (hasked : protFlags &&& protExec ≠ 0 ∨ protFlags &&& protWrite ≠ 0) :
    Given r.vspace (r.vspace.invokeAll (r.mprotect ptr size protFlags).invocations) ptr size
      protFlags := by
  obtain ⟨-, hothers, hset⟩ := mprotect_entries h hlow hhigh protFlags
  constructor
  · intro i hi hmeets
    rw [executable_pageEntry (hset i ((inLoop_iff_meets hlow haligned).mpr hmeets)), bne_iff_ne]
  · intro i hi hmeets hwritable
    rw [writable_pageEntry (hset i ((inLoop_iff_meets hlow haligned).mpr hmeets))] at hwritable
    refine hasked.resolve_left fun hexec => ?_
    rw [bne_iff_ne.mpr hexec] at hwritable
    cases hwritable
  · intro va hva
    refine hothers va fun i hi => hva i ?_ (hi.meets hlow)
    have := hi.2
    simp only [jitPoolPages, pageSize] at *
    omega

end Runtime

/-- In every run of the platform the frames of the pool are mapped at their own pages. -/
theorem mapped_run {v₀ : VSpace} {calls : List Call} {r : Runtime}
    (hrun : Machine.run Runtime.step (start v₀) calls = some r) : Mapped r.vspace :=
  (Machine.run_invariant (fun _ _ _ h hstep => Runtime.Inv.step h hstep)
    (Runtime.inv_start v₀) hrun).pool.mapped

theorem mapped_start (v₀ : VSpace) : Mapped (start v₀).vspace := @mapped_run v₀ [] _ rfl

/-- For every state of the pool, every range of it from the start of a page on and all flags: a call
that ends with 0 gives what was asked for exactly if the range is empty or execution or writing was
asked for. -/
theorem mprotect_given_iff {r : Runtime} (h : Mapped r.vspace) {ptr size : UInt64}
    (protFlags : UInt32) (haligned : ptr.toNat % pageSize = 0)
    (hlow : jitPoolVaBase ≤ ptr.toNat)
    (hhigh : ptr.toNat + size.toNat ≤ jitPoolVaBase + jitPoolPages * pageSize) :
    ((r.effect (.mprotect ptr size protFlags)).result = 0 →
      Given r.vspace (r.vspace.invokeAll (r.invocations (.mprotect ptr size protFlags)))
        ptr.toNat size.toNat protFlags) ↔
      size = 0 ∨ protFlags &&& protExec ≠ 0 ∨ protFlags &&& protWrite ≠ 0 := by
  obtain ⟨hresult, hothers, hset⟩ := Runtime.mprotect_entries h hlow hhigh protFlags
  constructor
  · intro hgiven
    by_contra hnot
    rw [not_or, not_or, not_not, not_not] at hnot
    obtain ⟨hsize, hexec, hwrite⟩ := hnot
    have hpos : 0 < size.toNat := Nat.pos_of_ne_zero fun hzero => hsize (UInt64.toNat_inj.mp hzero)
    -- The page that the range begins in gets writable.
    have hfirst : InLoop ptr.toNat size.toNat ((ptr.toNat - jitPoolVaBase) / pageSize) := by
      refine ⟨Nat.le_refl _, ?_⟩
      simp only [pageSize]
      omega
    have hlt : (ptr.toNat - jitPoolVaBase) / pageSize < jitPoolPages := by
      simp only [jitPoolPages, pageSize] at *
      omega
    refine (hgiven hresult).write _ hlt (hfirst.meets hlow) ?_ hwrite
    exact (Runtime.writable_pageEntry (hset _ hfirst)).mpr (by rw [hexec]; rfl)
  · rintro (rfl | hasked)
    · have hnone : ∀ i, ¬InLoop ptr.toNat 0 i := fun i hi => not_meets_empty (hi.meets hlow)
      exact fun _ => ⟨fun i _ hmeets => absurd hmeets not_meets_empty,
        fun i _ hmeets => absurd hmeets not_meets_empty,
        fun va _ => hothers va fun i hi => absurd hi (hnone i)⟩
    · exact fun _ => Runtime.mprotect_given h haligned hlow hhigh hasked

/-- Code that is published read-only and executable. -/
theorem mprotect_given_code :
    Given (start blankVSpace).vspace ((start blankVSpace).vspace.invokeAll
      ((start blankVSpace).invocations (.mprotect 0x40000000 8192 0x5)))
      0x40000000 8192 0x5 :=
  (@mprotect_given_iff _ (mapped_start blankVSpace) 0x40000000 8192 0x5 rfl
    (by decide) (by decide)).mpr (.inr (.inl (by decide))) (by decide)

/-- A page for which only read access is asked can be written. -/
theorem readOnly_writable :
    ¬(((start blankVSpace).effect (.mprotect 0x40000000 4096 0x1)).result = 0 →
      Given (start blankVSpace).vspace ((start blankVSpace).vspace.invokeAll
        ((start blankVSpace).invocations (.mprotect 0x40000000 4096 0x1)))
        0x40000000 4096 0x1) := by
  intro hgiven
  obtain ⟨hresult, -, hset⟩ := @Runtime.mprotect_entries _ (mapped_start blankVSpace)
    0x40000000 4096 (by decide) (by decide) 0x1
  have hloop : InLoop 0x40000000 4096 0 := by decide
  refine (hgiven hresult).write 0 (by decide) (hloop.meets (by decide)) ?_ (by decide)
  exact (Runtime.writable_pageEntry (hset 0 hloop)).mpr rfl

end Torpor.JitPool
