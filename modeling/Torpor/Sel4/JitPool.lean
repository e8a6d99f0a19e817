import Mathlib.Algebra.Group.Nat.Defs
import Mathlib.Data.List.Basic
import Mathlib.Logic.Function.Basic
import Mathlib.Tactic.Common
import Torpor.Lib.Machine

/-!
# The JIT Pool of the seL4 Runtime

The pages that Wasmtime compiles into, on seL4: the mapping that the supervisor makes
(`map_jit_frames_rw`) and the functions of the custom platform that change it
(`wasmtime_mmap_new`, `wasmtime_mprotect`, `crash_in_remap_window`).

A call of the platform is the list of kernel invocations that it makes, so that what a crash
leaves is what a beginning of that list makes. `frame_map` and `frame_unmap` are total updates of
one entry of the page table; the kernel keeps with a frame the address that it is mapped at. A
frame is named by the slot that its capability has in the CNode of the runtime. Addresses and
sizes are numbers below `2 ^ 64`; a sum that leaves this range wraps around, as in the release
build.

Left out: the intermediate translation tables, which a frame does not need once its entry is there,
and the other functions of the platform, which make no invocation.

## Main results

* `wx_run`: in every run, after each single invocation, every page of the pool is unmapped,
  writable or executable, over its own frame.
-/

namespace Torpor.JitPool

/-! ### The kernel -/

/-- The rights of a mapping. -/
inductive CapRights
  | readOnly
  | readWrite
  deriving DecidableEq, Repr

/-- An entry of the page table. -/
structure PageEntry where
  frame : ℕ
  rights : CapRights
  executeNever : Bool
  deriving DecidableEq, Repr

/-- The address space of the runtime: the page table, and where each frame is mapped. -/
@[ext]
structure VSpace where
  entries : ℕ → Option PageEntry
  mappedAt : ℕ → Option ℕ

/-- An invocation of the kernel on the capability of a frame. -/
inductive Invocation
  | frameUnmap (frame : ℕ)
  | frameMap (frame va : ℕ) (rights : CapRights) (executeNever : Bool)
  deriving DecidableEq, Repr

namespace VSpace

/-- `frame_unmap`. -/
def frameUnmap (v : VSpace) (frame : ℕ) : VSpace :=
  match v.mappedAt frame with
  | none => v
  | some va =>
      { entries := Function.update v.entries va none
        mappedAt := Function.update v.mappedAt frame none }

/-- `frame_map`. -/
def frameMap (v : VSpace) (frame va : ℕ) (rights : CapRights) (executeNever : Bool) : VSpace :=
  { entries := Function.update v.entries va (some ⟨frame, rights, executeNever⟩)
    mappedAt := Function.update v.mappedAt frame (some va) }

/-- The effect of an invocation. -/
def invoke (v : VSpace) : Invocation → VSpace
  | .frameUnmap frame => v.frameUnmap frame
  | .frameMap frame va rights executeNever => v.frameMap frame va rights executeNever

/-- The effect of a list of invocations. -/
def invokeAll (v : VSpace) (is : List Invocation) : VSpace := is.foldl invoke v

end VSpace

/-! ### The pool -/

/-- `JIT_POOL_VA_BASE`. -/
def jitPoolVaBase : ℕ := 0x40000000

/-- `JIT_POOL_PAGES`. -/
def jitPoolPages : ℕ := 128

/-- `PAGE_SIZE`. -/
def pageSize : ℕ := 4096

/-- `JIT_POOL_FRAME_BASE`. -/
def jitPoolFrameBase : ℕ := 5

/-- `PROT_EXEC`. -/
def protExec : UInt32 := 0x4

/-- The address of a page of the pool. -/
def pageVa (pageIdx : ℕ) : ℕ := jitPoolVaBase + pageIdx * pageSize

/-- The frame of a page of the pool. -/
def frameCap (pageIdx : ℕ) : ℕ := jitPoolFrameBase + pageIdx

/-- The frames of the supervisor, in the order in which it copies them to the runtime. -/
def jitFrames : List ℕ := (List.range jitPoolPages).map frameCap

/-- `map_jit_frames_rw`, less the intermediate translation tables. -/
def mapJitFramesRw (jitFrames : List ℕ) (baseVa : ℕ) : List Invocation :=
  jitFrames.zipIdx.map fun (frame, i) => .frameMap frame (baseVa + i * pageSize) .readWrite true

/-! ### The platform of the runtime -/

/-- The runtime: its address space, `POOL_BUMP`, `FIRST_RX_PAGE_VA`, and whether it has suspended
itself. -/
@[ext]
structure Runtime where
  vspace : VSpace
  poolBump : ℕ
  firstRxPageVa : ℕ
  suspended : Bool

/-- A call of the platform, by Wasmtime or by the test of the remap window. -/
inductive Call
  | mmapNew (size : UInt64) (protFlags : UInt32)
  | mprotect (ptr size : UInt64) (protFlags : UInt32)
  | crashInRemapWindow
  deriving DecidableEq, Repr

/-- `n.next_multiple_of(PAGE_SIZE)`, in 64 bits. -/
def nextMultipleOfPage (n : ℕ) : ℕ :=
  if n % pageSize = 0 then n else (n + (pageSize - n % pageSize)) % 2 ^ 64

/-- What a call does: the invocations, the result, and the new values of the two variables. -/
structure Effect where
  invocations : List Invocation
  result : Int32
  poolBump : ℕ
  firstRxPageVa : ℕ

namespace Runtime

/-- `wasmtime_mmap_new`: the next multiple of the page size is taken of `POOL_BUMP`, and
`aligned + size` wraps around. -/
def mmapNew (r : Runtime) (size : ℕ) : Effect :=
  let aligned := (r.poolBump + pageSize - 1) / pageSize * pageSize
  let bumpEnd := (aligned + size) % 2 ^ 64
  if jitPoolPages * pageSize < bumpEnd then ⟨[], 1, r.poolBump, r.firstRxPageVa⟩
  else ⟨[], 0, bumpEnd, r.firstRxPageVa⟩

/-- The remap of one page. -/
def remap (pageIdx : ℕ) (wantExec : Bool) : List Invocation :=
  [.frameUnmap (frameCap pageIdx),
    if wantExec then .frameMap (frameCap pageIdx) (pageVa pageIdx) .readOnly false
    else .frameMap (frameCap pageIdx) (pageVa pageIdx) .readWrite true]

/-- The loop of `wasmtime_mprotect` over `nPages` pages from `pageIdx` on: the invocations, the
result, and the new `FIRST_RX_PAGE_VA`. -/
def mprotectLoop (wantExec : Bool) : ℕ → ℕ → ℕ → List Invocation × Int32 × ℕ
  | _, 0, firstRx => ([], 0, firstRx)
  | pageIdx, nPages + 1, firstRx =>
      if jitPoolPages ≤ pageIdx then ([], 1, firstRx)
      else
        let firstRx := if wantExec ∧ firstRx = 0 then pageVa pageIdx else firstRx
        let (is, result, firstRx) := mprotectLoop wantExec (pageIdx + 1) nPages firstRx
        (remap pageIdx wantExec ++ is, result, firstRx)

/-- `wasmtime_mprotect`. -/
def mprotect (r : Runtime) (vaStart size : ℕ) (protFlags : UInt32) : Effect :=
  if vaStart < jitPoolVaBase ∨ jitPoolVaBase + jitPoolPages * pageSize ≤ vaStart then
    ⟨[], 0, r.poolBump, r.firstRxPageVa⟩
  else
    let pageIdxStart := (vaStart - jitPoolVaBase) / pageSize
    let nPages := nextMultipleOfPage size / pageSize
    let wantExec := protFlags &&& protExec != 0
    let (is, result, firstRx) := mprotectLoop wantExec pageIdxStart nPages r.firstRxPageVa
    ⟨is, result, r.poolBump, firstRx⟩

/-- `crash_in_remap_window`, up to the suspension of the runtime. -/
def crashInRemapWindow (r : Runtime) : Effect :=
  let pageVa := r.firstRxPageVa
  if pageVa = 0 then ⟨[], 0, r.poolBump, r.firstRxPageVa⟩
  else
    let frameIdx := (pageVa - jitPoolVaBase) / pageSize
    ⟨[.frameUnmap (frameCap frameIdx)], 0, r.poolBump, r.firstRxPageVa⟩

/-- What a call does. -/
def effect (r : Runtime) : Call → Effect
  | .mmapNew size _ => r.mmapNew size.toNat
  | .mprotect ptr size protFlags => r.mprotect ptr.toNat size.toNat protFlags
  | .crashInRemapWindow => r.crashInRemapWindow

/-- The invocations of a call. -/
def invocations (r : Runtime) (call : Call) : List Invocation := (r.effect call).invocations

/-- A call that returns, or suspends the runtime. -/
def step (r : Runtime) (call : Call) : Option Runtime :=
  if r.suspended then none
  else
    some
      { vspace := r.vspace.invokeAll (r.invocations call)
        poolBump := (r.effect call).poolBump
        firstRxPageVa := (r.effect call).firstRxPageVa
        suspended := call = .crashInRemapWindow }

end Runtime

/-- The runtime as the supervisor starts it, in an address space that may hold anything else. -/
def start (v : VSpace) : Runtime :=
  { vspace := v.invokeAll (mapJitFramesRw jitFrames jitPoolVaBase)
    poolBump := 0
    firstRxPageVa := 0
    suspended := false }

/-! ### The invariant -/

/-- **W^X.** Each page of the pool is unmapped, or maps its own frame writable and never
executable, or maps its own frame read-only and executable; no frame is at two pages; and
addresses that are no page of the pool are as the supervisor left them. -/
structure Wx (v₀ v : VSpace) : Prop where
  page : ∀ i < jitPoolPages, v.entries (pageVa i) = none ∨
    v.entries (pageVa i) = some ⟨frameCap i, .readWrite, true⟩ ∨
    v.entries (pageVa i) = some ⟨frameCap i, .readOnly, false⟩
  unshared : ∀ i < jitPoolPages, ∀ j < jitPoolPages, ∀ e e', v.entries (pageVa i) = some e →
    v.entries (pageVa j) = some e' → e.frame = e'.frame → i = j
  outside : ∀ va, (∀ i < jitPoolPages, va ≠ pageVa i) → v.entries va = v₀.entries va

theorem pageVa_inj {i j : ℕ} (h : pageVa i = pageVa j) : i = j := by
  simp only [pageVa, pageSize] at h
  omega

theorem frameCap_inj {i j : ℕ} (h : frameCap i = frameCap j) : i = j := by
  simp only [frameCap] at h
  omega

/-- The address space with the first `n` pages of the pool in order. A frame of the pool is
mapped at its own page, or nowhere. -/
structure Pool (v₀ : VSpace) (n : ℕ) (v : VSpace) : Prop where
  page : ∀ i < n, v.entries (pageVa i) = none ∨
    v.entries (pageVa i) = some ⟨frameCap i, .readWrite, true⟩ ∨
    v.entries (pageVa i) = some ⟨frameCap i, .readOnly, false⟩
  mapped : ∀ i < n, v.mappedAt (frameCap i) = none ∨ v.mappedAt (frameCap i) = some (pageVa i)
  outside : ∀ va, (∀ i < n, va ≠ pageVa i) → v.entries va = v₀.entries va

/-- The frame of a page that is in order is its own. -/
theorem Pool.frame_eq {v₀ v : VSpace} {n i : ℕ} {e : PageEntry} (h : Pool v₀ n v) (hi : i < n)
    (he : v.entries (pageVa i) = some e) : e.frame = frameCap i := by
  rcases h.page i hi with hnone | hw | hx
  · cases hnone.symm.trans he
  · cases hw.symm.trans he
    rfl
  · cases hx.symm.trans he
    rfl

theorem Pool.wx {v₀ v : VSpace} (h : Pool v₀ jitPoolPages v) : Wx v₀ v where
  page := h.page
  unshared i hi j hj e e' he he' heq := by
    rw [h.frame_eq hi he, h.frame_eq hj he'] at heq
    exact frameCap_inj heq
  outside := h.outside

/-- A frame of the pool is mapped at its own page. -/
theorem Pool.frameMap {v₀ v : VSpace} {n i : ℕ} {rights : CapRights} {executeNever : Bool}
    (h : ∀ j < n, j ≠ i → (v.entries (pageVa j) = none ∨
      v.entries (pageVa j) = some ⟨frameCap j, .readWrite, true⟩ ∨
      v.entries (pageVa j) = some ⟨frameCap j, .readOnly, false⟩) ∧
      (v.mappedAt (frameCap j) = none ∨ v.mappedAt (frameCap j) = some (pageVa j)))
    (houtside : ∀ va, (∀ j < n, va ≠ pageVa j) → v.entries va = v₀.entries va) (hi : i < n)
    (hwx : rights = .readWrite ∧ executeNever = true ∨
      rights = .readOnly ∧ executeNever = false) :
    Pool v₀ n (v.frameMap (frameCap i) (pageVa i) rights executeNever) := by
  constructor
  · intro j hj
    simp only [VSpace.frameMap, Function.update_apply]
    by_cases hji : j = i
    · subst hji
      rw [if_pos rfl]
      rcases hwx with ⟨rfl, rfl⟩ | ⟨rfl, rfl⟩
      · exact .inr (.inl rfl)
      · exact .inr (.inr rfl)
    · rw [if_neg fun heq => hji (pageVa_inj heq)]
      exact (h j hj hji).1
  · intro j hj
    simp only [VSpace.frameMap, Function.update_apply]
    by_cases hji : j = i
    · subst hji
      rw [if_pos rfl]
      exact .inr rfl
    · rw [if_neg fun heq => hji (frameCap_inj heq)]
      exact (h j hj hji).2
  · intro va hva
    simp only [VSpace.frameMap, Function.update_apply]
    rw [if_neg (hva i hi)]
    exact houtside va hva

/-- A frame of the pool is unmapped. -/
theorem Pool.frameUnmap {v₀ v : VSpace} {n i : ℕ} (h : Pool v₀ n v) (hi : i < n) :
    Pool v₀ n (v.frameUnmap (frameCap i)) := by
  rcases h.mapped i hi with hnone | hsome
  · rw [VSpace.frameUnmap, hnone]
    exact h
  · rw [VSpace.frameUnmap, hsome]
    constructor
    · intro j hj
      simp only [Function.update_apply]
      split_ifs
      · exact .inl rfl
      · exact h.page j hj
    · intro j hj
      simp only [Function.update_apply]
      split_ifs
      · exact .inl rfl
      · exact h.mapped j hj
    · intro va hva
      simp only [Function.update_apply]
      rw [if_neg (hva i hi)]
      exact h.outside va hva

/-- The invocations that keep the pool in order: a frame of the pool is unmapped, or mapped at its
own page, writable or executable. -/
def Invocation.Proper : Invocation → Prop
  | .frameUnmap frame => ∃ i < jitPoolPages, frame = frameCap i
  | .frameMap frame va rights executeNever => ∃ i < jitPoolPages, frame = frameCap i ∧
      va = pageVa i ∧ (rights = .readWrite ∧ executeNever = true ∨
        rights = .readOnly ∧ executeNever = false)

theorem Pool.invoke {v₀ v : VSpace} (h : Pool v₀ jitPoolPages v) {i : Invocation}
    (hi : i.Proper) : Pool v₀ jitPoolPages (v.invoke i) := by
  cases i with
  | frameUnmap frame =>
      obtain ⟨j, hj, rfl⟩ := hi
      exact h.frameUnmap hj
  | frameMap frame va rights executeNever =>
      obtain ⟨j, hj, rfl, rfl, hwx⟩ := hi
      exact Pool.frameMap (fun k hk _ => ⟨h.page k hk, h.mapped k hk⟩) h.outside hj hwx

theorem Pool.invokeAll {v₀ v : VSpace} (h : Pool v₀ jitPoolPages v) {is : List Invocation}
    (his : ∀ i ∈ is, i.Proper) : Pool v₀ jitPoolPages (v.invokeAll is) := by
  induction is generalizing v with
  | nil => exact h
  | cons i is ih =>
      exact ih (h.invoke (his i List.mem_cons_self)) fun j hj =>
        his j (List.mem_cons_of_mem i hj)

/-! ### The mapping of the supervisor -/

theorem mapJitFramesRw_eq : mapJitFramesRw jitFrames jitPoolVaBase =
    (List.range jitPoolPages).map fun i => .frameMap (frameCap i) (pageVa i) .readWrite true := by
  refine List.ext_getElem (by simp [mapJitFramesRw, jitFrames]) fun i hi hi' => ?_
  simp [mapJitFramesRw, jitFrames, pageVa]

/-- The supervisor puts the pages of the pool in order, one after the other. -/
theorem pool_mapped (v : VSpace) (n : ℕ) :
    Pool v n (v.invokeAll ((List.range n).map fun i =>
      .frameMap (frameCap i) (pageVa i) .readWrite true)) := by
  induction n with
  | zero => exact ⟨fun i hi => absurd hi (Nat.not_lt_zero i),
      fun i hi => absurd hi (Nat.not_lt_zero i), fun _ _ => rfl⟩
  | succ n ih =>
      rw [List.range_succ, List.map_append, VSpace.invokeAll, List.foldl_append]
      refine Pool.frameMap (fun j hj hjn => ?_) (fun va hva => ?_) (Nat.lt_succ_self n)
        (.inl ⟨rfl, rfl⟩)
      · have hlt : j < n := by omega
        exact ⟨ih.page j hlt, ih.mapped j hlt⟩
      · exact ih.outside va fun j hj => hva j (Nat.lt_succ_of_lt hj)

/-! ### The calls of the platform -/

namespace Runtime

theorem remap_proper {pageIdx : ℕ} (h : pageIdx < jitPoolPages) (wantExec : Bool) :
    ∀ i ∈ remap pageIdx wantExec, i.Proper := by
  intro i hi
  rcases List.mem_cons.mp hi with rfl | hi
  · exact ⟨pageIdx, h, rfl⟩
  · rw [List.mem_singleton.mp hi]
    cases wantExec with
    | false => exact ⟨pageIdx, h, rfl, rfl, .inl ⟨rfl, rfl⟩⟩
    | true => exact ⟨pageIdx, h, rfl, rfl, .inr ⟨rfl, rfl⟩⟩

/-- `FIRST_RX_PAGE_VA` is a page of the pool, or not set yet. -/
def FirstRxOk (firstRx : ℕ) : Prop := firstRx = 0 ∨ ∃ i < jitPoolPages, firstRx = pageVa i

/-- The loop of `wasmtime_mprotect` remaps pages of the pool only. -/
theorem mprotectLoop_spec (wantExec : Bool) (pageIdx nPages : ℕ) {firstRx : ℕ}
    (h : FirstRxOk firstRx) :
    (∀ i ∈ (mprotectLoop wantExec pageIdx nPages firstRx).1, i.Proper) ∧
      FirstRxOk (mprotectLoop wantExec pageIdx nPages firstRx).2.2 := by
  induction nPages generalizing pageIdx firstRx with
  | zero => exact ⟨fun i hi => (by cases hi), h⟩
  | succ nPages ih =>
      simp only [mprotectLoop]
      split_ifs with hend hfirst
      · exact ⟨fun i hi => (by cases hi), h⟩
      · have hpage : pageIdx < jitPoolPages := Nat.not_le.mp hend
        have hset : FirstRxOk (pageVa pageIdx) := .inr ⟨_, hpage, rfl⟩
        obtain ⟨his, hrx⟩ := ih (pageIdx + 1) hset
        refine ⟨fun i hi => ?_, hrx⟩
        rcases List.mem_append.mp hi with hi | hi
        · exact remap_proper hpage wantExec i hi
        · exact his i hi
      · obtain ⟨his, hrx⟩ := ih (pageIdx + 1) h
        refine ⟨fun i hi => ?_, hrx⟩
        rcases List.mem_append.mp hi with hi | hi
        · exact remap_proper (Nat.not_le.mp hend) wantExec i hi
        · exact his i hi

/-- Every call makes proper invocations only. -/
theorem effect_spec {r : Runtime} (h : FirstRxOk r.firstRxPageVa) (call : Call) :
    (∀ i ∈ r.invocations call, i.Proper) ∧ FirstRxOk (r.effect call).firstRxPageVa := by
  cases call with
  | mmapNew size protFlags =>
      simp only [invocations, effect, mmapNew]
      split_ifs
      · exact ⟨fun i hi => (by cases hi), h⟩
      · exact ⟨fun i hi => (by cases hi), h⟩
  | mprotect ptr size protFlags =>
      simp only [invocations, effect, mprotect]
      split_ifs
      · exact ⟨fun i hi => (by cases hi), h⟩
      · exact mprotectLoop_spec _ _ _ h
  | crashInRemapWindow =>
      simp only [invocations, effect, crashInRemapWindow]
      split_ifs with hzero
      · exact ⟨fun i hi => (by cases hi), h⟩
      · obtain ⟨i, hi, hva⟩ := h.resolve_left hzero
        have hidx : (pageVa i - jitPoolVaBase) / pageSize = i := by
          simp only [pageVa, pageSize]
          omega
        refine ⟨fun j hj => ?_, h⟩
        rw [List.mem_singleton.mp hj, hva, hidx]
        exact ⟨i, hi, rfl⟩

/-- What holds of the runtime between two calls. -/
structure Inv (v₀ : VSpace) (r : Runtime) : Prop where
  pool : Pool v₀ jitPoolPages r.vspace
  firstRx : FirstRxOk r.firstRxPageVa

theorem inv_start (v₀ : VSpace) : Inv v₀ (start v₀) := by
  refine ⟨?_, .inl rfl⟩
  rw [start, mapJitFramesRw_eq]
  exact pool_mapped v₀ jitPoolPages

theorem Inv.step {v₀ : VSpace} {r r' : Runtime} {call : Call} (h : Inv v₀ r)
    (hstep : r.step call = some r') : Inv v₀ r' := by
  obtain ⟨hproper, hrx⟩ := effect_spec h.firstRx call
  simp only [Runtime.step] at hstep
  split_ifs at hstep
  obtain rfl := Option.some.inj hstep
  exact ⟨h.pool.invokeAll hproper, hrx⟩

end Runtime

/-- **W^X of the JIT pool.** In every run of the platform, and after any number of the
invocations of a further call, the pool is in order. -/
theorem wx_run {v₀ : VSpace} {calls : List Call} {r : Runtime}
    (hrun : Machine.run Runtime.step (start v₀) calls = some r) (call : Call) (n : ℕ) :
    Wx v₀ (r.vspace.invokeAll ((r.invocations call).take n)) := by
  have h : Runtime.Inv v₀ r :=
    Machine.run_invariant (fun _ _ _ h hstep => Runtime.Inv.step h hstep)
      (Runtime.inv_start v₀) hrun
  obtain ⟨hproper, -⟩ := Runtime.effect_spec h.firstRx call
  exact (h.pool.invokeAll fun i hi => hproper i (List.mem_of_mem_take hi)).wx

/-- An address space without mappings. -/
def blankVSpace : VSpace := ⟨fun _ => none, fun _ => none⟩

/-- Two pages are allocated and made executable, with `PROT_WRITE` asked for as well. -/
def compileCalls : List Call := [.mmapNew 8192 0x3, .mprotect 0x40000000 8192 0x7]

/-- A crash within the remap that makes the first page writable again leaves it unmapped, and the
second page executable. -/
theorem wx_run_remapWindow :
    ∃ r, Machine.run Runtime.step (start blankVSpace) compileCalls = some r ∧
      Wx blankVSpace
        (r.vspace.invokeAll ((r.invocations (.mprotect 0x40000000 4096 0x3)).take 1)) ∧
      (r.vspace.invokeAll ((r.invocations (.mprotect 0x40000000 4096 0x3)).take 1)).entries
        (pageVa 0) = none ∧
      r.vspace.entries (pageVa 1) = some ⟨frameCap 1, .readOnly, false⟩ := by
  refine ⟨_, rfl, ?_, by decide +kernel, by decide +kernel⟩
  exact wx_run (show Machine.run Runtime.step (start blankVSpace) compileCalls = some _ from rfl)
    _ _

end Torpor.JitPool
