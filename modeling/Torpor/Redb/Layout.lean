import Mathlib.Data.List.GetD
import Mathlib.Tactic.Linarith
import Mathlib.Tactic.Ring

/-!
# The Layout of a Database File

Behind one page for the header of the file follow regions of equal size, of which the last one can
be shorter. The layout tells how many pages each region has. It is not stored in a way that a crash
could tear from the file: where the length of the file disagrees with it, it is calculated anew from
the length. Lengths are below `2 ^ 64`.

## Main results

* `calculate_spec`: the regions of a calculated layout.
* `WellFormed.recalculate_len`: the layout is recovered from the length of the file.
* `recalculate_spec`: for any length, as many pages as fit.
* `WellFormed.reduceLastRegion_spec`: the regions of a shortened layout.
-/

namespace Torpor.Redb

/-- The conversion of a `u64` to a `u32`, which panics if it does not fit. -/
def toU32 (n : ℕ) : Option ℕ := if n < 2 ^ 32 then some n else none

/-- `round_up_to_multiple_of`. -/
def roundUpToMultipleOf (value multiple : ℕ) : ℕ :=
  if value % multiple = 0 then value else value + multiple - value % multiple

/-- `RegionLayout`. -/
structure RegionLayout where
  numPages : ℕ
  headerPages : ℕ
  pageSize : ℕ
deriving DecidableEq

namespace RegionLayout

/-- `new`. -/
def new (numPages headerPages pageSize : ℕ) : Option RegionLayout :=
  if 0 < numPages then some ⟨numPages, headerPages, pageSize⟩ else none

/-- `calculate`. -/
def calculate (desiredUsableBytes pageCapacity regionHeaderPages pageSize : ℕ) :
    Option RegionLayout :=
  if desiredUsableBytes ≤ pageCapacity * pageSize then do
    let numPages ← toU32 (roundUpToMultipleOf desiredUsableBytes pageSize / pageSize)
    some ⟨numPages, regionHeaderPages, pageSize⟩
  else none

/-- `usable_bytes`. -/
def usableBytes (r : RegionLayout) : ℕ := r.pageSize * r.numPages

/-- `len`. -/
def len (r : RegionLayout) : ℕ := r.headerPages * r.pageSize + r.usableBytes

end RegionLayout

/-- `DatabaseLayout`. -/
structure DatabaseLayout where
  fullRegionLayout : RegionLayout
  numFullRegions : ℕ
  trailingPartialRegion : Option RegionLayout
deriving DecidableEq

namespace DatabaseLayout

/-- `reduce_last_region`. -/
def reduceLastRegion (l : DatabaseLayout) (pages : ℕ) : Option DatabaseLayout :=
  match l.trailingPartialRegion with
  | some trailing =>
      if pages ≤ trailing.numPages then
        if trailing.numPages - pages = 0 then some { l with trailingPartialRegion := none }
        else
          some { l with
            trailingPartialRegion := some { trailing with numPages := trailing.numPages - pages } }
      else none
  | none =>
      if l.numFullRegions = 0 then none
      else
        let full := l.fullRegionLayout
        if pages < full.numPages then
          (RegionLayout.new (full.numPages - pages) full.headerPages full.pageSize).map fun r =>
            ⟨full, l.numFullRegions - 1, some r⟩
        else some ⟨full, l.numFullRegions - 1, l.trailingPartialRegion⟩

/-- The trailing region of `recalculate`. -/
def recalculateTrailing (remaining regionHeaderPages regionMaxDataPages pageSize : ℕ) :
    Option (Option RegionLayout) :=
  if (regionHeaderPages + 1) * pageSize ≤ remaining then do
    let remaining ← toU32 (remaining - regionHeaderPages * pageSize)
    let dataPages := remaining / pageSize
    if dataPages < regionMaxDataPages then
      (RegionLayout.new dataPages regionHeaderPages pageSize).map some
    else none
  else some none

/-- `recalculate`. -/
def recalculate (fileLen regionHeaderPages regionMaxDataPages pageSize : ℕ) :
    Option DatabaseLayout :=
  let fullRegionSize := (regionHeaderPages + regionMaxDataPages) * pageSize
  if fileLen < pageSize ∨ fullRegionSize = 0 then none
  else do
    let fullRegions := (fileLen - pageSize) / fullRegionSize
    let remaining := fileLen - pageSize - fullRegions * fullRegionSize
    let trailing ← recalculateTrailing remaining regionHeaderPages regionMaxDataPages pageSize
    let full ← RegionLayout.new regionMaxDataPages regionHeaderPages pageSize
    let numFullRegions ← toU32 fullRegions
    some ⟨full, numFullRegions, trailing⟩

/-- The trailing region of `calculate`. -/
def calculateTrailing (remaining pageCapacity regionHeaderPages pageSize : ℕ) :
    Option (Option RegionLayout) :=
  if 0 < remaining then
    (RegionLayout.calculate remaining pageCapacity regionHeaderPages pageSize).map some
  else some none

/-- `calculate`. -/
def calculate (desiredUsableBytes pageCapacity regionHeaderPages pageSize : ℕ) :
    Option DatabaseLayout := do
  let full ← RegionLayout.new pageCapacity regionHeaderPages pageSize
  if desiredUsableBytes ≤ full.usableBytes then do
    let region ←
      RegionLayout.calculate desiredUsableBytes pageCapacity regionHeaderPages pageSize
    some ⟨full, 0, some region⟩
  else do
    let fullRegions := desiredUsableBytes / full.usableBytes
    let remaining := desiredUsableBytes - fullRegions * full.usableBytes
    let trailing ← calculateTrailing remaining pageCapacity regionHeaderPages pageSize
    let numFullRegions ← toU32 fullRegions
    some ⟨full, numFullRegions, trailing⟩

/-- `num_regions`. -/
def numRegions (l : DatabaseLayout) : ℕ :=
  if l.trailingPartialRegion.isSome then l.numFullRegions + 1 else l.numFullRegions

/-- `usable_bytes`. -/
def usableBytes (l : DatabaseLayout) : ℕ :=
  l.numFullRegions * l.fullRegionLayout.usableBytes +
    (l.trailingPartialRegion.map RegionLayout.usableBytes).getD 0

/-- `region_base_address`. -/
def regionBaseAddress (l : DatabaseLayout) (region : ℕ) : Option ℕ :=
  if region < l.numRegions then
    some (l.fullRegionLayout.pageSize + region * l.fullRegionLayout.len)
  else none

/-- `region_layout`. -/
def regionLayout (l : DatabaseLayout) (region : ℕ) : Option RegionLayout :=
  if region < l.numRegions then
    if region = l.numFullRegions then l.trailingPartialRegion else some l.fullRegionLayout
  else none

/-- `len`. -/
def len (l : DatabaseLayout) : Option ℕ :=
  if l.numRegions = 0 then none
  else do
    let base ← l.regionBaseAddress (l.numRegions - 1)
    let region ← l.regionLayout (l.numRegions - 1)
    some (base + region.len)

/-! ### The regions -/

/-- The numbers of pages of the regions. -/
def regionPages (l : DatabaseLayout) : List ℕ :=
  List.replicate l.numFullRegions l.fullRegionLayout.numPages ++
    (l.trailingPartialRegion.map RegionLayout.numPages).toList

/-- There is a region, all regions have headers and pages of one size, and the last one has at most
as many pages as the others. -/
structure WellFormed (l : DatabaseLayout) : Prop where
  numPages_pos : 0 < l.fullRegionLayout.numPages
  pageSize_pos : 0 < l.fullRegionLayout.pageSize
  numRegions_pos : 0 < l.numRegions
  trailing : ∀ {r}, l.trailingPartialRegion = some r → 0 < r.numPages ∧
    r.numPages ≤ l.fullRegionLayout.numPages ∧
    r.headerPages = l.fullRegionLayout.headerPages ∧ r.pageSize = l.fullRegionLayout.pageSize

variable {l l' : DatabaseLayout} {r : ℕ}

theorem length_regionPages (l : DatabaseLayout) : l.regionPages.length = l.numRegions := by
  rw [regionPages, numRegions, List.length_append, List.length_replicate]
  cases l.trailingPartialRegion <;> rfl

/-- The layout of a region has its number of pages. -/
theorem WellFormed.regionLayout_eq (h : l.WellFormed) {p : ℕ} (hp : l.regionPages[r]? = some p) :
    l.regionLayout r =
      some ⟨p, l.fullRegionLayout.headerPages, l.fullRegionLayout.pageSize⟩ := by
  have hlt : r < l.numRegions := by
    rw [← length_regionPages]
    exact (List.getElem?_eq_some_iff.mp hp).1
  rw [regionLayout, if_pos hlt]
  rw [numRegions] at hlt
  rw [regionPages] at hp
  split_ifs with hlast
  · rw [List.getElem?_append_right (by rw [List.length_replicate]; omega), List.length_replicate,
      hlast, Nat.sub_self] at hp
    rcases htrailing : l.trailingPartialRegion with _ | t
    · rw [htrailing] at hp
      cases hp
    · obtain ⟨-, -, hheader, hsize⟩ := h.trailing htrailing
      rw [htrailing] at hp
      obtain rfl := Option.some.inj hp
      rw [← hheader, ← hsize]
  · have hfull : r < l.numFullRegions := by
      split_ifs at hlt <;> omega
    rw [List.getElem?_append_left (by rwa [List.length_replicate]),
      List.getElem?_replicate_of_lt hfull] at hp
    rw [← Option.some.inj hp]

/-- Each region has pages, and at most as many as a full one. -/
theorem WellFormed.regionPages_bounds (h : l.WellFormed) {p : ℕ} (hp : l.regionPages[r]? = some p) :
    0 < p ∧ p ≤ l.fullRegionLayout.numPages ∧
      (r + 1 < l.numRegions → p = l.fullRegionLayout.numPages) := by
  have hpos := h.numPages_pos
  rw [numRegions]
  rw [regionPages] at hp
  rcases Nat.lt_or_ge r l.numFullRegions with hlt | hge
  · rw [List.getElem?_append_left (by rwa [List.length_replicate]),
      List.getElem?_replicate_of_lt hlt] at hp
    obtain rfl := Option.some.inj hp
    exact ⟨hpos, le_rfl, fun _ => rfl⟩
  · rw [List.getElem?_append_right (by rwa [List.length_replicate]), List.length_replicate] at hp
    rcases htrailing : l.trailingPartialRegion with _ | t
    · rw [htrailing] at hp
      cases hp
    · obtain ⟨htpos, hle, -⟩ := h.trailing htrailing
      have heq : t.numPages = p := by
        have hmem := List.mem_of_getElem? hp
        rw [htrailing] at hmem
        exact (List.mem_singleton.mp hmem).symm
      rw [← heq]
      refine ⟨htpos, hle, fun hr => ?_⟩
      rw [if_pos Option.isSome_some] at hr
      omega

/-- The length of the file. -/
theorem WellFormed.len_eq (h : l.WellFormed) {p : ℕ}
    (hp : l.regionPages[l.numRegions - 1]? = some p) :
    l.len = some (l.fullRegionLayout.pageSize +
      (l.numRegions - 1) * l.fullRegionLayout.len +
        (l.fullRegionLayout.headerPages + p) * l.fullRegionLayout.pageSize) := by
  have hpos := h.numRegions_pos
  rw [len, if_neg (by omega), regionBaseAddress, if_pos (by omega), h.regionLayout_eq hp]
  simp only [Option.bind_eq_bind, Option.bind_some, RegionLayout.len, RegionLayout.usableBytes]
  congr 2
  ring

theorem WellFormed.exists_last (h : l.WellFormed) :
    ∃ p, l.regionPages[l.numRegions - 1]? = some p :=
  ⟨_, List.getElem?_eq_getElem (by
    rw [length_regionPages]
    have hpos := h.numRegions_pos
    omega)⟩

/-- Layouts with the same pages give every region the same place. -/
theorem WellFormed.regionLayout_congr (h : l.WellFormed) (h' : l'.WellFormed)
    (hfull : l'.fullRegionLayout = l.fullRegionLayout) (hpages : l'.regionPages = l.regionPages)
    (r : ℕ) : l'.regionLayout r = l.regionLayout r := by
  rcases hp : l.regionPages[r]? with _ | p
  · have hge : l.regionPages.length ≤ r := List.getElem?_eq_none_iff.mp hp
    have hge' : l'.regionPages.length ≤ r := by rwa [hpages]
    rw [length_regionPages] at hge hge'
    rw [regionLayout, if_neg (by omega), regionLayout, if_neg (by omega)]
  · rw [h.regionLayout_eq hp, h'.regionLayout_eq (by rw [hpages, hp]), hfull]

/-- All regions but the last one are full. -/
theorem WellFormed.regionPages_eq (h : l.WellFormed) {p : ℕ}
    (hp : l.regionPages[l.numRegions - 1]? = some p) :
    l.regionPages = List.replicate (l.numRegions - 1) l.fullRegionLayout.numPages ++ [p] := by
  have hpos := h.numRegions_pos
  have hlength := length_regionPages l
  refine List.ext_getElem? fun r => ?_
  rcases Nat.lt_trichotomy r (l.numRegions - 1) with hlt | rfl | hgt
  · rw [List.getElem?_append_left (by rwa [List.length_replicate]),
      List.getElem?_replicate_of_lt hlt]
    obtain ⟨q, hq⟩ : ∃ q, l.regionPages[r]? = some q :=
      ⟨_, List.getElem?_eq_getElem (by omega)⟩
    rw [hq, (h.regionPages_bounds hq).2.2 (by omega)]
  · rw [hp, List.getElem?_append_right (by rw [List.length_replicate]), List.length_replicate,
      Nat.sub_self, List.getElem?_cons_zero]
  · rw [List.getElem?_eq_none (by omega), List.getElem?_eq_none (by
      rw [List.length_append, List.length_replicate, List.length_singleton]
      omega)]

/-- A layout that is not shorter has all the pages. -/
theorem WellFormed.exists_regionPages (h : l.WellFormed) (h' : l'.WellFormed)
    (hfull : l'.fullRegionLayout = l.fullRegionLayout) {n n' p : ℕ} (hn : l.len = some n)
    (hn' : l'.len = some n') (hle : n ≤ n') (hp : l.regionPages[r]? = some p) :
    ∃ p', l'.regionPages[r]? = some p' ∧ p ≤ p' := by
  obtain ⟨q, hq⟩ := h.exists_last
  obtain ⟨q', hq'⟩ := h'.exists_last
  rw [h.len_eq hq] at hn
  rw [h'.len_eq hq', hfull] at hn'
  obtain rfl := Option.some.inj hn
  obtain rfl := Option.some.inj hn'
  have hpos := h.numRegions_pos
  have hpos' := h'.numRegions_pos
  have hps := h.pageSize_pos
  have hlt := (List.getElem?_eq_some_iff.mp hp).1
  rw [length_regionPages] at hlt
  obtain ⟨-, hpN, -⟩ := h.regionPages_bounds hp
  obtain ⟨hqpos, -, -⟩ := h.regionPages_bounds hq
  obtain ⟨-, hqN', -⟩ := h'.regionPages_bounds hq'
  rw [hfull] at hqN'
  have hF : (l.fullRegionLayout.headerPages + l.fullRegionLayout.numPages) *
      l.fullRegionLayout.pageSize = l.fullRegionLayout.len := by
    rw [RegionLayout.len, RegionLayout.usableBytes, Nat.mul_comm l.fullRegionLayout.pageSize,
      Nat.add_mul]
  have hend : (l.fullRegionLayout.headerPages + q') * l.fullRegionLayout.pageSize ≤
      l.fullRegionLayout.len := by
    rw [← hF]
    exact Nat.mul_le_mul_right _ (by omega)
  have hsome : 0 < (l.fullRegionLayout.headerPages + q) * l.fullRegionLayout.pageSize :=
    Nat.mul_pos (by omega) hps
  have hregions : l.numRegions ≤ l'.numRegions := by
    by_contra hfew
    have hmul : (l'.numRegions - 1 + 1) * l.fullRegionLayout.len ≤
        (l.numRegions - 1) * l.fullRegionLayout.len := Nat.mul_le_mul_right _ (by omega)
    rw [Nat.succ_mul] at hmul
    omega
  obtain ⟨p', hp'⟩ : ∃ p', l'.regionPages[r]? = some p' :=
    ⟨_, List.getElem?_eq_getElem (by rw [length_regionPages]; omega)⟩
  refine ⟨p', hp', ?_⟩
  by_cases hinner : r + 1 < l'.numRegions
  · rw [(h'.regionPages_bounds hp').2.2 hinner, hfull]
    exact hpN
  · have hsame : l.numRegions = l'.numRegions := by omega
    obtain rfl : r = l.numRegions - 1 := by omega
    obtain rfl := Option.some.inj (hp.symm.trans hq)
    rw [← hsame] at hq' hle
    obtain rfl := Option.some.inj (hp'.symm.trans hq')
    have hmul : (l.fullRegionLayout.headerPages + p) * l.fullRegionLayout.pageSize ≤
        (l.fullRegionLayout.headerPages + p') * l.fullRegionLayout.pageSize := by omega
    have hcancel := Nat.le_of_mul_le_mul_right hmul hps
    omega

/-! ### Layouts from the length of the file -/

/-- What `recalculate` makes of a length. -/
theorem recalculate_eq {n N ps : ℕ} (hp : ℕ) (hN : 0 < N) (hps : 0 < ps) (hle : ps ≤ n)
    (hsize : (hp + N) * ps ≤ 2 ^ 32) (hregions : (n - ps) / ((hp + N) * ps) < 2 ^ 32) :
    recalculate n hp N ps = some ⟨⟨N, hp, ps⟩, (n - ps) / ((hp + N) * ps),
      if (hp + 1) * ps ≤ (n - ps) % ((hp + N) * ps) then
        some ⟨((n - ps) % ((hp + N) * ps) - hp * ps) / ps, hp, ps⟩
      else none⟩ := by
  have hpos : 0 < (hp + N) * ps := Nat.mul_pos (by omega) hps
  have hmod : n - ps - (n - ps) / ((hp + N) * ps) * ((hp + N) * ps) =
      (n - ps) % ((hp + N) * ps) := by
    rw [Nat.mul_comm, Nat.mod_eq_sub]
  have hlt := Nat.mod_lt (n - ps) hpos
  rw [recalculate, if_neg (by omega)]
  simp only [hmod]
  set rem := (n - ps) % ((hp + N) * ps)
  have hsplit : (hp + N) * ps = hp * ps + N * ps := Nat.add_mul _ _ _
  have htrailing : recalculateTrailing rem hp N ps = some (if (hp + 1) * ps ≤ rem then
      some ⟨(rem - hp * ps) / ps, hp, ps⟩ else none) := by
    rw [recalculateTrailing]
    split_ifs with hfits
    · have hone : (hp + 1) * ps = hp * ps + ps := by rw [Nat.add_mul, Nat.one_mul]
      have hdata : (rem - hp * ps) / ps < N := by
        rw [Nat.div_lt_iff_lt_mul hps]
        omega
      have hsome : 0 < (rem - hp * ps) / ps := Nat.div_pos (by omega) hps
      rw [toU32, if_pos (by omega)]
      simp only [Option.bind_eq_bind, Option.bind_some]
      rw [if_pos hdata, RegionLayout.new, if_pos hsome]
      rfl
    · rfl
  rw [htrailing, RegionLayout.new, if_pos hN, toU32, if_pos hregions]
  rfl

/-- Layouts with the same pages have the same length. -/
theorem WellFormed.len_congr (h : l.WellFormed) (h' : l'.WellFormed)
    (hfull : l'.fullRegionLayout = l.fullRegionLayout) (hpages : l'.regionPages = l.regionPages) :
    l'.numRegions = l.numRegions ∧ l'.len = l.len := by
  have hregions : l'.numRegions = l.numRegions := by
    rw [← length_regionPages, ← length_regionPages, hpages]
  obtain ⟨p, hp⟩ := h.exists_last
  refine ⟨hregions, ?_⟩
  rw [h.len_eq hp, h'.len_eq (by rw [hpages, hregions, hp]), hregions, hfull]

/-- The length of the file, and what `recalculate` makes of it. -/
theorem WellFormed.exists_recalculate (h : l.WellFormed)
    (hsize : l.fullRegionLayout.len ≤ 2 ^ 32) (hregions : l.numRegions < 2 ^ 32) :
    ∃ n l', l.len = some n ∧
      recalculate n l.fullRegionLayout.headerPages l.fullRegionLayout.numPages
        l.fullRegionLayout.pageSize = some l' ∧
      l'.WellFormed ∧ l'.fullRegionLayout = l.fullRegionLayout ∧
      l'.regionPages = l.regionPages := by
  obtain ⟨p, hp⟩ := h.exists_last
  have hlen := h.len_eq hp
  have hpages := h.regionPages_eq hp
  obtain ⟨hppos, hple, -⟩ := h.regionPages_bounds hp
  have hpos := h.numRegions_pos
  have hps := h.pageSize_pos
  have hN := h.numPages_pos
  rcases hfull : l.fullRegionLayout with ⟨N, hp', ps⟩
  rw [hfull] at hlen hpages hple hsize hps hN
  have hF : RegionLayout.len ⟨N, hp', ps⟩ = (hp' + N) * ps := by
    rw [RegionLayout.len, RegionLayout.usableBytes]
    ring
  dsimp only at hlen hpages hple hps hN ⊢
  rw [hF] at hlen hsize
  set F := (hp' + N) * ps with hFdef
  set R := l.numRegions
  have hFpos : 0 < F := Nat.mul_pos (by omega) hps
  have hdiff : ps + (R - 1) * F + (hp' + p) * ps - ps = (hp' + p) * ps + (R - 1) * F := by omega
  have hrecalculate := recalculate_eq (n := ps + (R - 1) * F + (hp' + p) * ps) hp'
    hN hps (by omega) hsize
  rw [hdiff, ← hFdef] at hrecalculate
  rcases Nat.lt_or_ge p N with hlt | hge
  · -- The last region is not full: it is the rest of the length.
    have hrest : (hp' + p) * ps < F := Nat.mul_lt_mul_of_pos_right (by omega) hps
    have hdiv : ((hp' + p) * ps + (R - 1) * F) / F = R - 1 := by
      rw [Nat.add_mul_div_right _ _ hFpos, Nat.div_eq_of_lt hrest, Nat.zero_add]
    have hmod : ((hp' + p) * ps + (R - 1) * F) % F = (hp' + p) * ps := by
      rw [Nat.add_mul_mod_self_right, Nat.mod_eq_of_lt hrest]
    have hdata : ((hp' + p) * ps - hp' * ps) / ps = p := by
      rw [Nat.add_mul, Nat.add_sub_cancel_left, Nat.mul_div_cancel _ hps]
    rw [hdiv, hmod, hdata, if_pos (Nat.mul_le_mul_right _ (by omega))] at hrecalculate
    refine ⟨_, _, hlen, hrecalculate (by omega), ⟨hN, hps, Nat.succ_pos _, fun {r} hr => ?_⟩, rfl,
      hpages.symm⟩
    obtain rfl := Option.some.inj hr
    exact ⟨hppos, hple, rfl, rfl⟩
  · -- The last region is full, and there is no rest.
    obtain rfl : p = N := by omega
    have hsum : (hp' + p) * ps + (R - 1) * F = R * F := by
      calc (hp' + p) * ps + (R - 1) * F = (1 + (R - 1)) * F := by rw [← hFdef, Nat.add_mul,
            Nat.one_mul]
        _ = R * F := by rw [Nat.add_comm, Nat.sub_add_cancel hpos]
    have hnone : ¬ (hp' + 1) * ps ≤ 0 := by
      have hmul : 0 < (hp' + 1) * ps := Nat.mul_pos (Nat.succ_pos _) hps
      omega
    rw [hsum, Nat.mul_div_cancel _ hFpos, Nat.mul_mod_left, if_neg hnone] at hrecalculate
    refine ⟨_, _, hlen, hrecalculate (by omega), ⟨hN, hps, hpos, fun {r} hr => (by cases hr)⟩, rfl,
      ?_⟩
    rw [hpages, ← List.replicate_succ', Nat.sub_add_cancel hpos]
    exact List.append_nil _

/-- **The length tells the layout.** The layout that is calculated from the length of the file gives
every region the same place and the same pages. -/
theorem WellFormed.recalculate_len (h : l.WellFormed) (hsize : l.fullRegionLayout.len ≤ 2 ^ 32)
    (hregions : l.numRegions < 2 ^ 32) :
    ∃ n l', l.len = some n ∧
      recalculate n l.fullRegionLayout.headerPages l.fullRegionLayout.numPages
        l.fullRegionLayout.pageSize = some l' ∧
      l'.len = some n ∧
      ∀ r, l'.regionLayout r = l.regionLayout r ∧
        l'.regionBaseAddress r = l.regionBaseAddress r := by
  obtain ⟨n, l', hlen, hrecalculate, h', hfull, hpages⟩ := h.exists_recalculate hsize hregions
  obtain ⟨hregions', hlen'⟩ := h.len_congr h' hfull hpages
  refine ⟨n, l', hlen, hrecalculate, hlen'.trans hlen, fun r => ⟨?_, ?_⟩⟩
  · exact h.regionLayout_congr h' hfull hpages r
  · rw [regionBaseAddress, regionBaseAddress, hregions', hfull]

theorem recalculate_len_trailing : ∃ n l', len ⟨⟨8, 1, 512⟩, 2, some ⟨3, 1, 512⟩⟩ = some n ∧
    recalculate n 1 8 512 = some l' ∧ l'.len = some n ∧
    ∀ r, l'.regionLayout r = regionLayout ⟨⟨8, 1, 512⟩, 2, some ⟨3, 1, 512⟩⟩ r ∧
      l'.regionBaseAddress r = regionBaseAddress ⟨⟨8, 1, 512⟩, 2, some ⟨3, 1, 512⟩⟩ r :=
  WellFormed.recalculate_len ⟨by decide, by decide, by decide, fun hr => by
    obtain rfl := Option.some.inj hr
    exact ⟨by decide, by decide, rfl, rfl⟩⟩ (by decide) (by decide)

/-- **A length that is no layout's.** As many pages as fit: the rest is less than a region of one
page. -/
theorem recalculate_spec {n hp N ps : ℕ} (hN : 0 < N) (hps : 0 < ps)
    (hle : ps + (hp + 1) * ps ≤ n) (hsize : (hp + N) * ps ≤ 2 ^ 32)
    (hregions : (n - ps) / ((hp + N) * ps) < 2 ^ 32) :
    ∃ l m, recalculate n hp N ps = some l ∧ l.WellFormed ∧ l.fullRegionLayout = ⟨N, hp, ps⟩ ∧
      l.len = some m ∧ m ≤ n ∧ n < m + (hp + 1) * ps := by
  have hrecalculate := recalculate_eq hp hN hps (by omega) hsize hregions
  have hFpos : 0 < (hp + N) * ps := Nat.mul_pos (by omega) hps
  have hF : RegionLayout.len ⟨N, hp, ps⟩ = (hp + N) * ps := by
    rw [RegionLayout.len, RegionLayout.usableBytes]
    ring
  have hdiv := Nat.div_add_mod (n - ps) ((hp + N) * ps)
  have hlt := Nat.mod_lt (n - ps) hFpos
  have hone : (hp + 1) * ps = hp * ps + ps := by rw [Nat.add_mul, Nat.one_mul]
  have hsplit : (hp + N) * ps = hp * ps + N * ps := Nat.add_mul _ _ _
  generalize (hp + N) * ps = F at *
  generalize (n - ps) / F = q at *
  generalize (n - ps) % F = rem at *
  rw [Nat.mul_comm] at hdiv
  split_ifs at hrecalculate with hfits
  · have hdata : 0 < (rem - hp * ps) / ps := Nat.div_pos (by omega) hps
    have hdata' : (rem - hp * ps) / ps < N := by
      rw [Nat.div_lt_iff_lt_mul hps]
      omega
    have hround := Nat.div_add_mod (rem - hp * ps) ps
    have hround' := Nat.mod_lt (rem - hp * ps) hps
    rw [Nat.mul_comm] at hround
    generalize (rem - hp * ps) / ps = d at *
    generalize (rem - hp * ps) % ps = e at *
    have hwell : WellFormed ⟨⟨N, hp, ps⟩, q, some ⟨d, hp, ps⟩⟩ := by
      refine ⟨hN, hps, Nat.succ_pos _, fun {r} hr => ?_⟩
      obtain rfl := Option.some.inj hr
      exact ⟨hdata, Nat.le_of_lt hdata', rfl, rfl⟩
    have hlast : regionPages ⟨⟨N, hp, ps⟩, q, some ⟨d, hp, ps⟩⟩ = List.replicate q N ++ [d] := rfl
    have hlen := hwell.len_eq (p := d) (by
      rw [hlast, show numRegions ⟨⟨N, hp, ps⟩, q, some ⟨d, hp, ps⟩⟩ = q + 1 from rfl,
        Nat.add_sub_cancel, List.getElem?_append_right (by rw [List.length_replicate]),
        List.length_replicate, Nat.sub_self, List.getElem?_cons_zero])
    rw [show numRegions ⟨⟨N, hp, ps⟩, q, some ⟨d, hp, ps⟩⟩ = q + 1 from rfl,
      Nat.add_sub_cancel, hF] at hlen
    dsimp only at hlen
    rw [Nat.add_mul] at hlen
    exact ⟨_, _, hrecalculate, hwell, rfl, hlen, by omega, by omega⟩
  · have hq : 0 < q := by
      by_contra hzero
      rw [show q = 0 by omega, Nat.zero_mul] at hdiv
      omega
    have hwell : WellFormed ⟨⟨N, hp, ps⟩, q, none⟩ :=
      ⟨hN, hps, hq, fun {r} hr => (by cases hr)⟩
    have hlast : regionPages ⟨⟨N, hp, ps⟩, q, none⟩ = List.replicate q N := List.append_nil _
    have hlen := hwell.len_eq (p := N) (by
      rw [hlast, show numRegions ⟨⟨N, hp, ps⟩, q, none⟩ = q from rfl,
        List.getElem?_replicate_of_lt (by omega)])
    rw [show numRegions ⟨⟨N, hp, ps⟩, q, none⟩ = q from rfl, hF] at hlen
    dsimp only at hlen
    rw [Nat.add_mul] at hlen
    have hsum : (q - 1) * F + F = q * F := by
      rw [← Nat.succ_mul, Nat.succ_eq_add_one, Nat.sub_add_cancel hq]
    exact ⟨_, _, hrecalculate, hwell, rfl, hlen, by omega, by omega⟩

theorem recalculate_spec_unaligned : ∃ l m, recalculate 12345 1 8 512 = some l ∧ l.WellFormed ∧
    l.fullRegionLayout = ⟨8, 1, 512⟩ ∧ l.len = some m ∧ m ≤ 12345 ∧ 12345 < m + 2 * 512 :=
  recalculate_spec (by decide) (by decide) (by decide) (by decide) (by decide)

/-! ### Layouts for a number of pages, and shorter ones -/

theorem RegionLayout.calculate_eq {D N hp ps : ℕ} (hps : 0 < ps) (hle : D ≤ N) (hN : N < 2 ^ 32) :
    RegionLayout.calculate (D * ps) N hp ps = some ⟨D, hp, ps⟩ := by
  rw [RegionLayout.calculate, if_pos (Nat.mul_le_mul_right _ hle), roundUpToMultipleOf,
    if_pos (Nat.mul_mod_left D ps), Nat.mul_div_cancel _ hps, toU32, if_pos (by omega)]
  rfl

/-- A layout for `D` pages: full regions and a rest. -/
theorem calculate_spec {D N ps : ℕ} (hp : ℕ) (hD : 0 < D) (hN : 0 < N) (hps : 0 < ps)
    (hN32 : N < 2 ^ 32) (hregions : D / N < 2 ^ 32) :
    ∃ l, calculate (D * ps) N hp ps = some l ∧ l.WellFormed ∧ l.fullRegionLayout = ⟨N, hp, ps⟩ ∧
      l.regionPages = if D ≤ N then [D]
        else List.replicate (D / N) N ++ if D % N = 0 then [] else [D % N] := by
  have husable : RegionLayout.usableBytes ⟨N, hp, ps⟩ = N * ps := Nat.mul_comm ps N
  rw [calculate, RegionLayout.new, if_pos hN]
  simp only [Option.bind_eq_bind, Option.bind_some, husable]
  by_cases hle : D ≤ N
  · rw [if_pos (Nat.mul_le_mul_right _ hle), RegionLayout.calculate_eq hps hle hN32, if_pos hle]
    refine ⟨⟨⟨N, hp, ps⟩, 0, some ⟨D, hp, ps⟩⟩, rfl, ⟨hN, hps, Nat.one_pos, fun {r} hr => ?_⟩, rfl,
      rfl⟩
    obtain rfl := Option.some.inj hr
    exact ⟨hD, hle, rfl, rfl⟩
  · have hgt : ¬ D * ps ≤ N * ps := fun hmul => hle (Nat.le_of_mul_le_mul_right hmul hps)
    have hdiv : D * ps / (N * ps) = D / N := Nat.mul_div_mul_right _ _ hps
    have hrest : D * ps - D / N * (N * ps) = D % N * ps := by
      rw [← Nat.mul_assoc, ← Nat.sub_mul, Nat.mul_comm (D / N), Nat.mod_eq_sub]
    have hfull : 0 < D / N := Nat.div_pos (by omega) hN
    have hmod := Nat.mod_lt D hN
    rw [if_neg hgt, hdiv, hrest, calculateTrailing, toU32, if_pos hregions, if_neg hle]
    by_cases hzero : D % N = 0
    · rw [if_neg (by rw [hzero, Nat.zero_mul]; exact Nat.lt_irrefl 0), if_pos hzero]
      exact ⟨⟨⟨N, hp, ps⟩, D / N, none⟩, rfl, ⟨hN, hps, hfull, fun {r} hr => (by cases hr)⟩, rfl,
        rfl⟩
    · rw [if_pos (Nat.mul_pos (Nat.pos_of_ne_zero hzero) hps),
        RegionLayout.calculate_eq hps (Nat.le_of_lt hmod) hN32, if_neg hzero]
      refine ⟨⟨⟨N, hp, ps⟩, D / N, some ⟨D % N, hp, ps⟩⟩, rfl,
        ⟨hN, hps, Nat.succ_pos _, fun {r} hr => ?_⟩, rfl, rfl⟩
      obtain rfl := Option.some.inj hr
      exact ⟨Nat.pos_of_ne_zero hzero, Nat.le_of_lt hmod, rfl, rfl⟩

/-- The pages of a layout, counted by the bytes that can be used. -/
theorem WellFormed.usableBytes_eq (h : l.WellFormed) :
    l.usableBytes = l.regionPages.sum * l.fullRegionLayout.pageSize := by
  rw [usableBytes, regionPages, List.sum_append, List.sum_replicate_nat, Nat.add_mul,
    RegionLayout.usableBytes, Nat.mul_comm l.fullRegionLayout.pageSize, Nat.mul_assoc]
  congr 1
  rcases htrailing : l.trailingPartialRegion with _ | t
  · exact (Nat.zero_mul _).symm
  · obtain ⟨-, -, -, hsize⟩ := h.trailing htrailing
    change t.usableBytes = t.numPages * _
    rw [RegionLayout.usableBytes, hsize, Nat.mul_comm]

/-- A layout without some of the last pages: the last region is shorter, or it is gone. -/
theorem WellFormed.reduceLastRegion_spec (h : l.WellFormed) {p pages : ℕ}
    (hp : l.regionPages[l.numRegions - 1]? = some p) (hle : pages ≤ p)
    (hmore : pages < p ∨ 1 < l.numRegions) :
    ∃ l', l.reduceLastRegion pages = some l' ∧ l'.WellFormed ∧
      l'.fullRegionLayout = l.fullRegionLayout ∧
      l'.regionPages = List.replicate (l.numRegions - 1) l.fullRegionLayout.numPages ++
        if pages = p then [] else [p - pages] := by
  have hpos := h.numRegions_pos
  obtain ⟨hppos, hple, -⟩ := h.regionPages_bounds hp
  have hpages := h.regionPages_eq hp
  rw [reduceLastRegion]
  rcases htrailing : l.trailingPartialRegion with _ | t
  · have hregions : l.numRegions = l.numFullRegions := by rw [numRegions, htrailing]; rfl
    have hfull : p = l.fullRegionLayout.numPages := by
      rw [regionPages, htrailing, hregions] at hp
      change (List.replicate _ _ ++ [])[_]? = _ at hp
      rw [List.append_nil, List.getElem?_replicate_of_lt (by omega)] at hp
      exact (Option.some.inj hp).symm
    subst hfull
    dsimp only
    rw [if_neg (by omega), hregions]
    split_ifs with hlt heq
    · omega
    · rw [RegionLayout.new, if_pos (by omega)]
      refine ⟨_, rfl, ⟨h.numPages_pos, h.pageSize_pos, Nat.succ_pos _, fun {r} hr => ?_⟩, rfl, rfl⟩
      obtain rfl := Option.some.inj hr
      exact ⟨by dsimp only; omega, Nat.sub_le _ _, rfl, rfl⟩
    · refine ⟨_, rfl, ⟨h.numPages_pos, h.pageSize_pos, ?_, fun {r} hr => (by cases hr)⟩, rfl, rfl⟩
      change 0 < l.numFullRegions - 1
      omega
    · omega
  · have hregions : l.numRegions = l.numFullRegions + 1 := by rw [numRegions, htrailing]; rfl
    have hfull : p = t.numPages := by
      rw [regionPages, htrailing, hregions, Nat.add_sub_cancel,
        List.getElem?_append_right (by rw [List.length_replicate]), List.length_replicate,
        Nat.sub_self] at hp
      exact (Option.some.inj hp).symm
    subst hfull
    obtain ⟨htpos, htle, hheader, hsize⟩ := h.trailing htrailing
    dsimp only
    rw [if_pos hle, hregions, Nat.add_sub_cancel]
    split_ifs with hzero heq
    · refine ⟨_, rfl, ⟨h.numPages_pos, h.pageSize_pos, ?_, fun {r} hr => (by cases hr)⟩, rfl, rfl⟩
      change 0 < l.numFullRegions
      omega
    · omega
    · omega
    · refine ⟨_, rfl, ⟨h.numPages_pos, h.pageSize_pos, Nat.succ_pos _, fun {r} hr => ?_⟩, rfl, rfl⟩
      obtain rfl := Option.some.inj hr
      exact ⟨by dsimp only; omega, by dsimp only; omega, hheader, hsize⟩

end DatabaseLayout

end Torpor.Redb
