import Mathlib.Algebra.Group.Nat.Defs
import Mathlib.Data.List.Nodup
import Mathlib.Logic.Function.Basic
import Torpor.Lib.Blocks

/-!
# Loading a Child

`map_image` loads an ELF image into the address space of a child: it makes a frame for each page of
the footprint, adds to the rights of each page the flags of the segments that touch it, copies the
data of the segments through a window of the parent, page by page, and maps the frames.
`provision_bytes_into_vspace` does the same with a string of bytes behind its length.

A frame is named by the slot of its capability; the slots are given out in order, from `next` on,
and the contents of the frames are kept by slot. A copy through the window is a change of the
contents of the frame that is mapped there. A panic is `none`; addresses are numbers below `2 ^ 64`, and sums
wrap around, as in the release build. Left out: the intermediate translation tables, and that slots
and memory can run out.

## Main results

* `loadSegments_spec`: the contents of the frames and the rights after all segments.
* `child_loaded`: what the memory of the child is.
-/

namespace Torpor.ChildVspace

/-- `GRANULE_SIZE`. -/
def granuleSize : ℕ := 4096

/-- `PF_X`. -/
def pfX : UInt32 := 1

/-- `PF_W`. -/
def pfW : UInt32 := 2

/-- `PF_R`. -/
def pfR : UInt32 := 4

/-- A segment of an ELF image. -/
structure Segment where
  address : ℕ
  size : ℕ
  pFlags : UInt32
  data : List UInt8
  deriving DecidableEq, Repr

/-- `CapRightsBuilder`, as far as it is used. -/
structure CapRights where
  read : Bool
  write : Bool
  grant : Bool
  deriving DecidableEq, Repr

/-- `CapRightsBuilder::none`. -/
def CapRights.none : CapRights := ⟨false, false, false⟩

/-- `add_rights`. -/
def addRights (rights : CapRights) (pFlags : UInt32) : CapRights :=
  let rights := if pFlags &&& pfR ≠ 0 then { rights with read := true } else rights
  let rights := if pFlags &&& pfW ≠ 0 then { rights with write := true } else rights
  if pFlags &&& pfX ≠ 0 then { rights with grant := true } else rights

/-- `round_down`. -/
def roundDown (n b : ℕ) : ℕ := n - n % b

/-- `n.next_multiple_of(b)`, in 64 bits. -/
def nextMultipleOf (n b : ℕ) : ℕ := if n % b = 0 then n else (n + (b - n % b)) % 2 ^ 64

/-- A range of addresses. -/
structure Range where
  start : ℕ
  stop : ℕ
  deriving DecidableEq, Repr

/-- `Range::len`. -/
def Range.len (r : Range) : ℕ := r.stop - r.start

/-- `coarsen_footprint`. -/
def coarsenFootprint (footprint : Range) (granularity : ℕ) : Range :=
  ⟨roundDown footprint.start granularity, nextMultipleOf footprint.stop granularity⟩

/-- `footprint`. -/
def footprint (image : List Segment) : Option Range := do
  let min ← (image.map fun seg => seg.address).min?
  let max ← (image.map fun seg => (seg.address + seg.size) % 2 ^ 64).max?
  some (coarsenFootprint ⟨min, max⟩ granuleSize)

/-- An element of `pages`: the capability of a frame, and the rights for its page. -/
structure Page where
  cap : ℕ
  rights : CapRights
  deriving DecidableEq, Repr

/-- The contents of the frames, by the slots of their capabilities. -/
abbrev Frames := ℕ → List UInt8

/-- `count` frames, freshly retyped, from the slot `next` on. -/
def Frames.allocate (mem : Frames) (next count : ℕ) : Frames := fun cap =>
  if next ≤ cap ∧ cap < next + count then List.replicate granuleSize 0 else mem cap

/-- `l[offset..][..count]`. -/
def subslice {α : Type} (l : List α) (offset count : ℕ) : Option (List α) :=
  if offset ≤ l.length ∧ count ≤ l.length - offset then some (Blocks.slice l offset count) else none

/-- The loop of `map_image` over the pages with data of a segment. -/
def copyData : List Page → (offsetIntoPage : ℕ) → (data : List UInt8) → Frames → Frames
  | [], _, _, mem => mem
  | page :: pages, offsetIntoPage, data, mem =>
      let dataLen := min (granuleSize - offsetIntoPage) data.length
      let contents := Blocks.overwrite (mem page.cap) offsetIntoPage (data.take dataLen)
      copyData pages 0 (data.drop dataLen) (Function.update mem page.cap contents)

/-- The loop over the pages of a segment. -/
def addRightsFrom (pages : List Page) (offset count : ℕ) (pFlags : UInt32) : List Page :=
  pages.mapIdx fun i page =>
    if offset ≤ i ∧ i < offset + count then
      { page with rights := addRights page.rights pFlags }
    else page

/-- The body of the loop of `map_image` over the segments. -/
def loadSegment (footprint : Range) (loaded : List Page × Frames) (seg : Segment) :
    Option (List Page × Frames) := do
  let (pages, mem) := loaded
  let segmentFootprint :=
    coarsenFootprint ⟨seg.address, (seg.address + seg.size) % 2 ^ 64⟩ granuleSize
  let segmentDataFootprint :=
    coarsenFootprint ⟨seg.address, (seg.address + seg.data.length) % 2 ^ 64⟩ granuleSize
  let numPagesSpannedBySegment := segmentFootprint.len / granuleSize
  let numPagesSpannedBySegmentData := segmentDataFootprint.len / granuleSize
  let segmentPageIndexOffset := (segmentFootprint.start - footprint.start) / granuleSize
  let _ ← subslice pages segmentPageIndexOffset numPagesSpannedBySegment
  let pages := addRightsFrom pages segmentPageIndexOffset numPagesSpannedBySegment seg.pFlags
  let pagesOfData ← subslice pages segmentPageIndexOffset numPagesSpannedBySegmentData
  some (pages, copyData pagesOfData (seg.address % granuleSize) seg.data mem)

/-- A `frame_map` into the address space of the child. -/
structure Mapping where
  addr : ℕ
  cap : ℕ
  rights : CapRights
  deriving DecidableEq, Repr

/-- The last loop of `map_image`. -/
def mapPages (footprint : Range) (pages : List Page) : List Mapping :=
  pages.mapIdx fun i page => ⟨footprint.start + i * granuleSize, page.cap, page.rights⟩

/-- `map_image`: the mappings in their order, and the contents of the frames. -/
def mapImage (footprint : Range) (image : List Segment) (next : ℕ) (mem : Frames) :
    Option (List Mapping × Frames) := do
  let numPages := footprint.len / granuleSize
  let pages := (List.range numPages).map fun i => Page.mk (next + i) CapRights.none
  let (pages, mem) ← image.foldlM (loadSegment footprint) (pages, mem.allocate next numPages)
  some (mapPages footprint pages, mem)

/-- `u64::to_le_bytes`. -/
def toLeBytes (n : ℕ) : List UInt8 := (List.range 8).map fun i => UInt8.ofNat (n / 256 ^ i)

/-- The part of `provision_bytes_into_vspace` that writes the length to a page. -/
def writeHeader (lenBytes : List UInt8) (pageStart : ℕ) (contents : List UInt8) : List UInt8 :=
  let pageEnd := pageStart + granuleSize
  if pageStart < 8 then
    let hEnd := min pageEnd 8
    Blocks.overwrite contents 0 (Blocks.slice lenBytes pageStart (hEnd - pageStart))
  else contents

/-- The part of `provision_bytes_into_vspace` that writes the string to a page. -/
def writeString (data : List UInt8) (pageStart : ℕ) (contents : List UInt8) : List UInt8 :=
  let pageEnd := pageStart + granuleSize
  let dStart := max pageStart 8
  let dEnd := min pageEnd (8 + data.length)
  if dStart < dEnd then
    Blocks.overwrite contents (dStart - pageStart) (Blocks.slice data (dStart - 8) (dEnd - dStart))
  else contents

/-- What `provision_bytes_into_vspace` writes to the frame of the page `i`. -/
def provisionFrame (data : List UInt8) (i : ℕ) (contents : List UInt8) : List UInt8 :=
  let pageStart := i * granuleSize
  let contents := Blocks.overwrite contents 0 (List.replicate granuleSize 0)
  let contents := writeHeader (toLeBytes data.length) pageStart contents
  writeString data pageStart contents

/-- The body of the loop of `provision_bytes_into_vspace`. -/
def provisionPage (data : List UInt8) (baseVa next : ℕ) (provisioned : List Mapping × Frames)
    (i : ℕ) : List Mapping × Frames :=
  let (maps, mem) := provisioned
  (maps ++ [⟨baseVa + i * granuleSize, next + i, ⟨true, true, false⟩⟩],
    Function.update mem (next + i) (provisionFrame data i (mem (next + i))))

/-- `provision_bytes_into_vspace`: the mappings in their order, and the contents of the frames. -/
def provisionBytesIntoVspace (data : List UInt8) (baseVa next : ℕ) (mem : Frames) :
    List Mapping × Frames :=
  let totalLen := 8 + data.length
  let nFrames := (totalLen + (granuleSize - 1)) / granuleSize
  (List.range nFrames).foldl (provisionPage data baseVa next) ([], mem.allocate next nFrames)

/-! ### The memory of frames that follow each other -/

theorem slice_range' {s n offset count : ℕ} (h : offset + count ≤ n) :
    Blocks.slice (List.range' s n) offset count = List.range' (s + offset) count := by
  have hsplit : List.range' s offset ++ List.range' (s + offset) (n - offset) =
      List.range' s n := by
    rw [List.range'_append_1, Nat.add_sub_cancel' (by omega)]
  have hsplit' : List.range' (s + offset) count ++
      List.range' (s + offset + count) (n - offset - count) =
        List.range' (s + offset) (n - offset) := by
    rw [List.range'_append_1, Nat.add_sub_cancel' (by omega)]
  have hoffset : (List.range' s offset).length = offset := List.length_range'
  have hcount : (List.range' (s + offset) count).length = count := List.length_range'
  rw [Blocks.slice, ← hsplit, List.drop_left' hoffset, ← hsplit', List.take_left' hcount]

/-- The bytes of `n` frames, from the slot `s` on. -/
def flat (mem : Frames) (s n : ℕ) : List UInt8 := ((List.range' s n).map mem).flatten

/-- The frames have the size of a page. -/
def Sized (mem : Frames) (s n : ℕ) : Prop := ∀ cap ∈ List.range' s n, (mem cap).length = granuleSize

theorem sized_succ {mem : Frames} {s n : ℕ} :
    Sized mem s (n + 1) ↔ (mem s).length = granuleSize ∧ Sized mem (s + 1) n := by
  rw [Sized, List.range'_succ, List.forall_mem_cons, Sized]

theorem Sized.map {mem : Frames} {s n : ℕ} (h : Sized mem s n) :
    ∀ b ∈ (List.range' s n).map mem, b.length = granuleSize := by
  intro b hb
  obtain ⟨cap, hcap, rfl⟩ := List.mem_map.mp hb
  exact h cap hcap

theorem length_flat {mem : Frames} {s n : ℕ} (h : Sized mem s n) :
    (flat mem s n).length = n * granuleSize := by
  rw [flat, Blocks.length_flatten h.map, List.length_map, List.length_range']

theorem flat_succ (mem : Frames) (s n : ℕ) : flat mem s (n + 1) = mem s ++ flat mem (s + 1) n := by
  rw [flat, List.range'_succ, List.map_cons, List.flatten_cons, flat]

/-- Some of the frames have their part of the bytes. -/
theorem flat_part {mem : Frames} {s n offset count : ℕ} (hcount : offset + count ≤ n)
    (h : Sized mem s n) : flat mem (s + offset) count =
      Blocks.slice (flat mem s n) (offset * granuleSize) (count * granuleSize) := by
  rw [flat, flat, ← Blocks.flatten_slice h.map, ← slice_range' hcount, Blocks.slice, Blocks.slice,
    List.map_take, List.map_drop]

theorem flat_congr {mem mem' : Frames} {s n : ℕ} (h : ∀ cap ∈ List.range' s n, mem cap = mem' cap) :
    flat mem s n = flat mem' s n := by
  rw [flat, flat, List.map_congr_left h]

/-- A change of some of the frames overwrites their part of the bytes. -/
theorem flat_of_part {mem mem' : Frames} {s n offset count : ℕ} (hcount : offset + count ≤ n)
    (h : Sized mem s n) (h' : Sized mem' (s + offset) count)
    (hothers : ∀ cap, cap ∉ List.range' (s + offset) count → mem' cap = mem cap) :
    flat mem' s n =
      Blocks.overwrite (flat mem s n) (offset * granuleSize) (flat mem' (s + offset) count) := by
  rw [flat, flat, flat, ← Blocks.flatten_overwrite h.map h'.map]
  congr 1
  refine List.ext_getElem? fun k => ?_
  rw [Blocks.getElem?_overwrite (by simp only [List.length_map, List.length_range']; exact hcount),
    List.length_map, List.length_range', List.getElem?_map, List.getElem?_map, List.getElem?_map]
  obtain hlt | hge := Nat.lt_or_ge k n
  · rw [List.getElem?_range' hlt, Nat.one_mul]
    split_ifs with hpart
    · rw [List.getElem?_range' (by omega), Nat.one_mul]
      simp only [Option.map_some, Nat.add_assoc, show offset + (k - offset) = k by omega]
    · rw [Option.map_some, Option.map_some, hothers]
      rw [List.mem_range'_1]
      omega
  · rw [if_neg (by omega), List.getElem?_eq_none (by rw [List.length_range']; exact hge)]
    rfl

/-! ### The copy of the data of a segment -/

theorem copyData_of_notMem {pages : List Page} {cap : ℕ} (h : cap ∉ pages.map Page.cap)
    (offset : ℕ) (data : List UInt8) (mem : Frames) :
    copyData pages offset data mem cap = mem cap := by
  induction pages generalizing offset data mem with
  | nil => rfl
  | cons page pages ih =>
      rw [List.map_cons, List.mem_cons, not_or] at h
      rw [copyData, ih h.2, Function.update_of_ne h.1]

/-- A round of the copy writes as much of the data as the page has room for. -/
theorem copyData_cons (page : Page) (pages : List Page) (offset : ℕ) (data : List UInt8)
    (mem : Frames) : copyData (page :: pages) offset data mem =
      copyData pages 0 (data.drop (granuleSize - offset)) (Function.update mem page.cap
        (Blocks.overwrite (mem page.cap) offset (data.take (granuleSize - offset)))) := by
  rw [copyData, ← List.take_eq_take_min, ← List.drop_eq_drop_min]

/-- The copy overwrites the bytes of the pages with the data. -/
theorem copyData_spec {pages : List Page} {s : ℕ}
    (hcaps : pages.map Page.cap = List.range' s pages.length) {offset : ℕ} {data : List UInt8}
    (hoffset : offset ≤ granuleSize)
    (hfits : offset + data.length ≤ pages.length * granuleSize) {mem : Frames}
    (hsized : Sized mem s pages.length) :
    Sized (copyData pages offset data mem) s pages.length ∧
      flat (copyData pages offset data mem) s pages.length =
        Blocks.overwrite (flat mem s pages.length) offset data := by
  induction pages generalizing s offset data mem with
  | nil =>
      have hlength : offset + data.length ≤ 0 := by simpa using hfits
      obtain rfl : data = [] := List.eq_nil_of_length_eq_zero (by omega)
      rw [Blocks.overwrite_nil]
      exact ⟨hsized, rfl⟩
  | cons page pages ih =>
      rw [List.map_cons, List.length_cons, List.range'_succ, List.cons.injEq] at hcaps
      obtain ⟨rfl, hcaps⟩ := hcaps
      rw [List.length_cons, Nat.add_mul, Nat.one_mul] at hfits
      obtain ⟨hpage, hlater⟩ := sized_succ.mp hsized
      have hnew : (Blocks.overwrite (mem page.cap) offset
          (data.take (granuleSize - offset))).length = granuleSize := by
        rw [Blocks.length_overwrite (by rw [List.length_take]; omega), hpage]
      rw [copyData_cons]
      generalize hcontents : Blocks.overwrite (mem page.cap) offset
        (data.take (granuleSize - offset)) = contents at hnew ⊢
      have hothers : ∀ cap ∈ List.range' (page.cap + 1) pages.length,
          Function.update mem page.cap contents cap = mem cap := by
        intro cap hcap
        rw [List.mem_range'_1] at hcap
        exact Function.update_of_ne (by omega) _ _
      have hrest : Sized (Function.update mem page.cap contents) (page.cap + 1) pages.length :=
        fun cap hcap => (congrArg List.length (hothers cap hcap)).trans (hlater cap hcap)
      have hfitsRest : 0 + (data.drop (granuleSize - offset)).length ≤
          pages.length * granuleSize := by
        rw [List.length_drop]
        omega
      obtain ⟨hsizedRest, hflat⟩ := ih hcaps (Nat.zero_le _) hfitsRest hrest
      have hfirst : copyData pages 0 (data.drop (granuleSize - offset))
          (Function.update mem page.cap contents) page.cap = contents := by
        rw [copyData_of_notMem, Function.update_self]
        rw [hcaps, List.mem_range'_1]
        omega
      refine ⟨sized_succ.mpr ⟨by rw [hfirst, hnew], hsizedRest⟩, ?_⟩
      rw [List.length_cons, flat_succ, flat_succ, hfirst, hflat, flat_congr hothers,
        Blocks.overwrite_append_split (by rw [hpage]; exact hoffset), hpage, hcontents]
      rw [hpage, length_flat hlater]
      omega

/-! ### One segment -/

/-- The data of a segment is not longer than the segment, and the segment does not overflow, also
when its end is rounded up to a whole page. -/
structure Segment.Sound (seg : Segment) : Prop where
  data : seg.data.length ≤ seg.size
  fits : seg.address + seg.size ≤ 2 ^ 64 - granuleSize

/-- The segment and the page at an address overlap: each of them starts before the other one ends.
A segment without addresses overlaps with the page that it is inside of. -/
def Segment.Touches (seg : Segment) (page : ℕ) : Prop :=
  seg.address < page + granuleSize ∧ page < seg.address + seg.size

instance (seg : Segment) (page : ℕ) : Decidable (seg.Touches page) :=
  inferInstanceAs (Decidable (_ ∧ _))

/-- A segment that is not empty touches the pages that one of its addresses is in. -/
theorem Segment.touches_iff {seg : Segment} (h : 0 < seg.size) (page : ℕ) :
    seg.Touches page ↔ ∃ v, (seg.address ≤ v ∧ v < seg.address + seg.size) ∧
      page ≤ v ∧ v < page + granuleSize := by
  constructor
  · rintro ⟨hstart, hend⟩
    refine ⟨max seg.address page, ⟨Nat.le_max_left _ _, ?_⟩, Nat.le_max_right _ _, ?_⟩
    · exact Nat.max_lt.mpr ⟨by omega, hend⟩
    · exact Nat.max_lt.mpr ⟨hstart, Nat.lt_add_of_pos_right (by decide)⟩
  · rintro ⟨v, ⟨hstart, hend⟩, hpage, hlast⟩
    exact ⟨by omega, by omega⟩

/-- A page with the rights that a segment adds to it. -/
def Page.touch (addr : ℕ) (page : Page) (seg : Segment) : Page :=
  if seg.Touches addr then { page with rights := addRights page.rights seg.pFlags } else page

@[simp] theorem Page.cap_touch (addr : ℕ) (page : Page) (seg : Segment) :
    (page.touch addr seg).cap = page.cap := by
  rw [Page.touch]
  split_ifs <;> rfl

/-- The range is one of whole pages. -/
structure Range.Whole (r : Range) : Prop where
  start : r.start % granuleSize = 0
  stop : r.stop % granuleSize = 0

/-- The addresses of the segment are in the range. -/
structure Segment.Within (seg : Segment) (r : Range) : Prop where
  start : r.start ≤ seg.address
  stop : seg.address + seg.size ≤ r.stop

theorem nextMultipleOf_eq {n : ℕ} (h : n ≤ 2 ^ 64 - granuleSize) :
    nextMultipleOf n granuleSize = (n + (granuleSize - 1)) / granuleSize * granuleSize := by
  rw [nextMultipleOf]
  split_ifs with hwhole
  · simp only [granuleSize] at *
    omega
  · have hlt : n + (granuleSize - n % granuleSize) < 2 ^ 64 := by
      simp only [granuleSize] at *
      omega
    rw [Nat.mod_eq_of_lt hlt]
    simp only [granuleSize] at *
    omega

theorem roundDown_eq (n : ℕ) : roundDown n granuleSize = n / granuleSize * granuleSize := by
  simp only [roundDown, granuleSize]
  omega

/-- What the loops over the pages of a segment and of its data need of the numbers of pages. -/
structure Span (seg : Segment) (r : Range) (offset count dataCount : ℕ) : Prop where
  segmentInside : offset + count ≤ r.len / granuleSize
  dataInside : offset + dataCount ≤ r.len / granuleSize
  data : seg.address % granuleSize + seg.data.length ≤ dataCount * granuleSize
  place : offset * granuleSize + seg.address % granuleSize = seg.address - r.start
  touches : ∀ i, (offset ≤ i ∧ i < offset + count) ↔ seg.Touches (r.start + i * granuleSize)

/-- The numbers that `load_segment` computes are such. -/
theorem Segment.Within.span {seg : Segment} {r : Range} (h : seg.Within r) (hwhole : r.Whole)
    (hsound : seg.Sound) :
    Span seg r
      (((coarsenFootprint ⟨seg.address, (seg.address + seg.size) % 2 ^ 64⟩ granuleSize).start -
        r.start) / granuleSize)
      ((coarsenFootprint ⟨seg.address, (seg.address + seg.size) % 2 ^ 64⟩ granuleSize).len /
        granuleSize)
      ((coarsenFootprint ⟨seg.address, (seg.address + seg.data.length) % 2 ^ 64⟩ granuleSize).len /
        granuleSize) := by
  obtain ⟨hdata, hfits⟩ := hsound
  obtain ⟨hstart, hstop⟩ := hwhole
  obtain ⟨hfirst, hlast⟩ := h
  have hpow : 2 ^ 64 - granuleSize < 2 ^ 64 := by decide
  have hend : nextMultipleOf ((seg.address + seg.size) % 2 ^ 64) granuleSize =
      (seg.address + seg.size + (granuleSize - 1)) / granuleSize * granuleSize := by
    rw [Nat.mod_eq_of_lt (by omega), nextMultipleOf_eq hfits]
  have hdataEnd : nextMultipleOf ((seg.address + seg.data.length) % 2 ^ 64) granuleSize =
      (seg.address + seg.data.length + (granuleSize - 1)) / granuleSize * granuleSize := by
    rw [Nat.mod_eq_of_lt (by omega), nextMultipleOf_eq (by omega)]
  simp only [coarsenFootprint, Range.len, roundDown_eq, hend, hdataEnd]
  constructor
  · simp only [Range.len, granuleSize] at *
    omega
  · simp only [Range.len, granuleSize] at *
    omega
  · simp only [granuleSize] at *
    omega
  · simp only [granuleSize] at *
    omega
  · intro i
    simp only [Segment.Touches, granuleSize] at *
    omega

theorem subslice_eq {α : Type} {l : List α} {offset count : ℕ} (h : offset + count ≤ l.length) :
    subslice l offset count = some (Blocks.slice l offset count) :=
  if_pos ⟨by omega, by omega⟩

theorem getElem?_addRightsFrom {pages : List Page} {seg : Segment} {r : Range}
    {offset count dataCount : ℕ} (h : Span seg r offset count dataCount) (i : ℕ) :
    (addRightsFrom pages offset count seg.pFlags)[i]? =
      pages[i]?.map (Page.touch (r.start + i * granuleSize) · seg) := by
  rw [addRightsFrom, List.getElem?_mapIdx]
  congr 1
  funext page
  rw [Page.touch]
  by_cases htouch : seg.Touches (r.start + i * granuleSize)
  · rw [if_pos htouch, if_pos ((h.touches i).mpr htouch)]
  · rw [if_neg htouch, if_neg (fun hin => htouch ((h.touches i).mp hin))]

/-- The pages have their frames, one after the other from the slot `next` on. -/
structure Loading (r : Range) (next : ℕ) (pages : List Page) (mem : Frames) : Prop where
  caps : pages.map Page.cap = List.range' next (r.len / granuleSize)
  sized : Sized mem next (r.len / granuleSize)

/-- The bytes with the data of a segment in their place. -/
def writeData (start : ℕ) (bytes : List UInt8) (seg : Segment) : List UInt8 :=
  Blocks.overwrite bytes (seg.address - start) seg.data

namespace Loading

variable {r : Range} {next : ℕ} {pages : List Page} {mem : Frames}

theorem length (h : Loading r next pages mem) : pages.length = r.len / granuleSize := by
  rw [← List.length_map Page.cap, h.caps, List.length_range']

/-- The loop over the rights leaves the frames alone. -/
theorem rights (h : Loading r next pages mem) (offset count : ℕ) (pFlags : UInt32) :
    Loading r next (addRightsFrom pages offset count pFlags) mem := by
  refine ⟨?_, h.sized⟩
  rw [← h.caps]
  refine List.ext_getElem? fun i => ?_
  rw [List.getElem?_map, List.getElem?_map, addRightsFrom, List.getElem?_mapIdx, Option.map_map]
  congr 1
  funext page
  simp only [Function.comp_apply]
  split_ifs <;> rfl

/-- The loop over the data writes the data. -/
theorem copy (h : Loading r next pages mem) {seg : Segment} {offset count dataCount : ℕ}
    (hspan : Span seg r offset count dataCount) {mem' : Frames}
    (hcopy : copyData (Blocks.slice pages offset dataCount) (seg.address % granuleSize) seg.data
      mem = mem') :
    Loading r next pages mem' ∧ flat mem' next (r.len / granuleSize) =
      writeData r.start (flat mem next (r.len / granuleSize)) seg := by
  have hinside := hspan.dataInside
  have hpart : (Blocks.slice pages offset dataCount).length = dataCount :=
    Blocks.length_slice (by rw [h.length]; exact hinside)
  have hcaps : (Blocks.slice pages offset dataCount).map Page.cap =
      List.range' (next + offset) dataCount := by
    rw [← slice_range' hinside, ← h.caps, Blocks.slice, Blocks.slice, List.map_take, List.map_drop]
  have hsub : ∀ cap ∈ List.range' (next + offset) dataCount,
      cap ∈ List.range' next (r.len / granuleSize) := by
    intro cap hcap
    rw [List.mem_range'_1] at hcap ⊢
    omega
  obtain ⟨hsized, hflat⟩ := copyData_spec (hcaps.trans (by rw [hpart]))
    (Nat.le_of_lt (Nat.mod_lt seg.address (by decide))) (by rw [hpart]; exact hspan.data)
    (by rw [hpart]; exact fun cap hcap => h.sized cap (hsub cap hcap))
  rw [hpart, hcopy] at hsized hflat
  have hothers : ∀ cap, cap ∉ List.range' (next + offset) dataCount → mem' cap = mem cap := by
    intro cap hcap
    rw [← hcopy]
    exact copyData_of_notMem (by rw [hcaps]; exact hcap) _ _ _
  refine ⟨⟨h.caps, fun cap hcap => ?_⟩, ?_⟩
  · by_cases hpart : cap ∈ List.range' (next + offset) dataCount
    · exact hsized cap hpart
    · rw [hothers cap hpart]
      exact h.sized cap hcap
  · have hbytes : (offset + dataCount) * granuleSize ≤ r.len / granuleSize * granuleSize :=
      Nat.mul_le_mul_right granuleSize hinside
    rw [Nat.add_mul] at hbytes
    rw [flat_of_part hinside h.sized hsized hothers, hflat, flat_part hinside h.sized,
      Blocks.overwrite_overwrite_slice (by rw [length_flat h.sized]; exact hbytes) hspan.data,
      hspan.place, writeData]

end Loading

/-- A segment writes its data, and it adds its rights to the pages that it touches. -/
theorem loadSegment_spec {r : Range} (hwhole : r.Whole) {seg : Segment} (hwithin : seg.Within r)
    (hsound : seg.Sound) {next : ℕ} {pages : List Page} {mem : Frames}
    (h : Loading r next pages mem) :
    ∃ pages' mem', loadSegment r (pages, mem) seg = some (pages', mem') ∧
      Loading r next pages' mem' ∧
      flat mem' next (r.len / granuleSize) =
        writeData r.start (flat mem next (r.len / granuleSize)) seg ∧
      ∀ i, pages'[i]? = pages[i]?.map (Page.touch (r.start + i * granuleSize) · seg) := by
  have hspan := hwithin.span hwhole hsound
  rw [loadSegment]
  generalize ((coarsenFootprint ⟨seg.address, (seg.address + seg.size) % 2 ^ 64⟩
    granuleSize).start - r.start) / granuleSize = offset at hspan ⊢
  generalize (coarsenFootprint ⟨seg.address, (seg.address + seg.size) % 2 ^ 64⟩
    granuleSize).len / granuleSize = count at hspan ⊢
  generalize (coarsenFootprint ⟨seg.address, (seg.address + seg.data.length) % 2 ^ 64⟩
    granuleSize).len / granuleSize = dataCount at hspan ⊢
  have hrights := h.rights offset count seg.pFlags
  obtain ⟨hloading, hflat⟩ := hrights.copy hspan rfl
  refine ⟨_, _, ?_, hloading, hflat, getElem?_addRightsFrom hspan⟩
  simp only [subslice_eq (h.length.symm ▸ hspan.segmentInside),
    subslice_eq (hrights.length.symm ▸ hspan.dataInside), Option.bind_eq_bind, Option.bind_some]

/-! ### All segments -/

/-- The contents of the frames and the rights after all segments. -/
theorem loadSegments_spec {r : Range} (hwhole : r.Whole) {image : List Segment}
    (hwithin : ∀ seg ∈ image, seg.Within r) (hsound : ∀ seg ∈ image, seg.Sound) {next : ℕ}
    {pages : List Page} {mem : Frames} (h : Loading r next pages mem) :
    ∃ pages' mem', image.foldlM (loadSegment r) (pages, mem) = some (pages', mem') ∧
      Loading r next pages' mem' ∧
      flat mem' next (r.len / granuleSize) =
        image.foldl (writeData r.start) (flat mem next (r.len / granuleSize)) ∧
      ∀ i, pages'[i]? =
        pages[i]?.map fun page => image.foldl (Page.touch (r.start + i * granuleSize)) page := by
  induction image generalizing pages mem with
  | nil => exact ⟨pages, mem, rfl, h, rfl, fun i => (congrFun Option.map_id pages[i]?).symm⟩
  | cons seg image ih =>
      obtain ⟨pages₁, mem₁, hload, hloading, hflat, htouch⟩ := loadSegment_spec hwhole
        (hwithin seg List.mem_cons_self) (hsound seg List.mem_cons_self) h
      obtain ⟨pages₂, mem₂, hrest, hloaded, hbytes, hrights⟩ :=
        ih (fun seg' hseg => hwithin seg' (List.mem_cons_of_mem seg hseg))
          (fun seg' hseg => hsound seg' (List.mem_cons_of_mem seg hseg)) hloading
      refine ⟨pages₂, mem₂, ?_, hloaded, ?_, fun i => ?_⟩
      · rw [List.foldlM_cons, hload]
        exact hrest
      · rw [hbytes, hflat, List.foldl_cons]
      · rw [hrights, htouch, Option.map_map]
        rfl

/-- The segment has the address. -/
def Segment.Has (seg : Segment) (v : ℕ) : Prop := seg.address ≤ v ∧ v < seg.address + seg.size

/-- The segment has data for the address. -/
def Segment.HasData (seg : Segment) (v : ℕ) : Prop :=
  seg.address ≤ v ∧ v < seg.address + seg.data.length

/-- No address is in both segments. -/
def Segment.Disjoint (a b : Segment) : Prop := ∀ v, a.Has v → ¬b.Has v

theorem Segment.HasData.has {seg : Segment} {v : ℕ} (h : seg.HasData v) (hsound : seg.Sound) :
    seg.Has v :=
  ⟨h.1, Nat.lt_of_lt_of_le h.2 (Nat.add_le_add_left hsound.data _)⟩

/-- The bytes have a place for the data of the segment. -/
def Segment.FitsIn (seg : Segment) (start : ℕ) (bytes : List UInt8) : Prop :=
  start ≤ seg.address ∧ seg.address - start + seg.data.length ≤ bytes.length

theorem length_writeData {start : ℕ} {bytes : List UInt8} {seg : Segment}
    (h : seg.FitsIn start bytes) : (writeData start bytes seg).length = bytes.length :=
  Blocks.length_overwrite h.2

theorem fitsIn_writeData {start : ℕ} {bytes : List UInt8} {seg seg' : Segment}
    (h : seg.FitsIn start bytes) (h' : seg'.FitsIn start bytes) :
    seg'.FitsIn start (writeData start bytes seg) := by
  rw [Segment.FitsIn, length_writeData h]
  exact h'

/-- Where no segment has data, the bytes are as before. -/
theorem getElem?_writeData_of_none {start : ℕ} {image : List Segment} {v : ℕ} (hv : start ≤ v)
    (hnone : ∀ seg ∈ image, ¬seg.HasData v) {bytes : List UInt8}
    (hfits : ∀ seg ∈ image, seg.FitsIn start bytes) :
    (image.foldl (writeData start) bytes)[v - start]? = bytes[v - start]? := by
  induction image generalizing bytes with
  | nil => rfl
  | cons seg image ih =>
      have hseg := hfits seg List.mem_cons_self
      have hout := hnone seg List.mem_cons_self
      rw [List.foldl_cons, ih (fun seg' h => hnone seg' (List.mem_cons_of_mem seg h))
        (fun seg' h => fitsIn_writeData hseg (hfits seg' (List.mem_cons_of_mem seg h))), writeData,
        Blocks.getElem?_overwrite hseg.2, if_neg]
      rintro ⟨hge, hlt⟩
      have := hseg.1
      exact hout ⟨by omega, by omega⟩

/-- Where a segment has data, the bytes are this data: no later segment writes there. -/
theorem getElem?_writeData_of_mem {start : ℕ} {image : List Segment}
    (hsound : ∀ seg ∈ image, seg.Sound) (hdisjoint : image.Pairwise Segment.Disjoint)
    {seg : Segment} (hseg : seg ∈ image) {v : ℕ} (hdata : seg.HasData v) {bytes : List UInt8}
    (hfits : ∀ seg ∈ image, seg.FitsIn start bytes) :
    (image.foldl (writeData start) bytes)[v - start]? = seg.data[v - seg.address]? := by
  induction image generalizing bytes with
  | nil => cases hseg
  | cons head image ih =>
      obtain ⟨hhead, hrest⟩ := List.pairwise_cons.mp hdisjoint
      have hfirst := hfits head List.mem_cons_self
      have hlater : ∀ seg' ∈ image, seg'.FitsIn start (writeData start bytes head) := fun seg' h =>
        fitsIn_writeData hfirst (hfits seg' (List.mem_cons_of_mem head h))
      rw [List.foldl_cons]
      obtain rfl | htail := List.mem_cons.mp hseg
      · have hstart := hfirst.1
        obtain ⟨hge, hlt⟩ := hdata
        rw [getElem?_writeData_of_none (by omega) (fun seg' h hdata' => hhead seg' h v
          (Segment.HasData.has ⟨hge, hlt⟩ (hsound seg hseg))
          (hdata'.has (hsound seg' (List.mem_cons_of_mem seg h)))) hlater, writeData,
          Blocks.getElem?_overwrite hfirst.2, if_pos (by omega)]
        congr 1
        omega
      · exact ih (fun seg' h => hsound seg' (List.mem_cons_of_mem head h)) hrest htail hlater

/-! ### Rights -/

/-- A right of a mapping. -/
inductive Right
  | read
  | write
  | grant
  deriving DecidableEq, Repr

/-- The flag of a segment that gives the right. -/
def Right.flag : Right → UInt32
  | .read => pfR
  | .write => pfW
  | .grant => pfX

/-- The right is given. -/
def CapRights.has (rights : CapRights) : Right → Bool
  | .read => rights.read
  | .write => rights.write
  | .grant => rights.grant

theorem has_addRights (rights : CapRights) (pFlags : UInt32) (right : Right) :
    (addRights rights pFlags).has right = true ↔
      rights.has right = true ∨ pFlags &&& right.flag ≠ 0 := by
  rw [addRights]
  cases right <;> simp only [CapRights.has, Right.flag] <;> split_ifs <;> simp_all

/-- The rights of a page are those that it had, and those of the segments that touch it. -/
theorem has_foldl_touch (addr : ℕ) (image : List Segment) (page : Page) (right : Right) :
    (image.foldl (Page.touch addr) page).rights.has right = true ↔
      page.rights.has right = true ∨
        ∃ seg ∈ image, seg.Touches addr ∧ seg.pFlags &&& right.flag ≠ 0 := by
  induction image generalizing page with
  | nil => simp
  | cons seg image ih =>
      rw [List.foldl_cons, ih, Page.touch]
      simp only [List.exists_mem_cons_iff]
      by_cases htouch : seg.Touches addr
      · rw [if_pos htouch, has_addRights]
        tauto
      · rw [if_neg htouch]
        tauto

/-! ### The memory of the child -/

/-- The footprint is a range of whole pages, with the addresses of all segments. -/
theorem footprint_spec {image : List Segment} (hsound : ∀ seg ∈ image, seg.Sound) {r : Range}
    (h : footprint image = some r) : r.Whole ∧ ∀ seg ∈ image, seg.Within r := by
  simp only [footprint, Option.bind_eq_bind, Option.bind_eq_some_iff, Option.some.injEq] at h
  obtain ⟨first, hmin, last, hmax, rfl⟩ := h
  obtain ⟨-, hfirst⟩ := List.min?_eq_some_iff.mp hmin
  obtain ⟨hmem, hlast⟩ := List.max?_eq_some_iff.mp hmax
  have hend : ∀ seg ∈ image, (seg.address + seg.size) % 2 ^ 64 = seg.address + seg.size := by
    intro seg hseg
    have hpow : 2 ^ 64 - granuleSize < 2 ^ 64 := by decide
    exact Nat.mod_eq_of_lt (Nat.lt_of_le_of_lt (hsound seg hseg).fits hpow)
  have hfits : last ≤ 2 ^ 64 - granuleSize := by
    obtain ⟨seg, hseg, rfl⟩ := List.mem_map.mp hmem
    rw [hend seg hseg]
    exact (hsound seg hseg).fits
  simp only [coarsenFootprint, roundDown_eq, nextMultipleOf_eq hfits]
  refine ⟨⟨Nat.mul_mod_left _ _, Nat.mul_mod_left _ _⟩, fun seg hseg => ?_⟩
  have hstart := hfirst _ (List.mem_map_of_mem hseg)
  have hstop := hlast _ (List.mem_map_of_mem hseg)
  simp only [hend seg hseg] at hstop
  constructor
  · exact Nat.le_trans (Nat.div_mul_le_self first granuleSize) hstart
  · simp only [granuleSize]
    omega

/-- The byte that the child has at an address. -/
def byteAt (maps : List Mapping) (mem : Frames) (v : ℕ) : Option UInt8 :=
  (maps.find? fun m => decide (m.addr ≤ v ∧ v < m.addr + granuleSize)).bind fun m =>
    (mem m.cap)[v - m.addr]?

/-- The memory of the child is that of the frames, one after the other. -/
theorem byteAt_mapPages {r : Range} (hwhole : r.Whole) {next : ℕ} {pages : List Page}
    {mem : Frames} (h : Loading r next pages mem) {v : ℕ} (hstart : r.start ≤ v)
    (hstop : v < r.stop) :
    byteAt (mapPages r pages) mem v = (flat mem next (r.len / granuleSize))[v - r.start]? := by
  obtain ⟨hfirst, hlast⟩ := hwhole
  have hindex : (v - r.start) / granuleSize < r.len / granuleSize := by
    simp only [Range.len, granuleSize] at *
    omega
  have hplace : v - r.start = (v - r.start) / granuleSize * granuleSize +
      (v - r.start) % granuleSize := (Nat.div_add_mod' _ _).symm
  have hmod : (v - r.start) % granuleSize < granuleSize := Nat.mod_lt _ (by decide)
  generalize (v - r.start) / granuleSize = i at hindex hplace
  generalize (v - r.start) % granuleSize = j at hplace hmod
  have hlt : i < pages.length := by rwa [h.length]
  have hcap : pages[i].cap = next + i := by
    have hcaps : (pages.map Page.cap)[i]? = some (next + i) := by
      rw [h.caps, List.getElem?_range' hindex, Nat.one_mul]
    rw [List.getElem?_map, List.getElem?_eq_getElem hlt, Option.map_some] at hcaps
    exact Option.some.inj hcaps
  have hfind : (mapPages r pages).find?
      (fun m => decide (m.addr ≤ v ∧ v < m.addr + granuleSize)) =
        some ⟨r.start + i * granuleSize, pages[i].cap, pages[i].rights⟩ := by
    rw [List.find?_eq_some_iff_getElem]
    refine ⟨decide_eq_true ⟨by simp only; omega, by simp only; omega⟩, i,
      by rwa [mapPages, List.length_mapIdx], by simp only [mapPages, List.getElem_mapIdx], ?_⟩
    intro k hk
    have hbelow : k * granuleSize + granuleSize ≤ i * granuleSize := by
      rw [← Nat.succ_mul]
      exact Nat.mul_le_mul_right granuleSize hk
    simp only [mapPages, List.getElem_mapIdx, Bool.not_eq_true', decide_eq_false_iff_not]
    omega
  rw [byteAt, hfind, Option.bind_some, hplace, flat, Blocks.getElem?_flatten h.sized.map i hmod,
    List.getElem?_map, List.getElem?_range' hindex, Nat.one_mul, Option.map_some, Option.bind_some,
    hcap]
  congr 1
  simp only
  omega

/-- The memory of a child is exactly what its image says: each page of the footprint is mapped once,
with a frame of its own, the segments are inside, each address has the byte of the segment that has
data for it, or zero, and the rights of a page are those of the segments that touch it. -/
structure Loaded (image : List Segment) (r : Range) (maps : List Mapping) (mem : Frames) :
    Prop where
  pages : maps.map Mapping.addr =
    (List.range (r.len / granuleSize)).map fun i => r.start + i * granuleSize
  own : (maps.map Mapping.cap).Nodup
  within : ∀ seg ∈ image, seg.Within r
  data : ∀ v, r.start ≤ v → v < r.stop → ∀ seg ∈ image, seg.HasData v →
    byteAt maps mem v = seg.data[v - seg.address]?
  zero : ∀ v, r.start ≤ v → v < r.stop → (∀ seg ∈ image, ¬seg.HasData v) →
    byteAt maps mem v = some 0
  rights : ∀ m ∈ maps, ∀ right : Right, m.rights.has right = true ↔
    ∃ seg ∈ image, seg.Touches m.addr ∧ seg.pFlags &&& right.flag ≠ 0

theorem flat_allocate (mem : Frames) (next n : ℕ) :
    flat (mem.allocate next n) next n = List.replicate (n * granuleSize) 0 := by
  have hzero : ∀ cap ∈ List.range' next n,
      mem.allocate next n cap = List.replicate granuleSize 0 := by
    intro cap hcap
    rw [List.mem_range'_1] at hcap
    exact if_pos hcap
  rw [flat, List.map_congr_left hzero, List.map_const', List.length_range',
    List.flatten_replicate_replicate]

theorem sized_allocate (mem : Frames) (next n : ℕ) : Sized (mem.allocate next n) next n := by
  intro cap hcap
  rw [List.mem_range'_1] at hcap
  rw [Frames.allocate, if_pos hcap, List.length_replicate]

theorem CapRights.has_none (right : Right) : CapRights.none.has right = false := by
  cases right <;> rfl

theorem loading_allocate (r : Range) (next : ℕ) (mem : Frames) :
    Loading r next
      ((List.range (r.len / granuleSize)).map fun i => Page.mk (next + i) CapRights.none)
      (mem.allocate next (r.len / granuleSize)) := by
  refine ⟨?_, sized_allocate mem next _⟩
  rw [List.map_map, List.range'_eq_map_range]
  rfl

theorem mapPages_addr (r : Range) (pages : List Page) : (mapPages r pages).map Mapping.addr =
    (List.range pages.length).map fun i => r.start + i * granuleSize := by
  refine List.ext_getElem (by simp only [mapPages, List.length_map, List.length_mapIdx,
    List.length_range]) fun i _ _ => ?_
  simp only [mapPages, List.getElem_map, List.getElem_mapIdx, List.getElem_range]

theorem mapPages_cap (r : Range) (pages : List Page) :
    (mapPages r pages).map Mapping.cap = pages.map Page.cap := by
  refine List.ext_getElem (by simp only [mapPages, List.length_map, List.length_mapIdx])
    fun i _ _ => ?_
  simp only [mapPages, List.getElem_map, List.getElem_mapIdx]

/-- An image of disjoint segments is loaded as it is. -/
theorem mapImage_loaded {image : List Segment} (hsound : ∀ seg ∈ image, seg.Sound)
    (hdisjoint : image.Pairwise Segment.Disjoint) {r : Range} (hr : footprint image = some r)
    (next : ℕ) (mem : Frames) :
    ∃ maps mem', mapImage r image next mem = some (maps, mem') ∧ Loaded image r maps mem' := by
  obtain ⟨hwhole, hwithin⟩ := footprint_spec hsound hr
  obtain ⟨pages, mem', hload, hloaded, hflat, hpages⟩ :=
    loadSegments_spec hwhole hwithin hsound (loading_allocate r next mem)
  rw [flat_allocate] at hflat
  have hlength : r.len / granuleSize * granuleSize = r.stop - r.start := by
    obtain ⟨hfirst, hlast⟩ := hwhole
    simp only [Range.len, granuleSize] at *
    omega
  have hfits : ∀ seg ∈ image, seg.FitsIn r.start
      (List.replicate (r.len / granuleSize * granuleSize) 0) := by
    intro seg hseg
    obtain ⟨hstart, hstop⟩ := hwithin seg hseg
    have hdata := (hsound seg hseg).data
    rw [Segment.FitsIn, List.length_replicate, hlength]
    omega
  have hbyte : ∀ v, r.start ≤ v → v < r.stop → byteAt (mapPages r pages) mem' v =
      (image.foldl (writeData r.start)
        (List.replicate (r.len / granuleSize * granuleSize) 0))[v - r.start]? := by
    intro v hstart hstop
    rw [byteAt_mapPages hwhole hloaded hstart hstop, hflat]
  refine ⟨mapPages r pages, mem', ?_, ?_, ?_, hwithin, ?_, ?_, ?_⟩
  · simp only [mapImage, hload, Option.bind_eq_bind, Option.bind_some]
  · rw [mapPages_addr, hloaded.length]
  · rw [mapPages_cap, hloaded.caps]
    exact List.nodup_range'
  · intro v hstart hstop seg hseg hdata
    rw [hbyte v hstart hstop, getElem?_writeData_of_mem hsound hdisjoint hseg hdata hfits]
  · intro v hstart hstop hnone
    rw [hbyte v hstart hstop, getElem?_writeData_of_none hstart hnone hfits,
      List.getElem?_replicate, if_pos (by omega)]
  · intro m hm right
    obtain ⟨i, hi, rfl⟩ := List.mem_mapIdx.mp hm
    have hpage := hpages i
    have hlt : i < r.len / granuleSize := by rwa [← hloaded.length]
    rw [List.getElem?_eq_getElem hi, List.getElem?_map, List.getElem?_range hlt, Option.map_some,
      Option.map_some, Option.some.injEq] at hpage
    simp only [hpage]
    rw [has_foldl_touch, CapRights.has_none]
    simp only [Bool.false_eq_true, false_or]

/-! ### A string of bytes -/

/-- The frames that a string of bytes is provisioned in: in as few pages as hold it, from the
address `baseVa` on, they are its length, in eight bytes, the string, and zeros. -/
structure Provisioned (data : List UInt8) (baseVa : ℕ) (maps : List Mapping) (mem : Frames) :
    Prop where
  count : maps.length = (8 + data.length + (granuleSize - 1)) / granuleSize
  pages : maps.map Mapping.addr =
    (List.range maps.length).map fun i => baseVa + i * granuleSize
  own : (maps.map Mapping.cap).Nodup
  sized : ∀ m ∈ maps, (mem m.cap).length = granuleSize
  bytes : (maps.map fun m => mem m.cap).flatten = toLeBytes data.length ++ data ++
    List.replicate (maps.length * granuleSize - (8 + data.length)) 0

theorem length_toLeBytes (n : ℕ) : (toLeBytes n).length = 8 := by
  rw [toLeBytes, List.length_map, List.length_range]

/-- What is at a place of the length, the string and `n` zeros. -/
theorem getElem?_payload (data : List UInt8) (n k : ℕ) :
    (toLeBytes data.length ++ data ++ List.replicate n 0)[k]? =
      if k < 8 then (toLeBytes data.length)[k]?
      else if k < 8 + data.length then data[k - 8]?
      else if k < 8 + data.length + n then some 0 else none := by
  have hlength : (toLeBytes data.length ++ data).length = 8 + data.length := by
    rw [List.length_append, length_toLeBytes]
  split_ifs with hheader hdata hzero
  · rw [List.getElem?_append_left (by omega), List.getElem?_append_left
      (by rw [length_toLeBytes]; exact hheader)]
  · rw [List.getElem?_append_left (by omega), List.getElem?_append_right
      (by rw [length_toLeBytes]; omega), length_toLeBytes]
  · rw [List.getElem?_append_right (by omega), List.getElem?_replicate, if_pos (by omega)]
  · rw [List.getElem?_append_right (by omega), List.getElem?_replicate, if_neg (by omega)]

theorem length_writeHeader {lenBytes contents : List UInt8} (h : contents.length = granuleSize)
    (pageStart : ℕ) : (writeHeader lenBytes pageStart contents).length = granuleSize := by
  rw [writeHeader]
  split_ifs with hfirst
  · rw [Blocks.length_overwrite, h]
    rw [Blocks.slice, List.length_take, List.length_drop, h]
    omega
  · exact h

/-- The first eight bytes of the first page are the length; the others are left alone. -/
theorem getElem?_writeHeader {lenBytes contents : List UInt8} (hbytes : lenBytes.length = 8)
    (h : contents.length = granuleSize) (i k : ℕ) :
    (writeHeader lenBytes (i * granuleSize) contents)[k]? =
      if i * granuleSize + k < 8 then lenBytes[i * granuleSize + k]? else contents[k]? := by
  rw [writeHeader]
  obtain rfl | hlater := Nat.eq_zero_or_pos i
  · have hwhole : Blocks.slice lenBytes 0 (min (0 + granuleSize) 8 - 0) = lenBytes := by
      rw [Blocks.slice, List.drop_zero, List.take_of_length_le]
      simp only [granuleSize]
      omega
    simp only [Nat.zero_mul]
    rw [hwhole, if_pos (by omega),
      Blocks.getElem?_overwrite (by rw [hbytes, h]; decide), hbytes]
    simp only [Nat.zero_add, Nat.sub_zero, Nat.zero_le, true_and]
  · have hfar : 8 ≤ i * granuleSize := by
      simp only [granuleSize]
      omega
    rw [if_neg (by omega), if_neg (by omega)]

theorem length_slice_string (data : List UInt8) (start : ℕ) :
    (Blocks.slice data (max start 8 - 8)
      (min (start + granuleSize) (8 + data.length) - max start 8)).length =
        min (start + granuleSize) (8 + data.length) - max start 8 := by
  rw [Blocks.slice, List.length_take, List.length_drop]
  omega

theorem length_writeString {contents : List UInt8} (h : contents.length = granuleSize)
    (data : List UInt8) (start : ℕ) : (writeString data start contents).length = granuleSize := by
  rw [writeString]
  split_ifs with hdata
  · rw [Blocks.length_overwrite, h]
    rw [length_slice_string, h]
    omega
  · exact h

/-- The bytes of the page from the eighth one of all on, and as far as the string goes, are those
of the string; the others are left alone. -/
theorem getElem?_writeString {contents : List UInt8} (h : contents.length = granuleSize)
    (data : List UInt8) (start : ℕ) {k : ℕ} (hk : k < granuleSize) :
    (writeString data start contents)[k]? =
      if 8 ≤ start + k ∧ start + k < 8 + data.length then data[start + k - 8]?
      else contents[k]? := by
  rw [writeString]
  have hlength := length_slice_string data start
  by_cases hdata : max start 8 < min (start + granuleSize) (8 + data.length)
  · rw [if_pos hdata, Blocks.getElem?_overwrite (by rw [hlength, h]; omega), hlength]
    by_cases hin : 8 ≤ start + k ∧ start + k < 8 + data.length
    · rw [if_pos (by omega), if_pos hin, Blocks.getElem?_slice (by omega)]
      congr 1
      omega
    · rw [if_neg (by omega), if_neg hin]
  · rw [if_neg hdata, if_neg (by omega)]

/-- A frame gets its part of the length, the string and the zeros. -/
theorem provisionFrame_eq {data contents : List UInt8} (h : contents.length = granuleSize)
    {i n : ℕ} (hi : i * granuleSize + granuleSize ≤ 8 + data.length + n) :
    provisionFrame data i contents =
      Blocks.slice (toLeBytes data.length ++ data ++ List.replicate n 0) (i * granuleSize)
        granuleSize := by
  have hzeros : Blocks.overwrite contents 0 (List.replicate granuleSize 0) =
      List.replicate granuleSize 0 := Blocks.overwrite_all (by rw [List.length_replicate, h])
  have hblank : (List.replicate granuleSize (0 : UInt8)).length = granuleSize :=
    List.length_replicate
  have hheader := @length_writeHeader (toLeBytes data.length) _ hblank (i * granuleSize)
  simp only [provisionFrame, hzeros]
  refine List.ext_getElem? fun k => ?_
  obtain hk | hk := Nat.lt_or_ge k granuleSize
  · rw [getElem?_writeString hheader data _ hk,
      getElem?_writeHeader (length_toLeBytes _) hblank, Blocks.getElem?_slice hk,
      getElem?_payload, List.getElem?_replicate, if_pos hk]
    by_cases hhead : i * granuleSize + k < 8
    · rw [if_neg (by omega), if_pos hhead, if_pos hhead]
    · rw [if_neg hhead, if_neg hhead]
      by_cases hdata : i * granuleSize + k < 8 + data.length
      · rw [if_pos ⟨by omega, hdata⟩, if_pos hdata]
      · rw [if_neg (fun hin => hdata hin.2), if_neg hdata, if_pos (by omega)]
  · rw [List.getElem?_eq_none (by rw [length_writeString hheader]; exact hk),
      List.getElem?_eq_none]
    rw [Blocks.slice, List.length_take]
    omega

/-- The frames after `count` rounds. -/
def provisionedFrames (data : List UInt8) (next : ℕ) (mem : Frames) (count : ℕ) : Frames :=
  fun cap =>
    if next ≤ cap ∧ cap < next + count then provisionFrame data (cap - next) (mem cap) else mem cap

theorem provisionedFrames_slot (data : List UInt8) (next : ℕ) (mem : Frames) {i count : ℕ}
    (h : i < count) :
    provisionedFrames data next mem count (next + i) = provisionFrame data i (mem (next + i)) := by
  rw [provisionedFrames, if_pos (by omega), Nat.add_sub_cancel_left]

/-- A round writes the next frame. -/
theorem provisionedFrames_succ (data : List UInt8) (next : ℕ) (mem : Frames) (count : ℕ) :
    Function.update (provisionedFrames data next mem count) (next + count)
      (provisionFrame data count (provisionedFrames data next mem count (next + count))) =
        provisionedFrames data next mem (count + 1) := by
  have hbefore : provisionedFrames data next mem count (next + count) = mem (next + count) :=
    if_neg (by omega)
  funext cap
  rw [hbefore, Function.update_apply]
  split_ifs with hcap
  · rw [hcap, provisionedFrames_slot data next mem (Nat.lt_succ_self count)]
  · rw [provisionedFrames, provisionedFrames]
    by_cases hin : next ≤ cap ∧ cap < next + count
    · rw [if_pos hin, if_pos (by omega)]
    · rw [if_neg hin, if_neg (by omega)]

/-- After `count` rounds, `count` frames are mapped and written. -/
theorem provision_rounds (data : List UInt8) (baseVa next : ℕ) (mem : Frames) (count : ℕ) :
    (List.range count).foldl (provisionPage data baseVa next) ([], mem) =
    ((List.range count).map fun i => ⟨baseVa + i * granuleSize, next + i, ⟨true, true, false⟩⟩,
      provisionedFrames data next mem count) := by
  induction count with
  | zero =>
      refine Prod.ext rfl ?_
      funext cap
      exact (if_neg (by omega)).symm
  | succ count ih =>
      rw [List.range_succ, List.foldl_append, ih, List.map_append]
      exact Prod.ext rfl (provisionedFrames_succ data next mem count)

/-- A string of bytes is provisioned as it is, whatever it is. -/
theorem provisionBytes_provisioned (data : List UInt8) (baseVa next : ℕ) (mem : Frames) :
    Provisioned data baseVa (provisionBytesIntoVspace data baseVa next mem).1
      (provisionBytesIntoVspace data baseVa next mem).2 := by
  rw [provisionBytesIntoVspace]
  simp only [provision_rounds]
  generalize hcount : (8 + data.length + (granuleSize - 1)) / granuleSize = count
  have hroom : 8 + data.length ≤ count * granuleSize := by
    simp only [granuleSize] at *
    omega
  generalize hpayload : toLeBytes data.length ++ data ++
    List.replicate (count * granuleSize - (8 + data.length)) 0 = payload
  have hlength : payload.length = count * granuleSize := by
    rw [← hpayload, List.length_append, List.length_append, length_toLeBytes,
      List.length_replicate]
    omega
  have hinside : ∀ i < count, i * granuleSize + granuleSize ≤ count * granuleSize := by
    intro i hi
    rw [← Nat.succ_mul]
    exact Nat.mul_le_mul_right granuleSize hi
  have hframe : ∀ i < count,
      provisionedFrames data next (mem.allocate next count) count (next + i) =
        Blocks.slice payload (i * granuleSize) granuleSize := by
    intro i hi
    have hnext := hinside i hi
    rw [provisionedFrames_slot _ _ _ hi, ← hpayload]
    refine provisionFrame_eq ?_ (by omega)
    rw [Frames.allocate, if_pos (by omega), List.length_replicate]
  constructor
  · rw [List.length_map, List.length_range]
    exact hcount.symm
  · rw [List.map_map, List.length_map, List.length_range]
    rfl
  · rw [List.map_map]
    exact List.Nodup.map (fun i j h => Nat.add_left_cancel h) List.nodup_range
  · intro m hm
    obtain ⟨i, hi, rfl⟩ := List.mem_map.mp hm
    have hlt := List.mem_range.mp hi
    simp only [hframe i hlt]
    exact Blocks.length_slice (by rw [hlength]; exact hinside i hlt)
  · have hblocks : (List.range count).map (fun i =>
        provisionedFrames data next (mem.allocate next count) count (next + i)) =
          Blocks.chunks granuleSize count payload :=
      List.map_congr_left fun i hi => hframe i (List.mem_range.mp hi)
    rw [List.map_map, List.length_map, List.length_range, hpayload]
    refine (congrArg List.flatten hblocks).trans ?_
    rw [Blocks.flatten_chunks, List.take_of_length_le (Nat.le_of_eq hlength)]

/-! ### Main result -/

/-- The memory of a child is exactly what its image says, and a string of bytes is provisioned
as it is. -/
theorem child_loaded {image : List Segment} (hsound : ∀ seg ∈ image, seg.Sound)
    (hdisjoint : image.Pairwise Segment.Disjoint) {r : Range} (hr : footprint image = some r)
    (next : ℕ) (mem : Frames) :
    (∃ maps mem', mapImage r image next mem = some (maps, mem') ∧ Loaded image r maps mem') ∧
      ∀ (data : List UInt8) (baseVa : ℕ),
        Provisioned data baseVa (provisionBytesIntoVspace data baseVa next mem).1
          (provisionBytesIntoVspace data baseVa next mem).2 :=
  ⟨mapImage_loaded hsound hdisjoint hr next mem,
    fun data baseVa => provisionBytes_provisioned data baseVa next mem⟩

/-- Code that ends in the page that the data begins in. -/
def sharedImage : List Segment :=
  [⟨0x1000, 0xffa, 5, [0x13, 0x00, 0x00, 0x00]⟩, ⟨0x1ffe, 4, 6, [1, 2, 3]⟩]

theorem child_loaded_shared :
    (∃ maps mem', mapImage ⟨0x1000, 0x3000⟩ sharedImage 7 (fun _ => []) = some (maps, mem') ∧
      Loaded sharedImage ⟨0x1000, 0x3000⟩ maps mem') ∧
    ∀ (data : List UInt8) (baseVa : ℕ),
      Provisioned data baseVa (provisionBytesIntoVspace data baseVa 7 fun _ => []).1
        (provisionBytesIntoVspace data baseVa 7 fun _ => []).2 := by
  have hsound : ∀ seg ∈ sharedImage, seg.Sound := by
    intro seg hseg
    simp only [sharedImage, List.mem_cons, List.not_mem_nil, or_false] at hseg
    obtain rfl | rfl := hseg <;> exact ⟨by decide, by decide⟩
  have hdisjoint : sharedImage.Pairwise Segment.Disjoint := by
    rw [sharedImage, List.pairwise_pair]
    intro v hcode hdata
    simp only [Segment.Has] at hcode hdata
    omega
  exact child_loaded hsound hdisjoint rfl 7 fun _ => []

end Torpor.ChildVspace
