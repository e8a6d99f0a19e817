import Torpor.Lib.SortedIndex

/-!
# Sorted Maps

A map kept as a list of entries with strictly increasing keys: an ordered key-value store as
far as lookups, writes and scans in the order of the keys can see it. The order of the keys is
a field, so that two maps with the same entries are equal and writing what is there already
changes nothing.

## Main results

* `SortedMap.get_put`: a lookup after a write.
* `SortedMap.put_of_get`: writing what is there already.
* `SortedMap.ext_get`: a map is determined by its lookups.
* `SortedMap.keys_put`: the keys of a map are a sorted index.
-/

open SortedIndex

variable {κ β : Type*} [LinearOrder κ]

/-- A map, listed in the order of its keys. -/
@[ext]
structure SortedMap (κ β : Type*) [LinearOrder κ] where
  entries : List (κ × β)
  sorted : Sorted (entries.map Prod.fst)

namespace SortedMap

instance [DecidableEq β] : DecidableEq (SortedMap κ β) := fun m m' =>
  decidable_of_iff (m.entries = m'.entries) SortedMap.ext_iff.symm

/-- The keys in increasing order. -/
def keys (m : SortedMap κ β) : List κ := m.entries.map Prod.fst

/-- The map without entries. -/
def empty : SortedMap κ β := ⟨[], .nil⟩

/-- Write an entry at its place, over the one with its key if there is one. -/
def putEntry (k : κ) (v : β) : List (κ × β) → List (κ × β)
  | [] => [(k, v)]
  | e :: l =>
      if k < e.1 then (k, v) :: e :: l
      else if k = e.1 then (k, v) :: l
      else e :: putEntry k v l

/-- The entry under a key. -/
def getEntry (k : κ) : List (κ × β) → Option β
  | [] => none
  | e :: l => if k = e.1 then some e.2 else getEntry k l

theorem map_fst_putEntry {k : κ} {v : β} {l : List (κ × β)} (hs : Sorted (l.map Prod.fst)) :
    (putEntry k v l).map Prod.fst = insertKey k (l.map Prod.fst) := by
  induction l with
  | nil => simp [putEntry, insertKey]
  | cons e l ih =>
      have hl : Sorted (l.map Prod.fst) := (List.pairwise_cons.mp hs).2
      simp only [putEntry]
      split_ifs with hlt heq
      · have hnot : k ∉ (e :: l).map Prod.fst := fun hmem =>
          lt_irrefl k (hs.forall_lt hlt k hmem)
        rw [insertKey, if_neg hnot, List.map_cons, List.map_cons,
          List.orderedInsert_cons_of_le _ _ hlt.le]
      · rw [insertKey_of_mem (by simp [heq]), List.map_cons, List.map_cons, heq]
      · have hgt : e.1 < k := lt_of_le_of_ne (not_lt.mp hlt) (Ne.symm heq)
        rw [List.map_cons, ih hl, List.map_cons, insertKey, insertKey]
        by_cases hmem : k ∈ l.map Prod.fst
        · rw [if_pos hmem, if_pos (List.mem_cons_of_mem _ hmem)]
        · have hnot : k ∉ e.1 :: l.map Prod.fst := by simp [heq, hmem]
          rw [if_neg hmem, if_neg hnot, List.orderedInsert_of_not_le _ _ (not_le.mpr hgt)]

theorem getEntry_putEntry (k x : κ) (v : β) (l : List (κ × β)) :
    getEntry x (putEntry k v l) = if x = k then some v else getEntry x l := by
  induction l with
  | nil => simp [putEntry, getEntry]
  | cons e l ih =>
      simp only [putEntry]
      split_ifs with hlt heq hx hx hx <;> simp_all [getEntry]

/-- Below all keys there is nothing. -/
theorem getEntry_of_forall_lt {k : κ} {l : List (κ × β)} (h : ∀ x ∈ l.map Prod.fst, k < x) :
    getEntry k l = none := by
  induction l with
  | nil => rfl
  | cons e l ih =>
      have hlt : k < e.1 := h e.1 (by simp)
      rw [getEntry, if_neg hlt.ne, ih fun x hx => h x (List.mem_cons_of_mem _ hx)]

theorem putEntry_of_getEntry {k : κ} {v : β} {l : List (κ × β)}
    (hs : Sorted (l.map Prod.fst)) (h : getEntry k l = some v) : putEntry k v l = l := by
  induction l with
  | nil => cases h
  | cons e l ih =>
      simp only [putEntry]
      split_ifs with hlt heq
      · rw [getEntry_of_forall_lt (hs.forall_lt hlt)] at h
        cases h
      · rw [getEntry, if_pos heq] at h
        obtain rfl := Option.some.inj h
        rw [heq]
      · rw [getEntry, if_neg heq] at h
        rw [ih (List.pairwise_cons.mp hs).2 h]

/-- Write an entry. -/
def put (m : SortedMap κ β) (k : κ) (v : β) : SortedMap κ β where
  entries := putEntry k v m.entries
  sorted := by
    rw [map_fst_putEntry m.sorted]
    exact sorted_insertKey m.sorted

/-- Look a key up. -/
def get (m : SortedMap κ β) (k : κ) : Option β := getEntry k m.entries

@[simp] theorem get_empty (k : κ) : (empty : SortedMap κ β).get k = none := rfl

@[simp] theorem keys_empty : (empty : SortedMap κ β).keys = [] := rfl

theorem get_put (m : SortedMap κ β) (k x : κ) (v : β) :
    (m.put k v).get x = if x = k then some v else m.get x :=
  getEntry_putEntry k x v m.entries

/-- Writing what is there already changes nothing. -/
theorem put_of_get {m : SortedMap κ β} {k : κ} {v : β} (h : m.get k = some v) :
    m.put k v = m :=
  SortedMap.ext (putEntry_of_getEntry m.sorted h)

theorem keys_put (m : SortedMap κ β) (k : κ) (v : β) :
    (m.put k v).keys = insertKey k m.keys :=
  map_fst_putEntry m.sorted

/-- Each key has one entry. -/
theorem mem_entries {m : SortedMap κ β} {k : κ} {v : β} :
    (k, v) ∈ m.entries ↔ m.get k = some v := by
  obtain ⟨l, hl⟩ := m
  change (k, v) ∈ l ↔ getEntry k l = some v
  induction l with
  | nil => simp [getEntry]
  | cons e l ih =>
      obtain ⟨hhead, htail⟩ := List.pairwise_cons.mp hl
      rw [List.mem_cons, ih htail, getEntry]
      split_ifs with heq
      · subst heq
        have hnone : getEntry e.1 l = none := getEntry_of_forall_lt hhead
        rw [hnone, Option.some.injEq, Prod.ext_iff]
        simp [eq_comm]
      · refine or_iff_right fun h => heq ?_
        rw [← h]

theorem mem_keys {m : SortedMap κ β} {k : κ} : k ∈ m.keys ↔ (m.get k).isSome := by
  obtain ⟨l, hl⟩ := m
  change k ∈ l.map Prod.fst ↔ (getEntry k l).isSome
  clear hl
  induction l with
  | nil => simp [getEntry]
  | cons e l ih =>
      rw [List.map_cons, List.mem_cons, ih, getEntry]
      by_cases h : k = e.1 <;> simp [h]

/-- Rewrite every value. -/
def mapVal {γ : Type*} (f : β → γ) (m : SortedMap κ β) : SortedMap κ γ where
  entries := m.entries.map fun e => (e.1, f e.2)
  sorted := by
    rw [List.map_map]
    exact m.sorted

@[simp] theorem mapVal_mapVal {γ δ : Type*} (f : β → γ) (g : γ → δ) (m : SortedMap κ β) :
    (m.mapVal f).mapVal g = m.mapVal fun v => g (f v) := by
  ext1
  simp [mapVal]

@[simp] theorem mapVal_id (m : SortedMap κ β) : (m.mapVal fun v => v) = m := by
  ext1
  simp [mapVal]

theorem getEntry_map {γ : Type*} (f : β → γ) (k : κ) (l : List (κ × β)) :
    getEntry k (l.map fun e => (e.1, f e.2)) = (getEntry k l).map f := by
  induction l with
  | nil => rfl
  | cons e l ih =>
      rw [List.map_cons, getEntry, getEntry]
      split_ifs
      · rfl
      · exact ih

@[simp] theorem get_mapVal {γ : Type*} (f : β → γ) (m : SortedMap κ β) (k : κ) :
    (m.mapVal f).get k = (m.get k).map f :=
  getEntry_map f k m.entries

/-- Two maps with the same lookups are equal. -/
theorem ext_get {m m' : SortedMap κ β} (h : ∀ k, m.get k = m'.get k) : m = m' := by
  have hentries : ∀ l l' : List (κ × β), Sorted (l.map Prod.fst) → Sorted (l'.map Prod.fst) →
      (∀ k, getEntry k l = getEntry k l') → l = l' := by
    intro l
    induction l with
    | nil =>
        intro l' _ _ h
        cases l' with
        | nil => rfl
        | cons e l' =>
            have := h e.1
            simp [getEntry] at this
    | cons e l ih =>
        intro l' hl hl' h
        cases l' with
        | nil =>
            have := h e.1
            simp [getEntry] at this
        | cons e' l' =>
            obtain ⟨hhead, htail⟩ := List.pairwise_cons.mp hl
            obtain ⟨hhead', htail'⟩ := List.pairwise_cons.mp hl'
            have hkey : e.1 = e'.1 := by
              rcases lt_trichotomy e.1 e'.1 with hlt | heq | hgt
              · have hnone := getEntry_of_forall_lt (l := e' :: l') (hl'.forall_lt hlt)
                rw [← h e.1] at hnone
                simp [getEntry] at hnone
              · exact heq
              · have hnone := getEntry_of_forall_lt (l := e :: l) (hl.forall_lt hgt)
                rw [h e'.1] at hnone
                simp [getEntry] at hnone
            have hvalue : e.2 = e'.2 := by
              have := h e.1
              rwa [getEntry, if_pos rfl, getEntry, if_pos hkey, Option.some.injEq] at this
            obtain rfl : e = e' := Prod.ext hkey hvalue
            refine congrArg (e :: ·) (ih l' htail htail' fun k => ?_)
            by_cases hk : k = e.1
            · rw [hk, getEntry_of_forall_lt hhead, getEntry_of_forall_lt hhead']
            · have := h k
              rwa [getEntry, if_neg hk, getEntry, if_neg hk] at this
  exact SortedMap.ext (hentries _ _ m.sorted m'.sorted h)

end SortedMap
