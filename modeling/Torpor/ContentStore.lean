import Mathlib.Logic.Relation
import Torpor.Lib.Assoc
import Torpor.Records

/-!
# The Content Store

The two column families of the content store, `blocks` and `headers`, as maps keyed by
digest, with the operations `put_block`, `put_snapshot`, `get_header`, `has_snapshot` and
the walk `rollback_path` from a tip along parents to a target sequence number.

A lookup may fail: `rollbackPath` takes an oracle telling which of its lookups do. The loop
of the source has no bound of its own; here it is given one more step than there are
headers, after which some header has been visited twice and the source would walk on
forever (`StoreError.nonTerminating`).

## Main results

* `Chain`: a stored tip all of whose ancestors are stored, with sequence numbers that
  strictly decrease towards the root.
* `ContentStore.walk_eq_ok`: a walk that ends, ends at an ancestor at the target.
* `Chain.rollbackPath_eq_ok`, `Chain.rollbackPath_eq_error`: on such a tip, and without
  failing lookups, the walk ends at the one ancestor that carries the target sequence
  number if there is one, and otherwise reports `targetBeyondHistory` or `noParent`.
* `Chain.rollbackPath_eq`: the walk is the same in every store that keeps the headers.
-/

namespace Torpor

open ContentHash

variable {D : Type}

/-- `StoreError`, and the walk that never ends. -/
inductive StoreError (D : Type)
  | rocks
  | missingBlock (hash : D)
  | noParent (hash : D)
  | targetBeyondHistory (currentSeq targetSeq : ℕ)
  | nonTerminating
  deriving DecidableEq, Repr

/-- The column families `blocks` and `headers`. -/
structure ContentStore (D : Type) where
  blocks : AList fun _ : D => List UInt8
  headers : AList fun _ : D => SnapshotHeader D

/-- A newly created store. -/
def ContentStore.empty : ContentStore D := ⟨∅, ∅⟩

section Operations

variable [DecidableEq D]

/-- `put_block`: the raw bytes under their hash. -/
def ContentStore.putBlock [ContentHash D] (s : ContentStore D) (data : List UInt8) :
    ContentStore D :=
  { s with blocks := s.blocks.insert (dataHash data) data }

/-- `put_snapshot`: the header under its hash. -/
def ContentStore.putSnapshot [ContentHash D] (s : ContentStore D)
    (header : SnapshotHeader D) : ContentStore D :=
  { s with headers := s.headers.insert (snapshotId header) header }

/-- `get_header` of a store whose lookups do not fail. -/
def ContentStore.getHeader (s : ContentStore D) (id : D) : Option (SnapshotHeader D) :=
  s.headers.lookup id

/-- `has_snapshot`. -/
def ContentStore.hasSnapshot (s : ContentStore D) (id : D) : Bool :=
  (s.getHeader id).isSome

/-- `get_block`. -/
def ContentStore.getBlock (s : ContentStore D) (hash : D) : Option (List UInt8) :=
  s.blocks.lookup hash

/-- The loop of `rollback_path`. The first argument bounds the number of iterations; `i`
counts the lookups made so far, and `fault i` makes the next one fail. -/
def ContentStore.walk (s : ContentStore D) (fault : ℕ → Bool) (targetSeq : ℕ) :
    ℕ → ℕ → D → Except (StoreError D) (List D)
  | 0, _, _ => .error .nonTerminating
  | fuel + 1, i, current =>
      if fault i then .error .rocks
      else match s.getHeader current with
        | none => .error (.missingBlock current)
        | some header =>
            if header.seq = targetSeq then .ok [current]
            else if header.seq < targetSeq then
              .error (.targetBeyondHistory header.seq targetSeq)
            else match header.parent with
              | none => .error (.noParent current)
              | some parent => (s.walk fault targetSeq fuel (i + 1) parent).map (current :: ·)

/-- How many lookups the walk is given. -/
def ContentStore.walkBound (s : ContentStore D) : ℕ := s.headers.keys.length + 1

/-- `rollback_path`: the snapshots from `tip` to the one at `targetSeq`. -/
def ContentStore.rollbackPath (s : ContentStore D) (fault : ℕ → Bool) (tip : D)
    (targetSeq : ℕ) : Except (StoreError D) (List D) :=
  s.walk fault targetSeq s.walkBound 0 tip

/-! ### Lookups after writes -/

@[simp] theorem ContentStore.getHeader_empty (id : D) :
    (ContentStore.empty : ContentStore D).getHeader id = none := rfl

@[simp] theorem ContentStore.getBlock_empty (id : D) :
    (ContentStore.empty : ContentStore D).getBlock id = none := rfl

section Lookups

variable [ContentHash D]

@[simp] theorem ContentStore.getHeader_putBlock (s : ContentStore D) (data : List UInt8)
    (id : D) : (s.putBlock data).getHeader id = s.getHeader id := rfl

@[simp] theorem ContentStore.getBlock_putSnapshot (s : ContentStore D)
    (h : SnapshotHeader D) (id : D) : (s.putSnapshot h).getBlock id = s.getBlock id := rfl

theorem ContentStore.getHeader_putSnapshot (s : ContentStore D) (h : SnapshotHeader D)
    (id : D) : (s.putSnapshot h).getHeader id =
      if id = snapshotId h then some h else s.getHeader id :=
  AList.lookup_insert_ite s.headers (snapshotId h) h id

theorem ContentStore.getBlock_putBlock (s : ContentStore D) (data : List UInt8) (id : D) :
    (s.putBlock data).getBlock id =
      if id = dataHash data then some data else s.getBlock id :=
  AList.lookup_insert_ite s.blocks (dataHash data) data id

end Lookups

/-! ### Ancestors -/

/-- `p` is the parent of the stored snapshot `id`. -/
def ContentStore.ParentOf (s : ContentStore D) (id p : D) : Prop :=
  ∃ h, s.getHeader id = some h ∧ h.parent = some p

/-- `x` is reached from `id` by any number of parent steps. -/
def ContentStore.AncestorOrSelf (s : ContentStore D) : D → D → Prop :=
  Relation.ReflTransGen s.ParentOf

/-- A stored snapshot with the given sequence number. -/
def ContentStore.HasSeq (s : ContentStore D) (id : D) (seq : ℕ) : Prop :=
  ∃ h, s.getHeader id = some h ∧ h.seq = seq

/-- A snapshot without parent has no ancestor but itself. -/
theorem ContentStore.AncestorOrSelf.of_root {s : ContentStore D} {id x : D}
    {h : SnapshotHeader D} (hx : s.AncestorOrSelf id x) (hid : s.getHeader id = some h)
    (hp : h.parent = none) : x = id := by
  cases hx.cases_head with
  | inl heq => exact heq.symm
  | inr hstep =>
      obtain ⟨q, ⟨h', hid', hq⟩, -⟩ := hstep
      rw [hid] at hid'
      obtain rfl := Option.some.inj hid'
      rw [hp] at hq
      cases hq

/-- The other ancestors of a snapshot are those of its parent. -/
theorem ContentStore.AncestorOrSelf.of_child {s : ContentStore D} {id p x : D}
    {h : SnapshotHeader D} (hx : s.AncestorOrSelf id x) (hid : s.getHeader id = some h)
    (hp : h.parent = some p) : x = id ∨ s.AncestorOrSelf p x := by
  cases hx.cases_head with
  | inl heq => exact .inl heq.symm
  | inr hstep =>
      obtain ⟨q, ⟨h', hid', hq⟩, hrest⟩ := hstep
      rw [hid] at hid'
      obtain rfl := Option.some.inj hid'
      rw [hp] at hq
      obtain rfl := Option.some.inj hq
      exact .inr hrest

/-- A stored snapshot has one sequence number. -/
theorem ContentStore.HasSeq.eq {s : ContentStore D} {id : D} {h : SnapshotHeader D}
    {seq : ℕ} (hs : s.HasSeq id seq) (hid : s.getHeader id = some h) : h.seq = seq := by
  obtain ⟨h', hid', hseq⟩ := hs
  rw [hid] at hid'
  obtain rfl := Option.some.inj hid'
  exact hseq

/-- A stored tip, with its header, all of whose ancestors are stored, with sequence
numbers that strictly decrease towards the root. -/
inductive ContentStore.Chain (s : ContentStore D) : D → SnapshotHeader D → Prop
  | root {id : D} {h : SnapshotHeader D} :
      s.getHeader id = some h → h.parent = none → Chain s id h
  | child {id p : D} {h hp : SnapshotHeader D} :
      s.getHeader id = some h → h.parent = some p → Chain s p hp → hp.seq < h.seq →
      Chain s id h

theorem ContentStore.Chain.getHeader {s : ContentStore D} {id : D} {h : SnapshotHeader D}
    (hc : s.Chain id h) : s.getHeader id = some h := by
  cases hc with
  | root hid _ => exact hid
  | child hid _ _ _ => exact hid

/-- A store that keeps every header of another keeps its chains. -/
theorem ContentStore.Chain.mono {s s' : ContentStore D} {id : D} {h : SnapshotHeader D}
    (hc : s.Chain id h) (hle : ∀ x hx, s.getHeader x = some hx → s'.getHeader x = some hx) :
    s'.Chain id h := by
  induction hc with
  | root hid hp => exact .root (hle _ _ hid) hp
  | child hid hp _ hlt ih => exact .child (hle _ _ hid) hp ih hlt

/-- An ancestor on a chain is itself the tip of a chain, at or below the tip's sequence
number. -/
theorem ContentStore.Chain.ancestor {s : ContentStore D} {id x : D} {h : SnapshotHeader D}
    (hc : s.Chain id h) (hx : s.AncestorOrSelf id x) :
    ∃ hx, s.Chain x hx ∧ hx.seq ≤ h.seq := by
  induction hc with
  | @root id h hid hp =>
      obtain rfl := hx.of_root hid hp
      exact ⟨h, .root hid hp, le_refl _⟩
  | @child id p h hp hid hpar hchain hlt ih =>
      rcases hx.of_child hid hpar with rfl | hx
      · exact ⟨h, .child hid hpar hchain hlt, le_refl _⟩
      · obtain ⟨hx', hcx, hle⟩ := ih hx
        exact ⟨hx', hcx, by omega⟩

/-- An ancestor on a chain carries at most the sequence number of the tip. -/
theorem ContentStore.Chain.hasSeq_le {s : ContentStore D} {id x : D}
    {h : SnapshotHeader D} {seq : ℕ} (hc : s.Chain id h) (hx : s.AncestorOrSelf id x)
    (hseq : s.HasSeq x seq) : seq ≤ h.seq := by
  obtain ⟨hx', hcx, hle⟩ := hc.ancestor hx
  have := hseq.eq hcx.getHeader
  omega

/-- On a chain at most one ancestor carries a given sequence number. -/
theorem ContentStore.Chain.ancestor_unique {s : ContentStore D} {tip x y : D}
    {h : SnapshotHeader D} {seq : ℕ} (hc : s.Chain tip h) (hx : s.AncestorOrSelf tip x)
    (hy : s.AncestorOrSelf tip y) (hxs : s.HasSeq x seq) (hys : s.HasSeq y seq) :
    x = y := by
  induction hc with
  | root hid hp => rw [hx.of_root hid hp, hy.of_root hid hp]
  | child hid hp hchain hlt ih =>
      rcases hx.of_child hid hp with rfl | hx' <;> rcases hy.of_child hid hp with rfl | hy'
      · rfl
      · have h1 := hxs.eq hid
        have h2 := hchain.hasSeq_le hy' hys
        omega
      · have h1 := hys.eq hid
        have h2 := hchain.hasSeq_le hx' hxs
        omega
      · exact ih hx' hy'

/-! ### The walk -/

/-- Wherever a walk ends, and whatever lookups fail, it ends at an ancestor that carries the
target sequence number. -/
theorem ContentStore.walk_eq_ok {s : ContentStore D} {fault : ℕ → Bool} {targetSeq fuel i : ℕ}
    {tip : D} {path : List D} (h : s.walk fault targetSeq fuel i tip = .ok path) :
    ∃ x, path.getLast? = some x ∧ s.AncestorOrSelf tip x ∧ s.HasSeq x targetSeq := by
  induction fuel generalizing i tip path with
  | zero => cases h
  | succ fuel ih =>
      rw [walk] at h
      split at h
      · cases h
      · split at h
        · cases h
        · rename_i header hid
          split at h
          · rename_i hseq
            cases h
            exact ⟨tip, rfl, .refl, header, hid, hseq⟩
          · split at h
            · cases h
            · split at h
              · cases h
              · rename_i parent hpar
                cases hwalk : s.walk fault targetSeq fuel (i + 1) parent with
                | error e =>
                    rw [hwalk] at h
                    cases h
                | ok rest =>
                    rw [hwalk] at h
                    cases h
                    obtain ⟨x, hlast, hx, hxseq⟩ := ih hwalk
                    refine ⟨x, ?_, .head ⟨header, hid, hpar⟩ hx, hxseq⟩
                    rw [List.getLast?_cons, hlast]
                    rfl

/-! ### The walk along a chain -/

/-- What the walk returns from a tip: the path to the ancestor at the target, or one of the
two refusals when there is none. -/
inductive ContentStore.WalkSpec (s : ContentStore D) (tip : D) (targetSeq : ℕ) :
    Except (StoreError D) (List D) → Prop
  | found {path : List D} {x : D} :
      s.AncestorOrSelf tip x → s.HasSeq x targetSeq → path.getLast? = some x →
      WalkSpec s tip targetSeq (.ok path)
  | refused {e : StoreError D} :
      (∀ x, s.AncestorOrSelf tip x → ¬ s.HasSeq x targetSeq) →
      ((∃ cur, e = .targetBeyondHistory cur targetSeq) ∨ ∃ hash, e = .noParent hash) →
      WalkSpec s tip targetSeq (.error e)

/-- The ancestors of a chain, as a list without repetition: as many steps suffice for the
walk to end. -/
theorem ContentStore.Chain.exists_ancestors {s : ContentStore D} {id : D}
    {h : SnapshotHeader D} (hc : s.Chain id h) (targetSeq : ℕ) :
    ∃ l : List D, l.Nodup ∧
      (∀ x ∈ l, ∃ hx, s.getHeader x = some hx ∧ hx.seq ≤ h.seq) ∧
      ∀ fuel i, l.length ≤ fuel →
        s.WalkSpec id targetSeq (s.walk (fun _ => false) targetSeq fuel i id) := by
  induction hc with
  | @root id h hid hp =>
      refine ⟨[id], by simp, by simpa using ⟨h, hid, le_refl _⟩, ?_⟩
      intro fuel i hfuel
      obtain ⟨fuel, rfl⟩ : ∃ n, fuel = n + 1 := ⟨fuel - 1, by simp at hfuel; omega⟩
      by_cases hseq : h.seq = targetSeq
      · simp only [walk, hid, hseq, Bool.false_eq_true, if_false, if_true]
        exact .found .refl ⟨h, hid, hseq⟩ rfl
      · have hnone : ∀ x, s.AncestorOrSelf id x → ¬ s.HasSeq x targetSeq := by
          intro x hx hxs
          obtain rfl := hx.of_root hid hp
          exact hseq (hxs.eq hid)
        by_cases hlt : h.seq < targetSeq
        · simp only [walk, hid, hseq, hlt, Bool.false_eq_true, if_false, if_true]
          exact .refused hnone (.inl ⟨_, rfl⟩)
        · simp only [walk, hid, hseq, hlt, hp, Bool.false_eq_true, if_false]
          exact .refused hnone (.inr ⟨_, rfl⟩)
  | @child id p h hp hid hpar hchain hlt ih =>
      obtain ⟨l, hnodup, hbelow, hwalk⟩ := ih
      refine ⟨id :: l, ?_, ?_, ?_⟩
      · refine List.nodup_cons.mpr ⟨?_, hnodup⟩
        intro hmem
        obtain ⟨hx, hidx, hle⟩ := hbelow id hmem
        rw [hid] at hidx
        obtain rfl := Option.some.inj hidx
        omega
      · intro x hx
        rcases List.mem_cons.mp hx with rfl | hx
        · exact ⟨h, hid, le_refl _⟩
        · obtain ⟨h', hid', hle⟩ := hbelow x hx
          exact ⟨h', hid', by omega⟩
      · intro fuel i hfuel
        obtain ⟨fuel, rfl⟩ : ∃ n, fuel = n + 1 := ⟨fuel - 1, by simp at hfuel; omega⟩
        by_cases hseq : h.seq = targetSeq
        · simp only [walk, hid, hseq, Bool.false_eq_true, if_false, if_true]
          exact .found .refl ⟨h, hid, hseq⟩ rfl
        · by_cases hbeyond : h.seq < targetSeq
          · simp only [walk, hid, hseq, hbeyond, Bool.false_eq_true, if_false, if_true]
            refine .refused ?_ (.inl ⟨_, rfl⟩)
            intro x hx hxs
            have := (Chain.child hid hpar hchain hlt).hasSeq_le hx hxs
            omega
          · simp only [walk, hid, hseq, hbeyond, hpar, Bool.false_eq_true, if_false]
            have hrest := hwalk fuel (i + 1) (by simpa using hfuel)
            generalize s.walk (fun _ => false) targetSeq fuel (i + 1) p = r at hrest
            cases hrest with
            | @found path x hx hxseq hlast =>
                refine .found (.head ⟨h, hid, hpar⟩ hx) hxseq ?_
                rw [List.getLast?_cons, hlast]
                rfl
            | @refused e hnone he =>
                refine .refused ?_ he
                intro x hx hxs
                rcases hx.of_child hid hpar with rfl | hx
                · exact hseq (hxs.eq hid)
                · exact hnone x hx hxs

/-- The walk from the tip of a chain ends, as `WalkSpec` says. -/
theorem ContentStore.Chain.rollbackPath_spec {s : ContentStore D} {tip : D}
    {h : SnapshotHeader D} (hc : s.Chain tip h) (targetSeq : ℕ) :
    s.WalkSpec tip targetSeq (s.rollbackPath (fun _ => false) tip targetSeq) := by
  obtain ⟨l, hnodup, hstored, hwalk⟩ := hc.exists_ancestors targetSeq
  refine hwalk _ _ ?_
  have hsub : l ⊆ s.headers.keys := by
    intro x hx
    obtain ⟨hx', hid, -⟩ := hstored x hx
    exact AList.mem_keys.mp (AList.lookup_isSome.mp (by
      change (s.getHeader x).isSome
      rw [hid]
      rfl))
  have := (List.subperm_of_subset hnodup hsub).length_le
  unfold walkBound
  omega

/-- If some ancestor carries the target sequence number, the walk ends at one. -/
theorem ContentStore.Chain.rollbackPath_eq_ok {s : ContentStore D} {tip x : D}
    {h : SnapshotHeader D} {targetSeq : ℕ} (hc : s.Chain tip h)
    (hx : s.AncestorOrSelf tip x) (hseq : s.HasSeq x targetSeq) :
    ∃ path y, s.rollbackPath (fun _ => false) tip targetSeq = .ok path ∧
      path.getLast? = some y ∧ s.AncestorOrSelf tip y ∧ s.HasSeq y targetSeq := by
  have hspec := hc.rollbackPath_spec targetSeq
  generalize s.rollbackPath (fun _ => false) tip targetSeq = r at hspec
  cases hspec with
  | found hy hyseq hlast => exact ⟨_, _, rfl, hlast, hy, hyseq⟩
  | refused hnone _ => exact absurd hseq (hnone x hx)

/-- If no ancestor carries it, the walk refuses. -/
theorem ContentStore.Chain.rollbackPath_eq_error {s : ContentStore D} {tip : D}
    {h : SnapshotHeader D} {targetSeq : ℕ} (hc : s.Chain tip h)
    (hnone : ∀ x, s.AncestorOrSelf tip x → ¬ s.HasSeq x targetSeq) :
    ∃ e, s.rollbackPath (fun _ => false) tip targetSeq = .error e := by
  have hspec := hc.rollbackPath_spec targetSeq
  generalize s.rollbackPath (fun _ => false) tip targetSeq = r at hspec
  cases hspec with
  | found hy hyseq _ => exact absurd hyseq (hnone _ hy)
  | refused _ _ => exact ⟨_, rfl⟩

/-! ### The walk in a larger store -/

/-- A walk that ends at an answer ends there in every store that keeps the headers, if it is
given as many steps. -/
theorem ContentStore.walk_mono {s s' : ContentStore D}
    (hle : ∀ x hx, s.getHeader x = some hx → s'.getHeader x = some hx) {targetSeq : ℕ}
    {fuel fuel' i i' : ℕ} {tip : D} {r : Except (StoreError D) (List D)} (hfuel : fuel ≤ fuel')
    (h : s.walk (fun _ => false) targetSeq fuel i tip = r) (hends : r ≠ .error .nonTerminating)
    (hstored : ∀ x, r ≠ .error (.missingBlock x)) :
    s'.walk (fun _ => false) targetSeq fuel' i' tip = r := by
  induction fuel generalizing fuel' i i' tip r with
  | zero => exact absurd h.symm hends
  | succ fuel ih =>
      obtain ⟨fuel', rfl⟩ : ∃ n, fuel' = n + 1 := ⟨fuel' - 1, by omega⟩
      cases hid : s.getHeader tip with
      | none =>
          simp only [walk, hid, Bool.false_eq_true, if_false] at h
          exact absurd h.symm (hstored tip)
      | some header =>
          simp only [walk, hid, hle tip header hid, Bool.false_eq_true, if_false] at h ⊢
          split_ifs at h ⊢
          · exact h
          · exact h
          · cases hpar : header.parent with
            | none => simpa only [hpar] using h
            | some parent =>
                simp only [hpar] at h ⊢
                rw [ih (by omega) (i := i + 1) rfl]
                · exact h
                · intro heq
                  rw [heq] at h
                  exact hends h.symm
                · intro x heq
                  rw [heq] at h
                  exact hstored x h.symm

/-- A store that keeps every header of another has no fewer headers. -/
theorem ContentStore.walkBound_mono {s s' : ContentStore D}
    (hle : ∀ x hx, s.getHeader x = some hx → s'.getHeader x = some hx) :
    s.walkBound ≤ s'.walkBound := by
  have hsub : s.headers.keys ⊆ s'.headers.keys := by
    intro x hx
    obtain ⟨header, hid⟩ := Option.isSome_iff_exists.mp
      (AList.lookup_isSome.mpr (AList.mem_keys.mpr hx))
    exact AList.mem_keys.mp (AList.lookup_isSome.mp (Option.isSome_iff_exists.mpr
      ⟨header, hle x header hid⟩))
  have := (List.subperm_of_subset s.headers.keys_nodup hsub).length_le
  unfold walkBound
  omega

/-- A walk along a chain is the same in every store that keeps the headers. -/
theorem ContentStore.Chain.rollbackPath_eq {s s' : ContentStore D} {tip : D}
    {h : SnapshotHeader D} (hc : s.Chain tip h)
    (hle : ∀ x hx, s.getHeader x = some hx → s'.getHeader x = some hx) (targetSeq : ℕ) :
    s'.rollbackPath (fun _ => false) tip targetSeq =
      s.rollbackPath (fun _ => false) tip targetSeq := by
  have hspec := hc.rollbackPath_spec targetSeq
  refine walk_mono hle (i := 0) (walkBound_mono hle) rfl ?_ ?_
  · intro heq
    change s.rollbackPath _ tip targetSeq = _ at heq
    rw [heq] at hspec
    cases hspec with
    | refused _ he => rcases he with ⟨_, he⟩ | ⟨_, he⟩ <;> cases he
  · intro x heq
    change s.rollbackPath _ tip targetSeq = _ at heq
    rw [heq] at hspec
    cases hspec with
    | refused _ he => rcases he with ⟨_, he⟩ | ⟨_, he⟩ <;> cases he

end Operations

end Torpor
