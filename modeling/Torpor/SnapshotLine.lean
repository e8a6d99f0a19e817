import Mathlib.Data.List.Chain
import Torpor.ContentStore
import Torpor.Lib.AppendGraph

/-!
# The Line of a Snapshot

A store that is filled parent first: every header that is put names no parent, or one that was
put before. Since a snapshot is named by the hash of its header, no snapshot is then its own
ancestor, and from every stored snapshot a line of parents leads to a root. `rollback_path`
walks along this line and has no bound of its own; it ends because the line does.

## Main results

* `ContentStore.Line`: a stored snapshot and its ancestors in order, up to a root.
* `ContentStore.Line.walk`: where a walk along a line ends, in any order of the sequence
  numbers.
* `ContentStore.exists_line`: in a store filled parent first, every stored snapshot has a line
  without repetitions.
* `rollbackPath_parentFirst`: what `rollback_path` returns in such a store.
-/

namespace Torpor

open ContentHash

variable {D : Type}

/-! ### Lines -/

namespace ContentStore

section Line

variable [DecidableEq D] {s : ContentStore D} {tip x : D} {l : List D} {targetSeq : ℕ}

/-- The snapshot, its parent, and so on, up to one without parent; all of them are stored. -/
inductive Line (s : ContentStore D) : D → List D → Prop
  | root {id : D} {h : SnapshotHeader D} :
      s.getHeader id = some h → h.parent = none → Line s id [id]
  | child {id p : D} {h : SnapshotHeader D} {l : List D} :
      s.getHeader id = some h → h.parent = some p → Line s p l → Line s id (id :: l)

theorem Line.head?_eq (hl : s.Line tip l) : l.head? = some tip := by
  cases hl with
  | root _ _ => rfl
  | child _ _ _ => rfl

/-- Each snapshot of a line is followed by its parent. -/
theorem Line.isChain (hl : s.Line tip l) : l.IsChain s.ParentOf := by
  induction hl with
  | root _ _ => exact .singleton _
  | @child id p h l hid hp hrest ih =>
      refine List.isChain_cons.mpr ⟨fun y hy => ?_, ih⟩
      rw [hrest.head?_eq] at hy
      obtain rfl := Option.some.inj hy
      exact ⟨h, hid, hp⟩

/-- The line of a snapshot lists its ancestors. -/
theorem Line.mem_iff (hl : s.Line tip l) : x ∈ l ↔ s.AncestorOrSelf tip x := by
  induction hl with
  | @root id h hid hp =>
      rw [List.mem_singleton]
      constructor
      · rintro rfl
        exact .refl
      · exact fun hx => hx.of_root hid hp
  | @child id p h l hid hp hrest ih =>
      rw [List.mem_cons]
      constructor
      · rintro (rfl | hx)
        · exact .refl
        · exact .head ⟨h, hid, hp⟩ (ih.mp hx)
      · intro hx
        exact (hx.of_child hid hp).imp_right ih.mpr

/-- The snapshots of a line are stored. -/
theorem Line.exists_header (hl : s.Line tip l) (hx : x ∈ l) : ∃ h, s.getHeader x = some h := by
  induction hl with
  | root hid _ =>
      obtain rfl := List.mem_singleton.mp hx
      exact ⟨_, hid⟩
  | child hid _ _ ih =>
      rcases List.mem_cons.mp hx with rfl | hx
      · exact ⟨_, hid⟩
      · exact ih hx

/-! ### The walk along a line -/

/-- A stored snapshot with a sequence number above the target. -/
def Above (s : ContentStore D) (targetSeq : ℕ) (id : D) : Prop :=
  ∃ seq, s.HasSeq id seq ∧ targetSeq < seq

/-- Where a walk along a line ends: at the first snapshot that is not above the target, or at
the root if all are. -/
inductive WalkEnd (s : ContentStore D) (targetSeq : ℕ) :
    List D → Except (StoreError D) (List D) → Prop
  | found {before : List D} {x : D} {after : List D} :
      (∀ y ∈ before, s.Above targetSeq y) → s.HasSeq x targetSeq →
      WalkEnd s targetSeq (before ++ x :: after) (.ok (before ++ [x]))
  | beyond {before : List D} {x : D} {after : List D} {seq : ℕ} :
      (∀ y ∈ before, s.Above targetSeq y) → s.HasSeq x seq → seq < targetSeq →
      WalkEnd s targetSeq (before ++ x :: after) (.error (.targetBeyondHistory seq targetSeq))
  | root {before : List D} {x : D} :
      (∀ y ∈ before ++ [x], s.Above targetSeq y) →
      WalkEnd s targetSeq (before ++ [x]) (.error (.noParent x))

/-- A walk that passes a snapshot above the target ends where the rest of the line says. -/
theorem WalkEnd.cons {r : Except (StoreError D) (List D)} (h : s.WalkEnd targetSeq l r)
    (hx : s.Above targetSeq x) : s.WalkEnd targetSeq (x :: l) (r.map (x :: ·)) := by
  cases h with
  | @found before y after hbefore hy =>
      exact @WalkEnd.found _ _ _ _ (x :: before) _ _ (List.forall_mem_cons.mpr ⟨hx, hbefore⟩) hy
  | @beyond before y after seq hbefore hy hlt =>
      exact @WalkEnd.beyond _ _ _ _ (x :: before) _ _ _ (List.forall_mem_cons.mpr ⟨hx, hbefore⟩) hy
        hlt
  | @root before y hall =>
      exact @WalkEnd.root _ _ _ _ (x :: before) _ (List.forall_mem_cons.mpr ⟨hx, hall⟩)

/-- A walk that is given as many steps as the line is long ends on the line. -/
theorem Line.walk (hl : s.Line tip l) {fuel : ℕ} (i : ℕ) (hfuel : l.length ≤ fuel) :
    s.WalkEnd targetSeq l (s.walk (fun _ => false) targetSeq fuel i tip) := by
  induction hl generalizing fuel i with
  | @root id h hid hp =>
      obtain ⟨fuel, rfl⟩ : ∃ n, fuel = n + 1 := ⟨fuel - 1, by simp at hfuel; omega⟩
      simp only [ContentStore.walk, hid, hp, Bool.false_eq_true, if_false]
      split_ifs with heq hlt
      · exact @WalkEnd.found _ _ _ _ [] _ _ (by simp) ⟨h, hid, heq⟩
      · exact @WalkEnd.beyond _ _ _ _ [] _ _ _ (by simp) ⟨h, hid, rfl⟩ hlt
      · refine @WalkEnd.root _ _ _ _ [] _ fun y hy => ?_
        obtain rfl := List.mem_singleton.mp hy
        exact ⟨h.seq, ⟨h, hid, rfl⟩, by omega⟩
  | @child id p h l hid hp hrest ih =>
      obtain ⟨fuel, rfl⟩ : ∃ n, fuel = n + 1 := ⟨fuel - 1, by simp at hfuel; omega⟩
      simp only [ContentStore.walk, hid, hp, Bool.false_eq_true, if_false]
      split_ifs with heq hlt
      · exact @WalkEnd.found _ _ _ _ [] _ _ (by simp) ⟨h, hid, heq⟩
      · exact @WalkEnd.beyond _ _ _ _ [] _ _ _ (by simp) ⟨h, hid, rfl⟩ hlt
      · have hrest' := ih (i + 1) (by simpa using hfuel : l.length ≤ fuel)
        exact hrest'.cons ⟨h.seq, ⟨h, hid, rfl⟩, by omega⟩

/-- Along a line without repetitions the walk has as many steps as it needs. -/
theorem Line.rollbackPath (hl : s.Line tip l) (hnodup : l.Nodup) :
    s.WalkEnd targetSeq l (s.rollbackPath (fun _ => false) tip targetSeq) := by
  refine hl.walk 0 ?_
  have hsub : l ⊆ s.headers.keys := by
    intro x hx
    obtain ⟨h, hid⟩ := hl.exists_header hx
    exact AList.mem_keys.mp (AList.lookup_isSome.mp (Option.isSome_iff_exists.mpr ⟨h, hid⟩))
  have := (List.subperm_of_subset hnodup hsub).length_le
  unfold walkBound
  omega

/-! ### Decreasing sequence numbers -/

/-- From the tip on, every parent has a smaller sequence number. -/
def SeqDecreases (s : ContentStore D) (tip : D) : Prop :=
  ∀ x p n m, s.AncestorOrSelf tip x → s.ParentOf x p → s.HasSeq x n → s.HasSeq p m → m < n

/-- A line with decreasing sequence numbers is a chain. -/
theorem Line.chain (hl : s.Line tip l) (hdec : s.SeqDecreases tip) :
    ∃ h, s.Chain tip h := by
  induction hl with
  | root hid hp => exact ⟨_, .root hid hp⟩
  | @child id p h l hid hp hrest ih =>
      have hparent : s.ParentOf id p := ⟨h, hid, hp⟩
      obtain ⟨hp', hchain⟩ := ih fun x q n m hx => hdec x q n m (.head hparent hx)
      refine ⟨h, .child hid hp hchain ?_⟩
      exact hdec id p h.seq hp'.seq .refl hparent ⟨h, hid, rfl⟩ ⟨hp', hchain.getHeader, rfl⟩

/-- On a chain, what comes after a snapshot of the line has smaller sequence numbers. -/
theorem Line.seq_lt_of_after (hl : s.Line tip l) {h : SnapshotHeader D} (hc : s.Chain tip h)
    {before after : List D} {y : D} (heq : l = before ++ x :: after) (hy : y ∈ after) {n m : ℕ}
    (hn : s.HasSeq x n) (hm : s.HasSeq y m) : m < n := by
  induction hl generalizing before h with
  | root _ _ =>
      obtain ⟨rfl, rfl⟩ : before = [] ∧ after = [] := by
        cases before <;> simp at heq ⊢
        exact heq.2
      cases hy
  | @child id p hid' l hid hp hrest ih =>
      cases hc with
      | root hid₂ hp₂ =>
          obtain rfl := Option.some.inj (hid.symm.trans hid₂)
          exact absurd (hp.symm.trans hp₂) (by simp)
      | @child _ q _ hq hid₂ hp₂ hchain hlt =>
          obtain rfl := Option.some.inj (hid.symm.trans hid₂)
          obtain rfl := Option.some.inj (hp.symm.trans hp₂)
          cases before with
          | nil =>
              obtain ⟨rfl, rfl⟩ := List.cons.inj heq
              have hle := hchain.hasSeq_le (hrest.mem_iff.mp hy) hm
              have := hn.eq hid
              omega
          | cons b before => exact ih hchain (List.cons.inj heq).2

end Line

/-! ### Stores that are filled parent first -/

section ParentFirst

variable [DecidableEq D] [ContentHash D] {headers : List (SnapshotHeader D)}

/-- The store after a sequence of `put_snapshot` calls. -/
def ofHeaders (headers : List (SnapshotHeader D)) : ContentStore D :=
  headers.foldl (fun s h => s.putSnapshot h) .empty

omit [DecidableEq D] in
/-- Each header names no parent, or what an earlier call has returned. -/
def ParentFirst (headers : List (SnapshotHeader D)) : Prop :=
  AppendGraph.Closed snapshotId (fun h : SnapshotHeader D => h.parent.toList) headers

theorem getHeader_ofHeaders {id : D} {h : SnapshotHeader D} :
    (ofHeaders headers).getHeader id = some h ↔ h ∈ headers ∧ snapshotId h = id := by
  induction headers using List.reverseRecOn with
  | nil => simp [ofHeaders]
  | append_singleton headers h' ih =>
      have hconcat : ofHeaders (headers ++ [h']) = (ofHeaders headers).putSnapshot h' := by
        simp [ofHeaders]
      rw [hconcat, getHeader_putSnapshot, List.mem_append, List.mem_singleton]
      split_ifs with hid
      · subst hid
        constructor
        · intro heq
          exact ⟨.inr (Option.some.inj heq).symm, by rw [Option.some.inj heq]⟩
        · rintro ⟨-, heq⟩
          rw [snapshotId_injective heq]
      · rw [ih]
        constructor
        · rintro ⟨hmem, heq⟩
          exact ⟨.inl hmem, heq⟩
        · rintro ⟨hmem | rfl, heq⟩
          · exact ⟨hmem, heq⟩
          · exact absurd heq.symm hid

/-- The parents in such a store are those of the graph of its headers. -/
theorem parentOf_ofHeaders {id p : D} : (ofHeaders headers).ParentOf id p ↔
    AppendGraph.ParentOf snapshotId (fun h : SnapshotHeader D => h.parent.toList) headers p
      id := by
  constructor
  · rintro ⟨h, hid, hp⟩
    obtain ⟨hmem, rfl⟩ := getHeader_ofHeaders.mp hid
    exact ⟨h, hmem, rfl, Option.mem_toList.mpr hp⟩
  · rintro ⟨h, hmem, rfl, hp⟩
    exact ⟨h, getHeader_ofHeaders.mpr ⟨hmem, rfl⟩, Option.mem_toList.mp hp⟩

theorem ParentFirst.wellFounded (hfirst : ParentFirst headers) :
    WellFounded fun p id => (ofHeaders headers).ParentOf id p := by
  refine Subrelation.wf ?_ (AppendGraph.Closed.wellFounded hfirst snapshotId_injective)
  intro p id h
  exact parentOf_ofHeaders.mp h

/-- The parent of a stored snapshot is stored. -/
theorem ParentFirst.exists_parent (hfirst : ParentFirst headers) {id p : D}
    (h : (ofHeaders headers).ParentOf id p) :
    ∃ hp, (ofHeaders headers).getHeader p = some hp := by
  obtain ⟨h', hmem, -, hp⟩ := parentOf_ofHeaders.mp h
  obtain ⟨hp', hmem', heq⟩ := List.mem_map.mp (AppendGraph.Closed.mem_names hfirst hmem hp)
  exact ⟨hp', getHeader_ofHeaders.mpr ⟨hmem', heq⟩⟩

/-- Every stored snapshot has a line, which repeats nothing: there is no cycle. -/
theorem exists_line (hfirst : ParentFirst headers) {tip : D} {h : SnapshotHeader D}
    (htip : (ofHeaders headers).getHeader tip = some h) :
    ∃ l, (ofHeaders headers).Line tip l ∧ l.Nodup := by
  have hwf := hfirst.wellFounded
  have hline : ∀ id hid, (ofHeaders headers).getHeader id = some hid →
      ∃ l, (ofHeaders headers).Line id l := by
    intro id
    induction id using hwf.induction with
    | _ id ih =>
        intro hid hget
        cases hp : hid.parent with
        | none => exact ⟨_, .root hget hp⟩
        | some p =>
            have hparent : (ofHeaders headers).ParentOf id p := ⟨hid, hget, hp⟩
            obtain ⟨hp', hget'⟩ := hfirst.exists_parent hparent
            obtain ⟨l, hl⟩ := ih p hparent hp' hget'
            exact ⟨_, .child hget hp hl⟩
  obtain ⟨l, hl⟩ := hline tip h htip
  refine ⟨l, hl, ?_⟩
  -- along the line every snapshot is a proper descendant of those after it
  have hpairwise : l.Pairwise (Relation.TransGen (ofHeaders headers).ParentOf) :=
    List.isChain_iff_pairwise.mp (hl.isChain.imp fun _ _ => .single)
  refine hpairwise.imp fun {x y} hxy hne => ?_
  subst hne
  refine hwf.transGen.irrefl.irrefl x ?_
  exact Relation.transGen_swap.mp hxy

/-- Sequence numbers decrease along parents if they do so between the headers. -/
theorem seqDecreases_ofHeaders
    (hdec : ∀ h ∈ headers, ∀ h' ∈ headers, h.parent = some (snapshotId h') → h'.seq < h.seq)
    (tip : D) : (ofHeaders headers).SeqDecreases tip := by
  rintro x p n m - ⟨h, hid, hp⟩ hn ⟨h', hid', rfl⟩
  obtain rfl := hn.eq hid
  obtain ⟨hmem, -⟩ := getHeader_ofHeaders.mp hid
  obtain ⟨hmem', rfl⟩ := getHeader_ofHeaders.mp hid'
  exact hdec h hmem h' hmem' hp

end ParentFirst

end ContentStore

open ContentStore in
/-- **The walk of a rollback.** In a store filled parent first, from every stored tip, the walk
ends, and not because a header is missing. If sequence numbers decrease along parents, it finds
a path if and only if an ancestor carries the target sequence number; the path leads from the
tip from parent to parent to the one ancestor that does. Otherwise the target is beyond the
history when some ancestor has a smaller sequence number, and there is no parent when all have
larger ones. -/
theorem rollbackPath_parentFirst [DecidableEq D] [ContentHash D]
    {headers : List (SnapshotHeader D)} (hfirst : ParentFirst headers) {tip : D}
    {h : SnapshotHeader D} (htip : (ofHeaders headers).getHeader tip = some h)
    (targetSeq : ℕ) {r : Except (StoreError D) (List D)}
    (hr : (ofHeaders headers).rollbackPath (fun _ => false) tip targetSeq = r) :
    r ≠ .error .nonTerminating ∧ (∀ x, r ≠ .error (.missingBlock x)) ∧
    ((ofHeaders headers).SeqDecreases tip →
      ((∃ path, r = .ok path) ↔ ∃ x, (ofHeaders headers).AncestorOrSelf tip x ∧
        (ofHeaders headers).HasSeq x targetSeq) ∧
      (∀ path, r = .ok path → path.head? = some tip ∧
        path.IsChain (ofHeaders headers).ParentOf ∧
        ∃ x, path.getLast? = some x ∧ ∀ y, (ofHeaders headers).AncestorOrSelf tip y ∧
          (ofHeaders headers).HasSeq y targetSeq ↔ y = x) ∧
      ((∀ x, (ofHeaders headers).AncestorOrSelf tip x →
          ¬ (ofHeaders headers).HasSeq x targetSeq) →
        ((∃ x n, (ofHeaders headers).AncestorOrSelf tip x ∧ (ofHeaders headers).HasSeq x n ∧
            n < targetSeq) → ∃ seq, r = .error (.targetBeyondHistory seq targetSeq)) ∧
        ((∀ x n, (ofHeaders headers).AncestorOrSelf tip x → (ofHeaders headers).HasSeq x n →
            targetSeq < n) → ∃ x, r = .error (.noParent x)))) := by
  obtain ⟨l, hl, hnodup⟩ := exists_line hfirst htip
  generalize ofHeaders headers = s at *
  have hend : s.WalkEnd targetSeq l r := hr ▸ hl.rollbackPath hnodup
  cases hend with
  | @found before x after hbefore hx =>
      have hmem := hl.mem_iff.mp (List.mem_append_right before (List.mem_cons_self (a := x)))
      refine ⟨by simp, by simp, fun hdec => ⟨⟨fun _ => ⟨x, hmem, hx⟩, fun _ => ⟨_, rfl⟩⟩, ?_,
        fun hnone => absurd hx (hnone x hmem)⟩⟩
      rintro path hpath
      obtain rfl := Except.ok.inj hpath
      obtain ⟨h', hc⟩ := hl.chain hdec
      have hpre : before ++ [x] <:+: before ++ x :: after := ⟨[], after, by simp⟩
      refine ⟨?_, hl.isChain.infix hpre, x, by simp, fun y => ⟨?_, ?_⟩⟩
      · have hhead := hl.head?_eq
        cases before <;> simpa using hhead
      · rintro ⟨hy, hyseq⟩
        exact hc.ancestor_unique hy hmem hyseq hx
      · rintro rfl
        exact ⟨hmem, hx⟩
  | @beyond before x after seq hbefore hx hlt =>
      have hmem := hl.mem_iff.mp (List.mem_append_right before (List.mem_cons_self (a := x)))
      refine ⟨by simp, by simp, fun hdec => ⟨?_, by simp, fun _ => ⟨fun _ => ⟨seq, rfl⟩, ?_⟩⟩⟩
      · refine ⟨by simp, ?_⟩
        rintro ⟨y, hy, hyseq⟩
        obtain ⟨h', hc⟩ := hl.chain hdec
        exfalso
        rcases List.mem_append.mp (hl.mem_iff.mpr hy) with hy | hy
        · obtain ⟨n, hn, hgt⟩ := hbefore y hy
          obtain ⟨hh, hget, rfl⟩ := hn
          have := hyseq.eq hget
          omega
        · rcases List.mem_cons.mp hy with rfl | hy
          · obtain ⟨hh, hget, rfl⟩ := hx
            have := hyseq.eq hget
            omega
          · have := hl.seq_lt_of_after hc rfl hy hx hyseq
            omega
      · intro hall
        have := hall x seq hmem hx
        omega
  | @root before x hall =>
      refine ⟨by simp, by simp, fun _ => ⟨?_, by simp, fun _ => ⟨?_, fun _ => ⟨x, rfl⟩⟩⟩⟩
      · refine ⟨by simp, ?_⟩
        rintro ⟨y, hy, hyseq⟩
        obtain ⟨n, ⟨hh, hget, rfl⟩, hgt⟩ := hall y (hl.mem_iff.mpr hy)
        have := hyseq.eq hget
        omega
      · rintro ⟨y, m, hy, hm, hlt⟩
        obtain ⟨n, ⟨hh, hget, rfl⟩, hgt⟩ := hall y (hl.mem_iff.mpr hy)
        have := hm.eq hget
        omega

/-- Two snapshots, of which the second one follows the first one with a gap. -/
def gappedHeaders : List (SnapshotHeader (List ℕ)) :=
  let first : SnapshotHeader (List ℕ) := ⟨[], none, 0, 0⟩
  [first, ⟨[], some (snapshotId first), 2, 0⟩]

open ContentStore in
/-- From the second one the walk to the sequence number zero finds a path. -/
theorem rollbackPath_parentFirst_gappedHeaders :
    ∃ tip path, (ofHeaders gappedHeaders).rollbackPath (fun _ => false) tip 0 = .ok path ∧
      path.head? = some tip ∧ path.length = 2 := by
  have hfirst : ParentFirst gappedHeaders := by
    refine (@AppendGraph.closed_concat _ _ _ _ [_] _).mpr ⟨?_, by simp⟩
    exact (@AppendGraph.closed_concat _ _ _ _ [] _).mpr ⟨AppendGraph.closed_nil, by simp⟩
  have htip : (ofHeaders gappedHeaders).getHeader (snapshotId gappedHeaders[1]) =
      some gappedHeaders[1] := getHeader_ofHeaders.mpr ⟨by decide, rfl⟩
  obtain ⟨-, -, hdec⟩ := rollbackPath_parentFirst hfirst htip 0 rfl
  obtain ⟨-, hpath, -⟩ := hdec (seqDecreases_ofHeaders (by decide +kernel) _)
  have hok : (ofHeaders gappedHeaders).rollbackPath (fun _ => false)
      (snapshotId gappedHeaders[1]) 0 =
        .ok [snapshotId gappedHeaders[1], snapshotId gappedHeaders[0]] := by decide +kernel
  exact ⟨_, _, hok, (hpath _ hok).1, rfl⟩

end Torpor
