import Mathlib.Data.List.TakeWhile
import Torpor.Durability.Oracles

/-!
# What the Crash Oracle Decides

With lookups that do not fail and ids spelt as `hex_encode` spells them, the verdict of
`verify_p6_concurrent` is a property of the store, the log and the commits.

## Main results

* `p6_exact`: the verdict is that for every agent the commits in the log are a prefix of its
  commits, each with what it refers to; the gaps are the commits in the log after the first that
  is not.
-/

namespace Torpor

open ByteOrder

/-! ### Prefixes -/

section Prefixes

variable {α : Type*} {p : α → Bool} {l : List α}

/-- What satisfies `p` is a prefix, of elements that also satisfy `Q`. -/
theorem exists_prefix_iff {Q : α → Prop} :
    (∃ pre rest, l = pre ++ rest ∧ (∀ x ∈ pre, p x ∧ Q x) ∧ ∀ x ∈ rest, ¬ p x) ↔
      (∀ x ∈ l.dropWhile p, ¬ p x) ∧ ∀ x ∈ l.takeWhile p, Q x := by
  constructor
  · rintro ⟨pre, rest, rfl, hpre, hrest⟩
    have hstop : rest.takeWhile p = [] ∧ rest.dropWhile p = rest := by
      cases rest with
      | nil => exact ⟨rfl, rfl⟩
      | cons x rest =>
          have hx := hrest x List.mem_cons_self
          rw [List.takeWhile_cons_of_neg hx, List.dropWhile_cons_of_neg hx]
          exact ⟨rfl, rfl⟩
    have hall : ∀ x ∈ pre, p x := fun x hx => (hpre x hx).1
    rw [List.dropWhile_append_of_pos hall, List.takeWhile_append_of_pos hall, hstop.1, hstop.2,
      List.append_nil]
    exact ⟨hrest, fun x hx => (hpre x hx).2⟩
  · rintro ⟨hdrop, htake⟩
    exact ⟨l.takeWhile p, l.dropWhile p, List.takeWhile_append_dropWhile.symm,
      fun x hx => ⟨List.mem_takeWhile_imp hx, htake x hx⟩, hdrop⟩

end Prefixes

/-! ### Ids spelt as they are written -/

/-- An id of 64 digits in lower case. -/
def LowerHex (s : List Char) : Prop := s.length = 64 ∧ ∀ c ∈ s, Hex.IsLower c

theorem hexEncode_inj {d d' : Digest} : hexEncode d.val = hexEncode d'.val ↔ d = d' := by
  refine ⟨fun h => Option.some.inj ?_, fun h => by rw [h]⟩
  rw [← hexDecode32_hexEncode d, h, hexDecode32_hexEncode]

/-- Such an id is the encoding of one digest, and decodes to it. -/
theorem LowerHex.exists_digest {s : List Char} (h : LowerHex s) :
    ∃ d : Digest, hexEncode d.val = s ∧ hexDecode32 s = some d := by
  obtain ⟨bs, hlength, rfl⟩ := Hex.exists_encode (k := 32) h.1 h.2
  exact ⟨⟨bs, hlength⟩, rfl, hexDecode32_hexEncode ⟨bs, hlength⟩⟩

/-- What is encoded is spelt so. -/
theorem lowerHex_hexEncode (d : Digest) : LowerHex (hexEncode d.val) := by
  refine ⟨?_, fun c hc => Hex.isLower_encode hc⟩
  rw [hexEncode, Hex.length_encode, d.property]

namespace IcsrCommit

/-- The ids of the commit are spelt as `hex_encode` spells them. -/
structure WellSpelt (c : IcsrCommit) : Prop where
  actionId : LowerHex c.actionIdHex
  snapshotId : LowerHex c.snapshotIdHex
  dataHash : LowerHex c.dataHashHex

variable (store : ContentStore Digest) (log : CausalLog Digest) (c : IcsrCommit)

/-- The log has an entry under the action id. -/
def Present : Prop := ∃ d ∈ log.default.keys, hexEncode d.val = c.actionIdHex

instance : Decidable (c.Present log) := inferInstanceAs (Decidable (∃ d ∈ _, _))

/-- The snapshot, the data and the parents of the entry are there. -/
structure Kept : Prop where
  snapshot : ∃ d ∈ store.headers.keys, hexEncode d.val = c.snapshotIdHex
  block : ∃ d ∈ store.blocks.keys, hexEncode d.val = c.dataHashHex
  parents : ∀ d e, hexEncode d.val = c.actionIdHex → log.get d = some e →
    ∀ parent ∈ e.parentIds, parent ∈ log.default.keys

variable {store log c}

section Keys

-- The log and the store compare digests in two ways.
variable {β : Type} {inst : DecidableEq Digest} {m : AList fun _ : Digest => β} {d : Digest}

theorem isSome_lookup_iff : (@AList.lookup _ _ inst d m).isSome = true ↔ d ∈ m.keys :=
  AList.lookup_isSome

/-- A key is the one that an id is the encoding of. -/
theorem exists_key_iff : (∃ d' ∈ m.keys, hexEncode d'.val = hexEncode d.val) ↔
    (@AList.lookup _ _ inst d m).isSome = true := by
  simp only [hexEncode_inj, exists_eq_right, isSome_lookup_iff]

end Keys

/-- A commit whose lookups do not fail. -/
def sound (c : IcsrCommit) : Probe := (c, fun _ => false)

/-- What is visible is what is in the log. -/
theorem visible_sound (h : c.WellSpelt) : c.sound.visible log = decide (c.Present log) := by
  obtain ⟨d, hd, hdecode⟩ := h.actionId.exists_digest
  have hentry : c.sound.entry log = .of false (log.get d).isSome := by
    simp only [Probe.entry, sound, hdecode]
  have hpresent : c.Present log ↔ (log.get d).isSome = true := by
    unfold Present
    rw [← hd]
    exact exists_key_iff
  rw [Probe.visible, hentry, decide_eq_decide, hpresent, Answer.of_eq_found_iff,
    and_iff_right rfl]

/-- No parent is looked up and not found exactly when all of them are in the log. -/
theorem parents_sound_iff (h : LowerHex c.actionIdHex) :
    (∀ x ∈ (VerifyP6.parents log c.sound).getD [], x.2 ≠ .absent) ↔
      ∀ d e, hexEncode d.val = c.actionIdHex → log.get d = some e →
        ∀ parent ∈ e.parentIds, parent ∈ log.default.keys := by
  obtain ⟨d, hd, hdecode⟩ := h.exists_digest
  have hparents : VerifyP6.parents log c.sound = (log.get d).map fun e =>
      e.parentIds.zipIdx.map fun x => (x.1, .of false (log.get x.1).isSome) := by
    simp only [VerifyP6.parents, sound, hdecode, Bool.false_eq_true, if_false]
  have hkey : ∀ parent, (log.get parent).isSome = true ↔ parent ∈ log.default.keys :=
    fun _ => isSome_lookup_iff
  rw [hparents]
  constructor
  · intro hall d' e hd' he parent hparent
    obtain rfl : d' = d := hexEncode_inj.mp (hd'.trans hd.symm)
    obtain ⟨k, hk⟩ := List.mem_iff_getElem?.mp hparent
    rw [he] at hall
    have hmem : (parent, Answer.of false (log.get parent).isSome) ∈
        e.parentIds.zipIdx.map fun x => (x.1, .of false (log.get x.1).isSome) :=
      List.mem_map.mpr ⟨(parent, k), List.mk_mem_zipIdx_iff_getElem?.mpr hk, rfl⟩
    exact (hkey parent).mp (Answer.of_false_ne_absent_iff.mp (hall _ hmem))
  · intro hall x hx
    rcases he : log.get d with _ | e
    · rw [he] at hx
      cases hx
    · rw [he] at hx
      obtain ⟨⟨parent, k⟩, hmem, rfl⟩ := List.mem_map.mp hx
      have hparent := List.mem_of_getElem? (List.mk_mem_zipIdx_iff_getElem?.mp hmem)
      exact Answer.of_false_ne_absent_iff.mpr ((hkey parent).mpr (hall d e hd he parent hparent))

/-- What is found is what is kept. -/
theorem intact_sound_iff (h : c.WellSpelt) :
    VerifyP6.Intact store log c.sound ↔ c.Kept store log := by
  obtain ⟨snapId, hsnap, hsnapDecode⟩ := h.snapshotId.exists_digest
  obtain ⟨dataHash, hdata, hdataDecode⟩ := h.dataHash.exists_digest
  have hstored : VerifyP6.stored store c.sound =
      (.of false (store.hasSnapshot snapId), .of false (store.getBlock dataHash).isSome) := by
    simp only [VerifyP6.stored, sound, hsnapDecode, hdataDecode]
  have hsnapshot : (∃ d ∈ store.headers.keys, hexEncode d.val = c.snapshotIdHex) ↔
      store.hasSnapshot snapId = true := by
    rw [← hsnap]
    exact exists_key_iff
  have hblock : (∃ d ∈ store.blocks.keys, hexEncode d.val = c.dataHashHex) ↔
      (store.getBlock dataHash).isSome = true := by
    rw [← hdata]
    exact exists_key_iff
  rw [VerifyP6.Intact, hstored, parents_sound_iff h.actionId]
  dsimp only
  rw [Answer.of_false_ne_absent_iff, Answer.of_false_ne_absent_iff, ← hblock, ← hsnapshot]
  constructor
  · intro hintact
    exact ⟨hintact.1, hintact.2.1, hintact.2.2⟩
  · intro hkept
    exact ⟨hkept.snapshot, hkept.block, hkept.parents⟩

end IcsrCommit

/-! ### The verdict -/

/-- No lookup returns an error. -/
def noFaults : ℕ → ℕ → Lookup → Bool := fun _ _ _ => false

theorem probes_noFaults (i : ℕ) (commits : List IcsrCommit) :
    probes (noFaults i) commits = commits.map IcsrCommit.sound := by
  rw [← List.zipIdx_map_fst 0 commits, List.map_map, List.zipIdx_map_fst]
  rfl

section Agent

variable {store : ContentStore Digest} {log : CausalLog Digest} {commits : List IcsrCommit}

/-- The scan of an agent's commits. -/
theorem span_sound (h : ∀ c ∈ commits, c.WellSpelt) :
    (commits.map IcsrCommit.sound).takeWhile (·.visible log) =
        (commits.takeWhile fun c => c.Present log).map IcsrCommit.sound ∧
      (commits.map IcsrCommit.sound).dropWhile (·.visible log) =
        (commits.dropWhile fun c => c.Present log).map IcsrCommit.sound := by
  have hagree : ∀ c ∈ commits,
      (Probe.visible log ∘ IcsrCommit.sound) c = decide (c.Present log) :=
    fun c hc => IcsrCommit.visible_sound (h c hc)
  rw [List.takeWhile_map, List.dropWhile_map, SortedIndex.takeWhile_congr hagree,
    SortedIndex.dropWhile_congr hagree]
  exact ⟨rfl, rfl⟩

/-- The gaps of an agent are its commits in the log after the first that is not. -/
theorem length_gaps_sound (h : ∀ c ∈ commits, c.WellSpelt) (agentIdHex : List Char) :
    (VerifyP6.gaps log agentIdHex (commits.map IcsrCommit.sound)).length =
      (commits.dropWhile fun c => c.Present log).countP fun c => c.Present log := by
  rw [VerifyP6.length_gaps, (span_sound h).2, List.countP_map]
  refine List.countP_congr fun c hc => ?_
  have hwell := h c ((List.dropWhile_sublist _).mem hc)
  rw [Function.comp_apply, IcsrCommit.visible_sound hwell]

/-- Nothing is reported of an agent exactly when its commits in the log are a prefix of its
commits, each with what it refers to. -/
theorem clean_sound_iff (h : ∀ c ∈ commits, c.WellSpelt) :
    ((∀ p ∈ (commits.map IcsrCommit.sound).dropWhile (·.visible log), ¬ p.visible log) ∧
        ∀ p ∈ (commits.map IcsrCommit.sound).takeWhile (·.visible log),
          VerifyP6.Intact store log p) ↔
      ∃ pre rest, commits = pre ++ rest ∧ (∀ c ∈ pre, c.Present log ∧ c.Kept store log) ∧
        ∀ c ∈ rest, ¬ c.Present log := by
  have hdrop : ∀ c ∈ commits.dropWhile fun c => c.Present log, c.WellSpelt :=
    fun c hc => h c ((List.dropWhile_sublist _).mem hc)
  have htake : ∀ c ∈ commits.takeWhile fun c => c.Present log, c.WellSpelt :=
    fun c hc => h c ((List.takeWhile_sublist _).mem hc)
  have hsplit := exists_prefix_iff (l := commits) (p := fun c => c.Present log)
    (Q := (·.Kept store log))
  simp only [decide_eq_true_eq] at hsplit
  rw [hsplit, (span_sound h).1, (span_sound h).2, List.forall_mem_map, List.forall_mem_map]
  refine and_congr (forall₂_congr fun c hc => ?_) (forall₂_congr fun c hc => ?_)
  · rw [IcsrCommit.visible_sound (hdrop c hc), decide_eq_true_eq]
  · exact IcsrCommit.intact_sound_iff (htake c hc)

end Agent

/-- **The crash oracle is exact.** -/
theorem p6_exact (store : ContentStore Digest) (log : CausalLog Digest) (w : ConcurrentWitness)
    (hids : ∀ a ∈ w.agents, ∀ c ∈ a.ackedCommits, c.WellSpelt) :
    ((verifyP6Concurrent store log noFaults w).p6Ok = true ↔
        ∀ a ∈ w.agents, ∃ pre rest, a.ackedCommits = pre ++ rest ∧
          (∀ c ∈ pre, c.Present log ∧ c.Kept store log) ∧ ∀ c ∈ rest, ¬ c.Present log) ∧
      (verifyP6Concurrent store log noFaults w).totalGaps =
        (w.agents.map fun a =>
          (a.ackedCommits.dropWhile fun c => c.Present log).countP fun c => c.Present log).sum := by
  constructor
  · rw [VerifyP6.p6Ok_iff]
    simp only [probes_noFaults]
    constructor
    · intro hclean a ha
      obtain ⟨i, hi⟩ := List.mem_iff_getElem?.mp ha
      have hx : (a, i) ∈ w.agents.zipIdx := List.mk_mem_zipIdx_iff_getElem?.mpr hi
      exact (clean_sound_iff (hids a ha)).mp (hclean (a, i) hx)
    · rintro hsplit ⟨a, i⟩ hx
      have ha := List.mem_of_getElem? (List.mk_mem_zipIdx_iff_getElem?.mp hx)
      exact (clean_sound_iff (hids a ha)).mpr (hsplit a ha)
  · simp only [verifyP6Concurrent, VerifyP6.round, probes_noFaults, List.map_map]
    conv_rhs => rw [← List.zipIdx_map_fst 0 w.agents, List.map_map]
    refine congrArg List.sum (List.map_congr_left fun x hx => ?_)
    have ha := List.mem_of_getElem? (List.mk_mem_zipIdx_iff_getElem?.mp hx)
    exact length_gaps_sound (hids x.1 ha) x.1.agentIdHex

/-- A commit whose ids are all the same. -/
def commitOf (d : Digest) : IcsrCommit :=
  ⟨0, hexEncode d.val, hexEncode d.val, hexEncode d.val⟩

theorem wellSpelt_commitOf (d : Digest) : (commitOf d).WellSpelt :=
  ⟨lowerHex_hexEncode d, lowerHex_hexEncode d, lowerHex_hexEncode d⟩

/-- A digest of one byte, repeated. -/
def repeated (b : UInt8) : Digest := ⟨List.replicate 32 b, List.length_replicate⟩

/-- A log with one entry. -/
def oneEntry : CausalLog Digest :=
  ⟨AList.singleton (repeated 0) ⟨0, 0, [], repeated 0, repeated 0, none⟩, []⟩

/-- The second commit of an agent is in the log, and the first is not. -/
theorem p6_exact_gap :
    (verifyP6Concurrent .empty oneEntry noFaults
      ⟨1, [⟨[], [commitOf (repeated 1), commitOf (repeated 0)]⟩]⟩).totalGaps = 1 := by
  rw [(p6_exact .empty oneEntry ⟨1, [⟨[], [commitOf (repeated 1), commitOf (repeated 0)]⟩]⟩ ?_).2]
  · decide
  · rintro a ha c hc
    obtain rfl := List.mem_singleton.mp ha
    simp only [List.mem_cons, List.not_mem_nil, or_false] at hc
    obtain rfl | rfl := hc
    · exact wellSpelt_commitOf (repeated 1)
    · exact wellSpelt_commitOf (repeated 0)

end Torpor
