import Mathlib.Data.List.TakeWhile
import Torpor.Durability.Oracles

/-!
# The Crash Oracles and Lookups that Fail

A commit whose id does not decode is passed over by the crash oracles, and a lookup that returns
an error is printed; neither counts against the verdict.

## Main results

* `verifyIcsr_failsClosed_iff`, `verifyP6_failsClosed_iff`: a positive verdict stands for lookups
  that were made and answered exactly when every id is read and every lookup succeeds, or when
  what is read refutes the witness all the same.
* `oracles_failClosed_iff`: both oracles.
-/

namespace Torpor

open ByteOrder

variable (store : ContentStore Digest) (log : CausalLog Digest)

/-- The action id decodes, and the log has this entry for it. -/
def Probe.Logs (p : Probe) (e : LogEntry Digest) : Prop :=
  ∃ actionId, hexDecode32 p.1.actionIdHex = some actionId ∧ log.get actionId = some e

theorem Probe.Logs.unique {log : CausalLog Digest} {p : Probe} {e e' : LogEntry Digest}
    (h : p.Logs log e) (h' : p.Logs log e') : e = e' := by
  obtain ⟨actionId, ha, he⟩ := h
  obtain ⟨actionId', ha', he'⟩ := h'
  obtain rfl := Option.some.inj (ha.symm.trans ha')
  exact Option.some.inj (he.symm.trans he')

/-- The entry of the commit is read. -/
def Probe.Seen (p : Probe) : Prop := p.2 .entry = false ∧ ∃ e, p.Logs log e

/-- The snapshot or the data of the commit is looked up and not found. -/
def Probe.Dangling (p : Probe) : Prop :=
  ∃ snapId dataHash, hexDecode32 p.1.snapshotIdHex = some snapId ∧
    hexDecode32 p.1.dataHashHex = some dataHash ∧
    (p.2 .snapshot = false ∧ store.hasSnapshot snapId = false ∨
      p.2 .block = false ∧ store.getBlock dataHash = none)

/-! ### `verify_icsr` -/

namespace VerifyIcsr

/-- The entry of a commit has been looked up, and if it is there, what it refers to has been
found. -/
structure Looked.Checked (l : Looked) : Prop where
  entry : l.entry = .absent ∨ l.entry = .found
  store : l.entry = .found → l.snapshot = .found ∧ l.block = .found

/-- The ids of the commit are read, and its lookups succeed. -/
structure Readable (p : Probe) : Prop where
  actionId : (hexDecode32 p.1.actionIdHex).isSome
  snapshotId : (hexDecode32 p.1.snapshotIdHex).isSome
  dataHash : (hexDecode32 p.1.dataHashHex).isSome
  entry : p.2 .entry = false
  store : ∀ e, p.Logs log e → p.2 .snapshot = false ∧ p.2 .block = false

variable {store log} {p : Probe}

/-- Where an id does not decode, nothing is looked up. -/
theorem look_of_none (h : hexDecode32 p.1.actionIdHex = none ∨
      hexDecode32 p.1.snapshotIdHex = none ∨ hexDecode32 p.1.dataHashHex = none) :
    look store log p = ⟨.unasked, .unasked, .unasked⟩ := by
  rw [look]
  rcases ha : hexDecode32 p.1.actionIdHex with _ | actionId
  · rfl
  rcases hs : hexDecode32 p.1.snapshotIdHex with _ | snapId
  · rfl
  rcases hd : hexDecode32 p.1.dataHashHex with _ | dataHash
  · rfl
  simp [ha, hs, hd] at h

/-- Where they do, the entry is looked up, and what it refers to if it is there. -/
theorem look_of_some {actionId snapId dataHash : Digest}
    (ha : hexDecode32 p.1.actionIdHex = some actionId)
    (hs : hexDecode32 p.1.snapshotIdHex = some snapId)
    (hd : hexDecode32 p.1.dataHashHex = some dataHash) :
    look store log p = if Answer.of (p.2 .entry) (log.get actionId).isSome = .found then
        ⟨.of (p.2 .entry) (log.get actionId).isSome,
          .of (p.2 .snapshot) (store.hasSnapshot snapId),
          .of (p.2 .block) (store.getBlock dataHash).isSome⟩
      else ⟨.of (p.2 .entry) (log.get actionId).isSome, .unasked, .unasked⟩ := by
  simp only [look, ha, hs, hd]

/-- Something is reported missing exactly where the entry is read and what it refers to is
not found. -/
theorem absent_iff : (look store log p).snapshot = .absent ∨ (look store log p).block = .absent ↔
    p.Seen log ∧ p.Dangling store := by
  rcases ha : hexDecode32 p.1.actionIdHex with _ | actionId
  · rw [look_of_none (.inl ha)]
    simp [Probe.Seen, Probe.Logs, ha]
  rcases hs : hexDecode32 p.1.snapshotIdHex with _ | snapId
  · rw [look_of_none (.inr (.inl hs))]
    simp [Probe.Dangling, hs]
  rcases hd : hexDecode32 p.1.dataHashHex with _ | dataHash
  · rw [look_of_none (.inr (.inr hd))]
    simp [Probe.Dangling, hd]
  have hseen : p.Seen log ↔ Answer.of (p.2 .entry) (log.get actionId).isSome = .found := by
    simp [Probe.Seen, Probe.Logs, ha, Option.isSome_iff_exists]
  have hdangling : p.Dangling store ↔
      Answer.of (p.2 .snapshot) (store.hasSnapshot snapId) = .absent ∨
        Answer.of (p.2 .block) (store.getBlock dataHash).isSome = .absent := by
    simp [Probe.Dangling, hs, hd]
  rw [look_of_some ha hs hd, hseen, hdangling]
  split_ifs with hfound <;> simp [hfound]

/-- Lookups are made only where the ids are read. -/
theorem Looked.Checked.decoded (h : (look store log p).Checked) :
    (hexDecode32 p.1.actionIdHex).isSome ∧ (hexDecode32 p.1.snapshotIdHex).isSome ∧
      (hexDecode32 p.1.dataHashHex).isSome := by
  by_contra hnone
  simp only [not_and_or, Option.not_isSome_iff_eq_none] at hnone
  have hentry := h.entry
  rw [look_of_none hnone] at hentry
  rcases hentry with hentry | hentry
  · cases hentry
  · cases hentry

/-- Where nothing is reported missing, the lookups are answered exactly when the ids are read and
the lookups succeed. -/
theorem checked_iff (hs : (look store log p).snapshot ≠ .absent)
    (hb : (look store log p).block ≠ .absent) :
    (look store log p).Checked ↔ Readable log p := by
  constructor
  · intro h
    obtain ⟨hasome, hssome, hdsome⟩ := h.decoded
    obtain ⟨actionId, ha⟩ := Option.isSome_iff_exists.mp hasome
    obtain ⟨snapId, hs⟩ := Option.isSome_iff_exists.mp hssome
    obtain ⟨dataHash, hd⟩ := Option.isSome_iff_exists.mp hdsome
    rw [look_of_some ha hs hd] at h
    split_ifs at h with hfound
    · obtain ⟨hsnapshot, hblock⟩ := h.store hfound
      exact ⟨hasome, hssome, hdsome, (Answer.of_eq_found_iff.mp hfound).1, fun _ _ =>
        ⟨(Answer.of_eq_found_iff.mp hsnapshot).1, (Answer.of_eq_found_iff.mp hblock).1⟩⟩
    · obtain ⟨hentry, hnone⟩ := Answer.of_eq_absent_iff.mp (h.entry.resolve_right hfound)
      refine ⟨hasome, hssome, hdsome, hentry, ?_⟩
      rintro e ⟨actionId', ha', he⟩
      obtain rfl : actionId = actionId' := Option.some.inj (ha.symm.trans ha')
      rw [he] at hnone
      cases hnone
  · intro h
    obtain ⟨actionId, ha⟩ := Option.isSome_iff_exists.mp h.actionId
    obtain ⟨snapId, hsnap⟩ := Option.isSome_iff_exists.mp h.snapshotId
    obtain ⟨dataHash, hdata⟩ := Option.isSome_iff_exists.mp h.dataHash
    rw [look_of_some ha hsnap hdata] at hs hb ⊢
    rcases he : log.get actionId with _ | e
    · rw [h.entry]
      exact ⟨.inl rfl, nofun⟩
    · obtain ⟨hsnapshot, hblock⟩ := h.store e ⟨actionId, ha, he⟩
      have hfound : Answer.of (p.2 .entry) (some e).isSome = .found := by
        rw [h.entry]
        rfl
      rw [he] at hs hb
      rw [if_pos hfound] at hs hb ⊢
      rw [hsnapshot, Answer.of_false_ne_absent_iff] at hs
      rw [hblock, Answer.of_false_ne_absent_iff] at hb
      exact ⟨.inr hfound, fun _ => ⟨Answer.of_eq_found_iff.mpr ⟨hsnapshot, hs⟩,
        Answer.of_eq_found_iff.mpr ⟨hblock, hb⟩⟩⟩

end VerifyIcsr

/-- A positive verdict of `verify_icsr` stands for lookups that were made and answered. -/
def IcsrFailsClosed (store : ContentStore Digest) (log : CausalLog Digest)
    (faults : ℕ → Lookup → Bool) (w : IcsrWitness) : Prop :=
  (verifyIcsr store log faults w).icsrOk = true →
    ∀ p ∈ probes faults w.commits, (VerifyIcsr.look store log p).Checked

/-- It does when all ids are read and all lookups succeed, or when a commit is refuted. -/
theorem verifyIcsr_failsClosed_iff (faults : ℕ → Lookup → Bool) (w : IcsrWitness) :
    IcsrFailsClosed store log faults w ↔
      (∀ p ∈ probes faults w.commits, VerifyIcsr.Readable log p) ∨
        ∃ p ∈ probes faults w.commits, p.Seen log ∧ p.Dangling store := by
  rw [IcsrFailsClosed, verifyIcsr_icsrOk_iff]
  simp only [← not_or, VerifyIcsr.absent_iff]
  by_cases hrefuted : ∃ p ∈ probes faults w.commits, p.Seen log ∧ p.Dangling store
  · refine iff_of_true (fun hok => ?_) (.inr hrefuted)
    obtain ⟨p, hp, hrefuted⟩ := hrefuted
    exact absurd hrefuted (hok p hp)
  · have hok : ∀ p ∈ probes faults w.commits, ¬ (p.Seen log ∧ p.Dangling store) :=
      fun p hp h => hrefuted ⟨p, hp, h⟩
    rw [or_iff_left hrefuted, forall_prop_of_true hok]
    refine forall₂_congr fun p hp => ?_
    have hpresent := not_or.mp (VerifyIcsr.absent_iff.not.mpr (hok p hp))
    exact VerifyIcsr.checked_iff hpresent.1 hpresent.2

/-! ### `verify_p6_concurrent` -/

namespace VerifyP6

/-- What is looked up for a commit; the store and the parents are left out where the commit is
not of the prefix. -/
structure Looked where
  entry : Answer
  snapshot : Answer
  block : Answer
  parents : Option (List Answer)
  deriving DecidableEq

/-- The lookups for a commit of the prefix. -/
def look (p : Probe) : Looked where
  entry := p.entry log
  snapshot := (stored store p).1
  block := (stored store p).2
  parents := (parents log p).map fun l => l.map Prod.snd

/-- The lookup for another commit. -/
def lookEntry (p : Probe) : Looked := ⟨p.entry log, .unasked, .unasked, none⟩

/-- The lookups for an agent. -/
def looked (ps : List Probe) : List Looked :=
  (ps.take (prefixLen log ps)).map (look store log) ++
    (ps.drop (prefixLen log ps)).map (lookEntry log)

/-- The entry of a commit has been looked up, and if it is there, what it refers to has been
found. -/
structure Looked.Checked (l : Looked) : Prop where
  entry : l.entry = .absent ∨ l.entry = .found
  rest : l.entry = .found → l.snapshot = .found ∧ l.block = .found ∧
    ∃ answers, l.parents = some answers ∧ ∀ a ∈ answers, a = .found

/-- The ids of the commit are read, and its lookups succeed. -/
structure Readable (p : Probe) : Prop where
  actionId : (hexDecode32 p.1.actionIdHex).isSome
  entry : p.2 .entry = false
  rest : ∀ e, p.Logs log e → (hexDecode32 p.1.snapshotIdHex).isSome ∧
    (hexDecode32 p.1.dataHashHex).isSome ∧ p.2 .snapshot = false ∧ p.2 .block = false ∧
    p.2 .entryAgain = false ∧ ∀ k < e.parentIds.length, p.2 (.parent k) = false

/-- A parent of the commit is looked up and not found. -/
def Orphaned (p : Probe) : Prop :=
  p.2 .entryAgain = false ∧ ∃ e k parent, p.Logs log e ∧ e.parentIds[k]? = some parent ∧
    p.2 (.parent k) = false ∧ log.get parent = none

/-- A commit is seen after one that is not, or one that is seen refers to something that is not
found. -/
def Refuted (ps : List Probe) : Prop :=
  ¬ ps.Pairwise (fun p q => q.Seen log → p.Seen log) ∨
    ∃ p ∈ ps, p.Seen log ∧ (p.Dangling store ∨ Orphaned log p)

variable {store log} {p : Probe} {ps : List Probe}

theorem entry_eq_found_iff : p.entry log = .found ↔ p.Seen log := by
  rw [Probe.entry]
  rcases ha : hexDecode32 p.1.actionIdHex with _ | actionId
  · simp [Probe.Seen, Probe.Logs, ha]
  · simp [Probe.Seen, Probe.Logs, ha, Option.isSome_iff_exists]

theorem visible_iff : p.visible log = true ↔ p.Seen log := by
  rw [Probe.visible, decide_eq_true_eq, entry_eq_found_iff]

theorem entry_eq_absent_iff : p.entry log = .absent ↔
    (hexDecode32 p.1.actionIdHex).isSome ∧ p.2 .entry = false ∧ ∀ e, ¬ p.Logs log e := by
  rw [Probe.entry]
  rcases ha : hexDecode32 p.1.actionIdHex with _ | actionId
  · simp
  · simp [Probe.Logs, ha, Option.eq_none_iff_forall_ne_some]

/-- Nothing is seen after the first commit that is not seen. -/
theorem pairwise_seen_iff : ps.Pairwise (fun p q => q.Seen log → p.Seen log) ↔
    ∀ p ∈ ps.dropWhile (·.visible log), ¬ p.visible log := by
  induction ps with
  | nil => simp
  | cons p ps ih =>
      rw [List.pairwise_cons, ih]
      by_cases hp : p.visible log = true
      · rw [List.dropWhile_cons_of_pos hp]
        exact and_iff_right fun _ _ _ => visible_iff.mp hp
      · rw [List.dropWhile_cons_of_neg hp, List.forall_mem_cons]
        have hnot : ¬ p.Seen log := fun h => hp (visible_iff.mpr h)
        constructor
        · rintro ⟨hall, -⟩
          exact ⟨hp, fun q hq hseen => hnot (hall q hq (visible_iff.mp hseen))⟩
        · rintro ⟨-, hall⟩
          refine ⟨fun q hq hseen => absurd (visible_iff.mpr hseen) (hall q hq), fun q hq => ?_⟩
          exact hall q ((List.dropWhile_sublist _).mem hq)

/-- The lookups in the store where both ids decode. -/
theorem stored_of_some {snapId dataHash : Digest}
    (hs : hexDecode32 p.1.snapshotIdHex = some snapId)
    (hd : hexDecode32 p.1.dataHashHex = some dataHash) :
    stored store p = (.of (p.2 .snapshot) (store.hasSnapshot snapId),
      .of (p.2 .block) (store.getBlock dataHash).isSome) := by
  simp only [stored, hs, hd]

/-- Nothing in the store is reported missing. -/
theorem stored_ne_absent_iff :
    (stored store p).1 ≠ .absent ∧ (stored store p).2 ≠ .absent ↔ ¬ p.Dangling store := by
  rcases hs : hexDecode32 p.1.snapshotIdHex with _ | snapId
  · simp [stored, Probe.Dangling, hs]
  rcases hd : hexDecode32 p.1.dataHashHex with _ | dataHash
  · simp [stored, Probe.Dangling, hs, hd]
  rw [stored_of_some hs hd, ← not_or]
  simp [Probe.Dangling, hs, hd]

/-- The lookups in the store are answered. -/
theorem stored_eq_found_iff (h : ¬ p.Dangling store) :
    (stored store p).1 = .found ∧ (stored store p).2 = .found ↔
      (hexDecode32 p.1.snapshotIdHex).isSome ∧ (hexDecode32 p.1.dataHashHex).isSome ∧
        p.2 .snapshot = false ∧ p.2 .block = false := by
  rcases hs : hexDecode32 p.1.snapshotIdHex with _ | snapId
  · simp [stored, hs]
  rcases hd : hexDecode32 p.1.dataHashHex with _ | dataHash
  · simp [stored, hs, hd]
  have hpresent := stored_ne_absent_iff.mpr h
  rw [stored_of_some hs hd] at hpresent ⊢
  simp only [Answer.of_eq_found_iff, ne_eq, Answer.of_eq_absent_iff, not_and,
    Bool.not_eq_false] at hpresent ⊢
  constructor
  · rintro ⟨⟨hsnapshot, -⟩, hblock, -⟩
    exact ⟨rfl, rfl, hsnapshot, hblock⟩
  · rintro ⟨-, -, hsnapshot, hblock⟩
    exact ⟨⟨hsnapshot, hpresent.1 hsnapshot⟩, hblock, hpresent.2 hblock⟩

/-- The lookups of the parents, where the entry is read again. -/
theorem parents_of_logs {e : LogEntry Digest} (h : p.Logs log e) :
    parents log p = if p.2 .entryAgain then none else some (e.parentIds.zipIdx.map fun x =>
      (x.1, .of (p.2 (.parent x.2)) (log.get x.1).isSome)) := by
  obtain ⟨actionId, ha, he⟩ := h
  simp only [parents, ha, he, Option.map_some]

/-- No parent is reported missing. -/
theorem parents_ne_absent_iff {e : LogEntry Digest} (h : p.Logs log e) :
    (∀ x ∈ (parents log p).getD [], x.2 ≠ .absent) ↔ ¬ Orphaned log p := by
  rw [parents_of_logs h]
  split_ifs with hagain
  · refine iff_of_true nofun fun horphaned => ?_
    rw [horphaned.1] at hagain
    cases hagain
  · simp only [Option.getD_some, List.forall_mem_map]
    constructor
    · rintro hall ⟨-, e', k, parent, hlogs, hk, hfault, hnone⟩
      obtain rfl := h.unique hlogs
      refine hall (parent, k) (List.mk_mem_zipIdx_iff_getElem?.mpr hk) ?_
      exact Answer.of_eq_absent_iff.mpr ⟨hfault, by rw [hnone]; rfl⟩
    · rintro hno ⟨parent, k⟩ hx habsent
      obtain ⟨hfault, hnone⟩ := Answer.of_eq_absent_iff.mp habsent
      exact hno ⟨by simpa using hagain, e, k, parent, h, List.mk_mem_zipIdx_iff_getElem?.mp hx,
        hfault, by simpa using hnone⟩

/-- The lookups of the parents are answered. -/
theorem parents_eq_found_iff {e : LogEntry Digest} (h : p.Logs log e)
    (hno : ¬ Orphaned log p) :
    (∃ answers, ((parents log p).map fun l => l.map Prod.snd) = some answers ∧
        ∀ a ∈ answers, a = .found) ↔
      p.2 .entryAgain = false ∧ ∀ k < e.parentIds.length, p.2 (.parent k) = false := by
  have hpresent := (parents_ne_absent_iff h).mpr hno
  rw [parents_of_logs h] at hpresent ⊢
  split_ifs at hpresent ⊢ with hagain
  · refine iff_of_false ?_ fun hfalse => ?_
    · rintro ⟨answers, hnone, -⟩
      cases hnone
    · rw [hfalse.1] at hagain
      cases hagain
  · simp only [Option.map_some, Option.some.injEq, exists_eq_left', List.map_map,
      List.forall_mem_map, Option.getD_some, Function.comp_apply] at hpresent ⊢
    constructor
    · intro hall
      refine ⟨by simpa using hagain, fun k hk => ?_⟩
      have hmem := List.mk_mem_zipIdx_iff_getElem?.mpr (List.getElem?_eq_getElem hk)
      exact (Answer.of_eq_found_iff.mp (hall _ hmem)).1
    · rintro ⟨-, hfaults⟩ ⟨parent, k⟩ hx
      have hk := List.mk_mem_zipIdx_iff_getElem?.mp hx
      have hfault := hfaults k (List.getElem?_eq_some_iff.mp hk).1
      have hfound := hpresent (parent, k) hx
      rw [hfault, Answer.of_false_ne_absent_iff] at hfound
      exact Answer.of_eq_found_iff.mpr ⟨hfault, hfound⟩

/-- Nothing is reported of a commit that is seen. -/
theorem intact_iff (h : p.Seen log) :
    Intact store log p ↔ ¬ p.Dangling store ∧ ¬ Orphaned log p := by
  obtain ⟨-, e, hlogs⟩ := h
  rw [Intact, ← and_assoc, stored_ne_absent_iff, parents_ne_absent_iff hlogs]

/-- Where nothing is reported of a commit that is seen, its lookups are answered exactly when its
ids are read and its lookups succeed. -/
theorem checked_look_iff (h : p.Seen log) (hdangling : ¬ p.Dangling store)
    (horphaned : ¬ Orphaned log p) : (look store log p).Checked ↔ Readable log p := by
  have hfound : (look store log p).entry = .found := entry_eq_found_iff.mpr h
  obtain ⟨hentry, e, hlogs⟩ := h
  have hstored := stored_eq_found_iff hdangling
  have hparents := parents_eq_found_iff hlogs horphaned
  constructor
  · intro hchecked
    obtain ⟨hs, hb, hp⟩ := hchecked.rest hfound
    obtain ⟨hsnapId, hdataHash, hsnapshot, hblock⟩ := hstored.mp ⟨hs, hb⟩
    obtain ⟨actionId, ha, he⟩ := hlogs
    refine ⟨by rw [ha]; rfl, hentry, fun e' hlogs' => ?_⟩
    obtain rfl := Probe.Logs.unique ⟨actionId, ha, he⟩ hlogs'
    exact ⟨hsnapId, hdataHash, hsnapshot, hblock, hparents.mp hp⟩
  · intro hreadable
    obtain ⟨hsnapId, hdataHash, hsnapshot, hblock, hrest⟩ := hreadable.rest e hlogs
    obtain ⟨hs, hb⟩ := hstored.mpr ⟨hsnapId, hdataHash, hsnapshot, hblock⟩
    exact ⟨.inr hfound, fun _ => ⟨hs, hb, hparents.mpr hrest⟩⟩

/-- So for a commit that is not seen. -/
theorem checked_lookEntry_iff (h : ¬ p.Seen log) :
    (lookEntry log p).Checked ↔ Readable log p := by
  have hfound : p.entry log ≠ .found := fun hfound => h (entry_eq_found_iff.mp hfound)
  constructor
  · intro hchecked
    obtain ⟨ha, hentry, hnone⟩ := entry_eq_absent_iff.mp (hchecked.entry.resolve_right hfound)
    exact ⟨ha, hentry, fun e he => absurd he (hnone e)⟩
  · intro hreadable
    have habsent := entry_eq_absent_iff.mpr ⟨hreadable.actionId, hreadable.entry,
      fun e he => h ⟨hreadable.entry, e, he⟩⟩
    exact ⟨.inl habsent, fun hentry => absurd hentry hfound⟩

/-- An agent of which nothing is reported is not refuted, and the other way round. -/
theorem not_refuted_iff : ¬ Refuted store log ps ↔
    (∀ p ∈ ps.dropWhile (·.visible log), ¬ p.visible log) ∧
      ∀ p ∈ ps.takeWhile (·.visible log), Intact store log p := by
  rw [Refuted, not_or, not_not, pairwise_seen_iff]
  refine and_congr_right fun hgaps => ?_
  constructor
  · intro hno p hp
    have hseen := visible_iff.mp (List.mem_takeWhile_imp hp)
    refine (intact_iff hseen).mpr (not_or.mp fun hbad => hno ⟨p, ?_, hseen, hbad⟩)
    exact (List.takeWhile_sublist _).mem hp
  · rintro hall ⟨p, hp, hseen, hbad⟩
    rw [← List.takeWhile_append_dropWhile (p := (·.visible log)) (l := ps)] at hp
    rcases List.mem_append.mp hp with hp | hp
    · exact not_or.mpr ((intact_iff hseen).mp (hall p hp)) hbad
    · exact hgaps p hp (visible_iff.mpr hseen)

/-- Where an agent is not refuted, its lookups are answered exactly when its ids are read and its
lookups succeed. -/
theorem checked_looked_iff (h : ¬ Refuted store log ps) :
    (∀ l ∈ looked store log ps, l.Checked) ↔ ∀ p ∈ ps, Readable log p := by
  obtain ⟨hgaps, hintact⟩ := not_refuted_iff.mp h
  have hprefix : ∀ p ∈ ps.takeWhile (·.visible log),
      ((look store log p).Checked ↔ Readable log p) := by
    intro p hp
    have hseen := visible_iff.mp (List.mem_takeWhile_imp hp)
    obtain ⟨hdangling, horphaned⟩ := (intact_iff hseen).mp (hintact p hp)
    exact checked_look_iff hseen hdangling horphaned
  have hrest : ∀ p ∈ ps.dropWhile (·.visible log),
      ((lookEntry log p).Checked ↔ Readable log p) :=
    fun p hp => checked_lookEntry_iff fun hseen => hgaps p hp (visible_iff.mpr hseen)
  rw [looked, (take_drop_prefixLen log ps).1, (take_drop_prefixLen log ps).2,
    List.forall_mem_append, List.forall_mem_map, List.forall_mem_map, forall₂_congr hprefix,
    forall₂_congr hrest, ← List.forall_mem_append, List.takeWhile_append_dropWhile]

end VerifyP6

/-- A positive verdict of `verify_p6_concurrent` stands for lookups that were made and
answered. -/
def P6FailsClosed (store : ContentStore Digest) (log : CausalLog Digest)
    (faults : ℕ → ℕ → Lookup → Bool) (w : ConcurrentWitness) : Prop :=
  (verifyP6Concurrent store log faults w).p6Ok = true → ∀ x ∈ w.agents.zipIdx,
    ∀ l ∈ VerifyP6.looked store log (probes (faults x.2) x.1.ackedCommits), l.Checked

/-- It does when all ids are read and all lookups succeed, or when an agent is refuted. -/
theorem verifyP6_failsClosed_iff (faults : ℕ → ℕ → Lookup → Bool) (w : ConcurrentWitness) :
    P6FailsClosed store log faults w ↔
      (∀ x ∈ w.agents.zipIdx, ∀ p ∈ probes (faults x.2) x.1.ackedCommits,
        VerifyP6.Readable log p) ∨
      ∃ x ∈ w.agents.zipIdx,
        VerifyP6.Refuted store log (probes (faults x.2) x.1.ackedCommits) := by
  rw [P6FailsClosed, VerifyP6.p6Ok_iff]
  simp only [← VerifyP6.not_refuted_iff]
  by_cases hrefuted : ∃ x ∈ w.agents.zipIdx,
      VerifyP6.Refuted store log (probes (faults x.2) x.1.ackedCommits)
  · refine iff_of_true (fun hok => ?_) (.inr hrefuted)
    obtain ⟨x, hx, hrefuted⟩ := hrefuted
    exact absurd hrefuted (hok x hx)
  · have hok : ∀ x ∈ w.agents.zipIdx,
        ¬ VerifyP6.Refuted store log (probes (faults x.2) x.1.ackedCommits) :=
      fun x hx h => hrefuted ⟨x, hx, h⟩
    rw [or_iff_left hrefuted, forall_prop_of_true hok]
    exact forall₂_congr fun x hx => VerifyP6.checked_looked_iff (hok x hx)

/-- **The crash oracles and lookups that fail.** -/
theorem oracles_failClosed_iff (faults : ℕ → Lookup → Bool) (w : IcsrWitness)
    (faults' : ℕ → ℕ → Lookup → Bool) (w' : ConcurrentWitness) :
    (IcsrFailsClosed store log faults w ↔
        (∀ p ∈ probes faults w.commits, VerifyIcsr.Readable log p) ∨
          ∃ p ∈ probes faults w.commits, p.Seen log ∧ p.Dangling store) ∧
      (P6FailsClosed store log faults' w' ↔
        (∀ x ∈ w'.agents.zipIdx, ∀ p ∈ probes (faults' x.2) x.1.ackedCommits,
          VerifyP6.Readable log p) ∨
        ∃ x ∈ w'.agents.zipIdx,
          VerifyP6.Refuted store log (probes (faults' x.2) x.1.ackedCommits)) :=
  ⟨verifyIcsr_failsClosed_iff store log faults w, verifyP6_failsClosed_iff store log faults' w'⟩

/-- A commit whose ids are all the same. -/
def commitNamed (id : List Char) : IcsrCommit := ⟨0, id, id, id⟩

/-- Neither oracle fails closed: with a commit whose ids do not decode, or with lookups that all
fail. -/
theorem oracles_fail_open :
    (¬ IcsrFailsClosed .empty .empty (fun _ _ => false) ⟨[commitNamed []]⟩ ∧
      ¬ P6FailsClosed .empty .empty (fun _ _ _ => false) ⟨1, [⟨[], [commitNamed []]⟩]⟩) ∧
    ¬ IcsrFailsClosed .empty .empty (fun _ _ => true) ⟨[commitNamed (List.replicate 64 '0')]⟩ ∧
      ¬ P6FailsClosed .empty .empty (fun _ _ _ => true)
        ⟨1, [⟨[], [commitNamed (List.replicate 64 '0')]⟩]⟩ := by
  have hclosed : ∀ {l : VerifyP6.Looked}, l.entry ≠ .absent → l.entry ≠ .found → ¬ l.Checked :=
    fun habsent hfound h => h.entry.elim habsent hfound
  refine ⟨⟨fun h => ?_, fun h => ?_⟩, fun h => ?_, fun h => ?_⟩
  · have hchecked := h rfl _ List.mem_cons_self
    exact hchecked.entry.elim (by decide) (by decide)
  · have hchecked := h rfl _ List.mem_cons_self _ List.mem_cons_self
    exact hclosed (by decide) (by decide) hchecked
  · have hchecked := h (by decide) _ List.mem_cons_self
    exact hchecked.entry.elim (by decide) (by decide)
  · have hchecked := h (by decide) _ List.mem_cons_self _ List.mem_cons_self
    exact hclosed (by decide) (by decide) hchecked

end Torpor
