import Mathlib.Data.Finset.Insert
import Torpor.LogStore

/-!
# The Integrity Audit

`verify_content_addressing` scans the raw entries of the log and compares each key with the hash
of its value; then it looks for the parents of the values that decode among the keys.

## Main results

* `exists_exact`: what the audit reports is exactly what is wrong with the log.
* `integrity_exact`: the audit of every log, of a log that was appended to, and of such a log
  with one value replaced.
-/

namespace Torpor

open ByteOrder

/-- `HashMismatch`. -/
structure HashMismatch where
  storedKey : Digest
  recomputed : Digest
  deriving DecidableEq

/-- `DanglingParent`. -/
structure DanglingParent where
  childKey : Digest
  missingParent : Digest
  deriving DecidableEq

/-- `ContentIntegrityReport`. -/
structure ContentIntegrityReport where
  entriesChecked : ℕ
  hashMismatches : List HashMismatch
  danglingParents : List DanglingParent
  deriving DecidableEq

/-- `is_clean`. -/
def ContentIntegrityReport.isClean (r : ContentIntegrityReport) : Bool :=
  r.hashMismatches.isEmpty && r.danglingParents.isEmpty

/-- An item of the iterator that is an error. -/
inductive IterError
  | rocks
  deriving DecidableEq

namespace Integrity

/-- What the first pass has collected. -/
structure Scan where
  entriesChecked : ℕ
  hashMismatches : List HashMismatch
  keys : Finset Digest
  childParents : List (Digest × List Digest)

/-- Before the first pass. -/
def Scan.start : Scan := ⟨0, [], ∅, []⟩

variable (codec : LogCodec)

/-- One round of the first pass. A key that is not of 32 bytes is passed over. -/
def visit (s : Scan) (rawKey rawValue : Bytes) : Scan :=
  if h : rawKey.length = 32 then
    let key : Digest := ⟨rawKey, h⟩
    let recomputed := codec.sha256 rawValue
    { entriesChecked := s.entriesChecked + 1
      hashMismatches :=
        if recomputed ≠ key then s.hashMismatches ++ [⟨key, recomputed⟩] else s.hashMismatches
      keys := insert key s.keys
      childParents :=
        match codec.deserialize rawValue with
        | none => s.childParents
        | some entry =>
            if entry.parentIds ≠ [] then s.childParents ++ [(key, entry.parentIds)]
            else s.childParents }
  else s

/-- The first pass; `fault i` makes the item at the place `i` an error. -/
def scan (fault : ℕ → Bool) : ℕ → Scan → List (Bytes × Bytes) → Except IterError Scan
  | _, s, [] => .ok s
  | i, s, (rawKey, rawValue) :: rest =>
      if fault i then .error .rocks else scan fault (i + 1) (visit codec s rawKey rawValue) rest

/-- The second pass. -/
def dangling (keys : Finset Digest) (childParents : List (Digest × List Digest)) :
    List DanglingParent :=
  childParents.flatMap fun (child, parents) =>
    (parents.filter (· ∉ keys)).map fun parent => ⟨child, parent⟩

end Integrity

open Integrity in
/-- `verify_content_addressing`. -/
def verifyContentAddressing (codec : LogCodec) (fault : ℕ → Bool) (db : LogStore) :
    Except IterError ContentIntegrityReport :=
  (scan codec fault 0 .start db.default.entries).map fun s =>
    { entriesChecked := s.entriesChecked
      hashMismatches := s.hashMismatches
      danglingParents := dangling s.keys s.childParents }

/-! ### What the audit reports -/

namespace Integrity

variable {codec : LogCodec}

/-- What the first pass reports of an entry. -/
def mismatch (codec : LogCodec) (key : Digest) (value : Bytes) : Option HashMismatch :=
  if codec.sha256 value ≠ key then some ⟨key, codec.sha256 value⟩ else none

/-- What the first pass keeps of an entry for the second. -/
def childParents (codec : LogCodec) (key : Digest) (value : Bytes) :
    Option (Digest × List Digest) :=
  (codec.deserialize value).bind fun e =>
    if e.parentIds ≠ [] then some (key, e.parentIds) else none

theorem visit_eq (s : Scan) (key : Digest) (value : Bytes) :
    visit codec s key.val value =
      { entriesChecked := s.entriesChecked + 1
        hashMismatches := s.hashMismatches ++ (mismatch codec key value).toList
        keys := insert key s.keys
        childParents := s.childParents ++ (childParents codec key value).toList } := by
  have hmismatch : (if codec.sha256 value ≠ key then
      s.hashMismatches ++ [⟨key, codec.sha256 value⟩] else s.hashMismatches) =
        s.hashMismatches ++ (mismatch codec key value).toList := by
    rw [mismatch]
    split_ifs
    · rfl
    · exact (List.append_nil _).symm
  have hparents : (match codec.deserialize value with
      | none => s.childParents
      | some entry => if entry.parentIds ≠ [] then s.childParents ++ [(key, entry.parentIds)]
          else s.childParents) = s.childParents ++ (childParents codec key value).toList := by
    rw [childParents]
    rcases codec.deserialize value with _ | e
    · exact (List.append_nil _).symm
    · simp only [Option.bind_some]
      split_ifs
      · rfl
      · exact (List.append_nil _).symm
  rw [visit, dif_pos key.property]
  exact congrArg₂ (fun ms cs => (⟨s.entriesChecked + 1, ms, insert key s.keys, cs⟩ : Scan))
    hmismatch hparents

theorem mismatch_eq_some_iff {key : Digest} {value : Bytes} {m : HashMismatch} :
    mismatch codec key value = some m ↔
      key = m.storedKey ∧ m.recomputed = codec.sha256 value ∧ m.recomputed ≠ m.storedKey := by
  obtain ⟨storedKey, recomputed⟩ := m
  rw [mismatch]
  split_ifs with hne
  · rw [Option.some.injEq, HashMismatch.mk.injEq, eq_comm (a := codec.sha256 value)]
    constructor
    · rintro ⟨rfl, rfl⟩
      exact ⟨rfl, rfl, hne⟩
    · rintro ⟨rfl, rfl, -⟩
      exact ⟨rfl, rfl⟩
  · refine iff_of_false nofun ?_
    rintro ⟨rfl, rfl, h⟩
    exact hne h

theorem childParents_eq_some_iff {key child : Digest} {value : Bytes} {parents : List Digest} :
    childParents codec key value = some (child, parents) ↔ key = child ∧ parents ≠ [] ∧
      ∃ e, codec.deserialize value = some e ∧ e.parentIds = parents := by
  rw [childParents]
  rcases codec.deserialize value with _ | e
  · simp
  · simp only [Option.bind_some, Option.some.injEq, exists_eq_left']
    split_ifs with hne
    · rw [Option.some.injEq, Prod.mk.injEq]
      constructor
      · rintro ⟨rfl, rfl⟩
        exact ⟨rfl, hne, rfl⟩
      · rintro ⟨rfl, -, rfl⟩
        exact ⟨rfl, rfl⟩
    · refine iff_of_false nofun ?_
      rintro ⟨-, h, rfl⟩
      exact hne h

/-- What the first pass has collected of these entries. -/
structure Collected (codec : LogCodec) (es : List (Bytes × Bytes)) (s : Scan) : Prop where
  checked : s.entriesChecked = es.length
  mismatch_iff : ∀ m, m ∈ s.hashMismatches ↔ ∃ value, (m.storedKey.val, value) ∈ es ∧
    m.recomputed = codec.sha256 value ∧ m.recomputed ≠ m.storedKey
  mismatch_sublist : (s.hashMismatches.map (·.storedKey.val)).Sublist (es.map Prod.fst)
  mem_keys : ∀ key, key ∈ s.keys ↔ key.val ∈ es.map Prod.fst
  parents_iff : ∀ child parents, (child, parents) ∈ s.childParents ↔ parents ≠ [] ∧
    ∃ value e, (child.val, value) ∈ es ∧ codec.deserialize value = some e ∧ e.parentIds = parents

theorem collected_start : Collected codec [] .start where
  checked := rfl
  mismatch_iff m := by simp [Scan.start]
  mismatch_sublist := .slnil
  mem_keys key := by simp [Scan.start]
  parents_iff key parents := by simp [Scan.start]

/-- **One round.** -/
theorem Collected.visit {es : List (Bytes × Bytes)} {s : Scan} (h : Collected codec es s)
    (key : Digest) (value : Bytes) :
    Collected codec (es ++ [(key.val, value)]) (visit codec s key.val value) := by
  rw [visit_eq]
  constructor
  case checked => rw [List.length_append, List.length_singleton, ← h.checked]
  case mismatch_iff =>
    intro m
    rw [List.mem_append, h.mismatch_iff, Option.mem_toList, mismatch_eq_some_iff]
    simp only [List.mem_append, List.mem_singleton, Prod.mk.injEq, ← Subtype.ext_iff]
    constructor
    · rintro (⟨v, hv, hm⟩ | ⟨hkey, hm⟩)
      · exact ⟨v, .inl hv, hm⟩
      · exact ⟨value, .inr ⟨hkey.symm, rfl⟩, hm⟩
    · rintro ⟨v, hv | ⟨hkey, rfl⟩, hm⟩
      · exact .inl ⟨v, hv, hm⟩
      · exact .inr ⟨hkey.symm, hm⟩
  case mismatch_sublist =>
    rw [List.map_append, List.map_append]
    refine h.mismatch_sublist.append ?_
    rw [mismatch]
    split_ifs
    · exact .refl _
    · exact List.nil_sublist _
  case mem_keys =>
    intro k
    rw [Finset.mem_insert, h.mem_keys, List.map_append, List.mem_append, List.map_singleton,
      List.mem_singleton, or_comm, Subtype.ext_iff]
  case parents_iff =>
    intro child parents
    rw [List.mem_append, h.parents_iff, Option.mem_toList, childParents_eq_some_iff]
    simp only [List.mem_append, List.mem_singleton, Prod.mk.injEq, ← Subtype.ext_iff]
    constructor
    · rintro (⟨hne, v, e, hv, he⟩ | ⟨hkey, hne, e, he⟩)
      · exact ⟨hne, v, e, .inl hv, he⟩
      · exact ⟨hne, value, e, .inr ⟨hkey.symm, rfl⟩, he⟩
    · rintro ⟨hne, v, e, hv | ⟨hkey, rfl⟩, he⟩
      · exact .inl ⟨hne, v, e, hv, he⟩
      · exact .inr ⟨hkey.symm, hne, e, he⟩

/-- **The first pass**, over keys of 32 bytes. -/
theorem collected_foldl {es : List (Bytes × Bytes)} (hkeys : ∀ x ∈ es, x.1.length = 32) :
    Collected codec es (es.foldl (fun s x => visit codec s x.1 x.2) .start) := by
  induction es using List.reverseRecOn with
  | nil => exact collected_start
  | append_singleton es x ih =>
      obtain ⟨rawKey, value⟩ := x
      have hkey : rawKey.length = 32 := hkeys (rawKey, value) (by simp)
      rw [List.foldl_append, List.foldl_cons, List.foldl_nil]
      exact (ih fun x hx => hkeys x (List.mem_append_left _ hx)).visit ⟨rawKey, hkey⟩ value

/-- Without an error the scan visits every entry. -/
theorem scan_eq_ok {fault : ℕ → Bool} (hfault : ∀ i, fault i = false) (i : ℕ) (s : Scan)
    (es : List (Bytes × Bytes)) :
    scan codec fault i s es = .ok (es.foldl (fun s x => visit codec s x.1 x.2) s) := by
  induction es generalizing i s with
  | nil => rfl
  | cons x es ih => rw [scan, hfault, if_neg Bool.false_ne_true, ih, List.foldl_cons]

/-- At an error the scan ends. -/
theorem scan_eq_error {fault : ℕ → Bool} {i n : ℕ} {s : Scan} {es : List (Bytes × Bytes)}
    (hlt : n < es.length) (hfault : fault (i + n) = true) :
    scan codec fault i s es = .error .rocks := by
  induction es generalizing i n s with
  | nil => cases hlt
  | cons x es ih =>
      rw [scan]
      split_ifs with hi
      · rfl
      · cases n with
        | zero => exact absurd hfault hi
        | succ n =>
            exact ih (Nat.lt_of_succ_lt_succ hlt) (by rwa [Nat.add_assoc, Nat.add_comm 1])

/-- An error of the iterator is not swallowed. -/
theorem verifyContentAddressing_eq_error {fault : ℕ → Bool} {db : LogStore} {n : ℕ}
    (hlt : n < db.default.entries.length) (hfault : fault n = true) :
    verifyContentAddressing codec fault db = .error .rocks := by
  rw [verifyContentAddressing, scan_eq_error hlt (by rwa [Nat.zero_add])]
  rfl

/-- A report says exactly what is wrong with the log. -/
structure Exact (codec : LogCodec) (db : LogStore) (report : ContentIntegrityReport) :
    Prop where
  checked : report.entriesChecked = db.default.entries.length
  mismatch_iff : ∀ m, m ∈ report.hashMismatches ↔ ∃ value,
    db.default.get m.storedKey.val = some value ∧ m.recomputed = codec.sha256 value ∧
      m.recomputed ≠ m.storedKey
  mismatch_once : (report.hashMismatches.map HashMismatch.storedKey).Nodup
  dangling_iff : ∀ child parent, ⟨child, parent⟩ ∈ report.danglingParents ↔ ∃ value e,
    db.default.get child.val = some value ∧ codec.deserialize value = some e ∧
      parent ∈ e.parentIds ∧ db.default.get parent.val = none

theorem mem_dangling {keys : Finset Digest} {cs : List (Digest × List Digest)}
    {child parent : Digest} : ⟨child, parent⟩ ∈ dangling keys cs ↔
      ∃ parents, (child, parents) ∈ cs ∧ parent ∈ parents ∧ parent ∉ keys := by
  simp only [dangling, List.mem_flatMap, List.mem_map, List.mem_filter, decide_eq_true_eq]
  constructor
  · rintro ⟨⟨c, ps⟩, hmem, p, ⟨hp, hnot⟩, heq⟩
    obtain ⟨rfl, rfl⟩ := DanglingParent.mk.inj heq
    exact ⟨ps, hmem, hp, hnot⟩
  · rintro ⟨ps, hmem, hp, hnot⟩
    exact ⟨(child, ps), hmem, parent, ⟨hp, hnot⟩, rfl⟩

/-- **The audit** of a log with keys of 32 bytes. -/
theorem exists_exact {fault : ℕ → Bool} (hfault : ∀ i, fault i = false) {db : LogStore}
    (hkeys : ∀ key ∈ db.default.keys, key.length = 32) :
    ∃ report, verifyContentAddressing codec fault db = .ok report ∧ Exact codec db report := by
  have h : Collected codec db.default.entries _ := collected_foldl fun x hx =>
    hkeys x.1 (List.mem_map_of_mem hx)
  refine ⟨_, by rw [verifyContentAddressing, scan_eq_ok hfault]; rfl, ?_⟩
  constructor
  case checked => exact h.checked
  case mismatch_iff =>
    intro m
    rw [h.mismatch_iff]
    simp only [SortedMap.mem_entries]
  case mismatch_once =>
    have hnodup := h.mismatch_sublist.nodup (db.default.sorted.imp fun hlt => hlt.ne)
    exact (List.nodup_map_iff Subtype.val_injective).mp (by rwa [List.map_map])
  case dangling_iff =>
    intro child parent
    have hkey : parent ∉ (db.default.entries.foldl (fun s x => visit codec s x.1 x.2) .start).keys ↔
        db.default.get parent.val = none := by
      rw [h.mem_keys, ← Option.not_isSome_iff_eq_none, ← SortedMap.mem_keys]
      rfl
    rw [mem_dangling]
    simp only [h.parents_iff, SortedMap.mem_entries, hkey]
    constructor
    · rintro ⟨_, ⟨-, value, e, hget, hdecode, rfl⟩, hparent, hnone⟩
      exact ⟨value, e, hget, hdecode, hparent, hnone⟩
    · rintro ⟨value, e, hget, hdecode, hparent, hnone⟩
      exact ⟨e.parentIds, ⟨List.ne_nil_of_mem hparent, value, e, hget, hdecode, rfl⟩, hparent,
        hnone⟩

end Integrity

/-! ### The history of the log -/

namespace LogStore

variable {codec : LogCodec} {ops : List Op}

/-- Every parent of an entry is in the log when the entry is appended. -/
def ParentsPresent (codec : LogCodec) (ops : List Op) : Prop :=
  ∀ before op after, ops = before ++ op :: after →
    ∀ parent ∈ op.entry.parentIds, ((ofOps codec before).default.get parent.val).isSome

/-- The value of one key is replaced. -/
def tamper (db : LogStore) (key : Digest) (value : Bytes) : LogStore :=
  { db with default := db.default.put key.val value }

theorem ofOps_concat (codec : LogCodec) (ops : List Op) (op : Op) :
    (ofOps codec (ops ++ [op])).default =
      (ofOps codec ops).default.put (codec.actionId op.entry).val (codec.serialize op.entry) := by
  rw [ofOps, List.foldl_append, List.foldl_cons, List.foldl_nil, apply_eq]
  rfl

/-- The log holds serialised entries under their hashes. -/
theorem exists_op_of_get {key value : Bytes}
    (h : (ofOps codec ops).default.get key = some value) :
    ∃ op ∈ ops, key = (codec.actionId op.entry).val ∧ value = codec.serialize op.entry := by
  induction ops using List.reverseRecOn with
  | nil => cases h
  | append_singleton ops op ih =>
      rw [ofOps_concat, SortedMap.get_put] at h
      split_ifs at h with hkey
      · exact ⟨op, by simp, hkey, (Option.some.inj h).symm⟩
      · obtain ⟨op', hop', heq⟩ := ih h
        exact ⟨op', List.mem_append_left _ hop', heq⟩

/-- What is in the log stays there. -/
theorem isSome_get_append {before after : List Op} {key : Bytes}
    (h : ((ofOps codec before).default.get key).isSome) :
    ((ofOps codec (before ++ after)).default.get key).isSome := by
  induction after using List.reverseRecOn with
  | nil => rwa [List.append_nil]
  | append_singleton after op ih =>
      rw [← List.append_assoc, ofOps_concat, SortedMap.get_put]
      split_ifs
      · rfl
      · exact ih

/-- The keys of the log are digests. -/
theorem length_key {key : Bytes} (h : key ∈ (ofOps codec ops).default.keys) : key.length = 32 := by
  obtain ⟨value, hvalue⟩ := Option.isSome_iff_exists.mp (SortedMap.mem_keys.mp h)
  obtain ⟨op, -, rfl, -⟩ := exists_op_of_get hvalue
  exact (codec.actionId op.entry).property

theorem length_key_tamper {db : LogStore} (h : ∀ key ∈ db.default.keys, key.length = 32)
    (key : Digest) (value : Bytes) :
    ∀ k ∈ (db.tamper key value).default.keys, k.length = 32 := by
  intro k hk
  rw [SortedMap.mem_keys, tamper, SortedMap.get_put] at hk
  split_ifs at hk with heq
  · rw [heq]
    exact key.property
  · exact h k (SortedMap.mem_keys.mpr hk)

end LogStore

namespace Integrity

open LogStore

variable {codec : LogCodec} {ops : List Op} {report : ContentIntegrityReport}

/-- Nothing is reported of a log that was appended to with the parents present. -/
theorem Exact.isClean (h : Exact codec (ofOps codec ops) report)
    (hround : ∀ op ∈ ops, codec.deserialize (codec.serialize op.entry) = some op.entry)
    (hparents : ParentsPresent codec ops) : report.isClean = true := by
  have hmismatches : report.hashMismatches = [] := by
    refine List.eq_nil_iff_forall_not_mem.mpr fun m hm => ?_
    obtain ⟨value, hget, hrecomputed, hne⟩ := (h.mismatch_iff m).mp hm
    obtain ⟨op, -, hkey, rfl⟩ := exists_op_of_get hget
    exact hne (hrecomputed.trans (Subtype.ext hkey).symm)
  have hdangling : report.danglingParents = [] := by
    refine List.eq_nil_iff_forall_not_mem.mpr fun d hd => ?_
    obtain ⟨value, e, hget, hdecode, hparent, hnone⟩ := (h.dangling_iff _ _).mp hd
    obtain ⟨op, hop, -, rfl⟩ := exists_op_of_get hget
    obtain rfl : op.entry = e := Option.some.inj ((hround op hop).symm.trans hdecode)
    obtain ⟨before, after, rfl⟩ := List.append_of_mem hop
    have hpresent :
        ((ofOps codec (before ++ op :: after)).default.get d.missingParent.val).isSome :=
      isSome_get_append (hparents before op after rfl _ hparent)
    rw [hnone] at hpresent
    cases hpresent
  rw [ContentIntegrityReport.isClean, hmismatches, hdangling]
  rfl

/-- A value that is replaced is reported, and no other. -/
theorem Exact.tampered {key : Digest} {value bytes : Bytes}
    (hget : (ofOps codec ops).default.get key.val = some value) (hne : bytes ≠ value)
    (hcollision : codec.sha256 bytes = codec.sha256 value → bytes = value)
    (h : Exact codec ((ofOps codec ops).tamper key bytes) report) :
    report.hashMismatches = [⟨key, codec.sha256 bytes⟩] := by
  obtain ⟨op, -, hkey, rfl⟩ := exists_op_of_get hget
  have hhash : codec.sha256 bytes ≠ key := by
    rw [Subtype.ext hkey]
    exact fun heq => hne (hcollision heq)
  have hmem : ∀ m, m ∈ report.hashMismatches ↔ m = ⟨key, codec.sha256 bytes⟩ := by
    intro m
    rw [h.mismatch_iff]
    simp only [tamper, SortedMap.get_put]
    constructor
    · rintro ⟨v, hv, hrecomputed, hne'⟩
      split_ifs at hv with heq
      · obtain rfl := Option.some.inj hv
        exact congrArg₂ HashMismatch.mk (Subtype.ext heq) hrecomputed
      · obtain ⟨op', -, hkey', rfl⟩ := exists_op_of_get hv
        exact absurd (hrecomputed.trans (Subtype.ext hkey').symm) hne'
    · rintro rfl
      exact ⟨bytes, if_pos rfl, rfl, hhash⟩
  have hnodup : report.hashMismatches.Nodup := h.mismatch_once.of_map _
  have hnodup' : [(⟨key, codec.sha256 bytes⟩ : HashMismatch)].Nodup := List.nodup_singleton _
  refine List.perm_singleton.mp ((List.perm_ext_iff_of_nodup hnodup hnodup').mpr ?_)
  simpa only [List.mem_singleton] using hmem

end Integrity

open Integrity LogStore in
/-- **The integrity audit is exact**, where the items of the iterator are no errors: of every log
with keys of 32 bytes it reports exactly what is wrong; nothing of a log that was appended to with
the parents present; and of such a log with one value replaced exactly that key, where the hash
tells the two values apart. -/
theorem integrity_exact (codec : LogCodec) :
    (∀ db : LogStore, (∀ key ∈ db.default.keys, key.length = 32) → ∃ report,
      verifyContentAddressing codec (fun _ => false) db = .ok report ∧ Exact codec db report) ∧
    ∀ ops : List Op, (∀ op ∈ ops, codec.deserialize (codec.serialize op.entry) = some op.entry) →
      ParentsPresent codec ops →
      (∃ report, verifyContentAddressing codec (fun _ => false) (ofOps codec ops) = .ok report ∧
        report.isClean = true) ∧
      ∀ key value bytes, (ofOps codec ops).default.get key.val = some value → bytes ≠ value →
        (codec.sha256 bytes = codec.sha256 value → bytes = value) → ∃ report,
          verifyContentAddressing codec (fun _ => false) ((ofOps codec ops).tamper key bytes) =
              .ok report ∧
            report.hashMismatches = [⟨key, codec.sha256 bytes⟩] := by
  refine ⟨fun db hkeys => exists_exact (fun _ => rfl) hkeys, fun ops hround hparents =>
    ⟨?_, fun key value bytes hget hne hcollision => ?_⟩⟩
  · have hkeys : ∀ key ∈ (ofOps codec ops).default.keys, key.length = 32 :=
      fun _ hkey => length_key hkey
    obtain ⟨report, hreport, hexact⟩ := exists_exact (fun _ => rfl) hkeys
    exact ⟨report, hreport, hexact.isClean hround hparents⟩
  · have hkeys : ∀ k ∈ ((ofOps codec ops).tamper key bytes).default.keys, k.length = 32 :=
      length_key_tamper (fun _ hk => length_key hk) key bytes
    obtain ⟨report, hreport, hexact⟩ := exists_exact (fun _ => rfl) hkeys
    exact ⟨report, hreport, hexact.tampered hget hne hcollision⟩

/-! ### A parent and a child -/

namespace Integrity

open LogStore

/-- A child of the first of the three entries. -/
def child : RawEntry := ⟨2, 1000, [digest₁], zeroDigest, zeroDigest, none⟩

/-- Its SHA-256 digest. -/
def childDigest : Digest := ⟨
  [0x63, 0xdf, 0x8d, 0xef, 0x19, 0x87, 0x30, 0xcb, 0x96, 0x4d, 0xdc, 0x3b,
    0xe1, 0x1c, 0x5e, 0x66, 0xde, 0xda, 0xd1, 0x1c, 0x0f, 0xc4, 0x14, 0xe6,
    0x09, 0xe2, 0x51, 0xd5, 0x77, 0x6d, 0x68, 0xe0], rfl⟩

/-- The SHA-256 digest of no bytes. -/
def emptyDigest : Digest := ⟨
  [0xe3, 0xb0, 0xc4, 0x42, 0x98, 0xfc, 0x1c, 0x14, 0x9a, 0xfb, 0xf4, 0xc8,
    0x99, 0x6f, 0xb9, 0x24, 0x27, 0xae, 0x41, 0xe4, 0x64, 0x9b, 0x93, 0x4c,
    0xa4, 0x95, 0x99, 0x1b, 0x78, 0x52, 0xb8, 0x55], rfl⟩

/-- The serialisation of the log with SHA-256 on the two entries and on no bytes. -/
def childCodec : LogCodec where
  serialize := bincode
  deserialize := bincodeDecode
  sha256 bs :=
    if bs = bincode ⟨1, 2000, [], zeroDigest, zeroDigest, none⟩ then digest₁
    else if bs = bincode child then childDigest
    else if bs = [] then emptyDigest
    else zeroDigest

/-- The two appends. -/
def parentAndChild : List Op :=
  [.append ⟨1, 2000, [], zeroDigest, zeroDigest, none⟩, .appendDurable child]

theorem parentsPresent_parentAndChild : ParentsPresent childCodec parentAndChild := by
  intro before op after h
  match before with
  | [] =>
      obtain ⟨rfl, -⟩ := List.cons.inj h
      exact nofun
  | [first] =>
      obtain ⟨rfl, hrest⟩ := List.cons.inj h
      obtain ⟨rfl, -⟩ := List.cons.inj hrest
      decide +kernel
  | first :: second :: rest => simp [parentAndChild] at h

/-- The value of the child is erased. -/
theorem childErased : ∃ report,
    verifyContentAddressing childCodec (fun _ => false)
        ((ofOps childCodec parentAndChild).tamper childDigest []) = .ok report ∧
      report.hashMismatches = [⟨childDigest, emptyDigest⟩] := by
  have hround : ∀ op ∈ parentAndChild,
      childCodec.deserialize (childCodec.serialize op.entry) = some op.entry := by
    decide +kernel
  have hget : (ofOps childCodec parentAndChild).default.get childDigest.val =
      some (bincode child) := by
    decide +kernel
  exact ((integrity_exact childCodec).2 parentAndChild hround parentsPresent_parentAndChild).2
    childDigest (bincode child) [] hget (by decide +kernel) fun h => absurd h (by decide +kernel)

end Integrity

end Torpor
