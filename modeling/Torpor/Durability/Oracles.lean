import Mathlib.Algebra.GroupWithZero.Nat
import Torpor.ContentStore
import Torpor.Lib.Hex
import Torpor.LogStore

/-!
# The Crash Oracles

After a crash `verify_icsr` and `verify_p6_concurrent` compare the store and the log with the
commits of a witness. An id of a witness is any text. A lookup may return an error, each on its
own, and the oracles print it and go on; what they have printed is not part of the model.

## Main results

* `VerifyP6.p6Ok_iff`: the verdict of the second oracle, commit by commit.
-/

namespace Torpor

open ByteOrder

/-! ### Ids of a witness -/

/-- `u8::from_str_radix(pair, 16)`, which takes a sign before a digit. A pair that is not UTF-8
has a byte that is no digit. -/
def u8FromHex (a b : UInt8) : Option UInt8 :=
  if a = 0x2B then (Hex.value b).map UInt8.ofNat
  else do
    let high ← Hex.value a
    let low ← Hex.value b
    some (UInt8.ofNat (high * 16 + low))

/-- The chunks of two bytes; the last one may be short. -/
def hexChunks : Bytes → Option Bytes
  | [] => some []
  | [a] => (Hex.value a).map fun v => [UInt8.ofNat v]
  | a :: b :: rest => do
      let byte ← u8FromHex a b
      let bytes ← hexChunks rest
      some (byte :: bytes)

/-- `hex_decode_32`. -/
def hexDecode32 (s : List Char) : Option Digest :=
  if (Utf8.encode s).length ≠ 64 then none
  else (hexChunks (Utf8.encode s)).bind fun bs => if h : bs.length = 32 then some ⟨bs, h⟩ else none

/-- `hex_encode`. -/
def hexEncode (bs : Bytes) : List Char := Hex.encode bs

/-! ### Witnesses -/

/-- `IcsrCommit`. -/
structure IcsrCommit where
  seq : UInt64
  actionIdHex : List Char
  snapshotIdHex : List Char
  dataHashHex : List Char
  deriving DecidableEq

/-- `IcsrWitness`. -/
structure IcsrWitness where
  commits : List IcsrCommit

/-- `AgentWitness`. -/
structure AgentWitness where
  agentIdHex : List Char
  ackedCommits : List IcsrCommit

/-- `ConcurrentWitness`. -/
structure ConcurrentWitness where
  nAgents : ℕ
  agents : List AgentWitness

/-! ### Lookups -/

/-- The lookups that an oracle makes for a commit. -/
inductive Lookup
  | entry
  | snapshot
  | block
  | entryAgain
  | parent (k : ℕ)
  deriving DecidableEq

/-- A commit, and which of its lookups return an error. -/
abbrev Probe := IcsrCommit × (Lookup → Bool)

/-- The commits of a list, given the lookups that return an error, by the place of the commit. -/
def probes (faults : ℕ → Lookup → Bool) (commits : List IcsrCommit) : List Probe :=
  commits.zipIdx.map fun (c, i) => (c, faults i)

/-- How a lookup ends, if it is made. -/
inductive Answer
  | unasked
  | failed
  | absent
  | found
  deriving DecidableEq

/-- The answer of a lookup that is made. -/
def Answer.of (fault found : Bool) : Answer :=
  if fault then .failed else if found then .found else .absent

namespace Probe

variable (log : CausalLog Digest) (store : ContentStore Digest) (p : Probe)

/-- `log.get(&action_id)`, where the id decodes. -/
def entry : Answer :=
  match hexDecode32 p.1.actionIdHex with
  | none => .unasked
  | some actionId => .of (p.2 .entry) (log.get actionId).isSome

/-- The commit is visible in the log. -/
def visible : Bool := p.entry log = .found

end Probe

/-! ### `verify_icsr` -/

/-- `IcsrViolationKind`. -/
inductive IcsrViolationKind
  | logEntryMissing
  | snapshotMissing
  | dataBlockMissing
  deriving DecidableEq

/-- `IcsrViolation`. -/
structure IcsrViolation where
  seq : UInt64
  actionIdHex : List Char
  snapshotIdHex : List Char
  kind : IcsrViolationKind
  deriving DecidableEq

/-- `IcsrResult`. -/
structure IcsrResult where
  checked : ℕ
  logMissing : ℕ
  snapshotMissing : ℕ
  dataBlockMissing : ℕ
  violations : List IcsrViolation
  icsrOk : Bool

namespace VerifyIcsr

variable (store : ContentStore Digest) (log : CausalLog Digest)

/-- What is looked up for a commit. -/
structure Looked where
  entry : Answer
  snapshot : Answer
  block : Answer

/-- The lookups for a commit: none where one of its ids does not decode, and none in the store
where its entry is not read. -/
def look (p : Probe) : Looked :=
  match hexDecode32 p.1.actionIdHex with
  | none => ⟨.unasked, .unasked, .unasked⟩
  | some actionId =>
      match hexDecode32 p.1.snapshotIdHex with
      | none => ⟨.unasked, .unasked, .unasked⟩
      | some snapId =>
          match hexDecode32 p.1.dataHashHex with
          | none => ⟨.unasked, .unasked, .unasked⟩
          | some dataHash =>
              let entry := Answer.of (p.2 .entry) (log.get actionId).isSome
              if entry = .found then
                ⟨entry, .of (p.2 .snapshot) (store.hasSnapshot snapId),
                  .of (p.2 .block) (store.getBlock dataHash).isSome⟩
              else ⟨entry, .unasked, .unasked⟩

/-- A violation is reported where a lookup finds nothing. -/
def violation (c : IcsrCommit) (answer : Answer) (kind : IcsrViolationKind) :
    List IcsrViolation :=
  if answer = .absent then [⟨c.seq, c.actionIdHex, c.snapshotIdHex, kind⟩] else []

/-- The violations of a commit. -/
def check (p : Probe) : List IcsrViolation :=
  let looked := look store log p
  violation p.1 looked.entry .logEntryMissing ++
    violation p.1 looked.snapshot .snapshotMissing ++
    violation p.1 looked.block .dataBlockMissing

end VerifyIcsr

/-- `verify_icsr`. Each counter counts the violations of its kind. -/
def verifyIcsr (store : ContentStore Digest) (log : CausalLog Digest)
    (faults : ℕ → Lookup → Bool) (witness : IcsrWitness) : IcsrResult :=
  let violations := (probes faults witness.commits).flatMap (VerifyIcsr.check store log)
  let count := fun kind => violations.countP fun v => v.kind = kind
  { checked := witness.commits.length
    logMissing := count .logEntryMissing
    snapshotMissing := count .snapshotMissing
    dataBlockMissing := count .dataBlockMissing
    violations
    icsrOk := count .snapshotMissing = 0 && count .dataBlockMissing = 0 }

/-! ### `verify_p6_concurrent` -/

/-- `P6ViolationKind`. -/
inductive P6ViolationKind
  | gap (firstMissingSeq laterPresentSeq : UInt64)
  | snapshotMissing
  | dataBlockMissing
  | parentIdMissing (parentHex : List Char)
  deriving DecidableEq

/-- `P6Violation`. -/
structure P6Violation where
  agentIdHex : List Char
  seq : UInt64
  actionIdHex : List Char
  kind : P6ViolationKind
  deriving DecidableEq

/-- `P6ConcurrentResult`. -/
structure P6ConcurrentResult where
  nAgents : ℕ
  totalAcked : ℕ
  totalVisible : ℕ
  totalGaps : ℕ
  totalIcsrViolations : ℕ
  totalParentViolations : ℕ
  p6Ok : Bool
  violations : List P6Violation

namespace VerifyP6

variable (store : ContentStore Digest) (log : CausalLog Digest)

/-- `prefix_len`. -/
def prefixLen (ps : List Probe) : ℕ := ((ps.map (·.visible log)).takeWhile id).length

/-- A violation of an agent at a commit. -/
def violation (agentIdHex : List Char) (p : Probe) (kind : P6ViolationKind) : P6Violation :=
  ⟨agentIdHex, p.1.seq, p.1.actionIdHex, kind⟩

/-- Step 3: what is visible after the first commit that is not. -/
def gaps (agentIdHex : List Char) (ps : List Probe) : List P6Violation :=
  match ps[prefixLen log ps]? with
  | none => []
  | some missing =>
      ((ps.drop (prefixLen log ps + 1)).filter (·.visible log)).map fun p =>
        violation agentIdHex p (.gap missing.1.seq p.1.seq)

/-- The lookups of step 4 for a commit, of its snapshot and of its data: none where one of the
two ids does not decode. -/
def stored (p : Probe) : Answer × Answer :=
  match hexDecode32 p.1.snapshotIdHex with
  | none => (.unasked, .unasked)
  | some snapId =>
      match hexDecode32 p.1.dataHashHex with
      | none => (.unasked, .unasked)
      | some dataHash =>
          (.of (p.2 .snapshot) (store.hasSnapshot snapId),
            .of (p.2 .block) (store.getBlock dataHash).isSome)

/-- Step 4 for a commit. -/
def icsr (agentIdHex : List Char) (p : Probe) : List P6Violation :=
  (if (stored store p).1 = .absent then [violation agentIdHex p .snapshotMissing] else []) ++
    if (stored store p).2 = .absent then [violation agentIdHex p .dataBlockMissing] else []

/-- The lookups of step 5 for a commit: none where its entry is not read again. -/
def parents (p : Probe) : Option (List (Digest × Answer)) :=
  match hexDecode32 p.1.actionIdHex with
  | none => none
  | some actionId =>
      if p.2 .entryAgain then none
      else (log.get actionId).map fun e =>
        e.parentIds.zipIdx.map fun (parent, k) =>
          (parent, .of (p.2 (.parent k)) (log.get parent).isSome)

/-- Step 5 for a commit. -/
def orphans (agentIdHex : List Char) (p : Probe) : List P6Violation :=
  (((parents log p).getD []).filter (·.2 = .absent)).map fun (parent, _) =>
    violation agentIdHex p (.parentIdMissing (hexEncode parent.val))

/-- What is reported for an agent, step by step. -/
structure Report where
  visible : ℕ
  gaps : List P6Violation
  icsr : List P6Violation
  orphans : List P6Violation

/-- The round of an agent. -/
def round (agentIdHex : List Char) (ps : List Probe) : Report where
  visible := prefixLen log ps
  gaps := gaps log agentIdHex ps
  icsr := (ps.take (prefixLen log ps)).flatMap (icsr store agentIdHex)
  orphans := (ps.take (prefixLen log ps)).flatMap (orphans log agentIdHex)

end VerifyP6

/-- `verify_p6_concurrent`. Each counter counts what its step has reported. -/
def verifyP6Concurrent (store : ContentStore Digest) (log : CausalLog Digest)
    (faults : ℕ → ℕ → Lookup → Bool) (witness : ConcurrentWitness) : P6ConcurrentResult :=
  let reports := witness.agents.zipIdx.map fun x =>
    VerifyP6.round store log x.1.agentIdHex (probes (faults x.2) x.1.ackedCommits)
  let totalGaps := (reports.map (·.gaps.length)).sum
  let totalIcsr := (reports.map (·.icsr.length)).sum
  let totalParent := (reports.map (·.orphans.length)).sum
  { nAgents := witness.nAgents
    totalAcked := (witness.agents.map (·.ackedCommits.length)).sum
    totalVisible := (reports.map (·.visible)).sum
    totalGaps
    totalIcsrViolations := totalIcsr
    totalParentViolations := totalParent
    p6Ok := totalGaps = 0 && totalIcsr = 0 && totalParent = 0
    violations := reports.flatMap fun r => r.gaps ++ r.icsr ++ r.orphans }

/-! ### What the ids stand for -/

theorem u8FromHex_digits (b : UInt8) :
    u8FromHex (Hex.digitByte (b.toNat / 16)) (Hex.digitByte (b.toNat % 16)) = some b := by
  have hb : b.toNat < 256 := b.toNat_lt
  have hsign : ∀ n < 16, Hex.digitByte n ≠ 0x2B := by decide
  rw [u8FromHex, if_neg (hsign _ (by omega)), Hex.value_digit (by omega),
    Hex.value_digit (by omega)]
  change some (UInt8.ofNat (b.toNat / 16 * 16 + b.toNat % 16)) = some b
  rw [Nat.div_add_mod', UInt8.ofNat_toNat]

theorem hexChunks_hexEncode (bs : Bytes) : hexChunks (Utf8.encode (hexEncode bs)) = some bs := by
  induction bs with
  | nil => rfl
  | cons b bs ih =>
      rw [hexEncode] at ih ⊢
      rw [Hex.utf8_encode_cons, hexChunks, u8FromHex_digits, ih]
      rfl

/-- An id that was encoded decodes. -/
theorem hexDecode32_hexEncode (d : Digest) : hexDecode32 (hexEncode d.val) = some d := by
  have hlength : (Utf8.encode (hexEncode d.val)).length = 64 := by
    rw [hexEncode, Hex.length_utf8_encode, d.property]
  rw [hexDecode32, if_neg (not_not.mpr hlength), hexChunks_hexEncode, Option.bind_some,
    dif_pos d.property]

/-! ### The verdicts -/

namespace Answer

variable {fault found : Bool}

@[simp] theorem of_eq_found_iff : of fault found = .found ↔ fault = false ∧ found = true := by
  cases fault <;> cases found <;> decide

@[simp] theorem of_eq_absent_iff : of fault found = .absent ↔ fault = false ∧ found = false := by
  cases fault <;> cases found <;> decide

theorem of_false_ne_absent_iff : of false found ≠ .absent ↔ found = true := by
  cases found <;> decide

end Answer

namespace VerifyIcsr

variable {store : ContentStore Digest} {log : CausalLog Digest}

theorem mem_violation {c : IcsrCommit} {answer : Answer} {kind : IcsrViolationKind}
    {v : IcsrViolation} : v ∈ violation c answer kind ↔
      answer = .absent ∧ v = ⟨c.seq, c.actionIdHex, c.snapshotIdHex, kind⟩ := by
  rw [violation]
  split_ifs with h
  · rw [List.mem_singleton, and_iff_right h]
  · exact iff_of_false List.not_mem_nil fun hv => h hv.1

/-- A snapshot or a block is reported for a commit exactly when it is looked up and not found. -/
theorem forall_mem_check_iff {p : Probe} :
    (∀ v ∈ check store log p, v.kind ≠ .snapshotMissing ∧ v.kind ≠ .dataBlockMissing) ↔
      (look store log p).snapshot ≠ .absent ∧ (look store log p).block ≠ .absent := by
  simp only [check, List.mem_append, mem_violation]
  constructor
  · intro h
    exact ⟨fun hs => (h _ (.inl (.inr ⟨hs, rfl⟩))).1 rfl,
      fun hb => (h _ (.inr ⟨hb, rfl⟩)).2 rfl⟩
  · rintro ⟨hs, hb⟩ v ((⟨-, rfl⟩ | ⟨habsent, -⟩) | ⟨habsent, -⟩)
    · exact ⟨nofun, nofun⟩
    · exact absurd habsent hs
    · exact absurd habsent hb

end VerifyIcsr

/-- The verdict of the first oracle: no snapshot and no block has been looked up and not found. -/
theorem verifyIcsr_icsrOk_iff (store : ContentStore Digest) (log : CausalLog Digest)
    (faults : ℕ → Lookup → Bool) (w : IcsrWitness) :
    (verifyIcsr store log faults w).icsrOk = true ↔ ∀ p ∈ probes faults w.commits,
      (VerifyIcsr.look store log p).snapshot ≠ .absent ∧
        (VerifyIcsr.look store log p).block ≠ .absent := by
  simp only [verifyIcsr, Bool.and_eq_true, decide_eq_true_eq, List.countP_eq_zero,
    List.mem_flatMap, ← VerifyIcsr.forall_mem_check_iff]
  constructor
  · rintro ⟨hs, hb⟩ p hp v hv
    exact ⟨hs v ⟨p, hp, hv⟩, hb v ⟨p, hp, hv⟩⟩
  · intro h
    exact ⟨fun v ⟨p, hp, hv⟩ => (h p hp v hv).1, fun v ⟨p, hp, hv⟩ => (h p hp v hv).2⟩

namespace VerifyP6

variable {store : ContentStore Digest} {log : CausalLog Digest} {ps : List Probe}

theorem prefixLen_eq (log : CausalLog Digest) (ps : List Probe) :
    prefixLen log ps = (ps.takeWhile (·.visible log)).length := by
  rw [prefixLen, List.takeWhile_map, List.length_map]
  rfl

/-- The prefix and the rest are what one scan splits the commits into. -/
theorem take_drop_prefixLen (log : CausalLog Digest) (ps : List Probe) :
    ps.take (prefixLen log ps) = ps.takeWhile (·.visible log) ∧
      ps.drop (prefixLen log ps) = ps.dropWhile (·.visible log) := by
  have hsplit := List.takeWhile_append_dropWhile (p := (·.visible log)) (l := ps)
  rw [prefixLen_eq]
  exact ⟨(congrArg (List.take _) hsplit.symm).trans (List.take_left' rfl),
    (congrArg (List.drop _) hsplit.symm).trans (List.drop_left' rfl)⟩

/-- The gaps are what is visible after the first commit that is not. -/
theorem length_gaps (agentIdHex : List Char) :
    (gaps log agentIdHex ps).length = (ps.dropWhile (·.visible log)).countP (·.visible log) := by
  have hdrop := (take_drop_prefixLen log ps).2
  rw [gaps, ← hdrop]
  rcases hmissing : ps[prefixLen log ps]? with _ | missing
  · rw [List.drop_of_length_le (List.getElem?_eq_none_iff.mp hmissing)]
    rfl
  · obtain ⟨hlt, hget⟩ := List.getElem?_eq_some_iff.mp hmissing
    have hcons : ps.drop (prefixLen log ps) = missing :: ps.drop (prefixLen log ps + 1) := by
      rw [List.drop_eq_getElem_cons hlt, hget]
    have hnot : missing.visible log = false := by
      have hhead := List.head?_dropWhile_not (·.visible log) ps
      rw [← hdrop, hcons] at hhead
      simpa using hhead
    rw [hcons, List.countP_cons_of_neg (by simp [hnot]), List.length_map,
      List.countP_eq_length_filter]

/-- What is looked up for a commit in steps 4 and 5 is found. -/
def Intact (store : ContentStore Digest) (log : CausalLog Digest) (p : Probe) : Prop :=
  (stored store p).1 ≠ .absent ∧ (stored store p).2 ≠ .absent ∧
    ∀ x ∈ (parents log p).getD [], x.2 ≠ .absent

theorem icsr_eq_nil_iff {agentIdHex : List Char} {p : Probe} : icsr store agentIdHex p = [] ↔
    (stored store p).1 ≠ .absent ∧ (stored store p).2 ≠ .absent := by
  rw [icsr, List.append_eq_nil_iff]
  split_ifs <;> simp_all

theorem orphans_eq_nil_iff {agentIdHex : List Char} {p : Probe} :
    orphans log agentIdHex p = [] ↔ ∀ x ∈ (parents log p).getD [], x.2 ≠ .absent := by
  simp only [orphans, List.map_eq_nil_iff, List.filter_eq_nil_iff, decide_eq_true_eq, ne_eq]

/-- An agent is reported nothing of. -/
theorem round_clean_iff (agentIdHex : List Char) :
    ((round store log agentIdHex ps).gaps = [] ∧ (round store log agentIdHex ps).icsr = [] ∧
        (round store log agentIdHex ps).orphans = []) ↔
      (∀ p ∈ ps.dropWhile (·.visible log), ¬ p.visible log) ∧
        ∀ p ∈ ps.takeWhile (·.visible log), Intact store log p := by
  have hgaps : gaps log agentIdHex ps = [] ↔
      ∀ p ∈ ps.dropWhile (·.visible log), ¬ p.visible log := by
    rw [← List.length_eq_zero_iff, length_gaps, List.countP_eq_zero]
  simp only [round, hgaps, (take_drop_prefixLen log ps).1, List.flatMap_eq_nil_iff,
    icsr_eq_nil_iff, orphans_eq_nil_iff, Intact]
  refine and_congr_right fun _ => ⟨fun h p hp => ?_, fun h => ⟨fun p hp => ?_, fun p hp => ?_⟩⟩
  · exact ⟨(h.1 p hp).1, (h.1 p hp).2, h.2 p hp⟩
  · exact ⟨(h p hp).1, (h p hp).2.1⟩
  · exact (h p hp).2.2

/-- **The verdict of the second oracle**: for every agent nothing is visible after the first
commit that is not, and what is looked up for the commits before it is found. -/
theorem p6Ok_iff (store : ContentStore Digest) (log : CausalLog Digest)
    (faults : ℕ → ℕ → Lookup → Bool) (w : ConcurrentWitness) :
    (verifyP6Concurrent store log faults w).p6Ok = true ↔ ∀ x ∈ w.agents.zipIdx,
      (∀ p ∈ (probes (faults x.2) x.1.ackedCommits).dropWhile (·.visible log),
          ¬ p.visible log) ∧
        ∀ p ∈ (probes (faults x.2) x.1.ackedCommits).takeWhile (·.visible log),
          Intact store log p := by
  simp only [verifyP6Concurrent, Bool.and_eq_true, decide_eq_true_eq,
    List.sum_eq_zero_iff_forall_eq_nat, List.forall_mem_map, List.length_eq_zero_iff]
  constructor
  · rintro ⟨⟨hgaps, hicsr⟩, horphans⟩ x hx
    exact (round_clean_iff x.1.agentIdHex).mp ⟨hgaps x hx, hicsr x hx, horphans x hx⟩
  · intro h
    have hclean := fun x hx => (round_clean_iff x.1.agentIdHex).mpr (h x hx)
    exact ⟨⟨fun x hx => (hclean x hx).1, fun x hx => (hclean x hx).2.1⟩,
      fun x hx => (hclean x hx).2.2⟩

end VerifyP6

end Torpor
