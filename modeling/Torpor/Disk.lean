import Torpor.CausalLog
import Torpor.ContentStore

/-!
# The Journal of Elementary Writes

The content store and the causal log as the result of a journal of elementary writes: a block,
a header, an entry. Each write is atomic and the journal keeps the order in which they were
issued, so that what a crash leaves on disk is what a prefix of the journal makes.

An entry of the journal also tells which code wrote it (`Writer`), which the log itself does
not: the type of an emission is chosen by the guest, so that an entry of a given type in the
log need not come from the code of the runtime that writes entries of this type.

## Main results

* `Disk.replay_append`: replaying a longer journal applies the further writes.
* `Disk.replay_wellKeyed`: headers and blocks are stored under their own digests.
* `Disk.replay_getHeader_mono`, `Disk.replay_getBlock_mono`: what is stored stays.
* `Disk.contents_replay_eq`: what can be read does not depend on the order of the writes.
-/

namespace Torpor

open ContentHash

variable {D : Type}

/-- Who wrote an entry: `emit` on behalf of a guest, the runtime of an agent on its own
account, or the scheduler. -/
inductive Writer
  | guest
  | runtime
  | scheduler
  deriving DecidableEq, Repr

/-- An elementary write. -/
inductive Write (D : Type)
  | putBlock (data : List UInt8)
  | putSnapshot (header : SnapshotHeader D)
  | append (writer : Writer) (entry : LogEntry D)
  deriving DecidableEq, Repr

/-- The two databases. -/
structure Disk (D : Type) where
  store : ContentStore D
  log : CausalLog D

/-- Two newly created databases. -/
def Disk.empty : Disk D := ⟨.empty, .empty⟩

/-- The entry that a write appends, with its writer. -/
def Write.entry? : Write D → Option (Writer × LogEntry D)
  | .append writer entry => some (writer, entry)
  | _ => none

variable [LinearOrder D] [ContentHash D]

/-- Apply a write. -/
def Disk.apply (d : Disk D) : Write D → Disk D
  | .putBlock data => { d with store := d.store.putBlock data }
  | .putSnapshot header => { d with store := d.store.putSnapshot header }
  | .append _ entry => { d with log := d.log.append entry }

/-- What a journal leaves on disk. -/
def Disk.replay (ws : List (Write D)) : Disk D := ws.foldl Disk.apply .empty

@[simp] theorem Disk.replay_nil : (Disk.replay [] : Disk D) = .empty := rfl

@[simp] theorem Disk.replay_concat (ws : List (Write D)) (w : Write D) :
    Disk.replay (ws ++ [w]) = (Disk.replay ws).apply w := by
  simp [replay]

/-- Every header and every block is stored under its own digest. -/
structure ContentStore.WellKeyed (s : ContentStore D) : Prop where
  header : ∀ id h, s.getHeader id = some h → id = snapshotId h
  block : ∀ id b, s.getBlock id = some b → id = dataHash b

theorem Disk.wellKeyed_apply {d : Disk D} (h : d.store.WellKeyed) (w : Write D) :
    (d.apply w).store.WellKeyed := by
  cases w with
  | putBlock data =>
      refine ⟨h.header, fun id b hb => ?_⟩
      simp only [apply, ContentStore.getBlock_putBlock] at hb
      split_ifs at hb with hid
      · rw [hid, Option.some.inj hb]
      · exact h.block id b hb
  | putSnapshot header =>
      refine ⟨fun id hd hh => ?_, h.block⟩
      simp only [apply, ContentStore.getHeader_putSnapshot] at hh
      split_ifs at hh with hid
      · rw [hid, Option.some.inj hh]
      · exact h.header id hd hh
  | append writer entry => exact h

theorem Disk.replay_wellKeyed (ws : List (Write D)) : (Disk.replay ws).store.WellKeyed := by
  induction ws using List.reverseRecOn with
  | nil => exact ⟨(fun id h hh => nomatch hh), (fun id b hb => nomatch hb)⟩
  | append_singleton ws w ih =>
      rw [replay_concat]
      exact wellKeyed_apply ih w

/-- A write does not remove or change a header. -/
theorem Disk.getHeader_apply {d : Disk D} (hw : d.store.WellKeyed) (w : Write D) {id : D}
    {h : SnapshotHeader D} (hid : d.store.getHeader id = some h) :
    (d.apply w).store.getHeader id = some h := by
  cases w with
  | putBlock data => exact hid
  | putSnapshot header =>
      simp only [apply, ContentStore.getHeader_putSnapshot]
      split_ifs with heq
      · have hself := hw.header id h hid
        rw [snapshotId_injective (hself.symm.trans heq)]
      · exact hid
  | append writer entry => exact hid

/-- A write does not remove or change a block. -/
theorem Disk.getBlock_apply {d : Disk D} (hw : d.store.WellKeyed) (w : Write D) {id : D}
    {b : List UInt8} (hid : d.store.getBlock id = some b) :
    (d.apply w).store.getBlock id = some b := by
  cases w with
  | putBlock data =>
      simp only [apply, ContentStore.getBlock_putBlock]
      split_ifs with heq
      · have hself := hw.block id b hid
        rw [dataHash_injective (hself.symm.trans heq)]
      · exact hid
  | putSnapshot header => exact hid
  | append writer entry => exact hid

theorem Disk.replay_getHeader_mono (ws ws' : List (Write D)) {id : D} {h : SnapshotHeader D}
    (hid : (Disk.replay ws).store.getHeader id = some h) :
    (Disk.replay (ws ++ ws')).store.getHeader id = some h := by
  induction ws' using List.reverseRecOn with
  | nil => rwa [List.append_nil]
  | append_singleton ws' w ih =>
      rw [← List.append_assoc, replay_concat]
      exact getHeader_apply (replay_wellKeyed _) w ih

theorem Disk.replay_getBlock_mono (ws ws' : List (Write D)) {id : D} {b : List UInt8}
    (hid : (Disk.replay ws).store.getBlock id = some b) :
    (Disk.replay (ws ++ ws')).store.getBlock id = some b := by
  induction ws' using List.reverseRecOn with
  | nil => rwa [List.append_nil]
  | append_singleton ws' w ih =>
      rw [← List.append_assoc, replay_concat]
      exact getBlock_apply (replay_wellKeyed _) w ih

/-- The entries of a journal in the order of their appends. -/
def entriesOf (ws : List (Write D)) : List (LogEntry D) :=
  ws.filterMap fun w => w.entry?.map Prod.snd

omit [LinearOrder D] [ContentHash D] in
@[simp] theorem entriesOf_append (ws ws' : List (Write D)) :
    entriesOf (ws ++ ws') = entriesOf ws ++ entriesOf ws' :=
  List.filterMap_append

omit [LinearOrder D] [ContentHash D] in
theorem entriesOf_concat (ws : List (Write D)) (writer : Writer) (e : LogEntry D) :
    entriesOf (ws ++ [.append writer e]) = entriesOf ws ++ [e] := by
  rw [entriesOf_append]
  rfl

/-- The headers of a journal in the order in which they were put. -/
def headersOf (ws : List (Write D)) : List (SnapshotHeader D) :=
  ws.filterMap fun w => match w with
    | .putSnapshot header => some header
    | _ => none

omit [LinearOrder D] [ContentHash D] in
@[simp] theorem headersOf_append (ws ws' : List (Write D)) :
    headersOf (ws ++ ws') = headersOf ws ++ headersOf ws' :=
  List.filterMap_append

/-- The log on disk holds the entries of the journal. -/
theorem Disk.replay_log (ws : List (Write D)) :
    (Disk.replay ws).log = .ofEntries (entriesOf ws) := by
  induction ws using List.reverseRecOn with
  | nil => rfl
  | append_singleton ws w ih =>
      rw [replay_concat, entriesOf_append]
      cases w with
      | putBlock data => simpa [apply, entriesOf, Write.entry?] using ih
      | putSnapshot header => simpa [apply, entriesOf, Write.entry?] using ih
      | append writer entry =>
          have hlast : entriesOf [Write.append writer entry] = [entry] := rfl
          rw [hlast, CausalLog.ofEntries_concat, ← ih]
          rfl

/-! ### What is on disk, whatever the order of the writes -/

omit [LinearOrder D] [ContentHash D] in
theorem mem_entriesOf {ws : List (Write D)} {e : LogEntry D} :
    e ∈ entriesOf ws ↔ ∃ writer, .append writer e ∈ ws := by
  simp only [entriesOf, List.mem_filterMap, Option.map_eq_some_iff]
  constructor
  · rintro ⟨w, hw, ⟨writer, e'⟩, hentry, rfl⟩
    cases w with
    | append writer' e' =>
        obtain ⟨rfl, rfl⟩ := Prod.mk.inj (Option.some.inj hentry)
        exact ⟨_, hw⟩
    | _ => cases hentry
  · rintro ⟨writer, hw⟩
    exact ⟨_, hw, (writer, e), rfl, rfl⟩

/-- The log holds the entries that were appended. -/
theorem Disk.replay_get_eq_some {ws : List (Write D)} {id : D} {e : LogEntry D} :
    (Disk.replay ws).log.get id = some e ↔ e ∈ entriesOf ws ∧ id = actionId e := by
  rw [replay_log]
  constructor
  · intro h
    exact ⟨CausalLog.mem_of_get_ofEntries h, (CausalLog.wellFormed_ofEntries _).get_eq id e h⟩
  · rintro ⟨he, rfl⟩
    exact CausalLog.get_ofEntries he

/-- The store holds the headers that were put. -/
theorem Disk.replay_getHeader_eq_some {ws : List (Write D)} {id : D} {h : SnapshotHeader D} :
    (Disk.replay ws).store.getHeader id = some h ↔ .putSnapshot h ∈ ws ∧ id = snapshotId h := by
  induction ws using List.reverseRecOn with
  | nil => simp [empty]
  | append_singleton ws w ih =>
      rw [replay_concat, List.mem_append, List.mem_singleton]
      cases w with
      | putBlock data => simpa [apply] using ih
      | append writer entry => simpa [apply] using ih
      | putSnapshot header =>
          simp only [apply, ContentStore.getHeader_putSnapshot, Write.putSnapshot.injEq]
          split_ifs with hid
          · rw [Option.some.injEq]
            constructor
            · rintro rfl
              exact ⟨.inr rfl, hid⟩
            · rintro ⟨-, hid'⟩
              exact snapshotId_injective (hid.symm.trans hid')
          · rw [ih]
            constructor
            · exact fun hold => ⟨.inl hold.1, hold.2⟩
            · rintro ⟨hold | rfl, hid'⟩
              · exact ⟨hold, hid'⟩
              · exact absurd hid' hid

/-- The store holds the blocks that were put. -/
theorem Disk.replay_getBlock_eq_some {ws : List (Write D)} {id : D} {b : List UInt8} :
    (Disk.replay ws).store.getBlock id = some b ↔ .putBlock b ∈ ws ∧ id = dataHash b := by
  induction ws using List.reverseRecOn with
  | nil => simp [empty]
  | append_singleton ws w ih =>
      rw [replay_concat, List.mem_append, List.mem_singleton]
      cases w with
      | putSnapshot header => simpa [apply] using ih
      | append writer entry => simpa [apply] using ih
      | putBlock data =>
          simp only [apply, ContentStore.getBlock_putBlock, Write.putBlock.injEq]
          split_ifs with hid
          · rw [Option.some.injEq]
            constructor
            · rintro rfl
              exact ⟨.inr rfl, hid⟩
            · rintro ⟨-, hid'⟩
              exact dataHash_injective (hid.symm.trans hid')
          · rw [ih]
            constructor
            · exact fun hold => ⟨.inl hold.1, hold.2⟩
            · rintro ⟨hold | rfl, hid'⟩
              · exact ⟨hold, hid'⟩
              · exact absurd hid' hid

/-- What can be read from the two databases: lookups of entries, headers and blocks, and the
index of the log, from which range queries are answered. -/
structure Disk.Contents (D : Type) where
  entry : D → Option (LogEntry D)
  index : List (AgentTsKey D)
  header : D → Option (SnapshotHeader D)
  block : D → Option (List UInt8)

omit [ContentHash D] in
/-- What can be read from a disk. -/
def Disk.contents (d : Disk D) : Disk.Contents D :=
  { entry := d.log.get
    index := d.log.agentTs
    header := d.store.getHeader
    block := d.store.getBlock }

/-- What can be read does not depend on the order of the writes. -/
theorem Disk.contents_replay_eq {ws ws' : List (Write D)} (h : ∀ x, x ∈ ws ↔ x ∈ ws') :
    (Disk.replay ws).contents = (Disk.replay ws').contents := by
  have hentry : (Disk.replay ws).log.get = (Disk.replay ws').log.get := by
    funext id
    refine Option.ext fun e => ?_
    simp only [replay_get_eq_some, mem_entriesOf, h]
  have hheader : (Disk.replay ws).store.getHeader = (Disk.replay ws').store.getHeader := by
    funext id
    refine Option.ext fun header => ?_
    simp only [replay_getHeader_eq_some, h]
  have hblock : (Disk.replay ws).store.getBlock = (Disk.replay ws').store.getBlock := by
    funext id
    refine Option.ext fun b => ?_
    simp only [replay_getBlock_eq_some, h]
  have hwf : ∀ ws : List (Write D), (Disk.replay ws).log.WellFormed := by
    intro ws
    rw [replay_log]
    exact CausalLog.wellFormed_ofEntries _
  have hindex : (Disk.replay ws).log.agentTs = (Disk.replay ws').log.agentTs := by
    refine (hwf ws).sorted.eq_of_mem_iff (hwf ws').sorted fun k => ?_
    rw [(hwf ws).mem_iff, (hwf ws').mem_iff, hentry]
  simp only [contents, hentry, hheader, hblock, hindex]

end Torpor
