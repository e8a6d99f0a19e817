import Torpor.Disk
import Torpor.Durability.Exactness
import Torpor.Durability.Failures
import Torpor.Lib.Scripts

/-!
# The Crash Harness

`write_commits` puts one block, and then for each commit a snapshot header and a log entry, each
referring to the one before it. Nothing is assumed of the hash functions except, where it is
said, that what was written does not collide.

The store and the log are two databases. After a crash each of them holds what a beginning of its
own writes made, and the two beginnings need not end at the same commit (`Hashes.replay` of two
cuts of one journal). A write that fails may or may not have reached the database.

## Main results

* `writeCommits_spec`: whatever fails, a beginning of the script has been written; without a
  failure all of it, and the witness tells the commits.
* `writeCommits_verified`: what `verify_icsr` counts after a crash, and its verdict.
-/

namespace Torpor

open ByteOrder Script

/-! ### The databases -/

section Keyed

variable {D : Type}

/-- A block under its hash. -/
def ContentStore.insertBlock [DecidableEq D] (s : ContentStore D) (hash : D) (data : Bytes) :
    ContentStore D :=
  { s with blocks := s.blocks.insert hash data }

/-- A header under its hash. -/
def ContentStore.insertHeader [DecidableEq D] (s : ContentStore D) (id : D)
    (header : SnapshotHeader D) : ContentStore D :=
  { s with headers := s.headers.insert id header }

/-- An entry under its hash, and its index key. -/
def CausalLog.insertEntry [LinearOrder D] (log : CausalLog D) (id : D) (e : LogEntry D) :
    CausalLog D :=
  { default := log.default.insert id e
    agentTs := SortedIndex.insertKey (agentTsKey e.agentId e.tsMs id) log.agentTs }

theorem ContentStore.getBlock_insertBlock [DecidableEq D] (s : ContentStore D) (hash : D)
    (data : Bytes) (id : D) :
    (s.insertBlock hash data).getBlock id = if id = hash then some data else s.getBlock id :=
  AList.lookup_insert_ite s.blocks hash data id

theorem ContentStore.hasSnapshot_insertHeader [DecidableEq D] (s : ContentStore D) (id : D)
    (header : SnapshotHeader D) (id' : D) :
    (s.insertHeader id header).hasSnapshot id' = (decide (id' = id) || s.hasSnapshot id') := by
  rw [hasSnapshot, hasSnapshot, getHeader, insertHeader, AList.lookup_insert_ite]
  split_ifs with h
  · rw [decide_eq_true h]
    rfl
  · rw [decide_eq_false h, Bool.false_or]
    rfl

theorem CausalLog.get_insertEntry [LinearOrder D] (log : CausalLog D) (id : D) (e : LogEntry D)
    (id' : D) : (log.insertEntry id e).get id' = if id' = id then some e else log.get id' :=
  AList.lookup_insert_ite log.default id e id'

end Keyed

/-- `data_hash`, `snapshot_id` and `action_id`. -/
structure Hashes where
  dataHash : Bytes → Digest
  snapshotId : SnapshotHeader Digest → Digest
  actionId : LogEntry Digest → Digest

theorem mem_headersOf {D : Type} {ws : List (Write D)} {h : SnapshotHeader D} :
    h ∈ headersOf ws ↔ .putSnapshot h ∈ ws := by
  rw [headersOf, List.mem_filterMap]
  constructor
  · rintro ⟨w, hw, heq⟩
    cases w with
    | putSnapshot header => rwa [← Option.some.inj heq]
    | putBlock data => cases heq
    | append writer entry => cases heq
  · intro hw
    exact ⟨_, hw, rfl⟩

namespace Hashes

variable (H : Hashes)

/-- `put_block`, `put_snapshot` and `append`. -/
def apply (d : Disk Digest) : Write Digest → Disk Digest
  | .putBlock data => { d with store := d.store.insertBlock (H.dataHash data) data }
  | .putSnapshot header => { d with store := d.store.insertHeader (H.snapshotId header) header }
  | .append _ e => { d with log := d.log.insertEntry (H.actionId e) e }

/-- What a list of writes leaves in the two databases. -/
def replay (ws : List (Write Digest)) : Disk Digest := ws.foldl H.apply .empty

theorem replay_concat (ws : List (Write Digest)) (w : Write Digest) :
    H.replay (ws ++ [w]) = H.apply (H.replay ws) w := by
  rw [replay, List.foldl_concat]
  rfl

variable {H} {ws : List (Write Digest)}

/-- What the log has under a key was appended, and has that key. -/
theorem mem_of_get_replay {d : Digest} {e : LogEntry Digest}
    (h : (H.replay ws).log.get d = some e) : e ∈ entriesOf ws ∧ H.actionId e = d := by
  induction ws using List.reverseRecOn with
  | nil => cases h
  | append_singleton ws w ih =>
      rw [replay_concat] at h
      rw [entriesOf_append, List.mem_append]
      cases w with
      | putBlock data => exact ⟨.inl (ih h).1, (ih h).2⟩
      | putSnapshot header => exact ⟨.inl (ih h).1, (ih h).2⟩
      | append writer entry =>
          rw [apply, CausalLog.get_insertEntry] at h
          split_ifs at h with hid
          · obtain rfl := Option.some.inj h
            exact ⟨.inr (List.mem_singleton_self _), hid.symm⟩
          · exact ⟨.inl (ih h).1, (ih h).2⟩

/-- The log has an entry under the key of every entry that was appended. -/
theorem isSome_get_replay {d : Digest} :
    ((H.replay ws).log.get d).isSome = true ↔ ∃ e ∈ entriesOf ws, H.actionId e = d := by
  constructor
  · intro h
    obtain ⟨e, he⟩ := Option.isSome_iff_exists.mp h
    exact ⟨e, mem_of_get_replay he⟩
  · rintro ⟨e, he, rfl⟩
    induction ws using List.reverseRecOn with
    | nil => cases he
    | append_singleton ws w ih =>
        rw [replay_concat]
        rw [entriesOf_append, List.mem_append] at he
        cases w with
        | putBlock data => exact ih (he.resolve_right List.not_mem_nil)
        | putSnapshot header => exact ih (he.resolve_right List.not_mem_nil)
        | append writer entry =>
            rw [apply, CausalLog.get_insertEntry]
            split_ifs with hid
            · rfl
            · rcases he with he | he
              · exact ih he
              · exact absurd (congrArg H.actionId (List.mem_singleton.mp he)) hid

/-- The store has a header under the key of every header that was put. -/
theorem hasSnapshot_replay {d : Digest} :
    (H.replay ws).store.hasSnapshot d = true ↔ ∃ h ∈ headersOf ws, H.snapshotId h = d := by
  induction ws using List.reverseRecOn with
  | nil => exact ⟨nofun, nofun⟩
  | append_singleton ws w ih =>
      rw [replay_concat, headersOf_append]
      cases w with
      | putBlock data => rwa [show headersOf [Write.putBlock data] = [] from rfl, List.append_nil]
      | append writer entry =>
          rwa [show headersOf [Write.append writer entry] = [] from rfl, List.append_nil]
      | putSnapshot header =>
          have hlast : headersOf [Write.putSnapshot header] = [header] := rfl
          rw [apply, ContentStore.hasSnapshot_insertHeader, Bool.or_eq_true, decide_eq_true_eq, ih,
            hlast]
          simp only [List.mem_append, List.mem_singleton]
          constructor
          · rintro (rfl | ⟨h, hmem, rfl⟩)
            · exact ⟨header, .inr rfl, rfl⟩
            · exact ⟨h, .inl hmem, rfl⟩
          · rintro ⟨h, hmem | rfl, rfl⟩
            · exact .inr ⟨h, hmem, rfl⟩
            · exact .inl rfl

/-- The store has a block under the key of every block that was put. -/
theorem isSome_getBlock_replay {d : Digest} : ((H.replay ws).store.getBlock d).isSome = true ↔
    ∃ data, .putBlock data ∈ ws ∧ H.dataHash data = d := by
  induction ws using List.reverseRecOn with
  | nil => exact ⟨nofun, nofun⟩
  | append_singleton ws w ih =>
      rw [replay_concat]
      simp only [List.mem_append, List.mem_singleton]
      cases w with
      | append writer entry =>
          simp only [reduceCtorEq, or_false]
          exact ih
      | putSnapshot header =>
          simp only [reduceCtorEq, or_false]
          exact ih
      | putBlock block =>
          rw [apply, ContentStore.getBlock_insertBlock]
          simp only [Write.putBlock.injEq]
          split_ifs with hid
          · exact iff_of_true rfl ⟨block, .inr rfl, hid.symm⟩
          · rw [ih]
            constructor
            · rintro ⟨data, hmem, rfl⟩
              exact ⟨data, .inl hmem, rfl⟩
            · rintro ⟨data, hmem | rfl, hdata⟩
              · exact ⟨data, hmem, hdata⟩
              · exact absurd hdata.symm hid

/-- No two records of a list of writes collide. -/
structure Collisionless (H : Hashes) (ws : List (Write Digest)) : Prop where
  entries : Set.InjOn H.actionId {e | e ∈ entriesOf ws}
  headers : Set.InjOn H.snapshotId {h | h ∈ headersOf ws}

end Hashes

/-! ### The commits of a writer -/

/-- What a writer puts in its commits, by their number. -/
structure Synthetic where
  agentId : AgentId
  data : Bytes
  seq : ℕ → ℕ
  tsUs : ℕ → ℕ
  tsMs : ℕ → ℕ

namespace Synthetic

variable (H : Hashes) (c : Synthetic)

/-- The header of a commit: its parent is the one before. -/
def header : ℕ → SnapshotHeader Digest
  | 0 => ⟨H.dataHash c.data, none, c.seq 0, c.tsUs 0⟩
  | k + 1 => ⟨H.dataHash c.data, some (H.snapshotId (header k)), c.seq (k + 1), c.tsUs (k + 1)⟩

/-- The state before a commit. -/
def hashBefore (k : ℕ) : Digest := if k = 0 then LogStore.zeroDigest else H.dataHash c.data

/-- The entry of a commit: its parent is the one before. -/
def entry : ℕ → LogEntry Digest
  | 0 => ⟨c.agentId, c.tsMs 0, [], c.hashBefore H 0, H.dataHash c.data, none⟩
  | k + 1 => ⟨c.agentId, c.tsMs (k + 1), [H.actionId (entry k)], c.hashBefore H (k + 1),
      H.dataHash c.data, none⟩

/-- The writes, in order: the block, then a header and an entry for each commit. -/
def script : ℕ → Write Digest
  | 0 => .putBlock c.data
  | n + 1 => if n % 2 = 0 then .putSnapshot (c.header H (n / 2))
      else .append .runtime (c.entry H (n / 2))

/-- What a witness tells of a commit. -/
def commit (k : ℕ) : IcsrCommit where
  seq := UInt64.ofNat k
  actionIdHex := hexEncode (H.actionId (c.entry H k)).val
  snapshotIdHex := hexEncode (H.snapshotId (c.header H k)).val
  dataHashHex := hexEncode (H.dataHash c.data).val

/-- `parent_snap` before a commit. -/
def parentSnap (k : ℕ) : Option Digest := (c.header H k).parent

/-- `prev_action` before a commit. -/
def prevAction (k : ℕ) : Option Digest := (c.entry H k).parentIds.head?

variable {H c}

theorem script_header (k : ℕ) : c.script H (2 * k + 1) = .putSnapshot (c.header H k) := by
  rw [script, if_pos (Nat.mul_mod_right 2 k), Nat.mul_div_cancel_left k Nat.zero_lt_two]

theorem script_entry (k : ℕ) : c.script H (2 * k + 2) = .append .runtime (c.entry H k) := by
  have hhalf : (2 * k + 1) / 2 = k := by omega
  rw [script, if_neg (by omega), hhalf]

theorem header_eq (k : ℕ) :
    c.header H k = ⟨H.dataHash c.data, c.parentSnap H k, c.seq k, c.tsUs k⟩ := by
  cases k <;> rfl

theorem entry_eq (k : ℕ) : c.entry H k = ⟨c.agentId, c.tsMs k,
    ((c.prevAction H k).map fun id => [id]).getD [], c.hashBefore H k, H.dataHash c.data,
    none⟩ := by
  cases k <;> rfl

theorem parentSnap_succ (k : ℕ) :
    c.parentSnap H (k + 1) = some (H.snapshotId (c.header H k)) := rfl

theorem prevAction_succ (k : ℕ) :
    c.prevAction H (k + 1) = some (H.actionId (c.entry H k)) := rfl

theorem isChain_header : IsChain SnapshotHeader.parent H.snapshotId (c.header H) where
  first := rfl
  next _ := rfl

theorem isChain_entry : IsChain (fun e => e.parentIds.head?) H.actionId (c.entry H) where
  first := rfl
  next _ := rfl

theorem wellSpelt_commit (k : ℕ) : (c.commit H k).WellSpelt :=
  ⟨lowerHex_hexEncode _, lowerHex_hexEncode _, lowerHex_hexEncode _⟩

/-- The place of a header in a script. -/
theorem script_eq_putSnapshot {n : ℕ} {h : SnapshotHeader Digest} :
    c.script H n = .putSnapshot h ↔ ∃ k, n = 2 * k + 1 ∧ c.header H k = h := by
  constructor
  · intro heq
    rcases n with _ | n
    · cases heq
    rw [script] at heq
    split_ifs at heq with heven
    · exact ⟨n / 2, by omega, Write.putSnapshot.inj heq⟩
  · rintro ⟨k, rfl, rfl⟩
    exact script_header k

/-- The place of an entry in a script. -/
theorem script_eq_append {n : ℕ} {writer : Writer} {e : LogEntry Digest} :
    c.script H n = .append writer e ↔
      ∃ k, n = 2 * k + 2 ∧ writer = .runtime ∧ c.entry H k = e := by
  constructor
  · intro heq
    rcases n with _ | n
    · cases heq
    rw [script] at heq
    split_ifs at heq with heven
    · obtain ⟨hwriter, he⟩ := Write.append.inj heq
      exact ⟨n / 2, by omega, hwriter.symm, he⟩
  · rintro ⟨k, rfl, rfl, rfl⟩
    exact script_entry k

end Synthetic

/-! ### Several writers -/

section Writers

variable {κ : Type*} [DecidableEq κ]

/-- A journal of several writers, each with commits of its own. -/
structure Recorded (H : Hashes) (c : κ → Synthetic) (js : List (κ × Write Digest)) : Prop where
  scripts : Interleaves (fun k => (c k).script H) js
  collisionless : H.Collisionless (js.map Prod.snd)
  starts : ∀ j k, 0 < written j js → 0 < written k js → (c j).tsUs 0 = (c k).tsUs 0 ∨
    (c j).tsMs 0 = (c k).tsMs 0 → j = k

namespace Recorded

variable {H : Hashes} {c : κ → Synthetic} {js : List (κ × Write Digest)} {k : κ} {n : ℕ}

theorem header_mem (h : Recorded H c js) (hn : 2 * n + 1 < written k js) :
    (c k).header H n ∈ headersOf (js.map Prod.snd) :=
  mem_headersOf.mpr (h.scripts.mem_map_snd_iff.mpr ⟨k, _, hn, Synthetic.script_header n⟩)

theorem entry_mem (h : Recorded H c js) (hn : 2 * n + 2 < written k js) :
    (c k).entry H n ∈ entriesOf (js.map Prod.snd) :=
  mem_entriesOf.mpr ⟨.runtime,
    h.scripts.mem_map_snd_iff.mpr ⟨k, _, hn, Synthetic.script_entry n⟩⟩

/-- A header tells its writer and its number. -/
theorem header_inj (h : Recorded H c js) {j : κ} {m : ℕ} (hm : 2 * m + 1 < written j js)
    (hn : 2 * n + 1 < written k js) (heq : (c j).header H m = (c k).header H n) :
    j = k ∧ m = n := by
  obtain ⟨rfl, hzero⟩ := IsChain.inj h.collisionless.headers Synthetic.isChain_header
    Synthetic.isChain_header (fun l hl => h.header_mem (k := j) (by omega))
    (fun l hl => h.header_mem (k := k) (by omega)) heq
  exact ⟨h.starts j k (by omega) (by omega) (.inl (congrArg SnapshotHeader.tsUs hzero)), rfl⟩

/-- An entry tells its writer and its number. -/
theorem entry_inj (h : Recorded H c js) {j : κ} {m : ℕ} (hm : 2 * m + 2 < written j js)
    (hn : 2 * n + 2 < written k js) (heq : (c j).entry H m = (c k).entry H n) :
    j = k ∧ m = n := by
  obtain ⟨rfl, hzero⟩ := IsChain.inj h.collisionless.entries Synthetic.isChain_entry
    Synthetic.isChain_entry (fun l hl => h.entry_mem (k := j) (by omega))
    (fun l hl => h.entry_mem (k := k) (by omega)) heq
  exact ⟨h.starts j k (by omega) (by omega) (.inr (congrArg LogEntry.tsMs hzero)), rfl⟩

omit [DecidableEq κ] in
theorem cut_subset (i : ℕ) (js : List (κ × Write Digest)) :
    (js.take i).map Prod.snd ⊆ js.map Prod.snd :=
  List.map_subset _ (List.take_subset i js)

/-- A cut of the store keeps a header exactly if it keeps so much of its writer's script. -/
theorem hasSnapshot_iff (h : Recorded H c js) (hn : 2 * n + 1 < written k js) (i : ℕ) :
    (H.replay ((js.take i).map Prod.snd)).store.hasSnapshot (H.snapshotId ((c k).header H n)) =
      true ↔ 2 * n + 1 < written k (js.take i) := by
  have honce : ∀ j, ∀ m < written j js, (c j).script H m = (c k).script H (2 * n + 1) →
      j = k ∧ m = 2 * n + 1 := by
    intro j m hm heq
    rw [Synthetic.script_header] at heq
    obtain ⟨l, rfl, hl⟩ := Synthetic.script_eq_putSnapshot.mp heq
    obtain ⟨rfl, rfl⟩ := h.header_inj hm hn hl
    exact ⟨rfl, rfl⟩
  rw [Hashes.hasSnapshot_replay, ← h.scripts.mem_take_iff honce i, Synthetic.script_header]
  constructor
  · rintro ⟨header, hheader, heq⟩
    have hput := mem_headersOf.mp hheader
    have hwritten := mem_headersOf.mpr (cut_subset i js hput)
    rwa [← h.collisionless.headers hwritten (h.header_mem hn) heq]
  · exact fun hput => ⟨_, mem_headersOf.mpr hput, rfl⟩

/-- What a cut of the log has under the key of an entry is the entry. -/
theorem get_cut (h : Recorded H c js) (hn : 2 * n + 2 < written k js) {i : ℕ}
    {e : LogEntry Digest} (he : (H.replay ((js.take i).map Prod.snd)).log.get
      (H.actionId ((c k).entry H n)) = some e) : e = (c k).entry H n := by
  obtain ⟨hmem, heq⟩ := Hashes.mem_of_get_replay he
  obtain ⟨writer, happend⟩ := mem_entriesOf.mp hmem
  have hwritten := mem_entriesOf.mpr ⟨writer, cut_subset i js happend⟩
  exact h.collisionless.entries hwritten (h.entry_mem hn) heq

/-- A cut of the log keeps an entry exactly if it keeps so much of its writer's script. -/
theorem isSome_get_iff (h : Recorded H c js) (hn : 2 * n + 2 < written k js) (i : ℕ) :
    ((H.replay ((js.take i).map Prod.snd)).log.get (H.actionId ((c k).entry H n))).isSome =
      true ↔ 2 * n + 2 < written k (js.take i) := by
  have honce : ∀ j, ∀ m < written j js, (c j).script H m = (c k).script H (2 * n + 2) →
      j = k ∧ m = 2 * n + 2 := by
    intro j m hm heq
    rw [Synthetic.script_entry] at heq
    obtain ⟨l, rfl, -, hl⟩ := Synthetic.script_eq_append.mp heq
    obtain ⟨rfl, rfl⟩ := h.entry_inj hm hn hl
    exact ⟨rfl, rfl⟩
  rw [← h.scripts.mem_take_iff honce i, Synthetic.script_entry]
  constructor
  · intro hsome
    obtain ⟨e, he⟩ := Option.isSome_iff_exists.mp hsome
    obtain rfl := h.get_cut hn he
    obtain ⟨writer, happend⟩ := mem_entriesOf.mp (Hashes.mem_of_get_replay he).1
    obtain ⟨j, m, -, hscript⟩ := (h.scripts.take i).mem_map_snd_iff.mp happend
    obtain ⟨-, -, rfl, -⟩ := Synthetic.script_eq_append.mp hscript
    exact happend
  · exact fun happend =>
      Hashes.isSome_get_replay.mpr ⟨_, mem_entriesOf.mpr ⟨_, happend⟩, rfl⟩

/-- A cut of the store that keeps anything of a writer's script keeps its block. -/
theorem isSome_getBlock (h : Recorded H c js) {i : ℕ} (hk : 0 < written k (js.take i)) :
    ((H.replay ((js.take i).map Prod.snd)).store.getBlock (H.dataHash (c k).data)).isSome =
      true :=
  Hashes.isSome_getBlock_replay.mpr
    ⟨_, (h.scripts.take i).mem_map_snd_iff.mpr ⟨k, 0, hk, rfl⟩, rfl⟩

end Recorded

end Writers

/-! ### `write_commits` -/

/-- How a write ends. One that fails may have reached the database; the error has a text. -/
inductive WriteEnd
  | done
  | failed (reached : Bool) (error : String)

/-- What a write that failed leaves. -/
def WriteEnd.remnant (reached : Bool) (w : Write Digest) : List (Write Digest) :=
  if reached then [w] else []

namespace WriteCommits

variable (H : Hashes) (outcome : ℕ → WriteEnd) (agentId : AgentId)

/-- What the loop of `write_commits` carries along. -/
structure Loop where
  parentSnap : Option Digest
  prevAction : Option Digest
  hashBefore : Digest
  commits : List IcsrCommit

/-- The loop of `write_commits`: so many rounds from `seq` on, with what they write. -/
def loop (dataH : Digest) : ℕ → ℕ → Loop → List (Write Digest) × Except String Loop
  | 0, _, st => ([], .ok st)
  | rounds + 1, seq, st =>
      let header : SnapshotHeader Digest :=
        { dataHash := dataH, parent := st.parentSnap, seq, tsUs := seq * 1000 % 2 ^ 64 }
      match outcome (2 * seq + 1) with
      | .failed reached e =>
          (WriteEnd.remnant reached (.putSnapshot header),
            .error s!"put_snapshot seq={seq}: {e}")
      | .done =>
          let snapId := H.snapshotId header
          let entry : LogEntry Digest :=
            { agentId, tsMs := seq, parentIds := (st.prevAction.map fun id => [id]).getD []
              hashBefore := st.hashBefore, hashAfter := dataH, emitPayload := none }
          match outcome (2 * seq + 2) with
          | .failed reached e =>
              (.putSnapshot header :: WriteEnd.remnant reached (.append .runtime entry),
                .error s!"append seq={seq}: {e}")
          | .done =>
              let actionId := H.actionId entry
              let commit : IcsrCommit :=
                { seq := UInt64.ofNat seq, actionIdHex := hexEncode actionId.val
                  snapshotIdHex := hexEncode snapId.val, dataHashHex := hexEncode dataH.val }
              let (ws, result) := loop dataH rounds (seq + 1)
                { parentSnap := some snapId, prevAction := some actionId, hashBefore := dataH
                  commits := st.commits ++ [commit] }
              (.putSnapshot header :: .append .runtime entry :: ws, result)

/-- The commits of `write_commits`. -/
def source (blockSize : ℕ) : Synthetic where
  agentId
  data := List.replicate blockSize 0xAB
  seq k := k
  tsUs k := k * 1000 % 2 ^ 64
  tsMs k := k

/-- The text of the error that a failed write is reported with. -/
def errorText (e : String) : ℕ → String
  | 0 => s!"put_block: {e}"
  | m + 1 =>
      let seq := m / 2
      if m % 2 = 0 then s!"put_snapshot seq={seq}: {e}" else s!"append seq={seq}: {e}"

end WriteCommits

/-- `write_commits`, where the writes end as `outcome` tells: what is written, and the witness. -/
def writeCommits (H : Hashes) (outcome : ℕ → WriteEnd) (agentId : AgentId) (n blockSize : ℕ) :
    List (Write Digest) × Except String IcsrWitness :=
  let data : Bytes := List.replicate blockSize 0xAB
  match outcome 0 with
  | .failed reached e => (WriteEnd.remnant reached (.putBlock data), .error s!"put_block: {e}")
  | .done =>
      let (ws, result) := WriteCommits.loop H outcome agentId (H.dataHash data) n 0
        { parentSnap := none, prevAction := none, hashBefore := LogStore.zeroDigest, commits := [] }
      (.putBlock data :: ws, result.map fun st => ⟨st.commits⟩)

namespace WriteCommits

variable {H : Hashes} {outcome : ℕ → WriteEnd} {agentId : AgentId} {blockSize : ℕ}

/-- What the loop carries along before a commit. -/
def before (H : Hashes) (c : Synthetic) (k : ℕ) : Loop where
  parentSnap := c.parentSnap H k
  prevAction := c.prevAction H k
  hashBefore := c.hashBefore H k
  commits := (List.range k).map (c.commit H)

/-- A round. -/
theorem loop_succ (rounds k : ℕ) :
    let c := source agentId blockSize
    loop H outcome agentId (H.dataHash c.data) (rounds + 1) k (before H c k) =
      match outcome (2 * k + 1) with
      | .failed reached e => (WriteEnd.remnant reached (c.script H (2 * k + 1)),
          .error (errorText e (2 * k + 1)))
      | .done =>
          match outcome (2 * k + 2) with
          | .failed reached e =>
              (c.script H (2 * k + 1) :: WriteEnd.remnant reached (c.script H (2 * k + 2)),
                .error (errorText e (2 * k + 2)))
          | .done =>
              let rest := loop H outcome agentId (H.dataHash c.data) rounds (k + 1)
                (before H c (k + 1))
              (c.script H (2 * k + 1) :: c.script H (2 * k + 2) :: rest.1, rest.2) := by
  intro c
  have hnext : before H c (k + 1) =
      { parentSnap := some (H.snapshotId (c.header H k))
        prevAction := some (H.actionId (c.entry H k))
        hashBefore := H.dataHash c.data
        commits := (List.range k).map (c.commit H) ++ [c.commit H k] } := by
    rw [before, c.parentSnap_succ, c.prevAction_succ, List.range_succ, List.map_append,
      List.map_singleton]
    rfl
  have hhalf : (2 * k + 1) / 2 = k := by omega
  have hodd : ¬ (2 * k + 1) % 2 = 0 := by omega
  have hheader : (⟨H.dataHash c.data, c.parentSnap H k, k, k * 1000 % 2 ^ 64⟩ :
      SnapshotHeader Digest) = c.header H k := (Synthetic.header_eq (c := c) k).symm
  have hentry : (⟨agentId, k, ((c.prevAction H k).map fun id => [id]).getD [], c.hashBefore H k,
      H.dataHash c.data, none⟩ : LogEntry Digest) = c.entry H k :=
    (Synthetic.entry_eq (c := c) k).symm
  rw [Synthetic.script_header, Synthetic.script_entry, hnext, loop]
  simp only [before, hheader, hentry, errorText, Nat.mul_mod_right, if_true, hodd, if_false,
    hhalf, Nat.mul_div_cancel_left k Nat.zero_lt_two]
  rcases outcome (2 * k + 1) with _ | ⟨reached, e⟩
  · rcases outcome (2 * k + 2) with _ | ⟨reached, e⟩
    · rfl
    · rfl
  · rfl

variable (agentId blockSize) in
/-- Rounds in which no write fails. -/
theorem loop_done {rounds k : ℕ} (h : ∀ m < 2 * rounds, outcome (2 * k + 1 + m) = .done) :
    let c := source agentId blockSize
    loop H outcome agentId (H.dataHash c.data) rounds k (before H c k) =
      ((List.range' (2 * k + 1) (2 * rounds)).map (c.script H),
        .ok (before H c (k + rounds))) := by
  intro c
  induction rounds generalizing k with
  | zero => rfl
  | succ rounds ih =>
      have hfirst := h 0 (by omega)
      have hsecond := h 1 (by omega)
      have hrest := ih (k := k + 1) fun m hm => by
        have hm := h (m + 2) (by omega)
        rwa [show 2 * k + 1 + (m + 2) = 2 * (k + 1) + 1 + m by omega] at hm
      have hrange : List.range' (2 * k + 1) (2 * (rounds + 1)) =
          (2 * k + 1) :: (2 * k + 2) :: List.range' (2 * (k + 1) + 1) (2 * rounds) := rfl
      rw [Nat.add_zero] at hfirst
      rw [loop_succ, hfirst, hsecond, hrest, hrange, Nat.add_assoc k, Nat.add_comm 1]
      rfl

variable (agentId blockSize) in
/-- Rounds up to the first write that fails. -/
theorem loop_failed {rounds k p : ℕ} {reached : Bool} {e : String} (hp : p < 2 * rounds)
    (hdone : ∀ m < p, outcome (2 * k + 1 + m) = .done)
    (hfailed : outcome (2 * k + 1 + p) = .failed reached e) :
    let c := source agentId blockSize
    loop H outcome agentId (H.dataHash c.data) rounds k (before H c k) =
      ((List.range' (2 * k + 1) p).map (c.script H) ++
          WriteEnd.remnant reached (c.script H (2 * k + 1 + p)),
        .error (errorText e (2 * k + 1 + p))) := by
  intro c
  induction rounds generalizing k p with
  | zero => omega
  | succ rounds ih =>
      rw [loop_succ]
      match p, hp, hdone, hfailed with
      | 0, _, _, hfailed =>
          rw [Nat.add_zero] at hfailed
          rw [hfailed]
          rfl
      | 1, _, hdone, hfailed =>
          have hfirst := hdone 0 (by omega)
          rw [Nat.add_zero] at hfirst
          rw [hfirst, hfailed]
          rfl
      | p + 2, hp, hdone, hfailed =>
          have hfirst := hdone 0 (by omega)
          have hsecond := hdone 1 (by omega)
          have hshift : ∀ m, 2 * (k + 1) + 1 + m = 2 * k + 1 + (m + 2) := fun m => by omega
          have hrest := ih (k := k + 1) (p := p) (by omega)
            (fun m hm => by rw [hshift]; exact hdone (m + 2) (by omega))
            (by rw [hshift]; exact hfailed)
          rw [Nat.add_zero] at hfirst
          rw [hfirst, hsecond, hrest, hshift, List.range'_succ, List.range'_succ]
          rfl

end WriteCommits

open WriteCommits in
/-- **`write_commits` stops at the first write that fails.** What has been written then is the
beginning of the script, and the error names the write; without a failure all of it is written,
and the witness tells the commits. -/
theorem writeCommits_spec (H : Hashes) (outcome : ℕ → WriteEnd) (agentId : AgentId)
    (n blockSize : ℕ) :
    let c := source agentId blockSize
    ((∀ m < 2 * n + 1, outcome m = .done) → writeCommits H outcome agentId n blockSize =
        ((List.range (2 * n + 1)).map (c.script H), .ok ⟨(List.range n).map (c.commit H)⟩)) ∧
      ∀ p < 2 * n + 1, (∀ m < p, outcome m = .done) →
        ∀ reached e, outcome p = .failed reached e →
          writeCommits H outcome agentId n blockSize =
            ((List.range p).map (c.script H) ++ WriteEnd.remnant reached (c.script H p),
              .error (errorText e p)) := by
  intro c
  have hrange : ∀ m, (List.range (m + 1)).map (c.script H) =
      .putBlock c.data :: (List.range' 1 m).map (c.script H) := by
    intro m
    rw [List.range_eq_range', List.range'_succ]
    rfl
  constructor
  · intro hdone
    have hloop := loop_done agentId blockSize (H := H) (k := 0)
      fun m (hm : m < 2 * n) => by
        rw [Nat.mul_zero, Nat.zero_add, Nat.add_comm]
        exact hdone (m + 1) (by omega)
    simp only [Nat.mul_zero, Nat.zero_add] at hloop
    rw [writeCommits, hdone 0 (by omega), hrange]
    exact congrArg (fun r : _ × Except String Loop =>
      (Write.putBlock c.data :: r.1, r.2.map fun st => (⟨st.commits⟩ : IcsrWitness))) hloop
  · intro p hp hdone reached e hfailed
    rcases p with _ | p
    · rw [writeCommits, hfailed]
      rfl
    have hloop := loop_failed agentId blockSize (H := H) (k := 0)
      (p := p) (show p < 2 * n by omega)
      (fun m hm => by
        rw [Nat.mul_zero, Nat.zero_add, Nat.add_comm]
        exact hdone (m + 1) (by omega))
      (by rw [Nat.mul_zero, Nat.zero_add, Nat.add_comm]; exact hfailed)
    rw [Nat.mul_zero, Nat.zero_add, Nat.add_comm 1] at hloop
    rw [writeCommits, hdone 0 (by omega), hrange]
    exact congrArg (fun r : _ × Except String Loop =>
      (Write.putBlock c.data :: r.1, r.2.map fun st => (⟨st.commits⟩ : IcsrWitness))) hloop

/-! ### What `verify_icsr` finds -/

/-- How many numbers below `n` lie between two bounds. -/
theorem countP_flatMap_range {β : Type*} {f : ℕ → List β} {p : β → Bool} {a b n : ℕ}
    (h : ∀ k < n, (f k).countP p = if a ≤ k ∧ k < b then 1 else 0) :
    ((List.range n).flatMap f).countP p = min n b - a := by
  induction n with
  | zero => simp
  | succ n ih =>
      rw [List.range_succ, List.flatMap_append, List.countP_append,
        ih fun k hk => h k (by omega), List.flatMap_singleton, h n (by omega)]
      split_ifs <;> omega

namespace VerifyIcsr

variable {store : ContentStore Digest} {log : CausalLog Digest}

/-- The answer to the lookup of a kind. -/
def Looked.answer (looked : Looked) : IcsrViolationKind → Answer
  | .logEntryMissing => looked.entry
  | .snapshotMissing => looked.snapshot
  | .dataBlockMissing => looked.block

theorem countP_violation (c : IcsrCommit) (answer : Answer) (kind kind' : IcsrViolationKind) :
    (violation c answer kind').countP (fun v => v.kind = kind) =
      if kind' = kind ∧ answer = .absent then 1 else 0 := by
  rw [violation]
  by_cases h : answer = .absent
  · by_cases hk : kind' = kind <;> simp [h, hk]
  · simp [h]

/-- A commit is reported once for each kind of lookup that finds nothing. -/
theorem countP_check (p : Probe) (kind : IcsrViolationKind) :
    (check store log p).countP (fun v => v.kind = kind) =
      if (look store log p).answer kind = .absent then 1 else 0 := by
  rw [check, List.countP_append, List.countP_append, countP_violation, countP_violation,
    countP_violation]
  cases kind <;>
    · simp only [reduceCtorEq, true_and, false_and, if_false, Nat.zero_add, Nat.add_zero]
      rfl

/-- The lookups for a commit that is spelt as the harness spells it. -/
theorem look_commit (H : Hashes) (c : Synthetic) (k : ℕ) :
    look store log (c.commit H k).sound =
      if (log.get (H.actionId (c.entry H k))).isSome then
        ⟨.found, .of false (store.hasSnapshot (H.snapshotId (c.header H k))),
          .of false (store.getBlock (H.dataHash c.data)).isSome⟩
      else ⟨.absent, .unasked, .unasked⟩ := by
  rw [look_of_some (hexDecode32_hexEncode _) (hexDecode32_hexEncode _) (hexDecode32_hexEncode _)]
  rcases log.get (H.actionId (c.entry H k)) with _ | e
  · rfl
  · rfl

end VerifyIcsr

namespace WriteCommits

variable {H : Hashes} {outcome : ℕ → WriteEnd} {agentId : AgentId} {n blockSize : ℕ}

/-- Where there is a witness, no write has failed. -/
theorem done_of_ok {w : IcsrWitness}
    (hok : (writeCommits H outcome agentId n blockSize).2 = .ok w) :
    ∀ m < 2 * n + 1, outcome m = .done := by
  intro m
  induction m using Nat.strong_induction_on with
  | _ p ih =>
      intro hp
      rcases hfailed : outcome p with _ | ⟨reached, e⟩
      · rfl
      · have hstop := (writeCommits_spec H outcome agentId n blockSize).2 p hp
          (fun m hm => ih m hm (hm.trans hp)) reached e hfailed
        rw [hstop] at hok
        cases hok

/-- The writes of one writer as a journal. -/
def journal (c : Synthetic) (H : Hashes) (n : ℕ) : List (Unit × Write Digest) :=
  ((List.range (2 * n + 1)).map (c.script H)).map fun w => ((), w)

theorem written_journal_take (c : Synthetic) (i : ℕ) :
    written () ((journal c H n).take i) = min i (2 * n + 1) := by
  rw [journal, ← List.map_take, written, Machine.part_map, if_pos rfl, List.length_take,
    List.length_map, List.length_range]

theorem written_journal (c : Synthetic) : written () (journal c H n) = 2 * n + 1 := by
  rw [journal, written, Machine.part_map, if_pos rfl, List.length_map, List.length_range]

theorem map_snd_journal_take (c : Synthetic) (i : ℕ) :
    ((journal c H n).take i).map Prod.snd = ((List.range (2 * n + 1)).map (c.script H)).take i := by
  rw [journal, ← List.map_take, List.map_map]
  exact List.map_id _

theorem recorded_journal {c : Synthetic}
    (hfree : H.Collisionless ((List.range (2 * n + 1)).map (c.script H))) :
    Recorded H (fun _ => c) (journal c H n) where
  scripts _ := by
    rw [written_journal, journal, Machine.part_map, if_pos rfl]
  collisionless := by
    rw [journal, List.map_map]
    exact (List.map_id _).symm ▸ hfree
  starts _ _ _ _ _ := rfl

/-! #### What two cuts keep -/

/-- How many commits a cut of the log keeps. -/
def logged (n j : ℕ) : ℕ := min n ((j - 1) / 2)

/-- How many commits a cut of the store keeps. -/
def stored (n i : ℕ) : ℕ := min n (i / 2)

section Cuts

variable {c : Synthetic} {k : ℕ}
    (hfree : H.Collisionless ((List.range (2 * n + 1)).map (c.script H))) (hk : k < n)

include hfree hk

theorem isSome_get_take (j : ℕ) :
    ((H.replay (((List.range (2 * n + 1)).map (c.script H)).take j)).log.get
      (H.actionId (c.entry H k))).isSome = decide (k < logged n j) := by
  have hiff := (recorded_journal hfree).isSome_get_iff (k := ()) (n := k)
    (by rw [written_journal]; omega) j
  rw [map_snd_journal_take, written_journal_take] at hiff
  rw [Bool.eq_iff_iff, hiff, decide_eq_true_eq, logged]
  omega

theorem hasSnapshot_take (i : ℕ) :
    (H.replay (((List.range (2 * n + 1)).map (c.script H)).take i)).store.hasSnapshot
      (H.snapshotId (c.header H k)) = decide (k < stored n i) := by
  have hiff := (recorded_journal hfree).hasSnapshot_iff (k := ()) (n := k)
    (by rw [written_journal]; omega) i
  rw [map_snd_journal_take, written_journal_take] at hiff
  rw [Bool.eq_iff_iff, hiff, decide_eq_true_eq, stored]
  omega

omit hk in
theorem isSome_getBlock_take (i : ℕ) :
    ((H.replay (((List.range (2 * n + 1)).map (c.script H)).take i)).store.getBlock
      (H.dataHash c.data)).isSome = decide (0 < i) := by
  rcases i.eq_zero_or_pos with rfl | hi
  · rfl
  · have hsome := (recorded_journal hfree).isSome_getBlock (k := ()) (i := i)
      (by rw [written_journal_take]; omega)
    rw [map_snd_journal_take] at hsome
    rw [hsome, decide_eq_true hi]

/-- What is found for a commit. -/
theorem look_take (i j : ℕ) :
    let ws := (List.range (2 * n + 1)).map (c.script H)
    VerifyIcsr.look (H.replay (ws.take i)).store (H.replay (ws.take j)).log
      (c.commit H k).sound = if k < logged n j then
        ⟨.found, .of false (decide (k < stored n i)), .of false (decide (0 < i))⟩
      else ⟨.absent, .unasked, .unasked⟩ := by
  intro ws
  rw [VerifyIcsr.look_commit, isSome_get_take hfree hk, hasSnapshot_take hfree hk,
    isSome_getBlock_take hfree]
  simp only [decide_eq_true_eq]

omit hk in
/-- What is counted, where the commits reported are those between two bounds. -/
theorem countP_take (kind : IcsrViolationKind) {i j a b : ℕ} (h : ∀ k < n,
      (if k < logged n j then (⟨.found, .of false (decide (k < stored n i)),
          .of false (decide (0 < i))⟩ : VerifyIcsr.Looked)
        else ⟨.absent, .unasked, .unasked⟩).answer kind = .absent ↔ a ≤ k ∧ k < b) :
    let ws := (List.range (2 * n + 1)).map (c.script H)
    ((probes (noFaults 0) ((List.range n).map (c.commit H))).flatMap
      (VerifyIcsr.check (H.replay (ws.take i)).store (H.replay (ws.take j)).log)).countP
        (fun v => v.kind = kind) = min n b - a := by
  intro ws
  rw [probes_noFaults, List.map_map, List.flatMap_map]
  refine countP_flatMap_range fun k hk => ?_
  rw [Function.comp_apply, VerifyIcsr.countP_check, look_take hfree hk]
  exact if_congr (h k hk) rfl rfl

end Cuts

end WriteCommits

open WriteCommits in
/-- **What `verify_icsr` counts after a crash.** The log has lost the commits behind its own cut,
and of those that it keeps the snapshots are missing behind the cut of the store. The verdict is
positive exactly if the store keeps as many commits as the log. -/
theorem writeCommits_verified {H : Hashes} {outcome : ℕ → WriteEnd} {agentId : AgentId}
    {n blockSize : ℕ} {w : IcsrWitness}
    (hok : (writeCommits H outcome agentId n blockSize).2 = .ok w)
    (hfree : H.Collisionless (writeCommits H outcome agentId n blockSize).1) (i j : ℕ) :
    let ws := (writeCommits H outcome agentId n blockSize).1
    let r := verifyIcsr (H.replay (ws.take i)).store (H.replay (ws.take j)).log (noFaults 0) w
    r.checked = n ∧ r.logMissing = n - logged n j ∧
      r.snapshotMissing = logged n j - stored n i ∧
      r.dataBlockMissing = (if i = 0 then logged n j else 0) ∧
      (r.icsrOk = true ↔ logged n j ≤ stored n i) := by
  have hall := (writeCommits_spec H outcome agentId n blockSize).1 (done_of_ok hok)
  obtain rfl := Except.ok.inj (hok.symm.trans (congrArg Prod.snd hall))
  rw [hall] at hfree ⊢
  intro ws r
  have hlogged : logged n j ≤ n := Nat.min_le_left _ _
  have hlog : r.logMissing = n - logged n j := by
    have hcount := countP_take hfree .logEntryMissing (i := i) (j := j) (a := logged n j)
      (b := n) fun k hk => by
        split_ifs with hl
        · exact iff_of_false (by rintro h; cases h) (by omega)
        · exact iff_of_true rfl ⟨by omega, hk⟩
    rwa [Nat.min_self] at hcount
  have hsnap : r.snapshotMissing = logged n j - stored n i := by
    have hcount := countP_take hfree .snapshotMissing (i := i) (j := j) (a := stored n i)
      (b := logged n j) fun k hk => by
        split_ifs with hl
        · simp only [VerifyIcsr.Looked.answer, Answer.of_eq_absent_iff, true_and,
            decide_eq_false_iff_not]
          omega
        · exact iff_of_false (by rintro h; cases h) (by omega)
    rwa [Nat.min_eq_right hlogged] at hcount
  have hdata : r.dataBlockMissing = if i = 0 then logged n j else 0 := by
    have hcount := countP_take hfree .dataBlockMissing (i := i) (j := j)
      (a := if i = 0 then 0 else n) (b := logged n j) fun k hk => by
        split_ifs with hl hi hi
        · exact iff_of_true (by rw [hi]; rfl) ⟨by omega, hl⟩
        · simp only [VerifyIcsr.Looked.answer, Answer.of_eq_absent_iff, true_and,
            decide_eq_false_iff_not]
          omega
        · exact iff_of_false (by rintro h; cases h) (by omega)
        · exact iff_of_false (by rintro h; cases h) (by omega)
    rw [Nat.min_eq_right hlogged] at hcount
    refine Eq.trans hcount ?_
    split_ifs <;> omega
  refine ⟨by rw [show r.checked = ((List.range n).map _).length from rfl, List.length_map,
    List.length_range], hlog, hsnap, hdata, ?_⟩
  have hverdict : r.icsrOk = (decide (r.snapshotMissing = 0) &&
      decide (r.dataBlockMissing = 0)) := rfl
  rw [hverdict, hsnap, hdata, Bool.and_eq_true, decide_eq_true_eq, decide_eq_true_eq]
  split_ifs with hi
  · have hstored : stored n i = 0 := by rw [stored, hi, Nat.zero_div, Nat.min_zero]
    omega
  · omega

/-- Hashes that tell the instant of a record. -/
def numbering : Hashes where
  dataHash _ := repeated 0
  snapshotId h := repeated (UInt8.ofNat (h.tsUs + 1))
  actionId e := repeated (UInt8.ofNat (e.tsMs + 1))

/-- The writes of two commits. -/
def twoCommits : List (Write Digest) := (writeCommits numbering (fun _ => .done) 7 2 1).1

theorem numbering_collisionless : numbering.Collisionless twoCommits := by
  have hentries : ∀ e ∈ entriesOf twoCommits, ∀ e' ∈ entriesOf twoCommits,
      numbering.actionId e = numbering.actionId e' → e = e' := by decide
  have hheaders : ∀ h ∈ headersOf twoCommits, ∀ h' ∈ headersOf twoCommits,
      numbering.snapshotId h = numbering.snapshotId h' → h = h' := by decide
  exact ⟨fun e he e' he' => hentries e he e' he', fun h hh h' hh' => hheaders h hh h' hh'⟩

/-- Two commits in the log, of which the store has kept the snapshot of the first. -/
theorem writeCommits_verified_two :
    (verifyIcsr (numbering.replay (twoCommits.take 2)).store
      (numbering.replay (twoCommits.take 5)).log (noFaults 0)
      ⟨(List.range 2).map ((WriteCommits.source 7 1).commit numbering)⟩).snapshotMissing = 1 :=
  (writeCommits_verified (show (writeCommits numbering (fun _ => .done) 7 2 1).2 = .ok _ from rfl)
    numbering_collisionless 2 5).2.2.1

end Torpor
