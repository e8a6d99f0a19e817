import Torpor.System.Basic

/-!
# What a Crash Leaves Behind

Whatever the agents, their supervisor and the messages on their way do, and wherever a crash
cuts the journal: every digest that an entry of the log carries as a state is zero or the
digest of a stored header, and the block of every stored header is stored.

## Main results

* `Disk.Csr`: the property, of the two databases.
* `Write.Justified`: what a write needs in the databases before it.
* `Ledger.Backed.step`: every move of an agent writes what is justified.
* `csr_at_every_crash_point`: the property holds at every prefix of the journal, in every run
  of the system.
-/

namespace Torpor

open ContentHash

variable {D : Type} [LinearOrder D] [ContentHash D]

/-! ### The property -/

/-- A digest that may stand for a state: zero, or that of a stored header. -/
def ContentStore.Refers (s : ContentStore D) (x : D) : Prop :=
  x = zero ∨ (s.getHeader x).isSome

/-- The log and the store agree: entries refer to stored headers, headers to stored blocks. -/
structure Disk.Csr (d : Disk D) : Prop where
  entries : ∀ id e, d.log.get id = some e → d.store.Refers e.hashBefore ∧ d.store.Refers e.hashAfter
  blocks : ∀ id h, d.store.getHeader id = some h → (d.store.getBlock h.dataHash).isSome

/-- What a write needs in the databases before it. -/
def Write.Justified (d : Disk D) : Write D → Prop
  | .putBlock _ => True
  | .putSnapshot header => (d.store.getBlock header.dataHash).isSome
  | .append _ e => d.store.Refers e.hashBefore ∧ d.store.Refers e.hashAfter

/-- The property at every prefix of a journal. -/
def CsrAlong (ws : List (Write D)) : Prop := ∀ pre, pre <+: ws → (Disk.replay pre).Csr

/-- Further writes keep what may stand for a state. -/
theorem ContentStore.Refers.mono {ws ws' : List (Write D)} {x : D}
    (h : (Disk.replay ws).store.Refers x) (hle : ws <+: ws') :
    (Disk.replay ws').store.Refers x := by
  obtain ⟨rest, rfl⟩ := hle
  rcases h with h | h
  · exact .inl h
  · obtain ⟨header, hheader⟩ := Option.isSome_iff_exists.mp h
    exact .inr (Option.isSome_iff_exists.mpr
      ⟨header, Disk.replay_getHeader_mono ws rest hheader⟩)

/-- A justified write keeps the property. -/
theorem Disk.Csr.concat {ws : List (Write D)} {w : Write D} (h : (Disk.replay ws).Csr)
    (hw : w.Justified (Disk.replay ws)) : (Disk.replay (ws ++ [w])).Csr := by
  have hrefers : ∀ x, (Disk.replay ws).store.Refers x → (Disk.replay (ws ++ [w])).store.Refers x :=
    fun _ hx => hx.mono (List.prefix_append _ _)
  have hblock : ∀ x, ((Disk.replay ws).store.getBlock x).isSome →
      ((Disk.replay (ws ++ [w])).store.getBlock x).isSome := by
    intro x hx
    obtain ⟨b, hb⟩ := Option.isSome_iff_exists.mp hx
    exact Option.isSome_iff_exists.mpr ⟨b, Disk.replay_getBlock_mono ws [w] hb⟩
  constructor
  · intro id e he
    have hold : (Disk.replay ws).store.Refers e.hashBefore ∧
        (Disk.replay ws).store.Refers e.hashAfter := by
      rw [Disk.replay_concat] at he
      cases w with
      | putBlock data => exact h.entries id e he
      | putSnapshot header => exact h.entries id e he
      | append writer entry =>
          simp only [Disk.apply, CausalLog.get_append] at he
          split_ifs at he
          · cases he
            exact hw
          · exact h.entries id e he
    exact ⟨hrefers _ hold.1, hrefers _ hold.2⟩
  · intro id header hheader
    rw [Disk.replay_concat] at hheader
    refine hblock _ ?_
    cases w with
    | putBlock data => exact h.blocks id header hheader
    | putSnapshot header' =>
        simp only [Disk.apply, ContentStore.getHeader_putSnapshot] at hheader
        split_ifs at hheader
        · cases hheader
          exact hw
        · exact h.blocks id header hheader
    | append writer entry => exact h.blocks id header hheader

theorem CsrAlong.concat {ws : List (Write D)} {w : Write D} (h : CsrAlong ws)
    (hw : w.Justified (Disk.replay ws)) : CsrAlong (ws ++ [w]) := by
  intro pre hpre
  rcases List.prefix_concat_iff.mp hpre with rfl | hpre
  · exact (h ws List.prefix_rfl).concat hw
  · exact h pre hpre

theorem csrAlong_nil : CsrAlong ([] : List (Write D)) := by
  intro pre hpre
  obtain rfl := List.prefix_nil.mp hpre
  exact ⟨fun _ _ h => (by cases h), fun _ _ h => (by cases h)⟩

/-! ### Agents -/

/-- The journal has the property at every prefix, and what the agent keeps refers to stored
headers: its last snapshot, and the record of its commit in progress. -/
structure Ledger.Backed (l : Ledger D) : Prop where
  journal : CsrAlong l.writes
  tip : l.store.Refers l.tipHash
  pending : ∀ p, l.pendingCommit = some p →
    l.store.Refers p.hashBefore ∧ l.store.Refers p.hashAfter

theorem Ledger.Backed.refers_extend {l : Ledger D} {x : D} (h : l.store.Refers x)
    (ws : List (Write D)) : (l.extend ws).store.Refers x := by
  have hreplay : (Disk.replay l.writes).store.Refers x := h
  exact hreplay.mono (List.prefix_append _ _)

/-- A justified write leaves the agent backed. -/
theorem Ledger.Backed.extend {l : Ledger D} {w : Write D} (h : l.Backed)
    (hw : w.Justified (Disk.replay l.writes)) : (l.extend [w]).Backed :=
  ⟨h.journal.concat hw, refers_extend h.tip [w], fun p hp =>
    ⟨refers_extend (h.pending p hp).1 [w], refers_extend (h.pending p hp).2 [w]⟩⟩

/-- Every move of an agent writes what is justified, and leaves the agent backed. -/
theorem Ledger.Backed.step {l l' : Ledger D} (h : l.Backed) (hstep : Ledger.Step l l') :
    l'.Backed := by
  cases hstep with
  | calm hcalm =>
      cases hcalm with
      | @quiet e _ hbefore hafter =>
          refine h.extend ⟨?_, ?_⟩
          · rw [hbefore]
            exact h.tip
          · rw [hafter]
            exact h.tip
      | @move tip target seq e htip _ hseq _ hbefore hafter =>
          have htarget : l.store.Refers target := by
            obtain ⟨header, hheader, -⟩ := hseq
            exact .inr (Option.isSome_iff_exists.mpr ⟨header, hheader⟩)
          have htip' : l.tipHash = tip := by
            rw [Ledger.tipHash, htip]
            rfl
          have hmoved := h.extend (w := .append .runtime e)
            ⟨by rw [hbefore, ← htip']; exact h.tip, by rw [hafter]; exact htarget⟩
          exact ⟨hmoved.journal, Ledger.Backed.refers_extend htarget _, hmoved.pending⟩
  | block data => exact h.extend trivial
  | @commit header p hblock hparent hseq hbefore hafter =>
      have hmoved := h.extend (w := .putSnapshot header) hblock
      have hsnapshot : (l.extend [.putSnapshot header]).store.Refers (snapshotId header) := by
        refine .inr (Option.isSome_iff_exists.mpr ⟨header, ?_⟩)
        simp [store, Ledger.extend, Disk.apply, ContentStore.getHeader_putSnapshot]
      refine ⟨hmoved.journal, hsnapshot, fun q hq => ?_⟩
      obtain rfl := Option.some.inj hq
      rw [hbefore, hafter]
      exact ⟨Ledger.Backed.refers_extend h.tip _, hsnapshot⟩
  | @publish p e writer hp _ hbefore hafter _ =>
      have hpending := h.pending p hp
      have hmoved := h.extend (w := .append writer e)
        ⟨by rw [hbefore]; exact hpending.1, by rw [hafter]; exact hpending.2⟩
      exact ⟨hmoved.journal, hmoved.tip, fun q hq => (by cases hq)⟩
  | forget => exact ⟨h.journal, h.tip, fun q hq => (by cases hq)⟩
  | fail error => exact ⟨h.journal, h.tip, h.pending⟩
  | raise => exact ⟨h.journal, h.tip, h.pending⟩
  | terminate => exact ⟨h.journal, h.tip, h.pending⟩
  | restore => exact ⟨h.journal, h.tip, fun q hq => (by cases hq)⟩

/-- An agent in its world is coherent and backed. -/
def Actor.Backed (a : Actor D) : Prop := a.Coherent ∧ a.ledger.Backed

theorem backed_new (id : AgentId) (params : BuildParams) (memory : List UInt8) {w : World D}
    (hw : CsrAlong w.writes) : (Actor.new id params memory w).Backed :=
  ⟨trivial, hw, .inl rfl, fun p hp => (by cases hp)⟩

theorem Actor.Backed.grow {a : Actor D} {w w' : World D} (ha : (a.inWorld w).Backed)
    (hgrow : w.writes <+: w'.writes) (hjournal : CsrAlong w'.writes) :
    (a.inWorld w').Backed :=
  ⟨ha.1, hjournal, ContentStore.Refers.mono ha.2.tip hgrow, fun p hp =>
    ⟨ContentStore.Refers.mono (ha.2.pending p hp).1 hgrow,
      ContentStore.Refers.mono (ha.2.pending p hp).2 hgrow⟩⟩

theorem Actor.Backed.step {a a' : Actor D} {ev : Event D} (ha : a.Backed)
    (hothers : ∀ ws c k h, ev ≠ .others ws c k h) (h : a.step ev = some a') : a'.Backed := by
  refine ⟨step_coherent ha.1 h, ?_⟩
  rcases step_ledger ha.1 h with hsteps | ⟨ws, c, k, r, heq, _, _⟩
  · exact hsteps.invariant (fun _ _ hl hstep => hl.step hstep) ha.2
  · exact absurd heq (hothers ws c k r)

/-- Being backed is an invariant of all agents. -/
theorem agentInvariant_backed :
    AgentInvariant (D := D) CsrAlong (fun _ _ => True) Actor.Backed where
  coherent _ ha := ha.1
  nil := csrAlong_nil
  cut _ _ hle h pre hpre := h pre (hpre.trans hle)
  scheduler _ _ _ _ h := h.concat ⟨.inl rfl, .inl rfl⟩
  rollback _ _ := trivial
  message _ _ _ _ _ := trivial
  new id params memory _ hw := backed_new id params memory hw
  grow _ _ _ hgrow hjournal ha := ha.grow hgrow hjournal
  kept _ _ _ _ ha _ hothers h := ⟨(ha.step hothers h).2.journal, ha.step hothers h⟩

/-! ### Every crash point -/

/-- In every run of the system, at every prefix of the journal, entries refer to stored headers
and headers to stored blocks. -/
theorem csr_at_every_crash_point {w : World D} {evs : List (SystemEvent D)} {s : System D}
    (hrun : Machine.run System.step (System.boot w) evs = some s) {pre : List (Write D)}
    (hpre : pre <+: s.world.writes) : (Disk.replay pre).Csr := by
  have hposts : Machine.Along System.step (System.PostsHave fun _ _ => True) (System.boot w)
      evs :=
    Machine.along_of_forall (fun _ _ _ _ _ => trivial) _ _
  exact (agentInvariant_backed.holds_of_run hposts hrun).journal pre hpre

/-- Two agents, a commit of each, and a rollback of the first one. -/
def twoAgents : List (SystemEvent (List ℕ)) :=
  [.spawn 0 10 sampleParams [0, 0, 0, 0], .spawn 1 11 sampleParams [0, 0, 0, 0], .act 0 .start,
    .act 1 .start, .post 0 (.data [] none), .post 1 (.data [] none), .deliver 0 [], .deliver 1 [],
    .act 0 (.host [0, 0, 0, 0] .commitBarrier), .act 1 (.host [0, 0, 0, 0] .commitBarrier),
    .act 0 (.host [0, 0, 0, 0] (.emit 1 0 4)), .act 0 (.ret [0, 0, 0, 0]),
    .act 1 (.ret [0, 0, 0, 0]), .rollbackOpen 0 10 0 ⟨1, 1⟩, .rollbackSend 0 (some 0),
    .deliver 0 [], .rollbackClose 0 ⟨2, 2⟩]

/-- Its journal has the property wherever it is cut. -/
theorem csr_at_every_crash_point_twoAgents :
    ∃ s : System (List ℕ), Machine.run System.step (System.boot Actor.blankWorld) twoAgents =
      some s ∧ 12 ≤ s.world.writes.length ∧
      ∀ pre, pre <+: s.world.writes → (Disk.replay pre).Csr := by
  have hrun : (Machine.run System.step (System.boot Actor.blankWorld) twoAgents).any (fun s =>
      decide (12 ≤ s.world.writes.length)) = true := by
    decide +kernel
  obtain ⟨s, hs, hlength⟩ := (Option.any_eq_true _ _).mp hrun
  exact ⟨s, hs, of_decide_eq_true hlength, fun _ hpre => csr_at_every_crash_point hs hpre⟩

end Torpor
