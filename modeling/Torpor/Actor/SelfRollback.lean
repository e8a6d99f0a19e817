import Torpor.Actor.Rollback

/-!
# Self-Rollback

`agent_self_rollback(depth)` computes the sequence number of its target as `seq - 1 - depth`,
as if the last snapshot carried `seq - 1` and its ancestors counted down from there. After a
rollback the last snapshot carries less, and the next commits leave a gap: the call then fails,
or goes further back than it was asked to, or logs a rollback to where the agent already is.

## Main results

* `Caller.FindsPath`, `Caller.agentSelfRollback_cases_path`: the checks that the call passes,
  and that it does nothing otherwise.
* `Caller.UndoesDepth`: what the call is for.
* `self_rollback_undoes_depth_iff`: in every reachable state it does this exactly if the ancestor
  that carries `seq - 1 - depth` is the one that many steps back.
* `self_rollback_after_rollback_fails`: after a rollback and a commit it fails.
-/

namespace Torpor

open ContentHash

variable {D : Type} [LinearOrder D] [ContentHash D]

/-- The `n`-th proper ancestor of a snapshot. -/
def ContentStore.nthAncestor (s : ContentStore D) : ℕ → D → Option D
  | 0, id => some id
  | n + 1, id => ((s.getHeader id).bind (·.parent)).bind (s.nthAncestor n)

omit [ContentHash D] in
/-- An ancestor on a chain is an ancestor, and at least as many sequence numbers below the tip
as it is steps below it. -/
theorem ContentStore.Chain.nthAncestor {s : ContentStore D} {tip x : D} {h : SnapshotHeader D}
    (hc : s.Chain tip h) {n : ℕ} (hx : s.nthAncestor n tip = some x) :
    s.AncestorOrSelf tip x ∧ n ≤ h.seq := by
  induction n generalizing tip h with
  | zero =>
      obtain rfl := Option.some.inj hx
      exact ⟨.refl, Nat.zero_le _⟩
  | succ n ih =>
      simp only [ContentStore.nthAncestor, hc.getHeader, Option.bind_some] at hx
      cases hc with
      | root hid hp => simp [hp] at hx
      | child hid hp hchain hlt =>
          rw [hp, Option.bind_some] at hx
          obtain ⟨hanc, hle⟩ := ih hchain hx
          exact ⟨.head ⟨h, hid, hp⟩ hanc, by omega⟩

namespace Caller

/-! ### What the call does -/

/-- The call passes its checks and finds a path from the last snapshot to its target. -/
structure FindsPath (c : Caller D) (depth : Int32) (tip : D) (path : List D) : Prop where
  alive : c.data.terminationRequested = false
  inRange : ¬ (depth < 1 ∨ maxSelfRollbackDepth < usize depth)
  last : c.data.lastSnapshot = some tip
  enough : 1 + usize depth ≤ c.data.seq
  found : (c.rollbackPath tip (c.data.seq - 1 - usize depth)).1 = .ok path

/-- The caller after the call has moved along a path. -/
def movedBack (c : Caller D) (depth : Int32) (tip : D) (path : List D) : Caller D :=
  let targetSeq := c.data.seq - 1 - usize depth
  let c := (c.rollbackPath tip targetSeq).2
  c.now.2.now.2.moveTip .selfRollback tip (path.getLastD tip) c.now.1 c.now.2.now.1
    (UInt8.ofNat (usize depth) :: leBytes 8 targetSeq)

theorem FindsPath.agentSelfRollback_eq {c : Caller D} {depth : Int32} {tip : D} {path : List D}
    (h : c.FindsPath depth tip path) :
    c.agentSelfRollback depth =
      (Int32.ofNat (c.data.seq - 1 - usize depth), c.movedBack depth tip path) := by
  simp only [agentSelfRollback, h.alive, Bool.false_eq_true, if_false, if_neg h.inRange, h.last,
    if_neg (Nat.not_lt.mpr h.enough), h.found]
  rfl

/-- The call moves along a path, or returns a negative value and has changed nothing but the
number of lookups. -/
theorem agentSelfRollback_cases_path (c : Caller D) (depth : Int32) :
    (∃ tip path, c.FindsPath depth tip path) ∨
      (¬ ∃ tip path, c.FindsPath depth tip path) ∧ (c.agentSelfRollback depth).1 < 0 ∧
        ∃ ios, (c.agentSelfRollback depth).2 = { c with world := { c.world with ios } } := by
  by_cases hpath : ∃ tip path, c.FindsPath depth tip path
  · exact .inl hpath
  · refine .inr ⟨hpath, ?_⟩
    have hfour : (-1 : Int32) < 0 ∧ (-2 : Int32) < 0 ∧ (-3 : Int32) < 0 ∧ (-4 : Int32) < 0 := by
      decide
    obtain ⟨hone, htwo, hthree, hfour⟩ := hfour
    simp only [agentSelfRollback]
    split
    · exact ⟨hone, c.world.ios, rfl⟩
    · rename_i halive
      split
      · exact ⟨hone, c.world.ios, rfl⟩
      · rename_i hrange
        split
        · exact ⟨htwo, c.world.ios, rfl⟩
        · rename_i tip htip
          split
          · exact ⟨hthree, c.world.ios, rfl⟩
          · rename_i hseq
            split
            · exact ⟨hfour, _, rfl⟩
            · rename_i path hok
              exact absurd ⟨tip, path, by simpa using halive, hrange, htip, by omega, hok⟩ hpath

/-! ### What the call is for -/

/-- The call succeeds if and only if the last snapshot has as many proper ancestors. The last
of them then becomes the last snapshot, and the value of the call and the one entry it logs
carry its sequence number. -/
structure UndoesDepth (c : Caller D) (depth : Int32) : Prop where
  succeeds : 0 ≤ (c.agentSelfRollback depth).1 ↔
    ∃ tip x, c.data.lastSnapshot = some tip ∧
      c.world.store.nthAncestor (usize depth) tip = some x
  moves : ∀ tip x, c.data.lastSnapshot = some tip →
    c.world.store.nthAncestor (usize depth) tip = some x →
      (c.agentSelfRollback depth).2.data.lastSnapshot = some x ∧
      ∃ h, c.world.store.getHeader x = some h ∧
        (c.agentSelfRollback depth).1.toInt = h.seq ∧
        ∃ e env, (c.agentSelfRollback depth).2.world.writes =
            c.world.writes ++ [.append .runtime e] ∧ e.hashBefore = tip ∧ e.hashAfter = x ∧
          e.emitPayload = some env ∧ env.emitType = EmitType.selfRollback.asU8 ∧
          env.payload = UInt8.ofNat (usize depth) :: leBytes 8 h.seq

/-- Of the last snapshot and its ancestors, the one that many steps back, and only this one,
carries `seq - 1 - depth`. -/
def CountsBack (c : Caller D) (depth : Int32) : Prop :=
  ∀ tip x, c.data.lastSnapshot = some tip → c.world.store.AncestorOrSelf tip x →
    (c.world.store.nthAncestor (usize depth) tip = some x ↔
      ∃ n, c.world.store.HasSeq x n ∧ n + 1 + usize depth = c.data.seq)

end Caller

namespace Actor

variable {a : Actor D} {depth : Int32} {tip x : D}

omit [LinearOrder D] [ContentHash D] in
/-- A depth within its bounds. -/
theorem usize_of_depth (h1 : 1 ≤ depth) (h3 : depth ≤ 3) :
    ¬ (depth < 1 ∨ Caller.maxSelfRollbackDepth < usize depth) ∧ 1 ≤ usize depth ∧
      usize depth ≤ 3 := by
  have hcases : depth = 1 ∨ depth = 2 ∨ depth = 3 := by
    rw [← Int32.toInt_inj, ← Int32.toInt_inj, ← Int32.toInt_inj]
    rw [Int32.le_iff_toInt_le] at h1 h3
    simp at h1 h3 ⊢
    omega
  rcases hcases with rfl | rfl | rfl <;> decide

/-- In a reachable state the call finds a path if an ancestor carries its target. -/
theorem Sound.findsPath (hs : a.Sound) (halive : a.caller.data.terminationRequested = false)
    (h1 : 1 ≤ depth) (h3 : depth ≤ 3) (hlast : a.ledger.lastSnapshot = some tip)
    (hx : a.ledger.store.AncestorOrSelf tip x) {n : ℕ} (hn : a.ledger.store.HasSeq x n)
    (hseq : n + 1 + usize depth = a.caller.data.seq) :
    ∃ path, a.caller.FindsPath depth tip path ∧ path.getLastD tip = x := by
  have htarget : a.caller.data.seq - 1 - usize depth = n := by omega
  obtain ⟨h, hc, -⟩ := hs.anchored tip hlast
  obtain ⟨path, y, hpath, hend, hy, hyseq⟩ := hc.rollbackPath_eq_ok hx hn
  obtain rfl : x = y := hc.ancestor_unique hx hy hn hyseq
  refine ⟨path, ⟨halive, (usize_of_depth h1 h3).1, hlast, by omega, ?_⟩, ?_⟩
  · rw [htarget, rollbackPath_eq hs, hpath]
  · rw [List.getLastD_eq_getLast?, hend]
    rfl

/-- A path that the call finds ends at an ancestor that carries its target. -/
theorem Sound.of_findsPath (hs : a.Sound) {path : List D}
    (h : a.caller.FindsPath depth tip path) :
    a.ledger.store.AncestorOrSelf tip (path.getLastD tip) ∧
      a.ledger.store.HasSeq (path.getLastD tip) (a.caller.data.seq - 1 - usize depth) := by
  have hpath := h.found
  rw [rollbackPath_eq hs] at hpath
  obtain ⟨x, hend, hx, hxseq⟩ := ContentStore.walk_eq_ok hpath
  have hlast : path.getLastD tip = x := by
    rw [List.getLastD_eq_getLast?, hend]
    rfl
  rw [hlast]
  exact ⟨hx, hxseq⟩

/-- Moving back logs one entry and moves the tip to the end of the path. -/
theorem Sound.ledger_movedBack (hs : a.Sound) (depth : Int32) (tip : D) (path : List D) :
    ∃ e env, (a.caller.movedBack depth tip path).ledger =
        { a.ledger.extend [.append .runtime e] with lastSnapshot := some (path.getLastD tip) } ∧
      e.hashBefore = tip ∧ e.hashAfter = path.getLastD tip ∧ e.emitPayload = some env ∧
      env.emitType = EmitType.selfRollback.asU8 ∧
      env.payload =
        UInt8.ofNat (usize depth) :: leBytes 8 (a.caller.data.seq - 1 - usize depth) := by
  simp only [Caller.movedBack]
  generalize a.caller.data.seq - 1 - usize depth = targetSeq
  generalize UInt8.ofNat (usize depth) :: leBytes 8 targetSeq = payload
  have hsame : (a.caller.rollbackPath tip targetSeq).2.now.2.now.2.ledger = a.ledger := rfl
  have hmove := ledger_moveTip (c := (a.caller.rollbackPath tip targetSeq).2.now.2.now.2)
    hs.noFault .selfRollback tip (path.getLastD tip)
    (a.caller.rollbackPath tip targetSeq).2.now.1
    (a.caller.rollbackPath tip targetSeq).2.now.2.now.1 payload
  rw [hsame] at hmove
  exact ⟨_, _, hmove, rfl, rfl, rfl, rfl, rfl⟩

/-- In every reachable state of an agent that has not terminated, with a sequence number below
`2 ^ 31`, a self-rollback by one to three steps does what it is for exactly if, of the last
snapshot and its ancestors, the one that many steps back and only this one carries
`seq - 1 - depth`. -/
theorem self_rollback_undoes_depth_iff (hreach : a.Reachable)
    (halive : a.caller.data.terminationRequested = false)
    (hseq : a.caller.data.seq < 2 ^ 31) (h1 : 1 ≤ depth) (h3 : depth ≤ 3) :
    a.caller.UndoesDepth depth ↔ a.caller.CountsBack depth := by
  have hs := hreach.sound
  have hvalue : (Int32.ofNat (a.caller.data.seq - 1 - usize depth)).toInt =
      (a.caller.data.seq - 1 - usize depth : ℕ) :=
    Int32.toInt_ofNat_of_lt (by omega)
  constructor
  · intro hundo tip x hlast hx
    obtain ⟨htip, hc, hbelow⟩ := hs.anchored tip hlast
    constructor
    · intro hnth
      obtain ⟨-, h, hh, hres, -⟩ := hundo.moves tip x hlast hnth
      rcases a.caller.agentSelfRollback_cases_path depth with ⟨tip', path, hpath⟩ | ⟨-, hneg, -⟩
      · rw [hpath.agentSelfRollback_eq, hvalue] at hres
        have hle := hpath.enough
        exact ⟨h.seq, ⟨h, hh, rfl⟩, by omega⟩
      · rw [Int32.lt_iff_toInt_lt, hres] at hneg
        simp at hneg
        omega
    · rintro ⟨n, hn, htarget⟩
      obtain ⟨path, hpath, rfl⟩ := hs.findsPath halive h1 h3 hlast hx hn htarget
      have hsucceeds : 0 ≤ (a.caller.agentSelfRollback depth).1 := by
        rw [hpath.agentSelfRollback_eq, Int32.le_iff_toInt_le, hvalue]
        simp
      obtain ⟨tip', y, hlast', hy⟩ := hundo.succeeds.mp hsucceeds
      obtain rfl := Option.some.inj (hlast.symm.trans hlast')
      obtain ⟨hmoved, -⟩ := hundo.moves tip y hlast hy
      obtain ⟨e, env, hledger, -⟩ := hs.ledger_movedBack depth tip path
      rw [hpath.agentSelfRollback_eq] at hmoved
      have hend : (a.caller.movedBack depth tip path).data.lastSnapshot =
          some (path.getLastD tip) := congrArg Ledger.lastSnapshot hledger
      obtain rfl := Option.some.inj (hend.symm.trans hmoved)
      exact hy
  · intro hcounts
    have hfinds : ∀ tip x, a.caller.data.lastSnapshot = some tip →
        a.caller.world.store.nthAncestor (usize depth) tip = some x →
        ∃ path n, a.caller.FindsPath depth tip path ∧ path.getLastD tip = x ∧
          a.caller.world.store.HasSeq x n ∧ n + 1 + usize depth = a.caller.data.seq := by
      intro tip x hlast hnth
      obtain ⟨htip, hc, -⟩ := hs.anchored tip hlast
      obtain ⟨hx, -⟩ := hc.nthAncestor hnth
      obtain ⟨n, hn, htarget⟩ := (hcounts tip x hlast hx).mp hnth
      obtain ⟨path, hpath, hend⟩ := hs.findsPath halive h1 h3 hlast hx hn htarget
      exact ⟨path, n, hpath, hend, hn, htarget⟩
    refine ⟨⟨fun hsucceeds => ?_, ?_⟩, ?_⟩
    · rcases a.caller.agentSelfRollback_cases_path depth with ⟨tip, path, hpath⟩ | ⟨-, hneg, -⟩
      · obtain ⟨hx, hxseq⟩ := hs.of_findsPath hpath
        have hle := hpath.enough
        exact ⟨tip, _, hpath.last, (hcounts tip _ hpath.last hx).mpr ⟨_, hxseq, by omega⟩⟩
      · rw [Int32.lt_iff_toInt_lt] at hneg
        rw [Int32.le_iff_toInt_le] at hsucceeds
        omega
    · rintro ⟨tip, x, hlast, hnth⟩
      obtain ⟨path, n, hpath, -⟩ := hfinds tip x hlast hnth
      rw [hpath.agentSelfRollback_eq, Int32.le_iff_toInt_le, hvalue]
      simp
    · intro tip x hlast hnth
      obtain ⟨path, n, hpath, rfl, ⟨h, hh, rfl⟩, htarget⟩ := hfinds tip x hlast hnth
      have hn : a.caller.data.seq - 1 - usize depth = h.seq := by omega
      obtain ⟨e, env, hledger, hbefore, hafter, henv, htype, hpayload⟩ :=
        hs.ledger_movedBack depth tip path
      rw [hpath.agentSelfRollback_eq]
      refine ⟨congrArg Ledger.lastSnapshot hledger, h, hh, ?_, e, env,
        congrArg Ledger.writes hledger, hbefore, hafter, henv, htype, ?_⟩
      · rw [hvalue, hn]
      · rw [hpayload, hn]

/-- The header of the parent of the last snapshot. -/
def parentHeader (a : Actor D) : Option (SnapshotHeader D) :=
  a.tipHeader.bind fun h => h.parent.bind a.ledger.store.getHeader

/-- An agent with two commits and no others counts one step back. -/
theorem countsBack_of_twoCommits {h hp : SnapshotHeader D} (htip : a.tipHeader = some h)
    (hparent : a.parentHeader = some hp) (hone : h.seq = 1) (hzero : hp.seq = 0)
    (hroot : hp.parent = none) (hseq : a.caller.data.seq = 2) : a.caller.CountsBack 1 := by
  intro tip x hlast hx
  have hid : a.caller.world.store.getHeader tip = some h := by
    obtain ⟨tip', hlast', hid⟩ := Option.bind_eq_some_iff.mp htip
    obtain rfl := Option.some.inj (hlast.symm.trans hlast')
    exact hid
  obtain ⟨p, hp', hget⟩ : ∃ p, h.parent = some p ∧
      a.caller.world.store.getHeader p = some hp := by
    rw [parentHeader, htip, Option.bind_some] at hparent
    exact Option.bind_eq_some_iff.mp hparent
  have hnth : a.caller.world.store.nthAncestor (usize 1) tip = some p := by
    change ((a.caller.world.store.getHeader tip).bind _).bind _ = _
    rw [hid, Option.bind_some, hp']
    rfl
  have husize : usize 1 = 1 := by decide
  rw [hnth, hseq, husize]
  rcases hx.of_child hid hp' with rfl | hx
  · constructor
    · intro heq
      obtain rfl := Option.some.inj heq
      obtain rfl := Option.some.inj (hid.symm.trans hget)
      omega
    · rintro ⟨n, hn, htarget⟩
      have := hn.eq hid
      omega
  · obtain rfl := hx.of_root hget hroot
    exact ⟨fun _ => ⟨0, ⟨hp, hget, hzero⟩, rfl⟩, fun _ => rfl⟩

/-- Two commits, each in a cycle of its own; the guest of the second one still runs. -/
def twoCommits : List (Event (List ℕ)) :=
  .start :: dataCycle [.commitBarrier] ++
    [.recv (.data [] none) [], .host [0, 0, 0, 0] .commitBarrier]

/-- There a self-rollback by one step does what it is for. -/
theorem self_rollback_undoes_depth_twoCommits :
    ∃ a : Actor (List ℕ), a.Reachable ∧ a.phase = .guest .data ∧ a.caller.UndoesDepth 1 := by
  have hrun : (Machine.run step sampleAgent twoCommits).any (fun a =>
      decide (a.phase = .guest .data ∧ a.caller.data.terminationRequested = false ∧
        a.caller.data.seq = 2) && a.tipHeader.any (fun h => decide (h.seq = 1)) &&
          a.parentHeader.any fun h => decide (h.seq = 0 ∧ h.parent = none)) = true := by
    decide +kernel
  obtain ⟨a, ha, hcheck⟩ := (Option.any_eq_true _ _).mp hrun
  obtain ⟨hcheck, hparent⟩ := Bool.and_eq_true_iff.mp hcheck
  obtain ⟨hstate, htip⟩ := Bool.and_eq_true_iff.mp hcheck
  obtain ⟨hphase, halive, hseq⟩ := of_decide_eq_true hstate
  obtain ⟨h, hh, hone⟩ := (Option.any_eq_true _ _).mp htip
  obtain ⟨hp, hhp, hroot⟩ := (Option.any_eq_true _ _).mp hparent
  obtain ⟨hzero, hnone⟩ := of_decide_eq_true hroot
  have hreach : a.Reachable := ⟨_, _, _, _, twoCommits, rfl, ha⟩
  refine ⟨a, hreach, hphase, (self_rollback_undoes_depth_iff hreach halive (by omega)
    (by decide) (by decide)).mpr ?_⟩
  exact countsBack_of_twoCommits hh hhp (of_decide_eq_true hone) hzero hnone hseq

/-- Three commits, a rollback to the first of them, and one more commit, whose parent is the
first one. -/
def commitAfterRollback : List (Event (List ℕ)) :=
  rolledBackRun ++ [.recv (.data [] none) [], .host [0, 0, 0, 0] .commitBarrier]

/-- A self-rollback by one step then fails, although there is a commit to go back to. -/
theorem self_rollback_after_rollback_fails :
    ∃ a : Actor (List ℕ), a.Reachable ∧ a.phase = .guest .data ∧
      a.caller.data.terminationRequested = false ∧ a.caller.data.seq < 2 ^ 31 ∧
      ¬ a.caller.UndoesDepth 1 := by
  have hrun : (Machine.run step sampleAgent commitAfterRollback).any (fun a =>
      decide (a.phase = .guest .data ∧ a.caller.data.terminationRequested = false ∧
        a.caller.data.seq = 4 ∧ (a.caller.agentSelfRollback 1).1 = -4) &&
          a.ledger.lastSnapshot.any fun tip =>
            (a.caller.world.store.nthAncestor (usize 1) tip).isSome) = true := by
    decide +kernel
  obtain ⟨a, ha, hcheck⟩ := (Option.any_eq_true _ _).mp hrun
  obtain ⟨hstate, hcheck⟩ := Bool.and_eq_true_iff.mp hcheck
  obtain ⟨hphase, halive, hseq, hfails⟩ := of_decide_eq_true hstate
  obtain ⟨tip, hlast, hsome⟩ := (Option.any_eq_true _ _).mp hcheck
  obtain ⟨x, hx⟩ := Option.isSome_iff_exists.mp hsome
  refine ⟨a, ⟨_, _, _, _, commitAfterRollback, rfl, ha⟩, hphase, halive, by omega,
    fun hundo => ?_⟩
  have hok := hundo.succeeds.mpr ⟨tip, x, hlast, hx⟩
  rw [hfails] at hok
  exact absurd hok (by decide)

end Actor

end Torpor
