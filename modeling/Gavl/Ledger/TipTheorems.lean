import Gavl.Ledger.GrowthTheorems
import Gavl.Ledger.PruneTheorems
import Gavl.Store.Store

/-!
# The tip of a writer

The slot and the link that a writer's next write takes. A write made for the tip is taken at once;
what else reaches the ledger leaves the tip of a writer where it is, if nobody else signs for it.
-/

namespace Gavl

variable {C : Crypto} {params : ChainParams} {w : Write}

namespace Ledger

open WriterChain

variable {L : Ledger} {heads : Heads} {v root : String}

/-- The seq and the link of the writer's next write. -/
def tip (L : Ledger) (v : String) : ℕ × Option String :=
  ((L.chains.get? v).map (fun c => (c.nextSeq, c.headId))).getD (0, none)

theorem tip_of_get? {c : WriterChain} (hc : L.chains.get? v = some c) :
    L.tip v = (c.nextSeq, c.headId) := by
  unfold tip
  rw [hc]
  rfl

theorem tip_of_none (hc : L.chains.get? v = none) : L.tip v = (0, none) := by
  unfold tip
  rw [hc]
  rfl

/-- A chain that a write brings up starts at the bottom. -/
theorem tip_chainFor (L : Ledger) (w : Write) :
    L.tip w.writer = ((L.chainFor w).nextSeq, (L.chainFor w).headId) := by
  cases hc : L.chains.get? w.writer with
  | none =>
    rw [tip_of_none hc, chainFor_of_none hc]
    rfl
  | some c => rw [tip_of_get? hc, chainFor_of_get? hc]

/-! ## Floors -/

/-- A chain without a link below its floor starts at the bottom. -/
def Floored (L : Ledger) : Prop :=
  ∀ v c, L.chains.get? v = some c → c.baseHeadId = none → c.baseSeq = 0

theorem Floored.set (h : L.Floored) {c : WriterChain} {pending : OrderedMap String (OrderedMap ℕ Pending)}
    {tick : ℕ} (hc : c.baseHeadId = none → c.baseSeq = 0) :
    (⟨L.chains.set v c, pending, tick⟩ : Ledger).Floored := by
  intro u d hd hnone
  rw [show (⟨L.chains.set v c, pending, tick⟩ : Ledger).chains = L.chains.set v c from rfl,
    OrderedMap.get?_set] at hd
  split_ifs at hd
  · obtain rfl := Option.some.inj hd
    exact hc hnone
  · exact h u d hd hnone

theorem Floored.apply (h : L.Floored) (skip : Bool) (w : Write) :
    (L.apply C params skip w).1.Floored := by
  obtain ⟨hcont, -⟩ : (L.chainFor w).Continues
      (applyTo C params skip (L.chainFor w) (L.live w.writer) (L.tick + 1) w).1 ∧ _ :=
    applyTo_continues _ _ _ w
  rw [apply_eq]
  refine h.set fun hnone => ?_
  rw [hcont.baseHeadId] at hnone
  rw [hcont.baseSeq]
  cases hc : L.chains.get? w.writer with
  | none =>
    rw [chainFor_of_none hc]
    rfl
  | some c =>
    rw [chainFor_of_get? hc] at hnone ⊢
    exact h _ c hc hnone

theorem Floored.seedCheckpoint (h : L.Floored) (heads : Heads) :
    (L.seedCheckpoint params heads).Floored := by
  unfold Ledger.seedCheckpoint
  induction heads.entries generalizing L with
  | nil => exact h
  | cons e l ih => exact ih (h.set fun hnone => by cases hnone)

theorem Floored.pruneBelow (h : L.Floored) (hL : L.Sound C params) (hheld : L.Holds heads) :
    (L.pruneBelow C params heads).Floored := by
  intro u d hd hnone
  rw [get?_pruneBelow] at hd
  obtain ⟨c, hc, rfl⟩ := Option.map_eq_some_iff.mp hd
  cases hh : heads.get? u with
  | none =>
    rw [hh] at hnone
    exact h u c hc hnone
  | some x =>
    rw [hh] at hnone
    simp only at hnone ⊢
    split_ifs at hnone ⊢ with hlt
    · exact h u c hc hnone
    · -- what is left starts above the head, and links to it
      obtain ⟨c', hc', ⟨hfloor, -⟩ | ⟨hbase, y, hy, hid⟩⟩ := idAt_cases (hheld u x hh)
      · obtain rfl := Option.some.inj (hc.symm.trans hc')
        omega
      · obtain rfl := Option.some.inj (hc.symm.trans hc')
        obtain ⟨hext, -⟩ := (hL.chain u c hc).prunedAt hbase hy hid
        rw [hL.writer u c hc] at hext
        rw [hext.base.2] at hnone
        cases hnone

theorem Reachable.floored (h : L.Reachable C params) : L.Floored := by
  induction h with
  | empty => exact fun _ _ hc => by simp [Ledger.empty] at hc
  | apply _ w ih => exact ih.apply false w
  | replay _ w _ ih => exact ih.apply true w
  | seedCheckpoint _ heads ih => exact ih.seedCheckpoint heads
  | pruneBelow hL hheld ih => exact ih.pruneBelow hL.sound hheld

/-- A post takes the tip: the head that the ledger lists is the one below it. -/
theorem Reachable.nextPost_eq (h : L.Reachable C params) (v : String) : L.nextPost v = L.tip v := by
  unfold nextPost
  rw [get?_heads]
  unfold headOf
  cases hc : L.chains.get? v with
  | none =>
    rw [tip_of_none hc]
    rfl
  | some c =>
    have hsound := h.sound.chain v c hc
    rw [tip_of_get? hc, Option.bind_some, hsound.head_eq]
    cases hid : c.headId with
    | none =>
      -- no write, and nothing below the floor
      have hwrites : c.writes = [] := by
        unfold headId at hid
        cases hlast : c.writes.getLast? with
        | none => exact List.getLast?_eq_none_iff.mp hlast
        | some w =>
          rw [hlast] at hid
          cases hid
      have hbase : c.baseHeadId = none := by
        unfold headId at hid
        rw [hwrites] at hid
        exact hid
      have hnext : c.nextSeq = 0 := by
        unfold nextSeq
        rw [hwrites, h.floored v c hc hbase]
        rfl
      rw [hnext]
      rfl
    | some id =>
      have hpos : 0 < c.nextSeq := by
        apply Nat.pos_of_ne_zero
        intro hzero
        unfold nextSeq at hzero
        have hbase : c.baseSeq = 0 := by omega
        have hwrites : c.writes = [] := List.length_eq_zero_iff.mp (by omega)
        have hnone := hsound.base hbase
        unfold headId at hid
        rw [hwrites, hnone] at hid
        cases hid
      have hnext : c.nextSeq - 1 + 1 = c.nextSeq := by omega
      show (c.nextSeq - 1 + 1, some id) = (c.nextSeq, some id)
      rw [hnext]

/-! ## The tip of one writer under what is done to the ledger -/

/-- Nothing of the writer waits, and its chain is of the plot with this root, if it is of any. -/
structure Ready (L : Ledger) (v root : String) : Prop where
  quiet : L.pendingOf v = ∅
  plot : ∀ c, L.chains.get? v = some c → c.plotRoot = none ∨ c.plotRoot = some root

theorem Ready.live_eq (h : L.Ready v root) : L.live v = ∅ := by
  apply live_eq_empty
  intro seq e he
  rw [h.quiet] at he
  cases he

/-- The chain that a write of the plot goes on is of that plot, if it is of any. -/
theorem Ready.chainFor (h : L.Ready w.writer w.plot.root) :
    (L.chainFor w).plotRoot = none ∨ (L.chainFor w).plotRoot = some w.plot.root := by
  cases hget : L.chains.get? w.writer with
  | none =>
    rw [chainFor_of_none hget]
    exact Or.inr rfl
  | some c =>
    rw [chainFor_of_get? hget]
    exact h.plot c hget

theorem get?_put (L : Ledger) (u : String) (c : WriterChain) (pend : OrderedMap ℕ Pending) (tick : ℕ)
    (v : String) : (L.put u c pend tick).chains.get? v
      = if u = v then some c else L.chains.get? v := OrderedMap.get?_set _ _ _ _

/-- The entries of another writer are left alone. -/
theorem Ready.put_of_ne (h : L.Ready v root) {u : String} (hne : u ≠ v) (c : WriterChain)
    (pend : OrderedMap ℕ Pending) (tick : ℕ) :
    (L.put u c pend tick).Ready v root ∧ (L.put u c pend tick).tip v = L.tip v := by
  have hchains : (L.put u c pend tick).chains.get? v = L.chains.get? v := by
    rw [get?_put, if_neg hne]
  refine ⟨⟨?_, ?_⟩, ?_⟩
  · have hpending : (L.put u c pend tick).pendingOf v = if u = v then pend else L.pendingOf v :=
      pendingOf_set _ _ _ _ _ _
    rw [hpending, if_neg hne]
    exact h.quiet
  · rw [hchains]
    exact h.plot
  · unfold tip
    rw [hchains]

theorem ready_put {c : WriterChain} (tick : ℕ)
    (hplot : c.plotRoot = none ∨ c.plotRoot = some root) :
    (L.put v c ∅ tick).Ready v root ∧ (L.put v c ∅ tick).tip v = (c.nextSeq, c.headId) := by
  have hchains : (L.put v c ∅ tick).chains.get? v = some c := by
    rw [get?_put, if_pos rfl]
  refine ⟨⟨?_, ?_⟩, tip_of_get? hchains⟩
  · have hpending : (L.put v c ∅ tick).pendingOf v = if v = v then ∅ else L.pendingOf v :=
      pendingOf_set _ _ _ _ _ _
    rw [hpending, if_pos rfl]
  · intro d hd
    obtain rfl := Option.some.inj (hchains.symm.trans hd)
    exact hplot

/-- A write made for the tip is taken, and nothing else with it. -/
theorem Ready.apply_next (h : L.Ready w.writer w.plot.root) (hL : L.Sound C params)
    (hverified : verifyWrite C params false w = .ok) (hat : (w.seq, w.prev) = L.tip w.writer) :
    ∃ L', L.apply C params false w = (L', .applied [w] false) ∧ L'.Ready w.writer w.plot.root ∧
      L'.tip w.writer = (w.seq + 1, some w.id) := by
  obtain ⟨hc, hwriter⟩ := hL.chainFor w
  rw [tip_chainFor] at hat
  obtain ⟨hseq, hprev⟩ := Prod.mk.inj hat
  have hw : (L.chainFor w).Accepts C params w := ⟨hwriter.symm, h.chainFor, hverified, hseq, hprev⟩
  have hroot : ((L.chainFor w).extend params w).plotRoot = some w.plot.root := by
    show some ((L.chainFor w).plotRoot.getD w.plot.root) = some w.plot.root
    obtain hnone | hsome := h.chainFor
    · rw [hnone]
      rfl
    · rw [hsome]
      rfl
  obtain ⟨hready, htip⟩ := ready_put (L := L) (L.tick + 1) (Or.inr hroot)
  refine ⟨_, ?_, hready, ?_⟩
  · rw [apply_eq, h.live_eq, applyTo_accepted hc hw]
  · rw [htip, nextSeq_extend, headId_extend, hseq]

/-- A write that arrives moves the tip of `v` only if it verifies, is `v`'s, and is not below the
tip. -/
theorem Ready.apply_behind (h : L.Ready v root) (hL : L.Sound C params)
    (hknown : w.writer = v → L.chains.has v = true ∨ w.plot.root = root)
    (hbehind : w.writer = v → verifyWrite C params false w = .ok → w.seq < (L.tip v).1) :
    (L.apply C params false w).1.Ready v root ∧ (L.apply C params false w).1.tip v = L.tip v := by
  rw [apply_eq]
  by_cases hv : w.writer = v
  · subst hv
    have htip := tip_chainFor L w
    obtain ⟨result, heq, -, -⟩ | ⟨hahead, hok, -⟩ | ⟨hacc, -⟩ :=
      applyTo_cases (w := w) (hL.chainFor w).1 (L.live w.writer) (L.tick + 1)
    · rw [heq, h.live_eq, htip]
      apply ready_put
      cases hget : L.chains.get? w.writer with
      | none =>
        -- the write brings up the chain, with its own plot
        rw [chainFor_of_none hget]
        obtain hhas | hroot := hknown rfl
        · obtain ⟨c, hc⟩ := (OrderedMap.has_iff _ _).mp hhas
          rw [hget] at hc
          cases hc
        · exact Or.inr (congrArg some hroot)
      | some c =>
        rw [chainFor_of_get? hget]
        exact h.plot c hget
    · have hlt := hbehind rfl hok
      rw [htip] at hlt
      exact absurd hlt (by omega)
    · have hlt := hbehind rfl hacc.verified
      rw [htip, hacc.seq] at hlt
      exact absurd hlt (lt_irrefl _)
  · exact h.put_of_ne hv _ _ _

/-- Pruning leaves the tip where it is. -/
theorem Ready.pruneBelow (h : L.Ready v root) (hL : L.Sound C params) (hheld : L.Holds heads) :
    (L.pruneBelow C params heads).Ready v root ∧ (L.pruneBelow C params heads).tip v = L.tip v := by
  have hstep := (hL.inStep_pruneBelow hheld).chain v
  have hpending : (L.pruneBelow C params heads).pendingOf v = L.pendingOf v := by
    unfold pendingOf
    rw [(pruneBelow_frame L heads).1]
  obtain ⟨hc, hc'⟩ | ⟨c, c', hc, hc', hstep⟩ := optionRel_cases hstep
  · refine ⟨⟨hpending.trans h.quiet, fun d hd => ?_⟩, ?_⟩
    · rw [hc'] at hd
      cases hd
    · rw [tip_of_none hc, tip_of_none hc']
  · refine ⟨⟨hpending.trans h.quiet, fun d hd => ?_⟩, ?_⟩
    · obtain rfl := Option.some.inj (hc'.symm.trans hd)
      obtain hsame | ⟨hnone, -⟩ := hstep.plot
      · rw [hsame]
        exact h.plot c hc
      · exact Or.inl hnone
    · rw [tip_of_get? hc, tip_of_get? hc', hstep.above.next, hstep.above.head]

/-- A checkpoint that names the writer's head, or not the writer at all, leaves the tip where it
is. -/
theorem Ready.seedCheckpoint (h : L.Ready v root) (hL : L.Reachable C params)
    (hmine : ∀ x, heads.get? v = some x → L.heads.get? v = some x) :
    (L.seedCheckpoint params heads).Ready v root ∧ (L.seedCheckpoint params heads).tip v = L.tip v := by
  have hchains : (L.seedCheckpoint params heads).chains.get? v
      = ((heads.get? v).map (fun x => WriterChain.resumeAt params v (x.seq + 1) x.id)).orElse
          (fun _ => L.chains.get? v) := by
    rw [chains_seedCheckpoint, OrderedMap.get?_overlay, OrderedMap.get?_mapEntries]
  have hpending : (L.seedCheckpoint params heads).pendingOf v = ∅ := by
    have hquiet := h.quiet
    unfold pendingOf at hquiet ⊢
    rw [pending_seedCheckpoint, OrderedMap.get?_overlay, OrderedMap.get?_mapEntries]
    cases heads.get? v with
    | none => exact hquiet
    | some x => rfl
  cases hx : heads.get? v with
  | none =>
    rw [hx] at hchains
    refine ⟨⟨hpending, fun c hc => h.plot c (hchains.symm.trans hc)⟩, ?_⟩
    unfold tip
    rw [hchains]
    rfl
  | some x =>
    rw [hx] at hchains
    refine ⟨⟨hpending, fun c hc => ?_⟩, ?_⟩
    · obtain rfl := Option.some.inj (hchains.symm.trans hc)
      exact Or.inl rfl
    · rw [tip_of_get? hchains, ← hL.nextPost_eq, nextPost, hmine x hx]
      rfl

end Ledger

end Gavl
