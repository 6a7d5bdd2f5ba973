import Gavl.Ledger.Invariant

/-!
# A ledger while writes arrive

Applying writes only ever adds to the top of chains. What is held at a seq stays held, and a
seq that a chain has gone past with another write, or pruned, is never filled.

Nothing here asks how a write was verified, so it holds of a replay without time proofs too.
-/

namespace Gavl

variable {C : Crypto} {params : ChainParams} {skip : Bool} {w : Write} {heads : Heads}

namespace WriterChain

variable {c c' c'' : WriterChain}

/-- Each write of the chain is its writer's, and the one at its seq. -/
structure Placed (c : WriterChain) : Prop where
  writer : ∀ w ∈ c.writes, w.writer = c.writer
  seq : ∀ i w, c.writes[i]? = some w → w.seq = c.baseSeq + i

/-- `c'` is `c` with writes on top. -/
structure Continues (c c' : WriterChain) : Prop where
  writer : c'.writer = c.writer
  baseSeq : c'.baseSeq = c.baseSeq
  baseHeadId : c'.baseHeadId = c.baseHeadId
  writes : ∃ more, c'.writes = c.writes ++ more

theorem Continues.refl (c : WriterChain) : c.Continues c := ⟨rfl, rfl, rfl, [], by simp⟩

theorem Continues.trans (h : c.Continues c') (h' : c'.Continues c'') : c.Continues c'' := by
  obtain ⟨more, hmore⟩ := h.writes
  obtain ⟨more', hmore'⟩ := h'.writes
  refine ⟨h'.writer.trans h.writer, h'.baseSeq.trans h.baseSeq, h'.baseHeadId.trans h.baseHeadId,
    more ++ more', ?_⟩
  rw [hmore', hmore, List.append_assoc]

theorem Continues.nextSeq_le (h : c.Continues c') : c.nextSeq ≤ c'.nextSeq := by
  obtain ⟨more, hmore⟩ := h.writes
  unfold nextSeq
  rw [h.baseSeq, hmore, List.length_append]
  omega

/-- Below the tip nothing changes. -/
theorem Continues.writeAt_eq (h : c.Continues c') {seq : ℕ} (hseq : seq < c.nextSeq) :
    c'.writeAt seq = c.writeAt seq := by
  obtain ⟨more, hmore⟩ := h.writes
  unfold nextSeq at hseq
  unfold writeAt
  rw [h.baseSeq, hmore]
  by_cases hbase : seq < c.baseSeq
  · rw [if_pos hbase, if_pos hbase]
  · rw [if_neg hbase, if_neg hbase, List.getElem?_append_left (by omega)]

theorem Placed.fresh (writer : String) (plot : PlotCommitment) : (fresh writer plot).Placed where
  writer := fun _ h => absurd h List.not_mem_nil
  seq := fun _ _ h => absurd h (by simp [WriterChain.fresh])

theorem Placed.resumeAt (writer : String) (seq : ℕ) (id : String) :
    (resumeAt params writer seq id).Placed where
  writer := fun _ h => absurd h List.not_mem_nil
  seq := fun _ _ h => absurd h (by simp [WriterChain.resumeAt])

/-- What is on top is the writer's, above everything below. -/
theorem Continues.above (hc : c.Continues c') (h' : c'.Placed) :
    ∃ more, c'.writes = c.writes ++ more ∧
      ∀ w ∈ more, w.writer = c.writer ∧ c.nextSeq ≤ w.seq := by
  obtain ⟨more, hmore⟩ := hc.writes
  refine ⟨more, hmore, fun w hw => ⟨?_, ?_⟩⟩
  · rw [← hc.writer]
    exact h'.writer w (by rw [hmore]; exact List.mem_append_right _ hw)
  · obtain ⟨i, hi, rfl⟩ := List.mem_iff_getElem.mp hw
    have hget : c'.writes[c.writes.length + i]? = some more[i] := by
      rw [hmore, List.getElem?_append_right (by omega), Nat.add_sub_cancel_left,
        List.getElem?_eq_getElem hi]
    have hseq := h'.seq _ _ hget
    rw [hc.baseSeq] at hseq
    unfold nextSeq
    omega

/-- `append` adds the next write of the writer, or nothing. -/
theorem append_continues (C : Crypto) (params : ChainParams) (skip : Bool) (c : WriterChain)
    (w : Write) : c.Continues (c.append C params skip w).1 ∧
      (c.Placed → (c.append C params skip w).1.Placed) := by
  have hsame : c.Continues c ∧ (c.Placed → c.Placed) := ⟨Continues.refl c, id⟩
  unfold append
  by_cases hwriter : w.writer ≠ c.writer
  · rw [if_pos hwriter]
    exact hsame
  rw [if_neg hwriter]
  by_cases hplot : c.plotRoot ≠ none ∧ c.plotRoot ≠ some w.plot.root
  · rw [if_pos hplot]
    exact hsame
  rw [if_neg hplot]
  cases verifyWrite C params skip w with
  | fail reason => exact hsame
  | thrown message => exact hsame
  | ok =>
    simp only
    cases c.writes.find? (fun x => decide (x.seq = w.seq)) with
    | some existing =>
      simp only
      split_ifs <;> exact hsame
    | none =>
      simp only
      by_cases hseq : w.seq ≠ c.nextSeq
      · rw [if_pos hseq]
        exact hsame
      rw [if_neg hseq]
      by_cases hprev : w.prev ≠ c.headId
      · rw [if_pos hprev]
        exact hsame
      rw [if_neg hprev]
      refine ⟨⟨rfl, rfl, rfl, [w], rfl⟩, fun h => ⟨fun x hx => ?_, fun i x hx => ?_⟩⟩
      · rcases List.mem_append.mp hx with hx | hx
        · exact h.writer x hx
        · rw [List.mem_singleton.mp hx]
          exact not_not.mp hwriter
      · by_cases hi : i < c.writes.length
        · rw [List.getElem?_append_left hi] at hx
          exact h.seq i x hx
        · rw [List.getElem?_append_right (by omega)] at hx
          obtain ⟨hlen, hx⟩ := List.getElem?_eq_some_iff.mp hx
          rw [List.length_singleton] at hlen
          rw [List.getElem_singleton] at hx
          rw [← hx, not_not.mp hseq]
          show c.baseSeq + c.writes.length = c.baseSeq + i
          omega

end WriterChain

namespace Ledger

variable {L L' L'' : Ledger} {c : WriterChain} {pend : OrderedMap ℕ Pending} {tick : ℕ}

/-! ## One writer -/

theorem drain_continues (n : ℕ) (c : WriterChain) (pend : OrderedMap ℕ Pending)
    (applied : List Write) : c.Continues (drain C params skip n c pend applied).1 ∧
      (c.Placed → (drain C params skip n c pend applied).1.Placed) := by
  induction n generalizing c pend applied with
  | zero => exact ⟨.refl c, id⟩
  | succ n ih =>
    unfold drain
    cases pend.get? c.nextSeq with
    | none => exact ⟨.refl c, id⟩
    | some next =>
      simp only
      have happend := WriterChain.append_continues C params skip c next.w
      cases hr : c.append C params skip next.w with
      | mk c' r =>
        rw [hr] at happend
        cases r with
        | ok =>
          obtain ⟨hcont, hplaced⟩ := ih c' (pend.delete c.nextSeq) (applied ++ [next.w])
          exact ⟨happend.1.trans hcont, fun h => hplaced (happend.2 h)⟩
        | fail reason => exact happend
        | equivocation x y => exact happend
        | thrown message => exact happend

theorem applyTo_continues (c : WriterChain) (pend : OrderedMap ℕ Pending) (tick : ℕ) (w : Write) :
    c.Continues (applyTo C params skip c pend tick w).1 ∧
      (c.Placed → (applyTo C params skip c pend tick w).1.Placed) := by
  have hsame : c.Continues c ∧ (c.Placed → c.Placed) := ⟨.refl c, id⟩
  unfold applyTo
  by_cases hbase : w.seq < c.baseSeq
  · rw [if_pos hbase]
    exact hsame
  rw [if_neg hbase]
  cases (if w.seq < c.nextSeq then c.writeAt w.seq else (pend.get? w.seq).map (·.w)) with
  | some x => exact hsame
  | none =>
    simp only
    by_cases hahead : c.nextSeq < w.seq
    · rw [if_pos hahead]
      cases verifyWrite C params skip w <;> exact hsame
    · rw [if_neg hahead]
      have happend := WriterChain.append_continues C params skip c w
      cases hr : c.append C params skip w with
      | mk c' r =>
        rw [hr] at happend
        cases r with
        | ok =>
          obtain ⟨hcont, hplaced⟩ := drain_continues pend.size c' pend [w]
          exact ⟨happend.1.trans hcont, fun h => hplaced (happend.2 h)⟩
        | fail reason => exact happend
        | equivocation x y => exact happend
        | thrown message => exact happend

/-! ## All writers -/

/-- Every chain is its writer's and has each write at its seq. -/
def Placed (L : Ledger) : Prop :=
  ∀ v c, L.chains.get? v = some c → c.writer = v ∧ c.Placed

/-- `w` is above everything that is held of its writer. -/
def Beyond (L : Ledger) (w : Write) : Prop :=
  ∀ c, L.chains.get? w.writer = some c → c.nextSeq ≤ w.seq

/-- `L'` is `L` with writes on top of its chains. -/
structure Continues (L L' : Ledger) : Prop where
  chain : ∀ v c, L.chains.get? v = some c → ∃ c', L'.chains.get? v = some c' ∧ c.Continues c'
  kept : ∀ P : Write → Bool, (∀ w, L.Beyond w → P w = false) →
    L'.allWrites.filter P = L.allWrites.filter P

theorem Continues.refl (L : Ledger) : L.Continues L := ⟨fun _ c h => ⟨c, h, .refl c⟩, fun _ _ => rfl⟩

theorem Continues.trans (h : L.Continues L') (h' : L'.Continues L'') : L.Continues L'' where
  chain := fun v c hc => by
    obtain ⟨c', hc', hcont⟩ := h.chain v c hc
    obtain ⟨c'', hc'', hcont'⟩ := h'.chain v c' hc'
    exact ⟨c'', hc'', hcont.trans hcont'⟩
  kept := fun P hP => by
    rw [h'.kept P fun w hw => hP w fun c hc => ?_, h.kept P hP]
    obtain ⟨c', hc', hcont⟩ := h.chain _ c hc
    exact le_trans hcont.nextSeq_le (hw c' hc')

theorem allWrites_eq (L : Ledger) : L.allWrites = L.chains.entries.flatMap (fun e => e.2.writes) := by
  unfold allWrites OrderedMap.values
  rw [List.flatMap_map]

theorem placed_chainFor (hL : L.Placed) (w : Write) :
    (L.chainFor w).writer = w.writer ∧ (L.chainFor w).Placed := by
  unfold chainFor
  cases hget : L.chains.get? w.writer with
  | none => exact ⟨rfl, .fresh _ _⟩
  | some c => exact hL _ c hget

/-- Putting more on top of one chain. -/
theorem continues_put (hL : L.Placed) {c' : WriterChain} (hc : (L.chainFor w).Continues c')
    (hc' : c'.Placed) : L.Continues (L.put w.writer c' pend tick) := by
  obtain ⟨hwriter, -⟩ := placed_chainFor hL w
  obtain ⟨more, hmore, habove⟩ := hc.above hc'
  refine ⟨fun v c hv => ?_, fun P hP => ?_⟩
  · by_cases hvw : w.writer = v
    · refine ⟨c', by rw [← hvw]; exact OrderedMap.get?_set_self _ _ _, ?_⟩
      have hchain : L.chainFor w = c := by
        unfold chainFor
        rw [hvw, hv]
        rfl
      exact hchain ▸ hc
    · exact ⟨c, (OrderedMap.get?_set_of_ne _ _ hvw).trans hv, .refl c⟩
  · -- what is new is beyond, so the test lets none of it through
    have hnew : more.filter P = [] := by
      refine List.filter_eq_nil_iff.mpr fun x hx => ?_
      obtain ⟨hxw, hxs⟩ := habove x hx
      rw [hP x fun c hget => ?_]
      · simp
      · rw [hxw, hwriter] at hget
        unfold chainFor at hxs
        rw [hget] at hxs
        exact hxs
    have hsame : c'.writes.filter P = (L.chainFor w).writes.filter P := by
      rw [hmore, List.filter_append, hnew, List.append_nil]
    rw [allWrites_eq, allWrites_eq, List.filter_flatMap, List.filter_flatMap]
    show (L.chains.set w.writer c').entries.flatMap _ = _
    cases hget : L.chains.get? w.writer with
    | none =>
      have hempty : (L.chainFor w).writes = [] := by
        unfold chainFor
        rw [hget]
        rfl
      rw [OrderedMap.set_entries_of_new hget, List.flatMap_append, List.flatMap_singleton, hsame,
        hempty, List.filter_nil, List.append_nil]
    | some c =>
      have hchain : L.chainFor w = c := by
        unfold chainFor
        rw [hget]
        rfl
      have hhas : L.chains.has w.writer = true := (OrderedMap.has_iff _ _).mpr ⟨c, hget⟩
      rw [OrderedMap.set_eq_mapEntries hhas, OrderedMap.mapEntries, List.flatMap_map]
      refine List.flatMap_congr fun e he => ?_
      by_cases hv : e.1 = w.writer
      · have hec : e.2 = c := by
          have hmem := (OrderedMap.get?_eq_some_iff L.chains e.1 e.2).mpr he
          rw [hv, hget, Option.some.injEq] at hmem
          exact hmem.symm
        simp only [hv, if_true]
        rw [hsame, hchain, hec]
      · simp only [hv, if_false]

theorem placed_put (hL : L.Placed) {c' : WriterChain} (hc : (L.chainFor w).Continues c')
    (hc' : c'.Placed) : (L.put w.writer c' pend tick).Placed := by
  obtain ⟨hwriter, -⟩ := placed_chainFor hL w
  intro v c hv
  by_cases hvw : w.writer = v
  · have hget : (L.put w.writer c' pend tick).chains.get? v = some c' := by
      rw [← hvw]
      exact OrderedMap.get?_set_self _ _ _
    rw [hget, Option.some.injEq] at hv
    rw [← hv, ← hvw]
    exact ⟨hc.writer.trans hwriter, hc'⟩
  · exact hL v c ((OrderedMap.get?_set_of_ne _ _ hvw).symm.trans hv)

/-- Applying a write continues the ledger. -/
theorem apply_continues (hL : L.Placed) (C : Crypto) (params : ChainParams) (skip : Bool)
    (w : Write) : L.Continues (L.apply C params skip w).1 ∧ (L.apply C params skip w).1.Placed := by
  obtain ⟨hcont, hplaced⟩ : (L.chainFor w).Continues
      (applyTo C params skip (L.chainFor w) (L.live w.writer) (L.tick + 1) w).1 ∧ _ :=
    applyTo_continues _ _ _ w
  have hplaced' := hplaced (placed_chainFor hL w).2
  rw [apply_eq]
  exact ⟨continues_put hL hcont hplaced', placed_put hL hcont hplaced'⟩

/-- and so does applying a batch. -/
theorem applyAll_continues (C : Crypto) (params : ChainParams) (skip : Bool) (ws : List Write) :
    ∀ L : Ledger, L.Placed → L.Continues (L.applyAll C params skip ws).1 ∧
      (L.applyAll C params skip ws).1.Placed := by
  induction ws with
  | nil => exact fun L hL => ⟨.refl L, hL⟩
  | cons w ws ih =>
    intro L hL
    obtain ⟨hcont, hplaced⟩ := apply_continues hL C params skip w
    obtain ⟨hcont', hplaced'⟩ := ih _ hplaced
    unfold applyAll
    cases hr : L.apply C params skip w with
    | mk L' r =>
      rw [hr] at hcont hplaced hcont' hplaced'
      cases r with
      | thrown message => exact ⟨hcont, hplaced⟩
      | applied applied buffered => exact ⟨hcont.trans hcont', hplaced'⟩
      | fail reason => exact ⟨hcont.trans hcont', hplaced'⟩
      | equivocation x y => exact ⟨hcont.trans hcont', hplaced'⟩

/-! ## Checkpoints -/

theorem placed_empty : Ledger.empty.Placed := fun v c h => absurd h (by simp [Ledger.empty])

theorem Placed.set (hL : L.Placed) {v : String} {c : WriterChain} (hwriter : c.writer = v)
    (hc : c.Placed) {pending : OrderedMap String (OrderedMap ℕ Pending)} :
    ({ L with chains := L.chains.set v c, pending := pending } : Ledger).Placed := by
  intro u x hx
  by_cases huv : v = u
  · have hget : (L.chains.set v c).get? u = some c := by
      rw [← huv]
      exact OrderedMap.get?_set_self _ _ _
    rw [hget, Option.some.injEq] at hx
    exact ⟨by rw [← hx, hwriter, huv], hx ▸ hc⟩
  · exact hL u x ((OrderedMap.get?_set_of_ne _ _ huv).symm.trans hx)

theorem Placed.seedCheckpoint (hL : L.Placed) (heads : Heads) :
    (L.seedCheckpoint params heads).Placed := by
  unfold Ledger.seedCheckpoint
  generalize heads.entries = l
  induction l generalizing L with
  | nil => exact hL
  | cons e l ih => exact ih (hL.set rfl (.resumeAt _ _ _))

theorem placed_prunedAt (C : Crypto) (params : ChainParams) (c : WriterChain) (writer : String)
    (h : Head) : (c.prunedAt C params writer h).writer = writer ∧ (c.prunedAt C params writer h).Placed := by
  have key : ∀ (l : List Write) (r : WriterChain), r.Placed →
      (l.foldl (fun r w => (r.append C params false w).1) r).writer = r.writer ∧
        (l.foldl (fun r w => (r.append C params false w).1) r).Placed := by
    intro l
    induction l with
    | nil => exact fun r hr => ⟨rfl, hr⟩
    | cons w l ih =>
      intro r hr
      obtain ⟨hcont, hplaced⟩ := WriterChain.append_continues C params false r w
      obtain ⟨hwriter, hplaced'⟩ := ih _ (hplaced hr)
      exact ⟨hwriter.trans hcont.writer, hplaced'⟩
  exact key _ _ (.resumeAt writer (h.seq + 1) h.id)

theorem Placed.pruneBelow (hL : L.Placed) (C : Crypto) (params : ChainParams) (heads : Heads) :
    (L.pruneBelow C params heads).Placed := by
  rw [pruneBelow_eq]
  generalize heads.entries = l
  induction l generalizing L with
  | nil => exact hL
  | cons e l ih =>
    refine ih ?_
    unfold pruneOne
    cases L.chains.get? e.1 with
    | none => exact hL
    | some c =>
      simp only
      split_ifs
      · exact hL
      · obtain ⟨hwriter, hplaced⟩ := placed_prunedAt C params c e.1 e.2
        exact hL.set hwriter hplaced

/-! ## Heads and what is held -/

/-- A writer's chain has gone past its head: another write is held there, or it was pruned. -/
def Passed (L : Ledger) (heads : Heads) : Prop :=
  ∃ v h c, heads.get? v = some h ∧ L.chains.get? v = some c ∧ h.seq < c.nextSeq ∧
    L.idAt v h.seq ≠ some h.id

/-- Some write up to `heads` is still to come. -/
def Awaits (L : Ledger) (heads : Heads) : Prop := ¬ L.Holds heads ∧ ¬ L.Passed heads

theorem idAt_eq {v : String} (hc : L.chains.get? v = some c) (seq : ℕ) : L.idAt v seq =
    if (seq : ℤ) = (c.baseSeq : ℤ) - 1 then c.baseHeadId else (c.writeAt seq).map (·.id) := by
  unfold idAt
  rw [hc]
  rfl

/-- Below the tip of a chain nothing changes. -/
theorem Continues.idAt_eq (h : L.Continues L') {v : String} (hc : L.chains.get? v = some c)
    {seq : ℕ} (hseq : seq < c.nextSeq) : L'.idAt v seq = L.idAt v seq := by
  obtain ⟨c', hc', hcont⟩ := h.chain v c hc
  rw [Ledger.idAt_eq hc, Ledger.idAt_eq hc', hcont.baseSeq, hcont.baseHeadId,
    hcont.writeAt_eq hseq]

theorem lt_nextSeq_of_idAt {v : String} {h : Head} (hid : L.idAt v h.seq = some h.id) :
    ∃ c, L.chains.get? v = some c ∧ h.seq < c.nextSeq := by
  obtain ⟨c, hc, ⟨hfloor, -⟩ | ⟨hheld, x, hx, -⟩⟩ := idAt_cases hid
  · exact ⟨c, hc, by unfold WriterChain.nextSeq; omega⟩
  · obtain ⟨hlt, -⟩ := List.getElem?_eq_some_iff.mp hx
    exact ⟨c, hc, by unfold WriterChain.nextSeq; omega⟩

theorem Continues.holds (h : L.Continues L') (hheld : L.Holds heads) : L'.Holds heads := by
  intro v x hx
  have hid := hheld v x hx
  obtain ⟨c, hc, hlt⟩ := lt_nextSeq_of_idAt hid
  rw [h.idAt_eq hc hlt, hid]

theorem Continues.passed (h : L.Continues L') (hpassed : L.Passed heads) : L'.Passed heads := by
  obtain ⟨v, x, c, hx, hc, hlt, hne⟩ := hpassed
  obtain ⟨c', hc', hcont⟩ := h.chain v c hc
  refine ⟨v, x, c', hx, hc', lt_of_lt_of_le hlt hcont.nextSeq_le, ?_⟩
  rw [h.idAt_eq hc hlt]
  exact hne

theorem Passed.not_holds (h : L.Passed heads) : ¬ L.Holds heads := by
  obtain ⟨v, x, c, hx, -, -, hne⟩ := h
  exact fun hheld => hne (hheld v x hx)

/-- What is not awaited is not awaited later, and held later only if it is held. -/
theorem Continues.not_awaits (h : L.Continues L') (hdone : ¬ L.Awaits heads) :
    ¬ L'.Awaits heads ∧ (L'.Holds heads → L.Holds heads) := by
  by_cases hheld : L.Holds heads
  · exact ⟨fun hawaits => hawaits.1 (h.holds hheld), fun _ => hheld⟩
  · have hpassed : L.Passed heads := by
      by_contra hno
      exact hdone ⟨hheld, hno⟩
    have hpassed' := h.passed hpassed
    exact ⟨fun hawaits => hawaits.2 hpassed', fun hheld' => absurd hheld' hpassed'.not_holds⟩

end Ledger

end Gavl
