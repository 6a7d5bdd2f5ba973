import Gavl.Ledger.RejectTheorems

/-!
# Pruning is invisible above the floor

A pruned ledger, and one that is seeded at the same heads and fed the writes above them, stay in
step with the ledger they come from. What is lost is the plot root of a writer of which nothing is
left: it is learned again from the next write. A seeded ledger also lacks what was buffered, and the
writers that the heads do not name and that hold no writes from the start on.
-/

namespace Gavl

variable {C : Crypto} {params : ChainParams} {w : Write} {ws : List Write}

namespace WriterChain

variable {c c' b : WriterChain}

/-- A chain with no writes that stands where a chain holds its `k`-th write. -/
structure Beneath (c b : WriterChain) (k : ℕ) : Prop where
  writer : b.writer = c.writer
  empty : b.writes = []
  base : b.baseSeq = c.baseSeq + k
  head : b.baseHeadId = tipId c.baseHeadId (c.writes.take k)
  le : k ≤ c.writes.length
  plot : b.plotRoot = none ∨ ∀ w ∈ c.writes, b.plotRoot = some w.plot.root

/-- What a chain holds above such a base can be appended to it, and gives a chain that ends alike. -/
theorem Sound.regrow {k : ℕ} (hc : c.Sound C params) (hb : b.Sound C params) (h : Beneath c b k) :
    ∃ c', Extends C params b (c.writes.drop k) c' ∧ Above c c' ∧ c'.baseSeq = b.baseSeq ∧
      (c'.plotRoot = c.plotRoot ∨ c.writes.drop k = [] ∧ c'.plotRoot = b.plotRoot) := by
  have hmem : ∀ w ∈ c.writes.drop k, w ∈ c.writes := fun w hw => List.mem_of_mem_drop hw
  have hroots : ∀ w ∈ c.writes, w.plot.root = c.plotRoot.getD "" := fun w hw => by
    rw [hc.plot w hw]
    rfl
  have hs := hc.stretch.drop k
  rw [← h.base, ← h.head] at hs
  have hnext : b.nextSeq = b.baseSeq := by
    unfold nextSeq
    rw [h.empty]
    rfl
  have hhead : b.headId = b.baseHeadId := by
    unfold headId
    rw [h.empty]
    rfl
  have hroot : c.writes.drop k = [] ∨ b.plotRoot = none ∨
      b.plotRoot = some (c.plotRoot.getD "") := by
    cases hd : c.writes.drop k with
    | nil => exact .inl rfl
    | cons w rest =>
      have hw : w ∈ c.writes := hmem w (by rw [hd]; exact List.mem_cons_self)
      refine .inr (h.plot.imp id fun hp => ?_)
      rw [hp w hw, hroots w hw]
  obtain ⟨c', hext⟩ : ∃ c', Extends C params b (c.writes.drop k) c' := by
    obtain hnil | hroot := hroot
    · exact ⟨b, by rw [hnil]; exact .nil b⟩
    · exact exists_extends (by rw [hnext, hhead]; exact hs)
        (fun w hw => by rw [hc.writer w (hmem w hw), h.writer])
        (fun w hw => hc.verified w (hmem w hw)) (fun w hw => hroots w (hmem w hw)) hroot
  have hc' := hext.sound hb
  have hwrites : c'.writes = c.writes.drop k := by rw [hext.writes, h.empty, List.nil_append]
  have hnext' : c.nextSeq = c'.nextSeq := by
    have hle := h.le
    have hbase := h.base
    show c.baseSeq + c.writes.length = c'.baseSeq + c'.writes.length
    rw [hwrites, hext.base.1, List.length_drop]
    omega
  refine ⟨c', hext, ⟨?_, ?_, hnext', ?_, ?_, ?_⟩, hext.base.1, ?_⟩
  · rw [hext.writer, h.writer]
  · rw [hext.base.1, h.base]
    omega
  · rw [headId_eq, headId_eq, hwrites, hext.base.2, h.head, ← tipId_append, List.take_append_drop]
  · rw [hc.weight, hc'.weight, hnext']
  · rw [hwrites, hext.base.1, h.base, Nat.add_sub_cancel_left]
  · cases hd : c.writes.drop k with
    | nil =>
      rw [hd] at hext
      cases hext with
      | nil => exact .inr ⟨rfl, rfl⟩
    | cons w rest =>
      have hw : w ∈ c.writes.drop k := by rw [hd]; exact List.mem_cons_self
      exact .inl ((hc'.plot w (hwrites ▸ hw)).trans (hc.plot w (hmem w hw)).symm)

/-- A chain resumed at a head that a chain holds stands beneath what it holds above. -/
theorem Sound.beneath_resumeAt {h : Head}
    (hheld : h.seq + 1 = c.baseSeq ∧ c.baseHeadId = some h.id ∨
      c.baseSeq ≤ h.seq ∧ ∃ x, c.writes[h.seq - c.baseSeq]? = some x ∧ x.id = h.id) :
    Beneath c (WriterChain.resumeAt params c.writer (h.seq + 1) h.id)
      (h.seq + 1 - c.baseSeq) := by
  obtain ⟨hbase, hid⟩ | ⟨hbase, x, hx, hid⟩ := hheld
  · refine ⟨rfl, rfl, ?_, ?_, by omega, .inl rfl⟩
    · show h.seq + 1 = c.baseSeq + (h.seq + 1 - c.baseSeq)
      omega
    · rw [show h.seq + 1 - c.baseSeq = 0 by omega]
      exact hid.symm
  · have hlen := (List.getElem?_eq_some_iff.mp hx).1
    refine ⟨rfl, rfl, ?_, ?_, by omega, .inl rfl⟩
    · show h.seq + 1 = c.baseSeq + (h.seq + 1 - c.baseSeq)
      omega
    · rw [show h.seq + 1 - c.baseSeq = (h.seq - c.baseSeq) + 1 by omega, tipId_take hx, hid]
      rfl

/-- A new chain stands beneath one that holds its writes from the first on. -/
theorem Sound.beneath_fresh {w : Write} {rest : List Write} (hc : c.Sound C params)
    (hbase : c.baseSeq = 0) (hwrites : c.writes = w :: rest) :
    Beneath c (WriterChain.fresh c.writer w.plot) 0 where
  writer := rfl
  empty := rfl
  base := hbase.symm
  head := (hc.base hbase).symm
  le := Nat.zero_le _
  plot := .inr fun x hx => by
    have hw := hc.plot w (by rw [hwrites]; exact List.mem_cons_self)
    rw [← hc.plot x hx, hw]
    rfl

end WriterChain

namespace Ledger

open WriterChain

variable {L M : Ledger} {heads : Heads}

/-! ## Pruning -/

/-- The lowest seq above the head of a writer. -/
def floorOf (heads : Heads) (v : String) : ℕ :=
  match heads.get? v with
  | none => 0
  | some h => h.seq + 1

/-- The plot root that is forgotten: the one pinned for a writer of which nothing is held above its
head. -/
def forgotten (L : Ledger) (heads : Heads) (v : String) : Option String :=
  match L.chains.get? v with
  | none => none
  | some c => if c.nextSeq = floorOf heads v then c.plotRoot else none

theorem get?_pruneOne (L : Ledger) (e : String × Head) (v : String) :
    (pruneOne C params L e).chains.get? v = (L.chains.get? v).map (fun c =>
      if e.1 = v then if e.2.seq < c.baseSeq then c else c.prunedAt C params v e.2 else c) := by
  unfold pruneOne
  by_cases hv : e.1 = v
  · subst hv
    cases hc : L.chains.get? e.1 with
    | none => simp [hc]
    | some c =>
      simp only [Option.map_some, if_true]
      split_ifs
      · exact hc
      · exact OrderedMap.get?_set_self _ _ _
  · have hid : (L.chains.get? v).map (fun c =>
        if e.1 = v then if e.2.seq < c.baseSeq then c else c.prunedAt C params v e.2 else c)
        = L.chains.get? v := by
      simp only [if_neg hv, Option.map_id']
    rw [hid]
    cases hc : L.chains.get? e.1 with
    | none => rfl
    | some c =>
      simp only
      split_ifs
      · rfl
      · exact OrderedMap.get?_set_of_ne _ _ hv

/-- What is left of a writer's chain. -/
theorem get?_pruneBelow (L : Ledger) (heads : Heads) (v : String) :
    (L.pruneBelow C params heads).chains.get? v = (L.chains.get? v).map (fun c =>
      match heads.get? v with
      | none => c
      | some h => if h.seq < c.baseSeq then c else c.prunedAt C params v h) := by
  have key : ∀ (l : List (String × Head)), (l.map Prod.fst).Nodup → ∀ L : Ledger,
      (l.foldl (pruneOne C params) L).chains.get? v = (L.chains.get? v).map (fun c =>
        match (l.find? (fun e => decide (e.1 = v))).map Prod.snd with
        | none => c
        | some h => if h.seq < c.baseSeq then c else c.prunedAt C params v h) := by
    intro l
    induction l with
    | nil => exact fun _ L => by simp
    | cons e l ih =>
      intro hnd L
      rw [List.map_cons, List.nodup_cons] at hnd
      rw [List.foldl_cons, ih hnd.2, get?_pruneOne, Option.map_map]
      by_cases he : e.1 = v
      · have hnone : l.find? (fun e => decide (e.1 = v)) = none :=
          (OrderedMap.find?_eq_none_iff _ _).mpr (he ▸ hnd.1)
        rw [hnone, List.find?_cons_of_pos (by simpa using he)]
        simp [Function.comp_def, he]
      · rw [List.find?_cons_of_neg (by simpa using he)]
        simp [Function.comp_def, he]
  exact key heads.entries heads.nodup L

theorem pruneBelow_frame (L : Ledger) (heads : Heads) :
    (L.pruneBelow C params heads).pending = L.pending ∧
      (L.pruneBelow C params heads).tick = L.tick := by
  rw [pruneBelow_eq]
  induction heads.entries generalizing L with
  | nil => exact ⟨rfl, rfl⟩
  | cons e l ih =>
    have hstep : (pruneOne C params L e).pending = L.pending ∧
        (pruneOne C params L e).tick = L.tick := by
      unfold pruneOne
      cases L.chains.get? e.1 with
      | none => exact ⟨rfl, rfl⟩
      | some c =>
        simp only
        split_ifs <;> exact ⟨rfl, rfl⟩
    rw [List.foldl_cons]
    exact ⟨(ih _).1.trans hstep.1, (ih _).2.trans hstep.2⟩

/-- What a ledger holds above a head can be grown anew from the head, in step with its chain. -/
theorem Sound.inStep_regrown (hL : L.Sound C params) (hheld : L.Holds heads) {v : String} {h : Head}
    (hh : heads.get? v = some h) :
    ∃ c c', L.chains.get? v = some c ∧ c.baseSeq ≤ h.seq + 1 ∧
      Extends C params (WriterChain.resumeAt params v (h.seq + 1) h.id)
        (c.writes.drop (h.seq + 1 - c.baseSeq)) c' ∧
      ChainsInStep (floorOf heads v) (L.forgotten heads v) c c' := by
  obtain ⟨c, hc, hcases⟩ := idAt_cases (hheld v h hh)
  have hcs := hL.chain v c hc
  have hb : Beneath c (WriterChain.resumeAt params c.writer (h.seq + 1) h.id) (h.seq + 1 - c.baseSeq) :=
    Sound.beneath_resumeAt hcases
  obtain ⟨c', hext, habove, hbase, hplot⟩ := hcs.regrow (.resumeAt _ _ _) hb
  rw [hL.writer v c hc] at hext
  have hfloor : floorOf heads v = h.seq + 1 := by
    unfold floorOf
    rw [hh]
  refine ⟨c, c', hc, ?_, hext, habove, .inr ?_, ?_⟩
  · obtain ⟨heq, -⟩ | ⟨hle, -⟩ := hcases <;> omega
  · rw [hbase, hfloor]
    exact le_rfl
  · refine hplot.imp id fun ⟨hnil, hnone⟩ => ⟨hnone, ?_⟩
    have hnext : c.nextSeq = floorOf heads v := by
      rw [habove.next, hfloor]
      show c'.baseSeq + c'.writes.length = h.seq + 1
      rw [hbase, hext.writes, hnil]
      rfl
    unfold forgotten
    rw [hc]
    simp only
    rw [if_pos hnext]

/-- A pruned ledger is in step with the ledger it was pruned from. -/
theorem Sound.inStep_pruneBelow (hL : L.Sound C params) (hheld : L.Holds heads) :
    InStep (floorOf heads) (L.forgotten heads) L (L.pruneBelow C params heads) := by
  obtain ⟨hpending, htick⟩ := @pruneBelow_frame C params L heads
  have hlive : ∀ v, (L.pruneBelow C params heads).live v = L.live v := fun v => by
    unfold Ledger.live pendingOf OrderedMap.has
    rw [hpending, htick, get?_pruneBelow, Option.isSome_map]
  refine ⟨fun v => ?_, fun v => ?_⟩
  · rw [get?_pruneBelow]
    cases hh : heads.get? v with
    | none =>
      cases L.chains.get? v with
      | none => exact .none
      | some c => exact .some (.refl c)
    | some h =>
      obtain ⟨c, c', hc, hle, hext, hstep⟩ := hL.inStep_regrown hheld hh
      rw [hc, Option.map_some]
      simp only
      refine .some ?_
      split_ifs with hbelow
      · exact .refl c
      · have heq : c.prunedAt C params v h = c' := by
          unfold WriterChain.prunedAt
          rw [(hL.chain v c hc).stretch.filter_above]
          exact hext.foldl_append (.resumeAt _ _ _)
        rw [heq]
        exact hstep
  · rw [hlive, htick]
    intro slot
    cases (L.live v).get? slot with
    | none => exact .none
    | some e => exact .some ⟨rfl, rfl⟩

/-! ## Seeding -/

/-- The writes a ledger holds of a writer above its head. -/
def heldAbove (L : Ledger) (heads : Heads) (v : String) : List Write :=
  match L.chains.get? v with
  | none => []
  | some c => c.writes.filter (fun w => decide (floorOf heads v ≤ w.seq))

/-- The writes held above the heads, those of each writer in their order. -/
def FedInOrder (L : Ledger) (heads : Heads) (fed : List Write) : Prop :=
  ∀ v, fed.filter (fun w => decide (w.writer = v)) = L.heldAbove heads v

/-- What the heads leave out is held from the start on, and nothing is buffered that would be
kept. -/
structure Rebuilds (L : Ledger) (heads : Heads) : Prop where
  whole : ∀ v c, heads.get? v = none → L.chains.get? v = some c → c.baseSeq = 0 ∧ c.writes ≠ []
  decayed : ∀ v seq e, (L.pendingOf v).get? seq = some e → pendingMaxAge < L.tick + 1 - e.tick

theorem Rebuilds.start (hre : L.Rebuilds heads) {v : String} {c : WriterChain}
    (hh : heads.get? v = none) (hc : L.chains.get? v = some c) : c.baseSeq = 0 :=
  (hre.whole v c hh hc).1

/-- The chain of a writer that grew from the heads by some writes. -/
def grown (params : ChainParams) (heads : Heads) (v : String) (ws : List Write) :
    Option WriterChain :=
  match heads.get? v with
  | some h => some (ws.foldl (extend params) (WriterChain.resumeAt params v (h.seq + 1) h.id))
  | none =>
    match ws with
    | [] => none
    | w :: _ => some (ws.foldl (extend params) (WriterChain.fresh v w.plot))

/-- A ledger that was fed some writes holds the chains that grew by them, and buffers nothing. -/
structure Fed (params : ChainParams) (heads : Heads) (F : Ledger) (fed : List Write) : Prop where
  chain : ∀ v, F.chains.get? v
    = grown params heads v (fed.filter (fun w => decide (w.writer = v)))
  pending : ∀ v, F.pendingOf v = ∅

theorem Fed.seed : Fed params heads (Ledger.empty.seedCheckpoint params heads) [] where
  chain := fun v => by
    rw [chains_seedCheckpoint, OrderedMap.get?_overlay, OrderedMap.get?_mapEntries]
    unfold grown
    cases heads.get? v <;> rfl
  pending := fun v => by
    unfold pendingOf
    rw [pending_seedCheckpoint, OrderedMap.get?_overlay, OrderedMap.get?_mapEntries]
    cases heads.get? v <;> rfl

theorem heldAbove_of_head {v : String} {h : Head} {c : WriterChain} (hL : L.Sound C params)
    (hh : heads.get? v = some h) (hc : L.chains.get? v = some c) :
    L.heldAbove heads v = c.writes.drop (h.seq + 1 - c.baseSeq) := by
  unfold heldAbove floorOf
  rw [hc, hh]
  exact (hL.chain v c hc).stretch.filter_above h.seq

theorem heldAbove_of_none {v : String} {c : WriterChain} (hh : heads.get? v = none)
    (hc : L.chains.get? v = some c) : L.heldAbove heads v = c.writes := by
  unfold heldAbove floorOf
  rw [hc, hh]
  exact List.filter_eq_self.mpr fun w _ => by simp

/-- The first of the writes a ledger rebuilds of a writer that the heads do not name starts its
chain, and the rest extend it. -/
theorem Sound.extends_fresh (hL : L.Sound C params) {v : String} {w : Write} {rest : List Write}
    (hstart : ∀ c, heads.get? v = none → L.chains.get? v = some c → c.baseSeq = 0)
    (hh : heads.get? v = none) (hws : L.heldAbove heads v = w :: rest) :
    ∃ c c', L.chains.get? v = some c ∧
      Extends C params (WriterChain.fresh v w.plot) (w :: rest) c' ∧
      ChainsInStep (floorOf heads v) (L.forgotten heads v) c c' := by
  cases hc : L.chains.get? v with
  | none =>
    unfold heldAbove at hws
    rw [hc] at hws
    simp at hws
  | some c =>
    rw [heldAbove_of_none hh hc] at hws
    have hbase := hstart c hh hc
    have hcs := hL.chain v c hc
    obtain ⟨c', hext, habove, hbase', hplot⟩ := hcs.regrow (.fresh _ _)
      (hcs.beneath_fresh hbase hws)
    rw [List.drop_zero, hws] at hext
    rw [hL.writer v c hc] at hext
    refine ⟨c, c', rfl, hext, habove, .inl ?_, ?_⟩
    · rw [hbase', hbase]
      rfl
    · obtain hsame | ⟨hnil, -⟩ := hplot
      · exact .inl hsame
      · rw [hws] at hnil
        simp at hnil

/-- What is fed next is taken by the chain that grew so far. -/
theorem Sound.accepts_next (hL : L.Sound C params) (hheld : L.Holds heads)
    (hstart : ∀ v c, heads.get? v = none → L.chains.get? v = some c → c.baseSeq = 0)
    {pre rest : List Write} (hws : L.heldAbove heads w.writer = pre ++ w :: rest) :
    ((grown params heads w.writer pre).getD (WriterChain.fresh w.writer w.plot)).Accepts C params w ∧
      grown params heads w.writer (pre ++ [w]) = some
        (((grown params heads w.writer pre).getD (WriterChain.fresh w.writer w.plot)).extend params w)
        := by
  unfold grown
  cases hh : heads.get? w.writer with
  | some h =>
    obtain ⟨c, c', hc, -, hext, -⟩ := hL.inStep_regrown hheld hh
    rw [← heldAbove_of_head hL hh hc, hws] at hext
    exact ⟨hext.accepts, by simp⟩
  | none =>
    cases pre with
    | nil =>
      obtain ⟨c, c', -, hext, -⟩ := hL.extends_fresh (hstart _) hh hws
      have hext' : Extends C params _ ([] ++ w :: rest) c' := hext
      exact ⟨hext'.accepts, rfl⟩
    | cons x pre =>
      obtain ⟨c, c', -, hext, -⟩ := hL.extends_fresh (hstart _) hh hws
      have hext' : Extends C params _ ((x :: pre) ++ w :: rest) c' := hext
      refine ⟨hext'.accepts, ?_⟩
      simp

theorem applyTo_accepted {c : WriterChain} (hc : c.Sound C params) (hw : c.Accepts C params w)
    (t : ℕ) : applyTo C params false c ∅ t w = (c.extend params w, ∅, .applied [w] false) := by
  have hseq := hw.seq
  have hbase : ¬ w.seq < c.baseSeq := by
    unfold nextSeq at hseq
    omega
  unfold applyTo
  rw [if_neg hbase, if_neg (by omega : ¬ w.seq < c.nextSeq)]
  simp only [OrderedMap.get?_empty, Option.map_none]
  rw [if_neg (by omega), hc.append_eq hw]
  rfl

/-- What is fed next is appended, to the chain grown by one. -/
theorem Fed.apply_eq {F : Ledger} {pre rest : List Write} (hF : Fed params heads F pre)
    (hFs : F.Sound C params) (hL : L.Sound C params) (hheld : L.Holds heads)
    (hstart : ∀ v c, heads.get? v = none → L.chains.get? v = some c → c.baseSeq = 0)
    (hfed : L.FedInOrder heads (pre ++ w :: rest)) :
    F.apply C params false w
        = (F.put w.writer ((F.chainFor w).extend params w) ∅ (F.tick + 1), .applied [w] false) ∧
      grown params heads w.writer (pre.filter (fun x => decide (x.writer = w.writer)) ++ [w])
        = some ((F.chainFor w).extend params w) := by
  have hws := (hfed w.writer).symm
  rw [List.filter_append, List.filter_cons_of_pos (by simp)] at hws
  obtain ⟨hw, hgrown⟩ := hL.accepts_next hheld hstart hws
  have hchain : F.chainFor w = (grown params heads w.writer
      (pre.filter (fun x => decide (x.writer = w.writer)))).getD
        (WriterChain.fresh w.writer w.plot) := by
    unfold chainFor
    rw [hF.chain]
  have hlive : F.live w.writer = ∅ := by
    unfold live
    rw [hF.pending]
    split_ifs <;> rfl
  rw [← hchain] at hw hgrown
  rw [Ledger.apply_eq, hlive, applyTo_accepted (hFs.chainFor w).1 hw]
  exact ⟨rfl, hgrown⟩

/-- Feeding one more write. -/
theorem Fed.apply {F : Ledger} {pre rest : List Write} (hF : Fed params heads F pre)
    (hFs : F.Sound C params) (hL : L.Sound C params) (hheld : L.Holds heads)
    (hstart : ∀ v c, heads.get? v = none → L.chains.get? v = some c → c.baseSeq = 0)
    (hfed : L.FedInOrder heads (pre ++ w :: rest)) :
    Fed params heads (F.apply C params false w).1 (pre ++ [w]) := by
  obtain ⟨heq, hgrown⟩ := hF.apply_eq hFs hL hheld hstart hfed
  rw [heq]
  refine ⟨fun v => ?_, fun v => ?_⟩
  · show (F.chains.set w.writer ((F.chainFor w).extend params w)).get? v = _
    rw [OrderedMap.get?_set, List.filter_append]
    by_cases hv : w.writer = v
    · rw [if_pos hv, List.filter_cons_of_pos (by simpa using hv)]
      subst hv
      exact hgrown.symm
    · rw [if_neg hv, List.filter_cons_of_neg (by simpa using hv), List.filter_nil, List.append_nil]
      exact hF.chain v
  · show (F.put w.writer _ ∅ (F.tick + 1)).pendingOf v = ∅
    unfold put
    rw [pendingOf_set]
    split_ifs
    · rfl
    · exact hF.pending v

theorem Fed.run {F : Ledger} {pre rest : List Write} (hF : Fed params heads F pre)
    (hFs : F.Sound C params) (hL : L.Sound C params) (hheld : L.Holds heads)
    (hstart : ∀ v c, heads.get? v = none → L.chains.get? v = some c → c.baseSeq = 0)
    (hfed : L.FedInOrder heads (pre ++ rest)) :
    Fed params heads (F.after C params rest) (pre ++ rest) ∧
      (F.after C params rest).Sound C params := by
  induction rest generalizing F pre with
  | nil =>
    rw [List.append_nil]
    exact ⟨hF, hFs⟩
  | cons w rest ih =>
    have hnext := ih (hF.apply hFs hL hheld hstart hfed) (hFs.apply w)
    rw [List.append_assoc, List.singleton_append] at hnext
    exact hnext hfed

/-- A ledger seeded at the heads and fed what is held above them is in step. -/
theorem Fed.inStep {F : Ledger} {fed : List Write} (hF : Fed params heads F fed)
    (hL : L.Sound C params) (hheld : L.Holds heads) (hre : L.Rebuilds heads)
    (hfed : L.FedInOrder heads fed) : InStep (floorOf heads) (L.forgotten heads) L F := by
  refine ⟨fun v => ?_, fun v => ?_⟩
  · rw [hF.chain, hfed v]
    cases hh : heads.get? v with
    | some h =>
      obtain ⟨c, c', hc, -, hext, hstep⟩ := hL.inStep_regrown hheld hh
      rw [heldAbove_of_head hL hh hc, hc]
      unfold grown
      rw [hh]
      simp only
      rw [← hext.eq_foldl]
      exact .some hstep
    | none =>
      cases hws : L.heldAbove heads v with
      | nil =>
        have hnone : L.chains.get? v = none := by
          cases hc : L.chains.get? v with
          | none => rfl
          | some c =>
            rw [heldAbove_of_none hh hc] at hws
            exact absurd hws (hre.whole v c hh hc).2
        unfold grown
        rw [hnone, hh]
        exact .none
      | cons w rest =>
        obtain ⟨c, c', hc, hext, hstep⟩ := hL.extends_fresh (fun _ => hre.start) hh hws
        unfold grown
        rw [hc, hh]
        simp only
        rw [← hext.eq_foldl]
        exact .some hstep
  · have hlive : F.live v = ∅ := by
      unfold live
      rw [hF.pending]
      split_ifs <;> rfl
    rw [hlive, live_eq_empty (hre.decayed v)]
    exact .empty

/-! ## The two together -/

/-- Some later writes do not tell two ledgers apart, and leave them with the same writes above the
heads. -/
structure AlikeAbove (C : Crypto) (params : ChainParams) (base : Heads) (L M : Ledger)
    (ws : List Write) : Prop extends Alike C params L M ws where
  writes : ∀ w, floorOf base w.writer ≤ w.seq →
    (w ∈ (L.after C params ws).allWrites ↔ w ∈ (M.after C params ws).allWrites)

theorem InStep.alikeAbove {pin : String → Option String} (h : InStep (floorOf heads) pin L M)
    (hL : L.Sound C params) (hM : M.Sound C params) (hws : ∀ w ∈ ws, Fits (floorOf heads) pin w) :
    AlikeAbove C params heads L M ws := by
  obtain ⟨halike, hin, hL', hM'⟩ := h.run hL hM hws
  exact ⟨halike, fun w hw => hin.mem_allWrites hL' hM' hw⟩

/-- **Pruning is invisible above the floor.** No later writes above heads that a ledger holds tell it
from the pruned ledger, nor from one that is seeded at the heads and fed the writes above them, as
long as a writer whose plot root is forgotten keeps to its plot, and, for the seeded one, what the
heads leave out is held from the start on and nothing is buffered that would be kept. -/
theorem pruned_alike (hL : L.Reachable C params) (hheld : L.Holds heads)
    (hws : ∀ w ∈ ws, Fits (floorOf heads) (L.forgotten heads) w) :
    AlikeAbove C params heads L (L.pruneBelow C params heads) ws ∧
      (L.Rebuilds heads → ∀ fed, L.FedInOrder heads fed → AlikeAbove C params heads L
        ((Ledger.empty.seedCheckpoint params heads).after C params fed) ws) := by
  have hsound := hL.sound
  refine ⟨(hsound.inStep_pruneBelow hheld).alikeAbove hsound (hsound.pruneBelow hheld) hws, ?_⟩
  intro hre fed hfed
  obtain ⟨hF, hFs⟩ := Fed.seed.run (Sound.empty.seedCheckpoint heads) hsound hheld
    (fun _ _ => hre.start)
    (show L.FedInOrder heads ([] ++ fed) from hfed)
  exact (hF.inStep hsound hheld hre hfed).alikeAbove hsound hFs hws

/-! ## What is lost -/

/-- Two ledgers that some writes above the heads tell apart. -/
structure Apart (C : Crypto) (params : ChainParams) (heads : Heads) (L M : Ledger)
    (ws : List Write) : Prop where
  reachable : L.Reachable C params
  held : L.Holds heads
  above : ∀ w ∈ ws, floorOf heads w.writer ≤ w.seq
  apart : ¬ AlikeAbove C params heads L M ws

theorem Apart.of_results (hL : L.Reachable C params) (hheld : L.Holds heads)
    (habove : ∀ w ∈ ws, floorOf heads w.writer ≤ w.seq)
    (hne : (L.results C params ws).map (fun r => r.appended.length)
      ≠ (M.results C params ws).map (fun r => r.appended.length)) :
    Apart C params heads L M ws :=
  ⟨hL, hheld, habove, fun h => hne (by rw [h.results])⟩

theorem holds_set {v : String} {h : Head} (hid : L.idAt v h.seq = some h.id) :
    L.Holds ((∅ : Heads).set v h) := fun v' h' hh => by
  rw [OrderedMap.get?_set] at hh
  split_ifs at hh with hv
  · rw [Option.some.injEq] at hh
    subst hv hh
    exact hid
  · simp at hh

theorem fedInOrder_nil (hL : L.Sound C params)
    (hnone : ∀ w ∈ L.allWrites, w.seq < floorOf heads w.writer) : L.FedInOrder heads [] := by
  intro v
  unfold heldAbove
  cases hc : L.chains.get? v with
  | none => rfl
  | some c =>
    refine (List.filter_eq_nil_iff.mpr fun w hw => ?_).symm
    have hv : w.writer = v := ((hL.chain v c hc).writer w hw).trans (hL.writer v c hc)
    have := hnone w (hL.mem_allWrites.mpr ⟨c, hv ▸ hc, hw⟩)
    rw [hv] at this
    simpa using this

/-- A write from the plot that the leaf at index 0 makes up with the siblings of a path. -/
def writeFrom (C : Crypto) (path : List String) (writer : String) (seq : ℕ)
    (prev : Option String) : Write :=
  let trunk : Trunk := ⟨writer, seq, prev, .str ""⟩
  let leaf := plotLeaf C writer 0
  let core : WriteCore :=
    { trunk with
      plot := ⟨toHex (merkleWalk C leaf 0 path), path.length⟩
      difficulty := "1"
      ts := .nat 0
      payload := .null }
  let space : SpaceProof :=
    ⟨0, toHex leaf, path, toHex (C.sha256 (leaf ++ challengeOf C trunk))⟩
  let time : TimeProof := ⟨0, "", ""⟩
  { core with space := space, time := time, id := writeIdOf C core space time, sig := "" }

namespace Pruned

open AnchorChain

def first : Write := writeFrom openConfig.crypto [] "ab" 0 none

def second : Write := writeFrom openConfig.crypto [] "ab" 1 (some first.id)

def third : Write := writeFrom openConfig.crypto [] "ab" 2 (some second.id)

/-- A second write from a larger plot. -/
def replotted : Write := writeFrom openConfig.crypto ["00"] "ab" 1 (some first.id)

def firstHead : Heads := (∅ : Heads).set "ab" ⟨first.id, 0⟩

/-- The empty ledger after some writes. -/
def grownBy (ws : List Write) : Ledger := Ledger.empty.after openConfig.crypto openConfig.params ws

/-- The ledger seeded at the heads. -/
def seeded (heads : Heads) : Ledger := Ledger.empty.seedCheckpoint openConfig.params heads

theorem reachable_grownBy (ws : List Write) :
    (grownBy ws).Reachable openConfig.crypto openConfig.params := by
  have key : ∀ L : Ledger, L.Reachable openConfig.crypto openConfig.params →
      (L.after openConfig.crypto openConfig.params ws).Reachable
        openConfig.crypto openConfig.params := by
    induction ws with
    | nil => exact fun L hL => hL
    | cons w ws ih => exact fun L hL => ih _ (hL.apply w)
  exact key _ .empty

/-- How many writes each of some later writes appends. -/
def counts (L : Ledger) (ws : List Write) : List ℕ :=
  (L.results openConfig.crypto openConfig.params ws).map (fun r => r.appended.length)

/-- What running the examples shows. -/
theorem evaluated :
    (grownBy [first]).idAt "ab" 0 = some first.id ∧
      (grownBy [first, third]).idAt "ab" 0 = some first.id ∧
      counts (grownBy [first]) [replotted] = [0] ∧
      counts ((grownBy [first]).pruneBelow openConfig.crypto openConfig.params firstHead)
        [replotted] = [1] ∧
      counts (seeded firstHead) [replotted] = [1] ∧
      counts (grownBy [first, third]) [second] = [2] ∧
      counts (seeded firstHead) [second] = [1] ∧
      counts (grownBy [misfit openConfig.params first]) [first] = [0] ∧
      counts (seeded firstHead) [first] = [0] ∧
      counts (seeded ∅) [first] = [1] := by
  decide +kernel

theorem holds_first : (grownBy [first]).Holds firstHead := holds_set evaluated.1

theorem rebuilds_first : (grownBy [first]).Rebuilds firstHead := by
  have hkeys : (grownBy [first]).chains.keys = ["ab"] := by decide +kernel
  have hwriter : ∀ v c, (grownBy [first]).chains.get? v = some c → v = "ab" := fun v c hc => by
    have hv := (OrderedMap.mem_keys _ v).mpr ⟨c, hc⟩
    rw [hkeys] at hv
    simpa using hv
  have hempty : (grownBy [first]).pendingOf "ab" = ∅ :=
    OrderedMap.eq_empty_of_entries (List.length_eq_zero_iff.mp
      (show ((grownBy [first]).pendingOf "ab").size = 0 by decide +kernel))
  refine ⟨fun v c hh hc => ?_, fun v seq e he => ?_⟩
  · obtain rfl := hwriter v c hc
    simp [firstHead] at hh
  · cases hc : (grownBy [first]).chains.get? v with
    | none =>
      rw [(reachable_grownBy _).sound.known v hc] at he
      simp at he
    | some c =>
      obtain rfl := hwriter v c hc
      rw [hempty] at he
      simp at he

end Pruned

open Pruned AnchorChain in
/-- A write from another plot tells a ledger from the pruned and from the seeded one, and the seeded
one lacks what was buffered, pinned without a write or pruned before. -/
theorem pruning_tells :
    let C := openConfig.crypto
    let params := openConfig.params
    Apart C params firstHead (grownBy [first]) ((grownBy [first]).pruneBelow C params firstHead)
        [replotted] ∧
      ((grownBy [first]).FedInOrder firstHead [] ∧
        Apart C params firstHead (grownBy [first]) (seeded firstHead) [replotted]) ∧
      ((grownBy [first, third]).FedInOrder firstHead [] ∧
        Apart C params firstHead (grownBy [first, third]) (seeded firstHead) [second]) ∧
      ((grownBy [misfit params first]).FedInOrder ∅ [] ∧
        Apart C params ∅ (grownBy [misfit params first]) (seeded ∅) [first]) ∧
      ((seeded firstHead).FedInOrder ∅ [] ∧
        Apart C params ∅ (seeded firstHead) (seeded ∅) [first]) := by
  obtain ⟨hfirst, hthird, hrefused, hpruned, hseeded, htwo, hone, hblocked, hbelow, htaken⟩ :=
    evaluated
  have hseed : (seeded firstHead).Reachable openConfig.crypto openConfig.params :=
    .seedCheckpoint .empty firstHead
  have hnone : ∀ L : Ledger, L.Holds ∅ := fun L v h hh => by simp at hh
  refine ⟨?_, ⟨?_, ?_⟩, ⟨?_, ?_⟩, ⟨?_, ?_⟩, ⟨?_, ?_⟩⟩
  · exact .of_results (reachable_grownBy _) (holds_set hfirst) (by decide +kernel)
      (by show counts _ _ ≠ counts _ _; rw [hrefused, hpruned]; decide)
  · exact fedInOrder_nil (reachable_grownBy _).sound (by decide +kernel)
  · exact .of_results (reachable_grownBy _) (holds_set hfirst) (by decide +kernel)
      (by show counts _ _ ≠ counts _ _; rw [hrefused, hseeded]; decide)
  · exact fedInOrder_nil (reachable_grownBy _).sound (by decide +kernel)
  · exact .of_results (reachable_grownBy _) (holds_set hthird) (by decide +kernel)
      (by show counts _ _ ≠ counts _ _; rw [htwo, hone]; decide)
  · exact fedInOrder_nil (reachable_grownBy _).sound (by decide +kernel)
  · exact .of_results (reachable_grownBy _) (hnone _) (by decide +kernel)
      (by show counts _ _ ≠ counts _ _; rw [hblocked, htaken]; decide)
  · exact fedInOrder_nil hseed.sound (by decide +kernel)
  · exact .of_results hseed (hnone _) (by decide +kernel) (by show counts _ _ ≠ counts _ _; rw [hbelow, htaken]; decide)

open Pruned AnchorChain in
/-- The first write pruned away, and the next one of its plot. -/
theorem pruned_alike_first :
    let L := grownBy [first]
    AlikeAbove openConfig.crypto openConfig.params firstHead L
        (L.pruneBelow openConfig.crypto openConfig.params firstHead) [second] ∧
      AlikeAbove openConfig.crypto openConfig.params firstHead L (seeded firstHead) [second] := by
  have hfits : ∀ w ∈ [second], Fits (floorOf firstHead) ((grownBy [first]).forgotten firstHead) w := by
    intro w hw
    rw [List.mem_singleton] at hw
    subst hw
    exact ⟨by decide +kernel, .inr (by decide +kernel)⟩
  obtain ⟨hpruned, hseeded⟩ := pruned_alike (reachable_grownBy _) holds_first hfits
  exact ⟨hpruned, hseeded rebuilds_first [] (fedInOrder_nil (reachable_grownBy _).sound
    (by decide +kernel))⟩

end Ledger

end Gavl
