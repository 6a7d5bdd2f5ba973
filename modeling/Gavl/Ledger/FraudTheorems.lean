import Gavl.Ledger.RejectTheorems
import Gavl.Ledger.RootTheorems

/-!
# Reports of equivocation

`apply` compares the slot that a write names with what is held there before it verifies anything.
What it holds was verified when it came; the write that it reports against it was not.
-/

namespace Gavl

variable {C : Crypto} {params : ChainParams} {w : Write} {c : WriterChain}
  {pend : OrderedMap ℕ Pending} {v : String}

/-- Two verified writes of one writer at one seq with different ids, each the id of its content. -/
structure FraudProof (C : Crypto) (params : ChainParams) (x y : Write) : Prop where
  left : verifyWrite C params false x = .ok
  right : verifyWrite C params false y = .ok
  writer : x.writer = y.writer
  seq : x.seq = y.seq
  id_ne : x.id ≠ y.id
  left_id : writeIdOf C x.toWriteCore x.space x.time = x.id
  right_id : writeIdOf C y.toWriteCore y.space y.time = y.id

/-! ## Chains -/

namespace WriterChain

/-- A chain holds verified writes of its writer, at consecutive seqs. -/
structure Vetted (C : Crypto) (params : ChainParams) (c : WriterChain) : Prop where
  seq : ∀ i w, c.writes[i]? = some w → w.seq = c.baseSeq + i
  writer : ∀ w ∈ c.writes, w.writer = c.writer
  verified : ∀ w ∈ c.writes, verifyWrite C params false w = .ok

theorem vetted_of_empty (h : c.writes = []) : c.Vetted C params where
  seq i w hw := by simp [h] at hw
  writer w hw := by simp [h] at hw
  verified w hw := by simp [h] at hw

theorem Vetted.extend (hc : c.Vetted C params) (hw : c.Accepts C params w) :
    (c.extend params w).Vetted C params where
  seq i x hx := by
    rw [writes_extend, List.getElem?_append] at hx
    split_ifs at hx with hi
    · exact hc.seq i x hx
    · have hzero : i - c.writes.length = 0 := by
        by_contra hne
        rw [List.getElem?_eq_none (by simp; omega)] at hx
        exact nomatch hx
      rw [hzero] at hx
      obtain rfl := Option.some.inj hx
      have hseq := hw.seq
      unfold nextSeq at hseq
      show _ = c.baseSeq + i
      omega
  writer x hx := by
    rw [writes_extend, List.mem_append, List.mem_singleton] at hx
    rcases hx with hx | rfl
    · exact hc.writer x hx
    · exact hw.writer
  verified x hx := by
    rw [writes_extend, List.mem_append, List.mem_singleton] at hx
    rcases hx with hx | rfl
    · exact hc.verified x hx
    · exact hw.verified

/-- A chain takes a write that extends it or stays as it is, and it reports a pair only for a seq
that it has passed. -/
theorem append_spec (hc : c.Vetted C params) (w : Write) :
    ((c.append C params false w).1 = c ∨
        c.Accepts C params w ∧ (c.append C params false w).1 = c.extend params w) ∧
      ∀ x y, (c.append C params false w).2 = .equivocation x y → w.seq < c.nextSeq := by
  unfold append
  by_cases hwriter : w.writer = c.writer
  swap
  · rw [if_pos hwriter]
    exact ⟨.inl rfl, fun _ _ => by simp⟩
  rw [if_neg (not_not.mpr hwriter)]
  by_cases hplot : c.plotRoot ≠ none ∧ c.plotRoot ≠ some w.plot.root
  · rw [if_pos hplot]
    exact ⟨.inl rfl, fun _ _ => by simp⟩
  rw [if_neg hplot]
  cases hv : verifyWrite C params false w with
  | thrown message => exact ⟨.inl rfl, fun _ _ => by simp⟩
  | fail reason => exact ⟨.inl rfl, fun _ _ => by simp⟩
  | ok =>
    simp only
    cases hfind : c.writes.find? (fun x => decide (x.seq = w.seq)) with
    | some existing =>
      have hseq : existing.seq = w.seq := by simpa using List.find?_some hfind
      obtain ⟨i, hi⟩ := List.mem_iff_getElem?.mp (List.mem_of_find?_eq_some hfind)
      have hlt := (List.getElem?_eq_some_iff.mp hi).1
      have hpos := hc.seq i existing hi
      have hpassed : w.seq < c.nextSeq := by
        unfold nextSeq
        omega
      simp only
      split_ifs
      · exact ⟨.inl rfl, fun _ _ => by simp⟩
      · exact ⟨.inl rfl, fun _ _ _ => hpassed⟩
    | none =>
      simp only
      split_ifs with hseq hprev
      · exact ⟨.inl rfl, fun _ _ => by simp⟩
      · exact ⟨.inl rfl, fun _ _ => by simp⟩
      · refine ⟨.inr ⟨⟨hwriter, ?_, hv, not_not.mp hseq, not_not.mp hprev⟩, rfl⟩,
          fun _ _ => by simp⟩
        tauto

theorem Vetted.append (hc : c.Vetted C params) (w : Write) :
    (c.append C params false w).1.Vetted C params ∧
      (c.append C params false w).1.writer = c.writer := by
  rcases (append_spec hc w).1 with h | ⟨hw, h⟩
  · rw [h]
    exact ⟨hc, rfl⟩
  · rw [h]
    exact ⟨hc.extend hw, rfl⟩

end WriterChain

/-! ## One writer's share -/

open WriterChain

/-- A buffer holds verified writes of its writer, each at its seq. -/
def Queued (C : Crypto) (params : ChainParams) (v : String) (pend : OrderedMap ℕ Pending) : Prop :=
  ∀ seq e, pend.get? seq = some e →
    e.w.writer = v ∧ e.w.seq = seq ∧ verifyWrite C params false e.w = .ok

theorem Queued.filter (hp : Queued C params v pend) (keep : ℕ → Pending → Bool) :
    Queued C params v (pend.filter keep) := fun seq e he => by
  rw [OrderedMap.get?_filter, Option.filter_eq_some_iff] at he
  exact hp seq e he.1

theorem Queued.delete (hp : Queued C params v pend) (slot : ℕ) :
    Queued C params v (pend.delete slot) := hp.filter _

theorem Queued.empty : Queued C params v ∅ := fun seq e he => by
  rw [OrderedMap.get?_empty] at he
  exact nomatch he

/-- What a chain and its buffer hold for a write's slot. -/
def occupantOf (c : WriterChain) (pend : OrderedMap ℕ Pending) (w : Write) : Option Write :=
  if w.seq < c.baseSeq then none
  else if w.seq < c.nextSeq then c.writeAt w.seq
  else (pend.get? w.seq).map (·.w)

/-- What is held for a slot was verified, under the same writer and seq. -/
theorem occupantOf_spec (hc : c.Vetted C params) (hp : Queued C params c.writer pend) {x : Write}
    (h : occupantOf c pend w = some x) :
    x.writer = c.writer ∧ x.seq = w.seq ∧ verifyWrite C params false x = .ok := by
  unfold occupantOf at h
  split_ifs at h with hbase hnext
  · unfold writeAt at h
    rw [if_neg hbase] at h
    have hmem := List.mem_of_getElem? h
    have hseq := hc.seq _ _ h
    exact ⟨hc.writer x hmem, by omega, hc.verified x hmem⟩
  · obtain ⟨e, he, rfl⟩ := Option.map_eq_some_iff.mp h
    exact hp w.seq e he

namespace Ledger

/-- Draining reports no pair: it takes what is buffered above the tip. -/
theorem drain_vetted (hc : c.Vetted C params) (hp : Queued C params c.writer pend) (n : ℕ)
    (applied : List Write) :
    (drain C params false n c pend applied).1.Vetted C params ∧
      (drain C params false n c pend applied).1.writer = c.writer ∧
      Queued C params c.writer (drain C params false n c pend applied).2.1 ∧
      ∀ x y, (drain C params false n c pend applied).2.2 ≠ .equivocation x y := by
  induction n generalizing c pend applied with
  | zero => exact ⟨hc, rfl, hp, fun _ _ => by simp [drain]⟩
  | succ n ih =>
    rw [drain]
    cases hnext : pend.get? c.nextSeq with
    | none => exact ⟨hc, rfl, hp, fun _ _ => by simp⟩
    | some next =>
      obtain ⟨-, hseq, -⟩ := hp _ _ hnext
      obtain ⟨hc', hwriter⟩ := hc.append next.w
      have hfree := (append_spec hc next.w).2
      simp only
      generalize c.append C params false next.w = r at hc' hwriter hfree ⊢
      obtain ⟨c', result⟩ := r
      have hrest : Queued C params c'.writer (pend.delete c.nextSeq) := by
        rw [hwriter]
        exact hp.delete _
      cases result with
      | ok =>
        obtain ⟨h₁, h₂, h₃, h₄⟩ := ih hc' hrest (applied ++ [next.w])
        rw [hwriter] at h₂ h₃
        exact ⟨h₁, h₂, h₃, h₄⟩
      | fail reason => exact ⟨hc', hwriter, hp.delete _, fun _ _ => by simp⟩
      | equivocation x y =>
        have hlt := hfree x y rfl
        omega
      | thrown message => exact ⟨hc', hwriter, hp.delete _, fun _ _ => by simp⟩

/-- `apply` keeps what is vetted, and reports what the slot holds under another id. -/
theorem applyTo_vetted (hc : c.Vetted C params) (hp : Queued C params c.writer pend)
    (hw : w.writer = c.writer) (tick : ℕ) :
    (applyTo C params false c pend tick w).1.Vetted C params ∧
      (applyTo C params false c pend tick w).1.writer = c.writer ∧
      Queued C params c.writer (applyTo C params false c pend tick w).2.1 ∧
      ∀ x y, (applyTo C params false c pend tick w).2.2 = .equivocation x y ↔
        occupantOf c pend w = some x ∧ x.id ≠ w.id ∧ y = w := by
  unfold applyTo occupantOf
  by_cases hbase : w.seq < c.baseSeq
  · rw [if_pos hbase, if_pos hbase]
    exact ⟨hc, rfl, hp, fun x y => by simp⟩
  rw [if_neg hbase, if_neg hbase]
  cases hex : (if w.seq < c.nextSeq then c.writeAt w.seq else (pend.get? w.seq).map (·.w)) with
  | some existing =>
    refine ⟨hc, rfl, hp, fun x y => ?_⟩
    simp only [Option.some.injEq]
    split_ifs with hid
    · refine iff_of_false (by simp) ?_
      rintro ⟨rfl, hne, -⟩
      exact hne hid
    · simp only [ApplyResult.equivocation.injEq]
      constructor
      · rintro ⟨rfl, rfl⟩
        exact ⟨rfl, hid, rfl⟩
      · rintro ⟨rfl, -, rfl⟩
        exact ⟨rfl, rfl⟩
  | none =>
    have hnone : ∀ {result : ApplyResult}, (∀ x y, result ≠ .equivocation x y) →
        ∀ x y : Write, result = .equivocation x y ↔
          (none : Option Write) = some x ∧ x.id ≠ w.id ∧ y = w := fun hne x y => by
      simpa using hne x y
    simp only
    by_cases hahead : c.nextSeq < w.seq
    · rw [if_pos hahead]
      cases hv : verifyWrite C params false w with
      | thrown message => exact ⟨hc, rfl, hp, hnone fun _ _ => by simp⟩
      | fail reason => exact ⟨hc, rfl, hp, hnone fun _ _ => by simp⟩
      | ok =>
        refine ⟨hc, rfl, fun seq e he => ?_, hnone fun _ _ => by simp⟩
        rw [OrderedMap.get?_set] at he
        split_ifs at he with hseq
        · obtain rfl := Option.some.inj he
          exact ⟨hw, hseq, hv⟩
        · exact hp seq e he
    · have hseq := seq_eq_of_free hbase hex hahead
      obtain ⟨hc', hwriter⟩ := hc.append w
      have hfree := (append_spec hc w).2
      rw [if_neg hahead]
      generalize c.append C params false w = r at hc' hwriter hfree ⊢
      obtain ⟨c', result⟩ := r
      cases result with
      | ok =>
        obtain ⟨h₁, h₂, h₃, h₄⟩ := drain_vetted hc' (by rw [hwriter]; exact hp) pend.size [w]
        rw [hwriter] at h₂ h₃
        exact ⟨h₁, h₂, h₃, hnone h₄⟩
      | fail reason => exact ⟨hc', hwriter, hp, hnone fun _ _ => by simp⟩
      | equivocation x y =>
        have hlt := hfree x y rfl
        omega
      | thrown message => exact ⟨hc', hwriter, hp, hnone fun _ _ => by simp⟩

/-! ## Ledgers -/

/-- Every chain and every buffer of a ledger holds verified writes in their places. -/
structure Vetted (C : Crypto) (params : ChainParams) (L : Ledger) : Prop where
  writer : ∀ v c, L.chains.get? v = some c → c.writer = v
  chain : ∀ v c, L.chains.get? v = some c → c.Vetted C params
  buffer : ∀ v, Queued C params v (L.pendingOf v)

variable {L : Ledger}

theorem Vetted.chainFor (hL : L.Vetted C params) (w : Write) :
    (L.chainFor w).Vetted C params ∧ (L.chainFor w).writer = w.writer := by
  unfold Ledger.chainFor
  cases hc : L.chains.get? w.writer with
  | none => exact ⟨vetted_of_empty rfl, rfl⟩
  | some c => exact ⟨hL.chain _ c hc, hL.writer _ c hc⟩

theorem Vetted.live (hL : L.Vetted C params) (v : String) : Queued C params v (L.live v) := by
  unfold Ledger.live
  split_ifs
  · exact (hL.buffer v).filter _
  · exact .empty

theorem Vetted.put (hL : L.Vetted C params) {c : WriterChain} (hc : c.Vetted C params)
    (hp : Queued C params c.writer pend) (tick : ℕ) :
    (L.put c.writer c pend tick).Vetted C params where
  writer v x hx := by
    change (L.chains.set c.writer c).get? v = some x at hx
    rw [OrderedMap.get?_set] at hx
    split_ifs at hx with hv
    · obtain rfl := Option.some.inj hx
      exact hv
    · exact hL.writer v x hx
  chain v x hx := by
    change (L.chains.set c.writer c).get? v = some x at hx
    rw [OrderedMap.get?_set] at hx
    split_ifs at hx with hv
    · obtain rfl := Option.some.inj hx
      exact hc
    · exact hL.chain v x hx
  buffer v := by
    show Queued C params v (((L.pending.set c.writer pend).get? v).getD ∅)
    rw [OrderedMap.get?_set]
    split_ifs with hv
    · subst hv
      exact hp
    · exact hL.buffer v

/-- What the next `apply` finds in a write's slot: a pruned slot and a free one are empty. -/
def occupant (L : Ledger) (w : Write) : Option Write :=
  occupantOf (L.chainFor w) (L.live w.writer) w

/-- `apply` keeps a ledger vetted, and reports what the slot holds under another id. -/
theorem Vetted.apply (hL : L.Vetted C params) (w : Write) :
    (L.apply C params false w).1.Vetted C params ∧
      ∀ x y, (L.apply C params false w).2 = .equivocation x y ↔
        L.occupant w = some x ∧ x.id ≠ w.id ∧ y = w := by
  obtain ⟨hc, hwriter⟩ := hL.chainFor w
  have hp : Queued C params (L.chainFor w).writer (L.live w.writer) := by
    rw [hwriter]
    exact hL.live w.writer
  obtain ⟨hc', hwriter', hp', hpair⟩ := applyTo_vetted hc hp hwriter.symm (L.tick + 1)
  rw [apply_eq]
  refine ⟨?_, hpair⟩
  rw [← hwriter'] at hp'
  have hput := hL.put hc' hp' (L.tick + 1)
  rw [hwriter', hwriter] at hput
  exact hput

/-- A write whose time proof ran is replayed as it was applied. -/
theorem Vetted.apply_replay (hL : L.Vetted C params) (hw : TimeProven C params w) :
    L.apply C params true w = L.apply C params false w := by
  have hdrain : ∀ c, drain C params true (L.live w.writer).size c (L.live w.writer) [w]
      = drain C params false (L.live w.writer).size c (L.live w.writer) [w] := fun c =>
    drain_skip (fun seq e he => timeProven_of_verifyWrite (hL.live w.writer seq e he).2.2) [w]
  rw [apply_eq, apply_eq]
  unfold applyTo
  simp only [verifyWrite_skip hw, append_skip _ hw, hdrain]

theorem Vetted.seedCheckpoint (hL : L.Vetted C params) (heads : Heads) :
    (L.seedCheckpoint params heads).Vetted C params := by
  unfold Ledger.seedCheckpoint
  induction heads.entries generalizing L with
  | nil => exact hL
  | cons e l ih =>
    have hc : (WriterChain.resumeAt params e.1 (e.2.seq + 1) e.2.id).Vetted C params :=
      vetted_of_empty rfl
    rw [List.foldl_cons]
    exact ih (hL.put hc .empty L.tick)

/-- Pruned at any head, a chain holds what it takes of its own writes. -/
theorem vetted_prunedAt (c : WriterChain) (v : String) (h : Head) :
    (c.prunedAt C params v h).Vetted C params ∧ (c.prunedAt C params v h).writer = v := by
  have key : ∀ (ws : List Write) (r : WriterChain), r.Vetted C params →
      (ws.foldl (fun r w => (r.append C params false w).1) r).Vetted C params ∧
        (ws.foldl (fun r w => (r.append C params false w).1) r).writer = r.writer := by
    intro ws
    induction ws with
    | nil => exact fun r hr => ⟨hr, rfl⟩
    | cons w ws ih =>
      intro r hr
      obtain ⟨hr', hwriter⟩ := hr.append w
      rw [List.foldl_cons, ← hwriter]
      exact ih _ hr'
  exact key _ _ (vetted_of_empty rfl)

theorem Vetted.pruneBelow (hL : L.Vetted C params) (heads : Heads) :
    (L.pruneBelow C params heads).Vetted C params := by
  rw [pruneBelow_eq]
  induction heads.entries generalizing L with
  | nil => exact hL
  | cons e l ih =>
    rw [List.foldl_cons]
    refine ih ?_
    unfold pruneOne
    cases hc : L.chains.get? e.1 with
    | none => exact hL
    | some c =>
      simp only
      split_ifs
      · exact hL
      · obtain ⟨hr, hwriter⟩ := vetted_prunedAt c e.1 e.2
        refine ⟨fun v x hx => ?_, fun v x hx => ?_, hL.buffer⟩
        · rw [OrderedMap.get?_set] at hx
          split_ifs at hx with hv
          · obtain rfl := Option.some.inj hx
            exact hwriter.trans hv
          · exact hL.writer v x hx
        · rw [OrderedMap.get?_set] at hx
          split_ifs at hx with hv
          · obtain rfl := Option.some.inj hx
            exact hr
          · exact hL.chain v x hx

/-- The ledgers of a node: pruned at heads it holds or not, seeded from any checkpoint. Writes are
replayed from the store only when their time proofs were checked before they were stored. -/
inductive Lived (C : Crypto) (params : ChainParams) : Ledger → Prop
  | empty : Lived C params Ledger.empty
  | apply {L : Ledger} (hL : Lived C params L) (w : Write) :
      Lived C params (L.apply C params false w).1
  | replay {L : Ledger} (hL : Lived C params L) (w : Write) (hw : TimeProven C params w) :
      Lived C params (L.apply C params true w).1
  | seedCheckpoint {L : Ledger} (hL : Lived C params L) (heads : Heads) :
      Lived C params (L.seedCheckpoint params heads)
  | pruneBelow {L : Ledger} (hL : Lived C params L) (heads : Heads) :
      Lived C params (L.pruneBelow C params heads)

theorem Lived.vetted (h : Lived C params L) : L.Vetted C params := by
  induction h with
  | empty =>
    refine ⟨fun v c hc => ?_, fun v c hc => ?_, fun v => .empty⟩ <;>
    · rw [Ledger.empty, OrderedMap.get?_empty] at hc
      exact absurd hc (by simp)
  | apply _ w ih => exact (ih.apply w).1
  | replay _ w hw ih =>
    rw [ih.apply_replay hw]
    exact (ih.apply w).1
  | seedCheckpoint _ heads ih => exact ih.seedCheckpoint heads
  | pruneBelow _ heads ih => exact ih.pruneBelow heads

/-! ## Reports -/

/-- What is held against a verified write makes a fraud proof with it. -/
theorem fraudProof_of_occupant (hL : L.Vetted C params) {x : Write} (h : L.occupant w = some x)
    (hne : x.id ≠ w.id) (hw : verifyWrite C params false w = .ok) : FraudProof C params x w := by
  obtain ⟨hc, hwriter⟩ := hL.chainFor w
  have hp : Queued C params (L.chainFor w).writer (L.live w.writer) := by
    rw [hwriter]
    exact hL.live w.writer
  obtain ⟨hxw, hxs, hx⟩ := occupantOf_spec hc hp h
  exact ⟨hx, hw, hxw.trans hwriter, hxs, hne, writeIdOf_eq_id hx, writeIdOf_eq_id hw⟩

/-- **A reported pair is a fraud proof exactly when the write that came is verified wherever its
slot is held under another id.** -/
theorem equivocation_genuine_iff (C : Crypto) (params : ChainParams) (L : Ledger)
    (hL : Lived C params L) (w : Write) :
    (∀ x y, (L.apply C params false w).2 = .equivocation x y → FraudProof C params x y) ↔
      ∀ x, L.occupant w = some x → x.id ≠ w.id → verifyWrite C params false w = .ok := by
  have hreport := (hL.vetted.apply w).2
  constructor
  · intro h x hx hne
    exact (h x w ((hreport x w).mpr ⟨hx, hne, rfl⟩)).right
  · intro h x y hxy
    obtain ⟨hx, hne, rfl⟩ := (hreport x y).mp hxy
    exact fraudProof_of_occupant hL.vetted hx hne (h x hx hne)

namespace Preempted

open AnchorChain

/-- The writer's first write as anyone can send it, under another id. -/
def renamed : Write := { genuine with id := genuine.id ++ "0" }

/-- A ledger that holds the writer's first write. -/
def holding : Ledger := (Ledger.empty.apply openConfig.crypto openConfig.params false genuine).1

end Preempted

open Preempted AnchorChain in
/-- A copy of an honest write under another id is reported with it. -/
theorem honest_writer_reported :
    Lived openConfig.crypto openConfig.params holding ∧
      verifyWrite openConfig.crypto openConfig.params false genuine = .ok ∧
      ∃ x, x.id = genuine.id ∧
        (holding.apply openConfig.crypto openConfig.params false renamed).2
          = .equivocation x renamed ∧
        ¬ FraudProof openConfig.crypto openConfig.params x renamed := by
  have hL : Lived openConfig.crypto openConfig.params holding := .apply .empty genuine
  obtain ⟨hgenuine, hrenamed, hne, hslot⟩ :
      verifyWrite openConfig.crypto openConfig.params false genuine = .ok ∧
      verifyWrite openConfig.crypto openConfig.params false renamed ≠ .ok ∧
      genuine.id ≠ renamed.id ∧
      (holding.occupant renamed).map (·.id) = some genuine.id := by decide +kernel
  obtain ⟨x, hx, hid⟩ := Option.map_eq_some_iff.mp hslot
  refine ⟨hL, hgenuine, x, hid, ?_, fun h => hrenamed h.right⟩
  exact ((hL.vetted.apply renamed).2 x renamed).mpr ⟨hx, by rw [hid]; exact hne, rfl⟩

open Preempted AnchorChain in
/-- The equivalence for the renamed copy. -/
theorem equivocation_genuine_iff_renamed :
    ¬ ∀ x y, (holding.apply openConfig.crypto openConfig.params false renamed).2
        = .equivocation x y → FraudProof openConfig.crypto openConfig.params x y := by
  rw [equivocation_genuine_iff openConfig.crypto openConfig.params holding (.apply .empty genuine)
    renamed]
  intro h
  obtain ⟨hrenamed, hne, hslot⟩ :
      verifyWrite openConfig.crypto openConfig.params false renamed ≠ .ok ∧
      genuine.id ≠ renamed.id ∧
      (holding.occupant renamed).map (·.id) = some genuine.id := by decide +kernel
  obtain ⟨x, hx, hid⟩ := Option.map_eq_some_iff.mp hslot
  exact hrenamed (h x hx (by rw [hid]; exact hne))

end Ledger

end Gavl
