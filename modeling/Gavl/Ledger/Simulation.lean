import Gavl.Ledger.Invariant

/-!
# Ledgers in step

Two ledgers whose chains end alike, whose buffers hold the same writes, and where a write is as old
in the one as in the other, answer every write alike and stay in step. The one may have pruned what
the other holds.
-/

namespace Gavl

variable {C : Crypto} {params : ChainParams} {w : Write} {ws : List Write}

theorem optionRel_cases {α β : Type*} {r : α → β → Prop} {x : Option α} {y : Option β}
    (h : Option.Rel r x y) : (x = none ∧ y = none) ∨ ∃ a b, x = some a ∧ y = some b ∧ r a b := by
  cases h with
  | none => exact .inl ⟨rfl, rfl⟩
  | some hab => exact .inr ⟨_, _, rfl, rfl, hab⟩

/-! ## Buffers -/

/-- The same write, and as old at `t` as the other is at `t'`. -/
def SameAge (t t' : ℕ) (e e' : Pending) : Prop := e.w = e'.w ∧ e.tick + t' = e'.tick + t

/-- The same writes in the same slots, each as old as the other. -/
def SameBuffer (t t' : ℕ) (p p' : OrderedMap ℕ Pending) : Prop :=
  ∀ slot, Option.Rel (SameAge t t') (p.get? slot) (p'.get? slot)

namespace SameBuffer

variable {t t' : ℕ} {p p' : OrderedMap ℕ Pending}

theorem empty : SameBuffer t t' ∅ ∅ := fun _ => .none

/-- What a slot holds is the same write. -/
theorem map_w (h : SameBuffer t t' p p') (slot : ℕ) :
    (p.get? slot).map (·.w) = (p'.get? slot).map (·.w) := by
  obtain ⟨hp, hp'⟩ | ⟨e, e', hp, hp', hage⟩ := optionRel_cases (h slot)
  · rw [hp, hp']
  · rw [hp, hp']
    exact congrArg some hage.1

theorem delete (h : SameBuffer t t' p p') (k : ℕ) : SameBuffer t t' (p.delete k) (p'.delete k) := by
  intro slot
  rw [OrderedMap.get?_delete, OrderedMap.get?_delete]
  split_ifs
  · exact .none
  · exact h slot

theorem set (h : SameBuffer t t' p p') (k : ℕ) (w : Write) :
    SameBuffer t t' (p.set k ⟨w, t⟩) (p'.set k ⟨w, t'⟩) := by
  intro slot
  rw [OrderedMap.get?_set, OrderedMap.get?_set]
  split_ifs
  · exact .some ⟨rfl, Nat.add_comm t t'⟩
  · exact h slot

theorem tick (h : SameBuffer t t' p p') : SameBuffer (t + 1) (t' + 1) p p' := fun slot => by
  obtain ⟨hp, hp'⟩ | ⟨e, e', hp, hp', hw, hage⟩ := optionRel_cases (h slot)
  · rw [hp, hp']
    exact .none
  · rw [hp, hp']
    exact .some ⟨hw, by omega⟩

/-- Both drop what is too old one tick on. -/
theorem decay (h : SameBuffer t t' p p') : SameBuffer t t'
    (p.filter (fun _ e => decide (t + 1 - e.tick ≤ pendingMaxAge)))
    (p'.filter (fun _ e => decide (t' + 1 - e.tick ≤ pendingMaxAge))) := by
  intro slot
  rw [OrderedMap.get?_filter, OrderedMap.get?_filter]
  obtain ⟨hp, hp'⟩ | ⟨e, e', hp, hp', hw, hage⟩ := optionRel_cases (h slot)
  · rw [hp, hp']
    exact .none
  · rw [hp, hp', Option.filter_some, Option.filter_some]
    have hsame : t + 1 - e.tick = t' + 1 - e'.tick := by omega
    rw [hsame]
    split_ifs
    · exact .some ⟨hw, hage⟩
    · exact .none

theorem get?_eq_none (h : p.size = 0) (slot : ℕ) : p.get? slot = none := by
  rw [OrderedMap.eq_empty_of_entries (List.eq_nil_of_length_eq_zero h)]
  rfl

end SameBuffer

/-! ## Chains -/

namespace WriterChain

variable {c c' : WriterChain}

/-- What `append` does at the seq above the tip. -/
theorem Sound.append_at_tip (h : c.Sound C params) (hseq : w.seq = c.nextSeq) :
    c.append C params false w =
      if w.writer ≠ c.writer then (c, .fail "wrong writer")
      else if c.plotRoot ≠ none ∧ c.plotRoot ≠ some w.plot.root then
        (c, .fail "wrong plot commitment")
      else
        match verifyWrite C params false w with
        | .thrown message => (c, .thrown message)
        | .fail reason => (c, .fail s!"invalid write: {reason}")
        | .ok =>
          if w.prev ≠ c.headId then (c, .fail "bad prev link") else (c.extend params w, .ok) := by
  unfold append
  rw [h.find?_eq_none hseq.ge]
  simp only
  rw [if_neg (by simp [hseq] : ¬ w.seq ≠ c.nextSeq)]
  rfl

/-- `c'` ends as `c` does, and holds of its writes those from its own floor on. -/
structure Above (c c' : WriterChain) : Prop where
  writer : c.writer = c'.writer
  base : c.baseSeq ≤ c'.baseSeq
  next : c.nextSeq = c'.nextSeq
  head : c.headId = c'.headId
  weight : c.weight = c'.weight
  writes : c'.writes = c.writes.drop (c'.baseSeq - c.baseSeq)

theorem Above.refl (c : WriterChain) : Above c c := ⟨rfl, le_rfl, rfl, rfl, rfl, by simp⟩

theorem Above.extend (h : Above c c') : Above (c.extend params w) (c'.extend params w) where
  writer := h.writer
  base := h.base
  next := by rw [nextSeq_extend, nextSeq_extend, h.next]
  head := by rw [headId_extend, headId_extend]
  weight := by
    show c.weight + writeWeight params = c'.weight + writeWeight params
    rw [h.weight]
  writes := by
    have hlen : c'.baseSeq - c.baseSeq ≤ c.writes.length := by
      have := h.next
      have := h.base
      unfold nextSeq at *
      omega
    rw [writes_extend, writes_extend, h.writes]
    show _ = (c.writes ++ [w]).drop (c'.baseSeq - c.baseSeq)
    rw [List.drop_append_of_le_length hlen]

/-- From its floor on `c'` holds what `c` does. -/
theorem Above.writeAt (h : Above c c') {seq : ℕ} (hseq : c'.baseSeq ≤ seq) :
    c.writeAt seq = c'.writeAt seq := by
  have hbase := h.base
  unfold WriterChain.writeAt
  rw [if_neg (by omega), if_neg (by omega), h.writes, List.getElem?_drop]
  congr 1
  omega

/-- The plot roots agree on a write: `c'` has that of `c`, or none where `c` has the write's. -/
def PlotsAgree (c c' : WriterChain) (root : String) : Prop :=
  c'.plotRoot = c.plotRoot ∨ c'.plotRoot = none ∧ (c.plotRoot = none ∨ c.plotRoot = some root)

theorem PlotsAgree.refused_iff {root : String} (h : PlotsAgree c c' root) :
    (c'.plotRoot ≠ none ∧ c'.plotRoot ≠ some root) ↔
      (c.plotRoot ≠ none ∧ c.plotRoot ≠ some root) := by
  obtain h | ⟨h, hnone | hroot⟩ := h
  · rw [h]
  · simp [h, hnone]
  · simp [h, hroot]

/-- Both have the same plot root once they took the write. -/
theorem PlotsAgree.extend {root : String} (h : PlotsAgree c c' root) :
    c'.plotRoot.getD root = c.plotRoot.getD root := by
  obtain h | ⟨h, hnone | hroot⟩ := h
  · rw [h]
  · rw [h, hnone]
  · rw [h, hroot]
    rfl

/-- Both take a write at the tip, or both refuse it for the same reason. -/
theorem Above.append (h : Above c c') (hc : c.Sound C params) (hc' : c'.Sound C params)
    (hseq : w.seq = c.nextSeq) (hplot : PlotsAgree c c' w.plot.root) :
    (c.Accepts C params w ∧ c'.Accepts C params w) ∨
      ∃ r, r ≠ .ok ∧ c.append C params false w = (c, r) ∧ c'.append C params false w = (c', r) := by
  have hat := hc.append_at_tip hseq
  have hat' := hc'.append_at_tip (hseq.trans h.next)
  obtain ⟨hw, -⟩ | ⟨hw, hrefused⟩ := hc.append_cases hseq
  · refine .inl ⟨hw, ?_, ?_, hw.verified, hseq.trans h.next, hw.prev.trans h.head⟩
    · rw [hw.writer, h.writer]
    · have hok : ¬(c'.plotRoot ≠ none ∧ c'.plotRoot ≠ some w.plot.root) := fun hbad => by
        obtain ⟨h1, h2⟩ := hplot.refused_iff.mp hbad
        exact hw.plot.elim h1 h2
      by_cases hn : c'.plotRoot = none
      · exact .inl hn
      · exact .inr (by_contra fun hne => hok ⟨hn, hne⟩)
  · right
    rw [hat, hat', ← h.writer, ← h.head]
    rw [hat] at hrefused
    by_cases h1 : w.writer ≠ c.writer
    · exact ⟨.fail "wrong writer", by simp, by rw [if_pos h1], by rw [if_pos h1]⟩
    by_cases h2 : c.plotRoot ≠ none ∧ c.plotRoot ≠ some w.plot.root
    · refine ⟨.fail "wrong plot commitment", by simp, ?_, ?_⟩
      · rw [if_neg h1, if_pos h2]
      · rw [if_neg h1, if_pos (hplot.refused_iff.mpr h2)]
    rw [if_neg h1, if_neg h2] at hrefused
    rw [if_neg h1, if_neg h1, if_neg h2, if_neg (fun hbad => h2 (hplot.refused_iff.mp hbad))]
    cases hv : verifyWrite C params false w with
    | thrown message => exact ⟨.thrown message, by simp, rfl, rfl⟩
    | fail reason => exact ⟨_, by simp, rfl, rfl⟩
    | ok =>
      rw [hv] at hrefused
      simp only at hrefused ⊢
      by_cases h3 : w.prev ≠ c.headId
      · exact ⟨.fail "bad prev link", by simp, by rw [if_pos h3], by rw [if_pos h3]⟩
      · rw [if_neg h3] at hrefused
        obtain ⟨_, hf⟩ | ⟨_, hf⟩ := hrefused <;> simp at hf

end WriterChain

/-! ## Draining -/

namespace Ledger

open WriterChain

variable {c c' : WriterChain} {p p' : OrderedMap ℕ Pending} {t t' : ℕ}

/-- Two chains with one plot root drain buffers that hold the same alike. -/
theorem drain_inStep {n m : ℕ} (h : Above c c') (hc : c.Sound C params) (hc' : c'.Sound C params)
    (hplot : c'.plotRoot = c.plotRoot) (hp : SameBuffer t t' p p')
    (hb : ∀ slot e, p.get? slot = some e → e.w.seq = slot) (hn : p.size ≤ n) (hm : p'.size ≤ m)
    (applied : List Write) :
    ∃ d d' q q' r, drain C params false n c p applied = (d, q, r) ∧
      drain C params false m c' p' applied = (d', q', r) ∧ Above d d' ∧
      d'.plotRoot = d.plotRoot ∧ d.baseSeq = c.baseSeq ∧ d'.baseSeq = c'.baseSeq ∧
      SameBuffer t t' q q' := by
  induction n generalizing m c c' p p' applied with
  | zero =>
    have hnone : p.get? c.nextSeq = none := SameBuffer.get?_eq_none (by omega) _
    have hnone' : p'.get? c'.nextSeq = none := by
      have := hp.map_w c'.nextSeq
      rw [SameBuffer.get?_eq_none (by omega) c'.nextSeq] at this
      simpa using this.symm
    refine ⟨c, c', p, p', .applied applied false, rfl, ?_, h, hplot, rfl, rfl, hp⟩
    cases m with
    | zero => rfl
    | succ m => rw [drain, hnone']
  | succ n ih =>
    rw [drain]
    obtain ⟨hnone, hnone'⟩ | ⟨e, e', he, he', hage⟩ := optionRel_cases (hp c.nextSeq)
    · rw [hnone]
      refine ⟨c, c', p, p', .applied applied false, rfl, ?_, h, hplot, rfl, rfl, hp⟩
      cases m with
      | zero => rfl
      | succ m => rw [drain, ← h.next, hnone']
    · have hpos := OrderedMap.size_delete_lt he'
      have hlt := OrderedMap.size_delete_lt he
      obtain ⟨m, rfl⟩ : ∃ k, m = k + 1 := ⟨m - 1, by omega⟩
      rw [drain, ← h.next, he, he']
      simp only
      rw [← hage.1]
      have hseq : e.w.seq = c.nextSeq := hb _ _ he
      obtain ⟨hw, hw'⟩ | ⟨r, hr, happ, happ'⟩ := h.append hc hc' hseq (.inl hplot)
      · rw [hc.append_eq hw, hc'.append_eq hw']
        refine ih h.extend (hc.extend hw) (hc'.extend hw') ?_ (hp.delete _) (fun slot x hx => ?_)
          (by omega) (by omega) _
        · exact congrArg some (PlotsAgree.extend (.inl hplot))
        · rw [OrderedMap.get?_delete] at hx
          split_ifs at hx
          exact hb slot x hx
      · rw [happ, happ']
        cases r with
        | ok => exact absurd rfl hr
        | fail reason => exact ⟨_, _, _, _, _, rfl, rfl, h, hplot, rfl, rfl, hp.delete _⟩
        | equivocation x y => exact ⟨_, _, _, _, _, rfl, rfl, h, hplot, rfl, rfl, hp.delete _⟩
        | thrown message => exact ⟨_, _, _, _, _, rfl, rfl, h, hplot, rfl, rfl, hp.delete _⟩

/-- What `apply` does to one writer, in two ledgers in step. -/
theorem applyTo_inStep (h : Above c c') (hc : c.Sound C params) (hc' : c'.Sound C params)
    (hbase : c.baseSeq = c'.baseSeq ∨ c'.baseSeq ≤ w.seq) (hplot : PlotsAgree c c' w.plot.root)
    (hp : SameBuffer t t' p p') (hb : ∀ slot e, p.get? slot = some e → e.w.seq = slot) :
    ∃ d d' q q' r, applyTo C params false c p t w = (d, q, r) ∧
      applyTo C params false c' p' t' w = (d', q', r) ∧ Above d d' ∧ SameBuffer t t' q q' ∧
      d.baseSeq = c.baseSeq ∧ d'.baseSeq = c'.baseSeq ∧
      (d = c ∧ d' = c' ∨ d'.plotRoot = d.plotRoot) := by
  unfold applyTo
  have hle := h.base
  by_cases hfloor : w.seq < c'.baseSeq
  · have hfloor' : w.seq < c.baseSeq := by omega
    rw [if_pos hfloor, if_pos hfloor']
    exact ⟨c, c', p, p', _, rfl, rfl, h, hp, rfl, rfl, .inl ⟨rfl, rfl⟩⟩
  · have hfloor' : ¬ w.seq < c.baseSeq := by omega
    have hexisting : (if w.seq < c.nextSeq then c.writeAt w.seq else (p.get? w.seq).map (·.w))
        = (if w.seq < c'.nextSeq then c'.writeAt w.seq else (p'.get? w.seq).map (·.w)) := by
      rw [h.next, h.writeAt (not_lt.mp hfloor), hp.map_w]
    rw [if_neg hfloor, if_neg hfloor', ← hexisting, ← h.next]
    cases hex : (if w.seq < c.nextSeq then c.writeAt w.seq else (p.get? w.seq).map (·.w)) with
    | some x => exact ⟨c, c', p, p', _, rfl, rfl, h, hp, rfl, rfl, .inl ⟨rfl, rfl⟩⟩
    | none =>
      simp only
      by_cases hahead : c.nextSeq < w.seq
      · rw [if_pos hahead, if_pos hahead]
        cases verifyWrite C params false w with
        | thrown message => exact ⟨c, c', p, p', _, rfl, rfl, h, hp, rfl, rfl, .inl ⟨rfl, rfl⟩⟩
        | fail reason => exact ⟨c, c', p, p', _, rfl, rfl, h, hp, rfl, rfl, .inl ⟨rfl, rfl⟩⟩
        | ok => exact ⟨c, c', _, _, _, rfl, rfl, h, hp.set w.seq w, rfl, rfl, .inl ⟨rfl, rfl⟩⟩
      · rw [if_neg hahead, if_neg hahead]
        have hseq := seq_eq_of_free hfloor' hex hahead
        obtain ⟨hw, hw'⟩ | ⟨r, hr, happ, happ'⟩ := h.append hc hc' hseq hplot
        · rw [hc.append_eq hw, hc'.append_eq hw']
          have hroot : (c'.extend params w).plotRoot = (c.extend params w).plotRoot :=
            congrArg some hplot.extend
          obtain ⟨d, d', q, q', r, hd, hd', habove, hpl, hbase, hbase', hq⟩ := drain_inStep h.extend (hc.extend hw)
            (hc'.extend hw') hroot hp hb le_rfl le_rfl [w]
          exact ⟨d, d', q, q', r, hd, hd', habove, hq, hbase, hbase', .inr hpl⟩
        · rw [happ, happ']
          cases r with
          | ok => exact absurd rfl hr
          | fail reason => exact ⟨c, c', p, p', _, rfl, rfl, h, hp, rfl, rfl, .inl ⟨rfl, rfl⟩⟩
          | equivocation x y => exact ⟨c, c', p, p', _, rfl, rfl, h, hp, rfl, rfl, .inl ⟨rfl, rfl⟩⟩
          | thrown message => exact ⟨c, c', p, p', _, rfl, rfl, h, hp, rfl, rfl, .inl ⟨rfl, rfl⟩⟩

/-! ## Later writes -/

variable {L M : Ledger}

/-- The ledger after some writes. -/
def after (C : Crypto) (params : ChainParams) (L : Ledger) (ws : List Write) : Ledger :=
  ws.foldl (fun L w => (L.apply C params false w).1) L

/-- What `apply` returns for each of them. -/
def results (C : Crypto) (params : ChainParams) (L : Ledger) : List Write → List ApplyResult
  | [] => []
  | w :: ws =>
    (L.apply C params false w).2 :: results C params (L.apply C params false w).1 ws

@[simp] theorem after_cons : L.after C params (w :: ws)
    = (L.apply C params false w).1.after C params ws := rfl

theorem after_append (ws ws' : List Write) : L.after C params (ws ++ ws')
    = (L.after C params ws).after C params ws' := List.foldl_append

theorem results_append (ws ws' : List Write) : L.results C params (ws ++ ws')
    = L.results C params ws ++ (L.after C params ws).results C params ws' := by
  induction ws generalizing L with
  | nil => rfl
  | cons w ws ih =>
    rw [List.cons_append, results, results, ih, after_cons, List.cons_append]

/-- Two ledgers behave alike on some writes and end alike. -/
structure Alike (C : Crypto) (params : ChainParams) (L M : Ledger) (ws : List Write) : Prop where
  results : L.results C params ws = M.results C params ws
  heads : ∀ v, (L.after C params ws).heads.get? v = (M.after C params ws).heads.get? v
  stateRoot : (L.after C params ws).stateRoot C = (M.after C params ws).stateRoot C
  totalWeight : (L.after C params ws).totalWeight = (M.after C params ws).totalWeight

/-! ## Ledgers -/

/-- One writer of two ledgers in step: `pin` is the plot root that the second still has to learn. -/
structure ChainsInStep (floor : ℕ) (pin : Option String) (c c' : WriterChain) : Prop where
  above : Above c c'
  floor : c.baseSeq = c'.baseSeq ∨ c'.baseSeq ≤ floor
  plot : c'.plotRoot = c.plotRoot ∨ c'.plotRoot = none ∧ c.plotRoot = pin

/-- Two ledgers in step. -/
structure InStep (floor : String → ℕ) (pin : String → Option String) (L M : Ledger) : Prop where
  chain : ∀ v, Option.Rel (ChainsInStep (floor v) (pin v)) (L.chains.get? v) (M.chains.get? v)
  buffer : ∀ v, SameBuffer L.tick M.tick (L.live v) (M.live v)

theorem ChainsInStep.refl {floor : ℕ} {pin : Option String} (c : WriterChain) :
    ChainsInStep floor pin c c := ⟨.refl c, .inl rfl, .inl rfl⟩

variable {floor : String → ℕ} {pin : String → Option String}

/-- A write above the floor of its writer, from the plot that is still to be learned. -/
def Fits (floor : String → ℕ) (pin : String → Option String) (w : Write) : Prop :=
  floor w.writer ≤ w.seq ∧ (pin w.writer = none ∨ pin w.writer = some w.plot.root)

theorem InStep.chainFor (h : InStep floor pin L M) (w : Write) :
    ChainsInStep (floor w.writer) (pin w.writer) (L.chainFor w) (M.chainFor w) := by
  unfold Ledger.chainFor
  obtain ⟨hc, hc'⟩ | ⟨c, c', hc, hc', hstep⟩ := optionRel_cases (h.chain w.writer)
  · rw [hc, hc']
    exact ⟨.refl _, .inl rfl, .inl rfl⟩
  · rw [hc, hc']
    exact hstep

/-- Ledgers in step answer a write alike and stay in step. -/
theorem InStep.apply (h : InStep floor pin L M) (hL : L.Sound C params) (hM : M.Sound C params)
    (hw : Fits floor pin w) :
    InStep floor pin (L.apply C params false w).1 (M.apply C params false w).1 ∧
      (L.apply C params false w).2 = (M.apply C params false w).2 := by
  have hstep := h.chainFor w
  have hplot : PlotsAgree (L.chainFor w) (M.chainFor w) w.plot.root :=
    hstep.plot.imp id fun ⟨h1, h2⟩ => ⟨h1, by rw [h2]; exact hw.2⟩
  have hbase := hstep.floor.imp id fun hle => hle.trans hw.1
  obtain ⟨d, d', q, q', r, hd, hd', habove, hq, hfloor, hfloor', hroot⟩ :=
    applyTo_inStep hstep.above (hL.chainFor w).1 (hM.chainFor w).1 hbase hplot
      (h.buffer w.writer).tick (fun slot e he => (hL.live w slot e he).seq)
  rw [apply_eq, apply_eq, hd, hd']
  refine ⟨⟨fun v => ?_, fun v => ?_⟩, rfl⟩
  · show Option.Rel _ ((L.chains.set w.writer d).get? v) ((M.chains.set w.writer d').get? v)
    rw [OrderedMap.get?_set, OrderedMap.get?_set]
    by_cases hv : w.writer = v
    · rw [if_pos hv, if_pos hv]
      subst hv
      refine .some ⟨habove, by rw [hfloor, hfloor']; exact hstep.floor, ?_⟩
      obtain ⟨hdc, hdc'⟩ | heq := hroot
      · rw [hdc, hdc']
        exact hstep.plot
      · exact .inl heq
    · rw [if_neg hv, if_neg hv]
      exact h.chain v
  · show SameBuffer (L.tick + 1) (M.tick + 1) ((L.put w.writer d q (L.tick + 1)).live v)
      ((M.put w.writer d' q' (M.tick + 1)).live v)
    rw [live_put, live_put]
    refine SameBuffer.decay ?_
    split_ifs
    · exact hq
    · exact (h.buffer v).tick

/-! ## What ledgers in step share -/

theorem InStep.headOf (h : InStep floor pin L M) (hL : L.Sound C params) (hM : M.Sound C params)
    (v : String) : L.headOf v = M.headOf v := by
  unfold Ledger.headOf
  obtain ⟨hc, hc'⟩ | ⟨c, c', hc, hc', hstep⟩ := optionRel_cases (h.chain v)
  · rw [hc, hc']
  · rw [hc, hc', Option.bind_some, Option.bind_some, (hL.chain v c hc).head_eq,
      (hM.chain v c' hc').head_eq, hstep.above.head, hstep.above.next]

theorem InStep.totalWeight (h : InStep floor pin L M) : L.totalWeight = M.totalWeight := by
  have hlookup : ∀ v, (L.chains.mapValues (·.weight)).get? v
      = (M.chains.mapValues (·.weight)).get? v := fun v => by
    rw [OrderedMap.get?_mapValues, OrderedMap.get?_mapValues]
    obtain ⟨hc, hc'⟩ | ⟨c, c', hc, hc', hstep⟩ := optionRel_cases (h.chain v)
    · rw [hc, hc']
    · rw [hc, hc']
      exact congrArg some hstep.above.weight
  have hperm := ((OrderedMap.entries_perm hlookup).map Prod.snd).sum_eq
  unfold Ledger.totalWeight OrderedMap.values
  simpa [OrderedMap.mapValues, List.map_map, Function.comp_def] using hperm

theorem ChainsInStep.mem_writes {floor : ℕ} {pin : Option String} (h : ChainsInStep floor pin c c')
    (hc : c.Sound C params) (hw : floor ≤ w.seq) : w ∈ c.writes ↔ w ∈ c'.writes := by
  rw [h.above.writes]
  refine ⟨fun hmem => ?_, List.mem_of_mem_drop⟩
  obtain ⟨i, hi⟩ := List.mem_iff_getElem?.mp hmem
  have hseq := hc.stretch.seq_eq hi
  have hle : c'.baseSeq - c.baseSeq ≤ i := by
    have := h.floor
    omega
  refine List.mem_iff_getElem?.mpr ⟨i - (c'.baseSeq - c.baseSeq), ?_⟩
  rw [List.getElem?_drop, Nat.add_sub_cancel' hle, hi]

/-- Above the floor they hold the same writes. -/
theorem InStep.mem_allWrites (h : InStep floor pin L M) (hL : L.Sound C params)
    (hM : M.Sound C params) (hw : floor w.writer ≤ w.seq) : w ∈ L.allWrites ↔ w ∈ M.allWrites := by
  rw [hL.mem_allWrites, hM.mem_allWrites]
  obtain ⟨hc, hc'⟩ | ⟨c, c', hc, hc', hstep⟩ := optionRel_cases (h.chain w.writer)
  · rw [hc, hc']
  · rw [hc, hc']
    simp only [Option.some.injEq, exists_eq_left']
    exact hstep.mem_writes (hL.chain _ c hc) hw

/-- Ledgers in step behave alike on any writes that fit, and stay in step. -/
theorem InStep.run (h : InStep floor pin L M) (hL : L.Sound C params) (hM : M.Sound C params)
    (hws : ∀ w ∈ ws, Fits floor pin w) :
    Alike C params L M ws ∧ InStep floor pin (L.after C params ws) (M.after C params ws) ∧
      (L.after C params ws).Sound C params ∧ (M.after C params ws).Sound C params := by
  induction ws generalizing L M with
  | nil =>
    have hheads : ∀ v, L.heads.get? v = M.heads.get? v := fun v => by
      rw [get?_heads, get?_heads, h.headOf hL hM]
    exact ⟨⟨rfl, hheads, rootOfHeads_congr C hheads, h.totalWeight⟩, h, hL, hM⟩
  | cons w ws ih =>
    obtain ⟨hstep, hresult⟩ := h.apply hL hM (hws w List.mem_cons_self)
    obtain ⟨halike, hin, hL', hM'⟩ := ih hstep (hL.apply w) (hM.apply w)
      fun x hx => hws x (List.mem_cons_of_mem _ hx)
    refine ⟨⟨?_, halike.heads, halike.stateRoot, halike.totalWeight⟩, hin, hL', hM'⟩
    rw [results, results, hresult, halike.results]

end Ledger

end Gavl
