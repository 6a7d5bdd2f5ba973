import Gavl.Ledger.LedgerTheorems

/-!
# What a ledger holds

A chain holds a stretch of verified writes of its writer, each linked to the one below; a buffer
holds verified writes ahead of the tip. Both are kept by everything that is done to a ledger.
-/

namespace Gavl

variable {C : Crypto} {params : ChainParams} {w : Write} {ws : List Write}

/-! ## Stretches -/

/-- Writes that follow one another from `seq` on, the first linked to `head`. -/
def Stretch : ℕ → Option String → List Write → Prop
  | _, _, [] => True
  | seq, head, w :: ws => w.seq = seq ∧ w.prev = head ∧ Stretch (seq + 1) (some w.id) ws

/-- The id of the last write, or the one below all of them. -/
def tipId (head : Option String) : List Write → Option String
  | [] => head
  | w :: ws => tipId (some w.id) ws

theorem tipId_append (head : Option String) (ws ws' : List Write) :
    tipId head (ws ++ ws') = tipId (tipId head ws) ws' := by
  induction ws generalizing head with
  | nil => rfl
  | cons w ws ih => exact ih _

theorem tipId_eq (head : Option String) (ws : List Write) :
    tipId head ws = match ws.getLast? with
      | some w => some w.id
      | none => head := by
  induction ws generalizing head with
  | nil => rfl
  | cons w ws ih =>
    rw [tipId, ih]
    cases ws with
    | nil => rfl
    | cons x ws =>
      rw [List.getLast?_cons_cons]
      cases hlast : (x :: ws).getLast? with
      | none => simp at hlast
      | some y => rfl

namespace Stretch

variable {seq : ℕ} {head : Option String}

theorem concat : Stretch seq head (ws ++ [w]) ↔
    Stretch seq head ws ∧ w.seq = seq + ws.length ∧ w.prev = tipId head ws := by
  induction ws generalizing seq head with
  | nil => simp [Stretch, tipId]
  | cons x ws ih =>
    rw [List.cons_append, Stretch, Stretch, ih, tipId, List.length_cons]
    have : seq + 1 + ws.length = seq + (ws.length + 1) := by omega
    rw [this, and_assoc, and_assoc]

theorem seq_eq (h : Stretch seq head ws) {i : ℕ} (hi : ws[i]? = some w) : w.seq = seq + i := by
  induction ws generalizing seq head i with
  | nil => simp at hi
  | cons x ws ih =>
    cases i with
    | zero =>
      rw [List.getElem?_cons_zero, Option.some.injEq] at hi
      rw [← hi, h.1, Nat.add_zero]
    | succ i =>
      have := ih h.2.2 (List.getElem?_cons_succ ▸ hi)
      omega

theorem mem_range (h : Stretch seq head ws) (hw : w ∈ ws) :
    seq ≤ w.seq ∧ w.seq < seq + ws.length := by
  obtain ⟨i, hi, rfl⟩ := List.mem_iff_getElem.mp hw
  have := h.seq_eq (List.getElem?_eq_getElem hi)
  omega

/-- What is left of a stretch above its `n` lowest writes. -/
theorem drop (h : Stretch seq head ws) (n : ℕ) :
    Stretch (seq + n) (tipId head (ws.take n)) (ws.drop n) := by
  induction n generalizing seq head ws with
  | zero => exact h
  | succ n ih =>
    cases ws with
    | nil => exact trivial
    | cons x ws =>
      have := ih h.2.2
      rw [show seq + 1 + n = seq + (n + 1) by omega] at this
      exact this

/-- The writes above a seq are those left above the lowest ones. -/
theorem filter_above (h : Stretch seq head ws) (s : ℕ) :
    ws.filter (fun w => decide (s < w.seq)) = ws.drop (s + 1 - seq) := by
  induction ws generalizing seq head with
  | nil => simp
  | cons x ws ih =>
    have hx := h.1
    by_cases hs : s < seq
    · have hrest := ih h.2.2
      rw [show s + 1 - (seq + 1) = 0 by omega, List.drop_zero] at hrest
      rw [List.filter_cons_of_pos (by simpa [hx] using hs), hrest,
        show s + 1 - seq = 0 by omega, List.drop_zero]
    · rw [List.filter_cons_of_neg (by simpa [hx] using hs), ih h.2.2,
        show s + 1 - seq = (s + 1 - (seq + 1)) + 1 by omega, List.drop_succ_cons]

end Stretch

/-! ## Chains -/

namespace WriterChain

variable {c c' : WriterChain}

theorem headId_eq (c : WriterChain) : c.headId = tipId c.baseHeadId c.writes := by
  rw [tipId_eq]
  rfl

/-- What `append` checks of a write that it takes. -/
structure Accepts (C : Crypto) (params : ChainParams) (c : WriterChain) (w : Write) : Prop where
  writer : w.writer = c.writer
  plot : c.plotRoot = none ∨ c.plotRoot = some w.plot.root
  verified : verifyWrite C params false w = .ok
  seq : w.seq = c.nextSeq
  prev : w.prev = c.headId

/-- The chain with `w` on top. -/
def extend (params : ChainParams) (c : WriterChain) (w : Write) : WriterChain :=
  { c with
    plotRoot := some (c.plotRoot.getD w.plot.root)
    writes := c.writes ++ [w]
    weight := c.weight + writeWeight params }

@[simp] theorem nextSeq_extend : (c.extend params w).nextSeq = c.nextSeq + 1 := by
  show c.baseSeq + (c.writes ++ [w]).length = c.baseSeq + c.writes.length + 1
  rw [List.length_append, List.length_singleton]
  omega

@[simp] theorem writer_extend : (c.extend params w).writer = c.writer := rfl

@[simp] theorem writes_extend : (c.extend params w).writes = c.writes ++ [w] := rfl

@[simp] theorem headId_extend : (c.extend params w).headId = some w.id := by
  unfold headId extend
  simp

/-- A chain holds a stretch of verified writes of its writer, from one plot. -/
structure Sound (C : Crypto) (params : ChainParams) (c : WriterChain) : Prop where
  stretch : Stretch c.baseSeq c.baseHeadId c.writes
  writer : ∀ w ∈ c.writes, w.writer = c.writer
  verified : ∀ w ∈ c.writes, verifyWrite C params false w = .ok
  plot : ∀ w ∈ c.writes, c.plotRoot = some w.plot.root
  weight : c.weight = c.nextSeq * writeWeight params
  base : c.baseSeq = 0 → c.baseHeadId = none

theorem Sound.fresh (writer : String) (plot : PlotCommitment) :
    Sound C params (WriterChain.fresh writer plot) where
  stretch := trivial
  writer := fun _ h => absurd h List.not_mem_nil
  verified := fun _ h => absurd h List.not_mem_nil
  plot := fun _ h => absurd h List.not_mem_nil
  weight := by simp [WriterChain.fresh, nextSeq]
  base := fun _ => rfl

theorem Sound.resumeAt (writer : String) (seq : ℕ) (id : String) :
    Sound C params (WriterChain.resumeAt params writer (seq + 1) id) where
  stretch := trivial
  writer := fun _ h => absurd h List.not_mem_nil
  verified := fun _ h => absurd h List.not_mem_nil
  plot := fun _ h => absurd h List.not_mem_nil
  weight := rfl
  base := fun h => absurd h (Nat.succ_ne_zero seq)

theorem Sound.extend (h : Sound C params c) (hw : c.Accepts C params w) :
    Sound C params (c.extend params w) where
  stretch := Stretch.concat.mpr ⟨h.stretch, hw.seq, hw.prev.trans c.headId_eq⟩
  writer := fun x hx => by
    obtain hx | hx := List.mem_append.mp hx
    · exact h.writer x hx
    · rw [List.mem_singleton.mp hx]
      exact hw.writer
  verified := fun x hx => by
    obtain hx | hx := List.mem_append.mp hx
    · exact h.verified x hx
    · rw [List.mem_singleton.mp hx]
      exact hw.verified
  plot := fun x hx => by
    have hroot : c.plotRoot.getD w.plot.root = w.plot.root := by
      obtain hp | hp := hw.plot <;> rw [hp] <;> rfl
    obtain hx | hx := List.mem_append.mp hx
    · show some (c.plotRoot.getD w.plot.root) = some x.plot.root
      rw [h.plot x hx]
      rfl
    · show some (c.plotRoot.getD w.plot.root) = some x.plot.root
      rw [List.mem_singleton.mp hx, hroot]
  weight := by
    rw [nextSeq_extend, Nat.succ_mul, ← h.weight]
    rfl
  base := h.base

/-- The tip is the write below the next seq. -/
theorem Sound.head_eq (h : c.Sound C params) :
    c.head = c.headId.map (fun id => (id, c.nextSeq - 1)) := by
  unfold head headId nextSeq
  cases hlast : c.writes.getLast? with
  | none =>
    rw [List.getLast?_eq_none_iff] at hlast
    rw [hlast]
    rfl
  | some w =>
    have hne : c.writes ≠ [] := by
      rintro hnil
      rw [hnil] at hlast
      simp at hlast
    have hpos := List.length_pos_iff.mpr hne
    rw [List.getLast?_eq_getElem?] at hlast
    have := h.stretch.seq_eq hlast
    simp only [Option.map_some]
    congr 2
    omega

/-- The slot above the tip is free. -/
theorem Sound.find?_eq_none (h : Sound C params c) (hseq : c.nextSeq ≤ w.seq) :
    c.writes.find? (fun x => decide (x.seq = w.seq)) = none := by
  rw [List.find?_eq_none]
  intro x hx
  have := h.stretch.mem_range hx
  unfold nextSeq at hseq
  simp only [decide_eq_true_eq]
  omega

theorem Sound.append_eq (h : Sound C params c) (hw : c.Accepts C params w) :
    c.append C params false w = (c.extend params w, .ok) := by
  unfold append
  have hplot : ¬(c.plotRoot ≠ none ∧ c.plotRoot ≠ some w.plot.root) := by
    rintro ⟨h1, h2⟩
    exact hw.plot.elim h1 h2
  rw [if_neg (by simp [hw.writer]), if_neg hplot, hw.verified]
  simp only
  rw [h.find?_eq_none hw.seq.ge]
  simp only
  rw [if_neg (by simp [hw.seq]), if_neg (by simp [hw.prev])]
  rfl

/-- At the seq above its tip a chain takes a write or stays as it is. -/
theorem Sound.append_cases (h : Sound C params c) (hseq : w.seq = c.nextSeq) :
    (c.Accepts C params w ∧ c.append C params false w = (c.extend params w, .ok)) ∨
      ¬c.Accepts C params w ∧
        ((∃ reason, c.append C params false w = (c, .fail reason)) ∨
          ∃ message, c.append C params false w = (c, .thrown message)) := by
  by_cases hw : c.Accepts C params w
  · exact .inl ⟨hw, h.append_eq hw⟩
  · refine .inr ⟨hw, ?_⟩
    unfold append
    by_cases h1 : w.writer ≠ c.writer
    · rw [if_pos h1]
      exact .inl ⟨_, rfl⟩
    by_cases h2 : c.plotRoot ≠ none ∧ c.plotRoot ≠ some w.plot.root
    · rw [if_neg h1, if_pos h2]
      exact .inl ⟨_, rfl⟩
    rw [if_neg h1, if_neg h2]
    cases hv : verifyWrite C params false w with
    | thrown message => exact .inr ⟨_, rfl⟩
    | fail reason => exact .inl ⟨_, rfl⟩
    | ok =>
      have hprev : w.prev ≠ c.headId := fun hprev => by
        refine hw ⟨not_not.mp h1, ?_, hv, hseq, hprev⟩
        by_cases hn : c.plotRoot = none
        · exact .inl hn
        · exact .inr (by_contra fun hne => h2 ⟨hn, hne⟩)
      simp only
      rw [h.find?_eq_none hseq.ge]
      simp only
      rw [if_neg (by simp [hseq]), if_pos hprev]
      exact .inl ⟨_, rfl⟩

/-- `c'` is `c` with `ws` appended one by one. -/
inductive Extends (C : Crypto) (params : ChainParams) : WriterChain → List Write → WriterChain → Prop
  | nil (c : WriterChain) : Extends C params c [] c
  | cons {c c' : WriterChain} {w : Write} {ws : List Write} (hw : c.Accepts C params w)
      (h : Extends C params (c.extend params w) ws c') : Extends C params c (w :: ws) c'

namespace Extends

theorem sound (h : Extends C params c ws c') (hc : c.Sound C params) : c'.Sound C params := by
  induction h with
  | nil => exact hc
  | cons hw _ ih => exact ih (hc.extend hw)

theorem writer (h : Extends C params c ws c') : c'.writer = c.writer := by
  induction h with
  | nil => rfl
  | cons _ _ ih => rw [ih, writer_extend]

theorem writes (h : Extends C params c ws c') : c'.writes = c.writes ++ ws := by
  induction h with
  | nil => rw [List.append_nil]
  | cons _ _ ih => rw [ih, writes_extend, List.append_assoc, List.singleton_append]

theorem eq_foldl (h : Extends C params c ws c') : c' = ws.foldl (extend params) c := by
  induction h with
  | nil => rfl
  | cons _ _ ih => exact ih

/-- Each write is taken by the chain that the ones before it lead to. -/
theorem accepts {pre rest : List Write} (h : Extends C params c (pre ++ w :: rest) c') :
    (pre.foldl (extend params) c).Accepts C params w := by
  induction pre generalizing c with
  | nil =>
    cases h with
    | cons hw _ => exact hw
  | cons x pre ih =>
    cases h with
    | cons _ h => exact ih h

theorem base (h : Extends C params c ws c') :
    c'.baseSeq = c.baseSeq ∧ c'.baseHeadId = c.baseHeadId := by
  induction h with
  | nil => exact ⟨rfl, rfl⟩
  | cons _ _ ih => exact ih

end Extends

/-- A stretch that fits the tip can be appended. -/
theorem exists_extends {root : String} (hs : Stretch c.nextSeq c.headId ws)
    (hwriter : ∀ w ∈ ws, w.writer = c.writer)
    (hv : ∀ w ∈ ws, verifyWrite C params false w = .ok) (hplot : ∀ w ∈ ws, w.plot.root = root)
    (hroot : c.plotRoot = none ∨ c.plotRoot = some root) : ∃ c', Extends C params c ws c' := by
  induction ws generalizing c with
  | nil => exact ⟨c, .nil c⟩
  | cons w ws ih =>
    have hpw := hplot w List.mem_cons_self
    have hw : c.Accepts C params w := ⟨hwriter w List.mem_cons_self, by rw [hpw]; exact hroot,
      hv w List.mem_cons_self, hs.1, hs.2.1⟩
    have hroot' : (c.extend params w).plotRoot = some root := by
      show some (c.plotRoot.getD w.plot.root) = some root
      rw [hpw]
      obtain hn | hn := hroot <;> rw [hn] <;> rfl
    obtain ⟨c', hext⟩ := ih (c := c.extend params w)
      (by rw [nextSeq_extend, headId_extend]; exact hs.2.2)
      (fun x hx => hwriter x (List.mem_cons_of_mem _ hx))
      (fun x hx => hv x (List.mem_cons_of_mem _ hx))
      (fun x hx => hplot x (List.mem_cons_of_mem _ hx)) (.inr hroot')
    exact ⟨c', .cons hw hext⟩

theorem Extends.foldl_append (h : Extends C params c ws c') (hc : c.Sound C params) :
    ws.foldl (fun r w => (r.append C params false w).1) c = c' := by
  induction h with
  | nil => rfl
  | cons hw _ ih =>
    rw [List.foldl_cons, hc.append_eq hw]
    exact ih (hc.extend hw)

/-- The chain that is left above a head it holds. -/
def prunedAt (C : Crypto) (params : ChainParams) (c : WriterChain) (writer : String) (h : Head) :
    WriterChain :=
  (c.writes.filter (fun w => decide (h.seq < w.seq))).foldl
    (fun r w => (r.append C params false w).1)
    (WriterChain.resumeAt params writer (h.seq + 1) h.id)

/-- A head that is not below the floor of a chain is one of its writes. -/
theorem tipId_take {head : Option String} {n : ℕ} (hn : ws[n]? = some w) :
    tipId head (ws.take (n + 1)) = some w.id := by
  induction ws generalizing head n with
  | nil => simp at hn
  | cons x ws ih =>
    cases n with
    | zero =>
      rw [List.getElem?_cons_zero, Option.some.injEq] at hn
      rw [hn]
      rfl
    | succ n => exact ih (List.getElem?_cons_succ ▸ hn)

/-- Pruning a chain keeps the writes above the head, in a stretch on top of it. -/
theorem Sound.prunedAt (hc : c.Sound C params) {h : Head} {x : Write}
    (hbase : c.baseSeq ≤ h.seq) (hx : c.writes[h.seq - c.baseSeq]? = some x) (hid : x.id = h.id) :
    Extends C params (WriterChain.resumeAt params c.writer (h.seq + 1) h.id)
        (c.writes.drop (h.seq + 1 - c.baseSeq)) (c.prunedAt C params c.writer h) ∧
      (c.prunedAt C params c.writer h).nextSeq = c.nextSeq := by
  have hlen : h.seq - c.baseSeq < c.writes.length := (List.getElem?_eq_some_iff.mp hx).1
  have hs := hc.stretch.drop (h.seq + 1 - c.baseSeq)
  rw [show h.seq + 1 - c.baseSeq = (h.seq - c.baseSeq) + 1 by omega, tipId_take hx, hid,
    show c.baseSeq + ((h.seq - c.baseSeq) + 1) = h.seq + 1 by omega,
    show (h.seq - c.baseSeq) + 1 = h.seq + 1 - c.baseSeq by omega] at hs
  have hmem : ∀ w ∈ c.writes.drop (h.seq + 1 - c.baseSeq), w ∈ c.writes :=
    fun w hw => List.mem_of_mem_drop hw
  have hroot : ∀ w ∈ c.writes, w.plot.root = c.plotRoot.getD "" := fun w hw => by
    rw [hc.plot w hw]
    rfl
  obtain ⟨c', hext⟩ := exists_extends
    (c := WriterChain.resumeAt params c.writer (h.seq + 1) h.id) hs
    (fun w hw => hc.writer w (hmem w hw)) (fun w hw => hc.verified w (hmem w hw))
    (fun w hw => hroot w (hmem w hw)) (.inl rfl)
  have heq : c.prunedAt C params c.writer h = c' := by
    unfold WriterChain.prunedAt
    rw [hc.stretch.filter_above]
    exact hext.foldl_append (.resumeAt _ _ _)
  rw [heq]
  refine ⟨hext, ?_⟩
  show c'.baseSeq + c'.writes.length = c.baseSeq + c.writes.length
  rw [hext.writes, hext.base.1]
  show h.seq + 1 + ([] ++ c.writes.drop (h.seq + 1 - c.baseSeq)).length = _
  rw [List.nil_append, List.length_drop]
  omega

/-- A slot that is free and not ahead of the tip is the one above it. -/
theorem seq_eq_of_free {seq : ℕ} {other : Option Write} (hbase : ¬ seq < c.baseSeq)
    (hfree : (if seq < c.nextSeq then c.writeAt seq else other) = none) (hahead : ¬ c.nextSeq < seq) :
    seq = c.nextSeq := by
  by_contra hne
  have hlt : seq < c.nextSeq := by omega
  rw [if_pos hlt, writeAt, if_neg hbase] at hfree
  have := List.getElem?_eq_none_iff.mp hfree
  unfold nextSeq at hlt
  omega

end WriterChain

/-! ## Buffers -/

/-- What a buffer holds at a slot: a verified write of the chain's writer, not below `least`. -/
structure Buffered (C : Crypto) (params : ChainParams) (writer : String) (least tick slot : ℕ)
    (e : Pending) : Prop where
  writer : e.w.writer = writer
  seq : e.w.seq = slot
  ahead : least ≤ slot
  verified : verifyWrite C params false e.w = .ok
  tick : e.tick ≤ tick

theorem Buffered.mono {writer : String} {least least' tick tick' slot : ℕ} {e : Pending}
    (h : Buffered C params writer least tick slot e) (hleast : least' ≤ slot) (htick : tick ≤ tick') :
    Buffered C params writer least' tick' slot e :=
  ⟨h.writer, h.seq, hleast, h.verified, h.tick.trans htick⟩

/-- Every write of a buffer. -/
def BufferedAll (C : Crypto) (params : ChainParams) (writer : String) (least tick : ℕ)
    (pend : OrderedMap ℕ Pending) : Prop :=
  ∀ seq e, pend.get? seq = some e → Buffered C params writer least tick seq e

/-- The writes that a result reports as appended. -/
def ApplyResult.appended : ApplyResult → List Write
  | .applied writes _ => writes
  | _ => []

namespace Ledger

open WriterChain

variable {c : WriterChain} {pend : OrderedMap ℕ Pending} {tick : ℕ}

/-- A chain takes buffered writes one by one until there is a gap, or one that it refuses. -/
theorem drain_spec (hc : c.Sound C params) {n : ℕ} (hsize : pend.size ≤ n)
    (hp : BufferedAll C params c.writer c.nextSeq tick pend) (applied : List Write) :
    ∃ ws c' pend' result, drain C params false n c pend applied = (c', pend', result) ∧
      Extends C params c ws c' ∧ BufferedAll C params c.writer (c'.nextSeq + 1) tick pend' ∧
      (result = .applied (applied ++ ws) false ∨ (∃ reason, result = .fail reason) ∨
        ∃ message, result = .thrown message) := by
  induction n generalizing c pend applied with
  | zero =>
    refine ⟨[], c, pend, _, rfl, .nil c, fun seq e he => ?_, .inl (by rw [List.append_nil])⟩
    have hmem := (OrderedMap.get?_eq_some_iff pend seq e).mp he
    have := List.length_pos_of_mem hmem
    unfold OrderedMap.size at hsize
    omega
  | succ n ih =>
    rw [drain]
    cases hnext : pend.get? c.nextSeq with
    | none =>
      refine ⟨[], c, pend, _, rfl, .nil c, fun seq e he => ?_, .inl (by rw [List.append_nil])⟩
      have hb := hp seq e he
      have hne : seq ≠ c.nextSeq := fun heq => by
        rw [heq, hnext] at he
        exact absurd he (by simp)
      exact hb.mono (by have := hb.ahead; omega) le_rfl
    | some next =>
      have hb := hp _ _ hnext
      have hrest : BufferedAll C params c.writer (c.nextSeq + 1) tick (pend.delete c.nextSeq) :=
        fun seq e he => by
          rw [OrderedMap.get?_delete] at he
          split_ifs at he with hseq
          have := hp seq e he
          exact this.mono (by have := this.ahead; omega) le_rfl
      simp only
      obtain ⟨hw, heq⟩ | ⟨-, ⟨reason, heq⟩ | ⟨message, heq⟩⟩ := hc.append_cases hb.seq
      · rw [heq]
        simp only
        have hsize' := OrderedMap.size_delete_lt hnext
        obtain ⟨ws, c', pend', result, hdrain, hext, hp', hres⟩ :=
          ih (hc.extend hw) (show (pend.delete c.nextSeq).size ≤ n by omega)
            (by rw [nextSeq_extend]; exact hrest) (applied ++ [next.w])
        refine ⟨next.w :: ws, c', pend', result, hdrain, .cons hw hext, hp', ?_⟩
        rw [List.append_assoc, List.singleton_append] at hres
        exact hres
      · rw [heq]
        exact ⟨[], c, _, _, rfl, .nil c, hrest, .inr (.inl ⟨reason, rfl⟩)⟩
      · rw [heq]
        exact ⟨[], c, _, _, rfl, .nil c, hrest, .inr (.inr ⟨message, rfl⟩)⟩

/-! ## One writer's share of `apply` -/

/-- What `apply` does with the chain and the buffer of the write's author. -/
def applyTo (C : Crypto) (params : ChainParams) (skip : Bool) (chain : WriterChain)
    (pend : OrderedMap ℕ Pending) (tick : ℕ) (w : Write) :
    WriterChain × OrderedMap ℕ Pending × ApplyResult :=
  if w.seq < chain.baseSeq then (chain, pend, .applied [] false)
  else
    match (if w.seq < chain.nextSeq then chain.writeAt w.seq else (pend.get? w.seq).map (·.w)) with
    | some x => (chain, pend, if x.id = w.id then .applied [] false else .equivocation x w)
    | none =>
      if chain.nextSeq < w.seq then
        match verifyWrite C params skip w with
        | .thrown message => (chain, pend, .thrown message)
        | .fail reason => (chain, pend, .fail reason)
        | .ok => (chain, pend.set w.seq ⟨w, tick⟩, .applied [] true)
      else
        match chain.append C params skip w with
        | (chain', .ok) => drain C params skip pend.size chain' pend [w]
        | (chain', .fail reason) => (chain', pend, .fail reason)
        | (chain', .equivocation x y) => (chain', pend, .equivocation x y)
        | (chain', .thrown message) => (chain', pend, .thrown message)

/-- The chain of a write's author, a new one if it has none. -/
def chainFor (L : Ledger) (w : Write) : WriterChain :=
  (L.chains.get? w.writer).getD (WriterChain.fresh w.writer w.plot)

/-- The buffered writes of a writer that the next `apply` keeps. -/
def live (L : Ledger) (writer : String) : OrderedMap ℕ Pending :=
  if L.chains.has writer then
    (L.pendingOf writer).filter (fun _ e => decide (L.tick + 1 - e.tick ≤ pendingMaxAge))
  else ∅

/-- The ledger with one writer's chain and buffer replaced, at a later clock. -/
def put (L : Ledger) (writer : String) (chain : WriterChain) (pend : OrderedMap ℕ Pending)
    (tick : ℕ) : Ledger :=
  ⟨L.chains.set writer chain, L.pending.set writer pend, tick⟩

/-- `apply` changes the chain and the buffer of one writer, and the clock. -/
theorem apply_eq (L : Ledger) (skip : Bool) (w : Write) :
    L.apply C params skip w =
      let r := applyTo C params skip (L.chainFor w) (L.live w.writer) (L.tick + 1) w
      (L.put w.writer r.1 r.2.1 (L.tick + 1), r.2.2) := by
  unfold apply applyTo put
  simp only
  have hpend : (if L.chains.has w.writer then
      (L.pendingOf w.writer).filter (fun _ e => decide (L.tick + 1 - e.tick ≤ pendingMaxAge))
    else ∅) = L.live w.writer := rfl
  have hchain : (L.chains.get? w.writer).getD (WriterChain.fresh w.writer w.plot) = L.chainFor w := rfl
  rw [hpend, hchain]
  by_cases hbase : w.seq < (L.chainFor w).baseSeq
  · rw [if_pos hbase, if_pos hbase]
  · rw [if_neg hbase, if_neg hbase]
    cases hex : (if w.seq < (L.chainFor w).nextSeq then (L.chainFor w).writeAt w.seq
      else ((L.live w.writer).get? w.seq).map (·.w)) with
    | some x =>
      simp only
      split_ifs <;> rfl
    | none =>
      simp only
      by_cases hahead : (L.chainFor w).nextSeq < w.seq
      · rw [if_pos hahead, if_pos hahead]
        cases verifyWrite C params skip w with
        | ok => simp only [OrderedMap.set_set]
        | fail reason => rfl
        | thrown message => rfl
      · rw [if_neg hahead, if_neg hahead]
        obtain ⟨c', r⟩ := (L.chainFor w).append C params skip w
        cases r with
        | ok => simp only [OrderedMap.set_set]
        | fail reason => simp only [OrderedMap.set_set]
        | equivocation x y => simp only [OrderedMap.set_set]
        | thrown message => simp only [OrderedMap.set_set]

/-- What `apply` does to one writer: nothing, buffer a write ahead of the tip, or append one and
then what it unblocks. -/
theorem applyTo_cases (hc : c.Sound C params) (pend : OrderedMap ℕ Pending) (t : ℕ) :
    (∃ result, applyTo C params false c pend t w = (c, pend, result) ∧ result.appended = [] ∧
        result ≠ .applied [] true) ∨
      (c.nextSeq < w.seq ∧ verifyWrite C params false w = .ok ∧
        applyTo C params false c pend t w = (c, pend.set w.seq ⟨w, t⟩, .applied [] true)) ∨
      c.Accepts C params w ∧
        applyTo C params false c pend t w
          = drain C params false pend.size (c.extend params w) pend [w] := by
  unfold applyTo
  by_cases hbase : w.seq < c.baseSeq
  · rw [if_pos hbase]
    exact .inl ⟨_, rfl, rfl, by simp⟩
  rw [if_neg hbase]
  cases hex : (if w.seq < c.nextSeq then c.writeAt w.seq else (pend.get? w.seq).map (·.w)) with
  | some x =>
    refine .inl ⟨_, rfl, ?_⟩
    split_ifs
    · exact ⟨rfl, by simp⟩
    · exact ⟨rfl, by simp⟩
  | none =>
    simp only
    by_cases hahead : c.nextSeq < w.seq
    · rw [if_pos hahead]
      cases hv : verifyWrite C params false w with
      | ok => exact .inr (.inl ⟨hahead, rfl, rfl⟩)
      | fail reason => exact .inl ⟨_, rfl, rfl, by simp⟩
      | thrown message => exact .inl ⟨_, rfl, rfl, by simp⟩
    · have hseq := seq_eq_of_free hbase hex hahead
      rw [if_neg hahead]
      obtain ⟨hw, heq⟩ | ⟨-, ⟨reason, heq⟩ | ⟨message, heq⟩⟩ := hc.append_cases hseq
      · rw [heq]
        exact .inr (.inr ⟨hw, rfl⟩)
      · rw [heq]
        exact .inl ⟨_, rfl, rfl, by simp⟩
      · rw [heq]
        exact .inl ⟨_, rfl, rfl, by simp⟩

/-! ## Ledgers -/

variable {L : Ledger}

/-- A ledger holds a chain for every writer it knows, and buffers what is ahead of its tip. -/
structure Sound (C : Crypto) (params : ChainParams) (L : Ledger) : Prop where
  writer : ∀ writer c, L.chains.get? writer = some c → c.writer = writer
  chain : ∀ writer c, L.chains.get? writer = some c → c.Sound C params
  buffer : ∀ writer c, L.chains.get? writer = some c →
    BufferedAll C params writer (c.nextSeq + 1) L.tick (L.pendingOf writer)
  known : ∀ writer, L.chains.get? writer = none → L.pendingOf writer = ∅

theorem Sound.empty : Sound C params Ledger.empty where
  writer := fun _ _ h => by simp [Ledger.empty] at h
  chain := fun _ _ h => by simp [Ledger.empty] at h
  buffer := fun _ _ h => by simp [Ledger.empty] at h
  known := fun _ _ => rfl

theorem Sound.chainFor (hL : Sound C params L) (w : Write) :
    (L.chainFor w).Sound C params ∧ (L.chainFor w).writer = w.writer := by
  unfold Ledger.chainFor
  cases hc : L.chains.get? w.writer with
  | none => exact ⟨.fresh _ _, rfl⟩
  | some c => exact ⟨hL.chain _ c hc, hL.writer _ c hc⟩

theorem Sound.live (hL : Sound C params L) (w : Write) :
    BufferedAll C params (L.chainFor w).writer ((L.chainFor w).nextSeq + 1) (L.tick + 1)
      (L.live w.writer) := by
  intro seq e he
  rw [(hL.chainFor w).2]
  unfold Ledger.live at he
  split_ifs at he with hhas
  · obtain ⟨c, hc⟩ := (OrderedMap.has_iff _ _).mp hhas
    rw [OrderedMap.get?_filter, Option.filter_eq_some_iff] at he
    have hb := hL.buffer _ c hc seq e he.1
    unfold Ledger.chainFor
    rw [hc]
    exact hb.mono hb.ahead (by omega)
  · simp at he

/-- What a ledger holds of a writer is in that writer's chain. -/
theorem Sound.mem_allWrites (hL : Sound C params L) :
    w ∈ L.allWrites ↔ ∃ c, L.chains.get? w.writer = some c ∧ w ∈ c.writes := by
  rw [Ledger.mem_allWrites]
  constructor
  · rintro ⟨v, c, hc, hw⟩
    have hv : w.writer = v := ((hL.chain v c hc).writer w hw).trans (hL.writer v c hc)
    exact ⟨c, hv ▸ hc, hw⟩
  · rintro ⟨c, hc, hw⟩
    exact ⟨w.writer, c, hc, hw⟩

theorem pendingOf_set (L : Ledger) (chains : OrderedMap String WriterChain) (tick : ℕ)
    (writer writer' : String) (pend : OrderedMap ℕ Pending) :
    (⟨chains, L.pending.set writer pend, tick⟩ : Ledger).pendingOf writer'
      = if writer = writer' then pend else L.pendingOf writer' := by
  unfold pendingOf
  rw [OrderedMap.get?_set]
  split_ifs <;> rfl

/-- A sound ledger stays sound when one writer's chain and buffer are replaced by sound ones. -/
theorem Sound.replace {L' : Ledger} {writer : String} (hL : Sound C params L)
    (hchains : ∀ x, L'.chains.get? x = if writer = x then some c else L.chains.get? x)
    (hpending : ∀ x, L'.pendingOf x = if writer = x then pend else L.pendingOf x)
    (htick : L.tick ≤ L'.tick) (hc : c.Sound C params) (hw : c.writer = writer)
    (hp : BufferedAll C params writer (c.nextSeq + 1) L'.tick pend) : Sound C params L' where
  writer := fun x c' h => by
    rw [hchains] at h
    split_ifs at h with heq
    · rw [Option.some.injEq] at h
      rw [← h, hw, heq]
    · exact hL.writer _ _ h
  chain := fun x c' h => by
    rw [hchains] at h
    split_ifs at h with heq
    · rw [Option.some.injEq] at h
      exact h ▸ hc
    · exact hL.chain _ _ h
  buffer := fun x c' h => by
    rw [hpending]
    rw [hchains] at h
    split_ifs at h ⊢ with heq
    · rw [Option.some.injEq] at h
      exact h ▸ heq ▸ hp
    · intro seq e he
      have hb := hL.buffer _ _ h seq e he
      exact hb.mono hb.ahead htick
  known := fun x h => by
    rw [hpending]
    rw [hchains] at h
    split_ifs at h ⊢ with heq
    exact hL.known _ h

theorem Sound.put (hL : Sound C params L) {writer : String} (htick : L.tick ≤ tick)
    (hc : c.Sound C params) (hw : c.writer = writer)
    (hp : BufferedAll C params writer (c.nextSeq + 1) tick pend) :
    Sound C params (L.put writer c pend tick) :=
  hL.replace (fun _ => OrderedMap.get?_set _ _ _ _) (fun _ => pendingOf_set _ _ _ _ _ _) htick hc hw hp

/-- What the next `apply` keeps after one that moved the clock by a tick. -/
theorem live_put (w : Write) (c : WriterChain) (pend : OrderedMap ℕ Pending) (v : String) :
    (L.put w.writer c pend (L.tick + 1)).live v
      = (if w.writer = v then pend else L.live v).filter
          (fun _ e => decide (L.tick + 1 + 1 - e.tick ≤ pendingMaxAge)) := by
  have hpending : (L.put w.writer c pend (L.tick + 1)).pendingOf v
      = if w.writer = v then pend else L.pendingOf v := pendingOf_set _ _ _ _ _ _
  have hhas : (L.put w.writer c pend (L.tick + 1)).chains.has v
      = (decide (w.writer = v) || L.chains.has v) := by
    unfold put OrderedMap.has
    rw [OrderedMap.get?_set]
    by_cases hv : w.writer = v <;> simp [hv]
  unfold live
  rw [hpending, hhas]
  by_cases hv : w.writer = v
  · simp only [hv, decide_true, Bool.true_or, if_true]
    rfl
  · simp only [hv, decide_false, Bool.false_or, if_false]
    by_cases hknown : L.chains.has v = true
    · rw [if_pos hknown, if_pos hknown]
      -- the later test is the stricter one
      apply OrderedMap.ext_entries
      show List.filter _ _ = List.filter _ (List.filter _ _)
      rw [List.filter_filter]
      refine List.filter_congr fun e _ => ?_
      show decide (L.tick + 1 + 1 - e.2.tick ≤ pendingMaxAge) = _
      by_cases hage : L.tick + 1 + 1 - e.2.tick ≤ pendingMaxAge
      · have hage' : L.tick + 1 - e.2.tick ≤ pendingMaxAge := by omega
        simp [hage, hage']
      · simp [hage]
    · rw [if_neg hknown, if_neg hknown]
      rfl

theorem Sound.apply (hL : Sound C params L) (w : Write) :
    Sound C params (L.apply C params false w).1 := by
  obtain ⟨hc, hwriter⟩ := hL.chainFor w
  have hp := hL.live w
  rw [apply_eq]
  obtain ⟨result, heq, -⟩ | ⟨hahead, hv, heq⟩ | ⟨hw, heq⟩ := applyTo_cases (w := w) hc (L.live w.writer) (L.tick + 1)
  · rw [heq]
    exact hL.put (by omega) hc hwriter (hwriter ▸ hp)
  · rw [heq]
    refine hL.put (by omega) hc hwriter fun seq e he => ?_
    rw [OrderedMap.get?_set] at he
    split_ifs at he with hseq
    · rw [Option.some.injEq] at he
      subst he
      have hle : (L.chainFor w).nextSeq + 1 ≤ seq := by omega
      exact ⟨rfl, hseq, hle, hv, le_rfl⟩
    · exact hwriter ▸ hp seq e he
  · have hp' : BufferedAll C params ((L.chainFor w).extend params w).writer
        ((L.chainFor w).extend params w).nextSeq (L.tick + 1) (L.live w.writer) := by
      rw [nextSeq_extend]
      exact hp
    obtain ⟨ws, c', pend', result, hdrain, hext, hp', -⟩ := drain_spec (hc.extend hw) le_rfl hp' [w]
    rw [heq, hdrain]
    refine hL.put (by omega) (hext.sound (hc.extend hw)) (hext.writer.trans hwriter) ?_
    exact hwriter ▸ hp'

/-- The ledger holds every head of `heads`. -/
def Holds (L : Ledger) (heads : Heads) : Prop :=
  ∀ writer h, heads.get? writer = some h → L.idAt writer h.seq = some h.id

/-- A head that a ledger holds is the floor of its chain or one of the writes. -/
theorem idAt_cases {writer : String} {h : Head} (hid : L.idAt writer h.seq = some h.id) :
    ∃ c, L.chains.get? writer = some c ∧
      (h.seq + 1 = c.baseSeq ∧ c.baseHeadId = some h.id ∨
        c.baseSeq ≤ h.seq ∧ ∃ x, c.writes[h.seq - c.baseSeq]? = some x ∧ x.id = h.id) := by
  unfold idAt at hid
  obtain ⟨c, hc, hid⟩ := Option.bind_eq_some_iff.mp hid
  refine ⟨c, hc, ?_⟩
  split_ifs at hid with hfloor
  · exact .inl ⟨by omega, hid⟩
  · obtain ⟨x, hx, hxid⟩ := Option.map_eq_some_iff.mp hid
    unfold writeAt at hx
    split_ifs at hx with hlt
    exact .inr ⟨by omega, x, hx, hxid⟩

/-- One writer of `pruneBelow`. -/
def pruneOne (C : Crypto) (params : ChainParams) (L : Ledger) (e : String × Head) : Ledger :=
  match L.chains.get? e.1 with
  | none => L
  | some chain =>
    if e.2.seq < chain.baseSeq then L
    else { L with chains := L.chains.set e.1 (chain.prunedAt C params e.1 e.2) }

theorem pruneBelow_eq (L : Ledger) (heads : Heads) :
    L.pruneBelow C params heads = heads.entries.foldl (pruneOne C params) L := rfl

theorem pruneOne_of_floor {e : String × Head} (hc : L.chains.get? e.1 = some c)
    (hfloor : e.2.seq < c.baseSeq) : pruneOne C params L e = L := by
  unfold pruneOne
  rw [hc]
  simp only
  rw [if_pos hfloor]

theorem pruneOne_of_held {e : String × Head} (hc : L.chains.get? e.1 = some c)
    (hheld : c.baseSeq ≤ e.2.seq) : pruneOne C params L e
      = { L with chains := L.chains.set e.1 (c.prunedAt C params e.1 e.2) } := by
  unfold pruneOne
  rw [hc]
  simp only
  rw [if_neg (by omega)]

theorem idAt_pruneOne_of_ne {e : String × Head} {writer : String} (hne : e.1 ≠ writer) (seq : ℕ) :
    (pruneOne C params L e).idAt writer seq = L.idAt writer seq := by
  unfold pruneOne
  cases hc : L.chains.get? e.1 with
  | none => rfl
  | some c =>
    simp only
    split_ifs
    · rfl
    · unfold idAt
      rw [OrderedMap.get?_set_of_ne _ _ hne]

theorem Sound.pruneOne (hL : Sound C params L) {e : String × Head}
    (hid : L.idAt e.1 e.2.seq = some e.2.id) : Sound C params (pruneOne C params L e) := by
  obtain ⟨c, hc, ⟨hfloor, -⟩ | ⟨hheld, x, hx, hxid⟩⟩ := idAt_cases hid
  · rw [pruneOne_of_floor hc (by omega)]
    exact hL
  · rw [pruneOne_of_held hc hheld]
    have hcs := hL.chain _ c hc
    have hw := hL.writer _ c hc
    obtain ⟨hext, hnext⟩ := hcs.prunedAt hheld hx hxid
    rw [hw] at hext hnext
    have hpending : ∀ y, L.pendingOf y = if e.1 = y then L.pendingOf e.1 else L.pendingOf y :=
      fun y => by
        split_ifs with hy
        · rw [hy]
        · rfl
    refine hL.replace (fun _ => OrderedMap.get?_set _ _ _ _) hpending le_rfl
      (hext.sound (.resumeAt _ _ _)) hext.writer ?_
    rw [hnext]
    exact hL.buffer _ c hc

theorem Sound.pruneBelow (hL : Sound C params L) {heads : Heads} (hheld : L.Holds heads) :
    Sound C params (L.pruneBelow C params heads) := by
  have key : ∀ (l : List (String × Head)), (l.map Prod.fst).Nodup → ∀ L : Ledger, Sound C params L →
      (∀ e ∈ l, L.idAt e.1 e.2.seq = some e.2.id) →
        Sound C params (l.foldl (Ledger.pruneOne C params) L) := by
    intro l
    induction l with
    | nil => exact fun _ L hL _ => hL
    | cons e l ih =>
      intro hnd L hL hl
      rw [List.map_cons, List.nodup_cons] at hnd
      refine ih hnd.2 _ (hL.pruneOne (hl e List.mem_cons_self)) fun x hx => ?_
      have hne : e.1 ≠ x.1 := fun heq => hnd.1 (heq ▸ List.mem_map_of_mem hx)
      rw [idAt_pruneOne_of_ne hne]
      exact hl x (List.mem_cons_of_mem _ hx)
  exact key heads.entries heads.nodup L hL fun e he =>
    hheld e.1 e.2 ((OrderedMap.get?_eq_some_iff _ _ _).mpr he)

theorem Sound.seedCheckpoint (hL : Sound C params L) (heads : Heads) :
    Sound C params (L.seedCheckpoint params heads) := by
  unfold Ledger.seedCheckpoint
  induction heads.entries generalizing L with
  | nil => exact hL
  | cons e l ih =>
    rw [List.foldl_cons]
    refine ih (hL.put le_rfl (.resumeAt _ _ _) rfl fun seq e he => ?_)
    simp at he

/-! ## Replayed writes -/

/-- The time proof of a write ran. -/
def TimeProven (C : Crypto) (params : ChainParams) (w : Write) : Prop :=
  params.vdfVerify (vdfChallenge C (challengeOf C w.toTrunk) w.space.value) w.time = true

/-- Ledgers that arise from what the node does to them. A write is replayed from the store only
when its time proof was checked before it was stored. -/
inductive Reachable (C : Crypto) (params : ChainParams) : Ledger → Prop
  | empty : Reachable C params Ledger.empty
  | apply {L : Ledger} (hL : Reachable C params L) (w : Write) :
      Reachable C params (L.apply C params false w).1
  | replay {L : Ledger} (hL : Reachable C params L) (w : Write) (hw : TimeProven C params w) :
      Reachable C params (L.apply C params true w).1
  | seedCheckpoint {L : Ledger} (hL : Reachable C params L) (heads : Heads) :
      Reachable C params (L.seedCheckpoint params heads)
  | pruneBelow {L : Ledger} (hL : Reachable C params L) {heads : Heads} (hheld : L.Holds heads) :
      Reachable C params (L.pruneBelow C params heads)

theorem verifyWrite_skip (hw : TimeProven C params w) :
    verifyWrite C params true w = verifyWrite C params false w := by
  unfold TimeProven at hw
  unfold verifyWrite
  simp only [Bool.not_true, Bool.not_false, Bool.false_and, Bool.true_and, hw]

/-- What passes every check has a time proof that ran. -/
theorem timeProven_of_verifyWrite (hw : verifyWrite C params false w = .ok) :
    TimeProven C params w := by
  unfold verifyWrite at hw
  unfold TimeProven
  by_contra hno
  have hfalse : params.vdfVerify (vdfChallenge C (challengeOf C w.toTrunk) w.space.value) w.time
      = false := by simpa using hno
  simp only [hfalse, Bool.not_false, Bool.and_self, if_true] at hw
  split_ifs at hw
  cases hq : hexToNat? w.space.quality with
  | none => simp [hq] at hw
  | some q =>
    rw [hq] at hw
    simp only at hw
    split_ifs at hw

theorem append_skip (c : WriterChain) (hw : TimeProven C params w) :
    c.append C params true w = c.append C params false w := by
  unfold append
  rw [verifyWrite_skip hw]

theorem drain_skip {n : ℕ} (hp : ∀ seq e, pend.get? seq = some e → TimeProven C params e.w)
    (applied : List Write) :
    drain C params true n c pend applied = drain C params false n c pend applied := by
  induction n generalizing c pend applied with
  | zero => rfl
  | succ n ih =>
    rw [drain, drain]
    cases hnext : pend.get? c.nextSeq with
    | none => rfl
    | some next =>
      simp only
      rw [append_skip c (hp _ _ hnext)]
      obtain ⟨c', r⟩ := c.append C params false next.w
      cases r with
      | ok =>
        refine ih (fun seq e he => ?_) _
        rw [OrderedMap.get?_delete] at he
        split_ifs at he
        exact hp seq e he
      | fail reason => rfl
      | equivocation x y => rfl
      | thrown message => rfl

/-- A replayed write is applied as it was when it came. -/
theorem Sound.apply_replay (hL : Sound C params L) (hw : TimeProven C params w) :
    L.apply C params true w = L.apply C params false w := by
  have hdrain : ∀ c, drain C params true (L.live w.writer).size c (L.live w.writer) [w]
      = drain C params false (L.live w.writer).size c (L.live w.writer) [w] := fun c =>
    drain_skip (fun seq e he => timeProven_of_verifyWrite (hL.live w seq e he).verified) [w]
  rw [apply_eq, apply_eq]
  unfold applyTo
  simp only [verifyWrite_skip hw, append_skip _ hw, hdrain]

theorem Reachable.sound (h : Reachable C params L) : Sound C params L := by
  induction h with
  | empty => exact .empty
  | apply _ w ih => exact ih.apply w
  | replay _ w hw ih =>
    rw [ih.apply_replay hw]
    exact ih.apply w
  | seedCheckpoint _ heads ih => exact ih.seedCheckpoint heads
  | pruneBelow _ hheld ih => exact ih.pruneBelow hheld

end Ledger

/-! ## At most one write at a slot -/

/-- Two writes of different writers or at different seqs. -/
def Elsewhere (a b : Write) : Prop := a.writer ≠ b.writer ∨ a.seq ≠ b.seq

instance : Std.Symm Elsewhere := ⟨fun _ _ h => h.imp Ne.symm Ne.symm⟩

/-- At most one write of a writer at a seq. -/
def OneEach (writes : List Write) : Prop := writes.Pairwise Elsewhere

namespace OneEach

variable {writes writes' : List Write} {a b : Write}

theorem perm (h : OneEach writes) (hperm : writes.Perm writes') : OneEach writes' :=
  (hperm.pairwise_iff (fun h => h.imp Ne.symm Ne.symm)).mp h

theorem eq_of_mem (h : OneEach writes) (ha : a ∈ writes) (hb : b ∈ writes)
    (hwriter : a.writer = b.writer) (hseq : a.seq = b.seq) : a = b := by
  by_contra hne
  obtain hw | hs := List.Pairwise.forall h ha hb hne
  · exact hw hwriter
  · exact hs hseq

theorem nodup (h : OneEach writes) : writes.Nodup :=
  h.imp fun h heq => by
    subst heq
    obtain h | h := h <;> exact h rfl

end OneEach

theorem Stretch.pairwise {seq : ℕ} {head : Option String} (h : Stretch seq head ws) :
    ws.Pairwise (fun a b => a.seq < b.seq) := by
  induction ws generalizing seq head with
  | nil => exact .nil
  | cons w ws ih =>
    refine List.pairwise_cons.mpr ⟨fun x hx => ?_, ih h.2.2⟩
    have := h.2.2.mem_range hx
    have := h.1
    omega

/-- A ledger holds at most one write at a slot. -/
theorem Ledger.Sound.oneEach {L : Ledger} (hL : L.Sound C params) : OneEach L.allWrites := by
  unfold OneEach Ledger.allWrites OrderedMap.values
  rw [List.flatMap_map, List.pairwise_flatMap]
  have hget : ∀ e ∈ L.chains.entries, L.chains.get? e.1 = some e.2 := fun e he =>
    (OrderedMap.get?_eq_some_iff _ _ _).mpr he
  constructor
  · intro e he
    exact (hL.chain _ _ (hget e he)).stretch.pairwise.imp fun h => .inr h.ne
  · have hkeys := List.pairwise_map.mp L.chains.nodup
    refine hkeys.imp_of_mem fun {e e'} he he' hne a ha b hb => .inl ?_
    rw [(hL.chain _ _ (hget e he)).writer a ha, (hL.chain _ _ (hget e' he')).writer b hb,
      hL.writer _ _ (hget e he), hL.writer _ _ (hget e' he')]
    exact hne

end Gavl
