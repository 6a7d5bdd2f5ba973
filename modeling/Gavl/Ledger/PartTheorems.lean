import Gavl.Ledger.DeliveryTheorems

/-!
# Ledgers of one history

Ledgers that took nothing but writes of one history hold, of each writer, its first writes up to
some seq. So they differ only in how far they reach, and what one call or one message does to them
is told by that.
-/

namespace Gavl

variable {C : Crypto} {params : ChainParams} {ws : List Write} {w : Write} {v : String}

/-- A part of a history that has, with each write, the one below. -/
theorem Histories.filter (h : Histories C params ws) {p : Write → Bool}
    (hdown : ∀ a ∈ ws, ∀ b ∈ ws, a.writer = b.writer → a.seq + 1 = b.seq → p b = true → p a = true) :
    Histories C params (ws.filter p) where
  verified := fun w hw => h.verified w (List.mem_filter.mp hw).1
  one := h.one.filter _
  linked := fun w hw => by
    obtain ⟨hmem, hpw⟩ := List.mem_filter.mp hw
    rcases h.linked w hmem with hfirst | ⟨b, hb, hv, hs, hprev⟩
    · exact .inl hfirst
    · exact .inr ⟨b, List.mem_filter.mpr ⟨hb, hdown b hb w hmem hv hs hpw⟩, hv, hs, hprev⟩
  plot := fun a ha b hb => h.plot a (List.mem_filter.mp ha).1 b (List.mem_filter.mp hb).1

namespace Ledger

open WriterChain

variable {L L' M : Ledger}

/-- How many writes of a writer are held. -/
def reach (L : Ledger) (v : String) : ℕ := (L.heldOf v).length

namespace PartOf

/-- Between a smaller and a larger history. -/
theorem widen {K K' : List Write} (hL : PartOf C params ws L) (hK : PartOf C params K L)
    (hsub : ∀ w ∈ K, w ∈ K') (hsup : ∀ w ∈ K', w ∈ ws) : PartOf C params K' L where
  chain := fun v c hc =>
    { sound := (hL.chain v c hc).sound
      writer := (hL.chain v c hc).writer
      base := (hL.chain v c hc).base
      plot := fun w hw hv => (hL.chain v c hc).plot w (hsup w hw) hv
      mem := fun w hw => hsub w ((hK.chain v c hc).mem w hw) }
  waiting := fun v c hc => ⟨fun seq e he => by
    obtain ⟨hmem, hrest⟩ := (hK.waiting v c hc).mem seq e he
    exact ⟨hsub _ hmem, hrest⟩⟩
  unknown := hL.unknown

/-! ## What is held -/

theorem mem_heldOf (hL : PartOf C params ws L) (hw : w ∈ L.heldOf v) : w ∈ ws ∧ w.writer = v := by
  unfold heldOf at hw
  cases hc : L.chains.get? v with
  | none => simp [hc] at hw
  | some c =>
    rw [hc] at hw
    have hof := hL.chain v c hc
    exact ⟨hof.mem w hw, (hof.sound.writer w hw).trans hof.writer⟩

/-- Each write is at its seq. -/
theorem seq_eq (hL : PartOf C params ws L) {n : ℕ} (hw : (L.heldOf v)[n]? = some w) : w.seq = n := by
  unfold heldOf at hw
  cases hc : L.chains.get? v with
  | none => simp [hc] at hw
  | some c =>
    rw [hc] at hw
    have hseq := (hL.chain v c hc).sound.stretch.seq_eq hw
    have hbase := (hL.chain v c hc).base
    omega

/-- A write of the history is held exactly when its writer is held that far. -/
theorem get?_heldOf (hL : PartOf C params ws L) (h : Histories C params ws) (hw : w ∈ ws) :
    (L.heldOf w.writer)[w.seq]? = some w ↔ w.seq < L.reach w.writer := by
  unfold reach
  constructor
  · intro hget
    exact (List.getElem?_eq_some_iff.mp hget).1
  · intro hlt
    have hget := List.getElem?_eq_getElem hlt
    have hmem := hL.mem_heldOf (List.mem_of_getElem? hget)
    have hsame : (L.heldOf w.writer)[w.seq] = w :=
      h.one.eq_of_mem hmem.1 hw hmem.2 (hL.seq_eq hget)
    rw [hget, hsame]

/-- Of one writer, ledgers that reach as far hold the same. -/
theorem heldOf_eq (hL : PartOf C params ws L) (hM : PartOf C params ws M) (h : Histories C params ws)
    (hreach : L.reach v = M.reach v) : L.heldOf v = M.heldOf v := by
  refine List.ext_getElem? fun n => ?_
  cases hget : (L.heldOf v)[n]? with
  | none =>
    have hle := List.getElem?_eq_none_iff.mp hget
    unfold reach at hreach
    exact (List.getElem?_eq_none_iff.mpr (by omega)).symm
  | some w =>
    obtain ⟨hmem, rfl⟩ := hL.mem_heldOf (List.mem_of_getElem? hget)
    have hseq := hL.seq_eq hget
    have hlt := (List.getElem?_eq_some_iff.mp hget).1
    unfold reach at hreach
    rw [← hseq]
    exact ((hM.get?_heldOf h hmem).mpr (by unfold reach; omega)).symm

/-- The chain of a writer starts at 0, so a seq is a place in the list. -/
theorem idAt_eq (hL : PartOf C params ws L) (v : String) (n : ℕ) :
    L.idAt v n = ((L.heldOf v)[n]?).map (·.id) := by
  unfold idAt heldOf
  cases hc : L.chains.get? v with
  | none => rfl
  | some c =>
    have hbase := (hL.chain v c hc).base
    show (if (n : ℤ) = (c.baseSeq : ℤ) - 1 then c.baseHeadId else (c.writeAt n).map (·.id)) = _
    unfold writeAt
    rw [if_neg (by omega), if_neg (by omega), hbase, Nat.sub_zero]
    rfl

theorem headOf_eq (hL : PartOf C params ws L) (v : String) :
    L.headOf v = (L.heldOf v).getLast?.map (fun w => ⟨w.id, w.seq⟩) := by
  unfold headOf heldOf
  cases hc : L.chains.get? v with
  | none => rfl
  | some c =>
    have hof := hL.chain v c hc
    show c.head.map _ = c.writes.getLast?.map _
    unfold head
    rw [hof.sound.base hof.base]
    cases c.writes.getLast? with
    | none => rfl
    | some w => rfl

/-- The head of a writer is its last write: nothing is held, or the head says how far. -/
theorem headOf_cases (hL : PartOf C params ws L) (v : String) :
    L.headOf v = none ∧ L.reach v = 0 ∨
      ∃ head, L.headOf v = some head ∧ head.seq + 1 = L.reach v ∧ L.idAt v head.seq = some head.id := by
  rw [hL.headOf_eq]
  unfold reach
  cases hlast : (L.heldOf v).getLast? with
  | none => exact .inl ⟨rfl, by rw [List.getLast?_eq_none_iff.mp hlast]; rfl⟩
  | some w =>
    rw [List.getLast?_eq_getElem?] at hlast
    have hseq := hL.seq_eq hlast
    have hlt := (List.getElem?_eq_some_iff.mp hlast).1
    refine .inr ⟨⟨w.id, w.seq⟩, rfl, ?_, ?_⟩
    · show w.seq + 1 = _
      omega
    · rw [hL.idAt_eq]
      show ((L.heldOf v)[w.seq]?).map (·.id) = some w.id
      rw [hseq, hlast]
      rfl

theorem writesFrom_eq (hL : PartOf C params ws L) (v : String) (n : ℕ) :
    L.writesFrom v n = (L.heldOf v).drop n := by
  unfold writesFrom heldOf
  cases hc : L.chains.get? v with
  | none => simp
  | some c =>
    show c.writes.drop (n - c.baseSeq) = c.writes.drop n
    rw [(hL.chain v c hc).base, Nat.sub_zero]

/-! ## What is taken -/

theorem writes_chainFor_eq (L : Ledger) (w : Write) : (L.chainFor w).writes = L.heldOf w.writer := by
  unfold heldOf
  cases hc : L.chains.get? w.writer with
  | none => simp [chainFor_of_none hc, WriterChain.fresh]
  | some c => simp [chainFor_of_get? hc]

/-- A write of the history is appended with what it unblocks, buffered or known; if the ledger
reaches up to it, it is held after that. -/
theorem apply (hL : PartOf C params ws L) (h : Histories C params ws) (hw : w ∈ ws) :
    ∃ L' more buffered, L.apply C params false w = (L', .applied more buffered) ∧
      PartOf C params ws L' ∧
      (∀ v, L'.heldOf v = if w.writer = v then L.heldOf v ++ more else L.heldOf v) ∧
      (w.seq ≤ L.reach w.writer → w.seq < L'.reach w.writer) := by
  obtain ⟨more, buffered, c', pend', heq, hadv, hin⟩ :=
    applyTo_advanced h hw rfl (hL.chainFor h hw) (hL.live w) (L.tick + 1)
  have hof := hadv.of
  have hheld : ∀ v, (L.put w.writer c' pend' (L.tick + 1)).heldOf v
      = if w.writer = v then L.heldOf v ++ more else L.heldOf v := by
    intro v
    show (((L.chains.set w.writer c').get? v).map (·.writes)).getD [] = _
    rw [OrderedMap.get?_set]
    split_ifs with hv
    · subst hv
      show c'.writes = _
      rw [hadv.writes, writes_chainFor_eq]
    · rfl
  refine ⟨L.put w.writer c' pend' (L.tick + 1), more, buffered, ?_,
    hL.put hof hadv.waiting _, hheld, fun hle => ?_⟩
  · rw [apply_eq, heq]
  · have hwrites : (L.put w.writer c' pend' (L.tick + 1)).heldOf w.writer = c'.writes := by
      show (((L.chains.set w.writer c').get? w.writer).map (·.writes)).getD [] = _
      rw [OrderedMap.get?_set_self]
      rfl
    have hbase := hof.base
    unfold reach at hle ⊢
    rw [hwrites]
    rcases hin with hmem | ⟨e, he, hew⟩
    · have hrange := (hof.sound.stretch.mem_range hmem).2
      omega
    · -- it would wait above the tip, which is no lower than before
      obtain ⟨-, -, -, hlow⟩ := hadv.waiting.mem _ e he
      have hlen : c'.writes.length = (L.heldOf w.writer).length + more.length := by
        rw [← hwrites, hheld, if_pos rfl, List.length_append]
      unfold nextSeq at hlow
      omega

end PartOf

/-- What a batch of writes of the history makes of a ledger. -/
structure Took (C : Crypto) (params : ChainParams) (ws : List Write) (L L' : Ledger)
    (calls : List Write) (changed : Bool) : Prop where
  part : PartOf C params ws L'
  grown : ∀ v, L.heldOf v <+: L'.heldOf v
  same : changed = false → ∀ v, L'.heldOf v = L.heldOf v
  reached : ∀ w ∈ calls, w.seq ≤ L.reach w.writer → w.seq < L'.reach w.writer

theorem PartOf.applyAll (hL : PartOf C params ws L) (h : Histories C params ws) {calls : List Write}
    (hcalls : ∀ w ∈ calls, w ∈ ws) :
    ∃ L' learned changed, L.applyAll C params false calls = (L', some (learned, changed)) ∧
      Took C params ws L L' calls changed := by
  induction calls generalizing L with
  | nil =>
    exact ⟨L, [], false, rfl, hL, fun v => List.prefix_rfl, fun _ _ => rfl,
      fun w hw => absurd hw List.not_mem_nil⟩
  | cons w calls ih =>
    obtain ⟨L₁, more, buffered, happly, hpart, hheld, hw⟩ := hL.apply h (hcalls w List.mem_cons_self)
    obtain ⟨L', learned, changed, hall, htook⟩ :=
      ih hpart fun x hx => hcalls x (List.mem_cons_of_mem w hx)
    have hgrown : ∀ v, L.heldOf v <+: L₁.heldOf v := fun v => by
      rw [hheld]
      split_ifs
      · exact List.prefix_append _ _
      · exact List.prefix_rfl
    have hreach : ∀ v, L.reach v ≤ L₁.reach v := fun v => (hgrown v).length_le
    have hreach' : ∀ v, L₁.reach v ≤ L'.reach v := fun v => (htook.grown v).length_le
    refine ⟨L', more ++ learned, !more.isEmpty || buffered || changed, ?_, htook.part,
      fun v => (hgrown v).trans (htook.grown v), fun hfalse v => ?_, fun x hx hle => ?_⟩
    · rw [Ledger.applyAll, happly]
      simp only [hall]
      rfl
    · simp only [Bool.or_eq_false_iff, Bool.not_eq_false', List.isEmpty_iff] at hfalse
      obtain ⟨⟨rfl, -⟩, hrest⟩ := hfalse
      rw [htook.same hrest, hheld]
      split_ifs
      · rw [List.append_nil]
      · rfl
    · rcases List.mem_cons.mp hx with rfl | hx
      · have hlt := hw hle
        have hle' := hreach' x.writer
        omega
      · have hle' := hreach x.writer
        exact htook.reached x hx (by omega)

end Ledger

end Gavl
