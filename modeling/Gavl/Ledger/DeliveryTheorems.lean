import Gavl.Ledger.PruneTheorems
import Gavl.Ledger.RejectTheorems

/-!
# The order of delivery

A set of whole chains, delivered in any order with any repetitions, is held in the end as if it had
come in order: as long as no buffered write grows too old, what has come is either on its chain or
waiting above a gap.
-/

namespace Gavl

variable {C : Crypto} {params : ChainParams} {ws : List Write} {w x : Write} {v : String}

/-! ## Definitions -/

/-- Verified writes that form, for each writer, one gapless chain from seq 0 with one plot. -/
structure Histories (C : Crypto) (params : ChainParams) (ws : List Write) : Prop where
  verified : ∀ w ∈ ws, verifyWrite C params false w = .ok
  one : OneEach ws
  linked : ∀ w ∈ ws, w.seq = 0 ∧ w.prev = none ∨
    ∃ p ∈ ws, p.writer = w.writer ∧ p.seq + 1 = w.seq ∧ w.prev = some p.id
  plot : ∀ a ∈ ws, ∀ b ∈ ws, a.writer = b.writer → a.plot.root = b.plot.root

/-- Calls that deliver each of them at least once, and nothing else, before a buffered write grows
too old. -/
structure Delivers (calls ws : List Write) : Prop where
  mem_iff : ∀ w, w ∈ calls ↔ w ∈ ws
  length : calls.length ≤ pendingMaxAge

/-- Calls that deliver each of them once, each writer's in the order of their seqs. -/
structure InOrder (calls ws : List Write) : Prop where
  perm : calls.Perm ws
  sorted : calls.Pairwise (fun a b => a.writer = b.writer → a.seq < b.seq)

/-- A chain of some of the writes of `v`, from the first on. -/
structure WriterChain.Of (C : Crypto) (params : ChainParams) (ws : List Write) (v : String)
    (c : WriterChain) : Prop where
  sound : c.Sound C params
  writer : c.writer = v
  base : c.baseSeq = 0
  plot : ∀ w ∈ ws, w.writer = v → c.plotRoot = some w.plot.root
  mem : ∀ w ∈ c.writes, w ∈ ws

/-! ## One chain -/

namespace WriterChain.Of

variable {c : WriterChain}

theorem fresh (h : Histories C params ws) (hw : w ∈ ws) :
    WriterChain.Of C params ws w.writer (WriterChain.fresh w.writer w.plot) where
  sound := .fresh _ _
  writer := rfl
  base := rfl
  plot := fun x hx hv => congrArg some (h.plot w hw x hx hv.symm)
  mem := fun _ hx => absurd hx List.not_mem_nil

/-- Below its tip, such a chain holds the writes themselves. -/
theorem mem_writes (hc : WriterChain.Of C params ws v c) (h : Histories C params ws) (hw : w ∈ ws)
    (hv : w.writer = v) (hlt : w.seq < c.nextSeq) : c.writeAt w.seq = some w := by
  unfold nextSeq at hlt
  have hbase := hc.base
  have hlen : w.seq - c.baseSeq < c.writes.length := by omega
  have hget := List.getElem?_eq_getElem hlen
  have hmem : c.writes[w.seq - c.baseSeq] ∈ c.writes := List.getElem_mem hlen
  have hseq := hc.sound.stretch.seq_eq hget
  have hsame : c.writes[w.seq - c.baseSeq] = w :=
    h.one.eq_of_mem (hc.mem _ hmem) hw ((hc.sound.writer _ hmem).trans (hc.writer.trans hv.symm))
      (by omega)
  unfold writeAt
  rw [if_neg (by omega), hget, hsame]

/-- The next write is accepted. -/
theorem accepts (hc : WriterChain.Of C params ws v c) (h : Histories C params ws) (hw : w ∈ ws)
    (hv : w.writer = v) (hseq : w.seq = c.nextSeq) : c.Accepts C params w where
  writer := hv.trans hc.writer.symm
  plot := .inr (hc.plot w hw hv)
  verified := h.verified w hw
  seq := hseq
  prev := by
    have hbase := hc.base
    rcases h.linked w hw with ⟨hzero, hprev⟩ | ⟨p, hp, hpv, hps, hprev⟩
    · have hnil : c.writes = [] := by
        unfold nextSeq at hseq
        exact List.length_eq_zero_iff.mp (by omega)
      unfold headId
      rw [hprev, hnil]
      exact (hc.sound.base hbase).symm
    · -- the write below is the last one held
      have hget := hc.mem_writes h hp (hpv.trans hv) (by omega)
      unfold writeAt at hget
      rw [if_neg (by omega)] at hget
      have hlast : c.writes.getLast? = some p := by
        rw [List.getLast?_eq_getElem?]
        unfold nextSeq at hseq
        rw [show c.writes.length - 1 = p.seq - c.baseSeq by omega]
        exact hget
      unfold headId
      rw [hprev, hlast]

theorem extend (hc : WriterChain.Of C params ws v c) (h : Histories C params ws) (hw : w ∈ ws)
    (hv : w.writer = v) (hseq : w.seq = c.nextSeq) :
    WriterChain.Of C params ws v (c.extend params w) where
  sound := hc.sound.extend (hc.accepts h hw hv hseq)
  writer := hc.writer
  base := hc.base
  plot := fun x hx hxv => by
    show some (c.plotRoot.getD w.plot.root) = _
    rw [hc.plot x hx hxv]
    rfl
  mem := fun x hx => by
    rcases List.mem_append.mp hx with hx | hx
    · exact hc.mem x hx
    · rw [List.mem_singleton.mp hx]
      exact hw

end WriterChain.Of

/-! ## One call -/

namespace Ledger

open WriterChain

variable {c : WriterChain} {pend : OrderedMap ℕ Pending} {t tick : ℕ} {L : Ledger}

/-- A buffer of writes of `v` that are above the seq `least`. -/
structure Waiting (ws : List Write) (v : String) (least : ℕ) (pend : OrderedMap ℕ Pending) : Prop where
  mem : ∀ seq e, pend.get? seq = some e → e.w ∈ ws ∧ e.w.writer = v ∧ e.w.seq = seq ∧ least ≤ seq

/-- From a chain and a buffer, what `apply` makes of them: the chain with the writes `more` on top,
and the rest of the buffer above a gap. -/
structure Advanced (C : Crypto) (params : ChainParams) (ws : List Write) (v : String)
    (c : WriterChain) (pend : OrderedMap ℕ Pending) (more : List Write) (c' : WriterChain)
    (pend' : OrderedMap ℕ Pending) : Prop where
  of : WriterChain.Of C params ws v c'
  writes : c'.writes = c.writes ++ more
  waiting : Waiting ws v (c'.nextSeq + 1) pend'
  kept : ∀ seq e, pend.get? seq = some e → e.w ∈ c'.writes ∨ pend'.get? seq = some e

/-- Nothing that is buffered is refused. -/
theorem drain_advanced (h : Histories C params ws) (n : ℕ) :
    ∀ (c : WriterChain) (pend : OrderedMap ℕ Pending) (applied : List Write), pend.size ≤ n →
      WriterChain.Of C params ws v c → Waiting ws v c.nextSeq pend →
        ∃ more c' pend', drain C params false n c pend applied
            = (c', pend', .applied (applied ++ more) false) ∧
          Advanced C params ws v c pend more c' pend' := by
  induction n with
  | zero =>
    intro c pend applied hsize hc hp
    have hnone := SameBuffer.get?_eq_none (Nat.le_zero.mp hsize)
    refine ⟨[], c, pend, by rw [drain, List.append_nil], hc, by simp, ⟨fun seq e he => ?_⟩,
      fun seq e he => .inr he⟩
    rw [hnone] at he
    exact absurd he (by simp)
  | succ n ih =>
    intro c pend applied hsize hc hp
    rw [drain]
    cases hnext : pend.get? c.nextSeq with
    | none =>
      refine ⟨[], c, pend, by rw [List.append_nil], hc, by simp, ⟨fun seq e he => ?_⟩,
        fun seq e he => .inr he⟩
      obtain ⟨hmem, hv, hseq, hle⟩ := hp.mem seq e he
      have hne : seq ≠ c.nextSeq := by
        rintro rfl
        rw [hnext] at he
        exact absurd he (by simp)
      exact ⟨hmem, hv, hseq, by omega⟩
    | some next =>
      obtain ⟨hmem, hv, hseq, -⟩ := hp.mem _ _ hnext
      have happend := hc.sound.append_eq (hc.accepts h hmem hv hseq)
      have hrest : Waiting ws v (c.extend params next.w).nextSeq (pend.delete c.nextSeq) := by
        refine ⟨fun seq e he => ?_⟩
        rw [OrderedMap.get?_delete] at he
        split_ifs at he with hne
        obtain ⟨hmem', hv', hseq', hle'⟩ := hp.mem seq e he
        rw [nextSeq_extend]
        exact ⟨hmem', hv', hseq', by omega⟩
      have hless := OrderedMap.size_delete_lt hnext
      obtain ⟨more, c', pend', hdrain, hadv⟩ := ih (c.extend params next.w) (pend.delete c.nextSeq)
        (applied ++ [next.w]) (by omega) (hc.extend h hmem hv hseq) hrest
      refine ⟨next.w :: more, c', pend', ?_, hadv.of, ?_, hadv.waiting, fun seq e he => ?_⟩
      · simp only [happend]
        rw [hdrain, List.append_assoc, List.singleton_append]
      · rw [hadv.writes, writes_extend, List.append_assoc, List.singleton_append]
      · by_cases hs : c.nextSeq = seq
        · left
          rw [← hs, hnext, Option.some.injEq] at he
          rw [hadv.writes, writes_extend, ← he]
          simp
        · exact hadv.kept seq e ((OrderedMap.get?_delete _ _ _).trans ((if_neg hs).trans he))

/-- A delivered write ends on its chain, with what it unblocks, or in the buffer. -/
theorem applyTo_advanced (h : Histories C params ws) (hw : w ∈ ws) (hv : w.writer = v)
    (hc : WriterChain.Of C params ws v c) (hp : Waiting ws v (c.nextSeq + 1) pend) (t : ℕ) :
    ∃ more buffered c' pend', applyTo C params false c pend t w
        = (c', pend', .applied more buffered) ∧
      Advanced C params ws v c pend more c' pend' ∧
        (w ∈ c'.writes ∨ ∃ e, pend'.get? w.seq = some e ∧ e.w = w) := by
  have hbase := hc.base
  have hsame : Advanced C params ws v c pend [] c pend :=
    ⟨hc, by simp, hp, fun seq e he => .inr he⟩
  unfold applyTo
  rw [if_neg (by omega)]
  rcases lt_trichotomy w.seq c.nextSeq with hlt | heq | hgt
  · have hget := hc.mem_writes h hw hv hlt
    rw [if_pos hlt, hget]
    refine ⟨[], false, c, pend, ?_, hsame, .inl ?_⟩
    · show (c, pend, if w.id = w.id then _ else _) = _
      rw [if_pos rfl]
    · unfold writeAt at hget
      rw [if_neg (by omega)] at hget
      exact List.mem_of_getElem? hget
  · have hnone : pend.get? w.seq = none := by
      cases hget : pend.get? w.seq with
      | none => rfl
      | some e =>
        obtain ⟨-, -, -, hle⟩ := hp.mem _ e hget
        omega
    have happend := hc.sound.append_eq (hc.accepts h hw hv heq)
    rw [if_neg (by omega), hnone, Option.map_none]
    simp only
    rw [if_neg (by omega)]
    have hp' : Waiting ws v (c.extend params w).nextSeq pend := by
      rw [nextSeq_extend]
      exact hp
    obtain ⟨more, c', pend', hdrain, hadv⟩ :=
      drain_advanced h pend.size (c.extend params w) pend [w] le_rfl (hc.extend h hw hv heq) hp'
    simp only [happend]
    rw [hdrain]
    refine ⟨w :: more, false, c', pend', rfl, ⟨hadv.of, ?_, hadv.waiting, hadv.kept⟩, .inl ?_⟩
    · rw [hadv.writes, writes_extend, List.append_assoc, List.singleton_append]
    · rw [hadv.writes, writes_extend]
      simp
  · rw [if_neg (by omega)]
    cases hget : pend.get? w.seq with
    | some e =>
      obtain ⟨hmem, hev, hes, -⟩ := hp.mem _ e hget
      have hew : e.w = w := h.one.eq_of_mem hmem hw (hev.trans hv.symm) hes
      refine ⟨[], false, c, pend, ?_, hsame, .inr ⟨e, hget, hew⟩⟩
      simp only [Option.map_some]
      rw [if_pos (show e.w.id = w.id by rw [hew])]
    | none =>
      simp only [Option.map_none]
      rw [if_pos hgt, h.verified w hw]
      refine ⟨[], true, c, pend.set w.seq ⟨w, t⟩, rfl, ⟨hc, by simp, ⟨fun seq e he => ?_⟩,
        fun seq e he => .inr ?_⟩, .inr ⟨⟨w, t⟩, OrderedMap.get?_set_self _ _ _, rfl⟩⟩
      · rw [OrderedMap.get?_set] at he
        split_ifs at he with hs
        · rw [← Option.some.inj he]
          exact ⟨hw, hv, hs, by omega⟩
        · exact hp.mem seq e he
      · rw [OrderedMap.get?_set_of_ne _ _ (fun hs => by rw [hs, he] at hget; simp at hget)]
        exact he

/-! ## A part of a history -/

/-- What is held of a writer. -/
def heldOf (L : Ledger) (v : String) : List Write := ((L.chains.get? v).map (·.writes)).getD []

/-- A ledger of nothing but these writes: of each writer it has the first few on its chain, and waits
with some of those above the next. -/
structure PartOf (C : Crypto) (params : ChainParams) (ws : List Write) (L : Ledger) : Prop where
  chain : ∀ v c, L.chains.get? v = some c → WriterChain.Of C params ws v c
  waiting : ∀ v c, L.chains.get? v = some c → Waiting ws v (c.nextSeq + 1) (L.pendingOf v)
  unknown : ∀ v, L.chains.get? v = none → L.pendingOf v = ∅

namespace PartOf

theorem empty : PartOf C params ws Ledger.empty where
  chain := fun v c hc => by simp [Ledger.empty] at hc
  waiting := fun v c hc => by simp [Ledger.empty] at hc
  unknown := fun _ _ => rfl

theorem chainFor (hL : PartOf C params ws L) (h : Histories C params ws) (hw : w ∈ ws) :
    WriterChain.Of C params ws w.writer (L.chainFor w) := by
  cases hc : L.chains.get? w.writer with
  | none =>
    rw [chainFor_of_none hc]
    exact .fresh h hw
  | some c =>
    rw [chainFor_of_get? hc]
    exact hL.chain _ c hc

theorem live (hL : PartOf C params ws L) (w : Write) :
    Waiting ws w.writer ((L.chainFor w).nextSeq + 1) (L.live w.writer) := by
  refine ⟨fun seq e he => ?_⟩
  have hpend := get?_of_live he
  cases hc : L.chains.get? w.writer with
  | none =>
    rw [hL.unknown _ hc] at hpend
    simp at hpend
  | some c =>
    rw [chainFor_of_get? hc]
    exact (hL.waiting _ c hc).mem seq e hpend

/-- A writer's chain and buffer replaced by others of its writes. -/
theorem put (hL : PartOf C params ws L) {c' : WriterChain} {pend' : OrderedMap ℕ Pending}
    (hc : WriterChain.Of C params ws v c') (hp : Waiting ws v (c'.nextSeq + 1) pend') (t : ℕ) :
    PartOf C params ws (L.put v c' pend' t) := by
  have hchains : ∀ u, (L.put v c' pend' t).chains.get? u
      = if v = u then some c' else L.chains.get? u := fun u => OrderedMap.get?_set _ _ _ _
  have hpending : ∀ u, (L.put v c' pend' t).pendingOf u
      = if v = u then pend' else L.pendingOf u := fun u => pendingOf_set _ _ _ _ _ _
  refine ⟨fun u d hget => ?_, fun u d hget => ?_, fun u hget => ?_⟩
  · rw [hchains] at hget
    split_ifs at hget with hu
    · rw [← Option.some.inj hget, ← hu]
      exact hc
    · exact hL.chain u d hget
  · rw [hpending]
    rw [hchains] at hget
    split_ifs at hget ⊢ with hu
    · rw [← Option.some.inj hget, ← hu]
      exact hp
    · exact hL.waiting u d hget
  · rw [hpending]
    rw [hchains] at hget
    split_ifs at hget ⊢ with hu
    exact hL.unknown u hget

end PartOf

/-! ## A run -/

/-- The ledger holds a write on its chain. -/
def Applied (L : Ledger) (x : Write) : Prop := ∃ c, L.chains.get? x.writer = some c ∧ x ∈ c.writes

theorem applied_put {c' : WriterChain} :
    (L.put v c' pend t).Applied x ↔ if v = x.writer then x ∈ c'.writes else L.Applied x := by
  show (∃ d, (L.chains.set v c').get? x.writer = some d ∧ x ∈ d.writes) ↔ _
  rw [OrderedMap.get?_set]
  split_ifs
  · simp
  · rfl

theorem applied_iff (hv : x.writer = w.writer) : L.Applied x ↔ x ∈ (L.chainFor w).writes := by
  unfold Applied
  rw [hv]
  cases hc : L.chains.get? w.writer with
  | none => simp [chainFor_of_none hc, WriterChain.fresh]
  | some c => simp [chainFor_of_get? hc]

/-- The ledger after the calls `done` and what they returned as applied. -/
structure Delivered (C : Crypto) (params : ChainParams) (ws done : List Write) (L : Ledger)
    (out : List Write) : Prop where
  tick : L.tick = done.length
  chain : ∀ v c, L.chains.get? v = some c → WriterChain.Of C params ws v c
  waiting : ∀ v c, L.chains.get? v = some c → Waiting ws v (c.nextSeq + 1) (L.pendingOf v)
  unknown : ∀ v, L.chains.get? v = none → L.pendingOf v = ∅
  arrived : ∀ x ∈ done, L.Applied x ∨ ∃ e, (L.pendingOf x.writer).get? x.seq = some e ∧ e.w = x
  nodup : out.Nodup
  mem_out : ∀ x, x ∈ out ↔ L.Applied x

namespace Delivered

variable {done out calls : List Write}

theorem empty : Delivered C params ws [] Ledger.empty [] where
  tick := rfl
  chain := fun v c hc => by simp [Ledger.empty] at hc
  waiting := fun v c hc => by simp [Ledger.empty] at hc
  unknown := fun _ _ => rfl
  arrived := fun x hx => absurd hx List.not_mem_nil
  nodup := .nil
  mem_out := fun x => by simp [Applied, Ledger.empty]

theorem part (hd : Delivered C params ws done L out) : PartOf C params ws L :=
  ⟨hd.chain, hd.waiting, hd.unknown⟩

/-- While the clock is low nothing is dropped for its age. -/
theorem keeps (hd : Delivered C params ws done L out) (hage : done.length < pendingMaxAge)
    {seq : ℕ} {e : Pending} (he : (L.pendingOf v).get? seq = some e) :
    (L.live v).get? seq = some e := by
  have htick := hd.tick
  refine get?_live ?_ he (by omega)
  rw [Option.isSome_iff_ne_none]
  intro hnone
  rw [hd.unknown v hnone] at he
  simp at he

/-- One more call. -/
theorem step (hd : Delivered C params ws done L out) (h : Histories C params ws) (hw : w ∈ ws)
    (hage : done.length < pendingMaxAge) :
    Delivered C params ws (done ++ [w]) (L.apply C params false w).1
      (out ++ (L.apply C params false w).2.appended) := by
  obtain ⟨more, buffered, c', pend', heq, hadv, hin⟩ :=
    applyTo_advanced h hw rfl (hd.part.chainFor h hw) (hd.part.live w) (L.tick + 1)
  rw [apply_eq, heq]
  show Delivered C params ws (done ++ [w]) (L.put w.writer c' pend' (L.tick + 1)) (out ++ more)
  have hpart := hd.part.put hadv.of hadv.waiting (L.tick + 1)
  have hpending : ∀ v, (L.put w.writer c' pend' (L.tick + 1)).pendingOf v
      = if w.writer = v then pend' else L.pendingOf v := fun v => pendingOf_set _ _ _ _ _ _
  have hnodup : ((L.chainFor w).writes ++ more).Nodup := by
    rw [← hadv.writes]
    exact hadv.of.sound.stretch.pairwise.imp fun hlt heq => by
      rw [heq] at hlt
      exact lt_irrefl _ hlt
  have hwriter : ∀ x ∈ c'.writes, x.writer = w.writer := fun x hx =>
    (hadv.of.sound.writer x hx).trans hadv.of.writer
  have hmore : ∀ x ∈ more, x ∈ c'.writes := fun x hx => by
    rw [hadv.writes]
    exact List.mem_append_right _ hx
  refine ⟨?_, hpart.chain, hpart.waiting, hpart.unknown, fun x hx => ?_, ?_, fun x => ?_⟩
  · show L.tick + 1 = (done ++ [w]).length
    rw [hd.tick, List.length_append, List.length_singleton]
  · rw [applied_put, hpending]
    rcases List.mem_append.mp hx with hx | hx
    · by_cases hv : w.writer = x.writer
      · rw [if_pos hv, if_pos hv]
        rcases hd.arrived x hx with happ | ⟨e, he, hew⟩
        · left
          rw [hadv.writes]
          exact List.mem_append_left _ ((applied_iff hv.symm).mp happ)
        · have hlive := hd.keeps hage he
          rw [← hv] at hlive
          rcases hadv.kept _ e hlive with hmem | hkept
          · exact .inl (hew ▸ hmem)
          · exact .inr ⟨e, hkept, hew⟩
      · rw [if_neg hv, if_neg hv]
        exact hd.arrived x hx
    · rw [List.mem_singleton.mp hx, if_pos rfl, if_pos rfl]
      exact hin
  · -- what is appended now was not held before
    refine List.nodup_append'.mpr ⟨hd.nodup, (List.nodup_append'.mp hnodup).2.1, ?_⟩
    intro x hout hx
    have happ := (hd.mem_out x).mp hout
    rw [applied_iff (hwriter x (hmore x hx))] at happ
    exact (List.nodup_append'.mp hnodup).2.2 happ hx
  · rw [List.mem_append, applied_put, hd.mem_out]
    by_cases hv : w.writer = x.writer
    · rw [if_pos hv, applied_iff hv.symm, hadv.writes, List.mem_append]
    · rw [if_neg hv]
      exact or_iff_left fun hx => hv (hwriter x (hmore x hx)).symm

/-- A run of calls. -/
theorem run (hd : Delivered C params ws done L out) (h : Histories C params ws)
    (hcalls : ∀ w ∈ calls, w ∈ ws) (hage : done.length + calls.length ≤ pendingMaxAge) :
    Delivered C params ws (done ++ calls) (L.after C params calls)
      (out ++ (L.results C params calls).flatMap ApplyResult.appended) := by
  induction calls generalizing L done out with
  | nil =>
    rw [List.append_nil, results, List.flatMap_nil, List.append_nil]
    exact hd
  | cons w calls ih =>
    rw [List.length_cons] at hage
    have hstep := hd.step h (hcalls w List.mem_cons_self) (by omega)
    have hrest := ih hstep (fun x hx => hcalls x (List.mem_cons_of_mem w hx))
      (by rw [List.length_append, List.length_singleton]; omega)
    rw [List.append_assoc, List.singleton_append, List.append_assoc] at hrest
    rw [after_cons, results, List.flatMap_cons]
    exact hrest

/-- Once all have come, none is left waiting: the write below it would be held. -/
theorem applied (hd : Delivered C params ws done L out) (h : Histories C params ws)
    (hall : ∀ w ∈ ws, w ∈ done) (hw : w ∈ ws) : L.Applied w := by
  induction hn : w.seq using Nat.strong_induction_on generalizing w with
  | _ n ih =>
    rcases hd.arrived w (hall w hw) with happ | ⟨e, he, hew⟩
    · exact happ
    cases hc : L.chains.get? w.writer with
    | none =>
      rw [hd.unknown _ hc] at he
      simp at he
    | some c =>
      obtain ⟨-, -, -, hle⟩ := (hd.waiting _ c hc).mem _ e he
      rcases h.linked w hw with ⟨hzero, -⟩ | ⟨p, hp, hpv, hps, -⟩
      · omega
      · obtain ⟨d, hget, hmem⟩ := ih p.seq (by omega) hp rfl
        rw [hpv, hc, Option.some.injEq] at hget
        subst hget
        have hbelow := ((hd.chain _ c hc).sound.stretch.mem_range hmem).2
        unfold nextSeq at hle
        have hbase := (hd.chain _ c hc).base
        omega

end Delivered

/-! ## The end of a run -/

namespace Delivered

variable {done done' out out' : List Write} {M : Ledger}

theorem mem_heldOf (hd : Delivered C params ws done L out) (h : Histories C params ws)
    (hall : ∀ w ∈ ws, w ∈ done) : x ∈ L.heldOf v ↔ x ∈ ws ∧ x.writer = v := by
  unfold heldOf
  constructor
  · intro hx
    cases hc : L.chains.get? v with
    | none =>
      rw [hc] at hx
      exact absurd hx List.not_mem_nil
    | some c =>
      rw [hc] at hx
      have hof := hd.chain v c hc
      exact ⟨hof.mem x hx, (hof.sound.writer x hx).trans hof.writer⟩
  · rintro ⟨hx, rfl⟩
    obtain ⟨c, hc, hmem⟩ := hd.applied h hall hx
    rw [hc]
    exact hmem

theorem heldOf_sorted (hd : Delivered C params ws done L out) (v : String) :
    (L.heldOf v).Pairwise (fun a b => a.seq < b.seq) := by
  unfold heldOf
  cases hc : L.chains.get? v with
  | none => exact .nil
  | some c => exact (hd.chain v c hc).sound.stretch.pairwise

theorem headOf_eq (hd : Delivered C params ws done L out) (v : String) :
    L.headOf v = (L.heldOf v).getLast?.map (fun w => ⟨w.id, w.seq⟩) := by
  unfold headOf heldOf
  cases hc : L.chains.get? v with
  | none => rfl
  | some c =>
    have hof := hd.chain v c hc
    show c.head.map _ = c.writes.getLast?.map _
    unfold head
    rw [hof.sound.base hof.base]
    cases c.writes.getLast? with
    | none => rfl
    | some w => rfl

/-- Both ends hold the same. -/
theorem heldOf_eq (hd : Delivered C params ws done L out) (hd' : Delivered C params ws done' M out')
    (h : Histories C params ws) (hall : ∀ w ∈ ws, w ∈ done) (hall' : ∀ w ∈ ws, w ∈ done')
    (v : String) : L.heldOf v = M.heldOf v := by
  have hperm : (L.heldOf v).Perm (M.heldOf v) := by
    have hne : ∀ {a b : Write}, a.seq < b.seq → a ≠ b := fun hlt heq => by
      rw [heq] at hlt
      exact lt_irrefl _ hlt
    rw [List.perm_ext_iff_of_nodup ((hd.heldOf_sorted v).imp hne) ((hd'.heldOf_sorted v).imp hne)]
    intro x
    rw [hd.mem_heldOf h hall, hd'.mem_heldOf h hall']
  refine hperm.eq_of_pairwise (fun a b _ _ hab hba => ?_) (hd.heldOf_sorted v) (hd'.heldOf_sorted v)
  omega

end Delivered

/-- What is held of a writer is contiguous from its first write on, and what is buffered is above
the next seq. -/
structure Contiguous (L : Ledger) (v : String) : Prop where
  held : ∀ c, L.chains.get? v = some c → c.baseSeq = 0 ∧ Stretch 0 none c.writes ∧
    ∀ slot e, (L.pendingOf v).get? slot = some e → e.w.seq = slot ∧ c.nextSeq < e.w.seq
  unknown : L.chains.get? v = none → L.pendingOf v = ∅

theorem Delivered.contiguous {done out : List Write} (hd : Delivered C params ws done L out)
    (v : String) : L.Contiguous v where
  held := fun c hc => by
    have hof := hd.chain v c hc
    have hstretch := hof.sound.stretch
    rw [hof.sound.base hof.base, hof.base] at hstretch
    refine ⟨hof.base, hstretch, fun slot e he => ?_⟩
    obtain ⟨-, -, hseq, hle⟩ := (hd.waiting v c hc).mem slot e he
    exact ⟨hseq, by omega⟩
  unknown := hd.unknown v

/-- **The order of delivery.** Whole chains delivered in any order end as if they had come in order,
each write is returned as applied once, and what is held stays contiguous on the way. -/
theorem same_state_of_delivers {calls ordered : List Write} (h : Histories C params ws)
    (hcalls : Delivers calls ws) (hordered : InOrder ordered ws) :
    (∀ v, (Ledger.empty.after C params calls).heads.get? v
        = (Ledger.empty.after C params ordered).heads.get? v) ∧
      (Ledger.empty.after C params calls).stateRoot C
        = (Ledger.empty.after C params ordered).stateRoot C ∧
      ((Ledger.empty.results C params calls).flatMap ApplyResult.appended).Perm ws ∧
      ∀ pre, pre <+: calls → ∀ v, (Ledger.empty.after C params pre).Contiguous v := by
  have hrun : ∀ l : List Write, (∀ w ∈ l, w ∈ ws) → l.length ≤ pendingMaxAge →
      Delivered C params ws l (Ledger.empty.after C params l)
        ((Ledger.empty.results C params l).flatMap ApplyResult.appended) := fun l hl hlen =>
    Delivered.empty.run h hl (by rw [List.length_nil]; omega)
  have hmem : ∀ w ∈ calls, w ∈ ws := fun w hw => (hcalls.mem_iff w).mp hw
  have hall : ∀ w ∈ ws, w ∈ calls := fun w hw => (hcalls.mem_iff w).mpr hw
  have hd := hrun calls hmem hcalls.length
  have hshort : ordered.length ≤ pendingMaxAge := by
    have hle := (h.one.nodup.subperm hall).length_le
    have hlen := hcalls.length
    rw [hordered.perm.length_eq]
    omega
  have hd' := hrun ordered (fun w hw => hordered.perm.mem_iff.mp hw) hshort
  have hheads : ∀ v, (Ledger.empty.after C params calls).heads.get? v
      = (Ledger.empty.after C params ordered).heads.get? v := fun v => by
    rw [get?_heads, get?_heads, hd.headOf_eq, hd'.headOf_eq,
      hd.heldOf_eq hd' h hall (fun w hw => hordered.perm.mem_iff.mpr hw)]
  refine ⟨hheads, rootOfHeads_congr C hheads, ?_, fun pre hpre v => ?_⟩
  · rw [List.perm_ext_iff_of_nodup hd.nodup h.one.nodup]
    intro x
    rw [hd.mem_out]
    refine ⟨fun ⟨c, hc, hx⟩ => (hd.chain _ c hc).mem x hx, fun hx => hd.applied h hall hx⟩
  · have hlen := hcalls.length
    have hle := hpre.length_le
    exact (hrun pre (fun w hw => hmem w (hpre.subset hw)) (by omega)).contiguous v

open Pruned AnchorChain in
theorem histories_second : Histories openConfig.crypto openConfig.params [first, second] := by
  obtain ⟨hfirst, hsecond, hlink⟩ :
      verifyWrite openConfig.crypto openConfig.params false first = .ok ∧
      verifyWrite openConfig.crypto openConfig.params false second = .ok ∧
      second.prev = some first.id := by decide +kernel
  have hw : ∀ w ∈ [first, second], w = first ∨ w = second := fun w hw => by simpa using hw
  refine ⟨fun w hmem => ?_, ?_, fun w hmem => ?_, fun a ha b hb _ => ?_⟩
  · obtain rfl | rfl := hw w hmem
    · exact hfirst
    · exact hsecond
  · simp [OneEach, Elsewhere, first, second, writeFrom]
  · obtain rfl | rfl := hw w hmem
    · exact .inl ⟨rfl, rfl⟩
    · exact .inr ⟨first, by simp, rfl, rfl, hlink⟩
  · obtain rfl | rfl := hw a ha <;> obtain rfl | rfl := hw b hb <;> rfl

open Pruned AnchorChain in
/-- Two writes, the later one delivered before and after the earlier one. -/
theorem same_state_of_delivers_second :
    let L := Ledger.empty.after openConfig.crypto openConfig.params [second, first, second]
    let M := Ledger.empty.after openConfig.crypto openConfig.params [first, second]
    (∀ v, L.heads.get? v = M.heads.get? v) ∧
      L.stateRoot openConfig.crypto = M.stateRoot openConfig.crypto ∧
      ((Ledger.empty.results openConfig.crypto openConfig.params
        [second, first, second]).flatMap ApplyResult.appended).Perm [first, second] ∧
      ∀ pre, pre <+: [second, first, second] →
        ∀ v, (Ledger.empty.after openConfig.crypto openConfig.params pre).Contiguous v := by
  refine @same_state_of_delivers _ _ [first, second] _ _ histories_second ⟨?_, by decide⟩ ⟨.refl _, ?_⟩
  · intro w
    rw [List.mem_cons, List.mem_cons, List.mem_singleton]
    exact ⟨fun h => h.elim Or.inr id, Or.inr⟩
  · simp [first, second, writeFrom]

end Ledger

end Gavl
