import Gavl.Ledger.DeliveryTheorems
import Gavl.Market.CodecTheorems
import Gavl.Store.Store
import Gavl.Sync.IdleTheorems
import Gavl.Sync.JudgeTheorems
import Gavl.Sync.Reports

/-!
# Restarting an archiver

What a keep-all node holds can be rebuilt from its store as long as every move of the ledger's floor
leaves a trace there: the floor is the last stored checkpoint, and the rows of the store are the
writes above it. Taking a checkpoint keeps it so. Seeding from a peer's checkpoint does not, and
neither does a write that is appended but not reported.
-/

namespace Gavl

open Runs WriterChain

variable {C : Crypto} {params : ChainParams}

/-! ## Floors -/

namespace Ledger

variable {L L' F : Ledger} {heads : Heads} {v : String} {w : Write} {c : WriterChain}

/-- Where the chain of a writer begins, and the id it begins on. -/
def floorAt (L : Ledger) (v : String) : ℕ × Option String :=
  match L.chains.get? v with
  | none => (0, none)
  | some c => (c.baseSeq, c.baseHeadId)

/-- The floor that heads set. -/
def floorBy (heads : Heads) (v : String) : ℕ × Option String :=
  match heads.get? v with
  | none => (0, none)
  | some h => (h.seq + 1, some h.id)

theorem floorAt_of_get? (hc : L.chains.get? v = some c) :
    L.floorAt v = (c.baseSeq, c.baseHeadId) := by
  unfold floorAt
  rw [hc]

theorem heldOf_of_get? (hc : L.chains.get? v = some c) : L.heldOf v = c.writes := by
  unfold heldOf
  rw [hc]
  rfl

/-- The head of a writer is read off its floor and its writes. -/
theorem headOf_congr (hfloor : F.floorAt v = L.floorAt v) (hheld : F.heldOf v = L.heldOf v) :
    F.headOf v = L.headOf v := by
  have key : ∀ L : Ledger, L.headOf v = ((L.heldOf v).getLast?.map (fun w => ⟨w.id, w.seq⟩)).or
      ((L.floorAt v).2.map (fun id => ⟨id, (L.floorAt v).1 - 1⟩)) := by
    intro L
    unfold headOf heldOf floorAt WriterChain.head
    cases L.chains.get? v with
    | none => rfl
    | some c =>
      simp only [Option.bind_some, Option.map_some, Option.getD_some]
      cases hlast : c.writes.getLast? with
      | none =>
        simp only [Option.map_map]
        rfl
      | some w => simp
  rw [key F, key L, hfloor, hheld]

theorem idAt_congr (hfloor : F.floorAt v = L.floorAt v) (hheld : F.heldOf v = L.heldOf v) (seq : ℕ) :
    F.idAt v seq = L.idAt v seq := by
  have key : ∀ L : Ledger, L.idAt v seq =
      if (seq : ℤ) = ((L.floorAt v).1 : ℤ) - 1 then (L.floorAt v).2
      else if seq < (L.floorAt v).1 then none
      else ((L.heldOf v)[seq - (L.floorAt v).1]?).map (·.id) := by
    intro L
    unfold idAt heldOf floorAt WriterChain.writeAt
    cases L.chains.get? v with
    | none => simp
    | some c =>
      simp only [Option.bind_some, Option.map_some, Option.getD_some]
      split_ifs <;> rfl
  rw [key F, key L, hfloor, hheld]

theorem floorAt_put (L : Ledger) (u : String) (c : WriterChain) (pend : OrderedMap ℕ Pending)
    (tick : ℕ) (v : String) : (L.put u c pend tick).floorAt v
      = if u = v then (c.baseSeq, c.baseHeadId) else L.floorAt v := by
  unfold floorAt put
  simp only
  rw [OrderedMap.get?_set]
  split_ifs <;> rfl

/-- `apply` moves no floor. -/
theorem floorAt_apply (L : Ledger) (skip : Bool) (w : Write) (v : String) :
    (L.apply C params skip w).1.floorAt v = L.floorAt v := by
  obtain ⟨hcont, -⟩ := @applyTo_continues C params skip (L.chainFor w) (L.live w.writer) (L.tick + 1) w
  rw [apply_eq]
  simp only
  rw [floorAt_put]
  split_ifs with hv
  · rw [hcont.baseSeq, hcont.baseHeadId]
    subst hv
    unfold chainFor floorAt
    cases L.chains.get? w.writer <;> rfl
  · rfl

theorem floorAt_applyAll (skip : Bool) (ws : List Write) (L : Ledger) (v : String) :
    (L.applyAll C params skip ws).1.floorAt v = L.floorAt v := by
  induction ws generalizing L with
  | nil => rfl
  | cons w ws ih =>
    have hstep := @floorAt_apply C params L skip w v
    rw [applyAll]
    cases hr : L.apply C params skip w with
    | mk L' result =>
      rw [hr] at hstep
      cases result with
      | applied writes buffered => exact (ih L').trans hstep
      | fail reason => exact (ih L').trans hstep
      | equivocation x y => exact (ih L').trans hstep
      | thrown message => exact hstep

/-- Pruning moves the floor of each writer it names to the head it names. -/
theorem Sound.floorAt_pruneBelow (hL : L.Sound C params) (hheld : L.Holds heads) (v : String) :
    (L.pruneBelow C params heads).floorAt v
      = if heads.get? v = none then L.floorAt v else floorBy heads v := by
  unfold floorAt floorBy
  rw [get?_pruneBelow]
  cases hh : heads.get? v with
  | none => cases L.chains.get? v <;> rfl
  | some h =>
    obtain ⟨c, hc, ⟨hfloor, hid⟩ | ⟨hbase, x, hx, hid⟩⟩ := idAt_cases (hheld v h hh)
    · rw [hc]
      simp only [Option.map_some]
      rw [if_pos (by omega), hfloor, hid]
      simp
    · rw [hc]
      simp only [Option.map_some]
      rw [if_neg (by omega)]
      obtain ⟨hext, -⟩ := (hL.chain v c hc).prunedAt hbase hx hid
      rw [hL.writer v c hc] at hext
      obtain ⟨hseq, hhead⟩ := hext.base
      rw [hseq, hhead]
      simp [WriterChain.resumeAt]

/-- and keeps the writes above. -/
theorem Sound.heldOf_pruneBelow (hL : L.Sound C params) (hheld : L.Holds heads) (v : String) :
    (L.pruneBelow C params heads).heldOf v
      = (L.heldOf v).filter (fun w => decide (floorOf heads v ≤ w.seq)) := by
  unfold heldOf floorOf
  rw [get?_pruneBelow]
  cases hh : heads.get? v with
  | none => cases L.chains.get? v <;> simp
  | some h =>
    obtain ⟨c, hc, ⟨hfloor, hid⟩ | ⟨hbase, x, hx, hid⟩⟩ := idAt_cases (hheld v h hh)
    · have hcs := hL.chain v c hc
      have habove := hcs.stretch.filter_above h.seq
      rw [hc]
      simp only [Option.map_some, Option.getD_some]
      rw [if_pos (by omega)]
      symm
      refine habove.trans ?_
      rw [show h.seq + 1 - c.baseSeq = 0 by omega, List.drop_zero]
    · have hcs := hL.chain v c hc
      rw [hc]
      simp only [Option.map_some, Option.getD_some]
      rw [if_neg (by omega)]
      obtain ⟨hext, -⟩ := hcs.prunedAt hbase hx hid
      rw [hL.writer v c hc] at hext
      rw [hext.writes]
      exact (hcs.stretch.filter_above h.seq).symm

/-- What a ledger holds of each writer is all it holds. -/
theorem Sound.mem_heldOf (hL : L.Sound C params) : w ∈ L.allWrites ↔ w ∈ L.heldOf w.writer := by
  rw [hL.mem_allWrites]
  unfold heldOf
  cases hc : L.chains.get? w.writer with
  | none => simp
  | some c => simp

theorem Sound.writer_of_mem_heldOf (hL : L.Sound C params) (hw : w ∈ L.heldOf v) : w.writer = v := by
  unfold heldOf at hw
  cases hc : L.chains.get? v with
  | none =>
    rw [hc] at hw
    simp at hw
  | some c =>
    rw [hc] at hw
    exact ((hL.chain v c hc).writer w hw).trans (hL.writer v c hc)

/-- The head of a writer is held at its seq. -/
theorem Sound.idAt_headOf (hL : L.Sound C params) {h : Head} (hh : L.headOf v = some h) :
    L.idAt v h.seq = some h.id := by
  unfold headOf at hh
  unfold idAt
  cases hc : L.chains.get? v with
  | none =>
    rw [hc] at hh
    simp at hh
  | some c =>
    have hcs := hL.chain v c hc
    rw [hc, Option.bind_some] at hh
    rw [Option.bind_some]
    unfold WriterChain.head at hh
    cases hlast : c.writes.getLast? with
    | none =>
      rw [hlast] at hh
      simp only [Option.map_map, Option.map_eq_some_iff, Function.comp] at hh
      obtain ⟨id, hid, rfl⟩ := hh
      have hpos : c.baseSeq ≠ 0 := fun hzero => by
        rw [hcs.base hzero] at hid
        simp at hid
      show (if ((c.baseSeq - 1 : ℕ) : ℤ) = (c.baseSeq : ℤ) - 1 then c.baseHeadId
        else (c.writeAt (c.baseSeq - 1)).map (·.id)) = some id
      rw [if_pos (by omega), hid]
    | some w =>
      rw [hlast, Option.map_some, Option.some.injEq] at hh
      subst hh
      rw [List.getLast?_eq_getElem?] at hlast
      obtain ⟨hlt, -⟩ := List.getElem?_eq_some_iff.mp hlast
      have hseq := hcs.stretch.seq_eq hlast
      show (if (w.seq : ℤ) = (c.baseSeq : ℤ) - 1 then c.baseHeadId
        else (c.writeAt w.seq).map (·.id)) = some w.id
      rw [if_neg (by omega)]
      unfold WriterChain.writeAt
      rw [if_neg (by omega), show w.seq - c.baseSeq = c.writes.length - 1 by omega, hlast]
      rfl

end Ledger

/-! ## Rows -/

namespace WriteStore

/-- The heads of the current snapshot. -/
def heads (s : WriteStore) : Heads :=
  match s.loadSnapshot with
  | none => ∅
  | some snap => snap.heads

variable {s : WriteStore}

/-- A store that keeps everything keeps what it is handed. -/
theorem persist_all (hkeep : ∀ w, s.policy.keep w = true) (ws : List Write) :
    ws.foldl persist s = { s with writes := s.writes ++ ws } := by
  induction ws generalizing s with
  | nil => simp
  | cons w ws ih =>
    have hw : s.persist w = { s with writes := s.writes ++ [w] } := by
      unfold persist
      rw [if_pos (hkeep w)]
    rw [List.foldl_cons, hw, @ih { s with writes := s.writes ++ [w] } hkeep]
    simp

/-- Pruning keeps the writes above the heads. -/
theorem pruneBelow_eq (s : WriteStore) (heads : Heads) : s.pruneBelow heads
    = { s with
        writes := s.writes.filter (fun w => decide (Ledger.floorOf heads w.writer ≤ w.seq)) } := by
  have key : ∀ (l : List (String × Head)) (s : WriteStore),
      l.foldl (fun s e => { s with
        writes := s.writes.filter (fun w => !(decide (w.writer = e.1) && decide (w.seq ≤ e.2.seq))) }) s
      = { s with
          writes := s.writes.filter (fun w =>
            l.all (fun e => !(decide (w.writer = e.1) && decide (w.seq ≤ e.2.seq)))) } := by
    intro l
    induction l with
    | nil => intro s; simp
    | cons e l ih =>
      intro s
      rw [List.foldl_cons, ih]
      simp only [List.filter_filter, List.all_cons, Bool.and_comm]
  unfold pruneBelow
  rw [key]
  congr 1
  refine List.filter_congr fun w _ => ?_
  rw [Bool.eq_iff_iff, List.all_eq_true, decide_eq_true_eq]
  unfold Ledger.floorOf
  constructor
  · intro h
    cases hh : heads.get? w.writer with
    | none => exact Nat.zero_le _
    | some x =>
      have hx := h (w.writer, x) ((OrderedMap.get?_eq_some_iff _ _ _).mp hh)
      simp only [decide_true, Bool.true_and, Bool.not_eq_true', decide_eq_false_iff_not] at hx
      show x.seq + 1 ≤ w.seq
      omega
  · intro h e he
    by_cases hv : w.writer = e.1
    · have hh : heads.get? w.writer = some e.2 := by
        rw [hv]
        exact (OrderedMap.get?_eq_some_iff _ _ _).mpr he
      rw [hh] at h
      have hlt : e.2.seq + 1 ≤ w.seq := h
      simp only [hv, decide_true, Bool.true_and, Bool.not_eq_true', decide_eq_false_iff_not]
      omega
    · simp [hv]

end WriteStore

/-! ## A ledger and its store -/

/-- The store has the ledger: its snapshot is the floor of every chain, its rows are the writes
above. -/
structure Ledger.BackedBy (C : Crypto) (params : ChainParams) (L : Ledger) (store : WriteStore) :
    Prop where
  sound : L.Sound C params
  floor : ∀ v, L.floorAt v = Ledger.floorBy store.heads v
  rows : store.writes.Perm L.allWrites

/-- Each head is where the chain of its writer rests already: its floor, with nothing above. -/
def Ledger.RestsAt (L : Ledger) (heads : Heads) : Prop :=
  ∀ v h, heads.get? v = some h → L.floorAt v = (h.seq + 1, some h.id) ∧ L.heldOf v = []

namespace Ledger

variable {L L' F : Ledger} {store : WriteStore} {heads : Heads} {v : String}

theorem BackedBy.empty {policy : PersistPolicy} :
    BackedBy C params Ledger.empty (.opened policy) := ⟨.empty, fun _ => rfl, .refl _⟩

/-- Ledgers with the same floors and the same writes are backed by the same stores. -/
theorem BackedBy.congr (h : L.BackedBy C params store) (hsound : L'.Sound C params)
    (hfloor : ∀ v, L'.floorAt v = L.floorAt v) (hheld : ∀ v, L'.heldOf v = L.heldOf v) :
    L'.BackedBy C params store := by
  refine ⟨hsound, fun v => (hfloor v).trans (h.floor v), h.rows.trans ?_⟩
  rw [List.perm_ext_iff_of_nodup h.sound.oneEach.nodup hsound.oneEach.nodup]
  intro w
  rw [h.sound.mem_heldOf, hsound.mem_heldOf, hheld]

/-- Where nothing that a call appends is lost, persisting what is reported keeps up with it. -/
theorem BackedBy.call (h : L.BackedBy C params store) (hkeep : ∀ w, store.policy.keep w = true)
    {call : Call} (hkeeps : Reports.Keeps C params ⟨L, []⟩ call)
    (hfloor : ∀ v, (Reports.step C params ⟨L, []⟩ call).ledger.floorAt v = L.floorAt v) :
    (Reports.step C params ⟨L, []⟩ call).ledger.BackedBy C params
      ((Reports.step C params ⟨L, []⟩ call).reported.foldl WriteStore.persist store) := by
  obtain ⟨A, R, hsound, hperm, hreported, -, hiff⟩ :=
    @Reports.step_effect C params ⟨L, []⟩ h.sound call
  rw [hreported, List.nil_append, hiff.mp hkeeps, WriteStore.persist_all hkeep]
  exact ⟨hsound, fun v => (hfloor v).trans (h.floor v), (h.rows.append_right A).trans hperm.symm⟩

/-- A checkpoint that leaves out no writer of the one before moves floor and snapshot together. -/
theorem BackedBy.checkpoint (h : L.BackedBy C params store) {snap : StoredSnapshot}
    (hheld : L.Holds snap.heads)
    (hcovers : ∀ v, store.heads.get? v ≠ none → snap.heads.get? v ≠ none) :
    (L.pruneBelow C params snap.heads).BackedBy C params
      ((store.persistSnapshot snap).pruneBelow snap.heads) := by
  have hsound := h.sound.pruneBelow hheld
  have hheads : ((store.persistSnapshot snap).pruneBelow snap.heads).heads = snap.heads := by
    rw [WriteStore.pruneBelow_eq]
    unfold WriteStore.heads WriteStore.loadSnapshot WriteStore.persistSnapshot
    simp
  refine ⟨hsound, fun v => ?_, ?_⟩
  · rw [h.sound.floorAt_pruneBelow hheld, hheads]
    split_ifs with hnone
    · have hold : store.heads.get? v = none := by
        by_contra hsome
        exact hcovers v hsome hnone
      rw [h.floor]
      unfold floorBy
      rw [hold, hnone]
    · rfl
  · rw [WriteStore.pruneBelow_eq]
    refine (h.rows.filter _).trans ?_
    rw [List.perm_ext_iff_of_nodup (h.sound.oneEach.nodup.filter _) hsound.oneEach.nodup]
    intro w
    rw [List.mem_filter, h.sound.mem_heldOf, hsound.mem_heldOf, h.sound.heldOf_pruneBelow hheld,
      List.mem_filter]

theorem floorAt_seedCheckpoint (L : Ledger) (heads : Heads) (v : String) :
    (L.seedCheckpoint params heads).floorAt v
      = if heads.get? v = none then L.floorAt v else floorBy heads v := by
  unfold floorAt floorBy
  rw [chains_seedCheckpoint, OrderedMap.get?_overlay, OrderedMap.get?_mapEntries]
  cases heads.get? v <;> simp [WriterChain.resumeAt]

theorem heldOf_seedCheckpoint (L : Ledger) (heads : Heads) (v : String) :
    (L.seedCheckpoint params heads).heldOf v = if heads.get? v = none then L.heldOf v else [] := by
  unfold heldOf
  rw [chains_seedCheckpoint, OrderedMap.get?_overlay, OrderedMap.get?_mapEntries]
  cases heads.get? v <;> simp [WriterChain.resumeAt]

/-- Seeding where every chain rests already moves nothing. -/
theorem BackedBy.seed (h : L.BackedBy C params store) (hrests : L.RestsAt heads) :
    (L.seedCheckpoint params heads).BackedBy C params store := by
  refine h.congr (h.sound.seedCheckpoint heads) (fun v => ?_) fun v => ?_
  · rw [floorAt_seedCheckpoint]
    split_ifs with hnone
    · rfl
    · obtain ⟨x, hx⟩ := Option.ne_none_iff_exists'.mp hnone
      rw [(hrests v x hx).1]
      unfold floorBy
      rw [hx]
  · rw [heldOf_seedCheckpoint]
    split_ifs with hnone
    · rfl
    · obtain ⟨x, hx⟩ := Option.ne_none_iff_exists'.mp hnone
      rw [(hrests v x hx).2]

/-! ## Replay -/

theorem idAt_of_floorAt {n : ℕ} {id : String} (h : L.floorAt v = (n + 1, some id)) :
    L.idAt v n = some id := by
  unfold floorAt at h
  unfold idAt
  cases hc : L.chains.get? v with
  | none =>
    rw [hc] at h
    simp at h
  | some c =>
    rw [hc] at h
    obtain ⟨hbase, hid⟩ := Prod.mk.inj h
    rw [Option.bind_some, if_pos (by omega), hid]

theorem BackedBy.holds (h : L.BackedBy C params store) : L.Holds store.heads := by
  intro v x hx
  refine idAt_of_floorAt ?_
  rw [h.floor]
  unfold floorBy
  rw [hx]

theorem BackedBy.start (h : L.BackedBy C params store) (v : String) (c : WriterChain)
    (hnone : store.heads.get? v = none) (hc : L.chains.get? v = some c) : c.baseSeq = 0 := by
  have hfloor := h.floor v
  unfold floorBy at hfloor
  rw [hnone, floorAt_of_get? hc] at hfloor
  exact (Prod.mk.inj hfloor).1

/-- All that is held of a writer is above the stored heads. -/
theorem BackedBy.heldAbove_eq (h : L.BackedBy C params store) (v : String) :
    L.heldAbove store.heads v = L.heldOf v := by
  have hfloor := h.floor v
  unfold heldAbove heldOf
  cases hc : L.chains.get? v with
  | none => rfl
  | some c =>
    refine List.filter_eq_self.mpr fun w hw => ?_
    obtain ⟨hle, -⟩ := (h.sound.chain v c hc).stretch.mem_range hw
    rw [floorAt_of_get? hc] at hfloor
    have hbase : c.baseSeq = floorOf store.heads v := by
      unfold floorBy at hfloor
      unfold floorOf
      cases hh : store.heads.get? v with
      | none =>
        rw [hh] at hfloor
        exact (Prod.mk.inj hfloor).1
      | some x =>
        rw [hh] at hfloor
        exact (Prod.mk.inj hfloor).1
    rw [decide_eq_true_eq]
    omega

theorem heldOf_pairwise (hL : L.Sound C params) (v : String) :
    (L.heldOf v).Pairwise (fun a b => a.seq < b.seq) := by
  unfold heldOf
  cases hc : L.chains.get? v with
  | none => exact .nil
  | some c => exact (hL.chain v c hc).stretch.pairwise

/-- The replay brings back the writes of each writer in their order. -/
theorem BackedBy.fedInOrder (h : L.BackedBy C params store) :
    L.FedInOrder store.heads store.replay := by
  intro v
  rw [h.heldAbove_eq]
  have hone : OneEach store.writes := h.sound.oneEach.perm h.rows.symm
  have hperm : store.replay.Perm store.writes := List.perm_insertionSort _ _
  have horders : StableSort.Orders
      (fun a b : Write => a.writer < b.writer ∨ a.writer = b.writer ∧ a.seq ≤ b.seq)
      store.writes := by
    refine ⟨fun a _ b _ => ?_, fun a _ b _ c _ hab hbc => ?_⟩
    · rcases lt_trichotomy a.writer b.writer with hlt | heq | hgt
      · exact .inl (.inl hlt)
      · rcases Nat.le_total a.seq b.seq with hle | hle
        · exact .inl (.inr ⟨heq, hle⟩)
        · exact .inr (.inr ⟨heq.symm, hle⟩)
      · exact .inr (.inl hgt)
    · rcases hab with hab | ⟨hab, hle⟩ <;> rcases hbc with hbc | ⟨hbc, hle'⟩
      · exact .inl (hab.trans hbc)
      · exact .inl (hbc ▸ hab)
      · exact .inl (hab ▸ hbc)
      · exact .inr ⟨hab.trans hbc, hle.trans hle'⟩
  -- one writer's part of the sorted rows ascends strictly: no slot has two rows
  have hsorted : (store.replay.filter (fun w => decide (w.writer = v))).Pairwise
      (fun a b => a.seq < b.seq) := by
    have hone' : OneEach store.replay := hone.perm hperm.symm
    have hboth := (horders.pairwise_insertionSort.and hone').filter
      (fun w => decide (w.writer = v))
    refine hboth.imp_of_mem fun {a b} ha hb hab => ?_
    have hav : a.writer = v := by simpa using (List.mem_filter.mp ha).2
    have hbv : b.writer = v := by simpa using (List.mem_filter.mp hb).2
    have hsame : a.writer = b.writer := hav.trans hbv.symm
    obtain ⟨hlt | ⟨-, hle⟩, hne | hne⟩ := hab
    · exact absurd hlt (by rw [hsame]; exact lt_irrefl _)
    · exact absurd hlt (by rw [hsame]; exact lt_irrefl _)
    · exact absurd hsame hne
    · omega
  have hmem : (store.replay.filter (fun w => decide (w.writer = v))).Perm (L.heldOf v) := by
    have hne : ∀ {a b : Write}, a.seq < b.seq → a ≠ b := fun hlt heq => by
      rw [heq] at hlt
      exact lt_irrefl _ hlt
    rw [List.perm_ext_iff_of_nodup (hsorted.imp hne) ((heldOf_pairwise h.sound v).imp hne)]
    intro w
    rw [List.mem_filter, decide_eq_true_eq, (hperm.trans h.rows).mem_iff, h.sound.mem_heldOf]
    constructor
    · rintro ⟨hw, rfl⟩
      exact hw
    · intro hw
      have hv := h.sound.writer_of_mem_heldOf hw
      exact ⟨hv ▸ hw, hv⟩
  refine hmem.eq_of_pairwise (fun a b _ _ hab hba => ?_) hsorted (heldOf_pairwise h.sound v)
  exact absurd hab (by omega)

/-- On writes that were verified before they were stored, the loop of the boot is `apply` of each. -/
theorem Fed.applyAll {pre rest : List Write} (hF : Fed params heads F pre)
    (hFs : F.Sound C params) (hL : L.Sound C params) (hheld : L.Holds heads)
    (hstart : ∀ v c, heads.get? v = none → L.chains.get? v = some c → c.baseSeq = 0)
    (hfed : L.FedInOrder heads (pre ++ rest))
    (hproven : ∀ w ∈ rest, TimeProven C params w) :
    (F.applyAll C params true rest).1 = F.after C params rest := by
  induction rest generalizing F pre with
  | nil => rfl
  | cons w rest ih =>
    obtain ⟨heq, -⟩ := hF.apply_eq hFs hL hheld hstart hfed
    have hnext := hF.apply hFs hL hheld hstart hfed
    have hsound := hFs.apply w
    rw [heq] at hnext hsound
    rw [Ledger.applyAll, hFs.apply_replay (hproven w List.mem_cons_self), heq, after_cons, heq]
    refine ih hnext hsound ?_ fun x hx => hproven x (List.mem_cons_of_mem _ hx)
    rw [List.append_assoc]
    exact hfed

theorem foldl_extend (c : WriterChain) (ws : List Write) :
    (ws.foldl (extend params) c).baseSeq = c.baseSeq ∧
      (ws.foldl (extend params) c).baseHeadId = c.baseHeadId ∧
      (ws.foldl (extend params) c).writes = c.writes ++ ws := by
  induction ws generalizing c with
  | nil => simp
  | cons w ws ih =>
    obtain ⟨hbase, hhead, hwrites⟩ := ih (c.extend params w)
    refine ⟨hbase, hhead, hwrites.trans ?_⟩
    rw [writes_extend, List.append_assoc, List.singleton_append]

/-- A chain grown from the heads stands on them and holds what it grew by. -/
theorem grown_spec (heads : Heads) (v : String) (ws : List Write) :
    (match grown params heads v ws with
      | none => (0, none)
      | some c => (c.baseSeq, c.baseHeadId)) = floorBy heads v ∧
    ((grown params heads v ws).map (·.writes)).getD [] = ws := by
  unfold grown floorBy
  cases heads.get? v with
  | some h =>
    obtain ⟨hbase, hhead, hwrites⟩ :=
      @foldl_extend params (WriterChain.resumeAt params v (h.seq + 1) h.id) ws
    simp only [Option.map_some, Option.getD_some, hbase, hhead, hwrites]
    exact ⟨rfl, rfl⟩
  | none =>
    cases ws with
    | nil => exact ⟨rfl, rfl⟩
    | cons w ws =>
      obtain ⟨hbase, hhead, hwrites⟩ := @foldl_extend params (WriterChain.fresh v w.plot) (w :: ws)
      simp only [Option.map_some, Option.getD_some, hbase, hhead, hwrites]
      exact ⟨rfl, rfl⟩

/-- What the boot makes of a store. -/
def rebuilt (C : Crypto) (params : ChainParams) (store : WriteStore) : Ledger :=
  ((Ledger.empty.seedCheckpoint params store.heads).applyAll C params true store.replay).1

/-- A ledger rebuilt from its store has the same floors and the same writes, and an empty buffer. -/
theorem BackedBy.rebuilt (h : L.BackedBy C params store) :
    (Ledger.rebuilt C params store).BackedBy C params store ∧
      (∀ v, (Ledger.rebuilt C params store).floorAt v = L.floorAt v) ∧
      (∀ v, (Ledger.rebuilt C params store).heldOf v = L.heldOf v) ∧
      ∀ v, (Ledger.rebuilt C params store).pendingOf v = ∅ := by
  have hfed : L.FedInOrder store.heads ([] ++ store.replay) := h.fedInOrder
  have hseeded : (Ledger.empty.seedCheckpoint params store.heads).Sound C params :=
    Sound.empty.seedCheckpoint _
  have hproven : ∀ w ∈ store.replay, TimeProven C params w := fun w hw => by
    have hmem : w ∈ L.allWrites :=
      h.rows.mem_iff.mp ((List.perm_insertionSort _ _).mem_iff.mp hw)
    obtain ⟨c, hc, hwc⟩ := h.sound.mem_allWrites.mp hmem
    exact timeProven_of_verifyWrite ((h.sound.chain _ c hc).verified w hwc)
  have heq : Ledger.rebuilt C params store
      = (Ledger.empty.seedCheckpoint params store.heads).after C params store.replay :=
    Fed.seed.applyAll hseeded h.sound h.holds h.start hfed hproven
  obtain ⟨hF, hFs⟩ := Fed.seed.run hseeded h.sound h.holds h.start hfed
  rw [← heq, List.nil_append] at hF
  rw [← heq] at hFs
  have hrows : ∀ v, store.replay.filter (fun w => decide (w.writer = v)) = L.heldOf v := fun v =>
    (h.fedInOrder v).trans (h.heldAbove_eq v)
  have hfloor : ∀ v, (Ledger.rebuilt C params store).floorAt v = L.floorAt v := fun v => by
    rw [h.floor]
    unfold floorAt
    rw [hF.chain]
    exact (grown_spec _ _ _).1
  have hheld : ∀ v, (Ledger.rebuilt C params store).heldOf v = L.heldOf v := fun v => by
    unfold heldOf
    rw [hF.chain, (grown_spec _ _ _).2]
    exact hrows v
  exact ⟨h.congr hFs hfloor hheld, hfloor, hheld, hF.pending⟩

end Ledger

/-! ## What leaves a trace -/

namespace Session

variable {V : Type} {cfg : DaemonConfig V}

/-- The writes that an event hands to the ledger. -/
def callOf : Daemon.Event → Option Call
  | .submit w => some (.submit (.write w))
  | .message _ (.writes ws) => some (.message (ws.map .write))
  | .message _ (.announce ws) => some (.message (ws.map .write))
  | _ => none

/-- What an event does to the ledger leaves its trace in the store. -/
structure Traces (cfg : DaemonConfig V) (s : Session V) (e : Daemon.Event) : Prop where
  /-- Nothing is appended that is not reported. -/
  reported : ∀ call, callOf e = some call →
    Reports.Keeps cfg.chain.crypto cfg.chain.params ⟨s.daemon.ledger, []⟩ call
  /-- A peer's checkpoint is accepted only where the ledger rests at its heads already. -/
  rests : ∀ d snap anchor state, Daemon.ingestCall cfg s.daemon e = some (d, snap) →
    Daemon.Authentic cfg d snap anchor state → d.ledger.RestsAt snap.heads
  /-- A checkpoint that is taken leaves out no writer of the one that is stored. -/
  covers : ∀ d m snap, s.daemon.react cfg e = (d, some m) → d.checkpointTaken cfg = some snap →
    ∀ v, s.store.heads.get? v ≠ none → snap.heads.get? v ≠ none

/-- Every event of a running daemon leaves its trace. -/
def Traced (cfg : DaemonConfig V) (s : Session V) : Event → Prop
  | .running e _ => Traces cfg s e
  | .restart => True

/-- A restart loses nothing of what was held before it. -/
structure Survives (before after : Ledger) : Prop where
  /-- Every head is reached again, with the same id at its seq. -/
  heads : ∀ v h, before.headOf v = some h →
    ∃ h', after.headOf v = some h' ∧ h.seq ≤ h'.seq ∧ after.idAt v h.seq = some h.id
  /-- No stored write waits in a buffer. -/
  drained : ∀ v, after.pendingOf v = ∅
  /-- The next post of an account takes a seq above all it used. -/
  posts : ∀ v h, before.headOf v = some h → h.seq < (after.nextPost v).1

/-- The store of a session on the board has its ledger, and its checkpoint can be loaded. -/
structure Backed (cfg : DaemonConfig View) (d : Daemon View) (store : WriteStore) : Prop where
  ledger : d.ledger.BackedBy cfg.chain.crypto cfg.chain.params store
  keep : ∀ w, store.policy.keep w = true
  base : ∀ view, d.checkpointBase = some view → view.Keyed
  reads : ∀ snap, store.loadSnapshot = some snap → ∃ view, deserializeView snap.state = some view

theorem survives_of_same {L F : Ledger} {C : Crypto} {params : ChainParams} (hL : L.Sound C params)
    (hfloor : ∀ v, F.floorAt v = L.floorAt v) (hheld : ∀ v, F.heldOf v = L.heldOf v)
    (hpending : ∀ v, F.pendingOf v = ∅) : Survives L F := by
  have hhead : ∀ v, F.headOf v = L.headOf v := fun v => Ledger.headOf_congr (hfloor v) (hheld v)
  refine ⟨fun v h hh => ⟨h, (hhead v).trans hh, le_rfl, ?_⟩, hpending, fun v h hh => ?_⟩
  · rw [Ledger.idAt_congr (hfloor v) (hheld v)]
    exact hL.idAt_headOf hh
  · unfold Ledger.nextPost
    rw [Ledger.get?_heads, hhead, hh]
    exact Nat.lt_succ_self _

variable {cfg : DaemonConfig View} {K : Curve} {d d' : Daemon View} {store : WriteStore}
  {snap : StoredSnapshot}

namespace Backed

theorem of_same (h : Backed cfg d store) (hledger : d'.ledger = d.ledger)
    (hbase : d'.checkpointBase = d.checkpointBase) : Backed cfg d' store where
  ledger := by
    rw [hledger]
    exact h.ledger
  keep := h.keep
  base := fun view hview => h.base view (hbase ▸ hview)
  reads := h.reads

theorem of_idle (h : Backed cfg d store) (hi : d.Idle d') : Backed cfg d' store :=
  h.of_same hi.ledger hi.base

/-- Ledger and store replaced together. -/
theorem of_ledger (h : Backed cfg d store) {store' : WriteStore}
    (hledger : d'.ledger.BackedBy cfg.chain.crypto cfg.chain.params store')
    (hbase : d'.checkpointBase = d.checkpointBase) (hpolicy : store'.policy = store.policy)
    (hsnapshots : store'.snapshots = store.snapshots) : Backed cfg d' store' where
  ledger := hledger
  keep := by
    rw [hpolicy]
    exact h.keep
  base := fun view hview => h.base view (hbase ▸ hview)
  reads := by
    unfold WriteStore.loadSnapshot
    rw [hsnapshots]
    exact h.reads

/-- What is persisted changes neither policy nor snapshots. -/
theorem of_persisted (h : Backed cfg d store) {ws : List Write}
    (hledger : d'.ledger.BackedBy cfg.chain.crypto cfg.chain.params
      (ws.foldl WriteStore.persist store)) (hbase : d'.checkpointBase = d.checkpointBase) :
    Backed cfg d' (ws.foldl WriteStore.persist store) := by
  refine h.of_ledger hledger hbase ?_ ?_
  · rw [WriteStore.persist_all h.keep]
  · rw [WriteStore.persist_all h.keep]

theorem submit (h : Backed cfg d store) (w : Write)
    (hkeeps : Reports.Keeps cfg.chain.crypto cfg.chain.params ⟨d.ledger, []⟩ (.submit (.write w))) :
    Backed cfg (d.submit cfg w) ((d.applied cfg (.submit w)).foldl WriteStore.persist store) := by
  have hcall : (d.ledger.apply cfg.chain.crypto cfg.chain.params false w).1.BackedBy cfg.chain.crypto
      cfg.chain.params ((d.ledger.apply cfg.chain.crypto cfg.chain.params false w).2.appended.foldl
        WriteStore.persist store) :=
    h.ledger.call h.keep hkeeps fun v => Ledger.floorAt_apply d.ledger false w v
  have happlied : d.applied cfg (.submit w)
      = (d.ledger.apply cfg.chain.crypto cfg.chain.params false w).2.appended := by
    rw [Daemon.applied]
    cases (d.ledger.apply cfg.chain.crypto cfg.chain.params false w).2 <;> rfl
  have hframe : (d.submit cfg w).ledger
        = (d.ledger.apply cfg.chain.crypto cfg.chain.params false w).1 ∧
      (d.submit cfg w).checkpointBase = d.checkpointBase := by
    unfold Daemon.submit
    cases d.ledger.apply cfg.chain.crypto cfg.chain.params false w with
    | mk L' result =>
      cases result with
      | applied writes buffered =>
        simp only
        split_ifs <;> exact ⟨rfl, rfl⟩
      | fail reason => exact ⟨rfl, rfl⟩
      | equivocation x y => exact ⟨rfl, rfl⟩
      | thrown message => exact ⟨rfl, rfl⟩
  rw [happlied]
  refine h.of_persisted ?_ hframe.2
  rw [hframe.1]
  exact hcall

theorem onWrites (h : Backed cfg d store) (conn : Conn) (ws : List Write)
    (hkeeps : Reports.Keeps cfg.chain.crypto cfg.chain.params ⟨d.ledger, []⟩
      (.message (ws.map .write))) :
    Backed cfg (d.onWrites cfg conn ws)
      ((Daemon.applied.received cfg d ws).foldl WriteStore.persist store) := by
  have heq := Ledger.applyElements_writes cfg.chain.crypto cfg.chain.params d.ledger ws
  have hstep : Reports.step cfg.chain.crypto cfg.chain.params ⟨d.ledger, []⟩ (.message (ws.map .write))
      = ⟨(d.ledger.applyAll cfg.chain.crypto cfg.chain.params false ws).1,
        Daemon.applied.received cfg d ws⟩ := by
    unfold Reports.step Daemon.applied.received
    simp only [heq]
    cases (d.ledger.applyAll cfg.chain.crypto cfg.chain.params false ws).2 <;> rfl
  have hcall : (d.ledger.applyAll cfg.chain.crypto cfg.chain.params false ws).1.BackedBy
      cfg.chain.crypto cfg.chain.params
        ((Daemon.applied.received cfg d ws).foldl WriteStore.persist store) := by
    have h' := h.ledger.call h.keep hkeeps fun v => by
      rw [hstep]
      exact Ledger.floorAt_applyAll false ws d.ledger v
    rw [hstep] at h'
    exact h'
  have hframe : (d.onWrites cfg conn ws).ledger
        = (d.ledger.applyAll cfg.chain.crypto cfg.chain.params false ws).1 ∧
      (d.onWrites cfg conn ws).checkpointBase = d.checkpointBase := by
    unfold Daemon.onWrites
    cases d.ledger.applyAll cfg.chain.crypto cfg.chain.params false ws with
    | mk L' result =>
      cases result with
      | none => exact ⟨rfl, rfl⟩
      | some r =>
        simp only
        split_ifs <;> exact ⟨rfl, rfl⟩
  refine h.of_persisted ?_ hframe.2
  rw [hframe.1]
  exact hcall

/-- An accepted checkpoint seeds where the ledger rests. -/
theorem ingestSnapshot (hboard : cfg.app = boardApp cfg.chain.crypto K) (h : Backed cfg d store)
    (hrests : ∀ anchor state, Daemon.Authentic cfg d snap anchor state →
      d.ledger.RestsAt snap.heads) : Backed cfg (d.ingestSnapshot cfg snap).1 store := by
  obtain ⟨anchor, state, hauth, heq⟩ | ⟨-, stash, heq⟩ := Daemon.ingestSnapshot_cases cfg d snap
  · obtain ⟨child, -, hstate⟩ := hauth.committed
    unfold Daemon.committedState at hstate
    obtain ⟨hread, -⟩ := Option.filter_eq_some_iff.mp hstate
    rw [hboard] at hread
    rw [heq]
    refine ⟨h.ledger.seed (hrests anchor state hauth), h.keep, fun view hview => ?_, h.reads⟩
    have hsame : state = view := Option.some.inj hview
    exact View.Keyed.deserializeView (hsame ▸ hread)
  · rw [heq]
    exact h.of_same rfl rfl

/-- Taking a checkpoint stores it and lets go of what it covers, in memory and on disk. -/
theorem maybeCheckpoint (hboard : cfg.app = boardApp cfg.chain.crypto K) (h : Backed cfg d store)
    (hcovers : ∀ snap, d.checkpointTaken cfg = some snap →
      ∀ v, store.heads.get? v ≠ none → snap.heads.get? v ≠ none) :
    Backed cfg (d.maybeCheckpoint cfg) (match d.checkpointTaken cfg with
      | none => store
      | some snap => (store.persistSnapshot snap).pruneBelow snap.heads) := by
  cases hdue : d.checkpointDue cfg with
  | none =>
    unfold Daemon.maybeCheckpoint Daemon.checkpointTaken
    rw [hdue]
    exact h
  | some ckpt =>
    have hheld : d.ledger.Holds (d.anchors.headsAt ckpt.id) :=
      Daemon.haveAllWrites_iff.mp (Daemon.haveAllWrites_of_checkpointDue hdue)
    have hkeyed : (d.viewAt cfg d.anchors ckpt.id).Keyed := by
      unfold Daemon.viewAt
      rw [hboard]
      exact View.Keyed.viewOf K _ h.base
    obtain ⟨snap, hsnap, hheads, hstate⟩ : ∃ snap, d.checkpointTaken cfg = some snap ∧
        snap.heads = d.anchors.headsAt ckpt.id ∧
        snap.state = cfg.app.serialize (d.viewAt cfg d.anchors ckpt.id) := by
      unfold Daemon.checkpointTaken
      rw [hdue]
      exact ⟨_, rfl, rfl, rfl⟩
    obtain ⟨hledger, hbase⟩ : (d.maybeCheckpoint cfg).ledger
          = d.ledger.pruneBelow cfg.chain.crypto cfg.chain.params snap.heads ∧
        (d.maybeCheckpoint cfg).checkpointBase = some (d.viewAt cfg d.anchors ckpt.id) := by
      rw [hheads]
      unfold Daemon.maybeCheckpoint Daemon.reBeaconHave
      rw [hdue]
      exact ⟨rfl, rfl⟩
    have hstore : ((store.persistSnapshot snap).pruneBelow snap.heads).policy = store.policy ∧
        ((store.persistSnapshot snap).pruneBelow snap.heads).loadSnapshot = some snap := by
      rw [WriteStore.pruneBelow_eq]
      unfold WriteStore.loadSnapshot WriteStore.persistSnapshot
      simp
    rw [hsnap]
    refine ⟨?_, ?_, fun view hview => ?_, fun snap' hsnap' => ?_⟩
    · rw [hledger]
      exact h.ledger.checkpoint (hheads ▸ hheld) (hcovers snap hsnap)
    · rw [hstore.1]
      exact h.keep
    · rw [hbase, Option.some.injEq] at hview
      exact hview ▸ hkeyed
    · rw [hstore.2, Option.some.injEq] at hsnap'
      rw [← hsnap', hstate, hboard]
      obtain ⟨view', hread, -⟩ := deserializeView_serializeView hkeyed
      exact ⟨view', hread⟩

/-- The stashed checkpoint is tried again. -/
theorem tryPendingSnapshot (hboard : cfg.app = boardApp cfg.chain.crypto K) (h : Backed cfg d store)
    (hrests : ∀ snap anchor state, d.pendingSnapshot = some snap →
      Daemon.Authentic cfg d snap anchor state → d.ledger.RestsAt snap.heads) :
    Backed cfg (d.tryPendingSnapshot cfg) store := by
  unfold Daemon.tryPendingSnapshot
  cases hsnap : d.pendingSnapshot with
  | none => exact h
  | some snap =>
    have hingest := h.ingestSnapshot hboard (hrests snap · · hsnap)
    simp only
    cases hr : d.ingestSnapshot cfg snap with
    | mk d' accepted =>
      rw [hr] at hingest
      cases accepted
      · exact hingest
      · exact hingest.of_same rfl rfl

theorem moveTip (hboard : cfg.app = boardApp cfg.chain.crypto K) (h : Backed cfg d store)
    (m : Daemon.TipMove)
    (hcovers : ∀ snap, d.checkpointTaken cfg = some snap →
      ∀ v, store.heads.get? v ≠ none → snap.heads.get? v ≠ none)
    (hrests : ∀ snap anchor state, (d.maybeCheckpoint cfg).pendingSnapshot = some snap →
      Daemon.Authentic cfg (d.maybeCheckpoint cfg) snap anchor state →
      (d.maybeCheckpoint cfg).ledger.RestsAt snap.heads) :
    Backed cfg (d.moveTip cfg m) (match d.checkpointTaken cfg with
      | none => store
      | some snap => (store.persistSnapshot snap).pruneBelow snap.heads) := by
  have htip := (h.maybeCheckpoint hboard hcovers).tryPendingSnapshot hboard hrests
  unfold Daemon.moveTip
  cases m.except with
  | none => exact htip.of_idle (.broadcast _ trivial)
  | some conn => exact htip.of_idle (.broadcastExcept _ conn trivial)

/-- A node that finds no chain of its own drops its checkpoint together with its store. -/
theorem root (h : Backed cfg d store) (mesh : Bool) :
    Backed cfg (d.bootstrapChainRoot cfg mesh)
      (if d.discards (.root mesh) then store.clear else store) := by
  have hinstall : ∀ {d : Daemon View} {store : WriteStore}, Backed cfg d store →
      Backed cfg (d.installGenesisRoot cfg) store :=
    fun {d} _ h => h.of_idle (.installGenesisRoot cfg d)
  unfold Daemon.bootstrapChainRoot Daemon.discards
  by_cases htip : d.anchors.tip.isSome = true
  · have hnone : d.anchors.tip.isNone = false := by
      rw [Option.isSome_iff_exists] at htip
      obtain ⟨t, ht⟩ := htip
      rw [ht]
      rfl
    rw [if_pos htip, hnone]
    exact h
  · have hnone : d.anchors.tip.isNone = true := by
      rwa [Option.isNone_iff_eq_none, ← Option.not_isSome_iff_eq_none]
    rw [if_neg htip, hnone]
    cases mesh with
    | false => exact hinstall h
    | true =>
      unfold Daemon.discardOffChainCheckpoint
      by_cases hlow : d.lastCheckpointHeight < 0
      · rw [if_pos hlow]
        exact hinstall h
      · rw [if_neg hlow]
        refine Backed.of_same (hinstall ?_) rfl rfl
        refine ⟨⟨.empty, fun _ => rfl, .refl _⟩, h.keep, fun view hview => ?_, fun snap hsnap => ?_⟩
        · exact absurd hview (by simp)
        · exact absurd hsnap (by simp [WriteStore.loadSnapshot, WriteStore.clear])

end Backed

/-! ## Runs -/

/-- The store once the writes of an event are persisted, or the store is cleared. -/
def persisted (cfg : DaemonConfig View) (s : Session View) (e : Daemon.Event) : WriteStore :=
  if s.daemon.discards e then ((s.daemon.applied cfg e).foldl WriteStore.persist s.store).clear
  else (s.daemon.applied cfg e).foldl WriteStore.persist s.store

variable {s : Session View} {e : Daemon.Event}

theorem heads_persisted (hkeep : ∀ w, s.store.policy.keep w = true) {v : String}
    (h : (persisted cfg s e).heads.get? v ≠ none) : s.store.heads.get? v ≠ none := by
  unfold persisted at h
  rw [WriteStore.persist_all hkeep] at h
  by_cases hdiscards : s.daemon.discards e = true
  · rw [if_pos hdiscards] at h
    exact absurd rfl h
  · rw [if_neg hdiscards] at h
    exact h

theorem ingestCall_of_tipMove {m : Daemon.TipMove} (hr : d.react cfg e = (d', some m))
    (hsnap : (d'.maybeCheckpoint cfg).pendingSnapshot = some snap) :
    Daemon.ingestCall cfg d e = some (d'.maybeCheckpoint cfg, snap) := by
  have hmoved : (d.react cfg e).2.bind (fun _ =>
      (((d.react cfg e).1.maybeCheckpoint cfg).pendingSnapshot).map
        (fun snap => ((d.react cfg e).1.maybeCheckpoint cfg, snap)))
      = some (d'.maybeCheckpoint cfg, snap) := by
    rw [hr]
    simp [hsnap]
  cases e with
  | message conn msg => exact absurd (Prod.mk.inj hr).2 (by simp)
  | addPeer conn => exact absurd (Prod.mk.inj hr).2 (by simp)
  | close conn => exact absurd (Prod.mk.inj hr).2 (by simp)
  | work => exact hmoved
  | submit w => exact absurd (Prod.mk.inj hr).2 (by simp)
  | submitAnchor a => exact hmoved
  | init stored writes => exact absurd (Prod.mk.inj hr).2 (by simp)
  | start => exact absurd (Prod.mk.inj hr).2 (by simp)
  | root mesh => exact absurd (Prod.mk.inj hr).2 (by simp)
  | switchChannel name => exact absurd (Prod.mk.inj hr).2 (by simp)

/-- What an event does up to a tip move keeps ledger and store together. -/
theorem Backed.react (hboard : cfg.app = boardApp cfg.chain.crypto K)
    (h : Backed cfg s.daemon s.store) (htraces : Traces cfg s e) (hon : e.onChannel = true) :
    Backed cfg (s.daemon.react cfg e).1 (persisted cfg s e) := by
  cases e with
  | message conn m =>
    by_cases hwrites : ∃ ws, m = .writes ws ∨ m = .announce ws
    · obtain ⟨ws, rfl | rfl⟩ := hwrites
      · exact h.onWrites conn ws (htraces.reported _ rfl)
      · exact h.onWrites conn ws (htraces.reported _ rfl)
    by_cases hsnapshot : ∃ snap, m = .snapshot snap
    · obtain ⟨snap, rfl⟩ := hsnapshot
      have hoffer : Backed cfg (s.daemon.recordOffer conn ⟨snap.anchorId, snap.height⟩) s.store :=
        h.of_same rfl rfl
      have hingest := hoffer.ingestSnapshot hboard
        fun anchor state hauth => htraces.rests _ snap anchor state rfl hauth
      show Backed cfg (s.daemon.onSnapshot cfg conn snap) s.store
      unfold Daemon.onSnapshot
      cases hr : (s.daemon.recordOffer conn ⟨snap.anchorId, snap.height⟩).ingestSnapshot cfg snap with
      | mk d accepted =>
        rw [hr] at hingest
        cases accepted
        · exact hingest.of_same rfl rfl
        · exact hingest.of_same rfl rfl
    · have hidle : s.daemon.Idle (s.daemon.handle cfg conn m) :=
        .handle cfg s.daemon conn (fun ws hm => hwrites ⟨ws, .inl hm⟩)
          (fun ws hm => hwrites ⟨ws, .inr hm⟩) fun snap hm => hsnapshot ⟨snap, hm⟩
      have hnone : persisted cfg s (.message conn m) = s.store := by
        unfold persisted Daemon.applied
        cases m with
        | writes ws => exact absurd ⟨ws, .inl rfl⟩ hwrites
        | announce ws => exact absurd ⟨ws, .inr rfl⟩ hwrites
        | _ => rfl
      rw [hnone]
      exact h.of_idle hidle
  | addPeer conn =>
    obtain ⟨hledger, hbase, -⟩ := Daemon.addPeer_spec cfg s.daemon conn
    exact h.of_same hledger hbase
  | close conn => exact h.of_same rfl rfl
  | work => exact h.of_idle (.work cfg s.daemon)
  | submit w => exact h.submit w (htraces.reported _ rfl)
  | submitAnchor a => exact h.of_idle (.submitAnchor cfg s.daemon a)
  | init stored writes => exact absurd hon (by simp [Daemon.Event.onChannel])
  | start => exact h.of_same rfl rfl
  | root mesh => exact h.root mesh
  | switchChannel name => exact absurd hon (by simp [Daemon.Event.onChannel])

/-- A boot reads back what it was backed by. -/
theorem Backed.boot (hboard : cfg.app = boardApp cfg.chain.crypto K) (h : Backed cfg d store)
    (network : String) :
    (Session.boot cfg network store).daemon.ledger
        = Ledger.rebuilt cfg.chain.crypto cfg.chain.params store ∧
      Backed cfg (Session.boot cfg network store).daemon store := by
  obtain ⟨hrebuilt, -⟩ := h.ledger.rebuilt
  cases hsnap : store.loadSnapshot with
  | none =>
    have hledger : (Session.boot cfg network store).daemon.ledger
        = Ledger.rebuilt cfg.chain.crypto cfg.chain.params store := by
      unfold Session.boot Daemon.init Ledger.rebuilt WriteStore.heads
      rw [hsnap]
      rfl
    refine ⟨hledger, ⟨hledger ▸ hrebuilt, h.keep, fun view hview => ?_, h.reads⟩⟩
    have hbase : (Session.boot cfg network store).daemon.checkpointBase = none := by
      unfold Session.boot Daemon.init
      rw [hsnap]
      rfl
    rw [hbase] at hview
    exact absurd hview (by simp)
  | some snap =>
    obtain ⟨state, hstate⟩ := h.reads snap hsnap
    have hread : cfg.app.deserialize snap.state = some state := by
      rw [hboard]
      exact hstate
    have hledger : (Session.boot cfg network store).daemon.ledger
        = Ledger.rebuilt cfg.chain.crypto cfg.chain.params store := by
      unfold Session.boot Daemon.init Ledger.rebuilt WriteStore.heads
      simp only [hsnap, hread]
      rfl
    refine ⟨hledger, ⟨hledger ▸ hrebuilt, h.keep, fun view hview => ?_, h.reads⟩⟩
    have hbase : (Session.boot cfg network store).daemon.checkpointBase = some state := by
      unfold Session.boot Daemon.init
      simp only [hsnap, hread]
    rw [hbase, Option.some.injEq] at hview
    exact hview ▸ View.Keyed.deserializeView hstate

/-- One event of a session that leaves its trace. -/
theorem Backed.step (hboard : cfg.app = boardApp cfg.chain.crypto K)
    (h : Backed cfg s.daemon s.store) {e : Event} (htraced : Traced cfg s e) :
    Backed cfg (Session.step cfg s e).daemon (Session.step cfg s e).store := by
  cases e with
  | restart => exact (h.boot hboard s.daemon.network).2
  | running e hon =>
    have hreact := h.react hboard htraced hon
    cases hr : s.daemon.react cfg e with
    | mk d move =>
      rw [hr] at hreact
      cases move with
      | none =>
        have hdaemon : (Session.step cfg s (.running e hon)).daemon = d := by
          show s.daemon.step cfg e = d
          unfold Daemon.step
          rw [hr]
        have hstore : (Session.step cfg s (.running e hon)).store = persisted cfg s e := by
          show s.stored cfg e = persisted cfg s e
          unfold stored
          rw [hr]
          rfl
        rw [hdaemon, hstore]
        exact hreact
      | some m =>
        have hdaemon : (Session.step cfg s (.running e hon)).daemon = d.moveTip cfg m := by
          show s.daemon.step cfg e = d.moveTip cfg m
          unfold Daemon.step
          rw [hr]
        have hstore : (Session.step cfg s (.running e hon)).store
            = match d.checkpointTaken cfg with
              | none => persisted cfg s e
              | some snap => ((persisted cfg s e).persistSnapshot snap).pruneBelow snap.heads := by
          show s.stored cfg e = _
          unfold stored
          rw [hr]
          rfl
        rw [hdaemon, hstore]
        refine hreact.moveTip hboard m (fun snap hsnap v hv => ?_)
          fun snap anchor state hsnap hauth => ?_
        · exact htraced.covers d m snap hr hsnap v (heads_persisted h.keep hv)
        · exact htraced.rests _ snap anchor state (ingestCall_of_tipMove hr hsnap) hauth

/-- A backed session restarts where it stopped. -/
theorem Backed.survives (hboard : cfg.app = boardApp cfg.chain.crypto K)
    (h : Backed cfg s.daemon s.store) :
    Survives s.daemon.ledger (Session.step cfg s .restart).daemon.ledger := by
  obtain ⟨-, hfloor, hheld, hpending⟩ := h.ledger.rebuilt
  have hledger : (Session.step cfg s .restart).daemon.ledger
      = Ledger.rebuilt cfg.chain.crypto cfg.chain.params s.store :=
    (h.boot hboard s.daemon.network).1
  rw [hledger]
  exact survives_of_same h.ledger.sound hfloor hheld hpending

theorem Backed.new (network : String) :
    Backed cfg (Daemon.new network) (.opened keepAllPolicy) where
  ledger := .empty
  keep := fun _ => rfl
  base := fun view hview => absurd hview (by simp [Daemon.new])
  reads := fun snap hsnap => absurd hsnap (by simp [WriteStore.loadSnapshot, WriteStore.opened])

/-- **Restarting.** An archiver whose every event leaves its trace, restarts among them, loses
nothing when it stops and starts again. -/
theorem archiver_survives (hboard : cfg.app = boardApp cfg.chain.crypto K) (network : String)
    {events : List Event}
    (h : Along (Session.step cfg) (Traced cfg) ⟨Daemon.new network, .opened keepAllPolicy⟩ events) :
    Survives (run (Session.step cfg) ⟨Daemon.new network, .opened keepAllPolicy⟩ events).daemon.ledger
      (Session.step cfg (run (Session.step cfg) ⟨Daemon.new network, .opened keepAllPolicy⟩ events)
        .restart).daemon.ledger := by
  have hrun : Backed cfg
      (run (Session.step cfg) ⟨Daemon.new network, .opened keepAllPolicy⟩ events).daemon
      (run (Session.step cfg) ⟨Daemon.new network, .opened keepAllPolicy⟩ events).store :=
    @inv_of_along _ _ (Session.step cfg) _ (fun s => Backed cfg s.daemon s.store) _
      (fun _ _ hs ht => Backed.step hboard hs ht) (Backed.new network) _ h
  exact hrun.survives hboard

/-! ## A node that joined by a checkpoint -/

namespace Unsaved

open Daemon.Rollback

/-- The node takes the anchors that certify a writer's first write, then a peer's checkpoint at
that write, and the writer's account posts its second write on it. -/
def events : List Event :=
  [.running (.root false) rfl,
    .running (.message peer (.anchorChain [boundary, above])) rfl,
    .running .work rfl, .running .work rfl, .running .work rfl, .running .work rfl,
    .running (.message peer (.snapshot (oldSnap 1))) rfl,
    .running (.submit second) rfl]

/-- Where it stops. -/
def stopped : Session View :=
  run (Session.step config) ⟨Daemon.new "gavl", .opened keepAllPolicy⟩ events

/-- It boots, takes a write and boots again. -/
def quiet : List Event := [.running (.root false) rfl, .running (.submit first) rfl, .restart]

end Unsaved

/-- An event that does not touch the ledger and ends in no tip move leaves its trace. -/
theorem traces_of_still {s : Session View} (hcall : callOf e = none)
    (hmove : (s.daemon.react cfg e).2 = none) (hsnapshot : ∀ conn snap, e ≠ .message conn (.snapshot snap)) :
    Traces cfg s e where
  reported := fun call h => absurd (hcall.symm.trans h) (by simp)
  rests := fun d snap anchor state h => by
    have hnone : Daemon.ingestCall cfg s.daemon e = none := by
      unfold Daemon.ingestCall
      split
      · exact absurd rfl (hsnapshot _ _)
      · rw [hmove]
        rfl
    exact absurd (hnone.symm.trans h) (by simp)
  covers := fun d m snap h => by
    rw [h] at hmove
    exact absurd hmove (by simp)

open Unsaved Daemon.Rollback in
/-- The checkpoint of the peer left nothing on disk: after the restart the head is gone, the write
above it waits in the buffer, and the account would post at seq 0 again. -/
theorem joined_forgets : (stopped.daemon.ledger.headOf "ab").map (·.seq) = some 1 ∧
    ¬ Survives stopped.daemon.ledger (Session.step config stopped .restart).daemon.ledger ∧
    (Session.step config stopped .restart).daemon.ledger.headOf "ab" = none ∧
    (Session.step config stopped .restart).daemon.ledger.pendingOf "ab" ≠ ∅ ∧
    (Session.step config stopped .restart).daemon.ledger.nextPost "ab" = (0, none) := by
  obtain ⟨hbefore, hafter, hpending, hpost⟩ :
      (stopped.daemon.ledger.headOf "ab").map (·.seq) = some 1 ∧
      (Session.step config stopped .restart).daemon.ledger.headOf "ab" = none ∧
      ((Session.step config stopped .restart).daemon.ledger.pendingOf "ab").size = 1 ∧
      (Session.step config stopped .restart).daemon.ledger.nextPost "ab" = (0, none) := by
    decide +kernel
  refine ⟨hbefore, fun h => ?_, hafter, fun hempty => ?_, hpost⟩
  · obtain ⟨mine, hmine, -⟩ := Option.map_eq_some_iff.mp hbefore
    obtain ⟨h', hh', -⟩ := h.heads "ab" mine hmine
    exact absurd (hafter.symm.trans hh') (by simp)
  · rw [hempty] at hpending
    exact absurd hpending (by decide)

open Unsaved Daemon.Rollback in
/-- A node that posts and restarts. -/
theorem archiver_survives_quiet :
    Survives (run (Session.step config) ⟨Daemon.new "gavl", .opened keepAllPolicy⟩ quiet).daemon.ledger
      (Session.step config (run (Session.step config) ⟨Daemon.new "gavl", .opened keepAllPolicy⟩ quiet)
        .restart).daemon.ledger := by
  have hnext : (((Session.step config ⟨Daemon.new "gavl", .opened keepAllPolicy⟩
      (.running (.root false) rfl)).daemon.ledger.live first.writer).get? (first.seq + 1)) = none := by
    decide +kernel
  refine @archiver_survives config ⟨fun _ => true⟩ rfl "gavl" quiet ?_
  refine along_cons.mpr ⟨?_, along_cons.mpr ⟨?_, along_cons.mpr ⟨trivial, along_nil⟩⟩⟩
  · exact traces_of_still rfl rfl fun conn snap h => by simp at h
  · refine ⟨fun call hcall => ?_, fun d snap anchor state h => ?_, fun d m snap h => ?_⟩
    · obtain rfl := Option.some.inj hcall
      exact fun _ => .last hnext
    · exact absurd h (by simp [Daemon.ingestCall, Daemon.react])
    · exact absurd (Prod.mk.inj h).2 (by simp)

end Session

end Gavl
