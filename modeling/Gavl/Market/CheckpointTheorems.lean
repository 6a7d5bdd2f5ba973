import Gavl.Consensus.RebuildTheorems
import Gavl.Market.OrderTheorems

/-!
# Checkpointed views

A checkpointed node holds the writes above the heads of a checkpoint, the chain from some floor
at or below it, and the board the checkpoint certifies. Its epochs are recomputed from less, and
yet every write it still holds gets the epoch it had: the first anchor that covers a write the
checkpoint does not cover lies above the checkpoint. So the board it folds is the one a full
node folds.
-/

namespace Gavl

open StableSort

variable {K : Curve} {writes : List Write} {w : Write} {heads prev delta : Heads}

/-! ## Certifying anchors -/

theorem covers_iff : covers heads w = true ↔ ∃ h, heads.get? w.writer = some h ∧ w.seq ≤ h.seq := by
  unfold covers
  cases heads.get? w.writer with
  | none => simp
  | some h => simp

theorem covers_congr {heads' : Heads} (h : ∀ v, heads.get? v = heads'.get? v) :
    covers heads = covers heads' := by
  funext w
  unfold covers
  rw [h]

/-- Under an advancing delta the covered writes are those covered before and those of the
delta. -/
theorem covers_applyHeadsDelta (hadv : Advances prev delta) :
    covers (applyHeadsDelta prev delta) w = true ↔
      covers prev w = true ∨ covers delta w = true := by
  simp only [covers_iff, get?_applyHeadsDelta]
  cases hd : delta.get? w.writer with
  | none => simp
  | some h' =>
    simp only [Option.orElse_some, Option.some.injEq, exists_eq_left']
    refine ⟨Or.inr, ?_⟩
    rintro (⟨h, hp, hle⟩ | hle)
    · exact le_trans hle (hadv w.writer h h' hp hd).1
    · exact hle

/-- The first anchor whose delta covers the write. -/
def certifier (chain : List Anchor) (w : Write) : Option Anchor :=
  chain.find? (fun x => covers x.headsDelta w)

namespace Epochs

variable {s : Epochs} {e : String × Head} {height : ℕ}

/-- Everything of the writer up to `n` has been passed over. -/
def Passed (s : Epochs) (v : String) (n : ℕ) : Prop := ∃ m, s.covered.get? v = some m ∧ n ≤ m

/-- The writes passed over are those with an epoch. -/
def Tracks (writes : List Write) (s : Epochs) : Prop :=
  ∀ w ∈ writes, s.Passed w.writer w.seq ↔ (s.epoch.get? w.id).isSome = true

theorem passed_cover (v : String) (n : ℕ) :
    (s.cover writes height e).Passed v n ↔ s.Passed v n ∨ (e.1 = v ∧ n ≤ e.2.seq) := by
  unfold cover Passed
  cases hc : s.covered.get? e.1 with
  | none =>
    simp only [Bool.not_true, Bool.false_eq_true, if_false, OrderedMap.get?_set]
    by_cases hv : e.1 = v
    · subst hv
      simp [hc]
    · simp [hv]
  | some m =>
    simp only [Bool.not_eq_true', decide_eq_false_iff_not, not_lt]
    by_cases hm : e.2.seq ≤ m
    · rw [if_pos hm]
      refine ⟨Or.inl, ?_⟩
      rintro (h | ⟨rfl, hn⟩)
      · exact h
      · exact ⟨m, hc, le_trans hn hm⟩
    · rw [if_neg hm]
      simp only [OrderedMap.get?_set]
      by_cases hv : e.1 = v
      · subst hv
        simp only [if_true, Option.some.injEq, exists_eq_left', hc, true_and]
        omega
      · simp [hv]

theorem fresh_iff {seq : ℕ} : s.fresh seq w = true ↔ ¬ s.Passed w.writer w.seq ∧ w.seq ≤ seq := by
  unfold fresh Passed
  cases s.covered.get? w.writer with
  | none => simp
  | some m => simp

/-- One entry of a delta gives its height to the writes it newly passes over. -/
theorem get?_cover (id : String) :
    (s.cover writes height e).epoch.get? id
      = (s.epoch.get? id).or
          (if id ∈ (writes.filter (fun w => decide (w.writer = e.1) && s.fresh e.2.seq w)).map (·.id)
            then some (height : ℤ) else none) := by
  by_cases hmoved : s.Passed e.1 e.2.seq
  · -- the entry moves nothing, and nothing is newly passed over
    have hnone : writes.filter (fun w => decide (w.writer = e.1) && s.fresh e.2.seq w) = [] := by
      rw [List.filter_eq_nil_iff]
      intro x _ hx
      rw [Bool.and_eq_true, decide_eq_true_eq, fresh_iff] at hx
      obtain ⟨hwriter, hnot, hle⟩ := hx
      obtain ⟨m, hm, hseq⟩ := hmoved
      exact hnot ⟨m, by rw [hwriter, hm], le_trans hle hseq⟩
    have hstay : s.cover writes height e = s := by
      obtain ⟨m, hm, hseq⟩ := hmoved
      unfold cover
      simp only [hm]
      rw [if_pos (by simpa using hseq)]
    rw [hnone, hstay]
    simp
  · have hset : (s.cover writes height e).epoch
        = (writes.filter (fun w => decide (w.writer = e.1) && s.fresh e.2.seq w)).foldl
            (assign height) s.epoch := by
      unfold cover
      cases hc : s.covered.get? e.1 with
      | none => simp
      | some m =>
        have hlt : m < e.2.seq := by
          by_contra hle
          exact hmoved ⟨m, hc, not_lt.mp hle⟩
        simp [hlt]
    rw [hset, get?_foldl_assign]

/-- A write with an id of its own gets the height of the first entry that passes over it. -/
theorem Tracks.get?_cover (hids : (writes.map (·.id)).Nodup) (hs : Tracks writes s)
    (hw : w ∈ writes) :
    (s.cover writes height e).epoch.get? w.id
      = (s.epoch.get? w.id).or
          (if e.1 = w.writer ∧ w.seq ≤ e.2.seq then some (height : ℤ) else none) := by
  have hmem : w.id ∈ (writes.filter
      (fun w => decide (w.writer = e.1) && s.fresh e.2.seq w)).map (·.id) ↔
      w.writer = e.1 ∧ s.fresh e.2.seq w = true := by
    rw [List.mem_map]
    constructor
    · rintro ⟨x, hx, hid⟩
      obtain ⟨hxw, hpx⟩ := List.mem_filter.mp hx
      rw [List.inj_on_of_nodup_map hids hxw hw hid, Bool.and_eq_true, decide_eq_true_eq] at hpx
      exact hpx
    · rintro ⟨hwriter, hfresh⟩
      exact ⟨w, List.mem_filter.mpr ⟨hw, by simp [hwriter, hfresh]⟩, rfl⟩
  rw [Epochs.get?_cover, if_congr hmem rfl rfl]
  cases hsome : s.epoch.get? w.id with
  | some h => rw [Option.some_or, Option.some_or]
  | none =>
    have hnot : ¬ s.Passed w.writer w.seq := by
      rw [hs w hw, hsome]
      simp
    have hiff : (w.writer = e.1 ∧ s.fresh e.2.seq w = true) ↔ e.1 = w.writer ∧ w.seq ≤ e.2.seq := by
      rw [fresh_iff, eq_comm]
      exact and_congr_right fun _ => and_iff_right hnot
    rw [if_congr hiff rfl rfl]

theorem Tracks.cover (hids : (writes.map (·.id)).Nodup) (hs : Tracks writes s) :
    Tracks writes (s.cover writes height e) := by
  intro w hw
  rw [passed_cover, hs w hw, hs.get?_cover hids hw, Option.isSome_or, Bool.or_eq_true]
  refine or_congr_right ?_
  split_ifs with h
  · simp [h]
  · simp [h]

/-- A whole delta gives its height to the writes it is the first to cover. -/
theorem Tracks.coverAnchor (hids : (writes.map (·.id)).Nodup) (hs : Tracks writes s)
    (anchor : Anchor) :
    Tracks writes (s.coverAnchor writes anchor) ∧ ∀ w ∈ writes,
      (s.coverAnchor writes anchor).epoch.get? w.id
        = (s.epoch.get? w.id).or
            (if covers anchor.headsDelta w then some (anchor.height : ℤ) else none) := by
  have hcov : ∀ w, covers anchor.headsDelta w = true ↔
      ∃ e ∈ anchor.headsDelta.entries, e.1 = w.writer ∧ w.seq ≤ e.2.seq := by
    intro w
    rw [covers_iff]
    constructor
    · rintro ⟨h, hget, hle⟩
      exact ⟨(w.writer, h), (OrderedMap.get?_eq_some_iff _ _ _).mp hget, rfl, hle⟩
    · rintro ⟨⟨v, h⟩, hmem, rfl, hle⟩
      exact ⟨h, (OrderedMap.get?_eq_some_iff _ _ _).mpr hmem, hle⟩
  have hfold : ∀ (l : List (String × Head)) {s : Epochs}, Tracks writes s →
      Tracks writes (l.foldl (Epochs.cover writes anchor.height) s) ∧ ∀ w ∈ writes,
        (l.foldl (Epochs.cover writes anchor.height) s).epoch.get? w.id
          = (s.epoch.get? w.id).or
              (if ∃ e ∈ l, e.1 = w.writer ∧ w.seq ≤ e.2.seq then some (anchor.height : ℤ)
                else none) := by
    intro l
    induction l with
    | nil =>
      intro s hs
      exact ⟨hs, fun w _ => by simp⟩
    | cons e l ih =>
      intro s hs
      have hnext : Tracks writes (s.cover writes anchor.height e) := hs.cover hids
      obtain ⟨htracks, hget⟩ := ih hnext
      refine ⟨htracks, fun w hw => ?_⟩
      rw [List.foldl_cons, hget w hw, hs.get?_cover hids hw, Option.or_assoc]
      congr 1
      by_cases he : e.1 = w.writer ∧ w.seq ≤ e.2.seq
      · simp [he]
      · simp only [List.mem_cons, exists_eq_or_imp, he, false_or, if_false, Option.none_or]
  obtain ⟨htracks, hget⟩ := hfold anchor.headsDelta.entries hs
  refine ⟨htracks, fun w hw => ?_⟩
  unfold Epochs.coverAnchor
  rw [hget w hw]
  simp only [hcov]

end Epochs

/-- **Epochs.** The epoch of a write is the height of the first anchor of the chain whose delta
covers it. -/
theorem get?_epochOf (hids : (writes.map (·.id)).Nodup) (chain : List Anchor) (hw : w ∈ writes) :
    (epochOf chain writes).get? w.id = (certifier chain w).map (fun x => (x.height : ℤ)) := by
  have hfold : ∀ (chain : List Anchor) {s : Epochs}, Epochs.Tracks writes s →
      (chain.foldl (Epochs.coverAnchor writes) s).epoch.get? w.id
        = (s.epoch.get? w.id).or ((certifier chain w).map (fun x => (x.height : ℤ))) := by
    intro chain
    induction chain with
    | nil =>
      intro s _
      simp [certifier]
    | cons x chain ih =>
      intro s hs
      obtain ⟨htracks, hget⟩ := hs.coverAnchor hids x
      rw [List.foldl_cons, ih htracks, hget w hw, Option.or_assoc]
      unfold certifier
      rw [List.find?_cons]
      cases covers x.headsDelta w <;> simp
  have hstart : Epochs.Tracks writes ⟨∅, ∅⟩ := fun w _ => by simp [Epochs.Passed]
  unfold epochOf
  rw [hfold chain hstart]
  simp

/-! ## Heads that only advance -/

/-- Every delta of the chain only advances the heads it is applied onto. -/
def AnchorChain.DeltasAdvance (c : AnchorChain) : Prop :=
  ∀ a p, c.Holds a → c.parent a = some p → Advances (c.headsAt p.id) a.headsDelta

/-- Advancing is checked entry by entry. -/
instance Advances.decidable (prev delta : Heads) : Decidable (Advances prev delta) :=
  decidable_of_iff (∀ e ∈ prev.entries, ∀ h' ∈ delta.get? e.1,
      e.2.seq ≤ h'.seq ∧ (h'.seq = e.2.seq → h'.id = e.2.id)) <| by
    refine ⟨fun hall w h h' hw hd => ?_, fun hadv e he h' hd => ?_⟩
    · exact hall (w, h) ((OrderedMap.get?_eq_some_iff _ _ _).mp hw) h' hd
    · exact hadv e.1 e.2 h' ((OrderedMap.get?_eq_some_iff _ _ _).mpr he) hd

/-- A chain checked anchor by anchor. -/
theorem AnchorChain.DeltasAdvance.of_entries {c : AnchorChain}
    (h : ∀ e ∈ c.anchors.entries, ∀ p ∈ c.parent e.2,
      Advances (c.headsAt p.id) e.2.headsDelta) : c.DeltasAdvance := by
  intro a p ha hp
  exact h (a.id, a) ((OrderedMap.get?_eq_some_iff _ _ _).mp ha) p hp

open AnchorChain ParentWalk Runs

variable {full p : AnchorChain} {a c x y : Anchor} {a' b' : Write}

/-- The heads of a root are those of its delta. -/
theorem covers_headsAt_root (hfull : full.Grown) (hy : full.Holds y) (hroot : full.parent y = none) :
    covers (full.headsAt y.id) w = true ↔ covers y.headsDelta w = true := by
  rw [hfull.headsAt_eq hy, rebuiltHeads_root hroot, hfull.no_floor, if_neg (by simp)]
  simp only [covers_iff, get?_applyHeadsDelta]
  cases y.headsDelta.get? w.writer <;> simp

/-- The heads of an anchor cover a write exactly where some delta below does. -/
theorem covers_headsAt_iff (hfull : full.Grown) (hadv : full.DeltasAdvance) (hy : full.Holds y) :
    covers (full.headsAt y.id) w = true ↔
      ∃ x, Anc full.parent y x ∧ covers x.headsDelta w = true := by
  have hL := hfull.linked
  induction hn : y.height using Nat.strong_induction_on generalizing y with
  | _ n ih =>
    cases hp : full.parent y with
    | none =>
      rw [covers_headsAt_root hfull hy hp]
      constructor
      · exact fun h => ⟨y, Anc.refl y, h⟩
      · rintro ⟨x, hyx, hx⟩
        rcases hyx.cases_parent with rfl | ⟨q, hq, -⟩
        · exact hx
        · rw [hp] at hq
          exact absurd hq (by simp)
    | some q =>
      have hone := hL.height_eq y q hy hp
      have hbelow : covers (full.headsAt q.id) w = true ↔
          ∃ x, Anc full.parent q x ∧ covers x.headsDelta w = true :=
        ih q.height (by omega) (hL.holds_parent hp) rfl
      rw [hfull.headsAt_child hy hp, covers_applyHeadsDelta (hadv y q hy hp), hbelow]
      constructor
      · rintro (⟨x, hqx, hx⟩ | hself)
        · exact ⟨x, Anc.step hp hqx, hx⟩
        · exact ⟨y, Anc.refl y, hself⟩
      · rintro ⟨x, hyx, hx⟩
        rcases hyx.cases_parent with rfl | ⟨q', hq', hqx⟩
        · exact Or.inr hx
        · rw [hp, Option.some.injEq] at hq'
          exact Or.inl ⟨x, hq' ▸ hqx, hx⟩

/-- Oldest first, the chain of an anchor continues the chain of each of its ancestors, with
anchors above it. -/
theorem chainTo_split (hL : full.Linked) (hac : Anc full.parent a c) (ha : full.Holds a) :
    ∃ rest, full.chainTo a = full.chainTo c ++ rest ∧ ∀ x ∈ rest, c.height < x.height := by
  induction hac with
  | refl a => exact ⟨[], by simp, by simp⟩
  | @step a q c hq hqc ih =>
    have hqheld := hL.holds_parent hq
    obtain ⟨rest, hsplit, habove⟩ := ih hqheld
    refine ⟨rest ++ [a], ?_, fun x hx => ?_⟩
    · have hcons : full.chainTo a = full.chainTo q ++ [a] := by
        unfold chainTo
        rw [hL.ancestry_cons ha hq, List.reverse_cons]
      rw [hcons, hsplit, List.append_assoc]
    · rcases List.mem_append.mp hx with hx | hx
      · exact habove x hx
      · rw [List.mem_singleton.mp hx]
        have hone := hL.height_eq a q ha hq
        have hle := hL.graded.height_le hqheld hqc
        omega

theorem mem_chainTo (hL : full.Linked) (hy : full.Holds y) :
    x ∈ full.chainTo y ↔ Anc full.parent y x := by
  unfold chainTo
  rw [List.mem_reverse, hL.mem_ancestry hy]

/-! ## Orderable stamps -/

/-- A stamp that is a number. -/
def Numeric (w : Write) : Prop := ∃ n : JsNum, w.ts = .num n ∧ n.value ≠ .nan

/-- The comparator tells any two numbers apart, or they are equal. -/
theorem Numeric.orderable (ha : Numeric a') (hb : Numeric b') : Json.Orderable a'.ts b'.ts := by
  obtain ⟨m, hm, hmn⟩ := ha
  obtain ⟨n, hn, hnn⟩ := hb
  unfold Json.Orderable
  by_cases heq : m.value = n.value
  · left
    rw [hm, hn]
    simp [Json.strictEq, heq]
  · right
    rw [hm, hn]
    unfold Json.minus
    simp only [Json.toNumber]
    cases hmv : m.value with
    | nan => exact absurd hmv hmn
    | infinite x =>
      cases hnv : n.value with
      | nan => exact absurd hnv hnn
      | infinite z =>
        rw [hmv, hnv] at heq
        cases x <;> cases z <;> simp_all [Double.diff]
      | finite z => cases x <;> simp [Double.diff]
    | finite x =>
      cases hnv : n.value with
      | nan => exact absurd hnv hnn
      | infinite z => cases z <;> simp [Double.diff]
      | finite z =>
        rw [hmv, hnv] at heq
        simp only [Double.diff]
        intro hzero
        exact heq (congrArg Double.finite (by omega))

theorem epochOrder_antisymm (epoch : OrderedMap String ℤ) (x y : Write) :
    epochOrder epoch y x = -epochOrder epoch x y := by
  rw [epochOrder_eq, epochOrder_eq, stampOrder_antisymm x y]
  split_ifs <;> omega

/-- Numeric stamps are ordered, whatever the epochs. -/
theorem consistent_epochOrder (hts : ∀ w ∈ writes, Numeric w) (epoch : OrderedMap String ℤ) :
    Consistent (epochOrder epoch) writes where
  antisymm := fun x _ y _ => by
    rw [epochOrder_antisymm epoch x y]
    omega
  trans := fun x hx y hy z hz hxy hyz => by
    rw [epochOrder_eq] at hxy hyz ⊢
    have htrans := stampOrder_trans ((hts x hx).orderable (hts y hy))
      ((hts y hy).orderable (hts z hz))
    split_ifs at hxy hyz ⊢ <;> omega

/-- A fold reads the epochs of the writes it folds. -/
theorem computeView_congr {epoch epoch' : OrderedMap String ℤ} {now : ℤ} {base : Option View}
    (h : ∀ w ∈ writes, epoch.get? w.id = epoch'.get? w.id) :
    computeView K writes now ⟨epochOrder epoch, epoch, base⟩
      = computeView K writes now ⟨epochOrder epoch', epoch', base⟩ := by
  have hheight : ∀ w ∈ writes, heightOf epoch now w = heightOf epoch' now w := by
    intro w hw
    unfold heightOf
    rw [h w hw]
  have hsort : sortWrites (foldOrder ⟨epochOrder epoch, epoch, base⟩ now) writes
      = sortWrites (foldOrder ⟨epochOrder epoch', epoch', base⟩ now) writes := by
    have hmap := List.map_insertionSort
      (fun x y => foldOrder ⟨epochOrder epoch, epoch, base⟩ now x y ≤ 0)
      (s := fun x y => foldOrder ⟨epochOrder epoch', epoch', base⟩ now x y ≤ 0) id writes
      fun x hx y hy => by
        unfold foldOrder epochOrder
        simp only [hheight x hx, hheight y hy, h x hx, h y hy]
        rfl
    rw [List.map_id, List.map_id] at hmap
    exact hmap
  unfold computeView
  rw [hsort]
  refine congrArg (fun v => advance v now) (List.foldl_ext _ _ _ fun v w hw => ?_)
  rw [hheight w ((List.mem_insertionSort _).mp hw)]

/-! ## Folding from a checkpoint -/

/-- A chain that dropped anchors below `c` and still answers for `a` what the full chain does. -/
structure PrunedBelow (full p : AnchorChain) (c a : Anchor) : Prop where
  holds : p.Holds a
  suffix : p.chainTo a <:+ full.chainTo a
  mem : c ∈ p.chainTo a
  heads : ∀ v, (p.headsAt a.id).get? v = (full.headsAt a.id).get? v

theorem viewAtAnchor_of_holds (writes : List Write) (base : Option View) (ha : p.Holds a) :
    viewAtAnchor K writes p a.id base
      = computeView K (writes.filter (covers (p.headsAt a.id))) a.height
          ⟨epochOrder (epochOf (p.chainTo a) (writes.filter (covers (p.headsAt a.id)))),
            epochOf (p.chainTo a) (writes.filter (covers (p.headsAt a.id))), base⟩ := by
  unfold Holds at ha
  unfold viewAtAnchor
  rw [ha]
  rfl

/-- Below a checkpoint the chain of the checkpoint certifies what the longer chain does. -/
theorem certifier_below {lower rest : List Anchor} (hw : ∃ x ∈ lower, covers x.headsDelta w = true) :
    certifier (lower ++ rest) w = certifier lower w := by
  unfold certifier
  obtain ⟨x, hx, hcov⟩ := hw
  cases hf : lower.find? (fun x => covers x.headsDelta w) with
  | none => exact absurd hcov (by simpa using List.find?_eq_none.mp hf x hx)
  | some y => rw [List.find?_append, hf, Option.some_or]

/-- Anchors that do not cover the write do not matter. -/
theorem certifier_above {lower rest : List Anchor} (hw : ∀ x ∈ lower, covers x.headsDelta w = false) :
    certifier (lower ++ rest) w = certifier rest w := by
  unfold certifier
  have hnone : lower.find? (fun x => covers x.headsDelta w) = none :=
    List.find?_eq_none.mpr fun x hx => by simp [hw x hx]
  rw [List.find?_append, hnone, Option.none_or]

variable {C : Crypto}

/-- A write that `a` certifies folds at or below the height of `c` exactly where `c` certifies
it. -/
theorem heightOf_le_iff (hfull : full.Grown) (hadv : full.DeltasAdvance) (ha : full.Holds a)
    (hac : Anc full.parent a c) {epoch : OrderedMap String ℤ}
    (hepoch : epoch.get? w.id = (certifier (full.chainTo a) w).map (fun x => (x.height : ℤ)))
    (hw : covers (full.headsAt a.id) w = true) :
    heightOf epoch a.height w ≤ c.height ↔ covers (full.headsAt c.id) w = true := by
  have hL := hfull.linked
  have hc := hL.holds_anc ha hac
  obtain ⟨rest, hsplit, habove⟩ := chainTo_split hL hac ha
  have hmem : ∀ x, certifier (full.chainTo a) w = some x →
      x ∈ full.chainTo a ∧ covers x.headsDelta w = true := fun x hx =>
    ⟨List.mem_of_find?_eq_some hx, by simpa using List.find?_some hx⟩
  rw [covers_headsAt_iff hfull hadv hc]
  unfold heightOf
  rw [hepoch]
  constructor
  · intro hle
    obtain ⟨x, hax, hx⟩ := (covers_headsAt_iff hfull hadv ha).mp hw
    cases hcert : certifier (full.chainTo a) w with
    | none =>
      exact absurd hx (by simpa using List.find?_eq_none.mp hcert x ((mem_chainTo hL ha).mpr hax))
    | some y =>
      rw [hcert, Option.map_some, Option.getD_some] at hle
      obtain ⟨hy, hycov⟩ := hmem y hcert
      have hya := hL.graded.height_le ha ((mem_chainTo hL ha).mp hy)
      refine ⟨y, ?_, hycov⟩
      rw [hsplit, List.mem_append] at hy
      rcases hy with hy | hy
      · exact (mem_chainTo hL hc).mp hy
      · have hlt := habove y hy
        omega
  · rintro ⟨x, hcx, hx⟩
    have hx' := (mem_chainTo hL hc).mpr hcx
    rw [hsplit, certifier_below ⟨x, hx', hx⟩]
    cases hcert : certifier (full.chainTo c) w with
    | none => exact absurd hx (by simpa using List.find?_eq_none.mp hcert x hx')
    | some y =>
      have hy := (mem_chainTo hL hc).mp (List.mem_of_find?_eq_some hcert)
      have hle := hL.graded.height_le hc hy
      rw [Option.map_some, Option.getD_some]
      omega

/-- **A checkpointed node computes the board of a full node.** `full` is a chain that was never
pruned and whose deltas only advance heads, `c` one of its anchors and `a` a descendant of `c`.
A node that holds the writes above the heads of `c`, a chain `p` pruned below `c` and the board
of `c` folds the board of `a`, and commits its root. -/
theorem checkpointed_view_eq (hfull : full.Grown) (hadv : full.DeltasAdvance) (ha : full.Holds a)
    (hac : Anc full.parent a c) (hp : PrunedBelow full p c a)
    (hids : (writes.map (·.id)).Nodup) (hts : ∀ w ∈ writes, Numeric w) :
    viewAtAnchor K (writes.filter (fun w => !covers (full.headsAt c.id) w)) p a.id
          (some (viewAtAnchor K writes full c.id none))
        = viewAtAnchor K writes full a.id none ∧
      viewRoot C (viewAtAnchor K (writes.filter (fun w => !covers (full.headsAt c.id) w)) p a.id
          (some (viewAtAnchor K writes full c.id none)))
        = viewRoot C (viewAtAnchor K writes full a.id none) := by
  suffices hview : viewAtAnchor K (writes.filter (fun w => !covers (full.headsAt c.id) w)) p a.id
      (some (viewAtAnchor K writes full c.id none)) = viewAtAnchor K writes full a.id none from
    ⟨hview, congrArg _ hview⟩
  have hL := hfull.linked
  have hc := hL.holds_anc ha hac
  have hnodup : ∀ l : List Write, l.Sublist writes → (l.map (·.id)).Nodup := fun l hl =>
    hids.sublist (hl.map _)
  obtain ⟨rest, hsplit, habove⟩ := chainTo_split hL hac ha
  have hcovc : ∀ w, covers (full.headsAt c.id) w = true ↔
      ∃ x ∈ full.chainTo c, covers x.headsDelta w = true := fun w => by
    rw [covers_headsAt_iff hfull hadv hc]
    simp only [mem_chainTo hL hc]
  have hheads : covers (p.headsAt a.id) = covers (full.headsAt a.id) := covers_congr hp.heads
  rw [viewAtAnchor_of_holds writes none ha, viewAtAnchor_of_holds writes none hc,
    viewAtAnchor_of_holds _ _ hp.holds, hheads]
  generalize hE : epochOf (full.chainTo a) (writes.filter (covers (full.headsAt a.id))) = E
  have hepoch : ∀ w ∈ writes.filter (covers (full.headsAt a.id)),
      E.get? w.id = (certifier (full.chainTo a) w).map (fun x => (x.height : ℤ)) := fun w hw => by
    rw [← hE]
    exact get?_epochOf (hnodup _ List.filter_sublist) _ hw
  have hlow : ∀ w ∈ writes.filter (covers (full.headsAt a.id)),
      (heightOf E a.height w ≤ c.height ↔ covers (full.headsAt c.id) w = true) := fun w hw =>
    heightOf_le_iff hfull hadv ha hac (hepoch w hw) (List.mem_filter.mp hw).2
  have hupward : ∀ w, covers (full.headsAt c.id) w = true → covers (full.headsAt a.id) w = true := by
    intro w hw
    obtain ⟨x, hcx, hx⟩ := (covers_headsAt_iff hfull hadv hc).mp hw
    exact (covers_headsAt_iff hfull hadv ha).mpr ⟨x, hac.trans hcx, hx⟩
  -- what the fold of `a` resumes from at the height of `c`
  have hbelow : (writes.filter (covers (full.headsAt a.id))).filter
      (fun w => decide (heightOf E a.height w ≤ c.height)) = writes.filter (covers (full.headsAt c.id)) := by
    rw [List.filter_filter]
    refine List.filter_congr fun w hw => ?_
    cases hcov : covers (full.headsAt a.id) w with
    | true =>
      rw [Bool.and_true, Bool.eq_iff_iff, decide_eq_true_eq]
      exact hlow w (List.mem_filter.mpr ⟨hw, hcov⟩)
    | false =>
      rw [Bool.and_false, eq_comm, ← Bool.not_eq_true]
      intro hcw
      rw [hupward w hcw] at hcov
      exact absurd hcov (by simp)
  have hover : (writes.filter (covers (full.headsAt a.id))).filter
      (fun w => !decide (heightOf E a.height w ≤ c.height))
        = (writes.filter (fun w => !covers (full.headsAt c.id) w)).filter
            (covers (full.headsAt a.id)) := by
    rw [List.filter_filter, List.filter_filter]
    refine List.filter_congr fun w hw => ?_
    cases hcov : covers (full.headsAt a.id) w with
    | true =>
      rw [Bool.and_true, Bool.true_and]
      congr 1
      rw [Bool.eq_iff_iff, decide_eq_true_eq]
      exact hlow w (List.mem_filter.mpr ⟨hw, hcov⟩)
    | false => rw [Bool.and_false, Bool.false_and]
  have hcons : Consistent (epochOrder E) (writes.filter (covers (full.headsAt a.id))) :=
    consistent_epochOrder (fun w hw => hts w (List.mem_of_mem_filter hw)) E
  have hheight : (c.height : ℤ) ≤ a.height := by
    have hle := hL.graded.height_le ha hac
    omega
  have hresume := computeView_resume (K := K) ⟨epochOrder E, E, none⟩ hcons WellTimed.empty hheight
  simp only [hbelow, hover] at hresume
  rw [← hresume]
  have hbase : computeView K (writes.filter (covers (full.headsAt c.id))) c.height
      ⟨epochOrder (epochOf (full.chainTo c) (writes.filter (covers (full.headsAt c.id)))),
        epochOf (full.chainTo c) (writes.filter (covers (full.headsAt c.id))), none⟩
      = computeView K (writes.filter (covers (full.headsAt c.id))) c.height
          ⟨epochOrder E, E, none⟩ := by
    refine computeView_congr fun w hw => ?_
    obtain ⟨hw', hcw⟩ := List.mem_filter.mp hw
    rw [get?_epochOf (hnodup _ List.filter_sublist) _ hw,
      hepoch w (List.mem_filter.mpr ⟨hw', hupward w hcw⟩), hsplit,
      certifier_below ((hcovc w).mp hcw)]
  rw [hbase]
  refine computeView_congr fun w hw => ?_
  obtain ⟨hw', hacov⟩ := List.mem_filter.mp hw
  obtain ⟨hwmem, hncov⟩ := List.mem_filter.mp hw'
  rw [get?_epochOf (hnodup _ (List.filter_sublist.trans List.filter_sublist)) _ hw,
    hepoch w (List.mem_filter.mpr ⟨hwmem, hacov⟩)]
  -- the anchors that `p` dropped lie below `c`, and none of those covers the write
  obtain ⟨dropped, hdropped⟩ := hp.suffix
  have hinc : (full.chainTo a).Pairwise (fun x y => x.height < y.height) := by
    unfold chainTo
    rw [List.pairwise_reverse, hL.ancestry_eq ha]
    exact hL.graded.pairwise_walk _ ha
  rw [← hdropped, certifier_above fun x hx => ?_]
  rw [← Bool.not_eq_true]
  intro hx'
  rw [← hdropped] at hinc
  have hlt := (List.pairwise_append.mp hinc).2.2 x hx c hp.mem
  have hxa : x ∈ full.chainTo c ++ rest := by
    rw [← hsplit, ← hdropped]
    exact List.mem_append_left _ hx
  rcases List.mem_append.mp hxa with hxc | hxr
  · rw [(hcovc w).mpr ⟨x, hxc, hx'⟩] at hncov
    exact absurd hncov (by simp)
  · have hgt := habove x hxr
    omega

/-! ## Chains that `prune` leaves -/

/-- Above the floor a pruned chain has the end of the full one. -/
theorem suffix_prunedAt {f : Anchor} {height : ℤ} (hL : full.Linked)
    (hroot : (full.prunedAt height f).parent f = none)
    (haf : Anc (full.prunedAt height f).parent a f) (ha : (full.prunedAt height f).Holds a) :
    (full.prunedAt height f).chainTo a <:+ full.chainTo a := by
  have hL' : (full.prunedAt height f).Linked := hL.prunedAt
  generalize hp : full.prunedAt height f = p at hroot haf ha hL'
  induction haf with
  | refl x =>
    have hx : full.Holds x := by
      rw [← hp] at ha
      exact (holds_prunedAt.mp ha).1
    unfold chainTo
    rw [ancestry_root hroot]
    obtain ⟨older, hsplit⟩ : ∃ older, full.ancestry x = x :: older := by
      unfold ancestry
      rw [walk_succ]
      exact ⟨_, rfl⟩
    rw [hsplit]
    show [x] <:+ (x :: older).reverse
    rw [List.reverse_cons]
    exact List.suffix_append _ _
  | @step x q f hq _ ih =>
    have hx : full.Holds x := by
      rw [← hp] at ha
      exact (holds_prunedAt.mp ha).1
    have hq' : full.parent x = some q := by
      rw [← hp] at hq
      exact (parent_prunedAt.mp hq).1
    obtain ⟨older, holder⟩ := ih hp hroot (hL'.holds_parent hq)
    unfold chainTo at holder ⊢
    rw [hL'.ancestry_cons ha hq, hL.ancestry_cons hx hq', List.reverse_cons, List.reverse_cons,
      ← holder, List.append_assoc]
    exact List.suffix_append _ _

/-- What `prune` leaves of a chain that was never pruned, where the new floor is at or below
`c`. -/
theorem prunedBelow_prune {cfg : ChainConfig} (hfull : full.Grown) (ha : full.Holds a)
    (hac : Anc full.parent a c) (floorHeight : ℤ)
    (hfloor : ∀ f, full.Holds f → (full.prune cfg floorHeight).floorId = some f.id →
      Anc full.parent c f) : PrunedBelow full (full.prune cfg floorHeight) c a := by
  have hL := hfull.linked
  rcases prune_cases full cfg floorHeight with hsame | ⟨t, f, htip, hmem, hheight, -, hprune⟩
  · rw [hsame]
    exact ⟨ha, List.suffix_refl _, (mem_chainTo hL ha).mpr hac, fun _ => rfl⟩
  obtain ⟨id, -, hget⟩ := Option.bind_eq_some_iff.mp htip
  have ht : full.Holds t := hL.holds_of_get hget
  have hf : full.Holds f := hL.holds_anc ht ((hL.mem_ancestry ht).mp hmem)
  have hcf : Anc full.parent c f := hfloor f hf (by rw [hprune]; rfl)
  have hle := hL.graded.height_le (hL.holds_anc ha hac) hcf
  have hle' := hL.graded.height_le ha hac
  have hrebuildable := hfull.rebuildable.prune cfg floorHeight
  rw [hprune] at hrebuildable ⊢
  have ha' : (full.prunedAt (full.pruneHeight cfg floorHeight) f).Holds a :=
    holds_prunedAt.mpr ⟨ha, by omega⟩
  have haf : Anc (full.prunedAt (full.pruneHeight cfg floorHeight) f).parent a f :=
    hL.anc_prunedAt ha (hac.trans hcf) hheight.ge
  have hroot : (full.prunedAt (full.pruneHeight cfg floorHeight) f).parent f = none := by
    cases hq : (full.prunedAt (full.pruneHeight cfg floorHeight) f).parent f with
    | none => rfl
    | some q =>
      obtain ⟨hq', hqle⟩ := parent_prunedAt.mp hq
      have hone := hL.height_eq f q hf hq'
      omega
  refine ⟨ha', suffix_prunedAt hL hroot haf ha', ?_, fun v => ?_⟩
  · exact (mem_chainTo hL.prunedAt ha').mpr (hL.anc_prunedAt ha hac (by omega))
  · rw [hrebuildable.headsAt_eq ha', hfull.headsAt_eq ha,
      hfull.rebuildable.rebuiltHeads_prunedAt hf hroot ha' haf]

namespace Resumed

open Checkpointed

def config : ChainConfig := { openConfig with finalityDepth := some 0 }

def root : Anchor := assembled config.crypto 1 none genesisProducer ∅ ∅

/-- The anchor that certifies the offer, and the one that certifies the take. -/
def made : Heads := (∅ : Heads).set "maker" ⟨post.id, 0⟩
def taken : Heads := (∅ : Heads).set "taker" ⟨take.id, 0⟩
def first : Anchor := assembled config.crypto 1 (some root) "p" made made
def second : Anchor := assembled config.crypto 1 (some first) "p" taken (applyHeadsDelta made taken)

def chain : AnchorChain :=
  run (addStep config) (rootedAt root ∅) [(first, fun _ _ _ => true), (second, fun _ _ _ => true)]

/-- What running the example shows. -/
theorem evaluated :
    (chain.get first.id).isSome ∧ ((chain.get second.id).bind chain.parent).map (·.id) = some first.id ∧
      (∀ e ∈ chain.anchors.entries, ∀ p ∈ chain.parent e.2,
        Advances (chain.headsAt p.id) e.2.headsDelta) ∧
      (chain.prune config 1).floorId = some first.id ∧ (chain.prune config 1).anchors.size = 2 ∧
      ([take, post].map (·.id)).Nodup ∧
      (JsNum.ofInt 1).value ≠ .nan ∧ (JsNum.ofInt 2).value ≠ .nan := by
  decide +kernel

end Resumed

open Resumed Checkpointed in
/-- The theorem for a chain of three anchors pruned to the one that certifies an offer, and the
anchor above it, which certifies a take of the offer. -/
theorem checkpointed_view_eq_take : ∃ a c, chain.get second.id = some a ∧ chain.get first.id = some c ∧
    viewAtAnchor curve ([take, post].filter (fun w => !covers (chain.headsAt c.id) w))
        (chain.prune config 1) a.id (some (viewAtAnchor curve [take, post] chain c.id none))
      = viewAtAnchor curve [take, post] chain a.id none := by
  obtain ⟨hsome, hlink, hadv, hfloor, -, hids, hone, htwo⟩ := evaluated
  obtain ⟨c, hc⟩ := Option.isSome_iff_exists.mp hsome
  obtain ⟨q, hq, hqid⟩ := Option.map_eq_some_iff.mp hlink
  obtain ⟨a, ha, hparent⟩ := Option.bind_eq_some_iff.mp hq
  have hgrown : chain.Grown := inv_run _ (fun s i hs => hs.add _ i.2 i.1)
    (Rooted.genesis rfl (installGenesis_new rfl rfl rfl)).grown _
  have hL := hgrown.linked
  have hheld := hL.holds_of_get ha
  have hcid := hL.keyed _ _ hc
  have hunique : ∀ f, chain.Holds f → f.id = first.id → f = c := by
    intro f hf hid
    unfold Holds at hf
    rw [hid, hc] at hf
    exact (Option.some.inj hf).symm
  have hqc : q = c := hunique q (hL.holds_parent hparent) hqid
  subst hqc
  have hac : Anc chain.parent a q := Anc.of_parent hparent
  have hpruned : PrunedBelow chain (chain.prune config 1) q a :=
    prunedBelow_prune hgrown hheld hac 1 fun f hf hid => by
      rw [hfloor, Option.some.injEq] at hid
      rw [hunique f hf hid.symm]
      exact Anc.refl q
  refine ⟨a, q, ha, hc, (checkpointed_view_eq (C := config.crypto) hgrown
    (DeltasAdvance.of_entries hadv) hheld hac hpruned hids fun w hw => ?_).1⟩
  obtain rfl | rfl := List.mem_pair.mp hw
  · exact ⟨_, rfl, htwo⟩
  · exact ⟨_, rfl, hone⟩

end Gavl
