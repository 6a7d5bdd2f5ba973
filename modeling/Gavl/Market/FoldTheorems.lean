import Gavl.Lib.StableSort
import Gavl.Market.Fold

/-!
# A checkpointed fold equals the full fold

`advance` composes: every timed effect is stamped with the deadline it fired at, and a match's
proof deadline comes before its record is dropped, so no restoration of capacity is skipped
when the clock stops in between. Writes are sorted by certifying height first, so a fold that
resumes at a checkpoint takes the same steps as one that runs through.
-/

namespace Gavl

open StableSort

variable {view : View} {m : Match} {h a b : ℤ} {K : Curve}

/-! ## What `advance` does -/

@[simp] theorem Match.expire_offerId : (m.expire h).offerId = m.offerId := by
  unfold Match.expire; split_ifs <;> rfl

@[simp] theorem Match.expire_makerAmount : (m.expire h).makerAmount = m.makerAmount := by
  unfold Match.expire; split_ifs <;> rfl

@[simp] theorem Match.expire_proofDeadline : (m.expire h).proofDeadline = m.proofDeadline := by
  unfold Match.expire; split_ifs <;> rfl

@[simp] theorem Match.expire_pruneAt : (m.expire h).pruneAt = m.pruneAt := by
  unfold Match.expire; split_ifs <;> rfl

theorem Match.expire_of_not_timedOut (hout : m.timedOut h = false) : m.expire h = m := by
  unfold Match.expire
  rw [hout]
  rfl

theorem Match.timedOut_mono (hab : a ≤ b) (hout : m.timedOut a = true) : m.timedOut b = true := by
  unfold Match.timedOut at hout ⊢
  simp only [Bool.and_eq_true, decide_eq_true_eq] at hout ⊢
  exact ⟨hout.1, by omega⟩

/-- A deadline seen to have passed is not seen again; one that has not passed is. -/
theorem Match.timedOut_expire : (m.expire a).timedOut b = (m.timedOut b && !m.timedOut a) := by
  unfold Match.expire Match.timedOut
  by_cases hs : m.status = .awaitingProofs
  · by_cases ha : m.proofDeadline < a
    · simp [hs, ha]
    · simp [hs, ha]
  · simp [hs]

/-- The stamp does not depend on when the deadline is seen to have passed. -/
theorem Match.expire_expire (hab : a ≤ b) : (m.expire a).expire b = m.expire b := by
  cases ha : m.timedOut a with
  | false => rw [Match.expire_of_not_timedOut ha]
  | true =>
    have hb := Match.timedOut_mono hab ha
    have hout : (m.expire a).timedOut b = false := by
      rw [Match.timedOut_expire, ha, hb]
      rfl
    rw [Match.expire_of_not_timedOut hout]
    unfold Match.expire
    rw [ha, hb]

/-- Capacity that a match gives back to an offer if it timed out at `h`. -/
def Match.owes (m : Match) (h : ℤ) (offerId : String) : ℕ :=
  if m.timedOut h && decide (m.offerId = offerId) then m.makerAmount else 0

/-- Capacity that the matches timed out at `h` give back to an offer. -/
def owed (h : ℤ) (offerId : String) (ms : List Match) : ℕ := (ms.map (fun m => m.owes h offerId)).sum

def Offer.restored (o : Offer) (amount : ℕ) : Offer := { o with remaining := o.remaining + amount }

/-- A match the clock keeps at `h`, or `none` once it is dropped. -/
def keptMatch (h : ℤ) (m : Match) : Option Match :=
  if m.pruneAt ≤ h then none else some (m.expire h)

def keptOffer (h : ℤ) (o : Offer) : Option Offer := if o.expiresAt ≤ h then none else some o

@[simp] theorem matches_restoreCapacity (view : View) (m : Match) :
    (restoreCapacity view m).matches = view.matches := by
  unfold restoreCapacity
  split <;> rfl

theorem matches_expireMatch {pre rest : List (String × Match)} {e : String × Match}
    (hsplit : view.matches.entries = pre ++ e :: rest) :
    (expireMatch h view e).matches.entries = pre ++ (e.1, e.2.expire h) :: rest := by
  unfold expireMatch
  split_ifs with hout
  · rw [matches_restoreCapacity]
    exact OrderedMap.set_entries_of_split hsplit _
  · rw [Match.expire_of_not_timedOut (by simpa using hout)]
    exact hsplit

theorem matches_advanceMatch (view : View) (pre : List (String × Match)) (e : String × Match)
    (rest : List (String × Match)) (hsplit : view.matches.entries = pre ++ e :: rest) :
    (advanceMatch h view e).matches.entries
      = pre ++ ((keptMatch h e.2).map (Prod.mk e.1)).toList ++ rest := by
  have hexpired := matches_expireMatch (h := h) hsplit
  unfold advanceMatch keptMatch
  split_ifs with hprune
  · simpa using OrderedMap.delete_entries_of_split hexpired
  · simpa using hexpired

theorem offers_expireMatch (view : View) (e : String × Match) :
    (expireMatch h view e).offers
      = if e.2.timedOut h then (restoreCapacity view e.2).offers else view.offers := by
  unfold expireMatch restoreCapacity
  split_ifs
  · simp only
    split <;> rfl
  · rfl

theorem offers_advanceMatch (view : View) (e : String × Match) :
    (advanceMatch h view e).offers = (expireMatch h view e).offers := by
  unfold advanceMatch
  split_ifs <;> rfl

theorem offers_advanceOffer (view : View) (pre : List (String × Offer)) (e : String × Offer)
    (rest : List (String × Offer)) (hsplit : view.offers.entries = pre ++ e :: rest) :
    (advanceOffer h view e).offers.entries
      = pre ++ ((keptOffer h e.2).map (Prod.mk e.1)).toList ++ rest := by
  unfold advanceOffer keptOffer
  split_ifs with hexp
  · simpa using OrderedMap.delete_entries_of_split hsplit
  · simpa using hsplit

/-- The loop over the matches. -/
def advanceMatches (view : View) (h : ℤ) : View := view.matches.entries.foldl (advanceMatch h) view

theorem advance_eq (view : View) (h : ℤ) :
    advance view h = (advanceMatches view h).offers.entries.foldl (advanceOffer h)
      (advanceMatches view h) := rfl

/-- The matches the clock keeps at `h`, in their places. -/
theorem matches_advance (view : View) (h : ℤ) :
    (advance view h).matches.entries
      = view.matches.entries.filterMap (fun e => (keptMatch h e.2).map (Prod.mk e.1)) := by
  have hoffers : ∀ (l : List (String × Offer)) (v : View),
      (l.foldl (advanceOffer h) v).matches = v.matches := by
    intro l
    induction l with
    | nil => intro v; rfl
    | cons e l ih =>
      intro v
      rw [List.foldl_cons, ih]
      unfold advanceOffer
      split_ifs <;> rfl
  unfold advance
  rw [hoffers]
  exact OrderedMap.entries_foldl (π := View.matches) (f := fun _ => keptMatch h)
    matches_advanceMatch view

theorem values_advance (view : View) (h : ℤ) :
    (advance view h).matches.values = view.matches.values.filterMap (keptMatch h) := by
  unfold OrderedMap.values
  rw [matches_advance, List.map_filterMap, List.filterMap_map]
  refine List.filterMap_congr fun e _ => ?_
  simp only [Function.comp]
  cases keptMatch h e.2 <;> rfl

@[simp] theorem Offer.restored_zero (o : Offer) : o.restored 0 = o := rfl

@[simp] theorem Offer.restored_restored (o : Offer) (x y : ℕ) :
    (o.restored x).restored y = o.restored (x + y) := by
  unfold Offer.restored
  simp [Nat.add_assoc]

@[simp] theorem owed_nil (k : String) : owed h k [] = 0 := rfl

@[simp] theorem owed_cons (k : String) (m : Match) (ms : List Match) :
    owed h k (m :: ms) = m.owes h k + owed h k ms := by
  unfold owed
  rw [List.map_cons, List.sum_cons]

/-- Capacity goes back to the offer the match was taken against, if it is still listed. -/
theorem offers_restoreCapacity (view : View) (m : Match) :
    (restoreCapacity view m).offers = view.offers.mapEntries (fun k o =>
      o.restored (if m.offerId = k then m.makerAmount else 0)) := by
  unfold restoreCapacity
  cases hget : view.offers.get? m.offerId with
  | none =>
    refine (OrderedMap.mapEntries_eq_self fun k o hmem => ?_).symm
    rw [if_neg, Offer.restored_zero]
    rintro rfl
    rw [(OrderedMap.get?_eq_some_iff _ _ _).mpr hmem] at hget
    exact absurd hget (by simp)
  | some offer =>
    simp only
    rw [OrderedMap.set_eq_mapEntries ((OrderedMap.has_iff _ _).mpr ⟨offer, hget⟩)]
    refine OrderedMap.mapEntries_congr fun k o hmem => ?_
    split_ifs with h1 h2 h2
    · subst h1
      rw [(OrderedMap.get?_eq_some_iff _ _ _).mpr hmem, Option.some.injEq] at hget
      rw [hget]
      rfl
    · exact absurd h1.symm h2
    · exact absurd h2.symm h1
    · rfl

theorem offers_advanceMatches (l : List (String × Match)) (view : View) (h : ℤ) :
    (l.foldl (advanceMatch h) view).offers = view.offers.mapEntries (fun k o =>
      o.restored (owed h k (l.map Prod.snd))) := by
  induction l generalizing view with
  | nil => exact (OrderedMap.mapEntries_eq_self fun _ _ _ => rfl).symm
  | cons e l ih =>
    have hstep : (advanceMatch h view e).offers = view.offers.mapEntries (fun k o =>
        o.restored (e.2.owes h k)) := by
      rw [offers_advanceMatch, offers_expireMatch]
      unfold Match.owes
      cases e.2.timedOut h with
      | false => exact (OrderedMap.mapEntries_eq_self fun _ _ _ => rfl).symm
      | true => simpa using offers_restoreCapacity view e.2
    rw [List.foldl_cons, ih, hstep, OrderedMap.mapEntries_mapEntries]
    refine OrderedMap.mapEntries_congr fun k o _ => ?_
    rw [Offer.restored_restored, List.map_cons, owed_cons]

/-- The offers the clock keeps at `h`, with the capacity it gives back to them. -/
theorem offers_advance (view : View) (h : ℤ) :
    (advance view h).offers.entries = view.offers.entries.filterMap (fun e =>
      (keptOffer h (e.2.restored (owed h e.1 view.matches.values))).map (Prod.mk e.1)) := by
  unfold advance
  rw [OrderedMap.entries_foldl (π := View.offers) (f := fun _ => keptOffer h)
    offers_advanceOffer, offers_advanceMatches]
  unfold OrderedMap.mapEntries
  rw [List.filterMap_map]
  rfl

/-! ## `advance` composes -/

theorem view_ext {v w : View} (ho : v.offers = w.offers) (hm : v.matches = w.matches) : v = w := by
  cases v
  cases w
  simp only at ho hm
  rw [ho, hm]

/-- Every match's proof deadline comes before the record is dropped. -/
def WellTimed (view : View) : Prop := ∀ m ∈ view.matches.values, m.proofDeadline < m.pruneAt

theorem keptMatch_keptMatch (hab : a ≤ b) :
    (keptMatch a m).bind (keptMatch b) = keptMatch b m := by
  unfold keptMatch
  split_ifs with ha hb hb
  · rfl
  · omega
  · simp [hb]
  · simp [hb, Match.expire_expire hab]

/-- What a match gives back at `a` and then at `b`, when it is kept at `a`. -/
theorem Match.owes_expire (hab : a ≤ b) (k : String) :
    m.owes a k + (m.expire a).owes b k = m.owes b k := by
  unfold Match.owes
  rw [Match.timedOut_expire, Match.expire_offerId, Match.expire_makerAmount]
  cases hta : m.timedOut a with
  | true => simp [Match.timedOut_mono hab hta]
  | false => simp

/-- A match dropped at `a` whose deadline came before was cancelled there, if at all. -/
theorem Match.owes_of_pruned (hab : a ≤ b) (k : String) (htimed : m.proofDeadline < m.pruneAt)
    (hprune : m.pruneAt ≤ a) : m.owes a k = m.owes b k := by
  have hsame : m.timedOut a = m.timedOut b := by
    have ha : m.proofDeadline < a := by omega
    have hb : m.proofDeadline < b := by omega
    unfold Match.timedOut
    rw [decide_eq_true ha, decide_eq_true hb]
  unfold Match.owes
  rw [hsame]

/-- What is given back when the clock stops at `a` on its way to `b` is what is given back on
the direct way. -/
theorem owed_keptMatch (hab : a ≤ b) (k : String) {ms : List Match}
    (htimed : ∀ m ∈ ms, m.proofDeadline < m.pruneAt) :
    owed a k ms + owed b k (ms.filterMap (keptMatch a)) = owed b k ms := by
  induction ms with
  | nil => rfl
  | cons m ms ih =>
    have ih := ih fun m hm => htimed m (List.mem_cons_of_mem _ hm)
    rw [owed_cons, owed_cons]
    by_cases hprune : m.pruneAt ≤ a
    · have hkept : keptMatch a m = none := by
        unfold keptMatch
        rw [if_pos hprune]
      rw [List.filterMap_cons_none hkept,
        Match.owes_of_pruned hab k (htimed m List.mem_cons_self) hprune]
      omega
    · have hkept : keptMatch a m = some (m.expire a) := by
        unfold keptMatch
        rw [if_neg hprune]
      have hm := Match.owes_expire (m := m) hab k
      rw [List.filterMap_cons_some hkept, owed_cons]
      omega

/-- **Advancing in two steps is advancing in one.** -/
theorem advance_advance (hview : WellTimed view) (hab : a ≤ b) :
    advance (advance view a) b = advance view b := by
  have hmatches : (advance (advance view a) b).matches = (advance view b).matches := by
    apply OrderedMap.ext_entries
    rw [matches_advance, matches_advance, matches_advance, List.filterMap_filterMap]
    refine List.filterMap_congr fun e _ => ?_
    rw [← keptMatch_keptMatch hab]
    cases keptMatch a e.2 <;> rfl
  have hoffers : (advance (advance view a) b).offers = (advance view b).offers := by
    apply OrderedMap.ext_entries
    rw [offers_advance, offers_advance, offers_advance, List.filterMap_filterMap]
    refine List.filterMap_congr fun e _ => ?_
    have howed := owed_keptMatch hab e.1 hview
    rw [values_advance, ← howed]
    unfold keptOffer
    have hexp : ∀ (o : Offer) (x : ℕ), (o.restored x).expiresAt = o.expiresAt := fun _ _ => rfl
    simp only [hexp]
    split_ifs with ha hb hb
    · rfl
    · omega
    · simp [hexp, hb]
    · simp [hexp, hb]
  exact view_ext hoffers hmatches

/-! ## Deadlines stay before prune heights -/

theorem proofWindow_lt_matchLifetime (chain : Chain) : proofWindow < matchLifetime chain := by
  unfold matchLifetime
  have : 0 < takerLockWindow := by decide
  omega

theorem WellTimed.empty : WellTimed emptyView := fun m hm => absurd hm (by simp [emptyView, OrderedMap.values])

theorem WellTimed.advance (hview : WellTimed view) (h : ℤ) : WellTimed (advance view h) := by
  intro m hm
  rw [values_advance, List.mem_filterMap] at hm
  obtain ⟨m', hm', hkept⟩ := hm
  unfold keptMatch at hkept
  split_ifs at hkept
  rw [← Option.some.inj hkept, Match.expire_proofDeadline, Match.expire_pruneAt]
  exact hview m' hm'

/-- Setting a match whose times are in order. -/
theorem WellTimed.set (hview : WellTimed view) {view' : View} {k : String}
    (hset : view'.matches = view.matches.set k m) (hm : m.proofDeadline < m.pruneAt) :
    WellTimed view' := by
  intro m' hm'
  rw [hset, OrderedMap.mem_values] at hm'
  obtain ⟨k', hk'⟩ := hm'
  rw [OrderedMap.get?_set] at hk'
  split_ifs at hk'
  · rw [← Option.some.inj hk']
    exact hm
  · exact hview m' ((OrderedMap.mem_values _ _).mpr ⟨k', hk'⟩)

/-- Every op keeps the order of a match's times: none of the six changes them once the match
is taken. -/
theorem WellTimed.applyOp (hview : WellTimed view) (w : Write) (op : Op) (h : ℤ) :
    WellTimed (applyOp view w op h).1 := by
  have hold : ∀ {k m}, view.matches.get? k = some m → m.proofDeadline < m.pruneAt := fun hget =>
    hview _ ((OrderedMap.mem_values _ _).mpr ⟨_, hget⟩)
  have hescrowed : ∀ m : Match, m.escrowed.proofDeadline = m.proofDeadline ∧
      m.escrowed.pruneAt = m.pruneAt := fun m => by
    unfold Match.escrowed
    split_ifs <;> exact ⟨rfl, rfl⟩
  cases op with
  | offerPost give want minFill expiresIn =>
    simp only [Gavl.applyOp, applyOfferPost]
    split_ifs <;> exact hview
  | offerCancel offerId =>
    simp only [Gavl.applyOp, applyOfferCancel]
    cases view.offers.get? offerId with
    | none => exact hview
    | some offer =>
      simp only
      split_ifs <;> exact hview
  | offerTake offerId fill hash takerKey =>
    simp only [Gavl.applyOp, applyOfferTake]
    cases view.offers.get? offerId with
    | none => exact hview
    | some offer =>
      simp only
      split_ifs
      all_goals first | exact hview | skip
      refine hview.set rfl ?_
      have := proofWindow_lt_matchLifetime offer.want.chain
      simp only
      omega
  | swapProof matchId makerKey proof =>
    simp only [Gavl.applyOp, applySwapProof]
    cases hget : view.matches.get? matchId with
    | none => exact hview
    | some m =>
      have hm := hold hget
      simp only
      split_ifs
      all_goals first | exact hview | skip
      · exact hview.set rfl (by rw [(hescrowed _).1, (hescrowed _).2]; exact hm)
      · exact hview.set rfl (by rw [(hescrowed _).1, (hescrowed _).2]; exact hm)
  | swapLocked matchId txid vout =>
    simp only [Gavl.applyOp, applySwapLocked]
    cases hget : view.matches.get? matchId with
    | none => exact hview
    | some m =>
      have hm := hold hget
      simp only
      split_ifs
      all_goals first | exact hview | exact hview.set rfl hm
  | swapAbort matchId =>
    simp only [Gavl.applyOp, applySwapAbort]
    cases hget : view.matches.get? matchId with
    | none => exact hview
    | some m =>
      have hm := hold hget
      simp only
      split_ifs
      all_goals first | exact hview | skip
      exact hview.set (matches_restoreCapacity _ _) hm

theorem WellTimed.foldWrite (hview : WellTimed view) (w : Write) (h : ℤ) :
    WellTimed (foldWrite K view w h) := by
  have hadv := hview.advance h
  unfold Gavl.foldWrite
  cases parseOp K w.payload with
  | none => exact hadv
  | some op => exact hadv.applyOp w op h

/-! ## Splitting a fold -/

/-- A comparator that orders the given writes, up to ties. -/
structure Consistent (order : WriteOrder) (writes : List Write) : Prop where
  antisymm : ∀ a ∈ writes, ∀ b ∈ writes, order a b < 0 ↔ 0 < order b a
  trans : ∀ a ∈ writes, ∀ b ∈ writes, ∀ c ∈ writes,
    order a b ≤ 0 → order b c ≤ 0 → order a c ≤ 0

/-- The loop of `computeView`, over writes that are sorted already. -/
def foldWrites (K : Curve) (height : Write → ℤ) (writes : List Write) (view : View) : View :=
  writes.foldl (fun view w => foldWrite K view w (height w)) view

theorem WellTimed.foldWrites (hview : WellTimed view) (height : Write → ℤ) (writes : List Write) :
    WellTimed (foldWrites K height writes view) := by
  unfold Gavl.foldWrites
  induction writes generalizing view with
  | nil => exact hview
  | cons w writes ih => exact ih (hview.foldWrite w (height w))

/-- Stopping at `c` before writes above `c` makes no difference. -/
theorem foldWrites_advance (hview : WellTimed view) {height : Write → ℤ} {writes : List Write}
    {c now : ℤ} (hc : c ≤ now) (habove : ∀ w ∈ writes, c ≤ height w) :
    advance (foldWrites K height writes (advance view c)) now
      = advance (foldWrites K height writes view) now := by
  cases writes with
  | nil => exact advance_advance hview hc
  | cons w writes =>
    have hw : foldWrite K (advance view c) w (height w) = foldWrite K view w (height w) := by
      unfold foldWrite
      rw [advance_advance hview (habove w List.mem_cons_self)]
    unfold foldWrites
    rw [List.foldl_cons, List.foldl_cons, hw]

/-- Below a checkpoint a write has the height it has in the full fold. -/
theorem heightOf_of_le {bornAt : OrderedMap String ℤ} {c now : ℤ} {w : Write} (hc : c ≤ now)
    (hw : heightOf bornAt now w ≤ c) : heightOf bornAt c w = heightOf bornAt now w := by
  unfold heightOf at hw ⊢
  cases hborn : bornAt.get? w.id with
  | none =>
    rw [hborn, Option.getD_none] at hw
    simp only [Option.getD_none]
    omega
  | some born =>
    rw [hborn, Option.getD_some] at hw
    simp only [Option.getD_some]
    omega

variable {opts : FoldOptions} {writes : List Write} {c now : ℤ}

/-- Height first, then the comparator. -/
theorem foldOrder_le_iff (opts : FoldOptions) (now : ℤ) (x y : Write) :
    foldOrder opts now x y ≤ 0 ↔
      heightOf opts.bornAt now x < heightOf opts.bornAt now y ∨
        heightOf opts.bornAt now x = heightOf opts.bornAt now y ∧ opts.order x y ≤ 0 := by
  unfold foldOrder
  split_ifs with hne
  · constructor
    · intro hle
      exact Or.inl (by omega)
    · rintro (hlt | ⟨heq, -⟩)
      · omega
      · omega
  · have heq : heightOf opts.bornAt now x = heightOf opts.bornAt now y := by omega
    rw [heq]
    simp

theorem Consistent.orders (opts : FoldOptions) (h : Consistent opts.order writes) (now : ℤ) :
    Orders (fun x y => foldOrder opts now x y ≤ 0) writes where
  total := fun x hx y hy => by
    have hanti := h.antisymm y hy x hx
    rw [foldOrder_le_iff, foldOrder_le_iff]
    omega
  trans := fun x hx y hy z hz => by
    have htrans := h.trans x hx y hy z hz
    rw [foldOrder_le_iff, foldOrder_le_iff, foldOrder_le_iff]
    omega

theorem Consistent.subset {order : WriteOrder} (h : Consistent order writes) {part : List Write}
    (hsub : ∀ w ∈ part, w ∈ writes) : Consistent order part where
  antisymm := fun x hx y hy => h.antisymm x (hsub x hx) y (hsub y hy)
  trans := fun x hx y hy z hz => h.trans x (hsub x hx) y (hsub y hy) z (hsub z hz)

/-- The writes at or below a checkpoint are sorted and folded there as in the full fold. -/
theorem computeView_below (hc : c ≤ now) (hle : ∀ w ∈ writes, heightOf opts.bornAt now w ≤ c) :
    computeView K writes c opts
      = advance (foldWrites K (heightOf opts.bornAt now) (sortWrites (foldOrder opts now) writes)
          (opts.base.getD emptyView)) c := by
  have hheight : ∀ w ∈ writes, heightOf opts.bornAt c w = heightOf opts.bornAt now w :=
    fun w hw => heightOf_of_le hc (hle w hw)
  have hsort : sortWrites (foldOrder opts c) writes = sortWrites (foldOrder opts now) writes := by
    have hmap := List.map_insertionSort (fun x y => foldOrder opts c x y ≤ 0)
      (s := fun x y => foldOrder opts now x y ≤ 0) id writes fun x hx y hy => by
        unfold foldOrder
        rw [hheight x hx, hheight y hy]
        rfl
    rw [List.map_id, List.map_id] at hmap
    exact hmap
  unfold computeView foldWrites
  rw [hsort]
  refine congrArg (fun v => advance v c) (List.foldl_ext _ _ _ fun v w hw => ?_)
  rw [hheight w ((List.mem_insertionSort _).mp hw)]

/-- One checkpoint. -/
theorem computeView_resume (opts : FoldOptions) (hord : Consistent opts.order writes)
    (hbase : WellTimed (opts.base.getD emptyView)) (hc : c ≤ now) :
    computeView K (writes.filter (fun w => !decide (heightOf opts.bornAt now w ≤ c))) now
        { opts with
          base := some (computeView K
            (writes.filter (fun w => decide (heightOf opts.bornAt now w ≤ c))) c opts) }
      = computeView K writes now opts := by
  have hsplit := insertionSort_split (p := fun w => decide (heightOf opts.bornAt now w ≤ c))
    (hord.orders opts now) fun x _ y _ hy hxy => by
      rw [foldOrder_le_iff] at hxy
      simp only [decide_eq_true_eq] at hy ⊢
      omega
  have hlow : ∀ w ∈ writes.filter (fun w => decide (heightOf opts.bornAt now w ≤ c)),
      heightOf opts.bornAt now w ≤ c := fun w hw => by simpa using (List.mem_filter.mp hw).2
  have hhigh : ∀ w ∈ sortWrites (foldOrder opts now)
      (writes.filter (fun w => !decide (heightOf opts.bornAt now w ≤ c))),
      c ≤ heightOf opts.bornAt now w := fun w hw => by
    have := (List.mem_filter.mp ((List.mem_insertionSort _).mp hw)).2
    simp only [Bool.not_eq_true', decide_eq_false_iff_not] at this
    omega
  rw [computeView_below hc hlow]
  have hresume := foldWrites_advance (K := K)
    (hbase.foldWrites (K := K) (heightOf opts.bornAt now) (sortWrites (foldOrder opts now)
      (writes.filter (fun w => decide (heightOf opts.bornAt now w ≤ c))))) hc hhigh
  unfold foldWrites at hresume
  rw [← List.foldl_append] at hresume
  unfold sortWrites at hresume
  rw [hsplit] at hresume
  exact hresume

theorem wellTimed_computeView (opts : FoldOptions) (hbase : WellTimed (opts.base.getD emptyView)) :
    WellTimed (computeView K writes now opts) :=
  (hbase.foldWrites (heightOf opts.bornAt now) _).advance now

/-- The fold that stops at each of the cuts and resumes there: the writes up to a cut are
folded onto what the cut before left. -/
def foldInSplits (K : Curve) (order : WriteOrder) (bornAt : OrderedMap String ℤ) (now : ℤ) :
    List ℤ → Option View → List Write → View
  | [], base, writes => computeView K writes now ⟨order, bornAt, base⟩
  | c :: cuts, base, writes =>
    foldInSplits K order bornAt now cuts
      (some (computeView K (writes.filter (fun w => decide (heightOf bornAt now w ≤ c))) c
        ⟨order, bornAt, base⟩))
      (writes.filter (fun w => !decide (heightOf bornAt now w ≤ c)))

theorem foldInSplits_eq {order : WriteOrder} {bornAt : OrderedMap String ℤ} {base : Option View}
    (hord : Consistent order writes) (hbase : WellTimed (base.getD emptyView)) {cuts : List ℤ}
    (hcuts : ∀ c ∈ cuts, c ≤ now) :
    foldInSplits K order bornAt now cuts base writes
      = computeView K writes now ⟨order, bornAt, base⟩ := by
  induction cuts generalizing base writes with
  | nil => rfl
  | cons c cuts ih =>
    have hupper : Consistent order
        (writes.filter (fun w => !decide (heightOf bornAt now w ≤ c))) :=
      hord.subset fun w hw => List.mem_of_mem_filter hw
    have hnext : WellTimed ((some (computeView K
        (writes.filter (fun w => decide (heightOf bornAt now w ≤ c))) c
        ⟨order, bornAt, base⟩)).getD emptyView) :=
      wellTimed_computeView ⟨order, bornAt, base⟩ hbase
    rw [foldInSplits, ih hupper hnext fun c hc => hcuts c (List.mem_cons_of_mem _ hc)]
    exact computeView_resume ⟨order, bornAt, base⟩ hord hbase
      (hcuts c List.mem_cons_self)

/-- **A checkpointed fold equals the full fold**, at one checkpoint and at any chain of them;
and what it leaves can be advanced in steps. -/
theorem checkpointed_fold_eq {order : WriteOrder} {bornAt : OrderedMap String ℤ}
    (hord : Consistent order writes) :
    (∀ c ≤ now,
      computeView K (writes.filter (fun w => !decide (heightOf bornAt now w ≤ c))) now
          ⟨order, bornAt, some (computeView K
            (writes.filter (fun w => decide (heightOf bornAt now w ≤ c))) c
            ⟨order, bornAt, none⟩)⟩
        = computeView K writes now ⟨order, bornAt, none⟩) ∧
      (∀ cuts : List ℤ, (∀ c ∈ cuts, c ≤ now) →
        foldInSplits K order bornAt now cuts none writes
          = computeView K writes now ⟨order, bornAt, none⟩) ∧
      ∀ a b, a ≤ b →
        advance (advance (computeView K writes now ⟨order, bornAt, none⟩) a) b
          = advance (computeView K writes now ⟨order, bornAt, none⟩) b := by
  have hbase : WellTimed ((none : Option View).getD emptyView) := WellTimed.empty
  refine ⟨fun c hc => ?_, fun cuts hcuts => foldInSplits_eq hord hbase hcuts, fun a b hab => ?_⟩
  · exact computeView_resume ⟨order, bornAt, none⟩ hord hbase hc
  · exact advance_advance (wellTimed_computeView ⟨order, bornAt, none⟩ hbase) hab

/-! ## The default order -/

/-- A write whose stamp is a finite number. -/
def Stamped (w : Write) (n : ℤ) : Prop := w.ts.toNumber = .finite n

instance (w : Write) (n : ℤ) : Decidable (Stamped w n) :=
  inferInstanceAs (Decidable (w.ts.toNumber = .finite n))

theorem minus_of_stamped {x y : Write} {m n : ℤ} (hx : Stamped x m) (hy : Stamped y n) :
    Json.minus x.ts y.ts = m - n := by
  unfold Json.minus
  rw [hx, hy]
  rfl

theorem byTs_le_iff {x y : Write} {m n : ℤ} (hx : Stamped x m) (hy : Stamped y n) :
    byTs x y ≤ 0 ↔ m < n ∨ m = n ∧ (x.writer < y.writer ∨ x.writer = y.writer ∧ x.seq ≤ y.seq) := by
  unfold byTs
  rw [minus_of_stamped hx hy]
  split_ifs with hts hlt hgt
  · omega
  · simp [hlt, show m = n by omega]
  · simp [hlt, hgt.ne', show m = n by omega]
  · have hw : x.writer = y.writer := le_antisymm (not_lt.mp hgt) (not_lt.mp hlt)
    simp only [hw, lt_self_iff_false, false_or, true_and]
    omega

theorem byTs_lt_iff {x y : Write} {m n : ℤ} (hx : Stamped x m) (hy : Stamped y n) :
    byTs x y < 0 ↔ m < n ∨ m = n ∧ (x.writer < y.writer ∨ x.writer = y.writer ∧ x.seq < y.seq) := by
  unfold byTs
  rw [minus_of_stamped hx hy]
  split_ifs with hts hlt hgt
  · omega
  · simp [hlt, show m = n by omega]
  · simp [hlt, hgt.ne', show m = n by omega]
  · have hw : x.writer = y.writer := le_antisymm (not_lt.mp hgt) (not_lt.mp hlt)
    simp only [hw, lt_self_iff_false, false_or, true_and]
    omega

/-- The default comparator orders any list of writes whose stamps are numbers. -/
theorem consistent_byTs {writes : List Write} (hts : ∀ w ∈ writes, ∃ n, Stamped w n) :
    Consistent byTs writes where
  antisymm := fun x hx y hy => by
    obtain ⟨m, hm⟩ := hts x hx
    obtain ⟨n, hn⟩ := hts y hy
    rw [byTs_lt_iff hm hn, ← not_le (a := byTs y x), byTs_le_iff hn hm]
    rcases lt_trichotomy m n with hmn | hmn | hmn
    · simp [hmn, hmn.not_gt, hmn.ne']
    · rcases lt_trichotomy x.writer y.writer with hw | hw | hw
      · simp [hmn, hw, hw.not_gt, hw.ne']
      · simp [hmn, hw]
      · simp [hmn, hw, hw.not_gt, hw.ne']
    · simp [hmn, hmn.not_gt, hmn.ne']
  trans := fun x hx y hy z hz hxy hyz => by
    obtain ⟨m, hm⟩ := hts x hx
    obtain ⟨n, hn⟩ := hts y hy
    obtain ⟨k, hk⟩ := hts z hz
    rw [byTs_le_iff hm hn] at hxy
    rw [byTs_le_iff hn hk] at hyz
    rw [byTs_le_iff hm hk]
    rcases hxy with hxy | ⟨hxy, hxyw⟩
    · rcases hyz with hyz | ⟨hyz, -⟩
      · exact Or.inl (by omega)
      · exact Or.inl (by omega)
    · rcases hyz with hyz | ⟨hyz, hyzw⟩
      · exact Or.inl (by omega)
      · refine Or.inr ⟨hxy.trans hyz, ?_⟩
        rcases hxyw with hxyw | ⟨hxyw, hseq⟩
        · rcases hyzw with hyzw | ⟨hyzw, -⟩
          · exact Or.inl (hxyw.trans hyzw)
          · exact Or.inl (hyzw ▸ hxyw)
        · rcases hyzw with hyzw | ⟨hyzw, hseq'⟩
          · exact Or.inl (hxyw ▸ hyzw)
          · exact Or.inr ⟨hxyw.trans hyzw, hseq.trans hseq'⟩

namespace Checkpointed

def offerId : String := String.ofList (List.replicate 64 'a')

/-- A first write, whose proofs the fold does not read. -/
def first (writer id : String) (ts : ℤ) (payload : Json) : Write where
  writer := writer
  seq := 0
  prev := none
  stateRoot := .str ""
  plot := ⟨"", 1⟩
  difficulty := "1"
  ts := .num (.ofInt ts)
  payload := payload
  space := ⟨0, "", [], ""⟩
  time := ⟨0, "", ""⟩
  id := id
  sig := ""

/-- An offer and a take of it. -/
def post : Write := first "maker" offerId 1 (.obj [("kind", .str "offer.post"),
  ("give", .obj [("chain", .str "bitcoin"), ("amount", .str "100000")]),
  ("want", .obj [("chain", .str "litecoin"), ("amount", .str "9000000")]),
  ("minFill", .str "100000"), ("expiresIn", .nat 1440)])

def take : Write := first "taker" (String.ofList (List.replicate 64 'b')) 2
  (.obj [("kind", .str "offer.take"), ("offerId", .str offerId), ("fill", .str "100000"),
    ("hash", .str (String.ofList (List.replicate 64 '0'))),
    ("takerKey", .str (String.ofList (List.replicate 64 '1')))])

def bornAt : OrderedMap String ℤ := ((∅ : OrderedMap String ℤ).set post.id 3).set take.id 7

def curve : Curve := ⟨fun _ => true⟩

end Checkpointed

open Checkpointed in
/-- The theorem at an offer and a take, stopped between them and at the proof deadline. -/
theorem checkpointed_fold_eq_take :
    foldInSplits curve byTs bornAt 40 [5, 17] none [take, post]
      = computeView curve [take, post] 40 ⟨byTs, bornAt, none⟩ :=
  (checkpointed_fold_eq (consistent_byTs fun w hw => by
    obtain rfl | rfl := List.mem_pair.mp hw
    · exact ⟨2 * 2 ^ 1074, by decide +kernel⟩
    · exact ⟨2 ^ 1074, by decide +kernel⟩)).2.1 [5, 17] (by decide)

end Gavl
