import Gavl.Market.LifecycleTheorems

/-!
# What stays on a board

An offer leaves the board when it expires or its maker cancels it, a match when its record is dropped.
Nobody else can take them off it, or touch more of an offer than what is left of it.
-/

namespace Gavl

variable {K : Curve} {view : View} {m : Match} {o : Offer} {w : Write} {k : String} {h : ℤ} {op : Op}

/-! ## Offers -/

/-- The offer is listed, with as much left of it as may be. -/
def View.Lists (view : View) (k : String) (o : Offer) : Prop :=
  ∃ left, view.offers.get? k = some { o with remaining := left }

theorem View.Lists.advance (hlisted : view.Lists k o) (hlive : h < o.expiresAt) :
    (advance view h).Lists k o := by
  obtain ⟨left, hget⟩ := hlisted
  refine ⟨left + owed h k view.matches.values, ?_⟩
  rw [OrderedMap.get?_eq_some_iff, offers_advance, List.mem_filterMap]
  refine ⟨_, (OrderedMap.get?_eq_some_iff _ _ _).mp hget, ?_⟩
  unfold keptOffer
  rw [if_neg]
  · rfl
  · exact not_le.mpr hlive

/-- An op leaves the offer listed, unless its maker cancels it. -/
theorem View.Lists.effect (hlisted : view.Lists k o) {r : View × Option String}
    (heff : Effect view w h op r) (hkept : w.writer = o.maker → op ≠ .offerCancel k) :
    r.1.Lists k o := by
  obtain ⟨left, hget⟩ := hlisted
  cases heff with
  | rejected => exact ⟨left, hget⟩
  | post hgive hwant hnew =>
    refine ⟨left, ?_⟩
    rw [OrderedMap.get?_set_of_ne _ _ ?_]
    · exact hget
    · rintro rfl
      rw [hnew] at hget
      cases hget
  | @cancel offerId offer hoffer hmaker =>
    refine ⟨left, ?_⟩
    rw [OrderedMap.get?_delete, if_neg]
    · exact hget
    · rintro rfl
      rw [hget, Option.some.injEq] at hoffer
      subst hoffer
      exact hkept hmaker.symm rfl
  | @take offerId hash takerKey fill offer hoffer hcap hgive hwant hnew hhash =>
    by_cases hk : offerId = k
    · subst hk
      rw [hget, Option.some.injEq] at hoffer
      subst hoffer
      refine ⟨left - fill, ?_⟩
      rw [OrderedMap.get?_set, if_pos rfl]
    · refine ⟨left, ?_⟩
      rw [OrderedMap.get?_set_of_ne _ _ hk]
      exact hget
  | proof hm hstatus hproved => exact ⟨left, hget⟩
  | locked hm hstatus hhint => exact ⟨left, hget⟩
  | @abort matchId m hm hmaker hstatus hlock =>
    refine ⟨left + if m.offerId = k then m.makerAmount else 0, ?_⟩
    rw [offers_restoreCapacity, OrderedMap.get?_mapEntries, hget]
    rfl

/-! ## Matches -/

/-- A match on these terms is on record. -/
def View.Records (view : View) (k : String) (m : Match) : Prop :=
  ∃ m', view.matches.get? k = some m' ∧ m'.terms = m.terms

theorem View.Records.advance (hrecorded : view.Records k m) (hlive : h < m.pruneAt) :
    (advance view h).Records k m := by
  obtain ⟨m', hget, hterms⟩ := hrecorded
  have hprune : m'.pruneAt = m.pruneAt := by
    show m'.terms.pruneAt = m.terms.pruneAt
    rw [hterms]
  refine ⟨m'.expire h, ?_, (m'.moves_expire (.advance h) k h).terms.trans hterms⟩
  rw [get?_matches_advance, hget, Option.bind_some]
  exact keptMatch_eq_some.mpr ⟨by rw [hprune]; exact hlive, rfl⟩

/-- No op takes a match off the board. -/
theorem View.Records.effect (hrecorded : view.Records k m) {r : View × Option String}
    (heff : Effect view w h op r) : r.1.Records k m := by
  obtain ⟨m', hget, hterms⟩ := hrecorded
  have hthere : ∃ m'', r.1.matches.get? k = some m'' := by
    have hset : ∀ (id : String) (x : Match), ∃ m'', (view.matches.set id x).get? k = some m'' := by
      intro id x
      rw [OrderedMap.get?_set]
      split_ifs
      · exact ⟨x, rfl⟩
      · exact ⟨m', hget⟩
    cases heff with
    | rejected => exact ⟨m', hget⟩
    | post hgive hwant hnew => exact ⟨m', hget⟩
    | cancel hoffer hmaker => exact ⟨m', hget⟩
    | take hoffer hcap hgive hwant hnew hhash => exact hset _ _
    | proof hm hstatus hproved => exact hset _ _
    | locked hm hstatus hhint => exact hset _ _
    | abort hm hmaker hstatus hlock =>
      rw [matches_restoreCapacity]
      exact hset _ _
  obtain ⟨m'', hget'⟩ := hthere
  exact ⟨m'', hget', (heff.moves hget hget').terms.trans hterms⟩

/-! ## Folds -/

/-- What a write does not take away at `h`. -/
theorem View.Lists.foldWrite (hlisted : view.Lists k o) (hlive : h < o.expiresAt)
    (hkept : w.writer = o.maker → parseOp K w.payload ≠ some (.offerCancel k)) :
    (foldWrite K view w h).Lists k o := by
  unfold Gavl.foldWrite
  cases hop : parseOp K w.payload with
  | none => exact hlisted.advance hlive
  | some op =>
    refine (hlisted.advance hlive).effect (applyOp_effect _ w op h) ?_
    intro hmaker heq
    exact hkept hmaker (hop.trans (congrArg some heq))

theorem View.Records.foldWrite (hrecorded : view.Records k m) (hlive : h < m.pruneAt) (w : Write) :
    (foldWrite K view w h).Records k m := by
  unfold Gavl.foldWrite
  cases parseOp K w.payload with
  | none => exact hrecorded.advance hlive
  | some op => exact (hrecorded.advance hlive).effect (applyOp_effect _ w op h)

section
variable {writes : List Write} {order : WriteOrder} {bornAt : OrderedMap String ℤ} {c now : ℤ}

theorem heightOf_le (bornAt : OrderedMap String ℤ) (now : ℤ) (w : Write) : heightOf bornAt now w ≤ now :=
  min_le_right _ _

/-- **What a board lists stays on it.** An offer that is on the board at height `c` is on it at every
later height before it expires, with nothing changed but what is left of it, unless a write of its
maker cancels it in between. A match stays on record, on its terms, until it is dropped. -/
theorem board_keeps (hord : Consistent order writes) (hc : c ≤ now) :
    (∀ k o, (computeView K (writes.filter (fun w => decide (heightOf bornAt now w ≤ c))) c
          ⟨order, bornAt, none⟩).offers.get? k = some o → now < o.expiresAt →
        (∀ w ∈ writes, c < heightOf bornAt now w → w.writer = o.maker →
          parseOp K w.payload ≠ some (.offerCancel k)) →
        ∃ left, (computeView K writes now ⟨order, bornAt, none⟩).offers.get? k
          = some { o with remaining := left }) ∧
      ∀ k m, (computeView K (writes.filter (fun w => decide (heightOf bornAt now w ≤ c))) c
          ⟨order, bornAt, none⟩).matches.get? k = some m → now < m.pruneAt →
        ∃ m', (computeView K writes now ⟨order, bornAt, none⟩).matches.get? k = some m' ∧
          m'.terms = m.terms := by
  -- the board at the later height resumes from the one at `c`
  rw [← (computeView_resume ⟨order, bornAt, none⟩ hord WellTimed.empty hc : _ = computeView K writes now
    ⟨order, bornAt, none⟩)]
  constructor
  · intro k o hget hlive hkept
    refine computeView_keeps (fun view => view.Lists k o) ⟨o.remaining, hget⟩ ?_
      fun view hview => hview.advance hlive
    intro w hw view hview
    obtain ⟨hmem, habove⟩ := List.mem_filter.mp hw
    rw [Bool.not_eq_true', decide_eq_false_iff_not, not_le] at habove
    exact hview.foldWrite (lt_of_le_of_lt (heightOf_le bornAt now w) hlive) (hkept w hmem habove)
  · intro k m hget hlive
    refine computeView_keeps (fun view => view.Records k m) ⟨m, hget, rfl⟩ ?_
      fun view hview => hview.advance hlive
    exact fun w _ view hview => hview.foldWrite (lt_of_le_of_lt (heightOf_le bornAt now w) hlive) w

end

namespace Checkpointed

/-- The offer as the board lists it. -/
def onBoard : Offer :=
  ⟨offerId, "maker", ⟨.bitcoin, 100000⟩, ⟨.litecoin, 9000000⟩, 100000, 100000, 3, 1443⟩

end Checkpointed

open Checkpointed in
/-- The theorem at an offer that is taken whole. -/
theorem board_keeps_taken : ∃ left, (computeView curve [take, post] 40
    ⟨byTs, bornAt, none⟩).offers.get? offerId = some { onBoard with remaining := left } := by
  have hlisted : (computeView curve ([take, post].filter
      (fun w => decide (heightOf bornAt 40 w ≤ 5))) 5 ⟨byTs, bornAt, none⟩).offers.get? offerId
      = some onBoard := by decide +kernel
  have hstamped : ∀ w ∈ [take, post], ∃ n, Stamped w n := by
    intro w hw
    obtain rfl | rfl := List.mem_pair.mp hw
    · exact ⟨2 * 2 ^ 1074, by decide +kernel⟩
    · exact ⟨2 ^ 1074, by decide +kernel⟩
  refine (board_keeps (consistent_byTs hstamped) (by decide)).1 offerId onBoard hlisted (by decide) ?_
  intro w hw _ hmaker
  obtain rfl | rfl := List.mem_pair.mp hw
  · exact absurd hmaker (by decide)
  · decide +kernel

end Gavl
