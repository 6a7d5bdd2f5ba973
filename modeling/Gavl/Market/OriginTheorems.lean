import Gavl.Market.CapacityTheorems
import Gavl.Market.LifecycleTheorems

/-!
# Where a board comes from

Nothing gets on a board but what its parties wrote. An offer says what a write of its maker says, a
match what a write of its taker says of an offer of its maker, and what is on record of a match was
put there by the party it speaks for.
-/

namespace Gavl

variable {K : Curve} {P : Write → Prop} {view : View} {m : Match} {o : Offer} {w : Write} {k : String}

/-! ## What is backed by writes -/

/-- A write under `who`'s key says `op`. -/
def Says (K : Curve) (P : Write → Prop) (who : String) (op : Op) : Prop :=
  ∃ w, P w ∧ w.writer = who ∧ parseOp K w.payload = some op

/-- The offer is what its maker's write posts. -/
structure Offer.Signed (K : Curve) (P : Write → Prop) (k : String) (o : Offer) : Prop where
  id : o.id = k
  post : ∃ w, P w ∧ w.id = k ∧ w.writer = o.maker ∧ ∃ expiresIn : ℕ,
    parseOp K w.payload = some (.offerPost o.give o.want o.minFill expiresIn) ∧
      o.expiresAt = o.postedAt + expiresIn

/-- The terms of a match are those of the offer that it was taken against. -/
def Match.TermsOf (m : Match) (o : Offer) : Prop :=
  m.maker = o.maker ∧ m.makerChain = o.give.chain ∧ m.takerChain = o.want.chain ∧
    m.takerAmount = proRata o.give.amount o.want.amount m.makerAmount ∧ o.minFill ≤ m.makerAmount

/-- The match is what its taker's write takes of an offer of its maker, and each thing on its record
was written by the party that it speaks for. -/
structure Match.Signed (K : Curve) (P : Write → Prop) (k : String) (m : Match) : Prop where
  id : m.id = k
  take : ∃ w, P w ∧ w.id = k ∧ w.writer = m.taker ∧ w.seq = m.takeSeq ∧
    parseOp K w.payload = some (.offerTake m.offerId m.makerAmount m.hash m.takerKey)
  offer : ∃ o : Offer, o.Signed K P m.offerId ∧ m.TermsOf o
  parties : m.maker ≠ m.taker
  makerProof : ∀ proof, m.makerProof = some proof → ∃ key, m.makerKey = some key ∧
    key ≠ m.takerKey ∧ Says K P m.maker (.swapProof k (some key) proof)
  makerKey : m.makerKey ≠ none → m.makerProof ≠ none
  takerProof : ∀ proof, m.takerProof = some proof → Says K P m.taker (.swapProof k none proof)
  makerLock : ∀ lock, m.makerLock = some lock →
    Says K P m.maker (.swapLocked k lock.txid lock.vout)
  takerLock : ∀ lock, m.takerLock = some lock →
    Says K P m.taker (.swapLocked k lock.txid lock.vout)
  abort : ∀ height, m.cancelled = some ⟨height, .abort⟩ → Says K P m.maker (.swapAbort k)

/-- Every offer and every match is backed. -/
structure View.Signed (K : Curve) (P : Write → Prop) (view : View) : Prop where
  offers : ∀ k o, view.offers.get? k = some o → o.Signed K P k
  «matches» : ∀ k m, view.matches.get? k = some m → m.Signed K P k

theorem View.Signed.empty : emptyView.Signed K P :=
  ⟨fun _ _ h => (by cases h), fun _ _ h => (by cases h)⟩

/-- It depends on what the maps hold only. -/
theorem View.Signed.congr (h : view.Signed K P) {view' : View}
    (hoffers : ∀ k, view'.offers.get? k = view.offers.get? k)
    (hmatches : ∀ k, view'.matches.get? k = view.matches.get? k) : view'.Signed K P where
  offers := by
    intro k o hget
    rw [hoffers] at hget
    exact h.offers k o hget
  «matches» := by
    intro k m hget
    rw [hmatches] at hget
    exact h.matches k m hget

/-! ## The clock -/

/-- Capacity that comes back is not part of what the maker wrote. -/
theorem Offer.Signed.restored (h : o.Signed K P k) (amount : ℕ) : (o.restored amount).Signed K P k :=
  ⟨h.id, h.post⟩

theorem Match.Signed.expire (h : m.Signed K P k) (height : ℤ) : (m.expire height).Signed K P k := by
  obtain heq | ⟨-, heq⟩ := m.expire_eq height
  · rw [heq]
    exact h
  · rw [heq]
    -- no abort
    exact { h with abort := fun _ hc => by cases hc }

theorem View.Signed.advance (h : view.Signed K P) (height : ℤ) : (advance view height).Signed K P where
  offers := by
    intro k o hget
    obtain ⟨o', ho', rfl⟩ := Books.get?_offers_advance hget
    exact (h.offers k o' ho').restored _
  «matches» := by
    intro k m hget
    rw [get?_matches_advance, Option.bind_eq_some_iff] at hget
    obtain ⟨m', hm', hkept⟩ := hget
    obtain ⟨-, rfl⟩ := keptMatch_eq_some.mp hkept
    exact (h.matches k m' hm').expire height

/-! ## Ops -/

/-- A backed match takes the place of what was under its id. -/
theorem View.Signed.set (h : view.Signed K P) (hm : m.Signed K P k) :
    ({ view with «matches» := view.matches.set k m } : View).Signed K P where
  offers := h.offers
  «matches» := by
    intro k' m' hget
    rw [OrderedMap.get?_set] at hget
    split_ifs at hget with hk
    · rw [← Option.some.inj hget, ← hk]
      exact hm
    · exact h.matches k' m' hget

theorem View.Signed.setOffer (h : view.Signed K P) (ho : o.Signed K P k) :
    ({ view with offers := view.offers.set k o } : View).Signed K P where
  offers := by
    intro k' o' hget
    rw [OrderedMap.get?_set] at hget
    split_ifs at hget with hk
    · rw [← Option.some.inj hget, ← hk]
      exact ho
    · exact h.offers k' o' hget
  «matches» := h.matches

theorem View.Signed.restoreCapacity (h : view.Signed K P) (m : Match) :
    (restoreCapacity view m).Signed K P := by
  unfold Gavl.restoreCapacity
  cases hget : view.offers.get? m.offerId with
  | none => exact h
  | some offer => exact h.setOffer ((h.offers _ _ hget).restored m.makerAmount)

theorem Match.Signed.escrowed (h : m.Signed K P k) : m.escrowed.Signed K P k := by
  obtain ⟨heq, -⟩ | ⟨heq, -⟩ := m.escrowed_eq
  · rw [heq]
    exact h
  · rw [heq]
    exact { h with }

variable {height : ℤ}

theorem View.Signed.offerPost (h : view.Signed K P) (hw : P w) {give want : Leg}
    {minFill expiresIn : ℕ}
    (hop : parseOp K w.payload = some (.offerPost give want minFill expiresIn)) :
    (applyOfferPost view w give want minFill expiresIn height).1.Signed K P := by
  unfold applyOfferPost
  split_ifs
  · exact h
  · exact h
  · exact h
  · exact h.setOffer ⟨rfl, w, hw, rfl, rfl, expiresIn, hop, rfl⟩

theorem View.Signed.offerCancel (h : view.Signed K P) (offerId : String) :
    (applyOfferCancel view w offerId).1.Signed K P := by
  unfold applyOfferCancel
  cases view.offers.get? offerId with
  | none => exact h
  | some offer =>
    simp only
    split_ifs
    · exact h
    · -- what is left was there before
      refine ⟨fun k o hget => ?_, h.matches⟩
      rw [OrderedMap.get?_delete] at hget
      split_ifs at hget
      exact h.offers k o hget

theorem View.Signed.offerTake (h : view.Signed K P) (hw : P w) {offerId hash takerKey : String}
    {fill : ℕ} (hop : parseOp K w.payload = some (.offerTake offerId fill hash takerKey)) :
    (applyOfferTake view w offerId fill hash takerKey height).1.Signed K P := by
  unfold applyOfferTake
  cases hget : view.offers.get? offerId with
  | none => exact h
  | some offer =>
    have hoffer := h.offers offerId offer hget
    simp only
    split_ifs with hself hmin hcap hdust hhas hhash
    · exact h
    · exact h
    · exact h
    · exact h
    · exact h
    · exact h
    · -- the match is new: nothing is on its record, and its terms are read off the offer
      have hleft : ({ offer with remaining := offer.remaining - fill } : Offer).Signed K P offerId :=
        ⟨hoffer.id, hoffer.post⟩
      refine (h.setOffer hleft).set ⟨rfl, ⟨w, hw, rfl, rfl, rfl, ?_⟩, ⟨offer, ?_, rfl, rfl, rfl, rfl, ?_⟩, hself,
        fun _ hp => (by cases hp), fun hkey => absurd rfl hkey, fun _ hp => (by cases hp),
        fun _ hl => (by cases hl), fun _ hl => (by cases hl), fun _ hc => (by cases hc)⟩
      · rw [hop, hoffer.id]
      · rw [hoffer.id]
        exact hoffer
      · exact not_lt.mp hmin

theorem View.Signed.swapProof (h : view.Signed K P) (hw : P w) {matchId : String}
    {makerKey : Option String} {proof : FundsProof}
    (hop : parseOp K w.payload = some (.swapProof matchId makerKey proof)) :
    (applySwapProof view w matchId makerKey proof height).1.Signed K P := by
  unfold applySwapProof
  cases hget : view.matches.get? matchId with
  | none => exact h
  | some m =>
    have hm := h.matches matchId m hget
    simp only
    split_ifs with hstate hmaker hproof hkey hsame hchain htaker hproof' hkey' hchain'
    all_goals try exact h
    · -- the maker's proof
      obtain ⟨key, rfl⟩ := Option.ne_none_iff_exists'.mp hkey
      have hm' : ({ m with makerProof := some proof, makerKey := some key } : Match).Signed K P
          matchId := { hm with
        makerProof := by
          intro p hp
          obtain rfl := Option.some.inj hp
          exact ⟨key, rfl, fun heq => hsame (congrArg some heq), w, hw, hmaker, hop⟩
        makerKey := fun _ hnone => by cases hnone }
      exact h.set hm'.escrowed
    · -- the taker's
      rw [not_not] at hkey'
      have hm' : ({ m with takerProof := some proof } : Match).Signed K P matchId := { hm with
        takerProof := by
          intro p hp
          obtain rfl := Option.some.inj hp
          exact ⟨w, hw, htaker, hkey' ▸ hop⟩ }
      exact h.set hm'.escrowed

theorem View.Signed.swapLocked (h : view.Signed K P) (hw : P w) {matchId txid : String} {vout : ℕ}
    (hop : parseOp K w.payload = some (.swapLocked matchId txid vout)) :
    (applySwapLocked view w matchId txid vout height).1.Signed K P := by
  unfold applySwapLocked
  cases hget : view.matches.get? matchId with
  | none => exact h
  | some m =>
    have hm := h.matches matchId m hget
    simp only
    split_ifs with hstatus hmaker hlock htaker hlock'
    all_goals try exact h
    · -- the maker's hint
      refine h.set { hm with makerLock := ?_ }
      intro lock hl
      obtain rfl := Option.some.inj hl
      exact ⟨w, hw, hmaker, hop⟩
    · -- the taker's
      refine h.set { hm with takerLock := ?_ }
      intro lock hl
      obtain rfl := Option.some.inj hl
      exact ⟨w, hw, htaker, hop⟩

theorem View.Signed.swapAbort (h : view.Signed K P) (hw : P w) {matchId : String}
    (hop : parseOp K w.payload = some (.swapAbort matchId)) :
    (applySwapAbort view w matchId height).1.Signed K P := by
  unfold applySwapAbort
  cases hget : view.matches.get? matchId with
  | none => exact h
  | some m =>
    have hm := h.matches matchId m hget
    simp only
    split_ifs with hmaker hstatus hlock
    · exact h
    · exact h
    · exact h
    · -- the capacity goes back to an offer that stays what its maker posted
      have hm' : (m.aborted height).Signed K P matchId :=
        { hm with abort := fun _ _ => ⟨w, hw, not_not.mp hmaker, hop⟩ }
      exact (h.set hm').restoreCapacity m

theorem View.Signed.applyOp (h : view.Signed K P) (hw : P w) {op : Op}
    (hop : parseOp K w.payload = some op) : (applyOp view w op height).1.Signed K P := by
  cases op with
  | offerPost give want minFill expiresIn => exact h.offerPost hw hop
  | offerCancel offerId => exact h.offerCancel offerId
  | offerTake offerId fill hash takerKey => exact h.offerTake hw hop
  | swapProof matchId makerKey proof => exact h.swapProof hw hop
  | swapLocked matchId txid vout => exact h.swapLocked hw hop
  | swapAbort matchId => exact h.swapAbort hw hop

/-! ## Folds -/

theorem View.Signed.foldWrite (h : view.Signed K P) (hw : P w) (height : ℤ) :
    (foldWrite K view w height).Signed K P := by
  unfold Gavl.foldWrite
  cases hop : parseOp K w.payload with
  | none => exact h.advance height
  | some op => exact (h.advance height).applyOp hw hop

/-- A board folded from writes is backed by them, and by what backs its base. -/
theorem View.Signed.computeView {writes : List Write} (hwrites : ∀ w ∈ writes, P w) (nowHeight : ℤ)
    {opts : FoldOptions} (hbase : (opts.base.getD emptyView).Signed K P) :
    (computeView K writes nowHeight opts).Signed K P := by
  refine computeView_keeps (fun view => view.Signed K P) hbase ?_ fun view hview => hview.advance nowHeight
  exact fun w hw view hview => hview.foldWrite (hwrites w hw) _

end Gavl
