import Gavl.Lib.Decimal
import Gavl.Lib.SortedValues
import Gavl.Market.Board
import Gavl.Market.CapacityTheorems

/-!
# What a checkpoint stores reads back

The canonical state of a board is read back into a board with the same offers and matches, as long
as both are kept under their own ids. Every fold keeps them so.
-/

namespace Gavl

open Decimal Runs

/-! ## Numbers and names -/

namespace Json

theorem asCount?_nat (n : ℕ) : (nat n).asCount? = some n := by
  show (if (Nat.toDigits 10 n).all Char.isDigit then some (Nat.ofDigitChars 10 (Nat.toDigits 10 n) 0)
    else none) = some n
  rw [if_pos (all_isDigit_toDigits n), Nat.ofDigitChars_ten_toDigits]

theorem asInt?_int (n : ℤ) : (int n).asInt? = some n := by
  have hdigits := all_isDigit_toDigits
  by_cases hn : 0 ≤ n
  · have htext : (JsNum.ofInt n).text = Nat.toDigits 10 n.toNat := by
      unfold JsNum.ofInt
      rw [if_pos hn]
      rfl
    have hminus : ∀ rest, Nat.toDigits 10 n.toNat ≠ '-' :: rest := fun rest heq => by
      have h := hdigits n.toNat
      rw [heq] at h
      simp [List.all_cons, Char.isDigit] at h
    unfold int asInt?
    simp only
    rw [htext]
    split
    · exact absurd ‹_› (hminus _)
    · rw [if_pos (hdigits _), Nat.ofDigitChars_ten_toDigits, Int.toNat_of_nonneg hn]
  · have htext : (JsNum.ofInt n).text = '-' :: Nat.toDigits 10 (-n).toNat := by
      unfold JsNum.ofInt
      rw [if_neg hn]
    unfold int asInt?
    simp only
    rw [htext]
    simp only
    rw [if_pos (hdigits _), Nat.ofDigitChars_ten_toDigits, Int.toNat_of_nonneg (by omega), neg_neg]

theorem asBigInt?_decimal (n : ℕ) : (decimal n).asBigInt? = some n := by
  have hne : Nat.toDigits 10 n ≠ [] := Nat.toDigits_ne_nil
  unfold asBigInt? decimal asString? decimalValue
  rw [Option.filter_some_pos (by simp [hne, all_isDigit_toDigits n]), Option.map_some,
    String.toList_ofList, Nat.ofDigitChars_ten_toDigits]

@[simp] theorem nullOr?_orNull {α : Type*} {f : Json → Option α} {g : α → Json}
    (hback : ∀ x, f (g x) = some x) (hnull : ∀ x, g x ≠ .null) (x : Option α) :
    (orNull g x).nullOr? f = some x := by
  cases x with
  | none => rfl
  | some x =>
    show (g x).nullOr? f = _
    unfold nullOr?
    split
    · exact absurd ‹_› (hnull x)
    · rw [hback, Option.map_some]

theorem nullOr?_nullable (s : Option String) : (nullable s).nullOr? asString? = some s := by
  cases s <;> rfl

end Json

theorem Chain.ofName?_name (c : Chain) : Chain.ofName? c.name = some c := by cases c <;> rfl

theorem Net.ofName?_name (n : Net) : Net.ofName? n.name = some n := by cases n <;> rfl

theorem MatchStatus.ofName?_name (s : MatchStatus) : MatchStatus.ofName? s.name = some s := by
  cases s <;> rfl

theorem CancelReason.ofName?_name (r : CancelReason) : CancelReason.ofName? r.name = some r := by
  cases r <;> rfl

/-! ## Records -/

theorem leg_canonLeg (l : Leg) : leg (canonLeg l) = some l := by
  have hchain : (canonLeg l).chain? "chain" = some l.chain := Chain.ofName?_name l.chain
  have hamount : (canonLeg l).bigInt? "amount" = some l.amount := Json.asBigInt?_decimal l.amount
  unfold leg
  rw [hchain, hamount]
  rfl

theorem offerOf_canonOffer (o : Offer) : offerOf (canonOffer o) = some o := by
  have hgive : ((canonOffer o).get? "give").bind leg = some o.give := leg_canonLeg o.give
  have hwant : ((canonOffer o).get? "want").bind leg = some o.want := leg_canonLeg o.want
  have hfill : (canonOffer o).bigInt? "minFill" = some o.minFill := Json.asBigInt?_decimal _
  have hremaining : (canonOffer o).bigInt? "remaining" = some o.remaining := Json.asBigInt?_decimal _
  have hposted : (canonOffer o).int? "postedAt" = some o.postedAt := Json.asInt?_int _
  have hexpires : (canonOffer o).int? "expiresAt" = some o.expiresAt := Json.asInt?_int _
  unfold offerOf
  rw [hgive, hwant, hfill, hremaining, hposted, hexpires]
  rfl

theorem utxoOfState_copyUtxo (u : ProofUtxo) : utxoOfState (copyUtxo u) = some u := by
  have hvout : (copyUtxo u).count? "vout" = some u.vout := Json.asCount?_nat u.vout
  unfold utxoOfState
  rw [hvout]
  rfl

/-- A list whose elements each read back does so as a whole. -/
theorem mapM_map_eq {α : Type} {f : Json → Option α} {g : α → Json} (hback : ∀ x, f (g x) = some x)
    (l : List α) : (l.map g).mapM f = some l := by
  induction l with
  | nil => rfl
  | cons x l ih =>
    rw [List.map_cons, List.mapM_cons, hback, ih]
    rfl

theorem proofOfState_copyProof (p : FundsProof) : proofOfState (copyProof p) = some p := by
  have hchain : (copyProof p).chain? "chain" = some p.chain := Chain.ofName?_name p.chain
  have hnet : ((copyProof p).string? "net").bind Net.ofName? = some p.net := Net.ofName?_name p.net
  have hutxos : (p.utxos.map copyUtxo).mapM utxoOfState = some p.utxos :=
    mapM_map_eq utxoOfState_copyUtxo p.utxos
  have hget : (copyProof p).get? "utxos" = some (.arr (p.utxos.map copyUtxo)) := rfl
  unfold proofOfState
  rw [hchain, hnet, hget]
  simp only [Option.bind_eq_bind, Option.bind_some, Json.asArray?, hutxos]
  rfl

theorem lockOf_copyLock (l : LockHint) : lockOf (copyLock l) = some l := by
  have hvout : (copyLock l).count? "vout" = some l.vout := Json.asCount?_nat l.vout
  have hat : (copyLock l).int? "at" = some l.at := Json.asInt?_int l.at
  unfold lockOf
  rw [hvout, hat]
  rfl

theorem cancelledOf_copyCancelled (c : Cancelled) : cancelledOf (copyCancelled c) = some c := by
  have hat : (copyCancelled c).int? "at" = some c.at := Json.asInt?_int c.at
  have hreason : ((copyCancelled c).string? "reason").bind CancelReason.ofName? = some c.reason :=
    CancelReason.ofName?_name c.reason
  unfold cancelledOf
  rw [hat, hreason]
  rfl

/-- Every member of an encoded match is read back. -/
theorem matchOf_canonMatch (m : Match) : matchOf (canonMatch m) = some m := by
  have hseq : (canonMatch m).count? "takeSeq" = some m.takeSeq := Json.asCount?_nat _
  have hmakerChain : (canonMatch m).chain? "makerChain" = some m.makerChain := Chain.ofName?_name _
  have hmakerAmount : (canonMatch m).bigInt? "makerAmount" = some m.makerAmount :=
    Json.asBigInt?_decimal _
  have hmakerBlocks : (canonMatch m).count? "makerRefundBlocks" = some m.makerRefundBlocks :=
    Json.asCount?_nat _
  have htakerChain : (canonMatch m).chain? "takerChain" = some m.takerChain := Chain.ofName?_name _
  have htakerAmount : (canonMatch m).bigInt? "takerAmount" = some m.takerAmount :=
    Json.asBigInt?_decimal _
  have htakerBlocks : (canonMatch m).count? "takerRefundBlocks" = some m.takerRefundBlocks :=
    Json.asCount?_nat _
  have hkey : (canonMatch m).get? "makerKey" = some (.nullable m.makerKey) := rfl
  have hstatus : ((canonMatch m).string? "status").bind MatchStatus.ofName? = some m.status :=
    MatchStatus.ofName?_name _
  have htaken : (canonMatch m).int? "takenAt" = some m.takenAt := Json.asInt?_int _
  have hdeadline : (canonMatch m).int? "proofDeadline" = some m.proofDeadline := Json.asInt?_int _
  have hprune : (canonMatch m).int? "pruneAt" = some m.pruneAt := Json.asInt?_int _
  have hmakerProof : (canonMatch m).get? "makerProof" = some (.orNull copyProof m.makerProof) := rfl
  have htakerProof : (canonMatch m).get? "takerProof" = some (.orNull copyProof m.takerProof) := rfl
  have hmakerLock : (canonMatch m).get? "makerLock" = some (.orNull copyLock m.makerLock) := rfl
  have htakerLock : (canonMatch m).get? "takerLock" = some (.orNull copyLock m.takerLock) := rfl
  have hcancelled : (canonMatch m).get? "cancelled" = some (.orNull copyCancelled m.cancelled) := rfl
  have hproof := Json.nullOr?_orNull proofOfState_copyProof (fun p => by simp [copyProof])
  have hlock := Json.nullOr?_orNull lockOf_copyLock (fun l => by simp [copyLock])
  have hcancel := Json.nullOr?_orNull cancelledOf_copyCancelled (fun c => by simp [copyCancelled])
  unfold matchOf
  rw [hseq, hmakerChain, hmakerAmount, hmakerBlocks, htakerChain, htakerAmount, htakerBlocks, hkey,
    hstatus, htaken, hdeadline, hprune, hmakerProof, htakerProof, hmakerLock, htakerLock, hcancelled]
  simp only [Option.bind_eq_bind, Option.bind_some, Json.nullOr?_nullable, hproof, hlock, hcancel]
  rfl

/-! ## Boards -/

/-- Offers and matches are kept under their own ids. -/
structure View.Keyed (view : View) : Prop where
  offers : ∀ k o, view.offers.get? k = some o → o.id = k
  «matches» : ∀ k m, view.matches.get? k = some m → m.id = k

variable {view : View}

/-- **What a checkpoint stores reads back**: the same offers and matches, encoded the same. -/
theorem deserializeView_serializeView (h : view.Keyed) :
    ∃ view', deserializeView (serializeView view) = some view' ∧
      (∀ k, view'.offers.get? k = view.offers.get? k) ∧
      (∀ k, view'.matches.get? k = view.matches.get? k) ∧
      serializeView view' = serializeView view := by
  have hoffers : ((serializeView view).get? "offers").bind Json.asArray?
      = some ((view.offers.values.insertionSort (fun a b => a.id ≤ b.id)).map canonOffer) := rfl
  have hmatches : ((serializeView view).get? "matches").bind Json.asArray?
      = some ((view.matches.values.insertionSort (fun a b => a.id ≤ b.id)).map canonMatch) := rfl
  obtain ⟨hoff, hoffSorted⟩ := OrderedMap.byId_sorted h.offers
  obtain ⟨hmat, hmatSorted⟩ := OrderedMap.byId_sorted h.matches
  let view' : View :=
    ⟨OrderedMap.byId Offer.id (view.offers.values.insertionSort (fun a b => a.id ≤ b.id)),
      OrderedMap.byId Match.id (view.matches.values.insertionSort (fun a b => a.id ≤ b.id))⟩
  have hsame : serializeView view' = serializeView view := by
    unfold serializeView
    rw [hoffSorted, hmatSorted]
  refine ⟨view', ?_, hoff, hmat, hsame⟩
  unfold deserializeView
  rw [Option.bind_eq_some_iff] at hoffers hmatches
  obtain ⟨a, ha, hoffers⟩ := hoffers
  obtain ⟨b, hb, hmatches⟩ := hmatches
  rw [ha, hb]
  simp only [Option.bind_eq_bind, Option.bind_some, hoffers, hmatches,
    mapM_map_eq offerOf_canonOffer, mapM_map_eq matchOf_canonMatch]
  exact if_pos ⟨rfl, congrArg canonicalize hsame⟩

/-! ## What the fold makes is kept under its ids -/

namespace View.Keyed

theorem empty : emptyView.Keyed := ⟨by simp [emptyView], by simp [emptyView]⟩

theorem setOffer (h : view.Keyed) {k : String} {o : Offer} (ho : o.id = k) :
    View.Keyed { view with offers := view.offers.set k o } where
  offers := fun k' o' hget => by
    rw [OrderedMap.get?_set] at hget
    split_ifs at hget with hk
    · rw [← Option.some.inj hget, ho, hk]
    · exact h.offers k' o' hget
  «matches» := h.matches

theorem setMatch (h : view.Keyed) {k : String} {m : Match} (hm : m.id = k) :
    View.Keyed { view with «matches» := view.matches.set k m } where
  offers := h.offers
  «matches» := fun k' m' hget => by
    rw [OrderedMap.get?_set] at hget
    split_ifs at hget with hk
    · rw [← Option.some.inj hget, hm, hk]
    · exact h.matches k' m' hget

theorem deleteOffer (h : view.Keyed) (k : String) :
    View.Keyed { view with offers := view.offers.delete k } where
  offers := fun k' o' hget => by
    rw [OrderedMap.get?_delete] at hget
    split_ifs at hget
    exact h.offers k' o' hget
  «matches» := h.matches

theorem deleteMatch (h : view.Keyed) (k : String) :
    View.Keyed { view with «matches» := view.matches.delete k } where
  offers := h.offers
  «matches» := fun k' m' hget => by
    rw [OrderedMap.get?_delete] at hget
    split_ifs at hget
    exact h.matches k' m' hget

theorem restoreCapacity (h : view.Keyed) (m : Match) : (restoreCapacity view m).Keyed := by
  unfold Gavl.restoreCapacity
  cases hget : view.offers.get? m.offerId with
  | none => exact h
  | some offer =>
    have hid : offer.id = m.offerId := h.offers _ _ hget
    exact h.setOffer hid

theorem advance (h : view.Keyed) (height : ℤ) : (advance view height).Keyed where
  offers := fun k o hget => by
    obtain ⟨o', ho', rfl⟩ := Books.get?_offers_advance hget
    exact h.offers k o' ho'
  «matches» := fun k m hget => by
    rw [get?_matches_advance, Option.bind_eq_some_iff] at hget
    obtain ⟨m', hm', hkept⟩ := hget
    obtain ⟨-, rfl⟩ := keptMatch_eq_some.mp hkept
    have hid : (m'.expire height).id = m'.id := by
      unfold Match.expire
      split_ifs <;> rfl
    rw [hid]
    exact h.matches k m' hm'

theorem applyOp (h : view.Keyed) (w : Write) (op : Op) (height : ℤ) :
    (applyOp view w op height).1.Keyed := by
  have heffect := applyOp_effect view w op height
  generalize Gavl.applyOp view w op height = result at heffect
  cases heffect with
  | rejected => exact h
  | post => exact h.setOffer rfl
  | cancel => exact h.deleteOffer _
  | @take offerId hash takerKey fill offer hget =>
    have hid : offer.id = offerId := h.offers _ _ hget
    have hoffer : View.Keyed { view with
        offers := view.offers.set offerId { offer with remaining := offer.remaining - fill } } :=
      h.setOffer hid
    exact hoffer.setMatch rfl
  | @proof matchId makerKey proof m m' hget hstatus hproved =>
    have hid : m.id = matchId := h.matches _ _ hget
    have hid' : m'.escrowed.id = matchId := by
      unfold Match.escrowed
      cases hproved <;> split_ifs <;> exact hid
    exact h.setMatch hid'
  | @locked matchId txid vout m m' hget hstatus hhint =>
    have hid : m.id = matchId := h.matches _ _ hget
    have hid' : m'.id = matchId := by cases hhint <;> exact hid
    exact h.setMatch hid'
  | @abort matchId m hget =>
    have hid : m.id = matchId := h.matches _ _ hget
    have hid' : (m.aborted height).id = matchId := hid
    exact (h.setMatch hid').restoreCapacity _

theorem computeView (K : Curve) (writes : List Write) (height : ℤ) (opts : FoldOptions)
    (h : ∀ base, opts.base = some base → base.Keyed) : (computeView K writes height opts).Keyed := by
  rw [computeView_eq_run]
  refine inv_run View.Keyed (fun view step h => ?_) ?_ _
  · cases step with
    | advance height => exact h.advance height
    | apply w op height => exact h.applyOp w op height
  · cases hbase : opts.base with
    | none => exact empty
    | some base => exact h base hbase

theorem viewOf (K : Curve) (o : FinalOrdering) {base : Option View}
    (h : ∀ view, base = some view → view.Keyed) : (viewOf K o base).Keyed := by
  unfold Gavl.viewOf
  cases o.nowHeight with
  | none =>
    cases base with
    | none => exact empty
    | some view => exact h view rfl
  | some height => exact computeView K _ _ _ h

/-- What is read back is kept under its ids. -/
theorem deserializeView {s : Json} (h : deserializeView s = some view) : view.Keyed := by
  have hset : ∀ {ν : Type} (id : ν → String) (l : List ν) (m : OrderedMap String ν),
      (∀ k v, m.get? k = some v → id v = k) →
        ∀ k v, (l.foldl (fun m v => m.set (id v) v) m).get? k = some v → id v = k := by
    intro ν id l
    induction l with
    | nil => exact fun _ h => h
    | cons x l ih =>
      intro m hm
      refine ih _ fun k v hget => ?_
      rw [OrderedMap.get?_set] at hget
      split_ifs at hget with hk
      · rw [← Option.some.inj hget, hk]
      · exact hm k v hget
  unfold Gavl.deserializeView at h
  obtain ⟨a, -, h⟩ := Option.bind_eq_some_iff.mp h
  obtain ⟨a, -, h⟩ := Option.bind_eq_some_iff.mp h
  obtain ⟨offers, -, h⟩ := Option.bind_eq_some_iff.mp h
  obtain ⟨a, -, h⟩ := Option.bind_eq_some_iff.mp h
  obtain ⟨a, -, h⟩ := Option.bind_eq_some_iff.mp h
  obtain ⟨matched, -, h⟩ := Option.bind_eq_some_iff.mp h
  obtain ⟨keys, -, h⟩ := Option.bind_eq_some_iff.mp h
  split_ifs at h
  rw [← Option.some.inj h]
  exact ⟨hset Offer.id offers ∅ (by simp), hset Match.id matched ∅ (by simp)⟩

end View.Keyed

end Gavl
