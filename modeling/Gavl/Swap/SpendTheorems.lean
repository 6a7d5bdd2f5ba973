import Gavl.Market.LifecycleTheorems
import Gavl.Swap.SessionTheorems

/-!
# What is locked can be spent

The fold keeps both legs of a match at the dust floor or above. A spend of an HTLC also pays a fee,
which the fold never sees: what is locked can be moved again when the leg has that much to spare.
-/

namespace Gavl

open Runs

/-! ## The smallest leg -/

/-- Both legs are at least what the chains relay. -/
def Match.AboveDust (m : Match) : Prop :=
  dust m.makerChain ≤ m.makerAmount ∧ dust m.takerChain ≤ m.takerAmount

section Board

variable {view : View} {w : Write} {h : ℤ} {op : Op} {r : View × Option String} {k : String}
  {m m' : Match} {s : BoardStep}

theorem Match.AboveDust.of_terms (hm : m.AboveDust) (h : m'.terms = m.terms) : m'.AboveDust := by
  unfold Match.terms at h
  obtain ⟨-, -, -, -, -, hmakerChain, hmaker, -, htakerChain, htaker, -⟩ := Match.mk.inj h
  unfold Match.AboveDust
  rw [hmakerChain, hmaker, htakerChain, htaker]
  exact hm

/-- The only op that puts a match under a new key is a take, and it checks both legs. -/
theorem aboveDust_of_new (heff : Effect view w h op r) (hnew : view.matches.get? k = none)
    (hm : r.1.matches.get? k = some m) : m.AboveDust := by
  have hset : ∀ matchId n n', view.matches.get? matchId = some n →
      (view.matches.set matchId n').get? k = some m → False := fun matchId n n' hget hk => by
    rw [OrderedMap.get?_set] at hk
    split_ifs at hk with heq
    · rw [heq, hnew] at hget
      cases hget
    · rw [hnew] at hk
      cases hk
  cases heff with
  | take hget hcap hgive hwant =>
    rw [OrderedMap.get?_set] at hm
    split_ifs at hm
    · obtain rfl := Option.some.inj hm
      exact ⟨hgive, hwant⟩
    · rw [hnew] at hm
      cases hm
  | proof hget => exact absurd hm fun hm => hset _ _ _ hget hm
  | locked hget => exact absurd hm fun hm => hset _ _ _ hget hm
  | abort hget =>
    rw [matches_restoreCapacity] at hm
    exact absurd hm fun hm => hset _ _ _ hget hm
  | _ =>
    rw [hnew] at hm
    cases hm

theorem aboveDust_step (hview : ∀ k m, view.matches.get? k = some m → m.AboveDust)
    (hm : (boardStep view s).matches.get? k = some m) : m.AboveDust := by
  cases hold : view.matches.get? k with
  | some n => exact (hview k n hold).of_terms (moves_of_step hold hm).terms
  | none =>
    cases s with
    | advance h =>
      rw [show boardStep view (.advance h) = advance view h from rfl, get?_matches_advance, hold]
        at hm
      cases hm
    | apply w op h => exact aboveDust_of_new (applyOp_effect view w op h) hold hm

/-- **Every match a fold makes has both legs at the dust floor or above.** -/
theorem aboveDust_of_run (steps : List BoardStep)
    (hm : m ∈ (run boardStep emptyView steps).matches.values) : m.AboveDust := by
  obtain ⟨k, hk⟩ := (OrderedMap.mem_values _ _).mp hm
  refine inv_run (fun view : View => ∀ k m, view.matches.get? k = some m → m.AboveDust)
    (fun view s hview k m hm => aboveDust_step hview hm) ?_ steps k m hk
  intro k m hnone
  simp [emptyView] at hnone

end Board

/-! ## What the engine funds -/

variable {E : Engine} {c : Ctx} {r : Reads} {k : Tick} {chain : Chain} {address : String}
  {amount : ℕ}

theorem htlc_of_scan {L : SwapLib} {net : Net} {p : HtlcParams}
    {answer : Except String ScanAnswer} {found : Scan} (h : scan L chain net p answer = .ok found) :
    ∃ htlc, htlcScript L p = .ok htlc ∧ found.address = L.trAddress htlc.outputKey chain net := by
  unfold scan at h
  cases hhtlc : htlcScript L p with
  | error err =>
    rw [hhtlc] at h
    cases h
  | ok htlc =>
    rw [hhtlc] at h
    cases answer with
    | error err => cases h
    | ok answer =>
      obtain rfl := Except.ok.inj h
      exact ⟨htlc, rfl, rfl⟩

/-- A tick funds my HTLC only, with my leg. -/
theorem fund_of_step (hk : k.effects = []) (h : .fund chain address amount ∈ (k.step E c r).effects) :
    chain = c.terms.myChain k.side.role ∧ amount = c.terms.myAmount k.side.role ∧
      ∃ htlc, htlcScript E.lib (c.myHtlc E k.side.role) = .ok htlc ∧
        address = E.lib.trAddress htlc.outputKey chain (E.net chain) := by
  have hacts : Tick.Acts E c r k (k.step E c r) := Tick.acts_step
  refine hacts.forall_effects (P := fun e => e = .fund chain address amount → _) ?_ hk _ h rfl
  rintro k₁ k₂ e hact hmore rfl
  cases hact with
  | fund hmine =>
    obtain ⟨rfl, rfl, rfl⟩ := SwapEffect.fund.inj (List.singleton_inj.mp
      (List.append_cancel_left hmore))
    obtain ⟨htlc, hhtlc, haddress⟩ := htlc_of_scan hmine.1
    exact ⟨rfl, rfl, htlc, hhtlc, haddress⟩
  | post => exact absurd (Tick.eq_post_of_postOp hmore) (by simp)
  | abort => exact absurd (Tick.eq_post_of_abort hmore) (by simp)
  | _ => simp [Tick.adoptLock] at hmore

/-! ## Spends -/

/-- A P2TR output script. -/
def IsP2tr (script : Bytes) : Prop := ∃ key : Bytes, key.length = 32 ∧ script = [0x51, 0x20] ++ key

/-- A wallet's output has the dust threshold of an HTLC's. -/
theorem dustThreshold_of_isP2tr {script : Bytes} (h : IsP2tr script) (chain : Chain) :
    dustThreshold (networks chain) script = dust chain := by
  obtain ⟨key, hkey, rfl⟩ := h
  unfold dust dustThreshold
  simp [hkey, p2trScript, isWitnessProgram]

/-- A spend is built exactly when its output stays above dust. -/
theorem spend_ok_iff {L : SwapLib} {utxo : HtlcUtxo} {dest : SpendTo} {leaf key : Bytes}
    {sequence : ℕ} {witness : Bytes → List Bytes} {d : Destination}
    (hrate : dest.feeRate.valid = true) (hdest : L.tx.decode dest.chain dest.net dest.to = some d)
    (hd : IsP2tr d.script) :
    (∃ tx, spend L utxo dest leaf sequence key witness = .ok tx) ↔
      dest.feeRate.fee (L.spendVsize (witness (List.replicate 64 0)) d.script) + dust dest.chain
        ≤ utxo.amount := by
  unfold spend
  rw [hrate, hdest]
  simp only [Bool.not_true, Bool.false_eq_true, if_false, dustThreshold_of_isP2tr hd]
  split_ifs with hdust
  · simp only [exists_false, false_iff]
    omega
  · simp only [Except.ok.injEq, exists_eq', true_iff]
    omega

/-- What an HTLC on a chain is spent with: the claim by its receiver, who knows the secret, and the
refund by its sender, each to a wallet, at one rate. -/
structure Spenders (E : Engine) (p : HtlcParams) (chain : Chain) where
  secret : Bytes
  receiverKey : Bytes
  senderKey : Bytes
  hash_eq : E.lib.hashOf secret = p.hash
  receiver_eq : E.lib.xOnly receiverKey = p.receiver
  sender_eq : E.lib.xOnly senderKey = p.sender
  /-- Where each spend pays to. -/
  address : SpendKind → String
  destination : SpendKind → Destination
  decode_eq : ∀ kind, E.lib.tx.decode chain (E.net chain) (address kind) = some (destination kind)
  isP2tr : ∀ kind, IsP2tr (destination kind).script
  vsize : SpendKind → ℕ
  claim_vsize : ∀ htlc, htlcScript E.lib p = .ok htlc →
    E.lib.spendVsize [List.replicate 64 0, secret, htlc.claimLeaf, htlc.claimControlBlock]
      (destination .claim).script = vsize .claim
  refund_vsize : ∀ htlc, htlcScript E.lib p = .ok htlc →
    E.lib.spendVsize [List.replicate 64 0, htlc.refundLeaf, htlc.refundControlBlock]
      (destination .refund).script = vsize .refund

namespace Spenders

variable {p : HtlcParams} (S : Spenders E p chain) (utxo : HtlcUtxo)

def dest (kind : SpendKind) : SpendTo :=
  ⟨chain, E.net chain, S.address kind, E.policy.feeRate chain⟩

/-- Neither spend throws. -/
def Movable : Prop :=
  (∃ tx, buildClaimTx E.lib utxo p (S.dest .claim) S.secret S.receiverKey = .ok tx) ∧
    ∃ tx, buildRefundTx E.lib utxo p (S.dest .refund) S.senderKey = .ok tx

theorem movable_iff {htlc : Htlc} (hhtlc : htlcScript E.lib p = .ok htlc)
    (hrate : (E.policy.feeRate chain).valid = true) :
    S.Movable utxo ↔
      ∀ kind, (E.policy.feeRate chain).fee (S.vsize kind) + dust chain ≤ utxo.amount := by
  have hclaim : (∃ tx, buildClaimTx E.lib utxo p (S.dest .claim) S.secret S.receiverKey = .ok tx) ↔
      (E.policy.feeRate chain).fee (S.vsize .claim) + dust chain ≤ utxo.amount := by
    unfold buildClaimTx
    rw [if_neg (not_not.mpr S.hash_eq), if_neg (not_not.mpr S.receiver_eq), hhtlc]
    simp only
    rw [spend_ok_iff hrate (S.decode_eq .claim) (S.isP2tr .claim), S.claim_vsize htlc hhtlc]
    rfl
  have hrefund : (∃ tx, buildRefundTx E.lib utxo p (S.dest .refund) S.senderKey = .ok tx) ↔
      (E.policy.feeRate chain).fee (S.vsize .refund) + dust chain ≤ utxo.amount := by
    unfold buildRefundTx
    rw [if_neg (not_not.mpr S.sender_eq), hhtlc]
    simp only
    rw [spend_ok_iff hrate (S.decode_eq .refund) (S.isP2tr .refund), S.refund_vsize htlc hhtlc]
    rfl
  unfold Movable
  rw [hclaim, hrefund]
  constructor
  · rintro ⟨hclaim, hrefund⟩ kind
    cases kind with
    | claim => exact hclaim
    | refund => exact hrefund
  · exact fun h => ⟨h .claim, h .refund⟩

end Spenders

theorem dust_le_of_aboveDust {m : Match} (hm : m.AboveDust) (role : Role) :
    dust ((termsOf m).myChain role) ≤ (termsOf m).myAmount role := by
  cases role with
  | taker => exact hm.2
  | maker => exact hm.1

/-- **What the engine locks can be moved again exactly when the leg has the fee of either spend to
spare above the dust floor.** -/
theorem locked_movable_iff (steps : List BoardStep) (m : Match)
    (hm : m ∈ (run boardStep emptyView steps).matches.values) (E : Engine) (c : Ctx) (r : Reads)
    (k : Tick) (hterms : c.terms = termsOf m) (hk : k.effects = []) (chain : Chain)
    (address : String) (amount : ℕ)
    (hfund : .fund chain address amount ∈ (k.step E c r).effects)
    (hrate : (E.policy.feeRate chain).valid = true)
    (S : Spenders E (c.myHtlc E k.side.role) chain) (txid : String) (vout : ℕ) :
    S.Movable ⟨txid, vout, amount⟩ ↔
      ∀ kind, (E.policy.feeRate chain).fee (S.vsize kind) ≤ amount - dust chain := by
  obtain ⟨hchain, hamount, htlc, hhtlc, -⟩ := fund_of_step hk hfund
  -- the fold's floor leaves a difference to compare the fee with
  have hdust : dust chain ≤ amount := by
    rw [hchain, hamount, hterms]
    exact dust_le_of_aboveDust (aboveDust_of_run steps hm) k.side.role
  rw [S.movable_iff _ hhtlc hrate]
  refine forall_congr' fun kind => ?_
  show _ + _ ≤ amount ↔ _
  omega

open SwapSession

/-- An offer, a take of all of it, and both proofs. -/
def sampleSteps (amount : ℕ) : List BoardStep :=
  [.apply (Checkpointed.first "maker" (sampleMatch amount).offerId 0 .null)
      (.offerPost ⟨.bitcoin, amount⟩ ⟨.litecoin, 10 * amount⟩ amount 1000) 0,
    .apply (Checkpointed.first "taker" (sampleMatch amount).id 0 .null)
      (.offerTake (sampleMatch amount).offerId amount (sampleMatch amount).hash
        (sampleMatch amount).takerKey) 0,
    .apply (Checkpointed.first "maker" "m" 0 .null)
      (.swapProof (sampleMatch amount).id (sampleMatch amount).makerKey (sampleProof .bitcoin)) 1,
    .apply (Checkpointed.first "taker" "t" 0 .null)
      (.swapProof (sampleMatch amount).id none (sampleProof .litecoin)) 1]

/-- The taker's lock is there, and the wallet pays mine. -/
def lockingReads (amount : ℕ) : Reads :=
  { emptyReads 0 with
    theirsBefore := .ok ⟨[samplePayment (10 * amount) 98], 100⟩
    fund := .paid ⟨toHex (List.replicate 32 6), 0⟩ }

theorem sampleHtlc_eq (amount : ℕ) :
    ((sampleCtx amount 2 20).myHtlc sampleEngine .maker).hash = List.replicate 32 1 ∧
      ((sampleCtx amount 2 20).myHtlc sampleEngine .maker).receiver = List.replicate 32 2 ∧
      ((sampleCtx amount 2 20).myHtlc sampleEngine .maker).sender = List.replicate 32 3 := by
  refine ⟨?_, ?_, ?_⟩
  · show fromHex (sampleCtx amount 2 20).terms.hash = _
    exact fromHex_toHex _
  · show fromHex (sampleCtx amount 2 20).terms.takerKey = _
    exact fromHex_toHex _
  · show fromHex (toHex (sampleEngine.lib.xOnly ((sampleCtx amount 2 20).makerSwapKey sampleEngine)))
      = _
    exact fromHex_toHex _

/-- The two parties of the maker's HTLC. -/
def sampleSpenders (amount : ℕ) :
    Spenders sampleEngine ((sampleCtx amount 2 20).myHtlc sampleEngine .maker) .bitcoin where
  secret := List.replicate 32 1
  receiverKey := List.replicate 32 2
  senderKey := List.replicate 32 3
  hash_eq := (sampleHtlc_eq amount).1.symm
  receiver_eq := (sampleHtlc_eq amount).2.1.symm
  sender_eq := (sampleHtlc_eq amount).2.2.symm
  address _ := "bc1p0xlxvlhemja6c4dqv22uapctqupfhlxm9h8z3k2e72q4k9hcz7vqzk5jj0"
  destination _ := ⟨true, sampleScript⟩
  decode_eq _ := rfl
  isP2tr _ := ⟨sampleScript.drop 2, by decide, by decide⟩
  vsize kind := match kind with
    | .claim => 153
    | .refund => 135
  claim_vsize _ _ := rfl
  refund_vsize _ _ := rfl

theorem sampleMatch_mem (amount : ℕ) (h : (run boardStep emptyView (sampleSteps amount)).matches.get?
    (sampleMatch amount).id = some (sampleMatch amount)) :
    sampleMatch amount ∈ (run boardStep emptyView (sampleSteps amount)).matches.values :=
  (OrderedMap.mem_values _ _).mpr ⟨_, h⟩

/-- The theorem at a leg of 100000. -/
theorem locked_movable_iff_spare : (sampleSpenders 100000).Movable ⟨"00", 0, 100000⟩ ↔
    ∀ kind, (sampleEngine.policy.feeRate .bitcoin).fee ((sampleSpenders 100000).vsize kind)
      ≤ 100000 - dust .bitcoin :=
  locked_movable_iff (sampleSteps 100000) (sampleMatch 100000) (sampleMatch_mem 100000 rfl)
    sampleEngine (sampleCtx 100000 2 20) (lockingReads 100000) (fresh .maker "maker").tick rfl rfl
    .bitcoin "bc1p0xlxvlhemja6c4dqv22uapctqupfhlxm9h8z3k2e72q4k9hcz7vqzk5jj0" 100000
    (by decide +kernel) rfl (sampleSpenders 100000) "00" 0

/-- A leg at the dust floor is locked and cannot be moved at one base unit a vbyte. -/
theorem floor_unmovable :
    sampleMatch 330 ∈ (run boardStep emptyView (sampleSteps 330)).matches.values ∧
      .fund .bitcoin "bc1p0xlxvlhemja6c4dqv22uapctqupfhlxm9h8z3k2e72q4k9hcz7vqzk5jj0" 330 ∈
        ((fresh .maker "maker").tick.step sampleEngine (sampleCtx 330 2 20)
          (lockingReads 330)).effects ∧ ¬(sampleSpenders 330).Movable ⟨"00", 0, 330⟩ := by
  have hfund : .fund .bitcoin "bc1p0xlxvlhemja6c4dqv22uapctqupfhlxm9h8z3k2e72q4k9hcz7vqzk5jj0" 330 ∈
      ((fresh .maker "maker").tick.step sampleEngine (sampleCtx 330 2 20)
        (lockingReads 330)).effects := by
    decide +kernel
  refine ⟨sampleMatch_mem 330 rfl, hfund, fun hmovable => ?_⟩
  obtain ⟨-, -, htlc, hhtlc, -⟩ := fund_of_step rfl hfund
  have hspare := ((sampleSpenders 330).movable_iff ⟨"00", 0, 330⟩ hhtlc rfl).mp hmovable .claim
  exact absurd hspare (by decide)

end Gavl
