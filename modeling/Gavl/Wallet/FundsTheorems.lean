import Gavl.Swap.DigestTheorems
import Gavl.Wallet.ChainWallet

/-!
# Funds proofs are sound and complete

A wallet proves whatever some choice of confirmed coins covers, its proofs pass the check, and what
passes the check lists distinct coins of the address at their listed values.
-/

namespace Gavl

open LargestFirst

variable {S : Schnorr} {w : ChainWallet} {chain : Chain} {listed : List EsploraUtxo}
  {c : EsploraUtxo} {matchId : String} {required : ℕ}

/-! ## Picking coins -/

theorem coinSum_append (a b : List EsploraUtxo) : coinSum (a ++ b) = coinSum a + coinSum b := by
  unfold coinSum
  rw [List.map_append, List.sum_append]

/-- What the loop leaves, and why it stopped. -/
structure Picked (required : ℤ) (picked rest out : List EsploraUtxo) : Prop where
  eq : ∃ n, out = picked ++ rest.take n
  length_le : out.length ≤ maxProofUtxos
  stop : (required ≤ coinSum out ∧ out ≠ []) ∨ out = picked ++ rest ∨ out.length = maxProofUtxos

theorem pickFunds_picked (required : ℤ) : ∀ {rest picked : List EsploraUtxo},
    picked.length ≤ maxProofUtxos →
      Picked required picked rest (ChainWallet.pickFunds required picked rest) := by
  intro rest
  induction rest with
  | nil =>
    intro picked hlen
    refine ⟨⟨0, ?_⟩, hlen, .inr (.inl ?_)⟩
    · exact (List.append_nil picked).symm
    · exact (List.append_nil picked).symm
  | cons c rest ih =>
    intro picked hlen
    have hstay : picked = picked ++ (c :: rest).take 0 := (List.append_nil picked).symm
    rw [ChainWallet.pickFunds]
    split_ifs with hcovered hfull
    · exact ⟨⟨0, hstay⟩, hlen, .inl ⟨hcovered.1, List.length_pos_iff.mp hcovered.2⟩⟩
    · exact ⟨⟨0, hstay⟩, hlen, .inr (.inr hfull)⟩
    · have hlen' : (picked ++ [c]).length ≤ maxProofUtxos := by
        rw [List.length_append, List.length_singleton]
        omega
      have hpicked := ih hlen'
      have hassoc : ∀ l, picked ++ [c] ++ l = picked ++ c :: l := fun l => by
        rw [List.append_assoc, List.singleton_append]
      obtain ⟨n, hn⟩ := hpicked.eq
      refine ⟨⟨n + 1, ?_⟩, hpicked.length_le, hpicked.stop.imp_right (Or.imp_left fun hall => ?_)⟩
      · rw [hn, hassoc, List.take_succ_cons]
      · rw [hall, hassoc]

/-- If some choice of coins covers what is required, the loop's does. -/
theorem le_coinSum_pickFunds {required : ℕ} {coins confirmed : List EsploraUtxo}
    (hreq : 1 ≤ required) (hsub : coins.Subperm confirmed) (hlen : coins.length ≤ maxProofUtxos)
    (hcovers : required ≤ coinSum coins) :
    let out := ChainWallet.pickFunds required [] (largestFirst (fun c => c.value) confirmed)
    required ≤ coinSum out ∧ out ≠ [] := by
  intro out
  have hout : Picked required [] _ out := pickFunds_picked required (Nat.zero_le _)
  obtain ⟨n, hn⟩ := hout.eq
  rw [List.nil_append] at hn
  have hbest : coinSum coins ≤ coinSum ((largestFirst (fun c => c.value) confirmed).take coins.length) :=
    sum_le_sum_largestFirst hsub
  -- A prefix at least as long holds at least as much.
  have hmono : (largestFirst (fun c => c.value) confirmed).take coins.length <+: out →
      required ≤ coinSum out ∧ out ≠ [] := fun ⟨more, hmore⟩ => by
    have hsum : required ≤ coinSum out := by
      rw [← hmore, coinSum_append]
      omega
    refine ⟨hsum, fun hnil => ?_⟩
    rw [hnil] at hsum
    exact absurd (le_trans hreq hsum) (by decide)
  rcases hout.stop with ⟨hsum, hne⟩ | hall | hfull
  · exact ⟨Int.ofNat_le.mp hsum, hne⟩
  · apply hmono
    rw [hall]
    exact List.take_prefix _ _
  · apply hmono
    rw [hn] at hfull ⊢
    have : maxProofUtxos ≤ n := by
      rw [← hfull]
      exact List.length_take_le _ _
    exact List.take_prefix_take_left (by omega)

/-! ## Proving -/

theorem wellFormed_proofUtxo (h : IsListing chain listed) (hc : c ∈ listed) :
    (ChainWallet.proofUtxo c).WellFormed chain := by
  have hle := h.value_le c hc
  have hmax : maxMoney chain < 10 ^ 16 := by cases chain <;> decide
  refine ⟨h.isHex c hc, h.vout_le c hc, isDecimal_toDigits (h.value_pos c hc) (by omega), ?_⟩
  show decimalValue (String.ofList (Nat.toDigits 10 c.value)) ≤ _
  rw [decimalValue_toDigits]
  exact hle

theorem wellFormedUtxos_map {coins : List EsploraUtxo} (h : IsListing chain listed)
    (hsub : coins.Subperm listed) (hne : coins ≠ []) (hlen : coins.length ≤ maxProofUtxos) :
    WellFormedUtxos chain (coins.map ChainWallet.proofUtxo) := by
  refine ⟨fun u hu => ?_, ?_, ?_, ?_⟩
  · obtain ⟨c, hc, rfl⟩ := List.mem_map.mp hu
    exact wellFormed_proofUtxo h (hsub.subset hc)
  · rw [List.map_map]
    obtain ⟨coins', hperm, hsub'⟩ := hsub
    have hnodup := (hsub'.map EsploraUtxo.key).nodup (nodup_keys h)
    exact (hperm.map EsploraUtxo.key).nodup_iff.mp hnodup
  · rwa [ne_eq, List.map_eq_nil_iff]
  · rwa [List.length_map]

/-- The coins `proveFunds` takes. -/
def provedCoins (listed : List EsploraUtxo) (required : ℕ) : List EsploraUtxo :=
  ChainWallet.pickFunds required []
    (largestFirst (fun u => u.value) (listed.filter (fun u => u.confirmed)))

theorem picked_provedCoins (listed : List EsploraUtxo) (required : ℕ) :
    Picked required [] (largestFirst (fun u => u.value) (listed.filter (fun u => u.confirmed)))
      (provedCoins listed required) :=
  pickFunds_picked required (Nat.zero_le maxProofUtxos)

theorem provedCoins_subperm :
    (provedCoins listed required).Subperm (listed.filter (fun u => u.confirmed)) := by
  obtain ⟨n, hn⟩ := (picked_provedCoins listed required).eq
  rw [hn, List.nil_append]
  exact (List.take_sublist n _).subperm.trans (largestFirst_perm _ _).subperm

theorem provedCoins_subperm_listed : (provedCoins listed required).Subperm listed :=
  provedCoins_subperm.trans List.filter_sublist.subperm

/-- Coins that do not cover what is required are refused, the others signed. -/
theorem proveFunds_eq (S : Schnorr) (w : ChainWallet) (listed : List EsploraUtxo)
    (matchId : String) (required : ℕ) : ∃ err, w.proveFunds S listed matchId required =
      if required ≤ coinSum (provedCoins listed required) ∧ provedCoins listed required ≠ [] then
        signFundsProof S w.key matchId w.chain w.net
          ((provedCoins listed required).map ChainWallet.proofUtxo)
      else .error err := by
  have hshort : ((coinSum (provedCoins listed required) : ℤ) < required ∨
        (provedCoins listed required).length = 0) ↔
      ¬(required ≤ coinSum (provedCoins listed required) ∧ provedCoins listed required ≠ []) := by
    rw [Int.ofNat_lt, List.length_eq_zero_iff, not_and_or, not_le, not_not]
  have hite : ∃ err, w.proveFunds S listed matchId required =
      if (coinSum (provedCoins listed required) : ℤ) < required ∨
          (provedCoins listed required).length = 0 then .error err
      else signFundsProof S w.key matchId w.chain w.net
        ((provedCoins listed required).map ChainWallet.proofUtxo) := ⟨_, rfl⟩
  obtain ⟨err, hite⟩ := hite
  refine ⟨err, ?_⟩
  rw [hite]
  simp only [hshort]
  exact ite_not _ _ _

theorem proveFunds_ok {proof : FundsProof}
    (h : w.proveFunds S listed matchId required = .ok proof) :
    (required ≤ coinSum (provedCoins listed required) ∧ provedCoins listed required ≠ []) ∧
      signFundsProof S w.key matchId w.chain w.net
        ((provedCoins listed required).map ChainWallet.proofUtxo) = .ok proof := by
  obtain ⟨err, heq⟩ := proveFunds_eq S w listed matchId required
  rw [heq] at h
  split_ifs at h with hcovers
  exact ⟨hcovers, h⟩

/-- Coins that cover what is required are signed for. -/
theorem proveFunds_of_covers (hS : S.Signs w.key) (hl : IsListing w.chain listed)
    (hid : DigestId matchId) (hcovers : required ≤ coinSum (provedCoins listed required))
    (hne : provedCoins listed required ≠ []) :
    ∃ proof, w.proveFunds S listed matchId required = .ok proof := by
  obtain ⟨digest, hdigest⟩ := proofDigest_ok S w.net hid (isHexOf_pubkey hS)
    (wellFormedUtxos_map hl provedCoins_subperm_listed hne
      (picked_provedCoins listed required).length_le)
  obtain ⟨err, heq⟩ := proveFunds_eq S w listed matchId required
  rw [heq, if_pos ⟨hcovers, hne⟩]
  exact signFundsProof_of_digest hdigest

/-- **A proof is made exactly when some choice of confirmed coins covers what is required.** -/
theorem proveFunds_iff (hS : S.Signs w.key) (hl : IsListing w.chain listed) (hid : DigestId matchId)
    (hreq : 1 ≤ required) :
    (∃ proof, w.proveFunds S listed matchId required = .ok proof) ↔
      ∃ coins, coins.Subperm (listed.filter (fun u => u.confirmed)) ∧
        coins.length ≤ maxProofUtxos ∧ required ≤ coinSum coins := by
  constructor
  · rintro ⟨proof, hproof⟩
    exact ⟨_, provedCoins_subperm, (picked_provedCoins listed required).length_le,
      (proveFunds_ok hproof).1.1⟩
  · rintro ⟨coins, hsub, hlen, hcovers⟩
    obtain ⟨hcovers, hne⟩ := le_coinSum_pickFunds hreq hsub hlen hcovers
    exact proveFunds_of_covers hS hl hid hcovers hne

/-! ## Checking -/

theorem utxosSum_map (coins : List EsploraUtxo) :
    utxosSum (coins.map ChainWallet.proofUtxo) = coinSum coins := by
  unfold utxosSum coinSum
  rw [List.map_map]
  congr 1
  exact List.map_congr_left fun c _ => decimalValue_toDigits c.value

/-- **What the wallet proves passes the check**, for all it was required to cover. -/
theorem verifyFundsProof_proveFunds (hS : S.Signs w.key) (hl : IsListing w.chain listed)
    {esplora : Esplora} (hchain : esplora.chain = w.chain) (hnet : esplora.net = w.net)
    (hlisted : esplora.utxos (w.address S) = .ok listed) {proof : FundsProof}
    (h : w.proveFunds S listed matchId required = .ok proof) {r : ℕ} (hr : r ≤ required) :
    verifyFundsProof S (copyProof proof) matchId r esplora = .ok ⟨true, none⟩ := by
  obtain ⟨⟨hcovers, hne⟩, h⟩ := proveFunds_ok h
  obtain ⟨⟨hpubkey, digest, hdigest, hsig⟩, hc, hn, hutxos⟩ := signFundsProof_ok h
  have hwf : proof.WellFormed := by
    refine ⟨?_, ?_, ?_⟩
    · rw [hpubkey]
      exact isHexOf_pubkey hS
    · have := isHexOf_toHex (S.sign digest w.key)
      rwa [hS.length_sign, ← hsig] at this
    · rw [hc, hutxos]
      exact wellFormedUtxos_map hl provedCoins_subperm_listed hne
        (picked_provedCoins listed required).length_le
  have hnetwork : ¬(proof.chain ≠ esplora.chain ∨ proof.net ≠ esplora.net) := by
    rw [hc, hn, hchain, hnet]
    exact fun h => h.elim (fun h => h rfl) (fun h => h rfl)
  have hverify : S.verify (fromHex proof.sig) digest (fromHex proof.pubkey) = true := by
    rw [hsig, hpubkey, fromHex_toHex, fromHex_toHex]
    exact hS.verify_sign digest
  have hsum : ¬((utxosSum proof.utxos : ℤ) < r) := by
    rw [hutxos, utxosSum_map]
    omega
  have haddress : walletAddress S (fromHex proof.pubkey) proof.chain proof.net = w.address S := by
    rw [hpubkey, fromHex_toHex, hc, hn]
    rfl
  have hmismatch : utxosMismatch (liveValues listed) (w.address S) proof.utxos = none := by
    rw [utxosMismatch_eq_none, hutxos]
    intro u hu
    obtain ⟨c, hcoin, rfl⟩ := List.mem_map.mp hu
    rw [get?_liveValues hl]
    exact ⟨c, provedCoins_subperm_listed.subset hcoin, rfl, (decimalValue_toDigits c.value).symm⟩
  unfold verifyFundsProof
  rw [fundsProofOf_copyProof hwf]
  simp only
  rw [if_neg hnetwork, if_neg (not_lt.mpr (Int.natCast_nonneg r)), haddress, hlisted]
  simp only [hdigest, hverify, Bool.not_true, Bool.false_eq_true, if_false, if_neg hsum, hmismatch]

/-- **What passes the check** lists distinct coins of its key's address at their listed values. -/
theorem verifyFundsProof_sound {esplora : Esplora}
    (hl : ∀ address listed, esplora.utxos address = .ok listed → IsListing esplora.chain listed)
    {v : Json} {r : ℤ} {check : ProofCheck}
    (h : verifyFundsProof S v matchId r esplora = .ok check) (hok : check.ok = true) :
    ∃ proof, fundsProofOf v = .ok proof ∧ (proof.utxos.map ProofUtxo.outpoint).Nodup ∧
      ∃ listed coins,
        esplora.utxos (walletAddress S (fromHex proof.pubkey) proof.chain proof.net) = .ok listed ∧
        coins.Subperm listed ∧
        coins.map EsploraUtxo.outpoint = proof.utxos.map ProofUtxo.outpoint ∧
        coins.map (fun c => c.value) = proof.utxos.map (fun u => decimalValue u.value) ∧
        r ≤ coinSum coins := by
  have hrefused : ∀ {reason : String}, (.ok ⟨false, some reason⟩ : Except String ProofCheck)
      = .ok check → False := fun heq => by
    obtain rfl := Except.ok.inj heq
    exact Bool.false_ne_true hok
  unfold verifyFundsProof at h
  cases hproof : fundsProofOf v with
  | error shape =>
    rw [hproof] at h
    exact (hrefused h).elim
  | ok proof =>
    rw [hproof] at h
    simp only at h
    split_ifs at h with hnet hneg hsig hshort
    · exact (hrefused h).elim
    · exact (hrefused h).elim
    · exact (hrefused h).elim
    split at h
    · exact absurd h (by simp)
    rename_i listed hlisted
    split at h
    · exact (hrefused h).elim
    · rename_i hmismatch
      have hread := fundsProofOf_ok hproof
      obtain ⟨coins, hcoins⟩ :=
        standsFor_of_utxosMismatch (hl _ _ hlisted) hread.isHex hmismatch
      have hnodup : coins.Nodup := by
        apply List.Nodup.of_map EsploraUtxo.outpoint
        rw [hcoins.outpoints]
        exact hread.nodup_outpoints
      refine ⟨proof, rfl, hread.nodup_outpoints, listed, coins, hlisted,
        List.subperm_of_subset hnodup hcoins.subset, hcoins.outpoints, hcoins.values, ?_⟩
      show r ≤ ((coins.map (fun c => c.value)).sum : ℕ)
      rw [hcoins.values]
      exact not_lt.mp hshort

/-! ## Both ways -/

/-- **Funds proofs are sound and complete**: a proof is made exactly when at most 32 confirmed coins
cover what is required, it passes the check for that much or less, and whatever passes the check
names distinct listed coins that cover what it was checked for. -/
theorem fundsProofs_sound_complete (hS : S.Signs w.key) (esplora : Esplora)
    (hchain : w.chain = esplora.chain) (hnet : w.net = esplora.net)
    (hl : ∀ address listed, esplora.utxos address = .ok listed → IsListing esplora.chain listed)
    (listed : List EsploraUtxo) (hlisted : esplora.utxos (w.address S) = .ok listed) :
    (∀ matchId, DigestId matchId → ∀ required : ℕ, 1 ≤ required →
      ((∃ proof, w.proveFunds S listed matchId required = .ok proof) ↔
        ∃ coins, coins.Subperm (listed.filter (fun u => u.confirmed)) ∧
          coins.length ≤ maxProofUtxos ∧ required ≤ coinSum coins) ∧
      ∀ proof, w.proveFunds S listed matchId required = .ok proof → ∀ r : ℕ, r ≤ required →
        verifyFundsProof S (copyProof proof) matchId r esplora = .ok ⟨true, none⟩) ∧
    ∀ v matchId (required : ℤ) check,
      verifyFundsProof S v matchId required esplora = .ok check → check.ok = true →
        ∃ proof, fundsProofOf v = .ok proof ∧ (proof.utxos.map ProofUtxo.outpoint).Nodup ∧
          ∃ listed coins,
            esplora.utxos (walletAddress S (fromHex proof.pubkey) proof.chain proof.net)
              = .ok listed ∧
            coins.Subperm listed ∧
            coins.map EsploraUtxo.outpoint = proof.utxos.map ProofUtxo.outpoint ∧
            coins.map (fun c => c.value) = proof.utxos.map (fun u => decimalValue u.value) ∧
            required ≤ coinSum coins := by
  have hlw : IsListing w.chain listed := hchain ▸ hl _ _ hlisted
  refine ⟨fun matchId hid required hreq => ⟨proveFunds_iff hS hlw hid hreq, ?_⟩, ?_⟩
  · intro proof hproof r hr
    exact verifyFundsProof_proveFunds hS hlw hchain.symm hnet.symm hlisted hproof hr
  · intro v matchId required check h hok
    exact verifyFundsProof_sound hl h hok

def plainWallet : ChainWallet := ⟨.bitcoin, .regtest, [7], [], [], []⟩

/-- Two confirmed coins and an unconfirmed one. -/
def plainListing : List EsploraUtxo :=
  [⟨String.ofList (List.replicate 64 'a'), 0, 4, true⟩,
    ⟨String.ofList (List.replicate 64 'b'), 1, 9, false⟩,
    ⟨String.ofList (List.replicate 64 'a'), 2, 3, true⟩]

def plainEsplora : Esplora where
  chain := .bitcoin
  net := .regtest
  utxos _ := .ok plainListing

theorem isListing_plainListing : IsListing .bitcoin plainListing := by
  refine ⟨?_, ?_, ?_, ?_, ?_⟩
  · decide +kernel
  · decide +kernel
  · decide +kernel
  · decide +kernel
  · decide +kernel

/-- Seven is covered by the two confirmed coins together. -/
theorem fundsProofs_sound_complete_seven :
    ∃ proof, plainWallet.proveFunds plainSchnorr plainListing "m" 7 = .ok proof ∧
      verifyFundsProof plainSchnorr (copyProof proof) "m" 5 plainEsplora = .ok ⟨true, none⟩ := by
  have key := (fundsProofs_sound_complete (signs_plainSchnorr plainWallet.key) plainEsplora rfl rfl
    (fun _ _ h => Except.ok.inj h ▸ isListing_plainListing) plainListing rfl).1 "m"
    ⟨by decide, by decide⟩ 7 (by decide)
  obtain ⟨proof, hproof⟩ := key.1.mpr
    ⟨plainListing.filter (fun u => u.confirmed), List.Subperm.refl _, by decide, by decide⟩
  exact ⟨proof, hproof, key.2 proof hproof 5 (by decide)⟩

end Gavl
