import Gavl.Det.FieldTheorems
import Gavl.Swap.DigestTheorems

/-!
# What the digest of a proof of funds binds

The message is a match id, a chain and a network behind their lengths, a key, a count and as many
outpoints of 44 bytes each. It is read back field by field.
-/

namespace Gavl

open Json

variable {S : Schnorr} {matchId matchId' pubkey pubkey' : String} {chain chain' : Chain}
  {net net' : Net} {us us' : List ProofUtxo} {u : ProofUtxo} {digest : Bytes}

/-! ## Outpoints -/

theorem prefixCode_u64be : PrefixCode {n | n < 2 ^ 64} u64be :=
  PrefixCode.of_length (n := 8) (fun _ _ => rfl) fun n hn m hm h => by
    have hn' : n < 2 ^ 64 := hn
    have hm' : m < 2 ^ 64 := hm
    obtain ⟨hhigh, hlow⟩ := List.append_inj h rfl
    have hhigh := mod_eq_of_u32be hhigh
    have hlow := mod_eq_of_u32be hlow
    omega

theorem maxMoney_lt (chain : Chain) : maxMoney chain < 2 ^ 64 := by
  cases chain <;> decide

theorem prefixCode_utxoBytes : PrefixCode {u | ∃ chain, u.WellFormed chain} utxoBytes := by
  rintro u ⟨chain, hu⟩ v ⟨chain', hv⟩ s t h
  have hvalue : ∀ {w : ProofUtxo} {c : Chain}, w.WellFormed c → decimalValue w.value < 2 ^ 64 :=
    fun {w c} hw => lt_of_le_of_lt hw.le (maxMoney_lt c)
  have hvout : ∀ {w : ProofUtxo} {c : Chain}, w.WellFormed c → w.vout < 2 ^ 32 :=
    fun {w c} hw => Nat.lt_succ_of_le hw.vout_le
  unfold utxoBytes at h
  simp only [List.append_assoc] at h
  obtain ⟨htxid, h⟩ := prefixCode_fromHex 32 hu.isHex hv.isHex h
  obtain ⟨hout, h⟩ := prefixCode_u32be (hvout hu) (hvout hv) h
  obtain ⟨hval, h⟩ := prefixCode_u64be (hvalue hu) (hvalue hv) h
  -- a canonical decimal is the one of its value
  have hdec : u.value = v.value := by
    rw [← decimalValue_spec hu.isDecimal, hval, decimalValue_spec hv.isDecimal]
  refine ⟨?_, h⟩
  cases u
  cases v
  simp_all

theorem of_utxoRead_copyUtxo {u' : ProofUtxo} (h : UtxoRead (copyUtxo u) chain u') :
    u' = u ∧ u.WellFormed chain := by
  have htxid : u.txid = u'.txid := Option.some.inj h.txid
  have hvalue : u.value = u'.value := Option.some.inj h.value
  have hvout : (Json.nat u.vout).asNat? maxVout = some u'.vout := h.vout
  have hread : Nat.ofDigitChars 10 (Nat.toDigits 10 u.vout) 0 = u.vout :=
    Nat.ofDigitChars_ten_toDigits
  obtain ⟨hle, heq⟩ : u.vout ≤ maxVout ∧ u.vout = u'.vout := by
    have hsome : (if (Nat.toDigits 10 u.vout).all Char.isDigit ∧
        Nat.ofDigitChars 10 (Nat.toDigits 10 u.vout) 0 ≤ maxVout then
      some (Nat.ofDigitChars 10 (Nat.toDigits 10 u.vout) 0) else none) = some u'.vout := hvout
    rw [hread] at hsome
    split_ifs at hsome with hcond
    exact ⟨hcond.2, Option.some.inj hsome⟩
  refine ⟨?_, ⟨htxid ▸ h.isHex, hle, hvalue ▸ h.isDecimal, hvalue ▸ h.le⟩⟩
  cases u
  cases u'
  simp_all

/-- The outpoints a digest is taken over are well formed, distinct and few. -/
theorem wellFormed_of_utxosOf {read : List ProofUtxo}
    (h : utxosOf (some (.arr (us.map copyUtxo))) chain = .ok read) : WellFormedUtxos chain us := by
  unfold utxosOf at h
  simp only [List.length_map] at h
  split_ifs at h with hzero hmany
  obtain ⟨hread, hnodup, -⟩ := utxosFrom_ok h
  have hboth : read = us ∧ ∀ u ∈ us, u.WellFormed chain := by
    clear h hnodup hzero hmany
    induction us generalizing read with
    | nil => cases hread; exact ⟨rfl, fun _ hu => nomatch hu⟩
    | cons u us ih =>
      cases hread with
      | cons hu hrest =>
        obtain ⟨rfl, hwf⟩ := of_utxoRead_copyUtxo hu
        obtain ⟨rfl, hall⟩ := ih hrest
        exact ⟨rfl, List.forall_mem_cons.mpr ⟨hwf, hall⟩⟩
  obtain ⟨rfl, hwf⟩ := hboth
  exact ⟨hwf, hnodup, fun hnil => hzero (by rw [hnil]; rfl), not_lt.mp hmany⟩

/-! ## The message -/

/-- The message the digest hashes. -/
def digestBytes (matchId : String) (chain : Chain) (net : Net) (pubkey : String)
    (us : List ProofUtxo) : Bytes :=
  fieldBytes matchId ++ fieldBytes chain.name ++ fieldBytes net.name ++ fromHex pubkey ++
    [UInt8.ofNat us.length] ++ us.flatMap utxoBytes

/-- The inputs the digest accepts, and what it is of them. -/
structure Digested (S : Schnorr) (matchId : String) (chain : Chain) (net : Net) (pubkey : String)
    (us : List ProofUtxo) (digest : Bytes) : Prop where
  fits : Fits matchId
  isKey : isHexOf 64 pubkey = true
  utxos : WellFormedUtxos chain us
  eq : digest = S.taggedHash fundsProofTag (digestBytes matchId chain net pubkey us)

theorem lp_ok_iff {s : String} {b : Bytes} : lp s = .ok b ↔ Fits s ∧ b = fieldBytes s := by
  unfold lp Fits fieldBytes u16be
  simp only
  split_ifs with hlong
  · simp [not_le.mpr hlong]
  · rw [Except.ok.injEq, eq_comm]
    simp [not_lt.mp hlong]

theorem digested_of_ok (h : proofDigest S matchId chain net pubkey us = .ok digest) :
    Digested S matchId chain net pubkey us digest := by
  unfold proofDigest at h
  split_ifs at h with hempty hkey
  rw [Bool.not_eq_true', Bool.not_eq_false] at hkey
  cases hutxos : utxosOf (some (.arr (us.map copyUtxo))) chain with
  | error err => rw [hutxos] at h; exact nomatch h
  | ok read =>
    rw [hutxos] at h
    cases hid : lp matchId with
    | error err => rw [hid] at h; exact nomatch h
    | ok a =>
      cases hchain : lp chain.name with
      | error err => rw [hid, hchain] at h; exact nomatch h
      | ok b =>
        cases hnet : lp net.name with
        | error err => rw [hid, hchain, hnet] at h; exact nomatch h
        | ok c =>
          rw [hid, hchain, hnet] at h
          obtain ⟨hfits, rfl⟩ := lp_ok_iff.mp hid
          obtain ⟨-, rfl⟩ := lp_ok_iff.mp hchain
          obtain ⟨-, rfl⟩ := lp_ok_iff.mp hnet
          exact ⟨hfits, hkey, wellFormed_of_utxosOf hutxos, (Except.ok.inj h).symm⟩

theorem fits_chain (c : Chain) : Fits c.name := by
  cases c <;> decide

theorem fits_net (n : Net) : Fits n.name := by
  cases n <;> decide

/-- The message determines its fields. -/
theorem digestBytes_inj {digest' : Bytes} (h : Digested S matchId chain net pubkey us digest)
    (h' : Digested S matchId' chain' net' pubkey' us' digest')
    (heq : digestBytes matchId chain net pubkey us = digestBytes matchId' chain' net' pubkey' us') :
    matchId = matchId' ∧ chain = chain' ∧ net = net' ∧ pubkey = pubkey' ∧ us = us' := by
  unfold digestBytes at heq
  simp only [List.append_assoc, List.cons_append, List.nil_append] at heq
  obtain ⟨hid, heq⟩ := prefixCode_fieldBytes h.fits h'.fits heq
  obtain ⟨hchain, heq⟩ := prefixCode_fieldBytes (fits_chain chain) (fits_chain chain') heq
  obtain ⟨hnet, heq⟩ := prefixCode_fieldBytes (fits_net net) (fits_net net') heq
  obtain ⟨hkey, heq⟩ := prefixCode_fromHex 32 h.isKey h'.isKey heq
  obtain ⟨hcount, heq⟩ := List.cons.inj heq
  -- at most 32 outpoints, so one byte tells their number
  have hlen : us.length = us'.length := by
    have hmod := mod_eq_of_byte hcount
    have hle := h.utxos.length_le
    have hle' := h'.utxos.length_le
    unfold maxProofUtxos at hle hle'
    omega
  obtain ⟨hus, -⟩ := prefixCode_utxoBytes.flatMap_append (s := []) (t := [])
    (fun u hu => ⟨chain, h.utxos.each u hu⟩) (fun u hu => ⟨chain', h'.utxos.each u hu⟩) hlen
    (by rw [heq])
  exact ⟨hid, Chain.name_injective hchain, Net.name_injective hnet, hkey, hus⟩

/-! ## The signature -/

/-- An accepted proof has a digest that its signature verifies for. -/
theorem verifies_of_verifyFundsProof {v : Json} {proof : FundsProof} {required : ℤ}
    {esplora : Esplora} {check : ProofCheck} (hread : fundsProofOf v = .ok proof)
    (h : verifyFundsProof S v matchId required esplora = .ok check) (hok : check.ok = true) :
    ∃ digest, proofDigest S matchId proof.chain proof.net proof.pubkey proof.utxos = .ok digest ∧
      S.verify (fromHex proof.sig) digest (fromHex proof.pubkey) = true := by
  unfold verifyFundsProof at h
  rw [hread] at h
  simp only at h
  split_ifs at h with hnet hreq hsig
  · obtain rfl := Except.ok.inj h
    exact absurd hok (by simp)
  · obtain rfl := Except.ok.inj h
    exact absurd hok (by simp)
  all_goals
    cases hd : proofDigest S matchId proof.chain proof.net proof.pubkey proof.utxos with
    | error err => rw [hd] at hsig; simp at hsig
    | ok digest =>
      rw [hd] at hsig
      simp only [Bool.not_eq_true', Bool.not_eq_false] at hsig
      exact ⟨digest, rfl, hsig⟩

/-- What a digest stands for: no other fields have it, and where the key's holder signed nothing
else, no proof under the key is accepted for another match, network or list of outpoints. -/
structure Binds (S : Schnorr) (matchId : String) (chain : Chain) (net : Net) (pubkey : String)
    (us : List ProofUtxo) (digest : Bytes) : Prop where
  fields : ∀ matchId' chain' net' pubkey' us',
    proofDigest S matchId' chain' net' pubkey' us' = .ok digest →
      matchId' = matchId ∧ chain' = chain ∧ net' = net ∧ pubkey' = pubkey ∧ us' = us
  signature : (∀ sig message, S.verify sig message (fromHex pubkey) = true → message = digest) →
    ∀ v proof matchId' required esplora check, fundsProofOf v = .ok proof → proof.pubkey = pubkey →
      verifyFundsProof S v matchId' required esplora = .ok check → check.ok = true →
        matchId' = matchId ∧ proof.chain = chain ∧ proof.net = net ∧ proof.utxos = us

/-- **The digest binds every field**, with collision-free tagged hashes. -/
theorem proofDigest_binds (hS : Function.Injective (S.taggedHash fundsProofTag))
    (h : proofDigest S matchId chain net pubkey us = .ok digest) :
    Binds S matchId chain net pubkey us digest := by
  have hfields : ∀ matchId' chain' net' pubkey' us',
      proofDigest S matchId' chain' net' pubkey' us' = .ok digest →
        matchId' = matchId ∧ chain' = chain ∧ net' = net ∧ pubkey' = pubkey ∧ us' = us := by
    intro matchId' chain' net' pubkey' us' h'
    have hd := digested_of_ok h
    have hd' := digested_of_ok h'
    exact digestBytes_inj hd' hd (hS (hd'.eq.symm.trans hd.eq))
  refine ⟨hfields, ?_⟩
  intro hsigned v proof matchId' required esplora check hread hkey hcheck hok
  obtain ⟨digest', hdigest, hverify⟩ := verifies_of_verifyFundsProof hread hcheck hok
  rw [hkey] at hverify
  obtain rfl := hsigned _ _ hverify
  obtain ⟨hid, hchain, hnet, -, hus⟩ := hfields _ _ _ _ _ hdigest
  exact ⟨hid, hchain, hnet, hus⟩

/-- One outpoint of one base unit. -/
def unitUtxo : ProofUtxo := ⟨String.ofList (List.replicate 64 'a'), 0, "1"⟩

theorem wellFormed_unitUtxo : WellFormedUtxos .bitcoin [unitUtxo] where
  each := by
    intro u hu
    obtain rfl := List.mem_singleton.mp hu
    exact ⟨by decide, by decide, by decide, by decide⟩
  nodup := List.nodup_singleton _
  nonempty := List.cons_ne_nil _ _
  length_le := by decide

/-- A platform on which the key signed the digest of that outpoint and nothing else. -/
def unitSchnorr : Schnorr :=
  { plainSchnorr with
    verify := fun _ message _ =>
      decide (message = digestBytes "match" .bitcoin .regtest unitUtxo.txid [unitUtxo]) }

theorem proofDigest_binds_unitUtxo : ∃ digest,
    proofDigest unitSchnorr "match" .bitcoin .regtest unitUtxo.txid [unitUtxo] = .ok digest ∧
      (∀ sig message, unitSchnorr.verify sig message (fromHex unitUtxo.txid) = true →
        message = digest) ∧
        Binds unitSchnorr "match" .bitcoin .regtest unitUtxo.txid [unitUtxo] digest := by
  obtain ⟨digest, h⟩ : ∃ digest,
      proofDigest unitSchnorr "match" .bitcoin .regtest unitUtxo.txid [unitUtxo] = .ok digest :=
    proofDigest_ok unitSchnorr .regtest ⟨by decide, by decide⟩ (by decide) wellFormed_unitUtxo
  refine ⟨digest, h, fun sig message hverify => ?_, proofDigest_binds (fun _ _ heq => heq) h⟩
  rw [(digested_of_ok h).eq]
  exact of_decide_eq_true hverify

end Gavl
