import Gavl.Lib.Decimal
import Gavl.Market.Payload
import Gavl.Swap.Digest
import Gavl.Swap.ProofTheorems

/-!
# What a proof of funds signs and names

A well-formed proof reads back from its payload, its digest exists, and the keys of its outpoints
tell coins apart.
-/

namespace Gavl

open Json

/-! ## Well-formed outpoints -/

/-- An outpoint a proof on `chain` may list. -/
structure ProofUtxo.WellFormed (chain : Chain) (u : ProofUtxo) : Prop where
  isHex : isHexOf 64 u.txid = true
  vout_le : u.vout ≤ maxVout
  isDecimal : isDecimal 16 u.value = true
  le : decimalValue u.value ≤ maxMoney chain

/-- Outpoints that make up a proof on `chain`. -/
structure WellFormedUtxos (chain : Chain) (us : List ProofUtxo) : Prop where
  each : ∀ u ∈ us, u.WellFormed chain
  nodup : (us.map ProofUtxo.key).Nodup
  nonempty : us ≠ []
  length_le : us.length ≤ maxProofUtxos

variable {chain : Chain} {u : ProofUtxo} {us : List ProofUtxo}

theorem asNat?_nat {n max : ℕ} (h : n ≤ max) : (Json.nat n).asNat? max = some n := by
  have hread : Nat.ofDigitChars 10 (Nat.toDigits 10 n) 0 = n := Nat.ofDigitChars_ten_toDigits
  show (if (Nat.toDigits 10 n).all Char.isDigit ∧ Nat.ofDigitChars 10 (Nat.toDigits 10 n) 0 ≤ max then
    some (Nat.ofDigitChars 10 (Nat.toDigits 10 n) 0) else none) = some n
  rw [hread, if_pos ⟨Decimal.all_isDigit_toDigits n, h⟩]

theorem utxoOf_copyUtxo (h : u.WellFormed chain) (i : ℕ) : utxoOf (copyUtxo u) i chain = .ok u := by
  have hkeys : (copyUtxo u).keys? = some ["txid", "vout", "value"] := rfl
  have hjoined : joinedKeys ["txid", "vout", "value"] = "txid,value,vout" := by decide
  have htxid : ((copyUtxo u).string? "txid").filter (isHexOf 64) = some u.txid := by
    show (some u.txid).filter (isHexOf 64) = _
    rw [Option.filter_some, h.isHex]
    rfl
  have hvout : ((copyUtxo u).get? "vout").bind (asNat? maxVout) = some u.vout := asNat?_nat h.vout_le
  have hvalue : ((copyUtxo u).string? "value").filter
      (fun v => Gavl.isDecimal 16 v && decide (decimalValue v ≤ maxMoney chain)) = some u.value := by
    show (some u.value).filter _ = _
    rw [Option.filter_some, h.isDecimal, decide_eq_true h.le]
    rfl
  unfold utxoOf
  rw [hkeys]
  simp only
  rw [hjoined, if_neg (not_not.mpr rfl), htxid, hvout, hvalue]

theorem utxosFrom_copyUtxos : ∀ {us : List ProofUtxo} {i : ℕ} {seen : List String},
    (∀ u ∈ us, u.WellFormed chain) → (us.map ProofUtxo.key).Nodup → (∀ u ∈ us, u.key ∉ seen) →
      utxosFrom chain i seen (us.map copyUtxo) = .ok us := by
  intro us
  induction us with
  | nil => exact fun _ _ _ => rfl
  | cons u us ih =>
    intro i seen hwf hnd hseen
    obtain ⟨hu, hwf⟩ := List.forall_mem_cons.mp hwf
    obtain ⟨hnew, hseen⟩ := List.forall_mem_cons.mp hseen
    obtain ⟨hkey, hnd⟩ := List.nodup_cons.mp hnd
    have hrest : ∀ v ∈ us, v.key ∉ u.key :: seen := fun v hv hmem => by
      rcases List.mem_cons.mp hmem with heq | hmem
      · exact hkey (heq ▸ List.mem_map_of_mem hv)
      · exact hseen v hv hmem
    rw [List.map_cons, utxosFrom, utxoOf_copyUtxo hu]
    simp only
    rw [if_neg hnew, ih hwf hnd hrest]
    rfl

theorem utxosOf_copyUtxos (h : WellFormedUtxos chain us) :
    utxosOf (some (.arr (us.map copyUtxo))) chain = .ok us := by
  have hlen : us.length ≠ 0 := fun h0 => h.nonempty (List.eq_nil_of_length_eq_zero h0)
  unfold utxosOf
  simp only [List.length_map]
  rw [if_neg hlen, if_neg (not_lt.mpr h.length_le),
    utxosFrom_copyUtxos h.each h.nodup fun _ _ => List.not_mem_nil]

theorem isDecimal_toDigits {n k : ℕ} (hpos : 0 < n) (hlt : n < 10 ^ k) :
    isDecimal k (String.ofList (Nat.toDigits 10 n)) = true := by
  have hall := Decimal.all_isDigit_toDigits n
  have hhead := Decimal.head?_toDigits hpos
  have hk : 0 < k := by
    rcases Nat.eq_zero_or_pos k with rfl | hk
    · omega
    · exact hk
  have hlen : (Nat.toDigits 10 n).length ≤ k := Nat.toDigits_length 10 n k hk hlt
  unfold isDecimal
  rw [String.toList_ofList]
  cases hd : Nat.toDigits 10 n with
  | nil =>
    have := Nat.length_toDigits_pos (b := 10) (n := n)
    rw [hd] at this
    exact absurd this (by decide)
  | cons c rest =>
    rw [hd] at hall hhead hlen
    rw [List.all_cons, Bool.and_eq_true] at hall
    have hc : c ≠ '0' := fun h => hhead (by rw [h]; rfl)
    simp only [hall.1, hall.2, hc, Bool.true_and, decide_true, ne_eq, not_false_eq_true,
      decide_eq_true_eq]
    exact hlen

theorem decimalValue_toDigits (n : ℕ) : decimalValue (String.ofList (Nat.toDigits 10 n)) = n := by
  unfold decimalValue
  rw [String.toList_ofList]
  exact Nat.ofDigitChars_ten_toDigits

/-! ## The digest and its signature -/

theorem isHexOf_toHex (b : Bytes) : isHexOf (2 * b.length) (toHex b) = true := by
  have hdigit : ∀ n : Fin 16, ((hexChar n).isDigit ||
      (decide ('a' ≤ hexChar n) && decide (hexChar n ≤ 'f'))) = true := by decide
  unfold isHexOf toHex
  rw [String.toList_ofList, Bool.and_eq_true, decide_eq_true_eq, List.all_eq_true]
  constructor
  · induction b with
    | nil => rfl
    | cons x b ih =>
      rw [List.flatMap_cons, List.length_append, ih, List.length_cons]
      show 2 + 2 * b.length = 2 * (b.length + 1)
      omega
  · intro c hc
    obtain ⟨x, -, hx⟩ := List.mem_flatMap.mp hc
    have hlt := x.toNat_lt
    rcases List.mem_cons.mp hx with rfl | hx
    · exact hdigit ⟨x.toNat / 16, by omega⟩
    · rw [List.mem_singleton.mp hx]
      exact hdigit ⟨x.toNat % 16, by omega⟩

/-- Signatures under `key` are as long as BIP340 makes them, and verify. -/
structure Schnorr.Signs (S : Schnorr) (key : Bytes) : Prop where
  length_getPublicKey : (S.getPublicKey key).length = 32
  length_sign : ∀ message, (S.sign message key).length = 64
  verify_sign : ∀ message, S.verify (S.sign message key) message (S.getPublicKey key) = true

/-- A platform that signs everything alike. -/
def plainSchnorr : Schnorr where
  getPublicKey _ := List.replicate 32 2
  sign _ _ := List.replicate 64 1
  verify sig _ _ := decide (sig = List.replicate 64 1)
  taggedHash _ data := data
  p2trAddress pubkey _ _ := toHex pubkey

theorem signs_plainSchnorr (key : Bytes) : plainSchnorr.Signs key :=
  ⟨List.length_replicate, fun _ => List.length_replicate, fun _ => rfl⟩

/-- A match id the digest takes: not empty, its UTF-8 at most 65535 bytes long. -/
structure DigestId (matchId : String) : Prop where
  ne_empty : matchId ≠ ""
  length_le : (utf8 matchId.toList).length ≤ 0xffff

variable {S : Schnorr} {matchId pubkey : String} {net : Net}

theorem lp_ok {s : String} (h : (utf8 s.toList).length ≤ 0xffff) : ∃ b, lp s = .ok b :=
  ⟨_, if_neg (not_lt.mpr h)⟩

theorem lp_chain (c : Chain) : ∃ b, lp c.name = .ok b := by
  apply lp_ok
  cases c <;> decide

theorem lp_net (n : Net) : ∃ b, lp n.name = .ok b := by
  apply lp_ok
  cases n <;> decide

theorem proofDigest_ok (S : Schnorr) (net : Net) (hid : DigestId matchId)
    (hkey : isHexOf 64 pubkey = true) (h : WellFormedUtxos chain us) :
    ∃ digest, proofDigest S matchId chain net pubkey us = .ok digest := by
  obtain ⟨a, ha⟩ := lp_ok hid.length_le
  obtain ⟨b, hb⟩ := lp_chain chain
  obtain ⟨c, hc⟩ := lp_net net
  unfold proofDigest
  rw [if_neg hid.ne_empty, hkey, utxosOf_copyUtxos h, ha, hb, hc]
  exact ⟨_, rfl⟩

/-- A signature of a digest under `key`. -/
structure Signed (S : Schnorr) (key : Bytes) (matchId : String) (proof : FundsProof) : Prop where
  pubkey : proof.pubkey = toHex (S.getPublicKey key)
  sig : ∃ digest, proofDigest S matchId proof.chain proof.net proof.pubkey proof.utxos = .ok digest ∧
    proof.sig = toHex (S.sign digest key)

theorem signFundsProof_ok {key : Bytes} {proof : FundsProof}
    (h : signFundsProof S key matchId chain net us = .ok proof) :
    Signed S key matchId proof ∧ proof.chain = chain ∧ proof.net = net ∧ proof.utxos = us := by
  unfold signFundsProof at h
  simp only at h
  cases hdigest : proofDigest S matchId chain net (toHex (S.getPublicKey key)) us with
  | error err =>
    rw [hdigest] at h
    exact absurd h (by simp [bind, Except.bind])
  | ok digest =>
    rw [hdigest] at h
    obtain rfl := Except.ok.inj h
    exact ⟨⟨rfl, digest, hdigest, rfl⟩, rfl, rfl, rfl⟩

theorem signFundsProof_of_digest {key digest : Bytes}
    (h : proofDigest S matchId chain net (toHex (S.getPublicKey key)) us = .ok digest) :
    ∃ proof, signFundsProof S key matchId chain net us = .ok proof := by
  unfold signFundsProof
  simp only
  rw [h]
  exact ⟨_, rfl⟩

theorem isHexOf_pubkey {key : Bytes} (hS : S.Signs key) :
    isHexOf 64 (toHex (S.getPublicKey key)) = true := by
  have := isHexOf_toHex (S.getPublicKey key)
  rwa [hS.length_getPublicKey] at this

/-! ## A proof as its own payload -/

/-- A proof with the shape the check asks for. -/
structure FundsProof.WellFormed (proof : FundsProof) : Prop where
  isKey : isHexOf 64 proof.pubkey = true
  isSig : isHexOf 128 proof.sig = true
  utxos : WellFormedUtxos proof.chain proof.utxos

theorem fundsProofOf_copyProof {proof : FundsProof} (h : proof.WellFormed) :
    fundsProofOf (copyProof proof) = .ok proof := by
  have hkeys : (copyProof proof).keys? = some ["chain", "net", "pubkey", "utxos", "sig"] := rfl
  have hjoined : joinedKeys ["chain", "net", "pubkey", "utxos", "sig"]
      = "chain,net,pubkey,sig,utxos" := by decide
  have hchain : ((copyProof proof).string? "chain").bind Chain.ofName? = some proof.chain := by
    show Chain.ofName? proof.chain.name = _
    cases proof.chain <;> rfl
  have hnet : ((copyProof proof).string? "net").bind Net.ofName? = some proof.net := by
    show Net.ofName? proof.net.name = _
    cases proof.net <;> rfl
  have hpubkey : ((copyProof proof).string? "pubkey").filter (isHexOf 64) = some proof.pubkey := by
    show (some proof.pubkey).filter (isHexOf 64) = _
    rw [Option.filter_some, h.isKey]
    rfl
  have hsig : ((copyProof proof).string? "sig").filter (isHexOf 128) = some proof.sig := by
    show (some proof.sig).filter (isHexOf 128) = _
    rw [Option.filter_some, h.isSig]
    rfl
  have hutxos : (copyProof proof).get? "utxos" = some (.arr (proof.utxos.map copyUtxo)) := rfl
  unfold fundsProofOf
  rw [hkeys]
  simp only
  rw [hjoined, if_neg (not_not.mpr rfl), hchain, hnet, hpubkey, hsig, hutxos]
  simp only
  rw [utxosOf_copyUtxos h.utxos]
  rfl

/-! ## The explorer's listing -/

/-- What an explorer lists: distinct outpoints, each with a value money can have. -/
structure IsListing (chain : Chain) (listed : List EsploraUtxo) : Prop where
  nodup : (listed.map EsploraUtxo.outpoint).Nodup
  isHex : ∀ u ∈ listed, isHexOf 64 u.txid = true
  vout_le : ∀ u ∈ listed, u.vout ≤ maxVout
  value_pos : ∀ u ∈ listed, 1 ≤ u.value
  value_le : ∀ u ∈ listed, u.value ≤ maxMoney chain

variable {listed : List EsploraUtxo} {c : EsploraUtxo}

theorem length_of_isHexOf {n : ℕ} {s : String} (h : isHexOf n s = true) : s.toList.length = n := by
  unfold isHexOf at h
  rw [Bool.and_eq_true, decide_eq_true_eq] at h
  exact h.1

/-- Two texts of one length, each with a number behind a colon. -/
theorem colon_injective {a b : String} {v w : ℕ} (hlen : a.toList.length = b.toList.length)
    (h : s!"{a}:{v}" = s!"{b}:{w}") : a = b ∧ v = w := by
  have hlists := congrArg String.toList h
  simp only [String.toList_append, List.append_assoc] at hlists
  obtain ⟨hids, hrest⟩ := List.append_inj hlists hlen
  obtain ⟨-, hdigits⟩ := List.append_inj hrest rfl
  refine ⟨String.toList_injective hids, ?_⟩
  have hv : ∀ n : ℕ, Nat.ofDigitChars 10 (toString n).toList 0 = n := fun n => by
    show Nat.ofDigitChars 10 (String.ofList (Nat.toDigits 10 n)).toList 0 = n
    rw [String.toList_ofList]
    exact Nat.ofDigitChars_ten_toDigits
  rw [← hv v, ← hv w, hdigits]

/-- Transaction ids are of one length, so a key reads back as its outpoint. -/
theorem key_injective {a b : String} {v w : ℕ} (ha : isHexOf 64 a = true) (hb : isHexOf 64 b = true)
    (h : s!"{a}:{v}" = s!"{b}:{w}") : a = b ∧ v = w :=
  colon_injective ((length_of_isHexOf ha).trans (length_of_isHexOf hb).symm) h

theorem nodup_keys (h : IsListing chain listed) : (listed.map EsploraUtxo.key).Nodup := by
  have hpairs : (listed.map EsploraUtxo.outpoint).Pairwise (fun a b => a ≠ b) := h.nodup
  rw [List.pairwise_map] at hpairs
  unfold List.Nodup
  rw [List.pairwise_map]
  refine hpairs.imp_of_mem fun {a b} ha hb hne heq => hne ?_
  obtain ⟨htxid, hvout⟩ := key_injective (h.isHex a ha) (h.isHex b hb) heq
  exact Prod.ext htxid hvout

/-- The map of listed values is the listing. -/
theorem get?_liveValues (h : IsListing chain listed) {key : String} {value : ℕ} :
    (liveValues listed).get? key = some value ↔ ∃ c ∈ listed, c.key = key ∧ c.value = value := by
  have hkeys : ((listed.map fun c => (c.key, c.value)).map Prod.fst).Nodup := by
    rw [List.map_map]
    exact nodup_keys h
  have hentries : (liveValues listed).entries = listed.map fun c => (c.key, c.value) := by
    rw [← OrderedMap.entries_foldl_set hkeys, List.foldl_map]
    rfl
  rw [OrderedMap.get?_eq_some_iff, hentries, List.mem_map]
  simp only [Prod.mk.injEq]

/-- No outpoint is refused exactly when each is listed at the value the proof claims. -/
theorem utxosMismatch_eq_none {live : OrderedMap String ℕ} {address : String} :
    utxosMismatch live address us = none ↔
      ∀ u ∈ us, live.get? u.key = some (decimalValue u.value) := by
  induction us with
  | nil => exact iff_of_true rfl fun u hu => absurd hu List.not_mem_nil
  | cons u us ih =>
    rw [List.forall_mem_cons, utxosMismatch]
    cases hu : live.get? u.key with
    | none => simp
    | some value =>
      by_cases hvalue : value = decimalValue u.value
      · simp only [hvalue, ne_eq, not_true_eq_false, if_false, true_and]
        exact ih
      · simp [hvalue]

/-- The outpoint a proof names. -/
def ProofUtxo.outpoint (u : ProofUtxo) : String × ℕ := (u.txid, u.vout)

/-- The listed coins some outpoints of a proof stand for. -/
structure StandsFor (listed : List EsploraUtxo) (us : List ProofUtxo) (coins : List EsploraUtxo) :
    Prop where
  subset : coins ⊆ listed
  outpoints : coins.map EsploraUtxo.outpoint = us.map ProofUtxo.outpoint
  values : coins.map (fun c => c.value) = us.map (fun u => decimalValue u.value)

theorem exists_standsFor : ∀ {us : List ProofUtxo},
    (∀ u ∈ us, ∃ c ∈ listed, c.outpoint = u.outpoint ∧ c.value = decimalValue u.value) →
      ∃ coins, StandsFor listed us coins := by
  intro us
  induction us with
  | nil => exact fun _ => ⟨[], List.nil_subset _, rfl, rfl⟩
  | cons u us ih =>
    intro h
    obtain ⟨⟨c, hc, hout, hvalue⟩, h⟩ := List.forall_mem_cons.mp h
    obtain ⟨coins, hcoins⟩ := ih h
    refine ⟨c :: coins, List.cons_subset.mpr ⟨hc, hcoins.subset⟩, ?_, ?_⟩
    · rw [List.map_cons, List.map_cons, hout, hcoins.outpoints]
    · rw [List.map_cons, List.map_cons, hvalue, hcoins.values]

theorem ProofRead.isHex {v : Json} {proof : FundsProof} (h : ProofRead v proof) :
    ∀ u ∈ proof.utxos, isHexOf 64 u.txid = true := by
  intro u hu
  obtain ⟨items, -, hutxos⟩ := h.utxos
  obtain ⟨i, hi, rfl⟩ := List.mem_iff_getElem.mp hu
  exact (hutxos.get (hutxos.length_eq ▸ hi) hi).isHex

theorem ProofRead.nodup_outpoints {v : Json} {proof : FundsProof} (h : ProofRead v proof) :
    (proof.utxos.map ProofUtxo.outpoint).Nodup := by
  have hpairs := h.nodup
  unfold List.Nodup at hpairs ⊢
  rw [List.pairwise_map] at hpairs ⊢
  refine hpairs.imp fun {a b} hne heq => hne ?_
  obtain ⟨htxid, hvout⟩ := Prod.mk.inj heq
  show s!"{a.txid}:{a.vout}" = s!"{b.txid}:{b.vout}"
  rw [htxid, hvout]

/-- Outpoints no mismatch is found for are listed, at the values claimed. -/
theorem standsFor_of_utxosMismatch {address : String} (hl : IsListing chain listed)
    (hhex : ∀ u ∈ us, isHexOf 64 u.txid = true)
    (h : utxosMismatch (liveValues listed) address us = none) :
    ∃ coins, StandsFor listed us coins := by
  rw [utxosMismatch_eq_none] at h
  apply exists_standsFor
  intro u hu
  obtain ⟨c, hc, hkey, hvalue⟩ := (get?_liveValues hl).mp (h u hu)
  obtain ⟨htxid, hvout⟩ := key_injective (hl.isHex c hc) (hhex u hu) hkey
  exact ⟨c, hc, Prod.ext htxid hvout, hvalue⟩

end Gavl
