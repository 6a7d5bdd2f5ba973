import Gavl.Swap.Proof
import Mathlib.Tactic

/-!
# What a well-formed proof of funds is

What the shape check of a proof leaves: between one and 32 outpoints, no two the same, each with a
canonical value that money of its chain can have.
-/

namespace Gavl

variable {v : Json} {u : ProofUtxo} {us : List ProofUtxo} {proof : FundsProof} {chain : Chain}

/-- An outpoint read from `v`. -/
structure UtxoRead (v : Json) (chain : Chain) (u : ProofUtxo) : Prop where
  keys : ∃ keys, v.keys? = some keys ∧ Json.joinedKeys keys = "txid,value,vout"
  txid : v.string? "txid" = some u.txid
  vout : (v.get? "vout").bind (Json.asNat? maxVout) = some u.vout
  value : v.string? "value" = some u.value
  isHex : isHexOf 64 u.txid = true
  isDecimal : isDecimal 16 u.value = true
  le : decimalValue u.value ≤ maxMoney chain

theorem utxoOf_ok {i : ℕ} (h : utxoOf v i chain = .ok u) : UtxoRead v chain u := by
  unfold utxoOf at h
  cases hkeys : v.keys? with
  | none => rw [hkeys] at h; exact absurd h (by simp)
  | some keys =>
    rw [hkeys] at h
    simp only at h
    by_cases hjoined : Json.joinedKeys keys = "txid,value,vout"
    · rw [if_neg (not_not.mpr hjoined)] at h
      cases htxid : (v.string? "txid").filter (isHexOf 64) with
      | none => rw [htxid] at h; exact absurd h (by simp)
      | some txid =>
        cases hvout : (v.get? "vout").bind (Json.asNat? maxVout) with
        | none => rw [htxid, hvout] at h; exact absurd h (by simp)
        | some vout =>
          cases hvalue : (v.string? "value").filter
            (fun s => Gavl.isDecimal 16 s && decide (decimalValue s ≤ maxMoney chain)) with
          | none => rw [htxid, hvout, hvalue] at h; exact absurd h (by simp)
          | some value =>
            rw [htxid, hvout, hvalue] at h
            obtain rfl := Except.ok.inj h
            obtain ⟨htxid, hhex⟩ := Option.filter_eq_some_iff.mp htxid
            obtain ⟨hvalue, hdec⟩ := Option.filter_eq_some_iff.mp hvalue
            rw [Bool.and_eq_true, decide_eq_true_eq] at hdec
            exact ⟨⟨keys, hkeys, hjoined⟩, htxid, hvout, hvalue, hhex, hdec.1, hdec.2⟩
    · rw [if_pos hjoined] at h
      exact absurd h (by simp)

/-- The outpoints are read one by one, none of them twice. -/
theorem utxosFrom_ok : ∀ {items : List Json} {us : List ProofUtxo} {i : ℕ} {seen : List String},
    utxosFrom chain i seen items = .ok us →
      List.Forall₂ (fun v u => UtxoRead v chain u) items us ∧ (us.map ProofUtxo.key).Nodup ∧
        ∀ u ∈ us, u.key ∉ seen := by
  intro items
  induction items with
  | nil =>
    intro us i seen h
    obtain rfl := Except.ok.inj h
    simp
  | cons v items ih =>
    intro us i seen h
    rw [utxosFrom] at h
    cases hu : utxoOf v i chain with
    | error e => rw [hu] at h; exact absurd h (by simp)
    | ok u =>
      rw [hu] at h
      simp only at h
      split_ifs at h with hseen
      cases hrest : utxosFrom chain (i + 1) (u.key :: seen) items with
      | error e => rw [hrest] at h; exact absurd h (by simp [Except.map])
      | ok rest =>
        rw [hrest] at h
        obtain rfl := Except.ok.inj h
        obtain ⟨hread, hnd, hnew⟩ := ih hrest
        refine ⟨.cons (utxoOf_ok hu) hread, ?_, List.forall_mem_cons.mpr ⟨hseen, fun x hx => ?_⟩⟩
        · rw [List.map_cons, List.nodup_cons]
          refine ⟨fun hmem => ?_, hnd⟩
          obtain ⟨x, hx, hkey⟩ := List.mem_map.mp hmem
          exact hnew x hx (by rw [hkey]; exact List.mem_cons_self)
        · exact fun hmem => hnew x hx (List.mem_cons_of_mem _ hmem)

/-- A proof read from `v`. -/
structure ProofRead (v : Json) (proof : FundsProof) : Prop where
  keys : ∃ keys, v.keys? = some keys ∧ Json.joinedKeys keys = "chain,net,pubkey,sig,utxos"
  chain : (v.string? "chain").bind Chain.ofName? = some proof.chain
  net : (v.string? "net").bind Net.ofName? = some proof.net
  pubkey : v.string? "pubkey" = some proof.pubkey
  sig : v.string? "sig" = some proof.sig
  isKey : isHexOf 64 proof.pubkey = true
  isSig : isHexOf 128 proof.sig = true
  utxos : ∃ items, v.get? "utxos" = some (.arr items) ∧
    List.Forall₂ (fun v u => UtxoRead v proof.chain u) items proof.utxos
  nodup : (proof.utxos.map ProofUtxo.key).Nodup
  nonempty : proof.utxos ≠ []
  length_le : proof.utxos.length ≤ maxProofUtxos

theorem fundsProofOf_ok (h : fundsProofOf v = .ok proof) : ProofRead v proof := by
  unfold fundsProofOf at h
  cases hkeys : v.keys? with
  | none => rw [hkeys] at h; exact absurd h (by simp)
  | some keys =>
    rw [hkeys] at h
    simp only at h
    by_cases hjoined : Json.joinedKeys keys = "chain,net,pubkey,sig,utxos"
    · rw [if_neg (not_not.mpr hjoined)] at h
      cases hchain : (v.string? "chain").bind Chain.ofName? with
      | none => rw [hchain] at h; exact absurd h (by simp)
      | some chain =>
        cases hnet : (v.string? "net").bind Net.ofName? with
        | none => rw [hchain, hnet] at h; exact absurd h (by simp)
        | some net =>
          cases hpubkey : (v.string? "pubkey").filter (isHexOf 64) with
          | none => rw [hchain, hnet, hpubkey] at h; exact absurd h (by simp)
          | some pubkey =>
            cases hsig : (v.string? "sig").filter (isHexOf 128) with
            | none => rw [hchain, hnet, hpubkey, hsig] at h; exact absurd h (by simp)
            | some sig =>
              rw [hchain, hnet, hpubkey, hsig] at h
              simp only at h
              cases hutxos : utxosOf (v.get? "utxos") chain with
              | error e => rw [hutxos] at h; exact absurd h (by simp [Except.map])
              | ok us =>
                rw [hutxos] at h
                obtain rfl := Except.ok.inj h
                obtain ⟨hpubkey, hkey⟩ := Option.filter_eq_some_iff.mp hpubkey
                obtain ⟨hsig, hsig'⟩ := Option.filter_eq_some_iff.mp hsig
                unfold utxosOf at hutxos
                split at hutxos
                · rename_i items hitems
                  split_ifs at hutxos with hzero hmany
                  obtain ⟨hread, hnd, -⟩ := utxosFrom_ok hutxos
                  have hlen := hread.length_eq
                  refine ⟨⟨keys, hkeys, hjoined⟩, hchain, hnet, hpubkey, hsig, hkey, hsig',
                    ⟨items, hitems, hread⟩, hnd, fun hnil => hzero ?_, ?_⟩
                  · have hus : us = [] := hnil
                    rw [hlen, hus, List.length_nil]
                  · show us.length ≤ maxProofUtxos
                    omega
                · exact absurd hutxos (by simp)
    · rw [if_pos hjoined] at h
      exact absurd h (by simp)

end Gavl
