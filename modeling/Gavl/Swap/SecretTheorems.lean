import Gavl.Swap.BindingTheorems
import Gavl.Swap.SessionTheorems

/-!
# What a claim reveals

A claim of the maker's HTLC carries the secret in its witness, as validation accepts it. The engine
looks for it there in one shape only: four elements, the secret 32 bytes long.
-/

namespace Gavl

open Tapscript

/-- A witness that validation accepts as a spend through the claim leaf of an HTLC. -/
structure IsClaim (V : Env) (htlc : Htlc) (witness : List Bytes) : Prop where
  accepts : Tapscript.accepts V witness = true
  leaf : ∃ control stack, (dropAnnex witness).reverse = control :: htlc.claimLeaf :: stack

variable {L : SwapLib} {V : Env} {p : HtlcParams} {hp : Htlc} {witness : List Bytes}

/-! ## Validation -/

/-- The stack a claim leaf leaves a single element of. -/
theorem stack_of_exec_claimLeafOps {st : List Bytes} {top : Bytes}
    (h : exec V (claimLeafOps p) st = some [top]) :
    ∃ x sig, st = [x, sig] ∧ V.sha256 x = p.hash := by
  obtain _ | ⟨x, _ | ⟨sig, rest⟩⟩ := st
  · simp [exec, claimLeafOps, Op.run] at h
  · by_cases hx : p.hash = V.sha256 x <;> simp [exec, claimLeafOps, Op.run, hx] at h
  · by_cases hx : p.hash = V.sha256 x
    · refine ⟨x, sig, ?_, hx.symm⟩
      simp only [exec, claimLeafOps, Op.run, Option.bind_some, hx, if_true] at h
      split_ifs at h <;> simp_all
    · simp [exec, claimLeafOps, Op.run, hx] at h

/-- An accepted claim: a signature, a preimage of the hash, the leaf and its control block. -/
theorem IsClaim.witness_eq (h : IsClaim V hp witness) (hhp : htlcScript L p = .ok hp) :
    ∃ sig x control, dropAnnex witness = [sig, x, hp.claimLeaf, control] ∧
      x.length ≤ maxElement ∧ V.sha256 x = p.hash := by
  obtain ⟨haccepts, control, stack, hrev⟩ := h
  have hparse : parse hp.claimLeaf = some (claimLeafOps p) := by
    rw [(htlcScript_eq hhp).1]
    exact parse_encode (direct_claimLeafOps (valid_of_htlcScript hhp))
  unfold Tapscript.accepts at haccepts
  rw [hrev] at haccepts
  simp only [hparse, Option.bind_some, Bool.and_eq_true, List.all_eq_true, decide_eq_true_eq]
    at haccepts
  obtain ⟨⟨-, hsmall⟩, hexec⟩ := haccepts
  -- validation asks for a single element left
  obtain ⟨top, hleft⟩ : ∃ top, exec V (claimLeafOps p) stack = some [top] := by
    cases hrun : exec V (claimLeafOps p) stack with
    | none =>
      rw [hrun] at hexec
      cases hexec
    | some st =>
      rw [hrun] at hexec
      obtain _ | ⟨top, _ | ⟨second, rest⟩⟩ := st
      · cases hexec
      · exact ⟨top, rfl⟩
      · cases hexec
  obtain ⟨x, sig, rfl, hx⟩ := stack_of_exec_claimLeafOps hleft
  refine ⟨sig, x, control, ?_, hsmall x List.mem_cons_self, hx⟩
  rw [← List.reverse_reverse (dropAnnex witness), hrev]
  rfl

/-- A witness is what is left without its annex, or that and the annex. -/
theorem dropAnnex_cases (witness : List Bytes) :
    dropAnnex witness = witness ∨ ∃ annex, witness = dropAnnex witness ++ [annex] := by
  unfold dropAnnex
  split_ifs with h
  · have hne : witness ≠ [] := by
      rintro rfl
      exact absurd h.1 (by decide)
    exact Or.inr ⟨witness.getLast hne, (List.dropLast_append_getLast hne).symm⟩
  · exact Or.inl rfl

/-! ## The extractor -/

theorem all_hexDigit?_toHex (b : Bytes) :
    (toHex b).toList.all (fun c => (hexDigit? c).isSome) = true := by
  unfold toHex
  rw [String.toList_ofList, List.all_eq_true]
  intro c hc
  obtain ⟨x, -, hx⟩ := List.mem_flatMap.mp hc
  have hlt := x.toNat_lt
  obtain rfl | hx := List.mem_cons.mp hx
  · rw [hexDigit?_hexChar (by omega)]
    rfl
  · rw [List.mem_singleton.mp hx, hexDigit?_hexChar (by omega)]
    rfl

/-- `secretFromWitness` on a witness of four elements. -/
theorem secretFromWitness_four {C : Crypto} {sig x leaf control hash : Bytes}
    (hx : C.sha256 x = hash) :
    secretFromWitness C ([sig, x, leaf, control].map toHex) hash
      = if x.length = 32 then some x else none := by
  show (if (toHex x).toList.length = 64 ∧
      (toHex x).toList.all (fun c => (hexDigit? c).isSome) = true then
    (if C.sha256 (fromHex (toHex x)) = hash then some (fromHex (toHex x)) else none) else none) = _
  rw [length_of_isHexOf (isHexOf_toHex x), fromHex_toHex, if_pos hx, all_hexDigit?_toHex]
  by_cases hlen : x.length = 32
  · rw [if_pos hlen, if_pos ⟨by omega, rfl⟩]
  · rw [if_neg hlen, if_neg fun h => hlen (by omega)]

/-- The secret is found where there is no annex and it is 32 bytes long. -/
theorem secretFromWitness_iff {C : Crypto} {sig x leaf control hash : Bytes}
    (hw : dropAnnex witness = [sig, x, leaf, control]) (hx : C.sha256 x = hash) :
    secretFromWitness C (witness.map toHex) hash = some x ↔
      dropAnnex witness = witness ∧ x.length = 32 := by
  obtain hsame | ⟨annex, happend⟩ := dropAnnex_cases witness
  · have hfour : witness = [sig, x, leaf, control] := hsame.symm.trans hw
    rw [hsame, and_iff_right rfl, hfour, secretFromWitness_four hx]
    by_cases hlen : x.length = 32 <;> simp [hlen]
  · have hnone : secretFromWitness C (witness.map toHex) hash = none := by
      rw [happend, hw]
      rfl
    have hne : dropAnnex witness ≠ witness := fun h => by
      have hlen := congrArg List.length happend
      rw [h, List.length_append, List.length_singleton] at hlen
      omega
    simp [hnone, hne]

/-! ## The maker's tick -/

variable {E : Engine} {c : Ctx} {r : Reads} {k : Tick}

/-- A locked maker finds its HTLC spent with a witness, the taker's unspent, and has no claim. -/
structure SeesClaimed (E : Engine) (c : Ctx) (r : Reads) (k : Tick) (witness : List String)
    (target : HtlcOut) : Prop where
  role : k.side.role = .maker
  makerKey : c.terms.makerKey = none ∨
    c.terms.makerKey = some (toHex (E.lib.xOnly (c.makerSwapKey E)))
  claim : k.side.claim = none
  spent : ∃ lock mine o spend, k.side.myLock = some lock ∧ c.scanMine E r .maker = .ok mine ∧
    mine.outs.find? (fun o => decide (o.outpoint = lock)) = some o ∧ o.spend = some spend ∧
      k.side.refund.map RawTx.txid ≠ some spend.txid ∧ spend.witness = witness
  target : ∃ theirs, c.scanTheirs E r .maker = .ok theirs ∧
    Tick.theirOut k theirs.outs c.terms.takerAmount true = some target ∧ target.spend = none

/-- A tick has built its claim of the taker's HTLC with a secret, and sent it, or met the error of
the builder. -/
def ClaimedWith (E : Engine) (c : Ctx) (target : HtlcOut) (x : Bytes) (k : Tick) : Prop :=
  (∀ tx, buildClaimTx E.lib ⟨target.txid, target.vout, target.value⟩ (c.theirHtlc E .maker)
      (Tick.spendTo E c c.terms.takerChain) x (c.makerSwapKey E) = .ok tx →
    .broadcast .claim c.terms.takerChain ⟨tx.txid, tx.hex⟩ ∈ k.effects) ∧
  ∀ err, buildClaimTx E.lib ⟨target.txid, target.vout, target.value⟩ (c.theirHtlc E .maker)
      (Tick.spendTo E c c.terms.takerChain) x (c.makerSwapKey E) = .error err →
    k.side.note = some err

theorem makerStage_effects (theirOut myOut : Option HtlcOut) (counterClaimed learned : Bool) :
    (Tick.makerStage k theirOut myOut counterClaimed learned).effects = k.effects := by
  unfold Tick.makerStage
  split_ifs <;> rfl

theorem maybeRefund_of_spent {chain : Chain} {params : HtlcParams} {o : HtlcOut} {tip : ℕ}
    {key : Bytes} (h : o.spend.isSome = true) :
    k.maybeRefund E c r chain params (some o) tip key = .ok k := by
  unfold Tick.maybeRefund
  simp only [h, if_true]

theorem learnSecret_of_witness {spend : HtlcSpend} {x : Bytes}
    (h : secretFromWitness E.lib.crypto spend.witness c.hash = some x) :
    Tick.learnSecret E c r k (some spend) = .ok (some x) := by
  unfold Tick.learnSecret
  simp only [h]

/-- From a claim on, a tick whose lock is spent only settles on a stage. -/
theorem claimedWith_of_sendClaim {o target : HtlcOut} {x : Bytes} {mineP : HtlcParams} {tip : ℕ}
    {chain : Chain} (ho : o.spend.isSome = true) (counterClaimed learned : Bool) :
    ClaimedWith E c target x (Flow.tick (do
      let k ← Tick.sendClaim E c r k c.terms.takerChain (c.theirHtlc E .maker) x (c.makerSwapKey E)
        target
      let k ← k.maybeRefund E c r chain mineP (some o) tip (c.makerSwapKey E)
      return Tick.makerStage k (some target) (some o) counterClaimed learned)) := by
  unfold Tick.sendClaim
  cases hbuild : buildClaimTx E.lib ⟨target.txid, target.vout, target.value⟩ (c.theirHtlc E .maker)
      (Tick.spendTo E c c.terms.takerChain) x (c.makerSwapKey E) with
  | error err =>
    refine ⟨fun tx h => ?_, fun err' h => ?_⟩
    · rw [hbuild] at h
      cases h
    · rw [hbuild] at h
      obtain rfl := Except.error.inj h
      rfl
  | ok tx =>
    refine ⟨fun tx' h => ?_, fun err h => ?_⟩
    · rw [hbuild] at h
      obtain rfl := Except.ok.inj h
      show _ ∈ (Flow.tick ((Tick.broadcast _ _ _ _ _).maybeRefund E c r chain mineP (some o) tip _
        >>= _)).effects
      rw [maybeRefund_of_spent ho]
      show _ ∈ (Tick.makerStage _ _ _ _ _).effects
      rw [makerStage_effects, Tick.broadcast_effects]
      exact List.mem_append_right _ (List.mem_singleton.mpr rfl)
    · rw [hbuild] at h
      cases h

/-- A locked tick that learns the secret from the spend of its lock. -/
theorem claimedWith_makerLocked {mine theirs : Scan} {mineP : HtlcParams} {x : Bytes}
    {lock : Outpoint} {o target : HtlcOut} {spend : HtlcSpend} (hlock : k.side.myLock = some lock)
    (hclaim : k.side.claim = none)
    (hout : mine.outs.find? (fun o => decide (o.outpoint = lock)) = some o)
    (hspend : o.spend = some spend) (hmine : k.side.refund.map RawTx.txid ≠ some spend.txid)
    (htheirs : c.scanTheirs E r .maker = .ok theirs)
    (htarget : Tick.theirOut k theirs.outs c.terms.takerAmount true = some target)
    (hunspent : target.spend = none)
    (hx : secretFromWitness E.lib.crypto spend.witness c.hash = some x) :
    ClaimedWith E c target x (Flow.tick
      (Tick.makerLocked E c r k mine mineP (c.theirHtlc E .maker) (c.makerSwapKey E))) := by
  unfold Tick.makerLocked
  extract_lets k₁ myOut
  have hside : k₁.side = k.side := Tick.postLocked_side _
  have hmyOut : myOut = some o := by
    show Tick.myOut k₁ mine.outs = some o
    unfold Tick.myOut
    rw [hside, hlock]
    exact hout
  have htheirOut : Tick.theirOut k₁ theirs.outs c.terms.takerAmount true = some target := by
    rw [Tick.theirOut_congr (show _ = k.side.theirLock by rw [hside])]
    exact htarget
  rw [show scan E.lib c.terms.takerChain (E.net c.terms.takerChain) (c.theirHtlc E .maker) r.theirs
    = .ok theirs from htheirs]
  simp only [hmyOut, htheirOut]
  generalize hk₂ : k₁.set { k₁.side with
    theirLock := k₁.side.theirLock.or ((some target).map HtlcOut.outpoint) } = k₂
  have hclaim₂ : k₂.side.claim = none := by
    rw [← hk₂, ← hclaim, ← hside]
    rfl
  have hcounter : k₂.counterClaim (some o) = some spend := by
    have hrefund : k₂.side.refund = k.side.refund := by
      rw [← hk₂, ← hside]
      rfl
    unfold Tick.counterClaim
    rw [Option.bind_some, hspend, hrefund]
    simpa using hmine
  rw [hcounter, learnSecret_of_witness hx]
  show ClaimedWith E c target x (Flow.tick (Tick.makerClaim E c r k₂ _ (some x) _ (some target) >>= _))
  have hsend : Tick.makerClaim E c r k₂ (c.theirHtlc E .maker) (some x) (c.makerSwapKey E)
      (some target) = Tick.sendClaim E c r k₂ c.terms.takerChain (c.theirHtlc E .maker) x
        (c.makerSwapKey E) target := by
    unfold Tick.makerClaim
    simp only [hunspent, hclaim₂, Option.isSome_none, Bool.false_eq_true, if_false]
  rw [hsend]
  exact claimedWith_of_sendClaim (by rw [hspend]; rfl) _ _

/-- The whole tick. -/
theorem claimedWith_step {target : HtlcOut} {x : Bytes} {witness : List String}
    (h : SeesClaimed E c r k witness target)
    (hx : secretFromWitness E.lib.crypto witness c.hash = some x) :
    ClaimedWith E c target x (k.step E c r) := by
  obtain ⟨lock, mine, o, spend, hlock, hscan, hout, hspend, hmine, rfl⟩ := h.spent
  obtain ⟨theirs, htheirs, htarget, hunspent⟩ := h.target
  unfold Tick.step
  rw [h.role]
  show ClaimedWith E c target x (Tick.stepMaker E c r k)
  unfold Tick.stepMaker
  extract_lets t key myKey mineP theirP k₁
  have hkey : ¬(t.makerKey.isSome && t.makerKey ≠ some myKey) = true := by
    obtain hnone | hsome := h.makerKey
    · simp [show t.makerKey = none from hnone]
    · simp [show t.makerKey = some myKey from hsome]
  rw [if_neg hkey, if_neg (by simp [hlock])]
  obtain ⟨verdict, note, hside⟩ : Tick.Looked k.side k₁.side :=
    ((Tick.Acts.refl (E := E) (c := c) (r := r) k).makerProofs myKey).2
  have hlock₁ : k₁.side.myLock = some lock := by rw [hside, ← hlock]
  rw [show scan E.lib t.makerChain (E.net t.makerChain) mineP r.mine = .ok mine from hscan]
  have hadopt : k₁.adopt mine t.makerAmount = k₁ := by
    unfold Tick.adopt
    rw [hlock₁]
    rfl
  have hgo : Tick.makerLock E c r k₁ mine theirP = .ok k₁ := by
    unfold Tick.makerLock
    rw [hlock₁]
    rfl
  show ClaimedWith E c target x (Flow.tick
    (Tick.makerLock E c r (k₁.adopt mine t.makerAmount) mine theirP >>= _))
  rw [hadopt, hgo]
  refine claimedWith_makerLocked hlock₁ ?_ hout hspend ?_ htheirs ?_ hunspent hx
  · rw [hside]
    exact h.claim
  · rw [hside]
    exact hmine
  · rw [Tick.theirOut_congr (show _ = k.side.theirLock by rw [hside])]
    exact htarget

/-- **A claim gives the maker the secret exactly when it has no annex and the secret is 32 bytes
long**: the engine finds it, and a tick that sees the claim claims the taker's HTLC with it. -/
theorem claim_reveals_iff (E : Engine) (p : HtlcParams) (htlc : Htlc)
    (hhtlc : htlcScript E.lib p = .ok htlc) (V : Env) (hsha : V.sha256 = E.lib.crypto.sha256)
    (witness : List Bytes) (h : IsClaim V htlc witness) :
    ∃ sig x control, dropAnnex witness = [sig, x, htlc.claimLeaf, control] ∧
      x.length ≤ maxElement ∧ E.lib.crypto.sha256 x = p.hash ∧
      ((secretFromWitness E.lib.crypto (witness.map toHex) p.hash = some x ∧
          ∀ c r k target, c.hash = p.hash → SeesClaimed E c r k (witness.map toHex) target →
            ClaimedWith E c target x (k.step E c r)) ↔
        dropAnnex witness = witness ∧ x.length = 32) := by
  obtain ⟨sig, x, control, hw, hsmall, hx⟩ := h.witness_eq hhtlc
  rw [hsha] at hx
  refine ⟨sig, x, control, hw, hsmall, hx, ?_⟩
  rw [← secretFromWitness_iff hw hx]
  refine and_iff_left_of_imp fun hfound c r k target hhash hsees => ?_
  exact claimedWith_step hsees (by rw [hhash]; exact hfound)

/-! ## A preimage the engine does not see -/

/-- SHA-256 of no bytes at all. -/
def emptyHash : Bytes :=
  fromHex "e3b0c44298fc1c149afbf4c8996fb92427ae41e4649b934ca495991b7852b855"

/-- A platform that hashes the empty string as SHA-256 does. -/
def emptyHashLib : SwapLib :=
  { sampleSwapLib with
    crypto := ⟨fun b => if b = [] then emptyHash else b.take 32, fun _ _ _ => true⟩ }

/-- Terms with a hash, and the HTLC they make. -/
def hashParams (hash : Bytes) : HtlcParams :=
  ⟨hash, List.replicate 32 2, List.replicate 32 3, 72⟩

def emptyHashEnv (htlc : Htlc) : Env where
  sha256 := emptyHashLib.crypto.sha256
  checkSig _ sig := decide (sig = List.replicate 64 1)
  checkSequence _ := true
  commits control script := decide (control = htlc.claimControlBlock ∧ script = htlc.claimLeaf)

/-- The HTLC of a hash on that platform. -/
def hashHtlc (hash : Bytes) : Htlc :=
  (htlcScript emptyHashLib (hashParams hash)).toOption.getD plainHtlc

/-- A signed claim with a preimage. -/
def sampleClaim (hash x : Bytes) : List Bytes :=
  [List.replicate 64 1, x, (hashHtlc hash).claimLeaf, (hashHtlc hash).claimControlBlock]

/-- The theorem at a claim with a secret of 32 bytes. -/
theorem claim_reveals_iff_secret : ∃ sig x control,
    dropAnnex (sampleClaim (List.replicate 32 1) (List.replicate 32 1))
        = [sig, x, (hashHtlc (List.replicate 32 1)).claimLeaf, control] ∧
      x.length ≤ maxElement ∧ emptyHashLib.crypto.sha256 x = List.replicate 32 1 ∧
      ((secretFromWitness emptyHashLib.crypto ((sampleClaim (List.replicate 32 1)
            (List.replicate 32 1)).map toHex) (List.replicate 32 1) = some x ∧
          ∀ c r k target, c.hash = List.replicate 32 1 →
            SeesClaimed { sampleEngine with lib := emptyHashLib } c r k
              ((sampleClaim (List.replicate 32 1) (List.replicate 32 1)).map toHex) target →
            ClaimedWith { sampleEngine with lib := emptyHashLib } c target x
              (k.step { sampleEngine with lib := emptyHashLib } c r)) ↔
        dropAnnex (sampleClaim (List.replicate 32 1) (List.replicate 32 1))
          = sampleClaim (List.replicate 32 1) (List.replicate 32 1) ∧ x.length = 32) :=
  claim_reveals_iff { sampleEngine with lib := emptyHashLib } (hashParams (List.replicate 32 1))
    (hashHtlc (List.replicate 32 1)) rfl
    (emptyHashEnv (hashHtlc (List.replicate 32 1))) rfl
    (sampleClaim (List.replicate 32 1) (List.replicate 32 1))
    ⟨by decide +kernel, (hashHtlc (List.replicate 32 1)).claimControlBlock,
      [List.replicate 32 1, List.replicate 64 1], by decide +kernel⟩

/-- A claim with the preimage of no bytes is accepted, and the engine finds no secret in it. -/
theorem claim_hides_secret :
    htlcScript emptyHashLib (hashParams emptyHash) = .ok (hashHtlc emptyHash) ∧
      IsClaim (emptyHashEnv (hashHtlc emptyHash)) (hashHtlc emptyHash) (sampleClaim emptyHash []) ∧
      emptyHashLib.crypto.sha256 [] = emptyHash ∧
      secretFromWitness emptyHashLib.crypto ((sampleClaim emptyHash []).map toHex) emptyHash = none :=
  ⟨rfl, ⟨by decide +kernel, (hashHtlc emptyHash).claimControlBlock, [[], List.replicate 64 1],
    by decide +kernel⟩, rfl, by decide +kernel⟩

end Gavl
