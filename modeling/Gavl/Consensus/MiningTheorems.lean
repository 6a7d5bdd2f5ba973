import Gavl.Consensus.HeadsTheorems
import Gavl.Consensus.Mining
import Gavl.Ledger.LedgerTheorems

/-!
# Mining and verifying agree

What a miner returns passes `verifyAnchor` against the same predecessor, heads and difficulty, after
any number of challenges that its plot left unanswered.
-/

namespace Gavl

namespace Farmer

/-- The farmer's signatures, space proofs and delays verify. -/
structure Honest (F : Farmer) (C : Crypto) (params : ChainParams) (verifier : SpaceVerifier) :
    Prop where
  signs : ∀ m, C.edVerify F.publicKey m (F.sign m) = true
  proves : ∀ challenge m, F.prover.prove challenge = some m →
    verifier F.prover.commitment (toHex F.publicKey) challenge m.proof = ⟨true, some m.quality⟩
  evals : ∀ seed n t, F.vdfEval seed n = some t → t.iters = n ∧ params.vdfVerify seed t = true

/-- The same farmer with a delay that is served below `2 ^ 53` steps only. -/
def capped (F : Farmer) : Farmer :=
  { F with vdfEval := fun seed n => if n < 2 ^ 53 then F.vdfEval seed n else none }

variable {F : Farmer} {C : Crypto} {params : ChainParams} {verifier : SpaceVerifier}

theorem Honest.complete_capped (hF : F.Honest C params verifier) :
    F.capped.Complete C params verifier where
  signs := hF.signs
  proves := hF.proves
  evals seed n t ht := by
    change (if n < 2 ^ 53 then F.vdfEval seed n else none) = some t at ht
    split_ifs at ht with hn
    obtain ⟨hiters, hvalid⟩ := hF.evals seed n t ht
    exact ⟨hiters, hn, hvalid⟩

theorem grind_capped (n nonce : ℕ) : F.capped.grind C n nonce = F.grind C n nonce := by
  induction n generalizing nonce with
  | zero => rfl
  | succ n ih =>
    unfold grind
    rw [ih]
    rfl

/-- Below the cap the walk is the same. -/
theorem walkSignage_capped {stepIters : ℕ} (h : stepIters < 2 ^ 53) (base : Bytes) (n : ℕ)
    (vdfOut : String) (step : List TimeProof) :
    F.capped.walkSignage C base stepIters n vdfOut step
      = F.walkSignage C base stepIters n vdfOut step := by
  induction n generalizing vdfOut step with
  | zero => rfl
  | succ n ih =>
    have heval : F.capped.vdfEval (fromHex vdfOut) stepIters
        = F.vdfEval (fromHex vdfOut) stepIters := if_pos h
    unfold walkSignage
    simp only [heval, ih]
    rfl

theorem findTicket_capped (h : signageStepIters params < 2 ^ 53) (prev : Option Anchor) :
    F.capped.findTicket C params prev = F.findTicket C params prev := by
  cases prev with
  | none => exact grind_capped _ _
  | some p => exact walkSignage_capped h _ _ _ _

/-- A proof never asks for less than the floor. -/
theorem signageStepIters_lt {quality spaceWeight difficulty : ℕ}
    (h : requiredIters quality params spaceWeight difficulty < 2 ^ 53) :
    signageStepIters params < 2 ^ 53 := by
  have hfloor : params.floorIters ≤ requiredIters quality params spaceWeight difficulty := by
    unfold requiredIters
    dsimp only
    split_ifs <;> omega
  unfold signageStepIters
  split_ifs <;> omega

/-- Where the delay required is below the cap, the capped farmer mines the same anchor. -/
theorem mineAnchor_capped {prev : Option Anchor} {prevHeads heads : Heads} {difficulty : ℕ}
    {appRoot : String} {a : Anchor}
    (hneed : ∀ k q, F.findTicket C params prev = some k → hexToNat? k.mined.quality = some q →
      requiredIters q params (spaceWeightFor F.prover.commitment) difficulty < 2 ^ 53)
    (h : F.mineAnchor C params prev prevHeads heads difficulty appRoot = some a) :
    F.capped.mineAnchor C params prev prevHeads heads difficulty appRoot = some a := by
  obtain ⟨k, hk, hrest⟩ := Option.bind_eq_some_iff.mp h
  obtain ⟨q, hq, hrest⟩ := Option.bind_eq_some_iff.mp hrest
  have hlt := hneed k q hk (Option.filter_eq_some_iff.mp hq).1
  unfold mineAnchor
  rw [findTicket_capped (signageStepIters_lt hlt), hk, Option.bind_some, hq, Option.bind_some]
  rw [← hrest]
  have heval : F.capped.vdfEval (vdfChallenge C k.challenge k.mined.quality)
      (numberOf (requiredIters q params (spaceWeightFor F.capped.prover.commitment) difficulty))
        = F.vdfEval (vdfChallenge C k.challenge k.mined.quality)
          (numberOf (requiredIters q params (spaceWeightFor F.prover.commitment) difficulty)) :=
    if_pos (lt_of_eq_of_lt (numberOf_of_lt hlt) hlt)
  simp only [heval]
  rfl

/-- **What is mined verifies**, against the predecessor, the heads and the difficulty it was mined
with, and gives the mined heads back. -/
theorem mined_verifies (F : Farmer) (C : Crypto) (params : ChainParams) (verifier : SpaceVerifier)
    (hF : F.Honest C params verifier) (prev : Option Anchor) (prevHeads heads : Heads)
    (hcovers : ∀ w, prevHeads.get? w ≠ none → heads.get? w ≠ none) (difficulty : ℕ)
    (appRoot : String)
    (hneed : ∀ k q, F.findTicket C params prev = some k → hexToNat? k.mined.quality = some q →
      requiredIters q params (spaceWeightFor F.prover.commitment) difficulty < 2 ^ 53)
    (a : Anchor)
    (h : F.mineAnchor C params prev prevHeads heads difficulty appRoot = some a) :
    ∃ hs, verifyAnchor C a prev prevHeads params difficulty verifier = .ok hs ∧
      ∀ w, hs.get? w = heads.get? w := by
  have hmined := mineAnchor_spec hF.complete_capped (mineAnchor_capped hneed h)
  have hsame : ∀ w, (applyHeadsDelta prevHeads (diffHeads prevHeads heads)).get? w = heads.get? w :=
    (applyHeadsDelta_diffHeads_iff prevHeads prevHeads heads).mpr ⟨hcovers, fun _ _ _ hw => hw⟩
  have hroot : rootOfHeads C heads
      = rootOfHeads C (applyHeadsDelta prevHeads (diffHeads prevHeads heads)) :=
    rootOfHeads_congr C fun w => (hsame w).symm
  obtain ⟨hs, hok⟩ := (hmined.verifyAnchor_iff prevHeads difficulty).mpr ⟨rfl, hroot⟩
  refine ⟨hs, hok, fun w => ?_⟩
  rw [(verifyAnchor_ok hok).heads_eq, hmined.headsDelta_eq]
  exact hsame w

end Farmer

namespace Patient

open AnchorChain

/-- A delay whose output is a hash of its seed and its length. -/
def delayOf (seed : Bytes) (n : ℕ) : TimeProof :=
  ⟨n, toHex (openConfig.crypto.sha256 (seed ++ u32be n)), ""⟩

def params : ChainParams := ⟨1, 1, 1, fun seed t => decide (t = delayOf seed t.iters)⟩

/-- A plot that answers one challenge in eight. -/
def farmer : Farmer where
  publicKey := [1]
  sign := fun _ => []
  prover := ⟨⟨"standin", "", 0⟩, fun challenge =>
    if (challenge.map UInt8.toNat).sum % 8 = 0 then some ⟨.null, "0"⟩ else none⟩
  vdfEval := fun seed n => some (delayOf seed n)

theorem honest_farmer : farmer.Honest openConfig.crypto params openConfig.verifier where
  signs := fun _ => rfl
  proves := by
    intro challenge m hm
    change (if _ then _ else _) = some m at hm
    split_ifs at hm
    obtain rfl := Option.some.inj hm
    rfl
  evals := by
    intro seed n t ht
    obtain rfl := Option.some.inj ht
    exact ⟨rfl, decide_eq_true rfl⟩

/-- The heads of block 0, and those it certifies after it. -/
def before : Heads := (∅ : Heads).set "a" ⟨"x", 0⟩

def after : Heads := before.set "b" ⟨"y", 0⟩

def genesis : Anchor := assembled openConfig.crypto 1 none "" before before

end Patient

open Patient AnchorChain in
/-- An anchor mined after some signage steps verifies. -/
theorem mined_verifies_walked : ∃ a,
    farmer.mineAnchor openConfig.crypto params (some genesis) before after 1 "" = some a ∧
      0 < a.step.length ∧
      ∃ hs, verifyAnchor openConfig.crypto a (some genesis) before params 1 openConfig.verifier
        = .ok hs ∧ ∀ w, hs.get? w = after.get? w := by
  have hmined : ((farmer.mineAnchor openConfig.crypto params (some genesis) before after 1 "").map
      (fun a => decide (0 < a.step.length))) = some true := by
    decide +kernel
  obtain ⟨a, ha, hstep⟩ := Option.map_eq_some_iff.mp hmined
  refine ⟨a, ha, of_decide_eq_true hstep, ?_⟩
  refine Farmer.mined_verifies farmer openConfig.crypto params openConfig.verifier honest_farmer
    (some genesis) before after ?_ 1 "" ?_ a ha
  · intro w hw
    unfold after
    rw [OrderedMap.get?_set]
    split_ifs
    · exact Option.some_ne_none _
    · exact hw
  · intro k q hk hq
    have hcap : farmer.capped.findTicket openConfig.crypto params (some genesis) = some k := by
      rw [Farmer.findTicket_capped (by decide)]
      exact hk
    have hprove := (Farmer.findTicket_spec honest_farmer.complete_capped hcap).1
    change (if _ then _ else _) = some k.mined at hprove
    split_ifs at hprove
    rw [← Option.some.inj hprove] at hq
    obtain rfl : 0 = q := Option.some.inj hq
    decide

end Gavl
