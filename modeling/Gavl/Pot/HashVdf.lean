import Gavl.Chain.Iters
import Gavl.Det.CanonicalTheorems

/-!
# The hash-chain delay

The reference proof of time: a sequential SHA-256 chain, checked by walking it again.
-/

namespace Gavl

variable (C : Crypto)

/-- The loop of `eval` and `verify`: hash once, and once more for each `i` from 1 below `iters`. -/
def hashChain (challenge : Bytes) (iters : ℕ) : Bytes :=
  (List.range' 1 (iters - 1)).foldl (fun cur _ => C.sha256 cur) (C.sha256 challenge)

namespace HashVdf

def eval (challenge : Bytes) (iters : ℕ) : Except String TimeProof :=
  if iters < 1 then .error "vdf: iters must be a positive integer"
  else .ok ⟨iters, toHex (hashChain C challenge iters), ""⟩

def verify (challenge : Bytes) (proof : TimeProof) : Bool :=
  if proof.iters < 1 then false
  else decide (toHex (hashChain C challenge proof.iters) = proof.output)

end HashVdf

variable {C : Crypto} {challenge : Bytes}

/-- `H^iters(challenge)`. -/
theorem hashChain_eq_iterate (n : ℕ) : hashChain C challenge (n + 1) = C.sha256^[n + 1] challenge := by
  unfold hashChain
  rw [Nat.add_sub_cancel, List.foldl_const, List.length_range', Function.iterate_succ_apply]

namespace HashVdf

/-- A proof verifies exactly when it carries what the evaluation gives. -/
theorem verify_iff {proof : TimeProof} : verify C challenge proof = true ↔
    eval C challenge proof.iters = .ok ⟨proof.iters, proof.output, ""⟩ := by
  unfold verify eval
  split_ifs
  · simp
  · simp

/-- An evaluation verifies. -/
theorem verify_of_eval {iters : ℕ} {proof : TimeProof} (h : eval C challenge iters = .ok proof) :
    proof.iters = iters ∧ verify C challenge proof = true := by
  unfold eval at h
  split_ifs at h with hiters
  obtain rfl := Except.ok.inj h
  exact ⟨rfl, by simp [verify, hiters]⟩

end HashVdf

end Gavl
