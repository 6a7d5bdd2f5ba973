import Gavl.Det.Canonical

/-!
# Space quality and time cost

The coupling of a proof of space to the time proof that follows it: better proofs need fewer
iterations.
-/

namespace Gavl

/-- A proof of sequential work (`pot/vdf.ts`). -/
structure TimeProof where
  iters : ℕ
  output : String
  proof : String
deriving DecidableEq

namespace TimeProof

def toJson (t : TimeProof) : Json :=
  .obj [("iters", .nat t.iters), ("output", .str t.output), ("proof", .str t.proof)]

end TimeProof

/-- Consensus parameters with the time-proof check (`chain/iters.ts`, `chain/writer.ts`). -/
structure ChainParams where
  difficulty : ℕ
  /-- Difficulty constant factor. -/
  dcf : ℕ
  floorIters : ℕ
  /-- `vdf.verify(challenge, proof)`; the off-thread variant must agree with it. -/
  vdfVerify : Bytes → TimeProof → Bool

/-- Required iterations for a proof of the given quality. -/
def requiredIters (quality : ℕ) (params : ChainParams) (spaceWeight difficulty : ℕ) : ℕ :=
  let denom := 2 ^ 256 * (if 0 < spaceWeight then spaceWeight else 1)
  let iters := difficulty * params.dcf * quality / denom
  if iters < params.floorIters then params.floorIters else iters

/-- Per-write weight for heaviest-chain fork choice. -/
def writeWeight (params : ChainParams) : ℕ := params.difficulty

/-- Approximate plot size for parameter `k`. -/
def expectedPlotSize (k : ℕ) : ℕ := (2 * k + 1) * 2 ^ (k - 1)

/-- The time proof runs over a challenge infused with the proof of space. -/
def vdfChallenge (C : Crypto) (base : Bytes) (spaceValueHex : String) : Bytes :=
  C.sha256 (base ++ fromHex spaceValueHex)

end Gavl
