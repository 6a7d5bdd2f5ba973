import Gavl.Det.Canonical

/-!
# Proof of space

A writer commits to a plot by the Merkle root of its leaves and answers a challenge with one
of them.
-/

namespace Gavl

/-- Public, identity-bound commitment to a plot of `2^k` leaves. -/
structure PlotCommitment where
  root : String
  k : ℕ
deriving DecidableEq

/-- The best leaf for a challenge with its membership proof. -/
structure SpaceProof where
  index : ℕ
  value : String
  path : List String
  quality : String
deriving DecidableEq

namespace PlotCommitment

def toJson (p : PlotCommitment) : Json := .obj [("root", .str p.root), ("k", .nat p.k)]

end PlotCommitment

namespace SpaceProof

def toJson (p : SpaceProof) : Json :=
  .obj [("index", .nat p.index), ("value", .str p.value), ("path", .arr (p.path.map Json.str)),
    ("quality", .str p.quality)]

end SpaceProof

/-- The root a Merkle path leads to. -/
def merkleWalk (C : Crypto) : Bytes → ℕ → List String → Bytes
  | h, _, [] => h
  | h, idx, sibHex :: rest =>
    let sib := fromHex sibHex
    merkleWalk C (if idx % 2 = 1 then C.sha256 (sib ++ h) else C.sha256 (h ++ sib)) (idx / 2) rest

def verifyMerkle (C : Crypto) (leaf : Bytes) (index : ℕ) (path : List String) (rootHex : String) :
    Bool :=
  decide (toHex (merkleWalk C leaf index path) = rootHex)

/-- The leaf a plot binds at an index for an identity. -/
def plotLeaf (C : Crypto) (writerPubHex : String) (index : ℕ) : Bytes :=
  C.sha256 (fromHex writerPubHex ++ u32be index)

/-- Verify a space proof against a plot commitment for a challenge. -/
def verifySpaceProof (C : Crypto) (writerPubHex : String) (commitment : PlotCommitment)
    (challenge : Bytes) (proof : SpaceProof) : Bool :=
  let leaf := plotLeaf C writerPubHex proof.index
  decide (proof.index < 2 ^ commitment.k) && decide (toHex leaf = proof.value) &&
    verifyMerkle C leaf proof.index proof.path commitment.root &&
    decide (toHex (C.sha256 (leaf ++ challenge)) = proof.quality)

/-- The leaf a proof shows to be in a plot has this quality for the challenge. -/
def recoverSpaceQuality (C : Crypto) (writerPubHex : String) (commitment : PlotCommitment)
    (challenge : Bytes) (index : ℕ) (value : String) (path : List String) : Option String :=
  let leaf := plotLeaf C writerPubHex index
  if ¬ index < 2 ^ commitment.k then none
  else if toHex leaf ≠ value then none
  else if !verifyMerkle C leaf index path commitment.root then none
  else some (toHex (C.sha256 (leaf ++ challenge)))

end Gavl
