import Gavl.Consensus.Chain

/-!
# The hardcoded genesis

Block 0 of a network, derived from its label and its base difficulty. It is installed, never
verified: its proofs are placeholders.
-/

namespace Gavl

def genesisDomain : List Char := "gavl-genesis-v1".toList

/-- The genesis anchor of `network`; `appRoot` is that of the empty board. -/
def genesisAnchor (C : Crypto) (network : String) (difficulty : ℕ) (appRoot : String) : Anchor :=
  let seed := toHex (C.sha256 (utf8 genesisDomain ++ utf8 network.toList))
  let body : AnchorBody :=
    { height := 0
      prev := none
      producer := genesisProducer
      nonce := 0
      step := []
      difficulty := difficulty
      headsDelta := ∅
      stateRoot := rootOfHeads C ∅
      appRoot := appRoot
      weight := difficulty
      space := ⟨"genesis", seed, 0⟩
      proof := .null }
  let time : TimeProof := ⟨0, seed, ""⟩
  { body with time := time, id := idOf C body time, sig := "" }

end Gavl
