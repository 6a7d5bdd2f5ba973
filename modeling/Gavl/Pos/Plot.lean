import Gavl.Lib.LayeredMerkle
import Gavl.Pos.Space

/-!
# Plots

The table of leaves an identity commits to, and the answer to a challenge out of it. An index is far
below `2 ^ 31`, where the language's bit operators are those of the numbers.
-/

namespace Gavl

/-- Lexicographic comparison: below, at or above zero. -/
def cmpBytes : Bytes → Bytes → ℤ
  | a :: as, b :: bs => if a ≠ b then (a.toNat : ℤ) - b.toNat else cmpBytes as bs
  | as, bs => (as.length : ℤ) - bs.length

/-! ## Merkle helpers -/

/-- The layers of a tree, the leaves first. -/
def buildMerkle (C : Crypto) (leaves : List Bytes) : List (List Bytes) :=
  LayeredMerkle.layers C.sha256 (fun left right => left ++ right) leaves

/-- `layers[layers.length - 1][0]`. -/
def merkleRoot (layers : List (List Bytes)) : Option Bytes := LayeredMerkle.root layers

/-- Hex siblings from the leaf up; `none` where the index is out of range. -/
def merklePath (layers : List (List Bytes)) (index : ℕ) : Option (List String) :=
  (LayeredMerkle.siblings layers index).map (List.map toHex)

theorem isSome_merkleRoot (C : Crypto) {leaves : List Bytes} (h : leaves ≠ []) :
    (merkleRoot (buildMerkle C leaves)).isSome := by
  obtain ⟨leaf, hleaf⟩ : ∃ leaf, leaves[0]? = some leaf :=
    ⟨_, List.getElem?_eq_getElem (List.length_pos_iff.mpr h)⟩
  obtain ⟨r, -, hroot, -, -⟩ := LayeredMerkle.climb_siblings C.sha256
    (fun left right => left ++ right) hleaf
  exact Option.isSome_iff_exists.mpr ⟨r, hroot⟩

/-! ## Plot -/

/-- A plot of `2 ^ k` leaves bound to an identity's public key. -/
structure Plot where
  seed : Bytes
  k : ℕ
  range : 1 ≤ k ∧ k ≤ 24

namespace Plot

def new (seed : Bytes) (k : ℕ) : Except String Plot :=
  if h : k < 1 ∨ 24 < k then .error "plot: k must be an integer in [1, 24]"
  else .ok ⟨seed, k, by omega⟩

variable (p : Plot) (C : Crypto)

def size : ℕ := 2 ^ p.k

def leaves : List Bytes := (List.range p.size).map fun i => C.sha256 (p.seed ++ u32be i)

def layers : List (List Bytes) := buildMerkle C (p.leaves C)

theorem length_leaves : (p.leaves C).length = 2 ^ p.k := by
  rw [leaves, List.length_map, List.length_range, size]

theorem leaves_ne_nil : p.leaves C ≠ [] := by
  rw [← List.length_pos_iff, length_leaves]
  exact Nat.two_pow_pos _

def commitment : PlotCommitment :=
  ⟨toHex ((merkleRoot (p.layers C)).get (isSome_merkleRoot C (p.leaves_ne_nil C))), p.k⟩

variable (challenge : Bytes)

/-- How well a leaf answers the challenge: lower is better. -/
def quality (leaf : Bytes) : Bytes := C.sha256 (leaf ++ challenge)

/-- One leaf of the scan for the best. -/
def scanLeaf (best : ℕ × Bytes) (leaf : Bytes × ℕ) : ℕ × Bytes :=
  let q := quality C challenge leaf.1
  if cmpBytes q best.2 < 0 then (leaf.2, q) else best

/-- Index and quality of the best leaf. -/
def bestLeaf : Option (ℕ × Bytes) :=
  (p.leaves C).head?.map fun first =>
    (p.leaves C).zipIdx.tail.foldl (scanLeaf C challenge) (0, quality C challenge first)

/-- Answer a challenge with the best leaf and its membership proof. -/
def prove : Option SpaceProof := do
  let (bestIdx, bestQuality) ← p.bestLeaf C challenge
  let leaf ← (p.leaves C)[bestIdx]?
  let path ← merklePath (p.layers C) bestIdx
  return ⟨bestIdx, toHex leaf, path, toHex bestQuality⟩

end Plot

end Gavl
