import Gavl.Det.FieldTheorems
import Gavl.Pos.Plot

/-!
# Plot membership proofs are complete and sound

Every leaf of a tree is proved by its path, so a plot answers every challenge. A proof under a plot's
own commitment has the plot's leaf, siblings and quality, or two of the byte strings hashed for the
plot and for the proof collide.
-/

namespace Gavl

open LayeredMerkle

variable {C : Crypto} {leaves : List Bytes} {leaf challenge : Bytes} {index : ℕ} {p : Plot}
  {proof : SpaceProof} {writerPubHex : String}

/-- Two nodes as they are hashed together. -/
def joined (left right : Bytes) : Bytes := left ++ right

/-! ## Completeness -/

theorem merkleWalk_eq (C : Crypto) (h : Bytes) (index : ℕ) (path : List String) :
    merkleWalk C h index path = climb C.sha256 joined h index (path.map fromHex) := by
  induction path generalizing h index with
  | nil => rfl
  | cons sibHex rest ih =>
    have hstep : (if index % 2 = 1 then C.sha256 (fromHex sibHex ++ h)
        else C.sha256 (h ++ fromHex sibHex)) = C.sha256 (step joined h index (fromHex sibHex)) := by
      unfold step joined
      split_ifs <;> rfl
    rw [merkleWalk, hstep, ih]
    rfl

theorem verifyMerkle_iff {path : List String} {root : Bytes} :
    verifyMerkle C leaf index path (toHex root) = true ↔
      climb C.sha256 joined leaf index (path.map fromHex) = root := by
  rw [verifyMerkle, decide_eq_true_eq, merkleWalk_eq]
  exact toHex_injective.eq_iff

theorem map_fromHex_map_toHex (path : List Bytes) : (path.map toHex).map fromHex = path := by
  rw [List.map_map]
  exact List.map_id'' fromHex_toHex path

/-- A leaf and its path lead to the root. -/
theorem verifyMerkle_merklePath (hleaf : leaves[index]? = some leaf) :
    ∃ root path, merkleRoot (buildMerkle C leaves) = some root ∧
      merklePath (buildMerkle C leaves) index = some path ∧
        verifyMerkle C leaf index path (toHex root) = true := by
  obtain ⟨root, path, hroot, hpath, hclimb⟩ := climb_siblings C.sha256 joined hleaf
  refine ⟨root, path.map toHex, hroot, ?_, ?_⟩
  · show (siblings (layers C.sha256 joined leaves) index).map (List.map toHex) = _
    rw [hpath, Option.map_some]
  · rw [verifyMerkle_iff, map_fromHex_map_toHex, hclimb]

namespace Plot

theorem getElem?_leaves (hi : index < 2 ^ p.k) :
    (p.leaves C)[index]? = some (C.sha256 (p.seed ++ u32be index)) := by
  rw [leaves, List.getElem?_map, List.getElem?_range (by rw [size]; exact hi), Option.map_some]

/-- A leaf of the plot with its quality. -/
def Scanned (p : Plot) (C : Crypto) (challenge : Bytes) (best : ℕ × Bytes) : Prop :=
  ∃ leaf, (p.leaves C)[best.1]? = some leaf ∧ best.2 = quality C challenge leaf

theorem scanned_foldl {es : List (Bytes × ℕ)} (hes : ∀ e ∈ es, (p.leaves C)[e.2]? = some e.1) :
    ∀ {best : ℕ × Bytes}, p.Scanned C challenge best →
      p.Scanned C challenge (es.foldl (scanLeaf C challenge) best) := by
  induction es with
  | nil => exact fun h => h
  | cons e es ih =>
    intro best hbest
    obtain ⟨he, hes⟩ := List.forall_mem_cons.mp hes
    refine ih hes ?_
    unfold scanLeaf
    simp only
    split_ifs
    · exact ⟨e.1, he, rfl⟩
    · exact hbest

/-- The best leaf is a leaf of the plot. -/
theorem exists_bestLeaf (p : Plot) (C : Crypto) (challenge : Bytes) :
    ∃ best, p.bestLeaf C challenge = some best ∧ p.Scanned C challenge best := by
  obtain ⟨first, rest, hcons⟩ := List.exists_cons_of_ne_nil (p.leaves_ne_nil C)
  have hhead : (p.leaves C).head? = some first := by
    rw [hcons]
    rfl
  have hfirst : p.Scanned C challenge (0, quality C challenge first) :=
    ⟨first, by rw [hcons]; rfl, rfl⟩
  refine ⟨_, by rw [bestLeaf, hhead, Option.map_some], scanned_foldl (fun e he => ?_) hfirst⟩
  exact List.mem_zipIdx_iff_getElem?.mp (List.mem_of_mem_tail he)

theorem merkleRoot_layers (p : Plot) (C : Crypto) : ∃ root,
    merkleRoot (p.layers C) = some root ∧ p.commitment C = ⟨toHex root, p.k⟩ := by
  have hsome := isSome_merkleRoot C (p.leaves_ne_nil C)
  exact ⟨(merkleRoot (p.layers C)).get hsome, (Option.some_get hsome).symm, rfl⟩

end Plot

theorem verifySpaceProof_iff {commitment : PlotCommitment} :
    verifySpaceProof C writerPubHex commitment challenge proof = true ↔
      proof.index < 2 ^ commitment.k ∧ toHex (plotLeaf C writerPubHex proof.index) = proof.value ∧
        verifyMerkle C (plotLeaf C writerPubHex proof.index) proof.index proof.path commitment.root
          = true ∧
        toHex (C.sha256 (plotLeaf C writerPubHex proof.index ++ challenge)) = proof.quality := by
  unfold verifySpaceProof
  simp only [Bool.and_eq_true, decide_eq_true_eq, and_assoc]

/-- A plot's answer to a challenge verifies. -/
theorem verifySpaceProof_prove (p : Plot) (C : Crypto) (challenge : Bytes)
    (hseed : p.seed = fromHex writerPubHex) : ∃ proof, p.prove C challenge = some proof ∧
      verifySpaceProof C writerPubHex (p.commitment C) challenge proof = true := by
  obtain ⟨⟨bestIdx, bestQuality⟩, hbest, leaf, hleaf, hquality⟩ := p.exists_bestLeaf C challenge
  obtain ⟨root, path, hroot, hpath, hverify⟩ := verifyMerkle_merklePath (C := C) hleaf
  obtain ⟨root', hroot', hcommitment⟩ := p.merkleRoot_layers C
  obtain rfl : root = root' := Option.some.inj (hroot.symm.trans hroot')
  have hlt : bestIdx < 2 ^ p.k := by
    obtain ⟨h, -⟩ := List.getElem?_eq_some_iff.mp hleaf
    rwa [p.length_leaves] at h
  have hplot : plotLeaf C writerPubHex bestIdx = leaf := by
    rw [plotLeaf, ← hseed]
    exact Option.some.inj ((Plot.getElem?_leaves hlt).symm.trans hleaf)
  refine ⟨⟨bestIdx, toHex leaf, path, toHex bestQuality⟩, ?_, ?_⟩
  · have hpath' : merklePath (p.layers C) bestIdx = some path := hpath
    unfold Plot.prove
    rw [hbest]
    simp only [Option.bind_eq_bind, Option.bind_some]
    rw [hleaf, Option.bind_some, hpath', Option.bind_some]
    rfl
  · rw [verifySpaceProof_iff, hcommitment]
    refine ⟨hlt, ?_, ?_, ?_⟩
    · rw [hplot]
    · rw [hplot]
      exact hverify
    · rw [hplot]
      exact congrArg toHex hquality.symm

/-! ## Soundness -/

/-- 64 hex digits of either case. -/
def IsHexField (s : String) : Prop :=
  s.toList.length = 64 ∧ ∀ c ∈ s.toList, (hexDigit? c).isSome

theorem length_fromHexChars : ∀ (n : ℕ) (cs : List Char), cs.length = 2 * n →
    (∀ c ∈ cs, (hexDigit? c).isSome) → (fromHexChars cs).length = n
  | 0, cs, hlen, _ => by
    obtain rfl := List.length_eq_zero_iff.mp hlen
    rfl
  | n + 1, [], hlen, _ => by simp at hlen
  | n + 1, [_], hlen, _ => by simp at hlen; omega
  | n + 1, a :: b :: cs, hlen, hall => by
    obtain ⟨ha, hall⟩ := List.forall_mem_cons.mp hall
    obtain ⟨hb, hall⟩ := List.forall_mem_cons.mp hall
    obtain ⟨x, hx⟩ := Option.isSome_iff_exists.mp ha
    obtain ⟨y, hy⟩ := Option.isSome_iff_exists.mp hb
    have hrest := length_fromHexChars n cs
      (by rw [List.length_cons, List.length_cons] at hlen; omega) hall
    rw [fromHexChars, hx, hy]
    simp only [List.length_cons, hrest]

theorem IsHexField.length_fromHex {s : String} (h : IsHexField s) : (fromHex s).length = 32 :=
  length_fromHexChars 32 s.toList h.1 h.2

/-- What is hashed for the leaf at an index. -/
def leafMessage (key : Bytes) (index : ℕ) : Bytes := key ++ u32be index

/-- Everything hashed to build a plot. -/
def Plot.messages (p : Plot) (C : Crypto) : List Bytes :=
  (List.range p.size).map (leafMessage p.seed) ++ treeMessages C.sha256 joined (p.leaves C)

/-- Everything hashed on the way from a proof's leaf to the root. -/
def SpaceProof.messages (proof : SpaceProof) (C : Crypto) (key : Bytes) : List Bytes :=
  leafMessage key proof.index ::
    climbMessages C.sha256 joined (C.sha256 (leafMessage key proof.index)) proof.index
      (proof.path.map fromHex)

/-- Two different messages of a list have one digest. -/
def Collides (C : Crypto) (messages : List Bytes) : Prop :=
  ∃ x ∈ messages, ∃ y ∈ messages, x ≠ y ∧ C.sha256 x = C.sha256 y

/-- A proof that is the plot's own for its index. -/
structure Plot.Owns (p : Plot) (C : Crypto) (challenge : Bytes) (proof : SpaceProof) : Prop where
  leaf : ∃ leaf, (p.leaves C)[proof.index]? = some leaf ∧ proof.value = toHex leaf ∧
    proof.quality = toHex (C.sha256 (leaf ++ challenge))
  length_path : proof.path.length = p.k
  path : ∃ path, merklePath (p.layers C) proof.index = some path ∧
    proof.path.map fromHex = path.map fromHex ∧
      ((∀ s ∈ proof.path, isHexOf 64 s = true) → proof.path = path)

theorem injOn_of_not_collides {messages : List Bytes} (h : ¬ Collides C messages) :
    Set.InjOn C.sha256 {m | m ∈ messages} := by
  intro x hx y hy heq
  by_contra hne
  exact h ⟨x, hx, y, hy, hne, heq⟩

theorem unjoined_leafMessage {key : Bytes} (hkey : key.length = 32) (index : ℕ) :
    Unjoined joined {b | b.length = 32} (leafMessage key index) := by
  intro a ha b hb h
  have ha' : a.length = 32 := ha
  have hb' : b.length = 32 := hb
  have hlen := congrArg List.length h
  rw [joined, leafMessage, List.length_append, List.length_append, ha', hb', hkey] at hlen
  exact absurd hlen (by simp [u32be])

theorem binding_joined (hC : ∀ m, (C.sha256 m).length = 32) {messages : List Bytes}
    (h : ¬ Collides C messages) :
    Binding C.sha256 joined {b | b.length = 32} {m | m ∈ messages} where
  mem := hC
  join_inj := fun {a _ c _} ha _ hc _ h => List.append_inj h
    ((show a.length = 32 from ha).trans (show c.length = 32 from hc).symm)
  injOn := injOn_of_not_collides h

/-- An accepted proof is the plot's own, unless two hashed messages collide. -/
theorem owns_or_collides (hC : ∀ m, (C.sha256 m).length = 32) (hseed : p.seed = fromHex writerPubHex)
    (hkey : p.seed.length = 32) (hpath : ∀ s ∈ proof.path, IsHexField s)
    (h : verifySpaceProof C writerPubHex (p.commitment C) challenge proof = true) :
    p.Owns C challenge proof ∨ Collides C (p.messages C ++ proof.messages C p.seed) := by
  obtain ⟨root, hroot, hcommitment⟩ := p.merkleRoot_layers C
  rw [verifySpaceProof_iff, hcommitment] at h
  obtain ⟨hlt, hvalue, hverify, hquality⟩ := h
  have hplot : plotLeaf C writerPubHex proof.index = C.sha256 (leafMessage p.seed proof.index) := by
    rw [plotLeaf, ← hseed]
    rfl
  rw [hplot] at hvalue hverify hquality
  refine or_iff_not_imp_right.mpr fun hfree => ?_
  have hb := binding_joined hC hfree
  have hleaves : ∀ x ∈ p.leaves C, ∃ m ∈ {m | m ∈ p.messages C ++ proof.messages C p.seed},
      Unjoined joined {b | b.length = 32} m ∧ C.sha256 m = x := fun x hx => by
    obtain ⟨i, hi, rfl⟩ := List.mem_map.mp hx
    exact ⟨leafMessage p.seed i, List.mem_append_left _ (List.mem_append_left _
      (List.mem_map_of_mem hi)), unjoined_leafMessage hkey i, rfl⟩
  have hsibs : ∀ s ∈ proof.path.map fromHex, s ∈ {b : Bytes | b.length = 32} := fun s hs => by
    obtain ⟨t, ht, rfl⟩ := List.mem_map.mp hs
    exact (hpath t ht).length_fromHex
  obtain ⟨hlen, hget, hpaths⟩ := climb_unique hb (p.length_leaves C) hleaves
    ⟨leafMessage p.seed proof.index, List.mem_append_right _ List.mem_cons_self,
      unjoined_leafMessage hkey proof.index, rfl⟩ hsibs
    (fun m hm => by
      rcases List.mem_append.mp hm with ht | hc
      · exact List.mem_append_left _ (List.mem_append_right _ ht)
      · exact List.mem_append_right _ (List.mem_cons_of_mem _ hc))
    hroot (verifyMerkle_iff.mp hverify)
  have hmod : proof.index % 2 ^ p.k = proof.index := Nat.mod_eq_of_lt hlt
  rw [hmod] at hget hpaths
  rw [List.length_map] at hlen
  refine ⟨⟨_, hget, hvalue.symm, hquality.symm⟩, hlen, (proof.path.map fromHex).map toHex, ?_, ?_, ?_⟩
  · show (siblings (layers C.sha256 joined (p.leaves C)) proof.index).map (List.map toHex) = _
    rw [hpaths, Option.map_some]
  · rw [map_fromHex_map_toHex]
  · intro hlower
    rw [List.map_map]
    exact (List.map_congr_left fun s hs => toHex_fromHex (n := 32) (hlower s hs)).trans
      (List.map_id _) |>.symm

/-! ## Both verifiers -/

/-- The recomputed quality is the proof's own exactly where the proof verifies. -/
theorem recoverSpaceQuality_eq_iff (C : Crypto) (writerPubHex : String)
    (commitment : PlotCommitment) (challenge : Bytes) (proof : SpaceProof) :
    recoverSpaceQuality C writerPubHex commitment challenge proof.index proof.value proof.path
      = some proof.quality ↔
        verifySpaceProof C writerPubHex commitment challenge proof = true := by
  rw [verifySpaceProof_iff]
  unfold recoverSpaceQuality
  simp only
  by_cases hlt : proof.index < 2 ^ commitment.k
  · by_cases hvalue : toHex (plotLeaf C writerPubHex proof.index) = proof.value
    · cases hverify : verifyMerkle C (plotLeaf C writerPubHex proof.index) proof.index proof.path
          commitment.root with
      | false => simp [hlt, hvalue]
      | true => simp [hlt, hvalue]
    · simp [hlt, hvalue]
  · simp [hlt]

/-- What plot membership proofs are under a hash. -/
structure PlotProofs (C : Crypto) : Prop where
  /-- Every leaf of every tree is proved by its path. -/
  complete : ∀ (leaves : List Bytes) (index : ℕ) (leaf : Bytes), leaves[index]? = some leaf →
    ∃ root path, merkleRoot (buildMerkle C leaves) = some root ∧
      merklePath (buildMerkle C leaves) index = some path ∧
        verifyMerkle C leaf index path (toHex root) = true
  /-- There is a plot of every size, and it answers every challenge. -/
  proves : ∀ (writerPubHex : String) (k : ℕ), 1 ≤ k → k ≤ 24 →
    ∃ p, Plot.new (fromHex writerPubHex) k = .ok p ∧ ∀ challenge,
      ∃ proof, p.prove C challenge = some proof ∧
        verifySpaceProof C writerPubHex (p.commitment C) challenge proof = true
  /-- What verifies for a plot is the plot's own, or two hashed messages collide. -/
  sound : ∀ (writerPubHex : String) (k : ℕ) (p : Plot) (challenge : Bytes) (proof : SpaceProof),
    (fromHex writerPubHex).length = 32 → Plot.new (fromHex writerPubHex) k = .ok p →
      (∀ s ∈ proof.path, IsHexField s) →
        verifySpaceProof C writerPubHex (p.commitment C) challenge proof = true →
          p.Owns C challenge proof ∨ Collides C (p.messages C ++ proof.messages C p.seed)
  /-- Recomputing the quality is verifying. -/
  recovers : ∀ (writerPubHex : String) (commitment : PlotCommitment) (challenge : Bytes)
    (proof : SpaceProof),
    recoverSpaceQuality C writerPubHex commitment challenge proof.index proof.value proof.path
      = some proof.quality ↔ verifySpaceProof C writerPubHex commitment challenge proof = true

theorem Plot.new_ok {seed : Bytes} {k : ℕ} (h : Plot.new seed k = .ok p) : p.seed = seed ∧ p.k = k := by
  unfold Plot.new at h
  split_ifs at h
  obtain rfl := Except.ok.inj h
  exact ⟨rfl, rfl⟩

/-- **Plot membership proofs are complete and sound**, with digests of 32 bytes. -/
theorem plotProofs (hC : ∀ m, (C.sha256 m).length = 32) : PlotProofs C where
  complete := fun _ _ _ hleaf => verifyMerkle_merklePath hleaf
  proves := fun writerPubHex k hlo hhi => by
    refine ⟨⟨fromHex writerPubHex, k, hlo, hhi⟩, ?_,
      fun challenge => verifySpaceProof_prove _ C challenge rfl⟩
    unfold Plot.new
    rw [dif_neg (by omega)]
  sound := fun writerPubHex k p challenge proof hkey hnew hpath h => by
    obtain ⟨hseed, -⟩ := Plot.new_ok hnew
    exact owns_or_collides hC hseed (hseed ▸ hkey) hpath h
  recovers := recoverSpaceQuality_eq_iff C

/-- The first 32 bytes of a message, padded. -/
def truncating : Crypto where
  sha256 m := (m ++ List.replicate 32 0).take 32
  edVerify _ _ _ := false

theorem plotProofs_truncating : PlotProofs truncating := by
  refine plotProofs fun m => ?_
  show ((m ++ List.replicate 32 0).take 32).length = 32
  rw [List.length_take, List.length_append, List.length_replicate]
  omega

end Gavl
