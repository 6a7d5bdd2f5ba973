import Gavl.Lib.SortedMerkle
import Gavl.Swap.ScanTheorems

/-!
# An HTLC's address binds its terms

The output commits to a tree of two leaves. Each leaf is opened by its control block, and another
party arrives at the same root with the same terms only.
-/

namespace Gavl

open SortedMerkle

/-! ## The script tree -/

section
variable (L : SwapLib)

/-- The digests of a taproot script tree. -/
def tapHashing : Hashing Bytes Bytes where
  leaf := L.tapLeafHash
  pair d := L.schnorr.taggedHash "TapBranch" (d.1 ++ d.2)
  le := leBytes

/-- The two leaves of an HTLC. -/
def htlcTree (params : HtlcParams) : MerkleTree Bytes :=
  .branch (.leaf (Tapscript.encode (claimLeafOps params)))
    (.leaf (Tapscript.encode (refundLeafOps params)))

/-- A message under the tag of a leaf, or under that of a branch. -/
def tapHash : Bytes ⊕ Bytes → Bytes := Sum.elim L.tapLeafHash (L.schnorr.taggedHash "TapBranch")

/-- What is hashed for the root of an HTLC. -/
def tapMessages (params : HtlcParams) : List (Bytes ⊕ Bytes) :=
  ((htlcTree params).preimages (tapHashing L)).map (Sum.map id fun d => d.1 ++ d.2)

/-- Tagged hashes have 32 bytes, and among these messages no two collide. -/
structure TaggedHashes (messages : Set (Bytes ⊕ Bytes)) : Prop where
  length_tapLeafHash : ∀ leaf, (L.tapLeafHash leaf).length = 32
  injOn : Set.InjOn (tapHash L) messages

/-- The siblings a control block lists, 32 bytes each. -/
def controlPath (control : Bytes) : List Bytes :=
  (List.range ((control.length - 33) / 32)).map fun i => ((control.drop 33).drop (32 * i)).take 32

/-- BIP341's check of a script path: a tapscript leaf whose path leads, through the tweak of the
internal key, to the output key and its parity. -/
def tapCommits (outputKey control leaf : Bytes) : Bool :=
  match control with
  | [] => false
  | header :: rest =>
    decide (33 ≤ control.length ∧ (control.length - 33) % 32 = 0 ∧ control.length ≤ 33 + 32 * 128) &&
      decide (header &&& 0xfe = tapscriptLeafVersion) &&
      decide (L.tweak (rest.take 32) ((tapHashing L).climb leaf (controlPath control))
        = (outputKey, header &&& 1))

end

/-! ## The order of digests -/

theorem leBytes_total : ∀ x y : Bytes, leBytes x y = true ∨ leBytes y x = true
  | [], _ => Or.inl rfl
  | _ :: _, [] => Or.inr rfl
  | a :: as, b :: bs => by
    unfold leBytes
    by_cases hab : a = b
    · rw [if_pos hab, if_pos hab.symm]
      exact leBytes_total as bs
    · rw [if_neg hab, if_neg (Ne.symm hab), decide_eq_true_eq, decide_eq_true_eq]
      rw [UInt8.lt_iff_toNat_lt, UInt8.lt_iff_toNat_lt]
      exact lt_or_gt_of_ne fun heq => hab (UInt8.toNat_inj.mp heq)

theorem leBytes_antisymm : ∀ {x y : Bytes}, leBytes x y = true → leBytes y x = true → x = y
  | [], [], _, _ => rfl
  | [], _ :: _, _, h => nomatch h
  | _ :: _, [], h, _ => nomatch h
  | a :: as, b :: bs, hxy, hyx => by
    unfold leBytes at hxy hyx
    by_cases hab : a = b
    · rw [if_pos hab] at hxy
      rw [if_pos hab.symm] at hyx
      rw [hab, leBytes_antisymm hxy hyx]
    · rw [if_neg hab, decide_eq_true_eq, UInt8.lt_iff_toNat_lt] at hxy
      rw [if_neg (Ne.symm hab), decide_eq_true_eq, UInt8.lt_iff_toNat_lt] at hyx
      exact absurd hyx (lt_asymm hxy)

theorem ordered_tapHashing (L : SwapLib) : (tapHashing L).Ordered :=
  ⟨leBytes_total, leBytes_antisymm⟩

/-! ## Leaves -/

variable {L : SwapLib} {p q : HtlcParams} {hp hq : Htlc}

theorem scriptNum_injOn {n m : ℕ} (hn : n ≤ htlcMaxRefundBlocks) (hm : m ≤ htlcMaxRefundBlocks)
    (h : scriptNum n = scriptNum m) : n = m := by
  have hbyte : ∀ {a b : ℕ}, UInt8.ofNat a = UInt8.ofNat b → a % 256 = b % 256 := fun {a b} heq => by
    have := congrArg UInt8.toNat heq
    rwa [UInt8.toNat_ofNat', UInt8.toNat_ofNat'] at this
  unfold htlcMaxRefundBlocks at hn hm
  unfold scriptNum at h
  split_ifs at h
  all_goals first
    | (simp at h; done)
    | (simp only [List.cons.injEq, and_true] at h
       first
       | have h₀ := hbyte h
         omega
       | have h₀ := hbyte h.1
         have h₁ := hbyte h.2
         omega)

theorem length_scriptNum_le (n : ℕ) : (scriptNum n).length ≤ 3 := by
  unfold scriptNum
  split_ifs <;> simp

/-- What `htlcScript` checks of its terms. -/
structure HtlcParams.Valid (params : HtlcParams) : Prop where
  length_hash : params.hash.length = 32
  length_receiver : params.receiver.length = 32
  length_sender : params.sender.length = 32
  refundBlocks_le : params.refundBlocks ≤ htlcMaxRefundBlocks

theorem length_of_keyError_none {name : String} {key : Bytes} (h : keyError L name key = none) :
    key.length = 32 := by
  by_contra hlen
  unfold keyError at h
  rw [if_pos hlen] at h
  exact Option.some_ne_none _ h

/-- The checks of `htlcScript` that let terms through. -/
theorem checks_of_htlcScript (h : htlcScript L p = .ok hp) : p.hash.length = 32 ∧
    (keyError L "receiver" p.receiver).or (keyError L "sender" p.sender) = none ∧
      ¬ (p.refundBlocks < 1 ∨ htlcMaxRefundBlocks < p.refundBlocks) := by
  unfold htlcScript at h
  by_cases hhash : p.hash.length = 32
  swap
  · rw [if_pos hhash] at h
    exact nomatch h
  rw [if_neg (not_not.mpr hhash)] at h
  cases hkeys : (keyError L "receiver" p.receiver).or (keyError L "sender" p.sender) with
  | some err =>
    rw [hkeys] at h
    exact nomatch h
  | none =>
    rw [hkeys] at h
    by_cases hblocks : p.refundBlocks < 1 ∨ htlcMaxRefundBlocks < p.refundBlocks
    · simp only [if_pos hblocks] at h
      exact nomatch h
    · exact ⟨hhash, rfl, hblocks⟩

theorem valid_of_htlcScript (h : htlcScript L p = .ok hp) : p.Valid := by
  obtain ⟨hhash, hkeys, hblocks⟩ := checks_of_htlcScript h
  obtain ⟨hreceiver, hsender⟩ := Option.or_eq_none_iff.mp hkeys
  refine ⟨hhash, length_of_keyError_none hreceiver, length_of_keyError_none hsender, ?_⟩
  omega

/-- The fields of the HTLC that valid terms make. -/
theorem htlcScript_eq (h : htlcScript L p = .ok hp) :
    hp.claimLeaf = Tapscript.encode (claimLeafOps p) ∧
      hp.refundLeaf = Tapscript.encode (refundLeafOps p) ∧
      hp.merkleRoot = (htlcTree p).root (tapHashing L) ∧
      hp.outputKey = (L.tweak numsInternalKey hp.merkleRoot).1 ∧
      hp.claimControlBlock = [tapscriptLeafVersion ||| (L.tweak numsInternalKey hp.merkleRoot).2]
        ++ numsInternalKey ++ L.tapLeafHash hp.refundLeaf ∧
      hp.refundControlBlock = [tapscriptLeafVersion ||| (L.tweak numsInternalKey hp.merkleRoot).2]
        ++ numsInternalKey ++ L.tapLeafHash hp.claimLeaf := by
  obtain ⟨hhash, hkeys, hblocks⟩ := checks_of_htlcScript h
  unfold htlcScript at h
  rw [if_neg (not_not.mpr hhash), hkeys] at h
  simp only [if_neg hblocks] at h
  obtain rfl := Except.ok.inj h
  have hroot : ∀ x y : Bytes, L.schnorr.taggedHash "TapBranch"
      (if leBytes x y then x ++ y else y ++ x) = (tapHashing L).combine x y := fun x y => by
    unfold Hashing.combine Hashing.sorted
    show _ = L.schnorr.taggedHash "TapBranch"
      ((if leBytes x y then (x, y) else (y, x)).1 ++ (if leBytes x y then (x, y) else (y, x)).2)
    split_ifs <;> rfl
  exact ⟨rfl, rfl, hroot _ _, rfl, rfl, rfl⟩

theorem direct_claimLeafOps (h : p.Valid) : ∀ op ∈ claimLeafOps p, op.Direct := by
  have hhash := h.length_hash
  have hreceiver := h.length_receiver
  simp only [claimLeafOps, List.forall_mem_cons, Tapscript.Op.Direct, true_and]
  refine ⟨by omega, by omega, fun op h => absurd h List.not_mem_nil⟩

theorem direct_refundLeafOps (h : p.Valid) : ∀ op ∈ refundLeafOps p, op.Direct := by
  have hsender := h.length_sender
  have hnum := length_scriptNum_le p.refundBlocks
  simp only [refundLeafOps, List.forall_mem_cons, Tapscript.Op.Direct, true_and]
  refine ⟨by omega, by omega, fun op h => absurd h List.not_mem_nil⟩

theorem encode_injOn {ops ops' : List Tapscript.Op} (hops : ∀ op ∈ ops, op.Direct)
    (hops' : ∀ op ∈ ops', op.Direct) (h : Tapscript.encode ops = Tapscript.encode ops') :
    ops = ops' := by
  have hread := Tapscript.parse_encode hops
  rw [h, Tapscript.parse_encode hops'] at hread
  exact (Option.some.inj hread).symm

theorem claimLeaf_inj (hvp : p.Valid) (hvq : q.Valid)
    (h : Tapscript.encode (claimLeafOps p) = Tapscript.encode (claimLeafOps q)) :
    p.hash = q.hash ∧ p.receiver = q.receiver := by
  have hops := encode_injOn (direct_claimLeafOps hvp) (direct_claimLeafOps hvq) h
  simpa [claimLeafOps] using hops

theorem refundLeaf_inj (hvp : p.Valid) (hvq : q.Valid)
    (h : Tapscript.encode (refundLeafOps p) = Tapscript.encode (refundLeafOps q)) :
    p.refundBlocks = q.refundBlocks ∧ p.sender = q.sender := by
  have hops := encode_injOn (direct_refundLeafOps hvp) (direct_refundLeafOps hvq) h
  obtain ⟨hnum, hsender⟩ : scriptNum p.refundBlocks = scriptNum q.refundBlocks ∧
      p.sender = q.sender := by
    simpa [refundLeafOps] using hops
  exact ⟨scriptNum_injOn hvp.refundBlocks_le hvq.refundBlocks_le hnum, hsender⟩

/-- A claim starts with a hash, a refund with a push. -/
theorem claimLeaf_ne_refundLeaf (hvp : p.Valid) (hvq : q.Valid) :
    Tapscript.encode (claimLeafOps p) ≠ Tapscript.encode (refundLeafOps q) := by
  intro h
  have hops := encode_injOn (direct_claimLeafOps hvp) (direct_refundLeafOps hvq) h
  simp [claimLeafOps, refundLeafOps] at hops

/-- The leaves of two HTLCs agree up to their order only if the terms agree. -/
theorem eq_of_leaves_perm (hvp : p.Valid) (hvq : q.Valid)
    (h : (htlcTree p).leaves.Perm (htlcTree q).leaves) : p = q := by
  have hclaim : Tapscript.encode (claimLeafOps p) ∈ (htlcTree q).leaves :=
    h.subset List.mem_cons_self
  have hrefund : Tapscript.encode (refundLeafOps p) ∈ (htlcTree q).leaves :=
    h.subset (List.mem_cons_of_mem _ List.mem_cons_self)
  simp only [htlcTree, MerkleTree.leaves, List.singleton_append, List.mem_cons, List.not_mem_nil,
    or_false] at hclaim hrefund
  obtain ⟨hhash, hreceiver⟩ :=
    claimLeaf_inj hvp hvq (hclaim.resolve_right (claimLeaf_ne_refundLeaf hvp hvq))
  obtain ⟨hblocks, hsender⟩ := refundLeaf_inj hvp hvq
    (hrefund.resolve_left fun heq => claimLeaf_ne_refundLeaf hvq hvp heq.symm)
  show (⟨p.hash, p.receiver, p.sender, p.refundBlocks⟩ : HtlcParams) = q
  rw [hhash, hreceiver, hsender, hblocks]

/-! ## Openings and binding -/

/-- Pairs of 32-byte digests are told apart by their concatenations. -/
theorem injOn_hash (h : TaggedHashes L {m | m ∈ tapMessages L p ∨ m ∈ tapMessages L q}) :
    Set.InjOn (tapHashing L).hash
      {x | x ∈ (htlcTree p).preimages (tapHashing L) ∨
        x ∈ (htlcTree q).preimages (tapHashing L)} := by
  have hmem : ∀ {params : HtlcParams} {x : Bytes ⊕ Bytes × Bytes},
      x ∈ (htlcTree params).preimages (tapHashing L) →
        Sum.map id (fun d : Bytes × Bytes => d.1 ++ d.2) x ∈ tapMessages L params :=
    fun hx => List.mem_map.mpr ⟨_, hx, rfl⟩
  have hlen : ∀ {params : HtlcParams} {d : Bytes × Bytes},
      Sum.inr d ∈ (htlcTree params).preimages (tapHashing L) → d.1.length = 32 := by
    intro params d hd
    unfold htlcTree MerkleTree.preimages MerkleTree.preimages at hd
    simp only [List.mem_cons, List.mem_append, List.not_mem_nil, reduceCtorEq, or_false,
      Sum.inr.injEq] at hd
    rw [hd]
    rcases sorted_eq_or (H := tapHashing L) _ _ with h' | h' <;> rw [h'] <;>
      exact h.length_tapLeafHash _
  have hside : ∀ {x : Bytes ⊕ Bytes × Bytes}, (tapHashing L).hash x
      = tapHash L (Sum.map id (fun d : Bytes × Bytes => d.1 ++ d.2) x) := fun {x} => by
    cases x <;> rfl
  intro x hx y hy heq
  rw [hside, hside] at heq
  have hmap := h.injOn (hx.imp hmem hmem) (hy.imp hmem hmem) heq
  cases x with
  | inl a =>
    cases y with
    | inl b =>
      have hab : a = b := Sum.inl.inj hmap
      rw [hab]
    | inr e => exact absurd hmap Sum.inl_ne_inr
  | inr d =>
    cases y with
    | inl b => exact absurd hmap Sum.inr_ne_inl
    | inr e =>
      have hconcat : d.1 ++ d.2 = e.1 ++ e.2 := Sum.inr.inj hmap
      have hd : d.1.length = 32 := hx.elim hlen hlen
      have he : e.1.length = 32 := hy.elim hlen hlen
      obtain ⟨hfst, hsnd⟩ := List.append_inj hconcat (hd.trans he.symm)
      rw [Prod.ext hfst hsnd]

/-- One root, one set of terms. -/
theorem params_eq_of_merkleRoot_eq (hhp : htlcScript L p = .ok hp) (hhq : htlcScript L q = .ok hq)
    (hhash : TaggedHashes L {m | m ∈ tapMessages L p ∨ m ∈ tapMessages L q})
    (h : hp.merkleRoot = hq.merkleRoot) : p = q := by
  rw [(htlcScript_eq hhp).2.2.1, (htlcScript_eq hhq).2.2.1] at h
  exact eq_of_leaves_perm (valid_of_htlcScript hhp) (valid_of_htlcScript hhq)
    (leaves_perm_of_root_eq (injOn_hash hhash) h)

theorem length_numsInternalKey : numsInternalKey.length = 32 := by decide

/-- The control block of a leaf lists its sibling. -/
theorem controlPath_eq {header : UInt8} {sibling : Bytes} (h : sibling.length = 32) :
    controlPath ([header] ++ numsInternalKey ++ sibling) = [sibling] := by
  have hlen : ([header] ++ numsInternalKey).length = 33 := by
    rw [List.length_append, length_numsInternalKey]
    rfl
  have hdrop : ([header] ++ numsInternalKey ++ sibling).drop 33 = sibling := by
    rw [← hlen, List.drop_left]
  unfold controlPath
  rw [hdrop, List.length_append, hlen, h]
  show [(sibling.drop 0).take 32] = [sibling]
  rw [List.drop_zero, List.take_of_length_le (by omega)]

/-- The leaf version and the parity share a byte. -/
theorem header_eq {parity : UInt8} (h : parity ≤ 1) :
    (tapscriptLeafVersion ||| parity) &&& 0xfe = tapscriptLeafVersion ∧
      (tapscriptLeafVersion ||| parity) &&& 1 = parity := by
  have h01 : parity = 0 ∨ parity = 1 := by
    have hle : parity.toNat ≤ 1 := UInt8.le_iff_toNat_le.mp h
    rcases Nat.le_one_iff_eq_zero_or_eq_one.mp hle with h0 | h1
    · exact Or.inl (UInt8.toNat_inj.mp h0)
    · exact Or.inr (UInt8.toNat_inj.mp h1)
  rcases h01 with rfl | rfl <;> decide

/-- A leaf and its sibling, under the header the output key asks for, pass BIP341's check. -/
theorem tapCommits_of_climb {leaf sibling root : Bytes} (hlen : sibling.length = 32)
    (hparity : (L.tweak numsInternalKey root).2 ≤ 1)
    (hclimb : (tapHashing L).climb leaf [sibling] = root) :
    tapCommits L (L.tweak numsInternalKey root).1
      ([tapscriptLeafVersion ||| (L.tweak numsInternalKey root).2] ++ numsInternalKey ++ sibling)
      leaf = true := by
  obtain ⟨hversion, hbit⟩ := header_eq hparity
  have hpath : controlPath ([tapscriptLeafVersion ||| (L.tweak numsInternalKey root).2]
      ++ numsInternalKey ++ sibling) = [sibling] := controlPath_eq hlen
  have hkey : (numsInternalKey ++ sibling).take 32 = numsInternalKey := by
    rw [← length_numsInternalKey, List.take_left]
  unfold tapCommits
  show (decide _ && decide _ && decide (L.tweak ((numsInternalKey ++ sibling).take 32) _ = _)) = true
  rw [hpath, hclimb, hversion, hbit, hkey]
  have hsize : ([tapscriptLeafVersion ||| (L.tweak numsInternalKey root).2] ++ numsInternalKey
      ++ sibling).length = 65 := by
    rw [List.length_append, List.length_append, length_numsInternalKey, hlen]
    rfl
  rw [hsize]
  simp

/-- A leaf and its control block spend the output of an HTLC. -/
structure Opens (L : SwapLib) (htlc : Htlc) (leaf control : Bytes) : Prop where
  climb_eq : (tapHashing L).climb leaf (controlPath control) = htlc.merkleRoot
  commits : tapCommits L htlc.outputKey control leaf = true

/-- A leaf of the tree and its sibling, under the header of the HTLC. -/
theorem opens_of_mem_openings (hhp : htlcScript L p = .ok hp)
    (hparity : ∀ root, (L.tweak numsInternalKey root).2 ≤ 1) {leaf sibling : Bytes}
    (hlen : sibling.length = 32)
    (hmem : (leaf, [sibling]) ∈ (htlcTree p).openings (tapHashing L)) :
    Opens L hp leaf ([tapscriptLeafVersion ||| (L.tweak numsInternalKey hp.merkleRoot).2]
      ++ numsInternalKey ++ sibling) := by
  obtain ⟨-, -, hroot, hkey, -, -⟩ := htlcScript_eq hhp
  have hclimb : (tapHashing L).climb leaf [sibling] = hp.merkleRoot := by
    rw [hroot]
    exact climb_of_mem_openings (ordered_tapHashing L) hmem
  refine ⟨?_, ?_⟩
  · rw [controlPath_eq hlen]
    exact hclimb
  · rw [hkey]
    exact tapCommits_of_climb hlen (hparity _) hclimb

/-- The claim leaf is opened by its control block. -/
theorem opens_claimLeaf (hhp : htlcScript L p = .ok hp)
    (hlen : ∀ leaf, (L.tapLeafHash leaf).length = 32)
    (hparity : ∀ root, (L.tweak numsInternalKey root).2 ≤ 1) :
    Opens L hp hp.claimLeaf hp.claimControlBlock := by
  obtain ⟨hclaim, hrefund, -, -, hblock, -⟩ := htlcScript_eq hhp
  rw [hblock]
  refine opens_of_mem_openings hhp hparity (hlen _) ?_
  rw [hclaim, hrefund]
  exact List.mem_cons_self

/-- The refund leaf is opened by its control block. -/
theorem opens_refundLeaf (hhp : htlcScript L p = .ok hp)
    (hlen : ∀ leaf, (L.tapLeafHash leaf).length = 32)
    (hparity : ∀ root, (L.tweak numsInternalKey root).2 ≤ 1) :
    Opens L hp hp.refundLeaf hp.refundControlBlock := by
  obtain ⟨hclaim, hrefund, -, -, -, hblock⟩ := htlcScript_eq hhp
  rw [hblock]
  refine opens_of_mem_openings hhp hparity (hlen _) ?_
  rw [hclaim, hrefund]
  exact List.mem_cons_of_mem _ List.mem_cons_self

/-- Where addresses tell two roots apart, they tell the terms apart. -/
theorem params_eq_of_address_eq (hhp : htlcScript L p = .ok hp) (hhq : htlcScript L q = .ok hq)
    (hhash : TaggedHashes L {m | m ∈ tapMessages L p ∨ m ∈ tapMessages L q}) {chain : Chain}
    {net : Net} (haddress : Set.InjOn
      (fun root => L.trAddress (L.tweak numsInternalKey root).1 chain net)
      {hp.merkleRoot, hq.merkleRoot})
    (h : L.trAddress hp.outputKey chain net = L.trAddress hq.outputKey chain net) : p = q := by
  rw [(htlcScript_eq hhp).2.2.2.1, (htlcScript_eq hhq).2.2.2.1] at h
  exact params_eq_of_merkleRoot_eq hhp hhq hhash (haddress (Or.inl rfl) (Or.inr rfl) h)

/-- **Both leaves of an HTLC open its output, and its root and its address bind its terms.** -/
theorem htlc_binds (L : SwapLib) (p q : HtlcParams) (hp hq : Htlc)
    (hhp : htlcScript L p = .ok hp) (hhq : htlcScript L q = .ok hq)
    (hhash : TaggedHashes L {m | m ∈ tapMessages L p ∨ m ∈ tapMessages L q})
    (hparity : ∀ root, (L.tweak numsInternalKey root).2 ≤ 1) :
    (Opens L hp hp.claimLeaf hp.claimControlBlock ∧
      Opens L hp hp.refundLeaf hp.refundControlBlock) ∧
      (p.hash ≠ q.hash ∨ p.receiver ≠ q.receiver ∨ p.sender ≠ q.sender ∨
          p.refundBlocks ≠ q.refundBlocks →
        hp.merkleRoot ≠ hq.merkleRoot) ∧
      ∀ chain net, Set.InjOn (fun root => L.trAddress (L.tweak numsInternalKey root).1 chain net)
          {hp.merkleRoot, hq.merkleRoot} →
        (L.trAddress hp.outputKey chain net = L.trAddress hq.outputKey chain net ↔ p = q) := by
  refine ⟨⟨opens_claimLeaf hhp hhash.length_tapLeafHash hparity,
    opens_refundLeaf hhp hhash.length_tapLeafHash hparity⟩, ?_, fun chain net haddress => ?_⟩
  · intro hne hroot
    obtain rfl := params_eq_of_merkleRoot_eq hhp hhq hhash hroot
    tauto
  · constructor
    · exact params_eq_of_address_eq hhp hhq hhash haddress
    · rintro rfl
      rw [Except.ok.inj (hhp.symm.trans hhq)]

/-- 32 bytes of a polynomial in the bytes of a message. -/
def polyDigest (seed : ℕ) (message : Bytes) : Bytes :=
  let n := message.foldl (fun n b => n * 257 + b.toNat + 1) seed
  (List.range 32).map fun i => UInt8.ofNat (n / 256 ^ i)

/-- A platform with digests of 32 bytes. -/
def polySwapLib : SwapLib :=
  { plainSwapLib with
    schnorr := { plainSchnorr with taggedHash := fun _ => polyDigest 2 }
    tapLeafHash := polyDigest 1
    tweak := fun _ root => (root, 1)
    trAddress := fun key _ _ => toHex key }

/-- The same terms with the two parties in each other's place. -/
def swappedParams : HtlcParams :=
  { plainParams with receiver := plainParams.sender, sender := plainParams.receiver }

theorem taggedHashes_polySwapLib : TaggedHashes polySwapLib
    {m | m ∈ tapMessages polySwapLib plainParams ∨ m ∈ tapMessages polySwapLib swappedParams} := by
  refine ⟨fun leaf => by simp [polySwapLib, polyDigest], ?_⟩
  have hall : ∀ x ∈ tapMessages polySwapLib plainParams ++ tapMessages polySwapLib swappedParams,
      ∀ y ∈ tapMessages polySwapLib plainParams ++ tapMessages polySwapLib swappedParams,
        tapHash polySwapLib x = tapHash polySwapLib y → x = y := by
    decide +kernel
  intro x hx y hy
  exact hall x (List.mem_append.mpr hx) y (List.mem_append.mpr hy)

/-- Two parties who disagree about their roles derive two addresses. -/
theorem htlc_binds_swapped : ∃ hp hq, htlcScript polySwapLib plainParams = .ok hp ∧
    htlcScript polySwapLib swappedParams = .ok hq ∧ hp.merkleRoot ≠ hq.merkleRoot ∧
      polySwapLib.trAddress hp.outputKey .bitcoin .mainnet
        ≠ polySwapLib.trAddress hq.outputKey .bitcoin .mainnet := by
  obtain ⟨hp, hhp⟩ : ∃ hp, htlcScript polySwapLib plainParams = .ok hp := ⟨_, rfl⟩
  obtain ⟨hq, hhq⟩ : ∃ hq, htlcScript polySwapLib swappedParams = .ok hq := ⟨_, rfl⟩
  obtain ⟨-, hroot, haddress⟩ := htlc_binds polySwapLib plainParams swappedParams hp hq hhp hhq
    taggedHashes_polySwapLib (fun root => by show (1 : UInt8) ≤ 1; decide)
  refine ⟨hp, hq, hhp, hhq, hroot (Or.inr (Or.inl (by decide))), ?_⟩
  intro heq
  have hsame := (haddress .bitcoin .mainnet fun _ _ _ _ h => toHex_injective h).mp heq
  exact absurd hsame (by decide)

end Gavl
