import Gavl.Consensus.AnchorTheorems
import Gavl.Chain.Writer
import Gavl.Consensus.HeadsTheorems
import Gavl.Det.CanonicalTheorems
import Gavl.Det.Shape

/-!
# The names of a key

Writers and producers are told apart by a string and proved by the bytes that `fromHex` reads off
it. The decoder takes digits of either case and stops at what is no digit, and nothing else looks
at the string: every spelling of a key passes as a name of its own.
-/

namespace Gavl

variable {C : Crypto} {params : ChainParams} {a b : String}

/-! ## Definitions -/

/-- The elements of an array of strings. -/
def Json.asStrings? : Json → Option (List String)
  | .arr items => items.mapM Json.asString?
  | _ => none

/-- `StandinSpaceVerifier`. -/
def standinSpace (C : Crypto) : SpaceVerifier := fun commitment producer challenge proof =>
  if commitment.kind ≠ "standin" then ⟨false, none⟩
  else
    match (proof.get? "index").bind (Json.asNat? (2 ^ 53)), proof.string? "value",
        (proof.get? "path").bind Json.asStrings? with
    | some index, some value, some path =>
      match recoverSpaceQuality C producer ⟨commitment.id, commitment.k⟩ challenge index value
          path with
      | some quality => ⟨true, some quality⟩
      | none => ⟨false, none⟩
    | _, _, _ => ⟨false, none⟩

/-- The digits that `fromHex` reads. -/
def readDigits : List Char → List Char
  | x :: y :: rest =>
    if (hexDigit? x).isSome ∧ (hexDigit? y).isSome then x :: y :: readDigits rest else []
  | _ => []

/-- What it leaves unread. -/
def ignoredTail : List Char → List Char
  | x :: y :: rest =>
    if (hexDigit? x).isSome ∧ (hexDigit? y).isSome then ignoredTail rest else x :: y :: rest
  | cs => cs

/-- Two strings have their digits in the same case and the same tail behind them. -/
structure SameSpelling (a b : String) : Prop where
  digits : (readDigits a.toList).map Char.isUpper = (readDigits b.toList).map Char.isUpper
  tail : ignoredTail a.toList = ignoredTail b.toList

theorem isUpper_iff (c : Char) : c.isUpper = true ↔ 65 ≤ c.toNat ∧ c.toNat ≤ 90 := by
  unfold Char.isUpper
  rw [decide_eq_true_eq]
  exact Iff.rfl

/-- Digests are not empty, a delay can be served, and the holders of the named keys sign. -/
structure Served (C : Crypto) (params : ChainParams) (names : String → Prop) : Prop where
  digest_ne : ∀ m, C.sha256 m ≠ []
  serves : ∀ seed n, ∃ t : TimeProof, n ≤ t.iters ∧ params.vdfVerify seed t = true
  signs : ∀ name, names name → ∀ m, ∃ sig, C.edVerify (fromHex name) m (fromHex sig) = true

/-- The first anchor of a one-leaf plot under a name, before its delay is served. -/
def bodyUnder (C : Crypto) (params : ChainParams) (name : String) : AnchorBody :=
  { height := 0
    prev := none
    producer := name
    nonce := 0
    step := []
    difficulty := params.difficulty
    headsDelta := ∅
    stateRoot := rootOfHeads C ∅
    appRoot := ""
    weight := 0 + params.difficulty
    space := ⟨"standin", toHex (plotLeaf C name 0), 0⟩
    proof := .obj [("index", .nat 0), ("value", .str (toHex (plotLeaf C name 0))), ("path", .arr [])] }

/-- A one-leaf plot answers every challenge. -/
theorem standinSpace_bodyUnder (challenge : Bytes) :
    standinSpace C (bodyUnder C params a).space a challenge (bodyUnder C params a).proof
      = ⟨true, some (toHex (C.sha256 (plotLeaf C a 0 ++ challenge)))⟩ := by
  have hindex : ((bodyUnder C params a).proof.get? "index").bind (Json.asNat? (2 ^ 53)) = some 0 := by
    show Json.asNat? (2 ^ 53) (.nat 0) = some 0
    decide
  have hvalue : (bodyUnder C params a).proof.string? "value" = some (toHex (plotLeaf C a 0)) := rfl
  have hpath : ((bodyUnder C params a).proof.get? "path").bind Json.asStrings? = some [] := rfl
  have hrecover : recoverSpaceQuality C a ⟨toHex (plotLeaf C a 0), 0⟩ challenge 0
      (toHex (plotLeaf C a 0)) [] = some (toHex (C.sha256 (plotLeaf C a 0 ++ challenge))) := by
    simp [recoverSpaceQuality, verifyMerkle, merkleWalk]
  have hspace : (bodyUnder C params a).space = ⟨"standin", toHex (plotLeaf C a 0), 0⟩ := rfl
  unfold standinSpace
  rw [hindex, hvalue, hpath, hspace]
  simp only [ne_eq, not_true_eq_false, if_false, hrecover]

theorem verifyAnchor_of {x : Anchor} {quality : String} {n : ℕ} {verifier : SpaceVerifier}
    (hshape : x.toAnchorBody = bodyUnder C params a)
    (hspace : verifier x.space x.producer (anchorChallenge C none 0) x.proof = ⟨true, some quality⟩)
    (hne : quality ≠ "") (hquality : hexToNat? quality = some n)
    (hiters : requiredIters n params 1 params.difficulty ≤ x.time.iters)
    (htime : params.vdfVerify (vdfChallenge C (anchorChallenge C none 0) quality) x.time = true)
    (hid : idOf C x.toAnchorBody x.time = x.id)
    (hsig : C.edVerify (fromHex x.producer) (fromHex x.id) (fromHex x.sig) = true) :
    verifyAnchor C x none ∅ params params.difficulty verifier = .ok ∅ := by
  have hproofs : verifyProofs C params verifier x params.difficulty (anchorChallenge C none 0) ∅
      = .ok ∅ := by
    have hweight : spaceWeightFor x.space = 1 := by
      rw [hshape]
      rfl
    unfold verifyProofs
    simp only [hspace, Option.filter_some, hne, ne_eq, not_false_eq_true, decide_true, Bool.and_true,
      if_true, hquality, hweight, not_lt.mpr hiters, if_false, htime, Bool.not_true,
      Bool.false_eq_true, hid, not_true_eq_false, hsig]
  unfold verifyAnchor challengeFor
  simp only [hshape]
  rw [← hproofs]
  simp [bodyUnder, maxSignage]

theorem exists_anchor (h : Served C params fun n => n = a) :
    ∃ x : Anchor, x.producer = a ∧
      verifyAnchor C x none ∅ params params.difficulty (standinSpace C) = .ok ∅ := by
  obtain ⟨n, hn⟩ : ∃ n, hexToNat? (toHex (C.sha256 (plotLeaf C a 0 ++ anchorChallenge C none 0)))
      = some n := hexToNat?_toHex _
  obtain ⟨t, hiters, ht⟩ := h.serves (vdfChallenge C (anchorChallenge C none 0)
    (toHex (C.sha256 (plotLeaf C a 0 ++ anchorChallenge C none 0))))
    (requiredIters n params 1 params.difficulty)
  obtain ⟨sig, hsig⟩ := h.signs a rfl (fromHex (idOf C (bodyUnder C params a) t))
  exact ⟨{ bodyUnder C params a with time := t, id := idOf C (bodyUnder C params a) t, sig := sig },
    rfl, verifyAnchor_of rfl (standinSpace_bodyUnder _) (toHex_ne_empty (h.digest_ne _)) hn hiters
      ht rfl hsig⟩

/-- Lower-case hex of one length is spelled one way. -/
theorem sameSpelling_of_isHexOf {n : ℕ} (ha : isHexOf (2 * n) a = true)
    (hb : isHexOf (2 * n) b = true) : SameSpelling a b := by
  have key : ∀ (n : ℕ) (cs : List Char), cs.length = 2 * n →
      (∀ c ∈ cs, (c.isDigit || (decide ('a' ≤ c) && decide (c ≤ 'f'))) = true) →
        (readDigits cs).map Char.isUpper = List.replicate (2 * n) false ∧ ignoredTail cs = [] := by
    intro n
    induction n with
    | zero =>
      intro cs hlen _
      rw [List.length_eq_zero_iff.mp hlen]
      exact ⟨rfl, rfl⟩
    | succ n ih =>
      intro cs hlen hall
      match cs, hlen with
      | x :: y :: rest, hlen =>
        have hdigit : ∀ c ∈ x :: y :: rest, (hexDigit? c).isSome ∧ c.isUpper = false := by
          intro c hc
          have hrange : 48 ≤ c.toNat ∧ c.toNat ≤ 57 ∨ 97 ≤ c.toNat ∧ c.toNat ≤ 102 := by
            rcases (Bool.or_eq_true _ _).mp (hall c hc) with hd | hd
            · exact .inl (by simpa [Char.isDigit, UInt32.le_iff_toNat_le] using hd)
            · rw [Bool.and_eq_true, decide_eq_true_eq, decide_eq_true_eq] at hd
              exact .inr hd
          have hupper : ¬ (65 ≤ c.toNat ∧ c.toNat ≤ 90) := by omega
          refine ⟨?_, by rw [← isUpper_iff] at hupper; simpa using hupper⟩
          unfold hexDigit?
          rcases hrange with hd | hd
          · rw [if_pos (show '0' ≤ c ∧ c ≤ '9' from hd)]
            rfl
          · split_ifs <;> first | rfl | exact absurd (show 'a' ≤ c ∧ c ≤ 'f' from hd) ‹_›
        obtain ⟨hx, hux⟩ := hdigit x (by simp)
        obtain ⟨hy, huy⟩ := hdigit y (by simp)
        obtain ⟨hdigits, htail⟩ := ih rest (by simp at hlen; omega) fun c hc => hall c (by simp [hc])
        rw [readDigits, if_pos ⟨hx, hy⟩, ignoredTail, if_pos ⟨hx, hy⟩]
        refine ⟨?_, htail⟩
        rw [List.map_cons, List.map_cons, hdigits, hux, huy]
        rfl
  unfold isHexOf at ha hb
  simp only [Bool.and_eq_true, decide_eq_true_eq, List.all_eq_true] at ha hb
  obtain ⟨hda, hta⟩ := key n a.toList ha.1 ha.2
  obtain ⟨hdb, htb⟩ := key n b.toList hb.1 hb.2
  exact ⟨hda.trans hdb.symm, hta.trans htb.symm⟩

/-! ## A key under two names -/

namespace Respelled

open AnchorChain

/-- A key of 32 bytes, as this program writes it and in capitals. -/
def lower : String := String.ofList (List.replicate 64 'a')
def upper : String := String.ofList (List.replicate 64 'A')

/-- The anchor is accepted as block 0. -/
def accepted (x : Anchor) : Bool :=
  match verifyAnchor openConfig.crypto x none ∅ openConfig.params openConfig.params.difficulty
    (standinSpace openConfig.crypto) with
  | .ok _ => true
  | _ => false

end Respelled

end Gavl
