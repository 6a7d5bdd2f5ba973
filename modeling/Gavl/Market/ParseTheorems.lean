import Gavl.Chain.Writer
import Gavl.Det.Agreement
import Gavl.Ledger.RejectTheorems
import Gavl.Market.Ops

/-!
# Ids bind payloads

The parsers read a payload by its keys, in no order, so payloads that are equal up to key order
carry the same op. The id of a write binds its payload up to that order and up to members under
`__proto__`: the sorted copy that is hashed drops those, and `exact` counts them as keys.
-/

namespace Gavl

open Json

variable {K : Curve} {p q u v : Json}

/-! ## What is parsed -/

theorem isHex64_same (h : p.Same q) : isHex64 p = isHex64 q := by
  unfold isHex64
  rw [h.asString?]

theorem isXOnlyKey_same (h : p.Same q) : isXOnlyKey K p = isXOnlyKey K q := by
  unfold isXOnlyKey
  rw [isHex64_same h]

theorem parseAmount_same (h : p.Same q) (max : ℕ) : parseAmount p max = parseAmount q max := by
  unfold parseAmount
  rw [h.asString?]

section

variable (h : p.Same q) (hp : p.Wf) (hq : q.Wf)
include h hp hq

theorem get?_isHex64_same (k : String) : (p.get? k).bind isHex64 = (q.get? k).bind isHex64 :=
  h.get?_bind hp hq (fun _ _ hvw _ _ => isHex64_same hvw) k

theorem get?_isXOnlyKey_same (k : String) :
    (p.get? k).bind (isXOnlyKey K) = (q.get? k).bind (isXOnlyKey K) :=
  h.get?_bind hp hq (fun _ _ hvw _ _ => isXOnlyKey_same hvw) k

theorem get?_parseAmount_same {α : Type} (k : String) (max : ℕ) (g : ℕ → Option α) :
    ((p.get? k).bind fun v => (parseAmount v max).bind g)
      = (q.get? k).bind fun v => (parseAmount v max).bind g :=
  h.get?_bind hp hq (fun _ _ hvw _ _ => by rw [parseAmount_same hvw]) k

theorem get?_asNat?_same (k : String) (max : ℕ) :
    (p.get? k).bind (Json.asNat? max) = (q.get? k).bind (Json.asNat? max) :=
  h.get?_bind hp hq (fun _ _ hvw _ _ => hvw.asNat? max) k

theorem parseLeg_same : parseLeg p = parseLeg q := by
  unfold parseLeg
  simp only [h.exact hp hq, h.string? hp hq, Option.bind_eq_bind,
    get?_parseAmount_same h hp hq]

theorem get?_parseLeg_same (k : String) : (p.get? k).bind parseLeg = (q.get? k).bind parseLeg :=
  h.get?_bind hp hq (fun _ _ hvw hv hw => parseLeg_same hvw hv hw) k

theorem parseOfferPost_same : parseOfferPost p = parseOfferPost q := by
  unfold parseOfferPost
  simp only [h.exact hp hq, Option.bind_eq_bind, get?_parseLeg_same h hp hq,
    get?_parseAmount_same h hp hq, get?_asNat?_same h hp hq]

theorem parseOfferTake_same : parseOfferTake K p = parseOfferTake K q := by
  unfold parseOfferTake
  simp only [h.exact hp hq, Option.bind_eq_bind, get?_isHex64_same h hp hq,
    get?_isXOnlyKey_same h hp hq, get?_parseAmount_same h hp hq]

theorem parseSwapLocked_same : parseSwapLocked p = parseSwapLocked q := by
  unfold parseSwapLocked
  simp only [h.exact hp hq, get?_isHex64_same h hp hq, get?_asNat?_same h hp hq]

theorem parseIdOp_same (field : String) (op : String → Op) :
    parseIdOp p field op = parseIdOp q field op := by
  unfold parseIdOp
  simp only [h.exact hp hq, get?_isHex64_same h hp hq]

end

/-! ## Proofs of funds -/

theorem utxoOf_same (h : u.Same v) (hu : u.Wf) (hv : v.Wf) (i : ℕ) (chain : Chain) :
    utxoOf u i chain = utxoOf v i chain := by
  unfold utxoOf
  rw [h.string? hu hv, h.string? hu hv, get?_asNat?_same h hu hv]
  have hkeys := h.keys hu hv
  generalize u.keys? = ks, v.keys? = ls at hkeys ⊢
  cases hkeys with
  | none => rfl
  | some hperm =>
    simp only
    rw [joinedKeys_perm hperm]

theorem utxosFrom_same {us vs : List Json} (h : List.Forall₂ Same us vs) (hus : ∀ u ∈ us, u.Wf)
    (hvs : ∀ v ∈ vs, v.Wf) (chain : Chain) (i : ℕ) (seen : List String) :
    utxosFrom chain i seen us = utxosFrom chain i seen vs := by
  induction h generalizing i seen with
  | nil => rfl
  | @cons u v us vs huv _ ih =>
    have hrest := ih (fun x hx => hus x (List.mem_cons_of_mem _ hx))
      fun x hx => hvs x (List.mem_cons_of_mem _ hx)
    rw [utxosFrom, utxosFrom,
      utxoOf_same huv (hus u List.mem_cons_self) (hvs v List.mem_cons_self)]
    simp only [hrest]

theorem utxosOf_same {us vs : Option Json}
    (h : Option.Rel (fun u v => u.Same v ∧ u.Wf ∧ v.Wf) us vs) (chain : Chain) :
    utxosOf us chain = utxosOf vs chain := by
  cases h with
  | none => rfl
  | @some u v huv =>
    obtain ⟨h, hu, hv⟩ := huv
    unfold Same at h
    cases u with
    | arr us =>
      cases v with
      | arr vs =>
        rw [Agree, agreeItems_iff] at h
        unfold utxosOf
        simp only [h.length_eq, utxosFrom_same h (wf_arr.mp hu) (wf_arr.mp hv)]
      | _ => simp [Agree] at h
    | _ => cases v <;> first | rfl | simp [Agree] at h

theorem fundsProofOf_same (h : p.Same q) (hp : p.Wf) (hq : q.Wf) :
    fundsProofOf p = fundsProofOf q := by
  unfold fundsProofOf
  simp only [h.string? hp hq, utxosOf_same (h.get? hp hq "utxos")]
  have hkeys := h.keys hp hq
  generalize p.keys? = ks, q.keys? = ls at hkeys ⊢
  cases hkeys with
  | none => rfl
  | some hperm =>
    simp only
    rw [joinedKeys_perm hperm]

theorem parseSwapProof_same (h : p.Same q) (hp : p.Wf) (hq : q.Wf) :
    parseSwapProof K p = parseSwapProof K q := by
  unfold parseSwapProof
  have hproof : ((p.get? "proof").bind fun x => (fundsProofOf x).toOption)
      = (q.get? "proof").bind fun x => (fundsProofOf x).toOption :=
    h.get?_bind hp hq (fun v w hvw hv hw => by rw [fundsProofOf_same hvw hv hw]) _
  simp only [h.exact hp hq, Option.bind_eq_bind, get?_isHex64_same h hp hq, hproof]
  have hkey := h.get? hp hq "makerKey"
  generalize p.get? "makerKey" = v, q.get? "makerKey" = w at hkey ⊢
  cases hkey with
  | none => rfl
  | some hvw => simp only [isXOnlyKey_same hvw.1]

/-- Payloads that are equal up to key order carry the same op. -/
theorem parseOp_same (h : p.Same q) (hp : p.Wf) (hq : q.Wf) : parseOp K p = parseOp K q := by
  unfold parseOp
  rw [h.string? hp hq, parseOfferPost_same h hp hq, parseIdOp_same h hp hq, parseIdOp_same h hp hq,
    parseOfferTake_same h hp hq, parseSwapProof_same h hp hq, parseSwapLocked_same h hp hq]

/-! ## What a write's id binds -/

/-- Verified writes carry the id of their content. -/
theorem writeIdOf_eq {C : Crypto} {params : ChainParams} {skip : Bool} {w : Write}
    (h : verifyWrite C params skip w = .ok) :
    writeIdOf C w.toWriteCore w.space w.time = w.id := by
  unfold verifyWrite at h
  by_contra hne
  split_ifs at h
  cases hq : hexToNat? w.space.quality with
  | none =>
    simp only [hq] at h
    split_ifs at h
  | some q =>
    simp only [hq] at h
    split_ifs at h

/-- The id of a write determines its payload, as it is sorted. -/
theorem sortValue_payload_eq {C : Crypto} (hC : Function.Injective C.sha256) {c c' : WriteCore}
    {s s' : SpaceProof} {t t' : TimeProof} (h : writeIdOf C c s t = writeIdOf C c' s' t') :
    c.payload.sortValue = c'.payload.sortValue := by
  have hsort := sha256Hex_canonical_inj hC h
  have hcore := member_eq hsort (v := c.toJson) (w := c'.toJson) (k := "core") (by decide)
    (by simp) (fun x hx => by simpa using hx)
  unfold WriteCore.toJson at hcore
  exact member_eq hcore (v := c'.payload) (w := c.payload) (k := "payload") (by decide)
    (by simp) (fun x hx => by simpa [Trunk.fields] using hx)

/-- **Ids bind content.** Values with one canonical text are equal up to key order, and verified
writes with one id carry payloads that are and that are read as one op, exactly when they do not
differ in members under `__proto__` alone. -/
theorem ids_bind_content {C : Crypto} (hC : Function.Injective C.sha256) :
    (∀ a b : Json, a.Wf → b.Wf →
      ((canonicalize a = canonicalize b → a.Same b) ↔ ¬ a.DifferInProto b)) ∧
    ∀ (params : ChainParams) (skip : Bool) (w w' : Write), w.payload.Wf → w'.payload.Wf →
      verifyWrite C params skip w = .ok → verifyWrite C params skip w' = .ok → w.id = w'.id →
        ((w.payload.Same w'.payload ∧ ∀ K, parseOp K w.payload = parseOp K w'.payload) ↔
          ¬ w.payload.DifferInProto w'.payload) := by
  constructor
  · intro a b ha hb
    rw [canonicalize_eq_iff ha hb, DifferInProto, not_and, not_not]
  · intro params skip w w' hp hp' hw hw' hid
    have hsort : w.payload.sortValue = w'.payload.sortValue :=
      sortValue_payload_eq hC (by rw [writeIdOf_eq hw, writeIdOf_eq hw', hid])
    have hbut := (sortValue_eq_iff _ _ hp hp').mp hsort
    unfold DifferInProto
    constructor
    · rintro ⟨hsame, -⟩ ⟨-, hdiffer⟩
      exact hdiffer hsame
    · intro h
      have hsame : w.payload.Same w'.payload := by
        by_contra hdiffer
        exact h ⟨hbut, hdiffer⟩
      exact ⟨hsame, fun K => parseOp_same hsame hp hp'⟩

/-- The id does not tell payloads apart that sort to the same value. -/
theorem writeIdOf_payload {C : Crypto} {c : WriteCore} {p : Json}
    (h : p.sortValue = c.payload.sortValue) (s : SpaceProof) (t : TimeProof) :
    writeIdOf C { c with payload := p } s t = writeIdOf C c s t := by
  have hcore : (WriteCore.toJson { c with payload := p }).sortValue = c.toJson.sortValue := by
    unfold WriteCore.toJson
    rw [sortValue, sortValue, sortFields_eq_map, sortFields_eq_map]
    simp only [List.map_append, List.map_cons, List.map_nil, h]
  unfold writeIdOf canonicalBytes canonicalize
  rw [sortValue, sortValue, sortFields_eq_map, sortFields_eq_map]
  simp only [List.map_cons, List.map_nil, hcore]

/-! ## Two payloads with one id -/



namespace Ambiguous

/-- An abort of a match. -/
def plain : Json :=
  .obj [("kind", .str "swap.abort"), ("matchId", .str (String.ofList (List.replicate 64 '0')))]

/-- The same with a member that the sorted copy drops. -/
def tagged : Json :=
  .obj [("kind", .str "swap.abort"), ("matchId", .str (String.ofList (List.replicate 64 '0'))),
    ("__proto__", .null)]

/-- A hash without collisions. -/
def crypto : Crypto := ⟨id, fun _ _ _ => true⟩

def params : ChainParams := ⟨1, 0, 0, fun _ _ => true⟩

/-- A first write with a payload. -/
def carrying (payload : Json) : Write := Ledger.firstWrite crypto "ab" (.nat 0) payload

theorem carrying_payload (p : Json) : (carrying p).payload = p := rfl

theorem parseOp_plain (K : Curve) : (parseOp K plain).isSome = true := by
  have hkind : plain.string? "kind" = some "swap.abort" := by decide +kernel
  have hexact : plain.exact ["kind", "matchId"] [] = true := by decide +kernel
  unfold parseOp parseIdOp
  rw [hkind]
  simp only [hexact]
  rfl

theorem parseOp_tagged (K : Curve) : parseOp K tagged = none := by
  have hkind : tagged.string? "kind" = some "swap.abort" := by decide +kernel
  have hexact : tagged.exact ["kind", "matchId"] [] = false := by decide +kernel
  unfold parseOp parseIdOp
  rw [hkind]
  simp only [hexact]
  rfl

theorem not_same : ¬ plain.Same tagged := fun h => by
  have hkeys := (agree_obj.mp h).2 "__proto__" (by decide) rfl
  exact absurd hkeys (by decide)

theorem injective : Function.Injective crypto.sha256 := fun a b (h : id a = id b) => h

theorem verified (payload : Json) : verifyWrite crypto params false (carrying payload) = .ok := by
  obtain ⟨quality, hquality⟩ := hexToNat?_toHex
    (crypto.sha256 (plotLeaf crypto "ab" 0 ++ challengeOf crypto (carrying payload).toTrunk))
  have hspace : verifySpaceProof crypto "ab" (carrying payload).plot
      (challengeOf crypto (carrying payload).toTrunk) (carrying payload).space = true := by
    unfold verifySpaceProof verifyMerkle
    rw [Bool.and_eq_true, Bool.and_eq_true, Bool.and_eq_true]
    exact ⟨⟨⟨rfl, decide_eq_true rfl⟩, decide_eq_true rfl⟩, decide_eq_true rfl⟩
  have hiters : requiredIters quality params 1 params.difficulty = 0 := by
    simp [requiredIters, params]
  have hdifficulty : (carrying payload).difficulty = toString params.difficulty := by
    show "1" = toString 1
    decide
  have hid : writeIdOf crypto (carrying payload).toWriteCore (carrying payload).space
      (carrying payload).time = (carrying payload).id := rfl
  have hsig : ∀ k m s, crypto.edVerify k m s = true := fun _ _ _ => rfl
  have hvdf : ∀ c t, params.vdfVerify c t = true := fun _ _ => rfl
  unfold verifyWrite
  rw [if_neg (not_not.mpr hdifficulty)]
  simp only
  rw [show (carrying payload).writer = "ab" from rfl, hspace,
    show hexToNat? (carrying payload).space.quality = some quality from hquality]
  simp [hiters, hid, hsig, hvdf]

theorem same_id : (carrying plain).id = (carrying tagged).id := by
  have htext : canonicalize tagged = canonicalize plain := by decide +kernel
  have hsort : tagged.sortValue = plain.sortValue := stringify_injective htext
  exact (writeIdOf_payload hsort _ _).symm

end Ambiguous

open Ambiguous in
/-- Two verified writes with one id, one of which carries an op. -/
theorem one_id_two_payloads :
    Function.Injective crypto.sha256 ∧ plain.Wf ∧ tagged.Wf ∧
      canonicalize plain = canonicalize tagged ∧ ¬ plain.Same tagged ∧
      verifyWrite crypto params false (carrying plain) = .ok ∧
      verifyWrite crypto params false (carrying tagged) = .ok ∧
      (carrying plain).id = (carrying tagged).id ∧
      ∀ K, parseOp K (carrying plain).payload ≠ parseOp K (carrying tagged).payload := by
  refine ⟨injective, ?_, ?_, by decide +kernel, not_same, verified plain, verified tagged, same_id,
    fun K h => ?_⟩
  · exact wf_obj.mpr ⟨by decide, by simp [Wf]⟩
  · exact wf_obj.mpr ⟨by decide, by simp [Wf]⟩
  · have hsome := parseOp_plain K
    rw [carrying_payload, carrying_payload, parseOp_tagged] at h
    rw [h] at hsome
    exact absurd hsome (by decide)

open Ambiguous in
/-- The equivalences under that hash. -/
theorem ids_bind_content_open :
    (∀ a b : Json, a.Wf → b.Wf →
      ((canonicalize a = canonicalize b → a.Same b) ↔ ¬ a.DifferInProto b)) ∧
    ∀ (params : ChainParams) (skip : Bool) (w w' : Write), w.payload.Wf → w'.payload.Wf →
      verifyWrite crypto params skip w = .ok → verifyWrite crypto params skip w' = .ok →
        w.id = w'.id →
          ((w.payload.Same w'.payload ∧ ∀ K, parseOp K w.payload = parseOp K w'.payload) ↔
            ¬ w.payload.DifferInProto w'.payload) :=
  ids_bind_content injective

end Gavl
