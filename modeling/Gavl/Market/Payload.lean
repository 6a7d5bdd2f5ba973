import Gavl.Det.JsonParseTheorems
import Gavl.Market.Board
import Gavl.Market.ParseTheorems
import Gavl.Swap.ProofTheorems

/-!
# Payloads of ops

`opPayload` writes an op down, `parseOp` reads it. On what `JSON.parse` yields the two are inverses:
the parser accepts nothing but what an op is written as, in some order of keys.
-/

namespace Gavl

open Json

/-- The JSON payload a write carries for an op. A proof is passed on as it was parsed. -/
def opPayload : Op → Json
  | .offerPost give want minFill expiresIn =>
    .obj [("kind", .str "offer.post"), ("give", canonLeg give), ("want", canonLeg want),
      ("minFill", .decimal minFill), ("expiresIn", .nat expiresIn)]
  | .offerCancel offerId => .obj [("kind", .str "offer.cancel"), ("offerId", .str offerId)]
  | .offerTake offerId fill hash takerKey =>
    .obj [("kind", .str "offer.take"), ("offerId", .str offerId), ("fill", .decimal fill),
      ("hash", .str hash), ("takerKey", .str takerKey)]
  | .swapProof matchId none proof =>
    .obj [("kind", .str "swap.proof"), ("matchId", .str matchId), ("proof", copyProof proof)]
  | .swapProof matchId (some makerKey) proof =>
    .obj [("kind", .str "swap.proof"), ("matchId", .str matchId), ("makerKey", .str makerKey),
      ("proof", copyProof proof)]
  | .swapLocked matchId txid vout =>
    .obj [("kind", .str "swap.locked"), ("matchId", .str matchId), ("txid", .str txid),
      ("vout", .nat vout)]
  | .swapAbort matchId => .obj [("kind", .str "swap.abort"), ("matchId", .str matchId)]

variable {K : Curve} {p q v : Json} {k s : String} {n max : ℕ}

/-! ## What a primitive check accepts -/

namespace Json

@[simp] theorem same_str : (str s).Same (str s) := by simp [Same, Agree]

@[simp] theorem same_nat : (nat n).Same (nat n) := by simp [Same, Agree, nat]

@[simp] theorem same_decimal : (decimal n).Same (decimal n) := same_str

theorem eq_str_of_asString? (h : v.asString? = some s) : v = .str s := by
  cases v <;> simp_all [asString?]

theorem get?_of_string? (h : p.string? k = some s) : p.get? k = some (.str s) := by
  obtain ⟨v, hv, hs⟩ := Option.bind_eq_some_iff.mp h
  rw [hv, eq_str_of_asString? hs]

theorem le_of_asNat? (h : v.asNat? max = some n) : n ≤ max := by
  cases v with
  | num x =>
    unfold asNat? at h
    simp only at h
    split_ifs at h with hx
    exact Option.some.inj h ▸ hx.2
  | _ => exact absurd h (by simp [asNat?])

/-- A small integer is written as its digits. -/
theorem eq_nat_of_asNat? (hv : v.Parsed) (h : v.asNat? max = some n) : v = .nat n := by
  cases v with
  | num x =>
    unfold asNat? at h
    simp only at h
    split_ifs at h with hx
    obtain rfl := Option.some.inj h
    have hbare : Bare x := hv
    exact congrArg Json.num (JsNum.ext (hbare hx.1))
  | _ => exact absurd h (by simp [asNat?])

theorem Parsed.get? (hp : p.Parsed) (h : p.get? k = some v) : v.Parsed := by
  cases p with
  | obj fields => exact parsedFields_iff.mp hp.2 _ (mem_of_get? h)
  | _ => exact absurd h (by simp [Json.get?])

/-- An object with exactly the required keys is one with the required members. -/
theorem same_of_exact {gs : List (String × Json)} {required optional : List String} (hp : p.Wf)
    (hexact : p.exact required optional = true) (hrequired : required ⊆ gs.map Prod.fst)
    (hoptional : ∀ k ∈ optional, p.get? k ≠ none → k ∈ gs.map Prod.fst)
    (hmem : ∀ e ∈ gs, ∃ v, p.get? e.1 = some v ∧ e.2.Same v) : (obj gs).Same p := by
  cases p with
  | obj fs =>
    refine agree_obj.mpr ⟨fun k w hw _ => ?_, fun k hk _ => ?_⟩
    · obtain ⟨v, hget, hsame⟩ := hmem _ hw
      exact ⟨v, mem_of_get? hget, hsame⟩
    · have hkeys := (Bool.and_eq_true _ _ ▸ hexact :
        (required.all fun k => decide (k ∈ fs.map Prod.fst)) = true ∧
          ((fs.map Prod.fst).all fun k => decide (k ∈ required) || decide (k ∈ optional)) = true).2
      have hk' := List.all_eq_true.mp hkeys k hk
      rw [Bool.or_eq_true, decide_eq_true_eq, decide_eq_true_eq] at hk'
      obtain hk' | hk' := hk'
      · exact hrequired hk'
      · refine hoptional k hk' ?_
        obtain ⟨⟨l, v⟩, hv, rfl⟩ := List.mem_map.mp hk
        rw [get?_of_mem (wf_obj.mp hp).1 hv]
        simp
  | _ => exact absurd hexact (by simp [exact, keys?])

end Json

theorem eq_str_of_isHex64 (h : isHex64 v = some s) : v = .str s :=
  eq_str_of_asString? (Option.filter_eq_some_iff.mp h).1

theorem eq_str_of_isXOnlyKey (h : isXOnlyKey K v = some s) : v = .str s :=
  eq_str_of_isHex64 (Option.filter_eq_some_iff.mp h).1

/-- A canonical decimal is written as the decimal of its value. -/
theorem decimalValue_spec {maxDigits : ℕ} (h : isDecimal maxDigits s = true) :
    String.ofList (Nat.toDigits 10 (decimalValue s)) = s := by
  unfold isDecimal at h
  unfold decimalValue
  cases hs : s.toList with
  | nil => rw [hs] at h; exact absurd h (by simp)
  | cons c rest =>
    rw [hs] at h
    simp only [Bool.and_eq_true, decide_eq_true_eq] at h
    have hall : (c :: rest).all Char.isDigit = true := by
      rw [List.all_cons, h.1.1.1, h.1.2, Bool.and_self]
    rw [Decimal.toDigits_ofDigitChars (by simp) hall
      (by rw [List.head?_cons]; exact fun heq => h.1.1.2 (Option.some.inj heq)), ← hs,
      String.ofList_toList]

theorem eq_decimal_of_parseAmount (h : parseAmount v max = some n) : v = .decimal n ∧ n ≤ max := by
  unfold parseAmount at h
  obtain ⟨h, hle⟩ := Option.filter_eq_some_iff.mp h
  obtain ⟨s, hs, rfl⟩ := Option.map_eq_some_iff.mp h
  obtain ⟨hstr, hdec⟩ := Option.filter_eq_some_iff.mp hs
  refine ⟨?_, of_decide_eq_true hle⟩
  rw [eq_str_of_asString? hstr]
  show Json.str s = .str _
  rw [decimalValue_spec hdec]

theorem Chain.eq_name_of_ofName? {c : Chain} (h : Chain.ofName? s = some c) : s = c.name := by
  unfold ofName? at h
  split_ifs at h with h1 h2
  · rw [h1, ← Option.some.inj h]; rfl
  · rw [h2, ← Option.some.inj h]; rfl

theorem Net.eq_name_of_ofName? {c : Net} (h : Net.ofName? s = some c) : s = c.name := by
  unfold ofName? at h
  split_ifs at h with h1 h2 h3
  · rw [h1, ← Option.some.inj h]; rfl
  · rw [h2, ← Option.some.inj h]; rfl
  · rw [h3, ← Option.some.inj h]; rfl

theorem Chain.name_injective : Function.Injective Chain.name := by
  intro a b h
  cases a <;> cases b <;> first | rfl | exact absurd h (by decide)

theorem Net.name_injective : Function.Injective Net.name := by
  intro a b h
  cases a <;> cases b <;> first | rfl | exact absurd h (by decide)

/-! ## What the parser accepts -/

/-- A leg is written as what it parses to. -/
theorem canonLeg_same {l : Leg} (hp : p.Wf) (h : parseLeg p = some l) : (canonLeg l).Same p := by
  unfold parseLeg at h
  by_cases hexact : p.exact ["chain", "amount"] [] = true
  · rw [hexact] at h
    simp only [Bool.not_true, Bool.false_eq_true, if_false] at h
    obtain ⟨c, hc, h⟩ := Option.bind_eq_some_iff.mp h
    obtain ⟨v, hv, h⟩ := Option.bind_eq_some_iff.mp h
    obtain ⟨n, hn, h⟩ := Option.bind_eq_some_iff.mp h
    obtain ⟨t, ht, hname⟩ := Option.bind_eq_some_iff.mp hc
    obtain rfl := Option.some.inj h
    refine same_of_exact hp hexact (by simp) (by simp) ?_
    simp only [List.forall_mem_cons]
    refine ⟨⟨_, get?_of_string? ht, ?_⟩, ⟨_, hv, ?_⟩, by simp⟩
    · rw [Chain.eq_name_of_ofName? hname]
      exact same_str
    · rw [(eq_decimal_of_parseAmount hn).1]
      exact same_decimal
  · rw [Bool.not_eq_true] at hexact
    rw [hexact] at h
    exact absurd h (by simp)

/-! ## Funds proofs -/

/-- Each key but the first adds a comma. -/
theorem length_le_joinedKeys (keys : List String) :
    keys.length ≤ (joinedKeys keys).toList.count ',' + 1 := by
  have hcommas : ∀ l : List (List Char), l.length ≤ ([','].intercalate l).count ',' + 1 := by
    intro l
    induction l with
    | nil => simp
    | cons a l ih =>
      cases l with
      | nil => simp
      | cons b l =>
        rw [List.intercalate_cons_cons, List.count_append, List.count_append, List.length_cons]
        have hone : List.count ',' [','] = 1 := by decide
        omega
  unfold joinedKeys
  rw [String.toList_intercalate]
  have h := hcommas ((keys.insertionSort (fun a b => a ≤ b)).map String.toList)
  rw [List.length_map, List.length_insertionSort] at h
  exact h

namespace Json

/-- An object whose joined keys leave no room for others than those it was read under. -/
theorem same_of_joinedKeys {gs : List (String × Json)} {keys : List String} {joined : String} {m : ℕ}
    (hp : p.Wf) (hkeys : p.keys? = some keys) (hjoined : joinedKeys keys = joined)
    (hcount : joined.toList.count ',' + 1 = m) (hm : gs.length = m) (hnd : (gs.map Prod.fst).Nodup)
    (hmem : ∀ e ∈ gs, ∃ v, p.get? e.1 = some v ∧ e.2.Same v) : (obj gs).Same p := by
  cases p with
  | obj fs =>
    obtain rfl : fs.map Prod.fst = keys := Option.some.inj hkeys
    have hsub : gs.map Prod.fst ⊆ fs.map Prod.fst := fun k hk => by
      obtain ⟨e, he, rfl⟩ := List.mem_map.mp hk
      obtain ⟨v, hget, -⟩ := hmem e he
      exact List.mem_map.mpr ⟨_, mem_of_get? hget, rfl⟩
    have hlen := length_le_joinedKeys (fs.map Prod.fst)
    rw [hjoined] at hlen
    have hperm : (gs.map Prod.fst).Perm (fs.map Prod.fst) :=
      (List.subperm_of_subset hnd hsub).perm_of_length_le
        (by rw [@List.length_map _ _ gs, hm, ← hcount]; exact hlen)
    refine agree_obj.mpr ⟨fun k w hw _ => ?_, fun k hk _ => hperm.mem_iff.mpr hk⟩
    obtain ⟨v, hget, hsame⟩ := hmem _ hw
    exact ⟨v, mem_of_get? hget, hsame⟩
  | _ => exact absurd hkeys (by simp [keys?])

end Json

theorem UtxoRead.vout_le {chain : Chain} {u : ProofUtxo} (h : UtxoRead v chain u) :
    u.vout ≤ maxVout := by
  obtain ⟨x, -, hx⟩ := Option.bind_eq_some_iff.mp h.vout
  exact le_of_asNat? hx

/-- An outpoint is written as what it is read as. -/
theorem UtxoRead.same {chain : Chain} {u : ProofUtxo} (h : UtxoRead v chain u) (hv : v.Parsed) :
    (copyUtxo u).Same v := by
  obtain ⟨keys, hkeys, hjoined⟩ := h.keys
  obtain ⟨x, hx, hnat⟩ := Option.bind_eq_some_iff.mp h.vout
  obtain rfl := eq_nat_of_asNat? (hv.get? hx) hnat
  refine same_of_joinedKeys (m := 3) hv.wf hkeys hjoined (by decide) rfl (by simp) ?_
  simp only [List.forall_mem_cons]
  exact ⟨⟨_, get?_of_string? h.txid, same_str⟩, ⟨_, hx, same_nat⟩,
    ⟨_, get?_of_string? h.value, same_str⟩, by simp⟩

theorem utxos_vout_le {chain : Chain} {items : List Json} {us : List ProofUtxo}
    (h : List.Forall₂ (fun v u => UtxoRead v chain u) items us) : ∀ u ∈ us, u.vout ≤ maxVout := by
  induction h with
  | nil => simp
  | cons hu _ ih => exact List.forall_mem_cons.mpr ⟨hu.vout_le, ih⟩

theorem copyUtxos_same {chain : Chain} {items : List Json} {us : List ProofUtxo}
    (h : List.Forall₂ (fun v u => UtxoRead v chain u) items us) (hitems : ∀ v ∈ items, v.Parsed) :
    List.Forall₂ Json.Same (us.map copyUtxo) items := by
  induction h with
  | nil => exact .nil
  | cons hu _ ih =>
    obtain ⟨hv, hitems⟩ := List.forall_mem_cons.mp hitems
    exact .cons (hu.same hv) (ih hitems)

theorem ProofRead.vout_le {proof : FundsProof} (h : ProofRead v proof) :
    ∀ u ∈ proof.utxos, u.vout ≤ maxVout := by
  obtain ⟨items, -, hread⟩ := h.utxos
  exact utxos_vout_le hread

/-- A proof is written as what it is read as. -/
theorem ProofRead.same {proof : FundsProof} (h : ProofRead v proof) (hv : v.Parsed) :
    (copyProof proof).Same v := by
  obtain ⟨keys, hkeys, hjoined⟩ := h.keys
  obtain ⟨c, hc, hcname⟩ := Option.bind_eq_some_iff.mp h.chain
  obtain ⟨m, hm, hmname⟩ := Option.bind_eq_some_iff.mp h.net
  obtain ⟨items, hitems, hread⟩ := h.utxos
  have hsame := copyUtxos_same hread (parsedItems_iff.mp (hv.get? hitems))
  refine same_of_joinedKeys (m := 5) hv.wf hkeys hjoined (by decide) rfl (by simp) ?_
  simp only [List.forall_mem_cons]
  refine ⟨⟨_, get?_of_string? hc, ?_⟩, ⟨_, get?_of_string? hm, ?_⟩,
    ⟨_, get?_of_string? h.pubkey, same_str⟩, ⟨_, hitems, agreeItems_iff.mpr hsame⟩,
    ⟨_, get?_of_string? h.sig, same_str⟩, by simp⟩
  · rw [Chain.eq_name_of_ofName? hcname]
    exact same_str
  · rw [Net.eq_name_of_ofName? hmname]
    exact same_str

/-! ## Ops -/

/-- The numbers of an op are within the bounds its parser checks. -/
def Op.Bounded : Op → Prop
  | .offerPost _ _ _ expiresIn => expiresIn ≤ maxOfferTtl
  | .swapProof _ _ proof => ∀ u ∈ proof.utxos, u.vout ≤ maxVout
  | .swapLocked _ _ vout => vout ≤ maxVout
  | _ => True

variable {op : Op}

/-- What an op parsed from a payload says of it: a payload that was read from a text is what the op
is written as. -/
def WrittenAs (p : Json) (op : Op) : Prop := op.Bounded ∧ (p.Parsed → (opPayload op).Same p)

theorem offerPost_written (hkind : p.string? "kind" = some "offer.post")
    (h : parseOfferPost p = some op) : WrittenAs p op := by
  unfold parseOfferPost at h
  by_cases hexact : p.exact ["kind", "give", "want", "minFill", "expiresIn"] [] = true
  · rw [hexact] at h
    simp only [Bool.not_true, Bool.false_eq_true, if_false] at h
    obtain ⟨give, hgive, h⟩ := Option.bind_eq_some_iff.mp h
    obtain ⟨want, hwant, h⟩ := Option.bind_eq_some_iff.mp h
    split_ifs at h
    obtain ⟨v, hv, h⟩ := Option.bind_eq_some_iff.mp h
    obtain ⟨minFill, hfill, h⟩ := Option.bind_eq_some_iff.mp h
    obtain ⟨ttl, httl, h⟩ := Option.bind_eq_some_iff.mp h
    split_ifs at h
    obtain rfl := Option.some.inj h
    obtain ⟨g, hg, hgive⟩ := Option.bind_eq_some_iff.mp hgive
    obtain ⟨w, hw, hwant⟩ := Option.bind_eq_some_iff.mp hwant
    obtain ⟨x, hx, hnat⟩ := Option.bind_eq_some_iff.mp httl
    refine ⟨le_of_asNat? hnat, fun hp => ?_⟩
    obtain rfl := eq_nat_of_asNat? (hp.get? hx) hnat
    refine same_of_exact hp.wf hexact (by simp) (by simp) ?_
    simp only [List.forall_mem_cons]
    refine ⟨⟨_, get?_of_string? hkind, same_str⟩, ⟨_, hg, canonLeg_same (hp.get? hg).wf hgive⟩,
      ⟨_, hw, canonLeg_same (hp.get? hw).wf hwant⟩, ⟨_, hv, ?_⟩, ⟨_, hx, same_nat⟩, by simp⟩
    rw [(eq_decimal_of_parseAmount hfill).1]
    exact same_decimal
  · rw [Bool.not_eq_true] at hexact
    rw [hexact] at h
    exact absurd h (by simp)

theorem offerTake_written (hkind : p.string? "kind" = some "offer.take")
    (h : parseOfferTake K p = some op) : WrittenAs p op := by
  unfold parseOfferTake at h
  by_cases hexact : p.exact ["kind", "offerId", "fill", "hash", "takerKey"] [] = true
  · rw [hexact] at h
    simp only [Bool.not_true, Bool.false_eq_true, if_false] at h
    obtain ⟨offerId, hoffer, h⟩ := Option.bind_eq_some_iff.mp h
    obtain ⟨hash, hhash, h⟩ := Option.bind_eq_some_iff.mp h
    obtain ⟨takerKey, hkey, h⟩ := Option.bind_eq_some_iff.mp h
    obtain ⟨v, hv, h⟩ := Option.bind_eq_some_iff.mp h
    obtain ⟨fill, hfill, h⟩ := Option.bind_eq_some_iff.mp h
    obtain rfl := Option.some.inj h
    obtain ⟨a, ha, hoffer⟩ := Option.bind_eq_some_iff.mp hoffer
    obtain ⟨b, hb, hhash⟩ := Option.bind_eq_some_iff.mp hhash
    obtain ⟨c, hc, hkey⟩ := Option.bind_eq_some_iff.mp hkey
    obtain rfl := eq_str_of_isHex64 hoffer
    obtain rfl := eq_str_of_isHex64 hhash
    obtain rfl := eq_str_of_isXOnlyKey hkey
    obtain rfl := (eq_decimal_of_parseAmount hfill).1
    refine ⟨trivial, fun hp => same_of_exact hp.wf hexact (by simp) (by simp) ?_⟩
    simp only [List.forall_mem_cons]
    exact ⟨⟨_, get?_of_string? hkind, same_str⟩, ⟨_, ha, same_str⟩, ⟨_, hv, same_decimal⟩,
      ⟨_, hb, same_str⟩, ⟨_, hc, same_str⟩, by simp⟩
  · rw [Bool.not_eq_true] at hexact
    rw [hexact] at h
    exact absurd h (by simp)

theorem swapProof_written (hkind : p.string? "kind" = some "swap.proof")
    (h : parseSwapProof K p = some op) : WrittenAs p op := by
  unfold parseSwapProof at h
  by_cases hexact : p.exact ["kind", "matchId", "proof"] ["makerKey"] = true
  · rw [hexact] at h
    simp only [Bool.not_true, Bool.false_eq_true, if_false] at h
    obtain ⟨matchId, hmatch, h⟩ := Option.bind_eq_some_iff.mp h
    obtain ⟨proof, hproof, h⟩ := Option.bind_eq_some_iff.mp h
    obtain ⟨a, ha, hmatch⟩ := Option.bind_eq_some_iff.mp hmatch
    obtain ⟨b, hb, hproof⟩ := Option.bind_eq_some_iff.mp hproof
    obtain rfl := eq_str_of_isHex64 hmatch
    have hok : fundsProofOf b = .ok proof := by
      cases hof : fundsProofOf b with
      | error e => rw [hof] at hproof; exact absurd hproof (by simp [Except.toOption])
      | ok x => rw [hof] at hproof; rw [Option.some.inj hproof]
    have hread := fundsProofOf_ok hok
    -- the one optional key
    cases hkey : p.get? "makerKey" with
    | none =>
      rw [hkey] at h
      obtain rfl := Option.some.inj h
      refine ⟨hread.vout_le, fun hp => same_of_exact hp.wf hexact (by simp) (by simp [hkey]) ?_⟩
      simp only [List.forall_mem_cons]
      exact ⟨⟨_, get?_of_string? hkind, same_str⟩, ⟨_, ha, same_str⟩,
        ⟨_, hb, hread.same (hp.get? hb)⟩, by simp⟩
    | some key =>
      rw [hkey] at h
      obtain ⟨makerKey, hmaker, h⟩ := Option.bind_eq_some_iff.mp h
      obtain rfl := Option.some.inj h
      obtain rfl := eq_str_of_isXOnlyKey hmaker
      refine ⟨hread.vout_le, fun hp => same_of_exact hp.wf hexact (by simp) (by simp) ?_⟩
      simp only [List.forall_mem_cons]
      exact ⟨⟨_, get?_of_string? hkind, same_str⟩, ⟨_, ha, same_str⟩, ⟨_, hkey, same_str⟩,
        ⟨_, hb, hread.same (hp.get? hb)⟩, by simp⟩
  · rw [Bool.not_eq_true] at hexact
    rw [hexact] at h
    exact absurd h (by simp)

theorem swapLocked_written (hkind : p.string? "kind" = some "swap.locked")
    (h : parseSwapLocked p = some op) : WrittenAs p op := by
  unfold parseSwapLocked at h
  by_cases hexact : p.exact ["kind", "matchId", "txid", "vout"] [] = true
  · rw [hexact] at h
    simp only [Bool.not_true, Bool.false_eq_true, if_false] at h
    obtain ⟨matchId, hmatch, h⟩ := Option.bind_eq_some_iff.mp h
    obtain ⟨txid, htxid, h⟩ := Option.bind_eq_some_iff.mp h
    obtain ⟨vout, hvout, h⟩ := Option.bind_eq_some_iff.mp h
    obtain rfl := Option.some.inj h
    obtain ⟨a, ha, hmatch⟩ := Option.bind_eq_some_iff.mp hmatch
    obtain ⟨b, hb, htxid⟩ := Option.bind_eq_some_iff.mp htxid
    obtain ⟨c, hc, hnat⟩ := Option.bind_eq_some_iff.mp hvout
    obtain rfl := eq_str_of_isHex64 hmatch
    obtain rfl := eq_str_of_isHex64 htxid
    refine ⟨le_of_asNat? hnat, fun hp => ?_⟩
    obtain rfl := eq_nat_of_asNat? (hp.get? hc) hnat
    refine same_of_exact hp.wf hexact (by simp) (by simp) ?_
    simp only [List.forall_mem_cons]
    exact ⟨⟨_, get?_of_string? hkind, same_str⟩, ⟨_, ha, same_str⟩, ⟨_, hb, same_str⟩,
      ⟨_, hc, same_nat⟩, by simp⟩
  · rw [Bool.not_eq_true] at hexact
    rw [hexact] at h
    exact absurd h (by simp)

/-- The member of an op that carries one id. -/
theorem idOp_written {kind field : String} {make : String → Op}
    (hkind : p.string? "kind" = some kind) (h : parseIdOp p field make = some op)
    (hmake : ∀ id, opPayload (make id) = .obj [("kind", .str kind), (field, .str id)])
    (hbounded : ∀ id, (make id).Bounded) : WrittenAs p op := by
  unfold parseIdOp at h
  by_cases hexact : p.exact ["kind", field] [] = true
  · rw [hexact] at h
    simp only [Bool.not_true, Bool.false_eq_true, if_false] at h
    obtain ⟨id, hid, rfl⟩ := Option.map_eq_some_iff.mp h
    obtain ⟨a, ha, hid⟩ := Option.bind_eq_some_iff.mp hid
    obtain rfl := eq_str_of_isHex64 hid
    unfold WrittenAs
    rw [hmake]
    refine ⟨hbounded id, fun hp => same_of_exact hp.wf hexact (by simp) (by simp) ?_⟩
    simp only [List.forall_mem_cons]
    exact ⟨⟨_, get?_of_string? hkind, same_str⟩, ⟨_, ha, same_str⟩, by simp⟩
  · rw [Bool.not_eq_true] at hexact
    rw [hexact] at h
    exact absurd h (by simp)

/-- Whatever is parsed as an op is what the op is written as, in some order of keys. -/
theorem parseOp_written (h : parseOp K p = some op) : WrittenAs p op := by
  unfold parseOp at h
  split at h
  · exact offerPost_written ‹_› h
  · exact idOp_written ‹_› h (fun _ => rfl) (fun _ => trivial)
  · exact offerTake_written ‹_› h
  · exact swapProof_written ‹_› h
  · exact swapLocked_written ‹_› h
  · exact idOp_written ‹_› h (fun _ => rfl) (fun _ => trivial)
  · exact absurd h (by simp)

/-! ## What the language holds -/

namespace Json

/-- A record of the source: its keys differ, and none is an array index. -/
def Record (keys : List String) : Prop := keys.Nodup ∧ ∀ k ∈ keys, arrayIndex? k = none

instance (keys : List String) : Decidable (Record keys) := inferInstanceAs (Decidable (_ ∧ _))

theorem plainFields_iff {fs : List (String × Json)} : PlainFields fs ↔ ∀ e ∈ fs, e.2.Plain := by
  induction fs with
  | nil => simp [PlainFields]
  | cons e fs ih => rw [PlainFields, ih, List.forall_mem_cons]

theorem plainItems_iff {vs : List Json} : PlainItems vs ↔ ∀ v ∈ vs, v.Plain := by
  induction vs with
  | nil => simp [PlainItems]
  | cons v vs ih => rw [PlainItems, ih, List.forall_mem_cons]

theorem plain_record {fs : List (String × Json)} (keys : List String)
    (hkeys : fs.map Prod.fst = keys) (hrecord : Record keys) (hfs : ∀ e ∈ fs, e.2.Plain) :
    (obj fs).Plain := by
  obtain ⟨hnd, hindex⟩ := hrecord
  refine ⟨hkeys ▸ hnd, ?_, plainFields_iff.mpr hfs⟩
  have hle : ∀ a ∈ fs, ∀ b ∈ fs, indexLe a b = true := fun a ha b hb => by
    have hname : ∀ e ∈ fs, arrayIndex? e.1 = none := fun e he =>
      hindex e.1 (hkeys ▸ List.mem_map_of_mem he)
    unfold indexLe
    rw [hname a ha, hname b hb]
  exact List.pairwise_iff_forall_sublist.mpr fun {a b} hsub =>
    hle a (hsub.subset (by simp)) b (hsub.subset (by simp))

theorem plain_int {n : ℤ} (h : n.natAbs < 2 ^ 53) : (int n).Plain := printed_ofInt h

theorem plain_nat {n : ℕ} (h : n < 2 ^ 53) : (nat n).Plain := by
  have hnat : nat n = int (n : ℤ) := by
    unfold nat int JsNum.ofInt
    rw [if_pos (by omega), Int.toNat_natCast]
  rw [hnat]
  exact plain_int (by rw [Int.natAbs_natCast]; exact h)

end Json

theorem plain_canonLeg (l : Leg) : (canonLeg l).Plain :=
  plain_record ["chain", "amount"] rfl (by decide) (by simp [Plain, Json.decimal])

theorem plain_copyUtxo {u : ProofUtxo} (h : u.vout < 2 ^ 53) : (copyUtxo u).Plain :=
  plain_record ["txid", "vout", "value"] rfl (by decide) (by
    simp only [List.forall_mem_cons]
    exact ⟨trivial, plain_nat h, trivial, by simp⟩)

theorem plain_copyProof {proof : FundsProof} (h : ∀ u ∈ proof.utxos, u.vout < 2 ^ 53) :
    (copyProof proof).Plain :=
  plain_record ["chain", "net", "pubkey", "utxos", "sig"] rfl (by decide) (by
    simp only [List.forall_mem_cons]
    refine ⟨trivial, trivial, trivial, plainItems_iff.mpr fun v hv => ?_, trivial, by simp⟩
    obtain ⟨u, hu, rfl⟩ := List.mem_map.mp hv
    exact plain_copyUtxo (h u hu))

/-- What an op is written as survives a JSON round trip. -/
theorem plain_opPayload {op : Op} (h : op.Bounded) : (opPayload op).Plain := by
  cases op with
  | offerPost give want minFill expiresIn =>
    have hexpires : expiresIn < 2 ^ 53 := Nat.lt_of_le_of_lt h (by decide)
    refine plain_record ["kind", "give", "want", "minFill", "expiresIn"] rfl (by decide) ?_
    simp only [List.forall_mem_cons]
    exact ⟨trivial, plain_canonLeg give, plain_canonLeg want, trivial, plain_nat hexpires, by simp⟩
  | offerCancel offerId =>
    refine plain_record ["kind", "offerId"] rfl (by decide) ?_
    simp only [List.forall_mem_cons]
    exact ⟨trivial, trivial, by simp⟩
  | offerTake offerId fill hash takerKey =>
    refine plain_record ["kind", "offerId", "fill", "hash", "takerKey"] rfl (by decide) ?_
    simp only [List.forall_mem_cons]
    exact ⟨trivial, trivial, trivial, trivial, trivial, by simp⟩
  | swapProof matchId makerKey proof =>
    have hproof : (copyProof proof).Plain := plain_copyProof fun u hu =>
      Nat.lt_of_le_of_lt (h u hu) (by decide)
    cases makerKey with
    | none =>
      refine plain_record ["kind", "matchId", "proof"] rfl (by decide) ?_
      simp only [List.forall_mem_cons]
      exact ⟨trivial, trivial, hproof, by simp⟩
    | some makerKey =>
      refine plain_record ["kind", "matchId", "makerKey", "proof"] rfl (by decide) ?_
      simp only [List.forall_mem_cons]
      exact ⟨trivial, trivial, trivial, hproof, by simp⟩
  | swapLocked matchId txid vout =>
    have hvout : vout < 2 ^ 53 := Nat.lt_of_le_of_lt h (by decide)
    refine plain_record ["kind", "matchId", "txid", "vout"] rfl (by decide) ?_
    simp only [List.forall_mem_cons]
    exact ⟨trivial, trivial, trivial, plain_nat hvout, by simp⟩
  | swapAbort matchId =>
    refine plain_record ["kind", "matchId"] rfl (by decide) ?_
    simp only [List.forall_mem_cons]
    exact ⟨trivial, trivial, by simp⟩

/-- **Parsing and writing an op are inverses.** An op parsed from a JSON text is written as the
value of that text, in some order of keys, so two texts that carry one op have the same value; and
it is parsed back from what it is written as, before and after a JSON round trip. -/
theorem parseOp_opPayload (K : Curve) :
    (∀ text p op, Json.parse text = some p → parseOp K p = some op →
      (opPayload op).Same p ∧ parseOp K (opPayload op) = some op ∧
        Json.parse (opPayload op).stringify = some (opPayload op)) ∧
    ∀ text text' p q op, Json.parse text = some p → Json.parse text' = some q →
      parseOp K p = some op → parseOp K q = some op → p.Same q := by
  have hwritten : ∀ {text p op}, Json.parse text = some p → parseOp K p = some op →
      (opPayload op).Same p ∧ (opPayload op).Plain := fun hparse hop => by
    obtain ⟨hbounded, hsame⟩ := parseOp_written hop
    exact ⟨hsame (parsed_parse hparse), plain_opPayload hbounded⟩
  refine ⟨fun text p op hparse hop => ?_, fun text text' p q op hp hq hop hop' => ?_⟩
  · obtain ⟨hsame, hplain⟩ := hwritten hparse hop
    refine ⟨hsame, ?_, parse_stringify hplain⟩
    rw [parseOp_same hsame hplain.wf (parsed_parse hparse).wf, hop]
  · obtain ⟨hsame, hplain⟩ := hwritten hp hop
    have hback : p.Same (opPayload op) := hsame.symm (parsed_parse hp).wf
    exact hback.trans (hwritten hq hop').1

/-- A lock hint as a client writes it. -/
def sampleLock : Op :=
  .swapLocked (String.ofList (List.replicate 64 'a')) (String.ofList (List.replicate 64 '0')) 7

theorem parseOp_opPayload_locked : (opPayload sampleLock).Same (opPayload sampleLock) ∧
    parseOp ⟨fun _ => true⟩ (opPayload sampleLock) = some sampleLock ∧
      Json.parse (opPayload sampleLock).stringify = some (opPayload sampleLock) :=
  (parseOp_opPayload ⟨fun _ => true⟩).1 (opPayload sampleLock).stringify (opPayload sampleLock)
    sampleLock
    (parse_stringify (@plain_opPayload sampleLock (by show 7 ≤ maxVout; decide)))
    (by decide +kernel)

end Gavl
