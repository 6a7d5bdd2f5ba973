import Gavl.Market.Board
import Gavl.Market.UntypedTheorems

/-!
# Canonical states

A view whose fields all have their declared types, and the objects that are its encoding. What
`deserializeView` accepts beside them is what passes with a field missing, of another type, negative
or beside a member `__proto__`.
-/

namespace Gavl

namespace Untyped

open Json (Field ofFields Agree Same Loose Shaped)

variable {drop : String → Bool} {v w s : Json} {f g : Field} {S : IdOrder} {view : View}
  {fields : List (String × (Field → Option Field))} {l : List (String × Field)}
  {types : List (String × (Json → Prop))}

/-! ## Types -/

def IsString (v : Json) : Prop := ∃ s, v = .str s

def IsNumber (v : Json) : Prop := ∃ n, v = .num n

/-- The decimal of an amount. -/
def IsAmount (v : Json) : Prop := ∃ n : ℕ, v = decimal n

def IsName {α : Type} (name : α → String) (v : Json) : Prop := ∃ x, v = .str (name x)

def OrNull (p : Json → Prop) (v : Json) : Prop := v = .null ∨ p v

def legTypes : List (String × (Json → Prop)) := [("chain", IsName Chain.name), ("amount", IsAmount)]

def utxoTypes : List (String × (Json → Prop)) :=
  [("txid", IsString), ("vout", IsNumber), ("value", IsString)]

def IsUtxos (v : Json) : Prop := ∃ utxos, v = .arr utxos ∧ ∀ u ∈ utxos, Shaped utxoTypes u

def proofTypes : List (String × (Json → Prop)) :=
  [("chain", IsName Chain.name), ("net", IsName Net.name), ("pubkey", IsString),
    ("utxos", IsUtxos), ("sig", IsString)]

def lockTypes : List (String × (Json → Prop)) :=
  [("txid", IsString), ("vout", IsNumber), ("at", IsNumber)]

def cancelledTypes : List (String × (Json → Prop)) :=
  [("at", IsNumber), ("reason", IsName CancelReason.name)]

def offerTypes : List (String × (Json → Prop)) :=
  [("id", IsString), ("maker", IsString), ("give", Shaped legTypes), ("want", Shaped legTypes),
    ("minFill", IsAmount), ("remaining", IsAmount), ("postedAt", IsNumber), ("expiresAt", IsNumber)]

def bodyTypes : List (String × (Json → Prop)) :=
  [("id", IsString), ("offerId", IsString), ("maker", IsString), ("taker", IsString),
    ("takeSeq", IsNumber), ("makerChain", IsName Chain.name), ("makerRefundBlocks", IsNumber),
    ("takerChain", IsName Chain.name), ("takerRefundBlocks", IsNumber), ("hash", IsString),
    ("takerKey", IsString), ("makerKey", OrNull IsString), ("status", IsName MatchStatus.name),
    ("takenAt", IsNumber), ("proofDeadline", IsNumber), ("pruneAt", IsNumber),
    ("makerProof", OrNull (Shaped proofTypes)), ("takerProof", OrNull (Shaped proofTypes)),
    ("makerLock", OrNull (Shaped lockTypes)), ("takerLock", OrNull (Shaped lockTypes)),
    ("cancelled", OrNull (Shaped cancelledTypes))]

def matchTypes : List (String × (Json → Prop)) :=
  bodyTypes ++ [("makerAmount", IsAmount), ("takerAmount", IsAmount)]

/-- A field that is there, of its type. -/
def Has (p : Json → Prop) (f : Field) : Prop := ∃ v, f = some v ∧ p v

structure Leg.Typed (l : Leg) : Prop where
  chain : Has (IsName Chain.name) l.chain
  amount : 0 ≤ l.amount

structure Offer.Typed (o : Offer) : Prop where
  id : Has IsString o.id
  maker : Has IsString o.maker
  give : o.give.Typed
  want : o.want.Typed
  minFill : 0 ≤ o.minFill
  remaining : 0 ≤ o.remaining
  postedAt : Has IsNumber o.postedAt
  expiresAt : Has IsNumber o.expiresAt

structure Match.Typed (m : Match) : Prop where
  keys : m.body.map Prod.fst = bodyTypes.map Prod.fst
  body : ∀ e ∈ bodyTypes, ∃ v, (e.1, some v) ∈ m.body ∧ e.2 v
  makerAmount : 0 ≤ m.makerAmount
  takerAmount : 0 ≤ m.takerAmount

/-- Every item has its types, and is under its id. -/
structure View.Typed (view : View) : Prop where
  offers : ∀ k o, view.offers.get? k = some o → o.Typed ∧ ∃ id, o.id = some (.str id) ∧ k = .text id
  «matches» : ∀ k m, view.matches.get? k = some m →
    m.Typed ∧ ∃ id, m.id = some (.str id) ∧ k = .text id

/-- The encoding of a view of the declared types, its keys in any order. -/
def Canonical (S : IdOrder) (s : Json) : Prop :=
  ∃ view state, View.Typed view ∧ serializeView S view = some state ∧ s.Same state

/-- Every item of the two arrays has every field, of its type, and no other member. -/
structure ItemsTyped (s : Json) : Prop where
  offers : ∀ items, s.get? "offers" = some (.arr items) → ∀ o ∈ items, Shaped offerTypes o
  «matches» : ∀ items, s.get? "matches" = some (.arr items) → ∀ m ∈ items, Shaped matchTypes m

/-! ## What agrees with a typed value is typed -/

/-- What equals a value of the type up to the order of keys is of the type, and has no key twice. -/
structure IsType (p : Json → Prop) : Prop where
  same : ∀ x y : Json, x.Same y → x.Wf → y.Wf → p y → p x
  wf : ∀ x, p x → x.Wf

theorem same_str {t : String} (h : v.Same (.str t)) : v = .str t := by
  cases v with
  | str s => rw [show s = t from h]
  | _ => exact absurd h (by simp [Same, Agree])

theorem isType_string : IsType IsString where
  same := fun x y h _ _ hy => by
    obtain ⟨t, rfl⟩ := hy
    exact ⟨t, same_str h⟩
  wf := fun x hx => by
    obtain ⟨t, rfl⟩ := hx
    trivial

theorem isType_number : IsType IsNumber where
  same := fun x y h _ _ hy => by
    obtain ⟨n, rfl⟩ := hy
    cases x with
    | num m => exact ⟨m, rfl⟩
    | _ => exact absurd h (by simp [Same, Agree])
  wf := fun x hx => by
    obtain ⟨n, rfl⟩ := hx
    trivial

theorem isType_amount : IsType IsAmount where
  same := fun x y h _ _ hy => by
    obtain ⟨n, rfl⟩ := hy
    exact ⟨n, same_str h⟩
  wf := fun x hx => by
    obtain ⟨n, rfl⟩ := hx
    trivial

theorem isType_name {α : Type} (name : α → String) : IsType (IsName name) where
  same := fun x y h _ _ hy => by
    obtain ⟨a, rfl⟩ := hy
    exact ⟨a, same_str h⟩
  wf := fun x hx => by
    obtain ⟨a, rfl⟩ := hx
    trivial

theorem IsType.orNull {p : Json → Prop} (h : IsType p) : IsType (OrNull p) where
  same := fun x y hsame hx hy hp => by
    rcases hp with rfl | hp
    · cases x with
      | null => exact Or.inl rfl
      | _ => exact absurd hsame (by simp [Same, Agree])
    · exact Or.inr (h.same x y hsame hx hy hp)
  wf := fun x hx => by
    rcases hx with rfl | hx
    · trivial
    · exact h.wf x hx

theorem isType_shaped (hnodup : (types.map Prod.fst).Nodup) (htypes : ∀ e ∈ types, IsType e.2) :
    IsType (Shaped types) where
  same := fun _ _ hsame hx hy h => h.of_same hsame hx hy fun e he => (htypes e he).same
  wf := fun _ h => h.wf hnodup fun e he => (htypes e he).wf

theorem isType_utxo : IsType (Shaped utxoTypes) :=
  isType_shaped (by decide) (by simp [utxoTypes, isType_string, isType_number])

theorem isType_utxos : IsType IsUtxos where
  same := fun x y hsame hx hy hp => by
    obtain ⟨utxos, rfl, hall⟩ := hp
    cases x with
    | arr items =>
      refine ⟨items, rfl, fun u hu => ?_⟩
      obtain ⟨y, hy', huy⟩ := exists_of_forall₂ (Json.agreeItems_iff.mp hsame).flip u hu
      exact isType_utxo.same u y huy (Json.wf_arr.mp hx u hu) (Json.wf_arr.mp hy y hy') (hall y hy')
    | _ => exact absurd hsame (by simp [Same, Agree])
  wf := fun x hx => by
    obtain ⟨utxos, rfl, hall⟩ := hx
    exact Json.wf_arr.mpr fun u hu => isType_utxo.wf u (hall u hu)

theorem isType_leg : IsType (Shaped legTypes) :=
  isType_shaped (by decide) (by simp [legTypes, isType_name, isType_amount])

theorem isType_offer : IsType (Shaped offerTypes) :=
  isType_shaped (by decide)
    (by simp [offerTypes, isType_string, isType_leg, isType_amount, isType_number])

theorem isType_match : IsType (Shaped matchTypes) := by
  have hproof : IsType (Shaped proofTypes) := isType_shaped (by decide)
    (by simp [proofTypes, isType_string, isType_name, isType_utxos])
  have hlock : IsType (Shaped lockTypes) := isType_shaped (by decide)
    (by simp [lockTypes, isType_string, isType_number])
  have hcancelled : IsType (Shaped cancelledTypes) := isType_shaped (by decide)
    (by simp [cancelledTypes, isType_number, isType_name])
  exact isType_shaped (by decide) (by
    simp [matchTypes, bodyTypes, isType_string, isType_number, isType_name, isType_amount,
      isType_string.orNull, hproof.orNull, hlock.orNull, hcancelled.orNull])

/-! ## What is typed passes -/

/-- What is of the type passes. -/
def Allows (p : Json → Prop) (q : Field → Prop) : Prop := ∀ x, p x → q (some x)

theorem allows_anything (p : Json → Prop) : Allows p Anything := fun _ _ => trivial

theorem allows_amount : Allows IsAmount IsInteger := by
  rintro x ⟨n, rfl⟩
  exact ⟨n, rfl⟩

/-- A record passes where each of its types does. -/
def Admits (types : List (String × (Json → Prop))) (shape : List (String × (Field → Prop))) : Prop :=
  List.Forall₂ (fun e e' => e.1 = e'.1 ∧ Allows e.2 e'.2) types shape

variable {shape : List (String × (Field → Prop))}

theorem admits_leg : Admits legTypes legShape := by
  simp [Admits, legTypes, legShape, allows_anything, allows_amount]

theorem allows_leg : Allows (Shaped legTypes) (LooseLeg drop) := fun x hx =>
  ⟨x, rfl, hx.loose admits_leg⟩

theorem admits_utxo : Admits utxoTypes utxoShape := by
  simp [Admits, utxoTypes, utxoShape, allows_anything]

theorem allows_utxos : Allows IsUtxos (LooseUtxos drop) := by
  rintro x ⟨utxos, rfl, hall⟩
  exact ⟨utxos, rfl, fun u hu => (hall u hu).loose admits_utxo⟩

theorem allows_orNull (h : Admits types shape) :
    Allows (OrNull (Shaped types)) (FalsyOr drop shape) := by
  rintro x (rfl | hx)
  · exact Or.inl rfl
  · exact Or.inr ⟨x, rfl, hx.loose h⟩

theorem admits_offer : Admits offerTypes (offerShape drop) := by
  simp [Admits, offerTypes, offerShape, allows_anything, allows_amount, allows_leg]

theorem admits_match : Admits matchTypes (matchShape drop) := by
  have hproof : Admits proofTypes (proofShape drop) := by
    simp [Admits, proofTypes, proofShape, allows_anything, allows_utxos]
  have hlock : Admits lockTypes lockShape := by
    simp [Admits, lockTypes, lockShape, allows_anything]
  have hcancelled : Admits cancelledTypes cancelledShape := by
    simp [Admits, cancelledTypes, cancelledShape, allows_anything]
  simp [Admits, matchTypes, bodyTypes, matchShape, allows_anything, allows_amount,
    allows_orNull hproof, allows_orNull hlock, allows_orNull hcancelled]

/-! ## Copies of typed values are typed -/

/-- The copy of a value of the type is of the type. -/
def Retains (copy : Field → Option Field) (p : Json → Prop) : Prop :=
  ∀ x, p x → ∃ y, copy (some x) = some (some y) ∧ p y

theorem retains_some (p : Json → Prop) : Retains some p := fun x hx => ⟨x, rfl, hx⟩

/-- Every copy retains its type. -/
def Preserves (fields : List (String × (Field → Option Field)))
    (types : List (String × (Json → Prop))) : Prop :=
  List.Forall₂ (fun e e' => e.1 = e'.1 ∧ Retains e.2 e'.2) fields types

theorem Preserves.keys (h : Preserves fields types) :
    fields.map Prod.fst = types.map Prod.fst := by
  induction h with
  | nil => rfl
  | cons hhead _ ih => rw [List.map_cons, List.map_cons, hhead.1, ih]

/-- The members of the copy of a record. -/
theorem Preserves.members (h : Preserves fields types)
    (hv : ∀ e ∈ types, ∃ x, v.get? e.1 = some x ∧ e.2 x) :
    (∀ e ∈ fields, ∃ g, e.2 (v.get? e.1) = some g) ∧
      ∀ e ∈ types, ∃ x, (e.1, some x) ∈ copies fields v ∧ e.2 x := by
  unfold copies
  induction h with
  | nil => exact ⟨by simp, by simp⟩
  | @cons e e' fields types hhead _ ih =>
    rw [List.forall_mem_cons] at hv
    obtain ⟨⟨x, hx, hex⟩, hrest⟩ := hv
    obtain ⟨hsome, hmembers⟩ := ih hrest
    obtain ⟨y, hy, hey⟩ := hhead.2 x hex
    rw [← hhead.1] at hx
    refine ⟨List.forall_mem_cons.mpr ⟨⟨some y, by rw [hx, hy]⟩, hsome⟩,
      List.forall_mem_cons.mpr ⟨⟨y, ?_, hey⟩, fun e'' he'' => ?_⟩⟩
    · rw [List.map_cons, hx, hy, hhead.1]
      exact List.mem_cons_self
    · obtain ⟨z, hz, hez⟩ := hmembers e'' he''
      exact ⟨z, List.mem_cons_of_mem _ hz, hez⟩

theorem Preserves.copy (h : Preserves fields types) (hne : fields ≠ [])
    (hnodup : (fields.map Prod.fst).Nodup) (hv : Shaped types v) :
    copyFields fields v = some (copies fields v) ∧ Shaped types (ofFields (copies fields v)) := by
  obtain ⟨fs, rfl, hkeys, hall⟩ := hv
  obtain ⟨hsome, hmembers⟩ := h.members hall
  refine ⟨(copyFields_iff hne).mpr ⟨by simp, hsome, rfl⟩, Json.shaped_ofFields ?_ ?_ hmembers⟩
  · rw [keys_copies]
    exact hnodup
  · rw [keys_copies]
    exact h.keys

theorem Preserves.orNull (h : Preserves fields types) (hne : fields ≠ [])
    (hnodup : (fields.map Prod.fst).Nodup) : Retains (copyTruthy fields) (OrNull (Shaped types)) := by
  rintro x (rfl | hx)
  · exact ⟨.null, rfl, Or.inl rfl⟩
  · obtain ⟨hcopy, hshaped⟩ := h.copy hne hnodup hx
    refine ⟨_, ?_, Or.inr hshaped⟩
    obtain ⟨fs, rfl, -⟩ := hx
    unfold copyTruthy
    rw [if_pos (show truthy (some (Json.obj fs)) = true from rfl), Option.bind_some, hcopy]
    rfl

theorem retains_utxos : Retains copyUtxos IsUtxos := by
  rintro x ⟨utxos, rfl, hall⟩
  have hpreserves : Preserves utxoFields utxoTypes := by
    simp [Preserves, utxoFields, utxoTypes, retains_some]
  have hcopied : utxos.mapM (fun u => (copyFields utxoFields u).map ofFields)
      = some (utxos.map (fun u => ofFields (copies utxoFields u))) := by
    rw [mapM_eq_some, List.forall₂_map_right_iff, List.forall₂_same]
    intro u hu
    rw [(hpreserves.copy (by simp [utxoFields]) (by decide) (hall u hu)).1]
    rfl
  refine ⟨.arr (utxos.map (fun u => ofFields (copies utxoFields u))), ?_, _, rfl, ?_⟩
  · show Option.map (fun copied => some (Json.arr copied))
      (utxos.mapM (fun u => (copyFields utxoFields u).map ofFields)) = _
    rw [hcopied]
    rfl
  · rw [List.forall_mem_map]
    exact fun u hu => (hpreserves.copy (by simp [utxoFields]) (by decide) (hall u hu)).2

theorem preserves_match : Preserves matchFields bodyTypes := by
  have hproof : Retains copyProof (OrNull (Shaped proofTypes)) := Preserves.orNull
    (by simp [Preserves, proofFields, proofTypes, retains_some, retains_utxos])
    (by simp [proofFields]) (by decide)
  have hlock : Retains copyLock (OrNull (Shaped lockTypes)) := Preserves.orNull
    (by simp [Preserves, lockFields, lockTypes, retains_some]) (by simp [lockFields]) (by decide)
  have hcancelled : Retains (copyTruthy cancelledFields) (OrNull (Shaped cancelledTypes)) :=
    Preserves.orNull (by simp [Preserves, cancelledFields, cancelledTypes, retains_some])
      (by simp [cancelledFields]) (by decide)
  simp [Preserves, matchFields, bodyTypes, retains_some, hproof, hlock, hcancelled]

/-! ## Typed items and typed encodings -/

theorem has_of_get? {p : Json → Prop} {k : String} (h : ∃ x, v.get? k = some x ∧ p x) :
    Has p (v.get? k) := h

theorem nonneg_of_amount {x : Json} {n : ℤ} (hx : IsAmount x) (h : bigInt (some x) = some n) :
    0 ≤ n := by
  obtain ⟨m, rfl⟩ := hx
  unfold bigInt at h
  rw [Option.bind_some, bigIntOf_decimal, Option.some.injEq] at h
  omega

theorem typed_leg {l : Leg} (hf : Has (Shaped legTypes) f) (h : leg f = some l) : l.Typed := by
  obtain ⟨v, rfl, fs, rfl, -, hmembers⟩ := hf
  simp only [legTypes, List.forall_mem_cons, List.not_mem_nil, false_implies, implies_true,
    and_true] at hmembers
  obtain ⟨hchain, x, hx, hamount⟩ := hmembers
  unfold leg at h
  simp only [read, Option.bind_eq_bind, Option.bind_some, Option.pure_def,
    Option.bind_eq_some_iff] at h
  obtain ⟨n, hn, heq⟩ := h
  rw [hx] at hn
  rw [← Option.some.inj heq]
  exact ⟨hchain, nonneg_of_amount hamount hn⟩

/-- The offer of a typed object is typed. -/
theorem typed_offerOf {o : Json} {r : Offer} (ho : Shaped offerTypes o) (h : offerOf o = some r) :
    r.Typed := by
  obtain ⟨fs, rfl, -, hmembers⟩ := ho
  simp only [offerTypes, List.forall_mem_cons, List.not_mem_nil, false_implies, implies_true,
    and_true] at hmembers
  obtain ⟨hid, hmaker, hgive, hwant, ⟨x, hx, hmin⟩, ⟨y, hy, hrem⟩, hposted, hexpires⟩ := hmembers
  unfold offerOf at h
  simp only [read, Option.bind_eq_bind, Option.bind_some, Option.pure_def,
    Option.bind_eq_some_iff] at h
  obtain ⟨give, hg, want, hw, minFill, hm, remaining, hr, heq⟩ := h
  rw [hx] at hm
  rw [hy] at hr
  rw [← Option.some.inj heq]
  exact ⟨hid, hmaker, typed_leg hgive hg, typed_leg hwant hw, nonneg_of_amount hmin hm,
    nonneg_of_amount hrem hr, hposted, hexpires⟩

theorem typed_matchOf {m : Json} {r : Match} (hm : Shaped matchTypes m) (h : matchOf m = some r) :
    r.Typed := by
  obtain ⟨fs, rfl, -, hmembers⟩ := hm
  unfold matchTypes at hmembers
  rw [List.forall_mem_append] at hmembers
  obtain ⟨hbody, hamounts⟩ := hmembers
  simp only [List.forall_mem_cons, List.not_mem_nil, false_implies, implies_true,
    and_true] at hamounts
  obtain ⟨⟨x, hx, hmaker⟩, y, hy, htaker⟩ := hamounts
  unfold matchOf at h
  simp only [read, Option.bind_eq_bind, Option.bind_some, Option.pure_def,
    Option.bind_eq_some_iff] at h
  obtain ⟨body, hcopied, makerAmount, hm, takerAmount, ht, heq⟩ := h
  obtain ⟨-, -, rfl⟩ := (copyFields_iff (by simp [matchFields])).mp hcopied
  rw [hx] at hm
  rw [hy] at ht
  rw [← Option.some.inj heq]
  refine ⟨?_, (preserves_match.members hbody).2, nonneg_of_amount hmaker hm,
    nonneg_of_amount htaker ht⟩
  rw [keys_copies]
  exact preserves_match.keys

theorem isAmount_decimal {n : ℤ} (hn : 0 ≤ n) : IsAmount (decimal n) :=
  ⟨n.toNat, by rw [Int.toNat_of_nonneg hn]⟩

theorem shaped_canonLeg {l : Leg} (h : l.Typed) : Shaped legTypes (canonLeg l) := by
  obtain ⟨⟨c, hc, hname⟩, hamount⟩ := h
  refine Json.shaped_ofFields (by simp) rfl ?_
  simp only [legTypes, List.forall_mem_cons, List.not_mem_nil, false_implies, implies_true,
    and_true]
  exact ⟨⟨c, by simp [hc], hname⟩, _, by simp, isAmount_decimal hamount⟩

/-- The encoding of a typed offer is typed. -/
theorem shaped_canonOffer {o : Offer} (h : o.Typed) : Shaped offerTypes (canonOffer o) := by
  obtain ⟨⟨id, hid, hidt⟩, ⟨mk, hmk, hmkt⟩, hgive, hwant, hmin, hrem, ⟨p, hp, hpt⟩, e, he, het⟩ := h
  refine Json.shaped_ofFields (by simp) rfl ?_
  simp only [offerTypes, List.forall_mem_cons, List.not_mem_nil, false_implies, implies_true,
    and_true]
  exact ⟨⟨id, by simp [hid], hidt⟩, ⟨mk, by simp [hmk], hmkt⟩,
    ⟨_, by simp, shaped_canonLeg hgive⟩, ⟨_, by simp, shaped_canonLeg hwant⟩,
    ⟨_, by simp, isAmount_decimal hmin⟩, ⟨_, by simp, isAmount_decimal hrem⟩,
    ⟨p, by simp [hp], hpt⟩, e, by simp [he], het⟩

theorem nodup_bodyTypes : (bodyTypes.map Prod.fst).Nodup := by decide

theorem shaped_canonMatch {m : Match} {x : Json} (h : m.Typed) (hx : canonMatch m = some x) :
    Shaped matchTypes x := by
  have hbody : Shaped bodyTypes (ofFields m.body) :=
    Json.shaped_ofFields (h.keys ▸ nodup_bodyTypes) h.keys h.body
  obtain ⟨hcopy, -⟩ := preserves_match.copy (by simp [matchFields]) nodup_matchFields hbody
  unfold canonMatch matchBody at hx
  rw [hcopy] at hx
  obtain ⟨fs, heq, -, hall⟩ := hbody
  have hmembers := (preserves_match.members hall).2
  rw [← Option.some.inj hx]
  have hkeys : (copies matchFields (ofFields m.body) ++
      [("makerAmount", some (decimal m.makerAmount)), ("takerAmount", some (decimal m.takerAmount))]).map
        Prod.fst = matchTypes.map Prod.fst := by
    rw [List.map_append, keys_copies]
    rfl
  refine Json.shaped_ofFields (by rw [hkeys]; decide) hkeys ?_
  unfold matchTypes
  rw [List.forall_mem_append]
  constructor
  · intro e he
    obtain ⟨y, hy, hey⟩ := hmembers e he
    exact ⟨y, List.mem_append_left _ hy, hey⟩
  · simp only [List.forall_mem_cons, List.not_mem_nil, false_implies, implies_true, and_true]
    exact ⟨⟨_, List.mem_append_right _ (by simp), isAmount_decimal h.makerAmount⟩,
      _, List.mem_append_right _ (by simp), isAmount_decimal h.takerAmount⟩

/-! ## Sorted string ids -/

variable {items xs ys : List Json} {ids : List String}

theorem eq_of_perm_of_map {β : Type} {F : Json → β} (hperm : xs.Perm ys) (hmap : xs.map F = ys.map F)
    (hnodup : (ys.map F).Nodup) : xs = ys := by
  refine List.ext_getElem hperm.length_eq fun i hx hy => ?_
  refine List.inj_on_of_nodup_map hnodup (hperm.mem_iff.mp (List.getElem_mem hx))
    (List.getElem_mem hy) ?_
  have hget := congrArg (fun l => l[i]?) hmap
  simpa [hx, hy] using hget

/-- Ids that are strings. -/
def TextIds (items : List Json) (ids : List String) : Prop :=
  items.map (·.get? "id") = ids.map (fun t => some (.str t))

theorem TextIds.map_nodup (h : TextIds items ids) :
    (items.map (·.get? "id")).Nodup ↔ ids.Nodup := by
  rw [show items.map (·.get? "id") = _ from h]
  exact List.nodup_map_iff fun s t hst => Json.str.inj (Option.some.inj hst)

theorem TextIds.keysOf_nodup (h : TextIds items ids) :
    (keysOf (items.map (·.get? "id"))).Nodup ↔ ids.Nodup := by
  rw [show items.map (·.get? "id") = _ from h]
  have hkeys : keysOf (ids.map (fun t => some (.str t))) = ids.map Key.text := by
    unfold keysOf
    rw [List.zipIdx_map, List.map_map]
    show ids.zipIdx.map (Key.text ∘ Prod.fst) = _
    rw [← List.map_map, List.zipIdx_map_fst]
  rw [hkeys]
  exact List.nodup_map_iff fun s t hst => Key.text.inj hst

/-- Sorting by ids that are strings: they end up in order. -/
theorem TextIds.sort (h : TextIds items ids) : ∃ sorted ids', S.sort items = some sorted ∧
    TextIds sorted ids' ∧ ids'.Pairwise (fun s t => Json.utf16 s ≤ Json.utf16 t) := by
  obtain ⟨places, hplaces, hsorted⟩ := S.strings ids
  refine ⟨places.filterMap (fun i => items[i]?), places.filterMap (fun i => ids[i]?), ?_, ?_, hsorted⟩
  · unfold IdOrder.sort
    rw [show items.map (·.get? "id") = _ from h, hplaces]
    rfl
  · unfold TextIds
    rw [List.map_filterMap, List.map_filterMap]
    refine congrArg (fun step => places.filterMap step) (funext fun i => ?_)
    have hget := congrArg (fun l => l[i]?) h
    simpa only [List.getElem?_map] using hget

/-- Distinct strings in order stay where they are. -/
theorem TextIds.sort_eq (h : TextIds items ids) (hnodup : ids.Nodup)
    (hsorted : ids.Pairwise (fun s t => Json.utf16 s ≤ Json.utf16 t)) :
    S.sort items = some items := by
  obtain ⟨sorted, ids', hsort, hids', hsorted'⟩ := h.sort (S := S)
  have hperm := sort_perm hsort
  have hidsperm : ids'.Perm ids := by
    have hmap := hperm.map (·.get? "id")
    rw [show sorted.map (·.get? "id") = _ from hids', show items.map (·.get? "id") = _ from h] at hmap
    have htexts := hmap.filterMap (fun f => f.bind Json.asString?)
    simpa [List.filterMap_map, Function.comp_def, Json.asString?] using htexts
  have heq : ids' = ids := hidsperm.eq_of_pairwise
    (fun s t _ _ hst hts => Json.utf16_injective (le_antisymm hst hts)) hsorted' hsorted
  rw [hsort, eq_of_perm_of_map hperm (hids'.trans (heq ▸ h.symm)) (h.map_nodup.mpr hnodup)]

/-- Agreeing values have the same ids where these are strings. -/
theorem TextIds.of_agree (h : TextIds ys ids) (hall : List.Forall₂ (Agree drop) xs ys)
    (hxs : ∀ x ∈ xs, x.Wf) (hys : ∀ y ∈ ys, y.Wf) (hid : drop "id" = false) : TextIds xs ids := by
  unfold TextIds at h ⊢
  rw [← h]
  have htext : ∀ y ∈ ys, ∃ t, y.get? "id" = some (.str t) := by
    intro y hy
    have hmem : y.get? "id" ∈ ids.map (fun t => (some (.str t) : Field)) :=
      h ▸ List.mem_map_of_mem hy
    obtain ⟨t, -, ht⟩ := List.mem_map.mp hmem
    exact ⟨t, ht.symm⟩
  clear h
  induction hall with
  | nil => rfl
  | @cons x y xs ys hhead _ ih =>
    rw [List.forall_mem_cons] at hxs hys htext
    rw [List.map_cons, List.map_cons, ih hxs.2 hys.2 htext.2]
    obtain ⟨t, ht⟩ := htext.1
    have hrel := hhead.get? hxs.1 hys.1 hid
    rw [ht] at hrel ⊢
    generalize x.get? "id" = f at hrel
    cases hrel with
    | @some z _ hz =>
      cases z with
      | str s => rw [show s = t from hz]
      | _ => exact absurd hz (by simp [Agree])

theorem TextIds.inPlace (h : TextIds items ids) (hnodup : ids.Nodup)
    (hsorted : ids.Pairwise (fun s t => Json.utf16 s ≤ Json.utf16 t)) : InPlace S drop items :=
  ⟨h.keysOf_nodup.mpr hnodup, items, h.sort_eq hnodup hsorted,
    List.forall₂_same.mpr fun v _ => Agree.refl v⟩

theorem textIds_of_typed (htext : ∀ v ∈ items, ∃ t, v.get? "id" = some (.str t)) :
    ∃ ids, TextIds items ids := by
  induction items with
  | nil => exact ⟨[], rfl⟩
  | cons v items ih =>
    rw [List.forall_mem_cons] at htext
    obtain ⟨ids, hids⟩ := ih htext.2
    obtain ⟨t, ht⟩ := htext.1
    exact ⟨t :: ids, by unfold TextIds; rw [List.map_cons, List.map_cons, ht, hids]⟩

/-- Typed items that are left in place up to dropped members are left in place. -/
theorem inPlace_of_typed (htext : ∀ v ∈ items, ∃ t, v.get? "id" = some (.str t))
    (hwf : ∀ v ∈ items, v.Wf) (h : InPlace S protoOnly items) : InPlace S drop items := by
  obtain ⟨hnodup, sorted, hsort, hall⟩ := h
  obtain ⟨ids, hids⟩ := textIds_of_typed htext
  have hperm := sort_perm hsort
  have hsorted : TextIds sorted ids :=
    hids.of_agree hall (fun y hy => hwf y (hperm.mem_iff.mp hy)) hwf rfl
  have heq : sorted = items := eq_of_perm_of_map hperm (hsorted.trans hids.symm)
    (hids.map_nodup.mpr (hids.keysOf_nodup.mp hnodup))
  exact ⟨hnodup, sorted, hsort, heq ▸ List.forall₂_same.mpr fun v _ => Agree.refl v⟩

/-! ## Canonical states -/

variable {α : Type} {id : α → Field}

/-- Values kept under ids that are strings have distinct ids. -/
theorem textIds_of_keyed {m : OrderedMap Key α}
    (hkeyed : ∀ k r, m.get? k = some r → ∃ t, id r = some (.str t) ∧ k = .text t) :
    ∃ ids : List String, m.values.map id = ids.map (fun t => some (.str t)) ∧ ids.Nodup := by
  have hentries : ∀ e ∈ m.entries, ∃ t, id e.2 = some (.str t) ∧ e.1 = .text t := fun e he =>
    hkeyed e.1 e.2 ((OrderedMap.get?_eq_some_iff m e.1 e.2).mpr he)
  have hkeys : (m.entries.map Prod.fst).Nodup := m.nodup
  unfold OrderedMap.values
  generalize m.entries = entries at hentries hkeys
  suffices h : ∃ ids : List String, (entries.map Prod.snd).map id = ids.map (fun t => some (.str t)) ∧
      entries.map Prod.fst = ids.map Key.text by
    obtain ⟨ids, hids, htexts⟩ := h
    exact ⟨ids, hids, (htexts ▸ hkeys).of_map Key.text⟩
  clear hkeys hkeyed
  induction entries with
  | nil => exact ⟨[], rfl, rfl⟩
  | cons e entries ih =>
    rw [List.forall_mem_cons] at hentries
    obtain ⟨ids, hids, htexts⟩ := ih hentries.2
    obtain ⟨t, ht, hk⟩ := hentries.1
    exact ⟨t :: ids, by rw [List.map_cons, List.map_cons, ht, hids]; rfl,
      by rw [List.map_cons, hk, htexts]; rfl⟩

/-- What equals the sorted encodings of typed values is typed, and stays in place. -/
theorem typed_of_same (drop : String → Bool) {encs sorted : List Json}
    (htype : IsType (Shaped types))
    (hitems : ∀ v ∈ items, v.Wf) (hencs : ∀ x ∈ encs, Shaped types x) (hids : TextIds encs ids)
    (hnodup : ids.Nodup) (hsort : S.sort encs = some sorted) (hall : List.Forall₂ Same items sorted) :
    (∀ v ∈ items, Shaped types v) ∧ InPlace S drop items := by
  have hperm := sort_perm hsort
  have hshaped : ∀ y ∈ sorted, Shaped types y := fun y hy => hencs y (hperm.mem_iff.mp hy)
  have hwf : ∀ y ∈ sorted, y.Wf := fun y hy => htype.wf y (hshaped y hy)
  refine ⟨fun v hv => ?_, ?_⟩
  · obtain ⟨y, hy, hvy⟩ := exists_of_forall₂ hall.flip v hv
    exact htype.same v y hvy (hitems v hv) (hwf y hy) (hshaped y hy)
  · obtain ⟨sorted', ids', hsort', hids', hpairwise⟩ := hids.sort (S := S)
    obtain rfl := Option.some.inj (hsort.symm.trans hsort')
    have hnodup' : ids'.Nodup := by
      rw [← hids'.map_nodup]
      exact (hperm.map (·.get? "id")).nodup_iff.mpr (hids.map_nodup.mpr hnodup)
    exact (hids'.of_agree hall hitems hwf rfl).inPlace hnodup' hpairwise

theorem key_of_byId {rs : List α} {k : Key} {r : α} (hnodup : (keysOf (rs.map id)).Nodup)
    (h : (byId id rs).get? k = some r) : r ∈ rs ∧ ∃ n, k = keyOf n (id r) := by
  have hentry := (OrderedMap.get?_eq_some_iff _ k r).mp h
  unfold byId at hentry
  rw [OrderedMap.entries_foldl_set (by rw [keys_of_zipIdx]; exact hnodup)] at hentry
  obtain ⟨⟨x, n⟩, hx, heq⟩ := List.mem_map.mp hentry
  obtain ⟨rfl, rfl⟩ := Prod.mk.inj heq
  exact ⟨(List.mem_zipIdx' hx).2 ▸ List.getElem_mem _, n, rfl⟩

theorem text_of_offer (hv : Shaped offerTypes v) : ∃ t, v.get? "id" = some (.str t) := by
  obtain ⟨fs, rfl, -, hmembers⟩ := hv
  obtain ⟨x, hx, t, rfl⟩ := hmembers ("id", IsString) List.mem_cons_self
  exact ⟨t, hx⟩

theorem text_of_match (hv : Shaped matchTypes v) : ∃ t, v.get? "id" = some (.str t) := by
  obtain ⟨fs, rfl, -, hmembers⟩ := hv
  obtain ⟨x, hx, t, rfl⟩ := hmembers ("id", IsString) List.mem_cons_self
  exact ⟨t, hx⟩

/-- The encodings of the offers of a typed view. -/
theorem View.Typed.offers_encoded (h : view.Typed) :
    (∀ x ∈ view.offers.values.map canonOffer, Shaped offerTypes x) ∧
      ∃ ids, TextIds (view.offers.values.map canonOffer) ids ∧ ids.Nodup := by
  refine ⟨?_, ?_⟩
  · rw [List.forall_mem_map]
    intro o ho
    obtain ⟨k, hk⟩ := (OrderedMap.mem_values _ o).mp ho
    exact shaped_canonOffer (h.offers k o hk).1
  · obtain ⟨ids, hids, hnodup⟩ := textIds_of_keyed fun k o hk => (h.offers k o hk).2
    refine ⟨ids, ?_, hnodup⟩
    unfold TextIds
    rw [← hids, List.map_map]
    exact List.map_congr_left fun o _ => id_of_canonOffer o

theorem View.Typed.matches_encoded {encs : List Json} (h : view.Typed)
    (hencs : view.matches.values.mapM canonMatch = some encs) :
    (∀ x ∈ encs, Shaped matchTypes x) ∧ ∃ ids, TextIds encs ids ∧ ids.Nodup := by
  refine ⟨fun x hx => ?_, ?_⟩
  · obtain ⟨m, hm, hmx⟩ := exists_of_forall₂ (mapM_eq_some.mp hencs) x hx
    obtain ⟨k, hk⟩ := (OrderedMap.mem_values _ m).mp hm
    exact shaped_canonMatch (h.matches k m hk).1 hmx
  · obtain ⟨ids, hids, hnodup⟩ := textIds_of_keyed fun k m hk => (h.matches k m hk).2
    exact ⟨ids, ((coded_match spares_protoOnly).ids_of_encode hencs).trans hids, hnodup⟩

theorem items_of_same (hs : s.Wf) (hw : w.Wf) (h : s.Same w) {k : String}
    (hget : w.get? k = some (.arr xs)) :
    ∃ items, s.get? k = some (.arr items) ∧ List.Forall₂ Same items xs := by
  have hrel := h.get? hs hw k
  rw [hget] at hrel
  generalize s.get? k = f at hrel
  cases hrel with
  | @some x _ hx =>
    cases x with
    | arr items => exact ⟨items, rfl, Json.agreeItems_iff.mp hx.1⟩
    | _ => exact absurd hx.1 (by simp [Same, Agree])

/-- The canonical encodings are what passes with every item typed. -/
theorem canonical_iff (hs : s.Wf) :
    Canonical S s ↔ LooseState S protoOnly s ∧ ItemsTyped s := by
  constructor
  · rintro ⟨view, state, htyped, hstate, hsame⟩
    obtain ⟨sortedOffers, encs, sortedFound, hsort, hencs, hsort', rfl⟩ :=
      serializeView_eq_some.mp hstate
    obtain ⟨hoffer, ids, hids, hnodup⟩ := htyped.offers_encoded
    obtain ⟨hmatch, ids', hids', hnodup'⟩ := htyped.matches_encoded hencs
    have hwf : (Json.obj [("offers", .arr sortedOffers), ("matches", .arr sortedFound)]).Wf := by
      rw [Json.wf_obj]
      simp only [List.forall_mem_cons, List.not_mem_nil, false_implies, implies_true, and_true]
      exact ⟨by simp,
        Json.wf_arr.mpr fun y hy => isType_offer.wf y (hoffer y ((sort_perm hsort).mem_iff.mp hy)),
        Json.wf_arr.mpr fun y hy => isType_match.wf y (hmatch y ((sort_perm hsort').mem_iff.mp hy))⟩
    obtain ⟨offers, hoffers, hall⟩ := items_of_same (k := "offers") hs hwf hsame rfl
    obtain ⟨found, hfound, hall'⟩ := items_of_same (k := "matches") hs hwf hsame rfl
    obtain ⟨htypes, hplace⟩ := typed_of_same protoOnly isType_offer (wf_items hs hoffers)
      hoffer hids hnodup hsort hall
    obtain ⟨htypes', hplace'⟩ := typed_of_same protoOnly isType_match
      (wf_items hs hfound) hmatch hids' hnodup' hsort' hall'
    have hkeys := hsame.keys hs hwf
    refine ⟨⟨?_, ⟨offers, hoffers, fun o ho => (htypes o ho).loose admits_offer, hplace⟩,
      found, hfound, fun m hm => (htypes' m hm).loose admits_match, hplace'⟩, fun items hi => ?_,
      fun items hi => ?_⟩
    · generalize s.keys? = keys at hkeys
      cases hkeys with
      | some hperm => exact ⟨_, rfl, hperm.length_eq⟩
    · obtain rfl := Json.arr.inj (Option.some.inj (hoffers.symm.trans hi))
      exact htypes
    · obtain rfl := Json.arr.inj (Option.some.inj (hfound.symm.trans hi))
      exact htypes'
  · rintro ⟨⟨htwo, ⟨offers, hoffers, -, hplace⟩, found, hfound, -, hplace'⟩, htyped⟩
    have hoffer := htyped.offers offers hoffers
    have hmatch := htyped.matches found hfound
    have hnever : Spares (fun _ => false) := fun _ _ => rfl
    have hstrict : LooseState S (fun _ => false) s :=
      ⟨htwo, ⟨offers, hoffers, fun o ho => (hoffer o ho).loose admits_offer,
          inPlace_of_typed (fun o ho => text_of_offer (hoffer o ho)) (wf_items hs hoffers) hplace⟩,
        found, hfound, fun m hm => (hmatch m hm).loose admits_match,
        inPlace_of_typed (fun m hm => text_of_match (hmatch m hm)) (wf_items hs hfound) hplace'⟩
    obtain ⟨view, state, hview, hstate, -, hagree⟩ := (reencodes_iff hnever hs).mpr hstrict
    refine ⟨view, state, ?_, hstate, hagree.symm hs⟩
    have hne : s ≠ .null := by
      rintro rfl
      exact absurd hoffers (by simp [Json.get?])
    obtain ⟨rs, rs', hrs, hrs', rfl⟩ := (copiedView_eq_some hne hoffers hfound).mp hview
    refine ⟨fun k o hk => ?_, fun k m hk => ?_⟩
    · have hnodup := (coded_offer hnever).ids_of_mapM hrs ▸ hplace.1
      obtain ⟨ho, n, rfl⟩ := key_of_byId hnodup hk
      obtain ⟨v, hv, hvo⟩ := exists_of_forall₂ (mapM_eq_some.mp hrs) o ho
      obtain ⟨t, ht⟩ := text_of_offer (hoffer v hv)
      have hid : o.id = some (.str t) := (id_of_offerOf hvo).trans ht
      exact ⟨typed_offerOf (hoffer v hv) hvo, t, hid, by rw [hid]; rfl⟩
    · have hnodup := (coded_match hnever).ids_of_mapM hrs' ▸ hplace'.1
      obtain ⟨hm, n, rfl⟩ := key_of_byId hnodup hk
      obtain ⟨v, hv, hvm⟩ := exists_of_forall₂ (mapM_eq_some.mp hrs') m hm
      obtain ⟨t, ht⟩ := text_of_match (hmatch v hv)
      have hid : m.id = some (.str t) := (id_of_matchOf hvm).trans ht
      exact ⟨typed_matchOf (hmatch v hv) hvm, t, hid, by rw [hid]; rfl⟩

/-- **Exact decoding.** `deserializeView` accepts a JSON value exactly if it is the encoding of a
view of the declared types, as long as no item that passes has a field missing or of another type,
or a member beside them. -/
theorem accepted_iff_canonical (S : IdOrder) (s : Json) (hs : s.Wf) :
    ((deserializeView S s).isSome ↔ Canonical S s) ↔ (LooseState S protoOnly s → ItemsTyped s) := by
  rw [accepted_iff hs, canonical_iff hs]
  exact ⟨fun h hloose => (h.mp hloose).2, fun h => ⟨fun hloose => ⟨hloose, h hloose⟩, fun h => h.1⟩⟩

/-! ## An offer without a maker -/

namespace Nameless

def textAt (ids : List Field) (i : ℕ) : String :=
  match ids[i]? with
  | some (some (.str s)) => s
  | _ => ""

/-- A stable sort that takes what is no string for the empty one. -/
def order : IdOrder where
  order := fun ids => some ((List.range ids.length).insertionSort
    (fun i j => Json.utf16 (textAt ids i) ≤ Json.utf16 (textAt ids j)))
  perm := fun ids places h => Option.some.inj h ▸ List.perm_insertionSort _ _
  strings := by
    intro ids
    refine ⟨_, rfl, ?_⟩
    have horders : StableSort.Orders (fun i j : ℕ =>
        Json.utf16 (textAt (ids.map (fun s => some (.str s))) i)
          ≤ Json.utf16 (textAt (ids.map (fun s => some (.str s))) j))
        (List.range (ids.map (fun s => (some (.str s) : Field))).length) :=
      ⟨fun _ _ _ _ => le_total _ _, fun _ _ _ _ _ _ => le_trans⟩
    refine horders.pairwise_insertionSort.filterMap _ fun i j hij s hs t ht => ?_
    have htext : ∀ i s, ids[i]? = some s → textAt (ids.map (fun s => some (.str s))) i = s := by
      intro i s hs
      unfold textAt
      rw [List.getElem?_map, hs]
      rfl
    rw [htext i s hs, htext j t ht] at hij
    exact hij

def amountOf (chain : String) : Json := .obj [("chain", .str chain), ("amount", .str "1")]

def offer : Json :=
  .obj [("id", .str "a"), ("give", amountOf "bitcoin"), ("want", amountOf "litecoin"),
    ("minFill", .str "1"), ("remaining", .str "-5"), ("postedAt", .nat 1), ("expiresAt", .nat 2)]

def state : Json := .obj [("offers", .arr [offer]), ("matches", .arr [])]

theorem wf : state.Wf := by
  simp [state, offer, amountOf, Json.Wf, Json.WfItems, Json.WfFields, Json.nat]

end Nameless

open Nameless in
/-- The theorem at a state whose offer has no maker. -/
theorem accepted_iff_canonical_nameless : (deserializeView order state).isSome ∧
    (((deserializeView order state).isSome ↔ Canonical order state) ↔
      (LooseState order protoOnly state → ItemsTyped state)) :=
  ⟨by decide +kernel, accepted_iff_canonical order state wf⟩

open Nameless in
/-- It is accepted, though no view is encoded so. -/
theorem nameless_accepted : (deserializeView order state).isSome ∧ ¬ Canonical order state := by
  refine ⟨by decide +kernel, fun hcanonical => ?_⟩
  have hoffer := ((canonical_iff wf).mp hcanonical).2.offers [offer] rfl offer List.mem_cons_self
  obtain ⟨fs, -, -, hmembers⟩ := hoffer
  obtain ⟨x, hx, -⟩ := hmembers ("maker", IsString) (by simp [offerTypes])
  exact absurd hx (by simp [offer, Json.get?])

end Untyped

end Gavl
