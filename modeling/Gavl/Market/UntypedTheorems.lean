import Gavl.Det.NumberTheorems
import Gavl.Lib.Decimal
import Gavl.Market.Untyped

/-!
# What `deserializeView` accepts

Any object passes that has no members but the listed ones: they may be missing, and of any type
where they are only copied. So it rejects what is not the encoding of a view exactly if every field
happens to be there with its type.
-/

namespace Gavl

namespace Untyped

open Json (Field ofFields Agree Loose Shaped)

variable {drop : String → Bool} {v w : Json} {f g : Field}
  {fields : List (String × (Field → Option Field))} {l : List (String × Field)}

/-! ## Copies -/

theorem mapM_eq_some {α β : Type} {step : α → Option β} {xs : List α} : ∀ {ys : List β},
    xs.mapM step = some ys ↔ List.Forall₂ (fun x y => step x = some y) xs ys := by
  induction xs with
  | nil =>
    intro ys
    rw [List.forall₂_nil_left_iff]
    exact eq_comm.trans (by simp)
  | cons x xs ih =>
    intro ys
    rw [List.mapM_cons]
    cases hx : step x with
    | none =>
      refine iff_of_false (by simp) fun h => ?_
      obtain ⟨y, ys', hy, -, -⟩ := List.forall₂_cons_left_iff.mp h
      rw [hx] at hy
      exact absurd hy (by simp)
    | some y =>
      rw [List.forall₂_cons_left_iff]
      constructor
      · intro h
        obtain ⟨ys', hys, rfl⟩ : ∃ ys', xs.mapM step = some ys' ∧ y :: ys' = ys := by
          simpa [Option.bind_eq_some_iff] using h
        exact ⟨y, ys', hx, ih.mp hys, rfl⟩
      · rintro ⟨y', ys', hy, hys, rfl⟩
        rw [ih.mpr hys, Option.some.inj (hx.symm.trans hy)]
        rfl

theorem exists_of_forall₂ {α β : Type} {R : α → β → Prop} {xs : List α} {ys : List β}
    (h : List.Forall₂ R xs ys) : ∀ y ∈ ys, ∃ x ∈ xs, R x y := by
  induction h with
  | nil => simp
  | @cons x y xs ys hxy _ ih =>
    rw [List.forall_mem_cons]
    refine ⟨⟨x, List.mem_cons_self, hxy⟩, fun y' hy' => ?_⟩
    obtain ⟨x', hx', hrel⟩ := ih y' hy'
    exact ⟨x', List.mem_cons_of_mem _ hx', hrel⟩

def WfField (f : Field) : Prop := ∀ v, f = some v → v.Wf

theorem WfField.get? (hv : v.Wf) (k : String) : WfField (v.get? k) := by
  intro x hx
  cases v with
  | obj fs => exact (Json.wf_obj.mp hv).2 _ (Json.mem_of_get? hx)
  | _ => exact absurd hx (by simp [Json.get?])

theorem read_of_ne {k : String} (hv : v ≠ .null) : read v k = some (v.get? k) := by
  cases v with
  | null => exact absurd rfl hv
  | _ => rfl

/-- The members of a copy. -/
def copies (fields : List (String × (Field → Option Field))) (v : Json) : List (String × Field) :=
  fields.map (fun e => (e.1, (e.2 (v.get? e.1)).join))

theorem keys_copies (fields : List (String × (Field → Option Field))) (v : Json) :
    (copies fields v).map Prod.fst = fields.map Prod.fst := by
  unfold copies
  rw [List.map_map]
  rfl

theorem copies_append (fields fields' : List (String × (Field → Option Field))) (v : Json) :
    copies (fields ++ fields') v = copies fields v ++ copies fields' v := List.map_append

theorem copyFields_of_ne (hv : v ≠ .null) : copyFields fields v =
    if fields.all (fun e => (e.2 (v.get? e.1)).isSome) then some (copies fields v) else none := by
  unfold copyFields copies
  induction fields with
  | nil => rfl
  | cons e fields ih =>
    rw [List.mapM_cons, ih, read_of_ne hv, List.all_cons, List.map_cons]
    cases he : e.2 (v.get? e.1) with
    | none => simp [he]
    | some g =>
      cases hrest : fields.all (fun e => (e.2 (v.get? e.1)).isSome) with
      | false => simp
      | true => simp [he]

/-- A copy takes over each member of the list. -/
theorem copyFields_iff (hne : fields ≠ []) : copyFields fields v = some l ↔
    v ≠ .null ∧ (∀ e ∈ fields, ∃ g, e.2 (v.get? e.1) = some g) ∧ l = copies fields v := by
  by_cases hv : v = .null
  · refine iff_of_false (fun h => ?_) fun h => h.1 hv
    obtain ⟨e, rest, rfl⟩ := List.exists_cons_of_ne_nil hne
    unfold copyFields at h
    rw [List.mapM_cons, hv] at h
    simp [read] at h
  · rw [copyFields_of_ne hv, and_iff_right hv]
    have hall : fields.all (fun e => (e.2 (v.get? e.1)).isSome) = true ↔
        ∀ e ∈ fields, ∃ g, e.2 (v.get? e.1) = some g := by
      simp only [List.all_eq_true, Option.isSome_iff_exists]
    rw [← hall]
    split_ifs with h
    · rw [Option.some.injEq, and_iff_right h, eq_comm]
    · exact iff_of_false (by simp) fun hno => h hno.1

/-- The copy of a field agrees with it. -/
def Taken (drop : String → Bool) (copy : Field → Option Field) (f : Field) : Prop :=
  ∃ g, copy f = some g ∧ Option.Rel (Agree drop) g f

/-- A copy agrees with the value where the value is an object and the copies of its members
agree. -/
theorem copy_iff (hne : fields ≠ []) (hnodup : (fields.map Prod.fst).Nodup)
    (hkept : ∀ k ∈ fields.map Prod.fst, drop k = false) (hv : v.Wf) :
    (∃ l, copyFields fields v = some l ∧ Agree drop (ofFields l) v) ↔
      Loose drop (fields.map (fun e => (e.1, Taken drop e.2))) v := by
  have hkeys : (fields.map (fun e => (e.1, Taken drop e.2))).map Prod.fst = fields.map Prod.fst := by
    rw [List.map_map]
    rfl
  have hagree := Json.agree_ofFields (l := copies fields v)
    (by rw [keys_copies]; exact hnodup) (by rw [keys_copies]; exact hkept) hv
  rw [keys_copies] at hagree
  unfold Loose
  rw [hkeys, List.forall_mem_map]
  constructor
  · rintro ⟨l, hcopy, hl⟩
    obtain ⟨-, hsome, rfl⟩ := (copyFields_iff hne).mp hcopy
    obtain ⟨fs, rfl, hfs, hmembers⟩ := hagree.mp hl
    refine ⟨fs, rfl, hfs, fun e he => ?_⟩
    obtain ⟨g, hg⟩ := hsome e he
    have hrel := hmembers _ (List.mem_map_of_mem he)
    simp only [hg, Option.join_some] at hrel
    exact ⟨g, hg, hrel⟩
  · rintro ⟨fs, rfl, hfs, htaken⟩
    refine ⟨_, (copyFields_iff hne).mpr ⟨by simp, fun e he => ?_, rfl⟩, ?_⟩
    · obtain ⟨g, hg, -⟩ := htaken e he
      exact ⟨g, hg⟩
    · refine hagree.mpr ⟨fs, rfl, hfs, ?_⟩
      unfold copies
      rw [List.forall_mem_map]
      intro e he
      obtain ⟨g, hg, hrel⟩ := htaken e he
      simp only [hg, Option.join_some]
      exact hrel

/-- What is copied once more stays. -/
def Stable (copy : Field → Option Field) : Prop := ∀ f g, copy f = some g → copy g = some g

theorem stable_some : Stable some := fun _ _ _ => rfl

theorem copyFields_ofFields (hne : fields ≠ []) (hnodup : (fields.map Prod.fst).Nodup)
    (hstable : ∀ e ∈ fields, Stable e.2) (hcopy : copyFields fields v = some l) :
    copyFields fields (ofFields l) = some l := by
  obtain ⟨-, hsome, rfl⟩ := (copyFields_iff hne).mp hcopy
  have hback : ∀ e ∈ fields, ∃ g, e.2 (v.get? e.1) = some g ∧
      (ofFields (copies fields v)).get? e.1 = g ∧ e.2 g = some g := by
    intro e he
    obtain ⟨g, hg⟩ := hsome e he
    have hmem : (e.1, g) ∈ copies fields v :=
      List.mem_map.mpr ⟨e, he, by rw [hg]; rfl⟩
    exact ⟨g, hg, Json.get?_ofFields (by rw [keys_copies]; exact hnodup) hmem,
      hstable e he _ _ hg⟩
  refine (copyFields_iff hne).mpr ⟨by simp [ofFields], fun e he => ?_, ?_⟩
  · obtain ⟨g, -, hget, hg⟩ := hback e he
    exact ⟨g, by rw [hget]; exact hg⟩
  · refine List.map_congr_left fun e he => ?_
    obtain ⟨g, hg, hget, hg'⟩ := hback e he
    rw [hget, hg, hg']

theorem stable_copyTruthy (hne : fields ≠ []) (hnodup : (fields.map Prod.fst).Nodup)
    (hstable : ∀ e ∈ fields, Stable e.2) : Stable (copyTruthy fields) := by
  intro f g h
  unfold copyTruthy at h
  split_ifs at h with htrue
  · obtain ⟨l, hl, rfl⟩ := Option.map_eq_some_iff.mp h
    obtain ⟨v, -, hcopy⟩ := Option.bind_eq_some_iff.mp hl
    unfold copyTruthy
    rw [if_pos (by rfl), Option.bind_some, copyFields_ofFields hne hnodup hstable hcopy]
    rfl
  · obtain rfl := Option.some.inj h
    unfold copyTruthy
    rw [if_neg htrue]

theorem stable_copyUtxos : Stable copyUtxos := by
  intro f g h
  unfold copyUtxos at h
  split at h
  · rename_i utxos
    obtain ⟨copied, hcopied, rfl⟩ : ∃ copied,
        utxos.mapM (fun u => (copyFields utxoFields u).map ofFields) = some copied ∧
          some (Json.arr copied) = g := by
      simpa [Option.bind_eq_some_iff] using h
    have hagain : copied.mapM (fun u => (copyFields utxoFields u).map ofFields) = some copied := by
      rw [mapM_eq_some] at hcopied ⊢
      refine List.forall₂_same.mpr fun u hu => ?_
      obtain ⟨x, -, hux⟩ := exists_of_forall₂ hcopied u hu
      obtain ⟨l, hl, rfl⟩ := Option.map_eq_some_iff.mp hux
      rw [copyFields_ofFields (by simp [utxoFields]) (by decide)
        (by simp [utxoFields, stable_some]) hl]
      rfl
    unfold copyUtxos
    simp [hagain]
  · exact absurd h (by simp)

/-! ## Amounts -/

theorem bigIntOf_decimal (n : ℤ) : bigIntOf (decimal n) = some n := by
  have hdigits : ∀ m, ∀ c ∈ Nat.toDigits 10 m, c.isDigit = true := fun m =>
    List.all_eq_true.mp (Decimal.all_isDigit_toDigits m)
  unfold decimal
  show bigIntOfText (String.ofList (JsNum.ofInt n).text).toList = some n
  rw [String.toList_ofList]
  by_cases hn : 0 ≤ n
  · have htext : (JsNum.ofInt n).text = Nat.toDigits 10 n.toNat := by
      unfold JsNum.ofInt
      rw [if_pos hn]
      rfl
    have hhead : ∀ c rest, Nat.toDigits 10 n.toNat = c :: rest → c.isDigit = true := fun c rest heq =>
      hdigits n.toNat c (by rw [heq]; exact List.mem_cons_self)
    have hsecond : ∀ c d rest, Nat.toDigits 10 n.toNat = c :: d :: rest → d.isDigit = true :=
      fun c d rest heq => hdigits n.toNat d (by rw [heq]; simp)
    unfold bigIntOfText
    rw [htext, trim_eq fun c hc => isSpace_of_isDigit (hdigits _ c hc)]
    simp only
    split
    · exact absurd ‹_› Nat.toDigits_ne_nil
    iterate 6 exact absurd (hsecond _ _ _ ‹_›) (by decide)
    · exact absurd (hhead _ _ ‹_›) (by decide)
    · exact absurd (hhead _ _ ‹_›) (by decide)
    · rw [if_pos ⟨Nat.toDigits_ne_nil, Decimal.all_isDigit_toDigits _⟩,
        Nat.ofDigitChars_ten_toDigits, Int.toNat_of_nonneg hn]
  · have htext : (JsNum.ofInt n).text = '-' :: Nat.toDigits 10 (-n).toNat := by
      unfold JsNum.ofInt
      rw [if_neg hn]
    unfold bigIntOfText
    rw [htext, trim_eq fun c hc => by
      obtain rfl | hc := List.mem_cons.mp hc
      · decide
      · exact isSpace_of_isDigit (hdigits _ c hc)]
    simp only
    rw [if_pos ⟨Nat.toDigits_ne_nil, Decimal.all_isDigit_toDigits _⟩,
      Nat.ofDigitChars_ten_toDigits, Option.map_some, Int.toNat_of_nonneg (by omega), neg_neg]

/-! ## What passes for a field -/

def Anything (_ : Field) : Prop := True

/-- The canonical decimal of an integer, of either sign. -/
def IsInteger (f : Field) : Prop := ∃ n, f = some (decimal n)

def legShape : List (String × (Field → Prop)) := [("chain", Anything), ("amount", IsInteger)]

def LooseLeg (drop : String → Bool) (f : Field) : Prop := ∃ v, f = some v ∧ Loose drop legShape v

def utxoShape : List (String × (Field → Prop)) :=
  [("txid", Anything), ("vout", Anything), ("value", Anything)]

def LooseUtxos (drop : String → Bool) (f : Field) : Prop :=
  ∃ utxos, f = some (.arr utxos) ∧ ∀ u ∈ utxos, Loose drop utxoShape u

/-- Anything that counts as false, or an object. -/
def FalsyOr (drop : String → Bool) (shape : List (String × (Field → Prop))) (f : Field) : Prop :=
  truthy f = false ∨ ∃ v, f = some v ∧ Loose drop shape v

def proofShape (drop : String → Bool) : List (String × (Field → Prop)) :=
  [("chain", Anything), ("net", Anything), ("pubkey", Anything), ("utxos", LooseUtxos drop),
    ("sig", Anything)]

def lockShape : List (String × (Field → Prop)) :=
  [("txid", Anything), ("vout", Anything), ("at", Anything)]

def cancelledShape : List (String × (Field → Prop)) := [("at", Anything), ("reason", Anything)]

def offerShape (drop : String → Bool) : List (String × (Field → Prop)) :=
  [("id", Anything), ("maker", Anything), ("give", LooseLeg drop), ("want", LooseLeg drop),
    ("minFill", IsInteger), ("remaining", IsInteger), ("postedAt", Anything),
    ("expiresAt", Anything)]

def matchShape (drop : String → Bool) : List (String × (Field → Prop)) :=
  [("id", Anything), ("offerId", Anything), ("maker", Anything), ("taker", Anything),
    ("takeSeq", Anything), ("makerChain", Anything), ("makerRefundBlocks", Anything),
    ("takerChain", Anything), ("takerRefundBlocks", Anything), ("hash", Anything),
    ("takerKey", Anything), ("makerKey", Anything), ("status", Anything), ("takenAt", Anything),
    ("proofDeadline", Anything), ("pruneAt", Anything),
    ("makerProof", FalsyOr drop (proofShape drop)), ("takerProof", FalsyOr drop (proofShape drop)),
    ("makerLock", FalsyOr drop lockShape), ("takerLock", FalsyOr drop lockShape),
    ("cancelled", FalsyOr drop cancelledShape), ("makerAmount", IsInteger),
    ("takerAmount", IsInteger)]

/-! ## Copies that pass -/

/-- What `drop` drops is `__proto__` at most. -/
def Spares (drop : String → Bool) : Prop := ∀ k, k ≠ "__proto__" → drop k = false

/-- What a copy takes. -/
def Takes (drop : String → Bool) (copy : Field → Option Field) (p : Field → Prop) : Prop :=
  ∀ f, WfField f → (Taken drop copy f ↔ p f)

/-- What the copies of a record take. -/
def Fits (drop : String → Bool) (fields : List (String × (Field → Option Field)))
    (shape : List (String × (Field → Prop))) : Prop :=
  List.Forall₂ (fun e e' => e.1 = e'.1 ∧ Takes drop e.2 e'.2) fields shape

theorem takes_some : Takes drop some Anything := fun f _ =>
  iff_of_true ⟨f, rfl, Agree.refl_field f⟩ trivial

/-- Where every copy takes what the record allows, the copy of an object takes what the record
allows. -/
theorem copy_iff_loose (hdrop : Spares drop) {shape : List (String × (Field → Prop))}
    (hfits : Fits drop fields shape) (hne : fields ≠ []) (hnodup : (fields.map Prod.fst).Nodup)
    (hproto : "__proto__" ∉ fields.map Prod.fst) (hv : v.Wf) :
    (∃ l, copyFields fields v = some l ∧ Agree drop (ofFields l) v) ↔ Loose drop shape v := by
  rw [copy_iff hne hnodup (fun k hk => hdrop k fun heq => hproto (heq ▸ hk)) hv]
  have hkeys : (fields.map (fun e => (e.1, Taken drop e.2))).map Prod.fst = shape.map Prod.fst := by
    rw [List.map_map]
    clear hne hnodup hproto
    induction hfits with
    | nil => rfl
    | cons hhead _ ih => rw [List.map_cons, List.map_cons, ih, ← hhead.1]; rfl
  have hmembers : (∀ e ∈ fields.map (fun e => (e.1, Taken drop e.2)), e.2 (v.get? e.1)) ↔
      ∀ e ∈ shape, e.2 (v.get? e.1) := by
    rw [List.forall_mem_map]
    clear hne hnodup hproto hkeys
    induction hfits with
    | nil => simp
    | cons hhead _ ih =>
      rw [List.forall_mem_cons, List.forall_mem_cons, ih, ← hhead.1]
      exact and_congr_left' (hhead.2 _ (WfField.get? hv _))
  unfold Loose
  rw [hkeys, hmembers]

theorem takes_copyTruthy (hdrop : Spares drop) {shape : List (String × (Field → Prop))}
    (hfits : Fits drop fields shape) (hne : fields ≠ []) (hnodup : (fields.map Prod.fst).Nodup)
    (hproto : "__proto__" ∉ fields.map Prod.fst) :
    Takes drop (copyTruthy fields) (FalsyOr drop shape) := by
  intro f hf
  unfold Taken copyTruthy FalsyOr
  cases htrue : truthy f with
  | false =>
    simp only [Bool.false_eq_true, if_false]
    exact iff_of_true ⟨f, rfl, Agree.refl_field f⟩ (Or.inl trivial)
  | true =>
    simp only [if_true, Bool.true_eq_false, false_or]
    cases f with
    | none => exact absurd htrue (by simp [truthy])
    | some v =>
      simp only [Option.bind_some, Option.some.injEq, exists_eq_left']
      rw [← copy_iff_loose hdrop hfits hne hnodup hproto (hf v rfl)]
      constructor
      · rintro ⟨g, hg, hrel⟩
        obtain ⟨l, hl, rfl⟩ := Option.map_eq_some_iff.mp hg
        cases hrel with
        | some hagree => exact ⟨l, hl, hagree⟩
      · rintro ⟨l, hl, hagree⟩
        exact ⟨some (ofFields l), by rw [hl]; rfl, .some hagree⟩

/-- A list is copied so that each item passes exactly if each item passes. -/
theorem mapM_passes {α β : Type} (step : α → Option β) (R : β → α → Prop) (xs : List α) :
    (∃ ys, xs.mapM step = some ys ∧ List.Forall₂ R ys xs) ↔
      ∀ x ∈ xs, ∃ y, step x = some y ∧ R y x := by
  induction xs with
  | nil => simp
  | cons x xs ih =>
    rw [List.forall_mem_cons, ← ih]
    constructor
    · rintro ⟨ys, hys, hall⟩
      obtain ⟨y, ys', hy, hys', rfl⟩ := List.forall₂_cons_left_iff.mp (mapM_eq_some.mp hys)
      rw [List.forall₂_cons] at hall
      exact ⟨⟨y, hy, hall.1⟩, ys', mapM_eq_some.mpr hys', hall.2⟩
    · rintro ⟨⟨y, hy, hR⟩, ys, hys, hall⟩
      exact ⟨y :: ys, mapM_eq_some.mpr (.cons hy (mapM_eq_some.mp hys)), .cons hR hall⟩

theorem fits_utxo : Fits drop utxoFields utxoShape := by
  simp [Fits, utxoFields, utxoShape, takes_some]

theorem takes_utxos (hdrop : Spares drop) : Takes drop copyUtxos (LooseUtxos drop) := by
  intro f hf
  unfold Taken LooseUtxos
  by_cases harr : ∃ utxos, f = some (.arr utxos)
  · obtain ⟨utxos, rfl⟩ := harr
    have hwf := Json.wf_arr.mp (hf _ rfl)
    have hone : ∀ u ∈ utxos, (∃ x, (copyFields utxoFields u).map ofFields = some x ∧ Agree drop x u) ↔
        Loose drop utxoShape u := by
      intro u hu
      rw [← copy_iff_loose hdrop fits_utxo (by simp [utxoFields]) (by decide) (by decide) (hwf u hu)]
      simp
    have hitems := mapM_passes (fun u => (copyFields utxoFields u).map ofFields) (Agree drop) utxos
    rw [forall₂_congr hone] at hitems
    simp only [Option.some.injEq, Json.arr.injEq, exists_eq_left', ← hitems]
    have hcopies : copyUtxos (some (.arr utxos)) = (utxos.mapM (fun u =>
        (copyFields utxoFields u).map ofFields)).map (fun copied => some (.arr copied)) := rfl
    rw [hcopies]
    constructor
    · rintro ⟨g, hg, hrel⟩
      obtain ⟨copied, hcopied, rfl⟩ := Option.map_eq_some_iff.mp hg
      cases hrel with
      | some hagree => exact ⟨copied, hcopied, Json.agreeItems_iff.mp hagree⟩
    · rintro ⟨copied, hcopied, hall⟩
      exact ⟨some (.arr copied), by rw [hcopied]; rfl, .some (Json.agreeItems_iff.mpr hall)⟩
  · refine iff_of_false ?_ fun ⟨utxos, heq, _⟩ => harr ⟨utxos, heq⟩
    rintro ⟨g, hg, -⟩
    unfold copyUtxos at hg
    split at hg
    · exact harr ⟨_, rfl⟩
    · exact absurd hg (by simp)

/-! ## Items -/

def copyBig (f : Field) : Option Field := (bigInt f).map (fun n => some (decimal n))

def copyLeg (f : Field) : Option Field := (leg f).map (fun l => some (canonLeg l))

theorem takes_big : Takes drop copyBig IsInteger := by
  intro f _
  unfold Taken copyBig IsInteger
  constructor
  · rintro ⟨g, hg, hrel⟩
    obtain ⟨n, -, rfl⟩ := Option.map_eq_some_iff.mp hg
    cases hrel with
    | @some _ x hagree =>
      refine ⟨n, ?_⟩
      unfold decimal at hagree ⊢
      cases x with
      | str t => rw [show _ = t from hagree]
      | _ => simp [Agree] at hagree
  · rintro ⟨n, rfl⟩
    refine ⟨some (decimal n), ?_, Agree.refl_field _⟩
    unfold bigInt
    rw [Option.bind_some, bigIntOf_decimal]
    rfl

def legFields : List (String × (Field → Option Field)) := [("chain", some), ("amount", copyBig)]

theorem fits_leg : Fits drop legFields legShape := by
  simp [Fits, legFields, legShape, takes_some, takes_big]

/-- A leg is read and encoded again field by field. -/
theorem leg_eq (f : Field) : copyLeg f = (f.bind (copyFields legFields)).map (fun l =>
    some (ofFields l)) := by
  unfold copyLeg
  cases f with
  | none => rfl
  | some v =>
    rw [Option.bind_some]
    by_cases hv : v = .null
    · subst hv
      rfl
    · rw [copyFields_of_ne hv]
      unfold leg
      cases hamount : bigInt (v.get? "amount") <;>
        simp [read_of_ne hv, legFields, copyBig, copies, canonLeg, hamount]

theorem takes_leg (hdrop : Spares drop) : Takes drop copyLeg (LooseLeg drop) := by
  intro f hf
  unfold Taken LooseLeg
  rw [leg_eq]
  cases f with
  | none => simp
  | some v =>
    simp only [Option.bind_some, Option.some.injEq, exists_eq_left']
    rw [← copy_iff_loose hdrop fits_leg (by simp [legFields]) (by decide) (by decide) (hf v rfl)]
    constructor
    · rintro ⟨g, hg, hrel⟩
      obtain ⟨l, hl, rfl⟩ := Option.map_eq_some_iff.mp hg
      cases hrel with
      | some hagree => exact ⟨l, hl, hagree⟩
    · rintro ⟨l, hl, hagree⟩
      exact ⟨some (ofFields l), by rw [hl]; rfl, .some hagree⟩

def offerFields : List (String × (Field → Option Field)) :=
  [("id", some), ("maker", some), ("give", copyLeg), ("want", copyLeg), ("minFill", copyBig),
    ("remaining", copyBig), ("postedAt", some), ("expiresAt", some)]

/-- An offer is read and encoded again field by field. -/
theorem canonOffer_offerOf (o : Json) :
    (offerOf o).map canonOffer = (copyFields offerFields o).map ofFields := by
  by_cases ho : o = .null
  · subst ho
    rfl
  · rw [copyFields_of_ne ho]
    unfold offerOf
    simp only [read_of_ne ho, Option.bind_eq_bind, Option.bind_some, Option.pure_def]
    cases hgive : leg (o.get? "give") with
    | none => simp [offerFields, copyLeg, hgive]
    | some give =>
      cases hwant : leg (o.get? "want") with
      | none => simp [offerFields, copyLeg, hwant]
      | some want =>
        cases hmin : bigInt (o.get? "minFill") with
        | none => simp [offerFields, copyBig, hmin]
        | some minFill =>
          cases hrem : bigInt (o.get? "remaining") with
          | none => simp [offerFields, copyBig, hrem]
          | some remaining =>
            simp [offerFields, copyBig, copyLeg, copies, canonOffer, hgive, hwant, hmin, hrem]

def amountFields : List (String × (Field → Option Field)) :=
  [("makerAmount", copyBig), ("takerAmount", copyBig)]

theorem stable_matchFields : ∀ e ∈ matchFields, Stable e.2 := by
  have hproof : Stable copyProof := stable_copyTruthy (by simp [proofFields]) (by decide)
    (by simp [proofFields, stable_some, stable_copyUtxos])
  have hlock : Stable copyLock := stable_copyTruthy (by simp [lockFields]) (by decide)
    (by simp [lockFields, stable_some])
  have hcancelled : Stable (copyTruthy cancelledFields) := stable_copyTruthy
    (by simp [cancelledFields]) (by decide) (by simp [cancelledFields, stable_some])
  simp [matchFields, stable_some, hproof, hlock, hcancelled]

theorem nodup_matchFields : (matchFields.map Prod.fst).Nodup := by decide

/-- So is a match, whose body is copied twice. -/
theorem canonMatch_matchOf (m : Json) : (matchOf m).bind canonMatch
    = (copyFields (matchFields ++ amountFields) m).map ofFields := by
  by_cases hm : m = .null
  · subst hm
    rfl
  · rw [copyFields_of_ne hm, List.all_append]
    unfold matchOf matchBody
    simp only [read_of_ne hm, Option.bind_eq_bind, Option.bind_some, Option.pure_def]
    cases hbody : copyFields matchFields m with
    | none =>
      rw [copyFields_of_ne hm] at hbody
      split_ifs at hbody with hall
      simp [hall]
    | some body =>
      have hagain : matchBody (ofFields body) = some body :=
        copyFields_ofFields (by simp [matchFields]) nodup_matchFields stable_matchFields hbody
      rw [copyFields_of_ne hm] at hbody
      split_ifs at hbody with hall
      obtain rfl := Option.some.inj hbody
      cases hmaker : bigInt (m.get? "makerAmount") with
      | none => simp [amountFields, copyBig, hmaker]
      | some makerAmount =>
        cases htaker : bigInt (m.get? "takerAmount") with
        | none => simp [amountFields, copyBig, htaker]
        | some takerAmount =>
          have hamounts : copies amountFields m = [("makerAmount", some (decimal makerAmount)),
              ("takerAmount", some (decimal takerAmount))] := by
            simp [copies, amountFields, copyBig, hmaker, htaker]
          have hsome : amountFields.all (fun e => (e.2 (m.get? e.1)).isSome) = true := by
            simp [amountFields, copyBig, hmaker, htaker]
          simp [canonMatch, hagain, hall, hsome, copies_append, hamounts]

theorem takes_proof (hdrop : Spares drop) :
    Takes drop copyProof (FalsyOr drop (proofShape drop)) :=
  takes_copyTruthy hdrop (by simp [Fits, proofFields, proofShape, takes_some, takes_utxos hdrop])
    (by simp [proofFields]) (by decide) (by decide)

theorem takes_lock (hdrop : Spares drop) : Takes drop copyLock (FalsyOr drop lockShape) :=
  takes_copyTruthy hdrop (by simp [Fits, lockFields, lockShape, takes_some])
    (by simp [lockFields]) (by decide) (by decide)

theorem takes_cancelled (hdrop : Spares drop) :
    Takes drop (copyTruthy cancelledFields) (FalsyOr drop cancelledShape) :=
  takes_copyTruthy hdrop (by simp [Fits, cancelledFields, cancelledShape, takes_some])
    (by simp [cancelledFields]) (by decide) (by decide)

theorem fits_offer (hdrop : Spares drop) : Fits drop offerFields (offerShape drop) := by
  simp [Fits, offerFields, offerShape, takes_some, takes_leg hdrop, takes_big]

theorem fits_match (hdrop : Spares drop) :
    Fits drop (matchFields ++ amountFields) (matchShape drop) := by
  simp [Fits, matchFields, amountFields, matchShape, takes_some, takes_proof hdrop,
    takes_lock hdrop, takes_cancelled hdrop, takes_big]

/-- What passes for an offer. -/
theorem offer_passes (hdrop : Spares drop) {o : Json} (ho : o.Wf) :
    (∃ x, (offerOf o).map canonOffer = some x ∧ Agree drop x o) ↔
      Loose drop (offerShape drop) o := by
  rw [canonOffer_offerOf, ← copy_iff_loose hdrop (fits_offer hdrop) (by simp [offerFields])
    (by decide) (by decide) ho]
  simp

/-- What passes for a match. -/
theorem match_passes (hdrop : Spares drop) {m : Json} (hm : m.Wf) :
    (∃ x, (matchOf m).bind canonMatch = some x ∧ Agree drop x m) ↔
      Loose drop (matchShape drop) m := by
  rw [canonMatch_matchOf, ← copy_iff_loose hdrop (fits_match hdrop) (by simp [matchFields])
    (by decide) (by decide) hm]
  simp

/-! ## Agreeing values pass alike -/

/-- What agrees with a field that passes passes. -/
def Closed (drop : String → Bool) (p : Field → Prop) : Prop :=
  ∀ f g, WfField f → WfField g → Option.Rel (Agree drop) f g → p f → p g

theorem closed_anything : Closed drop Anything := fun _ _ _ _ _ _ => trivial

theorem closed_integer : Closed drop IsInteger := by
  rintro f g _ _ hrel ⟨n, rfl⟩
  cases hrel with
  | @some _ y hagree =>
    refine ⟨n, ?_⟩
    unfold decimal at hagree ⊢
    cases y with
    | str t => rw [show _ = t from hagree]
    | _ => exact absurd hagree (by simp [Agree])

theorem loose_closed (hdrop : Spares drop) {shape : List (String × (Field → Prop))}
    (hproto : "__proto__" ∉ shape.map Prod.fst) (hshape : ∀ e ∈ shape, Closed drop e.2)
    (h : Loose drop shape v) (hagree : Agree drop v w) (hv : v.Wf) (hw : w.Wf) :
    Loose drop shape w :=
  h.of_agree hagree hv hw
    (fun _ he => hdrop _ fun heq => hproto (heq ▸ List.mem_map_of_mem he))
    fun e he hrel => hshape e he _ _ (.get? hv _) (.get? hw _) hrel

theorem closed_leg (hdrop : Spares drop) : Closed drop (LooseLeg drop) := by
  rintro f g hf hg hrel ⟨v, rfl, hv⟩
  cases hrel with
  | @some _ w hagree =>
    exact ⟨w, rfl, loose_closed hdrop (by decide)
      (by simp [legShape, closed_anything, closed_integer]) hv hagree (hf v rfl) (hg w rfl)⟩

theorem closed_utxos (hdrop : Spares drop) : Closed drop (LooseUtxos drop) := by
  rintro f g hf hg hrel ⟨utxos, rfl, hall⟩
  cases hrel with
  | @some _ w hagree =>
    cases w with
    | arr utxos' =>
      refine ⟨utxos', rfl, fun u hu => ?_⟩
      obtain ⟨x, hx, hxu⟩ := exists_of_forall₂ (Json.agreeItems_iff.mp hagree) u hu
      exact loose_closed hdrop (by decide) (by simp [utxoShape, closed_anything]) (hall x hx) hxu
        (Json.wf_arr.mp (hf _ rfl) x hx) (Json.wf_arr.mp (hg _ rfl) u hu)
    | _ => exact absurd hagree (by simp [Agree])

theorem truthy_eq_of_rel (h : Option.Rel (Agree drop) f g) : truthy f = truthy g := by
  cases h with
  | none => rfl
  | @some v w hagree =>
    cases v <;> cases w <;> simp_all [Agree, truthy]

theorem closed_falsyOr (hdrop : Spares drop) {shape : List (String × (Field → Prop))}
    (hproto : "__proto__" ∉ shape.map Prod.fst) (hshape : ∀ e ∈ shape, Closed drop e.2) :
    Closed drop (FalsyOr drop shape) := by
  rintro f g hf hg hrel (hfalse | ⟨v, rfl, hv⟩)
  · exact Or.inl ((truthy_eq_of_rel hrel).symm.trans hfalse)
  · cases hrel with
    | @some _ w hagree =>
      exact Or.inr ⟨w, rfl, loose_closed hdrop hproto hshape hv hagree (hf v rfl) (hg w rfl)⟩

theorem closed_offer (hdrop : Spares drop) : ∀ e ∈ offerShape drop, Closed drop e.2 := by
  simp [offerShape, closed_anything, closed_integer, closed_leg hdrop]

theorem closed_match (hdrop : Spares drop) : ∀ e ∈ matchShape drop, Closed drop e.2 := by
  have hproof : Closed drop (FalsyOr drop (proofShape drop)) := closed_falsyOr hdrop
    (by simp [proofShape]) (by simp [proofShape, closed_anything, closed_utxos hdrop])
  have hlock : Closed drop (FalsyOr drop lockShape) := closed_falsyOr hdrop (by decide)
    (by simp [lockShape, closed_anything])
  have hcancelled : Closed drop (FalsyOr drop cancelledShape) := closed_falsyOr hdrop (by decide)
    (by simp [cancelledShape, closed_anything])
  simp [matchShape, closed_anything, closed_integer, hproof, hlock, hcancelled]

/-! ## Copies are well formed, and pass -/

/-- The copy of a parsed value has no key twice. -/
def Sound (copy : Field → Option Field) : Prop := ∀ f g, WfField f → copy f = some g → WfField g

theorem sound_some : Sound some := fun _ _ hf h => Option.some.inj h ▸ hf

theorem wf_copyFields (hne : fields ≠ []) (hnodup : (fields.map Prod.fst).Nodup)
    (hsound : ∀ e ∈ fields, Sound e.2) (hv : v.Wf) (hcopy : copyFields fields v = some l) :
    (ofFields l).Wf := by
  obtain ⟨-, hsome, rfl⟩ := (copyFields_iff hne).mp hcopy
  refine Json.wf_ofFields (by rw [keys_copies]; exact hnodup) fun e' he' x hx => ?_
  obtain ⟨e, he, rfl⟩ := List.mem_map.mp he'
  obtain ⟨g, hg⟩ := hsome e he
  simp only [hg, Option.join_some] at hx
  exact hsound e he _ _ (.get? hv e.1) hg x hx

theorem sound_copyTruthy (hne : fields ≠ []) (hnodup : (fields.map Prod.fst).Nodup)
    (hsound : ∀ e ∈ fields, Sound e.2) : Sound (copyTruthy fields) := by
  intro f g hf h
  unfold copyTruthy at h
  split_ifs at h
  · obtain ⟨l, hl, rfl⟩ := Option.map_eq_some_iff.mp h
    obtain ⟨v, rfl, hcopy⟩ := Option.bind_eq_some_iff.mp hl
    intro x hx
    rw [← Option.some.inj hx]
    exact wf_copyFields hne hnodup hsound (hf v rfl) hcopy
  · obtain rfl := Option.some.inj h
    exact hf

theorem sound_copyUtxos : Sound copyUtxos := by
  intro f g hf h
  unfold copyUtxos at h
  split at h
  · rename_i utxos
    obtain ⟨copied, hcopied, rfl⟩ := Option.map_eq_some_iff.mp h
    intro x hx
    rw [← Option.some.inj hx, Json.wf_arr]
    intro u hu
    obtain ⟨y, hy, hyu⟩ := exists_of_forall₂ (mapM_eq_some.mp hcopied) u hu
    obtain ⟨l, hl, rfl⟩ := Option.map_eq_some_iff.mp hyu
    exact wf_copyFields (by simp [utxoFields]) (by decide) (by simp [utxoFields, sound_some])
      (Json.wf_arr.mp (hf _ rfl) y hy) hl
  · exact absurd h (by simp)

theorem sound_copyBig : Sound copyBig := by
  intro f g _ h
  obtain ⟨n, -, rfl⟩ := Option.map_eq_some_iff.mp h
  intro x hx
  rw [← Option.some.inj hx]
  trivial

theorem stable_copyBig : Stable copyBig := by
  intro f g h
  obtain ⟨n, -, rfl⟩ := Option.map_eq_some_iff.mp h
  unfold copyBig bigInt
  rw [Option.bind_some, bigIntOf_decimal]
  rfl

theorem sound_copyLeg : Sound copyLeg := by
  intro f g hf h
  rw [leg_eq] at h
  obtain ⟨l, hl, rfl⟩ := Option.map_eq_some_iff.mp h
  obtain ⟨v, rfl, hcopy⟩ := Option.bind_eq_some_iff.mp hl
  intro x hx
  rw [← Option.some.inj hx]
  exact wf_copyFields (by simp [legFields]) (by decide)
    (by simp [legFields, sound_some, sound_copyBig]) (hf v rfl) hcopy

theorem stable_copyLeg : Stable copyLeg := by
  intro f g h
  rw [leg_eq] at h
  obtain ⟨l, hl, rfl⟩ := Option.map_eq_some_iff.mp h
  obtain ⟨v, rfl, hcopy⟩ := Option.bind_eq_some_iff.mp hl
  rw [leg_eq, Option.bind_some, copyFields_ofFields (by simp [legFields]) (by decide)
    (by simp [legFields, stable_some, stable_copyBig]) hcopy]
  rfl

/-- The copy of a record passes itself. -/
theorem loose_copy (hdrop : Spares drop) {shape : List (String × (Field → Prop))}
    (hfits : Fits drop fields shape) (hne : fields ≠ []) (hnodup : (fields.map Prod.fst).Nodup)
    (hproto : "__proto__" ∉ fields.map Prod.fst) (hstable : ∀ e ∈ fields, Stable e.2)
    (hsound : ∀ e ∈ fields, Sound e.2) (hv : v.Wf) (hcopy : copyFields fields v = some l) :
    Loose drop shape (ofFields l) ∧ (ofFields l).Wf := by
  have hwf := wf_copyFields hne hnodup hsound hv hcopy
  refine ⟨(copy_iff_loose hdrop hfits hne hnodup hproto hwf).mp ⟨l, ?_, Agree.refl _⟩, hwf⟩
  exact copyFields_ofFields hne hnodup hstable hcopy

theorem offer_copy_passes (hdrop : Spares drop) {o x : Json} (ho : o.Wf)
    (hx : (offerOf o).map canonOffer = some x) : Loose drop (offerShape drop) x ∧ x.Wf := by
  rw [canonOffer_offerOf] at hx
  obtain ⟨l, hl, rfl⟩ := Option.map_eq_some_iff.mp hx
  exact loose_copy hdrop (fits_offer hdrop) (by simp [offerFields]) (by decide) (by decide)
    (by simp [offerFields, stable_some, stable_copyLeg, stable_copyBig])
    (by simp [offerFields, sound_some, sound_copyLeg, sound_copyBig]) ho hl

theorem sound_matchFields : ∀ e ∈ matchFields, Sound e.2 := by
  have hproof : Sound copyProof := sound_copyTruthy (by simp [proofFields]) (by decide)
    (by simp [proofFields, sound_some, sound_copyUtxos])
  have hlock : Sound copyLock := sound_copyTruthy (by simp [lockFields]) (by decide)
    (by simp [lockFields, sound_some])
  have hcancelled : Sound (copyTruthy cancelledFields) := sound_copyTruthy
    (by simp [cancelledFields]) (by decide) (by simp [cancelledFields, sound_some])
  simp [matchFields, sound_some, hproof, hlock, hcancelled]

theorem match_copy_passes (hdrop : Spares drop) {m x : Json} (hm : m.Wf)
    (hx : (matchOf m).bind canonMatch = some x) : Loose drop (matchShape drop) x ∧ x.Wf := by
  rw [canonMatch_matchOf] at hx
  obtain ⟨l, hl, rfl⟩ := Option.map_eq_some_iff.mp hx
  refine loose_copy hdrop (fits_match hdrop) (by simp [matchFields]) (by decide) (by decide) ?_ ?_
    hm hl
  · intro e he
    rcases List.mem_append.mp he with he | he
    · exact stable_matchFields e he
    · simp only [amountFields, List.mem_cons, List.not_mem_nil, or_false] at he
      rcases he with rfl | rfl
      · exact stable_copyBig
      · exact stable_copyBig
  · intro e he
    rcases List.mem_append.mp he with he | he
    · exact sound_matchFields e he
    · simp only [amountFields, List.mem_cons, List.not_mem_nil, or_false] at he
      rcases he with rfl | rfl
      · exact sound_copyBig
      · exact sound_copyBig

/-! ## Ids -/

theorem id_of_offerOf {o : Json} {r : Offer} (h : offerOf o = some r) : r.id = o.get? "id" := by
  unfold offerOf at h
  by_cases ho : o = .null
  · subst ho
    exact absurd h (by simp [read])
  · simp only [read_of_ne ho, Option.bind_eq_bind, Option.bind_some, Option.pure_def,
      Option.bind_eq_some_iff] at h
    obtain ⟨_, _, _, _, _, _, _, _, heq⟩ := h
    rw [← Option.some.inj heq]

theorem id_of_canonOffer (r : Offer) : (canonOffer r).get? "id" = r.id :=
  Json.get?_ofFields (by simp) List.mem_cons_self

theorem id_of_matchOf {m : Json} {r : Match} (h : matchOf m = some r) : r.id = m.get? "id" := by
  unfold matchOf at h
  simp only [Option.bind_eq_bind, Option.pure_def, Option.bind_eq_some_iff] at h
  obtain ⟨body, hbody, _, _, _, _, _, _, _, _, heq⟩ := h
  obtain ⟨-, -, rfl⟩ := (copyFields_iff (by simp [matchFields])).mp hbody
  rw [← Option.some.inj heq]
  exact Json.get?_ofFields (by rw [keys_copies]; decide) List.mem_cons_self

theorem id_of_canonMatch {r : Match} {x : Json} (h : canonMatch r = some x) :
    x.get? "id" = r.id := by
  unfold canonMatch matchBody at h
  simp only [Option.bind_eq_bind, Option.pure_def, Option.bind_eq_some_iff] at h
  obtain ⟨body, hbody, heq⟩ := h
  obtain ⟨-, hsome, rfl⟩ := (copyFields_iff (by simp [matchFields])).mp hbody
  rw [← Option.some.inj heq]
  refine Json.get?_ofFields ?_ (List.mem_append_left _ List.mem_cons_self)
  rw [List.map_append, keys_copies]
  show (matchFields.map Prod.fst ++ ["makerAmount", "takerAmount"]).Nodup
  decide

/-! ## Maps of items -/

/-- What a map keeps the items under. -/
def keysOf (ids : List Field) : List Key := ids.zipIdx.map (fun e => keyOf e.2 e.1)

variable {α : Type} {id : α → Field} {items : List α}

theorem keys_of_zipIdx : (items.zipIdx.map (fun e => (keyOf e.2 (id e.1), e.1))).map Prod.fst
    = keysOf (items.map id) := by
  unfold keysOf
  rw [List.zipIdx_map, List.map_map, List.map_map]
  rfl

theorem values_byId (h : (keysOf (items.map id)).Nodup) : (byId id items).values = items := by
  unfold byId OrderedMap.values
  rw [OrderedMap.entries_foldl_set (by rw [keys_of_zipIdx]; exact h), List.map_map]
  exact List.zipIdx_map_fst 0 items

theorem keys_foldl_subset {κ ν : Type} [DecidableEq κ] (l : List (κ × ν)) :
    ∀ m : OrderedMap κ ν, ∀ k ∈ (l.foldl (fun m e => m.set e.1 e.2) m).keys,
      k ∈ m.keys ∨ k ∈ l.map Prod.fst := by
  induction l with
  | nil => exact fun m k hk => Or.inl hk
  | cons e l ih =>
    intro m k hk
    rcases ih _ k hk with hk | hk
    · obtain ⟨v, hv⟩ := (OrderedMap.mem_keys _ k).mp hk
      rw [OrderedMap.get?_set] at hv
      split_ifs at hv with heq
      · exact Or.inr (heq ▸ List.mem_cons_self)
      · exact Or.inl ((OrderedMap.mem_keys m k).mpr ⟨v, hv⟩)
    · exact Or.inr (List.mem_cons_of_mem _ hk)

theorem values_foldl_subset {κ ν : Type} [DecidableEq κ] (l : List (κ × ν)) :
    ∀ m : OrderedMap κ ν, ∀ v ∈ (l.foldl (fun m e => m.set e.1 e.2) m).values,
      v ∈ m.values ∨ v ∈ l.map Prod.snd := by
  induction l with
  | nil => exact fun m v hv => Or.inl hv
  | cons e l ih =>
    intro m v hv
    rcases ih _ v hv with hv | hv
    · obtain ⟨k, hk⟩ := (OrderedMap.mem_values _ v).mp hv
      rw [OrderedMap.get?_set] at hk
      split_ifs at hk
      · exact Or.inr (Option.some.inj hk ▸ List.mem_cons_self)
      · exact Or.inl ((OrderedMap.mem_values m v).mpr ⟨k, hk⟩)
    · exact Or.inr (List.mem_cons_of_mem _ hv)

theorem mem_of_mem_byId {r : α} (h : r ∈ (byId id items).values) : r ∈ items := by
  rcases values_foldl_subset _ ∅ r h with hr | hr
  · exact absurd hr (by simp [OrderedMap.values])
  · rw [List.map_map] at hr
    obtain ⟨⟨x, i⟩, hx, rfl⟩ := List.mem_map.mp hr
    exact (List.mem_zipIdx' hx).2 ▸ List.getElem_mem _

/-- Under one key only the last item is kept. -/
theorem nodup_of_length (h : (byId id items).values.length = items.length) :
    (keysOf (items.map id)).Nodup := by
  rw [← keys_of_zipIdx]
  have hkeys : (byId id items).keys.Nodup := (byId id items).nodup
  have hsub : (byId id items).keys ⊆
      (items.zipIdx.map (fun e => (keyOf e.2 (id e.1), e.1))).map Prod.fst := fun k hk =>
    (keys_foldl_subset _ ∅ k hk).resolve_left (by simp [OrderedMap.keys])
  have hperm := (List.subperm_of_subset hkeys hsub).perm_of_length_le (by
    unfold OrderedMap.values at h
    unfold OrderedMap.keys
    simp only [List.length_map, List.length_zipIdx] at h ⊢
    omega)
  exact hperm.nodup_iff.mp hkeys

/-! ## Sorts -/

variable {S : IdOrder} {xs ys zs : List Json}

theorem sort_congr {R : Json → Json → Prop} (hids : xs.map (·.get? "id") = ys.map (·.get? "id"))
    (h : List.Forall₂ R xs ys) (hsort : S.sort xs = some zs) :
    ∃ zs', S.sort ys = some zs' ∧ List.Forall₂ R zs zs' := by
  unfold IdOrder.sort at hsort ⊢
  rw [← hids]
  obtain ⟨places, hplaces, rfl⟩ := Option.map_eq_some_iff.mp hsort
  refine ⟨places.filterMap (fun i => ys[i]?), by rw [hplaces]; rfl, ?_⟩
  clear hplaces hsort
  induction places with
  | nil => exact .nil
  | cons i places ih =>
    have hrel : Option.Rel R xs[i]? ys[i]? := by
      clear ih hids
      induction h generalizing i with
      | nil => exact .none
      | cons hhead _ ih =>
        cases i with
        | zero => exact .some hhead
        | succ i => exact ih i
    rw [List.filterMap_cons, List.filterMap_cons]
    generalize xs[i]? = x, ys[i]? = y at hrel
    cases hrel with
    | none => exact ih
    | some hR => exact .cons hR ih

theorem filterMap_range {β : Type} (l : List β) :
    (List.range l.length).filterMap (fun i => l[i]?) = l := by
  induction l with
  | nil => rfl
  | cons x l ih =>
    rw [List.length_cons, List.range_succ_eq_map, List.filterMap_cons_some (by rfl),
      List.filterMap_map]
    exact congrArg (x :: ·) ih

theorem sort_perm (hsort : S.sort xs = some zs) : zs.Perm xs := by
  unfold IdOrder.sort at hsort
  obtain ⟨places, hplaces, rfl⟩ := Option.map_eq_some_iff.mp hsort
  have hperm := S.perm _ _ hplaces
  rw [List.length_map] at hperm
  have hsame := hperm.filterMap (fun i => xs[i]?)
  rw [filterMap_range] at hsame
  exact hsame

/-- The sort leaves the items where they are, as far as their encodings tell. -/
def InPlace (S : IdOrder) (drop : String → Bool) (items : List Json) : Prop :=
  (keysOf (items.map (fun v => v.get? "id"))).Nodup ∧
    ∃ sorted, S.sort items = some sorted ∧ List.Forall₂ (Agree drop) sorted items

/-! ## Lists of items -/

theorem agreeing_trans (h : List.Forall₂ (Agree drop) xs ys) (h' : List.Forall₂ (Agree drop) ys zs) :
    List.Forall₂ (Agree drop) xs zs :=
  Json.agreeItems_iff.mp (.trans (Json.agreeItems_iff.mpr h) (Json.agreeItems_iff.mpr h'))

theorem agreeing_symm (h : List.Forall₂ (Agree drop) xs ys) (hys : ∀ y ∈ ys, y.Wf) :
    List.Forall₂ (Agree drop) ys xs :=
  Json.agreeItems_iff.mp (.symm (Json.agreeItems_iff.mpr h) hys)

/-- What reading items into a map, encoding them and sorting gives, and what it passes. -/
structure Coded (drop : String → Bool) (decode : Json → Option α) (encode : α → Option Json)
    (id : α → Field) (shape : List (String × (Field → Prop))) : Prop where
  id_decode : ∀ v r, decode v = some r → id r = v.get? "id"
  id_encode : ∀ r x, encode r = some x → x.get? "id" = id r
  passes : ∀ v : Json, v.Wf →
    ((∃ x, (decode v).bind encode = some x ∧ Agree drop x v) ↔ Loose drop shape v)
  copy_passes : ∀ v x : Json, v.Wf → (decode v).bind encode = some x → Loose drop shape x ∧ x.Wf
  closed : ∀ v w : Json, v.Wf → w.Wf → Agree drop v w → Loose drop shape v → Loose drop shape w

theorem coded_offer (hdrop : Spares drop) :
    Coded drop offerOf (fun r => some (canonOffer r)) Offer.id (offerShape drop) where
  id_decode := fun _ _ h => id_of_offerOf h
  id_encode := fun r x h => Option.some.inj h ▸ id_of_canonOffer r
  passes := fun v hv => by
    rw [← offer_passes hdrop hv, Option.map_eq_bind]
    rfl
  copy_passes := fun v x hv hx => offer_copy_passes hdrop hv (by rw [Option.map_eq_bind]; exact hx)
  closed := fun v w hv hw hagree h => loose_closed hdrop (by simp [offerShape]) (closed_offer hdrop)
    h hagree hv hw

theorem coded_match (hdrop : Spares drop) :
    Coded drop matchOf canonMatch Match.id (matchShape drop) where
  id_decode := fun _ _ h => id_of_matchOf h
  id_encode := fun _ _ h => id_of_canonMatch h
  passes := fun _ hv => match_passes hdrop hv
  copy_passes := fun _ _ hv hx => match_copy_passes hdrop hv hx
  closed := fun v w hv hw hagree h => loose_closed hdrop (by simp [matchShape]) (closed_match hdrop)
    h hagree hv hw

namespace Coded

variable {decode : Json → Option α} {encode : α → Option Json}
  {shape : List (String × (Field → Prop))} {items : List Json} {rs : List α}

theorem ids_of_mapM (hc : Coded drop decode encode id shape) (h : items.mapM decode = some rs) :
    rs.map id = items.map (·.get? "id") := by
  have hall := mapM_eq_some.mp h
  clear h
  induction hall with
  | nil => rfl
  | cons hhead _ ih => rw [List.map_cons, List.map_cons, ih, hc.id_decode _ _ hhead]

theorem ids_of_encode (hc : Coded drop decode encode id shape) (h : rs.mapM encode = some xs) :
    xs.map (·.get? "id") = rs.map id := by
  have hall := mapM_eq_some.mp h
  clear h
  induction hall with
  | nil => rfl
  | cons hhead _ ih => rw [List.map_cons, List.map_cons, ih, hc.id_encode _ _ hhead]

/-- Items that pass are encoded as what they agree with. -/
theorem exists_encoded (hc : Coded drop decode encode id shape) (hwf : ∀ v ∈ items, v.Wf)
    (hloose : ∀ v ∈ items, Loose drop shape v) : ∃ rs encs, items.mapM decode = some rs ∧
      rs.mapM encode = some encs ∧ List.Forall₂ (Agree drop) encs items := by
  induction items with
  | nil => exact ⟨[], [], rfl, rfl, .nil⟩
  | cons v items ih =>
    rw [List.forall_mem_cons] at hwf hloose
    obtain ⟨rs, encs, hrs, hencs, hall⟩ := ih hwf.2 hloose.2
    obtain ⟨x, hx, hagree⟩ := (hc.passes v hwf.1).mpr hloose.1
    obtain ⟨r, hr, hrx⟩ := Option.bind_eq_some_iff.mp hx
    exact ⟨r :: rs, x :: encs, mapM_eq_some.mpr (.cons hr (mapM_eq_some.mp hrs)),
      mapM_eq_some.mpr (.cons hrx (mapM_eq_some.mp hencs)), .cons hagree hall⟩

/-- A list is encoded as one that agrees with it where its items pass, and are left in place. -/
theorem list_iff (hc : Coded drop decode encode id shape) (S : IdOrder) (hwf : ∀ v ∈ items, v.Wf) :
    (∃ rs encs sorted, items.mapM decode = some rs ∧ (byId id rs).values.mapM encode = some encs ∧
      S.sort encs = some sorted ∧ List.Forall₂ (Agree drop) sorted items) ↔
    (∀ v ∈ items, Loose drop shape v) ∧ InPlace S drop items := by
  constructor
  · rintro ⟨rs, encs, sorted, hrs, hencs, hsort, hall⟩
    have hids := hc.ids_of_mapM hrs
    have hlen : (byId id rs).values.length = rs.length := by
      have h1 := (mapM_eq_some.mp hencs).length_eq
      have h2 := (sort_perm hsort).length_eq
      have h3 := hall.length_eq
      have h4 := (mapM_eq_some.mp hrs).length_eq
      omega
    have hnodup := nodup_of_length hlen
    rw [values_byId hnodup] at hencs
    have hloose : ∀ v ∈ items, Loose drop shape v := by
      intro v hv
      obtain ⟨y, hy, hagree⟩ := exists_of_forall₂ hall v hv
      obtain ⟨r, hr, hry⟩ := exists_of_forall₂ (mapM_eq_some.mp hencs) y
        ((sort_perm hsort).mem_iff.mp hy)
      obtain ⟨v', hv', hvr⟩ := exists_of_forall₂ (mapM_eq_some.mp hrs) r hr
      obtain ⟨hy', hywf⟩ := hc.copy_passes v' y (hwf v' hv') (by rw [hvr]; exact hry)
      exact hc.closed y v hywf (hwf v hv) hagree hy'
    refine ⟨hloose, hids ▸ hnodup, ?_⟩
    obtain ⟨rs', encs', hrs', hencs', hagrees⟩ := hc.exists_encoded hwf hloose
    obtain rfl := Option.some.inj (hrs.symm.trans hrs')
    obtain rfl := Option.some.inj (hencs.symm.trans hencs')
    obtain ⟨sorted', hsort', hrel⟩ := sort_congr ((hc.ids_of_encode hencs).trans hids) hagrees hsort
    refine ⟨sorted', hsort', agreeing_trans (agreeing_symm hrel fun y hy => ?_) hall⟩
    exact hwf y ((sort_perm hsort').mem_iff.mp hy)
  · rintro ⟨hloose, hnodup, sorted, hsort, hall⟩
    obtain ⟨rs, encs, hrs, hencs, hagrees⟩ := hc.exists_encoded hwf hloose
    have hids := hc.ids_of_mapM hrs
    have hback : List.Forall₂ (fun a b => Agree drop b a) items encs := hagrees.flip
    obtain ⟨sorted', hsort', hrel⟩ :=
      sort_congr ((hc.ids_of_encode hencs).trans hids).symm hback hsort
    refine ⟨rs, encs, sorted', hrs, ?_, hsort', agreeing_trans hrel.flip hall⟩
    rw [values_byId (by rw [hids]; exact hnodup)]
    exact hencs

theorem wf_sorted (hc : Coded drop decode encode id shape) (S : IdOrder)
    (hwf : ∀ v ∈ items, v.Wf) (hrs : items.mapM decode = some rs)
    (hencs : (byId id rs).values.mapM encode = some xs) (hsort : S.sort xs = some ys) :
    ∀ y ∈ ys, y.Wf := by
  intro y hy
  obtain ⟨r, hr, hry⟩ := exists_of_forall₂ (mapM_eq_some.mp hencs) y
    ((sort_perm hsort).mem_iff.mp hy)
  obtain ⟨v, hv, hvr⟩ := exists_of_forall₂ (mapM_eq_some.mp hrs) r (mem_of_mem_byId hr)
  exact (hc.copy_passes v y (hwf v hv) (by rw [hvr]; exact hry)).2

end Coded

/-! ## States -/

/-- What passes for a state. -/
structure LooseState (S : IdOrder) (drop : String → Bool) (s : Json) : Prop where
  two : ∃ keys, s.keys? = some keys ∧ keys.length = 2
  offers : ∃ items, s.get? "offers" = some (.arr items) ∧
    (∀ o ∈ items, Loose drop (offerShape drop) o) ∧ InPlace S drop items
  «matches» : ∃ items, s.get? "matches" = some (.arr items) ∧
    (∀ m ∈ items, Loose drop (matchShape drop) m) ∧ InPlace S drop items

variable {s : Json} {view : View} {state : Json}

theorem mapM_some {β γ : Type} (f : β → γ) (l : List β) :
    l.mapM (fun x => some (f x)) = some (l.map f) := by
  induction l with
  | nil => rfl
  | cons x l ih => rw [List.mapM_cons, ih]; rfl

theorem serializeView_eq_some : serializeView S view = some state ↔ ∃ offers encs sorted,
    S.sort (view.offers.values.map canonOffer) = some offers ∧
      view.matches.values.mapM canonMatch = some encs ∧ S.sort encs = some sorted ∧
      state = .obj [("offers", .arr offers), ("matches", .arr sorted)] := by
  unfold serializeView
  simp only [Option.bind_eq_bind, Option.pure_def, Option.bind_eq_some_iff, Option.some.injEq]
  constructor
  · rintro ⟨offers, hoffers, encs, hencs, sorted, hsorted, rfl⟩
    exact ⟨offers, encs, sorted, hoffers, hencs, hsorted, rfl⟩
  · rintro ⟨offers, encs, sorted, hoffers, hencs, hsorted, rfl⟩
    exact ⟨offers, hoffers, encs, hencs, sorted, hsorted, rfl⟩

theorem rel_arr_iff : Option.Rel (Agree drop) (some (.arr xs)) f ↔
    ∃ items, f = some (.arr items) ∧ List.Forall₂ (Agree drop) xs items := by
  constructor
  · intro h
    cases h with
    | @some _ w hagree =>
      cases w with
      | arr items => exact ⟨items, rfl, Json.agreeItems_iff.mp hagree⟩
      | _ => exact absurd hagree (by simp [Agree])
  · rintro ⟨items, rfl, hall⟩
    exact .some (Json.agreeItems_iff.mpr hall)

/-- The encoding agrees with an object of two members where its arrays agree with these. -/
theorem agree_state (hdrop : Spares drop) (hs : s.Wf)
    (htwo : ∃ keys, s.keys? = some keys ∧ keys.length = 2) :
    Agree drop (.obj [("offers", .arr xs), ("matches", .arr ys)]) s ↔
      (∃ items, s.get? "offers" = some (.arr items) ∧ List.Forall₂ (Agree drop) xs items) ∧
        ∃ items, s.get? "matches" = some (.arr items) ∧ List.Forall₂ (Agree drop) ys items := by
  have hfields : (Json.obj [("offers", .arr xs), ("matches", .arr ys)])
      = ofFields [("offers", some (.arr xs)), ("matches", some (.arr ys))] := rfl
  rw [hfields, Json.agree_ofFields (by simp) (fun k hk => hdrop k (by rintro rfl; simp at hk)) hs]
  simp only [List.forall_mem_cons, List.not_mem_nil, false_implies, implies_true, and_true,
    rel_arr_iff]
  obtain ⟨keys, hkeys, hlen⟩ := htwo
  cases s with
  | obj fs =>
    obtain rfl := Option.some.inj hkeys
    constructor
    · rintro ⟨_, -, -, hmembers⟩
      exact hmembers
    · rintro ⟨⟨items, hoffers, hall⟩, items', hmatches, hall'⟩
      refine ⟨fs, rfl, fun k hk => Or.inr ?_, ⟨items, hoffers, hall⟩, items', hmatches, hall'⟩
      -- both are there, and there are two
      have hsub : ["offers", "matches"] ⊆ fs.map Prod.fst := by
        intro k hk
        rcases List.mem_cons.mp hk with rfl | hk
        · exact List.mem_map_of_mem (Json.mem_of_get? hoffers)
        · rw [List.mem_singleton.mp hk]
          exact List.mem_map_of_mem (Json.mem_of_get? hmatches)
      have hperm := (List.subperm_of_subset (by decide) hsub).perm_of_length_le (by rw [hlen]; simp)
      exact hperm.mem_iff.mpr hk
  | _ => exact absurd hkeys (by simp [Json.keys?])

theorem wf_items (hs : s.Wf) {k : String} {items : List Json} (h : s.get? k = some (.arr items)) :
    ∀ v ∈ items, v.Wf := Json.wf_arr.mp (WfField.get? hs k _ h)

theorem copiedView_eq_some (hne : s ≠ .null) {offers found : List Json}
    (hoffers : s.get? "offers" = some (.arr offers)) (hfound : s.get? "matches" = some (.arr found)) :
    copiedView s = some view ↔ ∃ rs rs', offers.mapM offerOf = some rs ∧
      found.mapM matchOf = some rs' ∧ view = ⟨byId Offer.id rs, byId Match.id rs'⟩ := by
  unfold copiedView
  rw [read_of_ne hne, read_of_ne hne, hoffers, hfound]
  simp only [Option.bind_eq_bind, Option.bind_some, iterate, Option.pure_def,
    Option.bind_eq_some_iff, Option.some.injEq]
  constructor
  · rintro ⟨rs, hrs, rs', hrs', rfl⟩
    exact ⟨rs, rs', hrs, hrs', rfl⟩
  · rintro ⟨rs, rs', hrs, hrs', rfl⟩
    exact ⟨rs, hrs, rs', hrs', rfl⟩

/-- What is read, encoded again and agrees with what was read. -/
theorem reencodes_iff (hdrop : Spares drop) (hs : s.Wf) :
    (∃ view state, copiedView s = some view ∧ serializeView S view = some state ∧
      (∃ keys, s.keys? = some keys ∧ keys.length = 2) ∧ Agree drop state s) ↔
      LooseState S drop s := by
  have hobj : (∃ keys, s.keys? = some keys ∧ keys.length = 2) → s ≠ .null := by
    rintro ⟨keys, hkeys, -⟩ rfl
    exact absurd hkeys (by simp [Json.keys?])
  constructor
  · rintro ⟨view, state, hview, hstate, htwo, hagree⟩
    obtain ⟨sortedOffers, encs, sortedFound, hsort, hencs, hsort', rfl⟩ :=
      serializeView_eq_some.mp hstate
    obtain ⟨⟨offers, hoffers, hall⟩, found, hfound, hall'⟩ := (agree_state hdrop hs htwo).mp hagree
    obtain ⟨rs, rs', hrs, hrs', rfl⟩ := (copiedView_eq_some (hobj htwo) hoffers hfound).mp hview
    have hoffer := ((coded_offer hdrop).list_iff S (wf_items hs hoffers)).mp
      ⟨rs, _, sortedOffers, hrs, mapM_some canonOffer _, hsort, hall⟩
    have hmatch := ((coded_match hdrop).list_iff S (wf_items hs hfound)).mp
      ⟨rs', encs, sortedFound, hrs', hencs, hsort', hall'⟩
    exact ⟨htwo, ⟨offers, hoffers, hoffer⟩, found, hfound, hmatch⟩
  · rintro ⟨htwo, ⟨offers, hoffers, hoffer⟩, found, hfound, hmatch⟩
    obtain ⟨rs, encs, sortedOffers, hrs, hencs, hsort, hall⟩ :=
      ((coded_offer hdrop).list_iff S (wf_items hs hoffers)).mpr hoffer
    obtain ⟨rs', encs', sortedFound, hrs', hencs', hsort', hall'⟩ :=
      ((coded_match hdrop).list_iff S (wf_items hs hfound)).mpr hmatch
    rw [mapM_some canonOffer] at hencs
    obtain rfl := Option.some.inj hencs
    refine ⟨_, _, (copiedView_eq_some (hobj htwo) hoffers hfound).mpr ⟨rs, rs', hrs, hrs', rfl⟩,
      serializeView_eq_some.mpr ⟨sortedOffers, encs', sortedFound, hsort, hencs', hsort', rfl⟩,
      htwo, ?_⟩
    exact (agree_state hdrop hs htwo).mpr ⟨⟨offers, hoffers, hall⟩, found, hfound, hall'⟩

/-- Everything but members under `__proto__` is compared. -/
def protoOnly (k : String) : Bool := decide (k = "__proto__")

theorem spares_protoOnly : Spares protoOnly := fun k hk => by simp [protoOnly, hk]

theorem wf_iterate {items : List Json} (hf : WfField f) (h : iterate f = some items) :
    ∀ v ∈ items, v.Wf := by
  unfold iterate at h
  split at h
  · rw [← Option.some.inj h]
    exact Json.wf_arr.mp (hf _ rfl)
  · rw [← Option.some.inj h]
    intro v hv
    obtain ⟨c, -, rfl⟩ := List.mem_map.mp hv
    trivial
  · exact absurd h (by simp)

/-- The encoding of what was read has no key twice. -/
theorem wf_state (hs : s.Wf) (hview : copiedView s = some view)
    (hstate : serializeView S view = some state) : state.Wf := by
  obtain ⟨sortedOffers, encs, sortedFound, hsort, hencs, hsort', rfl⟩ :=
    serializeView_eq_some.mp hstate
  unfold copiedView at hview
  simp only [Option.bind_eq_bind, Option.pure_def, Option.bind_eq_some_iff, Option.some.injEq]
    at hview
  obtain ⟨f, hf, offers, hoffers, rs, hrs, f', hf', found, hfound, rs', hrs', rfl⟩ := hview
  have hread : ∀ k g, read s k = some g → WfField g := by
    intro k g hg
    have hne : s ≠ .null := by
      rintro rfl
      exact absurd hg (by simp [read])
    rw [read_of_ne hne] at hg
    exact Option.some.inj hg ▸ WfField.get? hs k
  have hoffer := (coded_offer spares_protoOnly).wf_sorted S (wf_iterate (hread _ _ hf) hoffers) hrs
    (mapM_some canonOffer _) hsort
  have hmatch := (coded_match spares_protoOnly).wf_sorted S (wf_iterate (hread _ _ hf') hfound) hrs'
    hencs hsort'
  rw [Json.wf_obj]
  simp only [List.forall_mem_cons, List.not_mem_nil, false_implies, implies_true, and_true]
  exact ⟨by simp, Json.wf_arr.mpr hoffer, Json.wf_arr.mpr hmatch⟩

/-- What is accepted. -/
theorem accepted_iff (hs : s.Wf) : (deserializeView S s).isSome ↔ LooseState S protoOnly s := by
  rw [← reencodes_iff spares_protoOnly hs]
  unfold deserializeView
  constructor
  · intro h
    obtain ⟨view', h⟩ := Option.isSome_iff_exists.mp h
    simp only [Option.bind_eq_bind, Option.bind_eq_some_iff] at h
    obtain ⟨view, hview, keys, hkeys, state, hstate, hend⟩ := h
    split_ifs at hend with hcheck
    exact ⟨view, state, hview, hstate, ⟨keys, hkeys, hcheck.1⟩,
      (canonicalize_eq_iff (wf_state hs hview hstate) hs).mp hcheck.2⟩
  · rintro ⟨view, state, hview, hstate, ⟨keys, hkeys, hlen⟩, hagree⟩
    have hcanon := (canonicalize_eq_iff (wf_state hs hview hstate) hs).mpr hagree
    simp [hview, hkeys, hstate, hlen, hcanon]

end Untyped

end Gavl
