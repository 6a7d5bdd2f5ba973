import Gavl.Desktop.FormatTheorems
import Gavl.Desktop.Market
import Gavl.Market.OfferTheorems

/-!
# The market page's forms against the fold

A form that the desktop lets through costs its user a write's cooldown, so what it checks should be
what the fold checks. It is for every take; a new offer is checked against all of the fold's bounds
but the largest amount there can be.
-/

namespace Gavl

namespace Desktop

open Runs

variable {K : Curve} {view : View} {w : Write} {h : ℤ} {form : OfferForm} {o : NewOffer}
  {give : Chain} {g r m n hours : ℕ} {input label : String} {offer : Offer}

/-! ## Except -/

section
variable {ε α β : Type}

theorem bind_eq_ok_iff {x : Except ε α} {f : α → Except ε β} {b : β} :
    (x >>= f) = .ok b ↔ ∃ a, x = .ok a ∧ f a = .ok b := by
  cases x with
  | ok a =>
    constructor
    · exact fun h => ⟨a, rfl, h⟩
    · rintro ⟨a', heq, h⟩
      obtain rfl := Except.ok.inj heq
      exact h
  | error e => exact ⟨fun h => (nomatch h), fun ⟨_, heq, _⟩ => (nomatch heq)⟩

theorem ite_error_eq_ok_iff {c : Prop} [Decidable c] {e : ε} {x : Except ε α} {a : α} :
    (if c then .error e else x) = .ok a ↔ ¬ c ∧ x = .ok a := by
  by_cases hc : c
  · rw [if_pos hc]
    exact ⟨fun h => (nomatch h), fun h => absurd hc h.1⟩
  · rw [if_neg hc]
    exact ⟨fun h => ⟨hc, h⟩, fun h => h.2⟩

end

theorem parseField_eq_ok_iff : parseField label input = .ok n ↔ parseCoin input = .ok n := by
  unfold parseField
  cases parseCoin input with
  | ok m =>
    constructor
    · intro h
      rw [Except.ok.inj h]
    · intro h
      rw [Except.ok.inj h]
      rfl
  | error e => exact ⟨fun h => (nomatch h), fun h => (nomatch h)⟩

/-! ## What a form says and what it must meet -/

/-- The base units and hours that the texts of a form parse to. -/
structure OfferForm.Reads (form : OfferForm) (g r m hours : ℕ) : Prop where
  give : parseCoin form.giveText = .ok g
  want : parseCoin form.wantText = .ok r
  minFill : minFillOf form.minText g = .ok m
  hours : parseUnsigned u32Max (trim form.hoursText.toList) = some hours

/-- The rules the desktop checks. -/
structure Rules (give : Chain) (g r m hours : ℕ) : Prop where
  give_dust : dust give ≤ g
  want_dust : dust (other give) ≤ r
  fill_le : m ≤ g
  fill_dust : dust give ≤ m
  owed_dust : dust (other give) ≤ proRata m g r
  hours_pos : 1 ≤ hours
  hours_le : hours ≤ maxExpiryHours

theorem okOr_eq_ok_iff {ε : Type} {e : ε} {x : Option ℕ} : okOr e x = .ok n ↔ x = some n := by
  cases x with
  | none => exact ⟨fun h => (nomatch h), fun h => (nomatch h)⟩
  | some a =>
    constructor
    · intro h
      rw [Except.ok.inj h]
    · intro h
      rw [Option.some.inj h]
      rfl

/-- Hours that pass the check make a number of anchors that fits. -/
theorem fitting_hours {ε : Type} (hle : hours ≤ maxExpiryHours) :
    (fitting u32Max (hours * anchorsPerHour) : Except (Stop ε) ℕ)
      = .ok (hours * anchorsPerHour) := by
  have hmax : maxExpiryHours * anchorsPerHour ≤ u32Max := by decide
  exact if_pos ((Nat.mul_le_mul_right anchorsPerHour hle).trans hmax)

/-- The desktop's answer is the form's numbers, under its rules. -/
theorem validateOffer_eq_ok_iff : validateOffer form = .ok o ↔ ∃ g r m hours,
    form.Reads g r m hours ∧ Rules form.give g r m hours ∧
      o = ⟨form.give, g, r, m, hours * anchorsPerHour⟩ := by
  unfold validateOffer
  simp only [bind_eq_ok_iff, ite_error_eq_ok_iff, parseField_eq_ok_iff, okOr_eq_ok_iff]
  constructor
  · rintro ⟨g, hg, r, hr, hgive, hwant, m, hm, hfill, hdust, hours, hhours, hrange, e, he, ho⟩
    push Not at hgive hwant hfill hdust hrange
    rw [fitting_hours hrange.2] at he
    obtain rfl := Except.ok.inj he
    exact ⟨g, r, m, hours, ⟨hg, hr, hm, hhours⟩,
      ⟨hgive, hwant, hfill, hdust.1, hdust.2, hrange.1, hrange.2⟩, (Except.ok.inj ho).symm⟩
  · rintro ⟨g, r, m, hours, hreads, hrules, rfl⟩
    refine ⟨g, hreads.give, r, hreads.want, not_lt.mpr hrules.give_dust, not_lt.mpr hrules.want_dust,
      m, hreads.minFill, not_lt.mpr hrules.fill_le, ?_, hours, hreads.hours, ?_, _,
      fitting_hours hrules.hours_le, rfl⟩
    · exact not_or.mpr ⟨not_lt.mpr hrules.fill_dust, not_lt.mpr hrules.owed_dust⟩
    · exact not_or.mpr ⟨not_lt.mpr hrules.hours_pos, not_lt.mpr hrules.hours_le⟩

/-! ## The numbers of both sides -/

theorem dust_eq (c : Chain) : dust c = Gavl.dust c := by cases c <;> decide

theorem maxMoney_le_u64Max (c : Chain) : maxMoney c ≤ u64Max := by cases c <;> decide

/-- The quotient is not cut: it owes no more than the whole. -/
theorem proRata_eq (hfill : m ≤ g) (hr : r ≤ u64Max) : proRata m g r = Gavl.proRata g r m := by
  have hle : Gavl.proRata g r m ≤ r := proRata_le hfill
  have hmax : u64Max < 2 ^ 64 := by decide
  unfold proRata
  by_cases hg : g = 0
  · rw [if_pos hg, hg, Gavl.proRata, Nat.div_zero]
  · rw [if_neg hg]
    exact Nat.mod_eq_of_lt (lt_of_le_of_lt (hle.trans hr) hmax)

theorem ttl_le_iff : hours * anchorsPerHour ≤ maxOfferTtl ↔ hours ≤ maxExpiryHours := by
  unfold anchorsPerHour maxOfferTtl maxExpiryHours
  omega

/-! ## Offers -/

/-- The fold applies the op that a payload says. -/
def Applies (K : Curve) (view : View) (w : Write) (h : ℤ) (payload : Json) : Prop :=
  ∃ op, parseOp K payload = some op ∧ (applyOp view w op h).2 = none

/-- The desktop lets a form through as an offer just when the form says that offer and the fold
applies it. -/
def OfferAgrees (K : Curve) (view : View) (w : Write) (h : ℤ) (form : OfferForm) : Prop :=
  ∀ o, validateOffer form = .ok o ↔
    (o.give = form.give ∧ ∃ hours, form.Reads o.giveAmount o.wantAmount o.minFill hours ∧
      o.expiresIn = hours * anchorsPerHour) ∧ Applies K view w h (opPayload o.op)

/-- A form that breaks no rule asks for no more than there can be. -/
def WithinMoney (form : OfferForm) : Prop :=
  ∀ g r m hours, form.Reads g r m hours → Rules form.give g r m hours →
    g ≤ maxMoney form.give ∧ r ≤ maxMoney (other form.give)

/-- The fold applies an offer under the desktop's rules and within what there can be. -/
theorem applies_offer_iff (hnew : view.offers.has w.id = false) :
    Applies K view w h (opPayload (NewOffer.op ⟨give, g, r, m, hours * anchorsPerHour⟩)) ↔
      Rules give g r m hours ∧ g ≤ maxMoney give ∧ r ≤ maxMoney (other give) := by
  have happlies : Applies K view w h
      (opPayload (NewOffer.op ⟨give, g, r, m, hours * anchorsPerHour⟩)) ↔
        Postable ⟨give, g⟩ ⟨other give, r⟩ m (hours * anchorsPerHour) ∧
          (applyOfferPost view w ⟨give, g⟩ ⟨other give, r⟩ m (hours * anchorsPerHour) h).2 = none := by
    constructor
    · rintro ⟨op, hop, hnone⟩
      obtain ⟨rfl, hpost⟩ := parseOfferPost_payload_iff.mp hop
      exact ⟨hpost, hnone⟩
    · rintro ⟨hpost, hnone⟩
      exact ⟨_, parseOfferPost_payload_iff.mpr ⟨rfl, hpost⟩, hnone⟩
  rw [happlies, applyOfferPost_none_iff hnew]
  constructor
  · rintro ⟨hpost, ⟨hgive, hwant⟩, hfill, howed⟩
    have hr := hpost.want_le.trans (maxMoney_le_u64Max _)
    refine ⟨⟨?_, ?_, hpost.fill_le, ?_, ?_, ?_, ttl_le_iff.mp hpost.ttl_le⟩, hpost.give_le,
      hpost.want_le⟩
    · rw [dust_eq]
      exact hgive
    · rw [dust_eq]
      exact hwant
    · rw [dust_eq]
      exact hfill
    · rw [dust_eq, proRata_eq hpost.fill_le hr]
      exact howed
    · have := hpost.ttl_pos
      exact Nat.pos_of_mul_pos_right this
  · rintro ⟨hrules, hg, hr⟩
    have hgive := hrules.give_dust
    have hwant := hrules.want_dust
    have hfill := hrules.fill_dust
    have howed := hrules.owed_dust
    rw [proRata_eq hrules.fill_le (hr.trans (maxMoney_le_u64Max _))] at howed
    rw [dust_eq] at hgive hwant hfill howed
    refine ⟨⟨?_, hg, ?_, hr, ?_, ?_, hrules.fill_le, ?_, ttl_le_iff.mpr hrules.hours_le⟩,
      ⟨hgive, hwant⟩, hfill, howed⟩
    · exact lt_of_lt_of_le (dust_pos _) hgive
    · exact lt_of_lt_of_le (dust_pos _) hwant
    · show give ≠ other give
      cases give <;> decide
    · exact lt_of_lt_of_le (dust_pos _) hfill
    · exact Nat.mul_pos hrules.hours_pos (by decide)

theorem offerAgrees_iff (hnew : view.offers.has w.id = false) :
    OfferAgrees K view w h form ↔ WithinMoney form := by
  constructor
  · intro hagrees g r m hours hreads hrules
    have hok := validateOffer_eq_ok_iff.mpr ⟨g, r, m, hours, hreads, hrules, rfl⟩
    exact ((applies_offer_iff hnew).mp ((hagrees _).mp hok).2).2
  · intro hmoney o
    constructor
    · intro hok
      obtain ⟨g, r, m, hours, hreads, hrules, rfl⟩ := validateOffer_eq_ok_iff.mp hok
      exact ⟨⟨rfl, hours, hreads, rfl⟩,
        (applies_offer_iff hnew).mpr ⟨hrules, hmoney g r m hours hreads hrules⟩⟩
    · rintro ⟨⟨hgive, hours, hreads, hexpires⟩, happlies⟩
      obtain ⟨give, g, r, m, e⟩ := o
      simp only at hgive hreads hexpires
      subst hgive hexpires
      exact validateOffer_eq_ok_iff.mpr ⟨g, r, m, hours, hreads,
        ((applies_offer_iff hnew).mp happlies).1, rfl⟩

/-! ## Takes -/

variable {fillText hash takerKey k : String} {fill pay : ℕ}

theorem validateTake_eq_ok_iff : validateTake offer fillText = .ok (fill, pay) ↔
    parseCoin fillText = .ok fill ∧ (offer.minFill ≤ fill ∧ fill ≤ offer.remaining) ∧
      (dust offer.give.chain ≤ fill ∧ dust offer.want.chain ≤ pay) ∧
        pay = proRata fill offer.give.amount offer.want.amount := by
  unfold validateTake
  simp only [bind_eq_ok_iff, ite_error_eq_ok_iff, parseField_eq_ok_iff]
  constructor
  · rintro ⟨-, n, hn, hmin, hleft, hdust, heq⟩
    obtain ⟨rfl, rfl⟩ := Prod.mk.inj (Except.ok.inj heq)
    push Not at hmin hleft hdust
    exact ⟨hn, ⟨hmin, hleft⟩, hdust, rfl⟩
  · rintro ⟨hparse, ⟨hmin, hleft⟩, ⟨hgive, hwant⟩, rfl⟩
    exact ⟨not_lt.mpr (hmin.trans hleft), fill, hparse, not_lt.mpr hmin, not_lt.mpr hleft,
      not_or.mpr ⟨not_lt.mpr hgive, not_lt.mpr hwant⟩, rfl⟩

/-- The desktop lets a take through just when its text says the fill, the fold applies it, and the
match it makes is for the two amounts. -/
def TakeAgrees (K : Curve) (view : View) (w : Write) (h : ℤ) (offer : Offer)
    (fillText hash takerKey : String) : Prop :=
  ∀ fill pay, validateTake offer fillText = .ok (fill, pay) ↔
    parseCoin fillText = .ok fill ∧ ∃ op,
      parseOp K (opPayload (.offerTake offer.id fill hash takerKey)) = some op ∧
        (applyOp view w op h).2 = none ∧ ∃ m, (applyOp view w op h).1.matches.get? w.id = some m ∧
          m.makerAmount = fill ∧ m.takerAmount = pay

/-- What a taker brings: another party's write of its own id, a hash in use by no match and a key
on the curve. -/
structure Taker (K : Curve) (view : View) (w : Write) (offer : Offer) (hash takerKey : String) :
    Prop where
  fresh : FreshTake view w offer hash
  hash : isHexOf 64 hash = true
  key : isXOnlyKey K (.str takerKey) = some takerKey

theorem takeAgrees_of_listed (hget : view.offers.get? k = some offer) (hlisted : offer.Listed k)
    (hleft : offer.remaining ≤ offer.give.amount) (ht : Taker K view w offer hash takerKey) :
    TakeAgrees K view w h offer fillText hash takerKey := by
  have hwant := hlisted.want_le.trans (maxMoney_le_u64Max _)
  obtain rfl := hlisted.id_eq
  intro fill pay
  rw [validateTake_eq_ok_iff]
  have howed : fill ≤ offer.remaining →
      proRata fill offer.give.amount offer.want.amount
        = Gavl.proRata offer.give.amount offer.want.amount fill := fun hle =>
    proRata_eq (hle.trans hleft) hwant
  constructor
  · rintro ⟨hparse, ⟨hmin, hle⟩, ⟨hgive, hpay⟩, rfl⟩
    rw [howed hle, dust_eq] at hpay
    rw [dust_eq] at hgive
    have hpos : 0 < fill := lt_of_lt_of_le (dust_pos _) hgive
    have hmax : fill ≤ maxMoney .litecoin :=
      (hle.trans hleft).trans (hlisted.give_le.trans (maxMoney_le_litecoin _))
    have happly : (applyOfferTake view w offer.id fill hash takerKey h).2 = none :=
      (applyOfferTake_none_iff hget ht.fresh).mpr ⟨⟨hmin, hle⟩, hgive, hpay⟩
    exact ⟨hparse, _, (parseOfferTake_payload_iff hlisted.isHex ht.hash ht.key).mpr ⟨rfl, hpos, hmax⟩,
      happly, _, get?_applyOfferTake hget happly, rfl, (howed hle).symm⟩
  · rintro ⟨hparse, op, hop, hnone, m, hm, hfill, hpay⟩
    obtain ⟨rfl, -⟩ := (parseOfferTake_payload_iff hlisted.isHex ht.hash ht.key).mp hop
    obtain ⟨⟨hmin, hle⟩, hgive, howes⟩ := (applyOfferTake_none_iff hget ht.fresh).mp hnone
    obtain rfl := Option.some.inj ((get?_applyOfferTake hget hnone).symm.trans hm)
    rw [howed hle]
    refine ⟨hparse, ⟨hmin, hle⟩, ⟨?_, ?_⟩, hpay.symm⟩
    · rw [dust_eq]
      exact hgive
    · rw [dust_eq, ← hpay]
      exact howes

/-! ## The forms -/

/-- **The desktop's forms agree with the fold**, a new offer's exactly where it asks for no more than
there can be, and a take's always: over every offer of every fold, whose numbers all fit the types
the desktop reads them into. -/
theorem forms_agree_iff (K : Curve) :
    (∀ form view w h, view.offers.has w.id = false →
      (OfferAgrees K view w h form ↔ WithinMoney form)) ∧
    ∀ steps, FoldSteps K steps → ∀ k offer,
      (run boardStep emptyView steps).offers.get? k = some offer →
        (offer.give.amount ≤ u64Max ∧ offer.want.amount ≤ u64Max ∧ offer.minFill ≤ u64Max ∧
          offer.remaining ≤ u64Max) ∧
        ∀ w h fillText hash takerKey,
          Taker K (run boardStep emptyView steps) w offer hash takerKey →
            TakeAgrees K (run boardStep emptyView steps) w h offer fillText hash takerKey := by
  refine ⟨fun form view w h hnew => offerAgrees_iff hnew, fun steps hsteps k offer hget => ?_⟩
  have hlisted := hsteps.listing k offer hget
  have hleft := hsteps.remaining_le hget
  have hgive := hlisted.give_le.trans (maxMoney_le_u64Max _)
  have hwant := hlisted.want_le.trans (maxMoney_le_u64Max _)
  exact ⟨⟨hgive, hwant, hlisted.fill_le.trans hgive, hleft.trans hgive⟩,
    fun w h fillText hash takerKey ht => takeAgrees_of_listed hget hlisted hleft ht⟩

/-- More coins than there can be. -/
def richForm : OfferForm := ⟨.bitcoin, "30000000", "1", "", "24"⟩

/-- The offer it makes. -/
def richOffer : NewOffer := ⟨.bitcoin, 3000000000000000, 100000000, 3000000000000000, 1440⟩

/-- The desktop lets it through, and the parser makes nothing of it. -/
theorem richForm_posted : validateOffer richForm = .ok richOffer ∧
    parseOp Checkpointed.curve (opPayload richOffer.op) = none := by
  decide +kernel

/-- The board has room for the offer, the form says it, and yet the two sides disagree. -/
theorem forms_disagree : validateOffer richForm = .ok richOffer ∧
    emptyView.offers.has Checkpointed.post.id = false ∧
      ¬ OfferAgrees Checkpointed.curve emptyView Checkpointed.post 0 richForm := by
  obtain ⟨hok, hnone⟩ := richForm_posted
  refine ⟨hok, rfl, fun hagrees => ?_⟩
  obtain ⟨-, op, hop, -⟩ := (hagrees richOffer).mp hok
  rw [hnone] at hop
  exact nomatch hop

namespace Listed

open Checkpointed

/-- A fold of one offer. -/
def steps : List BoardStep := boardSteps curve [post] 5 ⟨byTs, bornAt, none⟩

def listed : Offer :=
  ⟨offerId, "maker", ⟨.bitcoin, 100000⟩, ⟨.litecoin, 9000000⟩, 100000, 100000, 3, 1443⟩

def lockHash : String := String.ofList (List.replicate 64 '0')

def swapKey : String := String.ofList (List.replicate 64 '1')

theorem taker : Taker curve (run boardStep emptyView steps) take listed lockHash swapKey where
  fresh := ⟨by decide, by decide +kernel, by decide +kernel⟩
  hash := by decide +kernel
  key := by decide +kernel

end Listed

open Checkpointed Listed in
/-- The theorem for a form that asks for too much, and for a take of the one offer of a fold. -/
theorem forms_agree_iff_listed :
    (OfferAgrees curve emptyView post 0 richForm ↔ WithinMoney richForm) ∧
      TakeAgrees curve (run boardStep emptyView steps) take 5 listed "0.001" lockHash
        swapKey := by
  refine ⟨(forms_agree_iff curve).1 richForm emptyView post 0 rfl, ?_⟩
  have hsteps : FoldSteps curve steps :=
    foldSteps_boardSteps curve 5 ⟨byTs, bornAt, none⟩ (by decide) (by decide +kernel)
  exact ((forms_agree_iff curve).2 steps hsteps offerId listed (by decide +kernel)).2 take 5 "0.001"
    lockHash swapKey taker

end Desktop

end Gavl
