import Gavl.Desktop.Format
import Gavl.Market.Payload

/-!
# The market page's forms

What the desktop checks of a new offer and of a take before it asks the daemon to post them.
-/

namespace Gavl

namespace Desktop

/-! ## Chains -/

def symbol : Chain → String
  | .bitcoin => "BTC"
  | .litecoin => "LTC"

def other : Chain → Chain
  | .bitcoin => .litecoin
  | .litecoin => .bitcoin

/-- Smallest HTLC output the chain relays, in base units. -/
def dust : Chain → ℕ
  | .bitcoin => 330
  | .litecoin => 3300

/-! ## Forms -/

def maxExpiryHours : ℕ := 48

/-- Anchors per hour at the 60 s target. -/
def anchorsPerHour : ℕ := 60

/-- A validated new offer, in base units and anchors. -/
structure NewOffer where
  give : Chain
  giveAmount : ℕ
  wantAmount : ℕ
  minFill : ℕ
  expiresIn : ℕ
deriving DecidableEq

/-- What is typed into the new-offer form. -/
structure OfferForm where
  give : Chain
  giveText : String
  wantText : String
  minText : String
  hoursText : String

/-- `map_err`. -/
def Stop.map {ε ε' : Type} (f : ε → ε') : Stop ε → Stop ε'
  | panic => panic
  | err e => err (f e)

/-- A coin text, with the field it was typed into in front of what is wrong with it. -/
def parseField (label input : String) : Except (Stop String) ℕ :=
  (parseCoin input).mapError (Stop.map fun e => label ++ e.message)

/-- The smallest fill of an offer of `giveAmount`: all of it where none is typed in. -/
def minFillOf (minText : String) (giveAmount : ℕ) : Except (Stop String) ℕ :=
  if trim minText.toList = [] then .ok giveAmount else parseField "Minimum fill: " minText

def invalidHours : String := "Expires in: whole hours, 1–48."

def validateOffer (form : OfferForm) : Except (Stop String) NewOffer := do
  let want := other form.give
  let giveAmount ← parseField "You give: " form.giveText
  let wantAmount ← parseField "You want: " form.wantText
  if giveAmount < dust form.give then
    .error (.err ("You give: at least " ++ coin (dust form.give) ++ " " ++ symbol form.give ++ "."))
  else if wantAmount < dust want then
    .error (.err ("You want: at least " ++ coin (dust want) ++ " " ++ symbol want ++ "."))
  else do
    let minFill ← minFillOf form.minText giveAmount
    if giveAmount < minFill then
      .error (.err "Minimum fill can't exceed the amount you give.")
    else if minFill < dust form.give ∨ proRata minFill giveAmount wantAmount < dust want then
      .error (.err ("Minimum fill is too small: one leg of the smallest swap would be below " ++
        "the dust limit."))
    else do
      let hours ← okOr invalidHours (parseUnsigned u32Max (trim form.hoursText.toList))
      if hours < 1 ∨ maxExpiryHours < hours then .error (.err invalidHours)
      else do
        let expiresIn ← fitting u32Max (hours * anchorsPerHour)
        return ⟨form.give, giveAmount, wantAmount, minFill, expiresIn⟩

/-- The fill that is typed in and what the taker pays for it. -/
def validateTake (offer : Offer) (fillText : String) : Except (Stop String) (ℕ × ℕ) :=
  if offer.remaining < offer.minFill then
    .error (.err "What's left of this offer is below its minimum fill; it can't be taken.")
  else do
    let sym := symbol offer.give.chain
    let fill ← parseField "" fillText
    if fill < offer.minFill then
      .error (.err ("At least " ++ coin offer.minFill ++ " " ++ sym ++ " (the offer's minimum fill)."))
    else if offer.remaining < fill then
      .error (.err ("At most " ++ coin offer.remaining ++ " " ++ sym ++
        " (what's left of the offer)."))
    else
      let pay := proRata fill offer.give.amount offer.want.amount
      if fill < dust offer.give.chain ∨ pay < dust offer.want.chain then
        .error (.err "Too small: one side of the swap would be below the dust limit.")
      else .ok (fill, pay)

/-- The op a validated offer is posted as. -/
def NewOffer.op (o : NewOffer) : Op :=
  .offerPost ⟨o.give, o.giveAmount⟩ ⟨other o.give, o.wantAmount⟩ o.minFill o.expiresIn

end Desktop

end Gavl
