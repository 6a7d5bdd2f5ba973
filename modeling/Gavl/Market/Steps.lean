import Gavl.Lib.Runs
import Gavl.Market.Fold

/-!
# The board as a transition system

What moves a board is the clock or an op, and `computeView` is one run of such steps. An op does
one of few things to the board; `Effect` lists them with the guards under which they happen.
-/

namespace Gavl

open Runs

/-- What moves the board: the clock, or an op at the height the clock shows. -/
inductive BoardStep where
  | advance (h : ℤ)
  | apply (w : Write) (op : Op) (h : ℤ)

def boardStep (view : View) : BoardStep → View
  | .advance h => advance view h
  | .apply w op h => (applyOp view w op h).1

/-- The steps of one write. -/
def stepsOf (K : Curve) (h : ℤ) (w : Write) : List BoardStep :=
  .advance h :: ((parseOp K w.payload).map (fun op => BoardStep.apply w op h)).toList

/-- The steps of `computeView`. -/
def boardSteps (K : Curve) (writes : List Write) (nowHeight : ℤ) (opts : FoldOptions) :
    List BoardStep :=
  (sortWrites (foldOrder opts nowHeight) writes).flatMap
    (fun w => stepsOf K (heightOf opts.bornAt nowHeight w) w) ++ [.advance nowHeight]

theorem run_stepsOf (K : Curve) (view : View) (h : ℤ) (w : Write) :
    run boardStep view (stepsOf K h w) = foldWrite K view w h := by
  unfold stepsOf foldWrite
  cases parseOp K w.payload with
  | none => rfl
  | some op => rfl

theorem computeView_eq_run (K : Curve) (writes : List Write) (nowHeight : ℤ)
    (opts : FoldOptions) :
    computeView K writes nowHeight opts
      = run boardStep (opts.base.getD emptyView) (boardSteps K writes nowHeight opts) := by
  have hfold : ∀ (l : List Write) (view : View),
      run boardStep view (l.flatMap (fun w => stepsOf K (heightOf opts.bornAt nowHeight w) w))
        = l.foldl (fun view w => foldWrite K view w (heightOf opts.bornAt nowHeight w)) view := by
    intro l
    induction l with
    | nil => intro view; rfl
    | cons w l ih =>
      intro view
      rw [List.flatMap_cons, run_append, run_stepsOf, ih, List.foldl_cons]
  unfold boardSteps
  rw [run_append, hfold]
  rfl

/-- The loop keeps what every write keeps. -/
theorem computeView_keeps {K : Curve} {writes : List Write} {now : ℤ} {opts : FoldOptions}
    (Q : View → Prop) (hbase : Q (opts.base.getD emptyView))
    (hwrite : ∀ w ∈ writes, ∀ view, Q view →
      Q (foldWrite K view w (heightOf opts.bornAt now w)))
    (hadvance : ∀ view, Q view → Q (advance view now)) : Q (computeView K writes now opts) := by
  have hfold : ∀ (ws : List Write) (view : View), (∀ w ∈ ws, w ∈ writes) → Q view →
      Q (ws.foldl (fun view w => foldWrite K view w (heightOf opts.bornAt now w)) view) := by
    intro ws
    induction ws with
    | nil => exact fun _ _ hview => hview
    | cons w ws ih =>
      intro view hws hview
      obtain ⟨hw, hws⟩ := List.forall_mem_cons.mp hws
      exact ih _ hws (hwrite w hw view hview)
  refine hadvance _ (hfold _ _ (fun w hw => ?_) hbase)
  exact (List.perm_insertionSort _ writes).mem_iff.mp hw

/-! ## What an op does -/

/-- A match as `offer.take` makes it. -/
def newMatch (w : Write) (offer : Offer) (fill : ℕ) (hash takerKey : String) (h : ℤ) : Match where
  id := w.id
  offerId := offer.id
  maker := offer.maker
  taker := w.writer
  takeSeq := w.seq
  makerChain := offer.give.chain
  makerAmount := fill
  makerRefundBlocks := defaultRefundBlocks offer.give.chain .counterparty
  takerChain := offer.want.chain
  takerAmount := proRata offer.give.amount offer.want.amount fill
  takerRefundBlocks := defaultRefundBlocks offer.want.chain .initiator
  hash := hash
  takerKey := takerKey
  makerKey := none
  status := .awaitingProofs
  takenAt := h
  proofDeadline := h + proofWindow
  pruneAt := h + matchLifetime offer.want.chain
  makerProof := none
  takerProof := none
  makerLock := none
  takerLock := none
  cancelled := none

/-- A party's proof as it is recorded. -/
inductive Proved (m : Match) : Match → Prop
  | maker {proof : FundsProof} {key : String} (hnew : m.makerProof = none) :
      Proved m { m with makerProof := some proof, makerKey := some key }
  | taker {proof : FundsProof} (hnew : m.takerProof = none) :
      Proved m { m with takerProof := some proof }

/-- A party's lock hint as it is recorded. -/
inductive Hinted (m : Match) : Match → Prop
  | maker {lock : LockHint} (hnew : m.makerLock = none) : Hinted m { m with makerLock := some lock }
  | taker {lock : LockHint} (hnew : m.takerLock = none) : Hinted m { m with takerLock := some lock }

/-- The match as an abort at height `h` leaves it. -/
def Match.aborted (m : Match) (h : ℤ) : Match :=
  { m with status := .cancelled, cancelled := some ⟨h, .abort⟩ }

/-- What an op by `w` at height `h` does to the board, with the reason if it is rejected. -/
inductive Effect (view : View) (w : Write) (h : ℤ) : Op → View × Option String → Prop
  | rejected {op : Op} {reason : String} : Effect view w h op (view, some reason)
  | post {give want : Leg} {minFill expiresIn : ℕ} (hgive : dust give.chain ≤ give.amount)
      (hwant : dust want.chain ≤ want.amount) (hnew : view.offers.get? w.id = none) :
      Effect view w h (.offerPost give want minFill expiresIn)
        ({ view with
            offers := view.offers.set w.id
              ⟨w.id, w.writer, give, want, minFill, give.amount, h, h + expiresIn⟩ }, none)
  | cancel {offerId : String} {offer : Offer} (hget : view.offers.get? offerId = some offer)
      (hmaker : offer.maker = w.writer) :
      Effect view w h (.offerCancel offerId)
        ({ view with offers := view.offers.delete offerId }, none)
  | take {offerId hash takerKey : String} {fill : ℕ} {offer : Offer}
      (hget : view.offers.get? offerId = some offer) (hcap : fill ≤ offer.remaining)
      (hgive : dust offer.give.chain ≤ fill)
      (hwant : dust offer.want.chain ≤ proRata offer.give.amount offer.want.amount fill)
      (hnew : view.matches.get? w.id = none)
      (hhash : ∀ m ∈ view.matches.values, m.hash ≠ hash) :
      Effect view w h (.offerTake offerId fill hash takerKey)
        (⟨view.offers.set offerId { offer with remaining := offer.remaining - fill },
          view.matches.set w.id (newMatch w offer fill hash takerKey h)⟩, none)
  | proof {matchId : String} {makerKey : Option String} {proof : FundsProof} {m m' : Match}
      (hget : view.matches.get? matchId = some m) (hstatus : m.status = .awaitingProofs)
      (hproved : Proved m m') :
      Effect view w h (.swapProof matchId makerKey proof)
        ({ view with «matches» := view.matches.set matchId m'.escrowed }, none)
  | locked {matchId txid : String} {vout : ℕ} {m m' : Match}
      (hget : view.matches.get? matchId = some m) (hstatus : m.status = .escrow)
      (hhint : Hinted m m') :
      Effect view w h (.swapLocked matchId txid vout)
        ({ view with «matches» := view.matches.set matchId m' }, none)
  | abort {matchId : String} {m : Match} (hget : view.matches.get? matchId = some m)
      (hmaker : w.writer = m.maker) (hstatus : m.status ≠ .cancelled) (hlock : m.makerLock = none) :
      Effect view w h (.swapAbort matchId)
        (restoreCapacity
          { view with «matches» := view.matches.set matchId (m.aborted h) } m, none)

theorem OrderedMap.get?_of_not_has {κ ν : Type*} [DecidableEq κ] {m : OrderedMap κ ν} {k : κ}
    (h : ¬m.has k = true) : m.get? k = none := by
  unfold OrderedMap.has at h
  simpa using h

variable {view : View} {w : Write} {h : ℤ}

theorem effect_offerPost {give want : Leg} {minFill expiresIn : ℕ} :
    Effect view w h (.offerPost give want minFill expiresIn)
      (applyOfferPost view w give want minFill expiresIn h) := by
  unfold applyOfferPost
  split_ifs with hleg hfill hhas
  · exact .rejected
  · exact .rejected
  · exact .rejected
  · push Not at hleg
    exact .post hleg.1 hleg.2 (OrderedMap.get?_of_not_has hhas)

theorem effect_offerCancel {offerId : String} :
    Effect view w h (.offerCancel offerId) (applyOfferCancel view w offerId) := by
  unfold applyOfferCancel
  cases hget : view.offers.get? offerId with
  | none => exact .rejected
  | some offer =>
    simp only
    split_ifs with hmaker
    · exact .rejected
    · exact .cancel hget (not_not.mp hmaker)

theorem effect_offerTake {offerId hash takerKey : String} {fill : ℕ} :
    Effect view w h (.offerTake offerId fill hash takerKey)
      (applyOfferTake view w offerId fill hash takerKey h) := by
  unfold applyOfferTake
  cases hget : view.offers.get? offerId with
  | none => exact .rejected
  | some offer =>
    simp only
    split_ifs with hself hmin hcap hdust hhas hhash
    · exact .rejected
    · exact .rejected
    · exact .rejected
    · exact .rejected
    · exact .rejected
    · exact .rejected
    · push Not at hdust
      refine .take hget (not_lt.mp hcap) hdust.1 hdust.2 (OrderedMap.get?_of_not_has hhas) ?_
      intro m hm heq
      exact hhash (List.any_eq_true.mpr ⟨m, hm, by simpa using heq⟩)

theorem effect_swapProof {matchId : String} {makerKey : Option String} {proof : FundsProof} :
    Effect view w h (.swapProof matchId makerKey proof)
      (applySwapProof view w matchId makerKey proof h) := by
  unfold applySwapProof
  cases hget : view.matches.get? matchId with
  | none => exact .rejected
  | some m =>
    simp only
    split_ifs with hstate hmaker hproof hkey hsame hchain htaker hproof' hkey' hchain'
    all_goals first | exact .rejected | skip
    · -- the maker's proof sets the key it carries
      obtain ⟨key, rfl⟩ := Option.ne_none_iff_exists'.mp hkey
      push Not at hstate
      exact .proof hget hstate.1 (.maker (by simpa using hproof))
    · push Not at hstate
      exact .proof hget hstate.1 (.taker (by simpa using hproof'))

theorem effect_swapLocked {matchId txid : String} {vout : ℕ} :
    Effect view w h (.swapLocked matchId txid vout)
      (applySwapLocked view w matchId txid vout h) := by
  unfold applySwapLocked
  cases hget : view.matches.get? matchId with
  | none => exact .rejected
  | some m =>
    simp only
    split_ifs with hstatus hmaker hlock htaker hlock'
    · exact .rejected
    · exact .rejected
    · exact .locked hget (not_not.mp hstatus) (.maker (by simpa using hlock))
    · exact .rejected
    · exact .locked hget (not_not.mp hstatus) (.taker (by simpa using hlock'))
    · exact .rejected

theorem effect_swapAbort {matchId : String} :
    Effect view w h (.swapAbort matchId) (applySwapAbort view w matchId h) := by
  unfold applySwapAbort
  cases hget : view.matches.get? matchId with
  | none => exact .rejected
  | some m =>
    simp only
    split_ifs with hmaker hstatus hlock
    · exact .rejected
    · exact .rejected
    · exact .rejected
    · exact .abort hget (not_not.mp hmaker) hstatus (by simpa using hlock)

/-- Every op does one of the things listed. -/
theorem applyOp_effect (view : View) (w : Write) (op : Op) (h : ℤ) :
    Effect view w h op (applyOp view w op h) := by
  cases op with
  | offerPost give want minFill expiresIn => exact effect_offerPost
  | offerCancel offerId => exact effect_offerCancel
  | offerTake offerId fill hash takerKey => exact effect_offerTake
  | swapProof matchId makerKey proof => exact effect_swapProof
  | swapLocked matchId txid vout => exact effect_swapLocked
  | swapAbort matchId => exact effect_swapAbort

end Gavl
