import Gavl.Market.LifecycleTheorems

/-!
# Capacity is conserved

What an offer can still give and what was taken from it add up to what it was posted with,
whatever order matches expire, are aborted and are dropped in. The board forgets matches, so
the law is about a board with its books: every take that was applied, and every match the clock
has dropped as it stood then.
-/

namespace Gavl

open Runs

/-! ## Books -/

/-- A take that was applied, with the fill and the want-leg owed for it. -/
structure Take where
  id : String
  offerId : String
  fill : ℕ
  owed : ℕ
deriving DecidableEq

/-- A board with its history. -/
structure Books where
  view : View
  /-- The matches the clock has dropped, as they stood then. -/
  closed : List Match
  taken : List Take

namespace Books

def empty : Books := ⟨emptyView, [], []⟩

/-- The matches the clock drops at `h`, as they stand then. -/
def droppedAt (view : View) (h : ℤ) : List Match :=
  (view.matches.values.filter (fun m => decide (m.pruneAt ≤ h))).map (fun m => m.expire h)

/-- The take an op makes, if it is a take and is not rejected. -/
def takeOf (view : View) (w : Write) (op : Op) (h : ℤ) : List Take :=
  match op with
  | .offerTake offerId fill hash takerKey =>
    match (applyOp view w (.offerTake offerId fill hash takerKey) h).2, view.offers.get? offerId with
    | none, some offer => [⟨w.id, offerId, fill, proRata offer.give.amount offer.want.amount fill⟩]
    | _, _ => []
  | _ => []

def step (b : Books) : BoardStep → Books
  | .advance h => ⟨advance b.view h, b.closed ++ droppedAt b.view h, b.taken⟩
  | .apply w op h => ⟨(applyOp b.view w op h).1, b.closed, b.taken ++ takeOf b.view w op h⟩

variable (b : Books)

/-- Every match there has been. -/
def records : List Match := b.view.matches.values ++ b.closed

/-- The match of a take was cancelled. -/
def cancelled (id : String) : Bool :=
  b.records.any (fun m => decide (m.id = id) && decide (m.status = .cancelled))

/-- The takes against an offer whose match was not cancelled. -/
def standing (offerId : String) : List Take :=
  b.taken.filter (fun t => decide (t.offerId = offerId) && !b.cancelled t.id)

def fills (offerId : String) : ℕ := ((b.standing offerId).map Take.fill).sum

def owed (offerId : String) : ℕ := ((b.standing offerId).map Take.owed).sum

/-- Nothing taken from an offer is lost or given back twice. -/
structure Conserved : Prop where
  capacity : ∀ k o, b.view.offers.get? k = some o → o.remaining + b.fills k = o.give.amount
  want_le_proRata : ∀ k o, b.view.offers.get? k = some o →
    b.owed k ≤ proRata o.give.amount o.want.amount (b.fills k)
  want_le : ∀ k o, b.view.offers.get? k = some o → b.owed k ≤ o.want.amount
  give_dust : ∀ m ∈ b.view.matches.values, dust m.makerChain ≤ m.makerAmount
  want_dust : ∀ m ∈ b.view.matches.values, dust m.takerChain ≤ m.takerAmount

theorem run_view (steps : List BoardStep) :
    (run step b steps).view = run boardStep b.view steps := by
  induction steps generalizing b with
  | nil => rfl
  | cons s steps ih =>
    rw [run_cons, ih, run_cons]
    cases s <;> rfl

end Books

/-! ## Pro rata -/

/-- Rounding down piece by piece gives no more than rounding down at the end. -/
theorem sum_proRata_le (give want : ℕ) (fills : List ℕ) :
    (fills.map (proRata give want)).sum ≤ proRata give want fills.sum := by
  unfold proRata
  induction fills with
  | nil => simp
  | cons fill fills ih =>
    calc (List.map (fun fill => fill * want / give) (fill :: fills)).sum
        = fill * want / give + (fills.map (fun fill => fill * want / give)).sum := by simp
      _ ≤ fill * want / give + fills.sum * want / give := by omega
      _ ≤ (fill * want + fills.sum * want) / give := Nat.div_add_div_le_add_div
      _ = (fill :: fills).sum * want / give := by rw [List.sum_cons, Nat.add_mul]

/-- A fill of no more than the whole owes no more than the whole. -/
theorem proRata_le {give want fill : ℕ} (h : fill ≤ give) : proRata give want fill ≤ want := by
  unfold proRata
  by_cases hgive : give = 0
  · rw [hgive, Nat.div_zero]
    omega
  · refine Nat.div_le_of_le_mul ?_
    exact Nat.mul_le_mul_right want h

/-! ## Values of a map -/

theorem OrderedMap.values_set_of_new {κ ν : Type*} [DecidableEq κ] {m : OrderedMap κ ν} {k : κ}
    (h : m.get? k = none) (v : ν) : (m.set k v).values = m.values ++ [v] := by
  unfold OrderedMap.values
  rw [OrderedMap.set_entries_of_new h, List.map_append, List.map_singleton]

/-- Overwriting a key changes the values in one place. -/
theorem OrderedMap.values_set_of_get? {κ ν : Type*} [DecidableEq κ] {m : OrderedMap κ ν} {k : κ}
    {v : ν} (h : m.get? k = some v) (v' : ν) :
    ∃ pre post, m.values = pre ++ v :: post ∧ (m.set k v').values = pre ++ v' :: post := by
  obtain ⟨pre, post, hsplit⟩ := List.append_of_mem ((OrderedMap.get?_eq_some_iff m k v).mp h)
  refine ⟨pre.map Prod.snd, post.map Prod.snd, ?_, ?_⟩
  · unfold OrderedMap.values
    rw [hsplit, List.map_append, List.map_cons]
  · unfold OrderedMap.values
    rw [OrderedMap.set_entries_of_split hsplit v', List.map_append, List.map_cons]

/-! ## Books that balance -/

/-- What a match holds of an offer. -/
def Match.holds (m : Match) (offerId : String) : ℕ :=
  if m.offerId = offerId ∧ m.status ≠ .cancelled then m.makerAmount else 0

/-- The take a match comes from. -/
def Match.take (m : Match) : Take := ⟨m.id, m.offerId, m.makerAmount, m.takerAmount⟩

namespace Books

variable {b : Books} {seen : List String} {h : ℤ} {k : String} {o : Offer} {m m' : Match}

/-- What the matches there have been hold of an offer. -/
def held (b : Books) (k : String) : ℕ := (b.records.map (fun m => m.holds k)).sum

/-- Books kept over writes whose ids are among `seen`. -/
structure Balanced (seen : List String) (b : Books) : Prop where
  /-- Each take made one match. -/
  taken : (b.records.map Match.take).Perm b.taken
  ids : (b.taken.map Take.id).Nodup
  seen_take : ∀ t ∈ b.taken, t.id ∈ seen ∧ t.offerId ∈ seen
  seen_offer : ∀ k o, b.view.offers.get? k = some o → k ∈ seen ∧ o.id = k
  capacity : ∀ k o, b.view.offers.get? k = some o → o.remaining + b.held k = o.give.amount
  proRata : ∀ t ∈ b.taken, ∀ o, b.view.offers.get? t.offerId = some o →
    t.owed = Gavl.proRata o.give.amount o.want.amount t.fill
  dust : ∀ m ∈ b.view.matches.values,
    Gavl.dust m.makerChain ≤ m.makerAmount ∧ Gavl.dust m.takerChain ≤ m.takerAmount

theorem Balanced.empty : Balanced [] Books.empty where
  taken := List.Perm.refl _
  ids := by simp [Books.empty]
  seen_take := by simp [Books.empty]
  seen_offer := by simp [Books.empty, emptyView]
  capacity := by simp [Books.empty, emptyView]
  proRata := by simp [Books.empty]
  dust := by simp [Books.empty, emptyView, OrderedMap.values]

/-- Takes of distinct ids are told apart by them, so a take is cancelled when its match is. -/
theorem Balanced.cancelled_take (hb : Balanced seen b) (hm : m ∈ b.records) :
    b.cancelled m.id = decide (m.status = .cancelled) := by
  have hids : (b.records.map (fun m => m.id)).Nodup := by
    have hperm := hb.taken.map Take.id
    rw [List.map_map] at hperm
    exact hperm.nodup_iff.mpr hb.ids
  rw [Bool.eq_iff_iff]
  unfold Books.cancelled
  rw [List.any_eq_true, decide_eq_true_eq]
  constructor
  · rintro ⟨m', hm', heq⟩
    simp only [Bool.and_eq_true, decide_eq_true_eq] at heq
    rw [List.inj_on_of_nodup_map hids hm hm' heq.1.symm]
    exact heq.2
  · intro hstatus
    exact ⟨m, hm, by simp [hstatus]⟩

/-- A sum over the standing takes is a sum over the matches that hold something. -/
theorem Balanced.sum_standing (hb : Balanced seen b) (k : String) (f : Take → ℕ) :
    ((b.standing k).map f).sum
      = (b.records.map (fun m =>
          if m.offerId = k ∧ m.status ≠ .cancelled then f m.take else 0)).sum := by
  have hfilter : ∀ l : List Take,
      ((l.filter (fun t => decide (t.offerId = k) && !b.cancelled t.id)).map f).sum
        = (l.map (fun t => if t.offerId = k ∧ b.cancelled t.id = false then f t else 0)).sum := by
    intro l
    induction l with
    | nil => rfl
    | cons t l ih =>
      rw [List.filter_cons, List.map_cons, List.sum_cons, ← ih]
      by_cases ht : t.offerId = k ∧ b.cancelled t.id = false
      · rw [if_pos (by simp [ht]), if_pos ht, List.map_cons, List.sum_cons]
      · rw [if_neg (by simpa using ht), if_neg ht, Nat.zero_add]
  unfold standing
  rw [hfilter, ← (hb.taken.map _).sum_eq, List.map_map]
  refine congrArg List.sum (List.map_congr_left fun m hm => ?_)
  have hcancelled := hb.cancelled_take hm
  show (if m.offerId = k ∧ b.cancelled m.id = false then f m.take else 0) = _
  rw [hcancelled]
  simp

theorem Balanced.fills_eq (hb : Balanced seen b) (k : String) : b.fills k = b.held k :=
  hb.sum_standing k Take.fill

theorem Balanced.conserved (hb : Balanced seen b) : b.Conserved := by
  have hcap : ∀ k o, b.view.offers.get? k = some o → o.remaining + b.fills k = o.give.amount :=
    fun k o hget => by rw [hb.fills_eq]; exact hb.capacity k o hget
  have howed : ∀ k o, b.view.offers.get? k = some o →
      b.owed k ≤ Gavl.proRata o.give.amount o.want.amount (b.fills k) := by
    intro k o hget
    have heq : (b.standing k).map Take.owed
        = ((b.standing k).map Take.fill).map (Gavl.proRata o.give.amount o.want.amount) := by
      rw [List.map_map]
      refine List.map_congr_left fun t ht => ?_
      obtain ⟨hmem, hoffer⟩ := List.mem_filter.mp ht
      simp only [Bool.and_eq_true, decide_eq_true_eq] at hoffer
      exact hb.proRata t hmem o (by rw [hoffer.1]; exact hget)
    unfold owed fills
    rw [heq]
    exact sum_proRata_le _ _ _
  refine ⟨hcap, howed, fun k o hget => ?_, fun m hm => (hb.dust m hm).1, fun m hm => (hb.dust m hm).2⟩
  refine (howed k o hget).trans (proRata_le ?_)
  have := hcap k o hget
  omega

/-! ## The clock -/

/-- What a match holds, and what it gives back when it times out. -/
theorem holds_expire (m : Match) (h : ℤ) (k : String) :
    (m.expire h).holds k + m.owes h k = m.holds k := by
  cases hout : m.timedOut h with
  | false =>
    rw [Match.expire_of_not_timedOut hout]
    simp [Match.owes, hout]
  | true =>
    have hstatus : m.status = .awaitingProofs := by
      unfold Match.timedOut at hout
      simp only [Bool.and_eq_true, decide_eq_true_eq] at hout
      exact hout.1
    have hexpired : (m.expire h).status = .cancelled := by
      unfold Match.expire
      rw [hout]
      rfl
    unfold Match.holds Match.owes
    simp [hexpired, hout, hstatus]

theorem expire_take (m : Match) (h : ℤ) : (m.expire h).take = m.take := by
  unfold Match.expire
  split_ifs <;> rfl

/-- What the clock keeps and what it drops is every match, expired. -/
theorem records_advance (b : Books) (h : ℤ) :
    (b.step (.advance h)).records.Perm (b.view.matches.values.map (fun m => m.expire h) ++ b.closed) := by
  have hkept : b.view.matches.values.filterMap (keptMatch h)
      = (b.view.matches.values.filter (fun m => !decide (m.pruneAt ≤ h))).map (fun m => m.expire h) := by
    induction b.view.matches.values with
    | nil => rfl
    | cons m l ih =>
      by_cases hprune : m.pruneAt ≤ h
      · rw [List.filterMap_cons_none (by simp [keptMatch, hprune]),
          List.filter_cons_of_neg (by simp [hprune]), ih]
      · rw [List.filterMap_cons_some (by simp [keptMatch, hprune]; rfl),
          List.filter_cons_of_pos (by simp [hprune]), List.map_cons, ih]
  unfold records step droppedAt
  simp only
  rw [values_advance, hkept]
  have hsplit := (List.filter_append_perm (fun m : Match => decide (m.pruneAt ≤ h))
    b.view.matches.values).map (fun m => m.expire h)
  rw [List.map_append] at hsplit
  refine (List.perm_append_comm_assoc _ _ _).trans ?_
  exact (List.perm_append_comm.trans (List.perm_append_comm.trans hsplit |>.append_right _))

theorem Balanced.held_advance (b : Books) (h : ℤ) (k : String) :
    (b.step (.advance h)).held k + Gavl.owed h k b.view.matches.values = b.held k := by
  have hsum : ∀ l : List Match,
      ((l.map (fun m => m.expire h)).map (fun m => m.holds k)).sum + Gavl.owed h k l
        = (l.map (fun m => m.holds k)).sum := by
    intro l
    induction l with
    | nil => rfl
    | cons m l ih =>
      have hm := holds_expire m h k
      simp only [List.map_cons, List.sum_cons, owed_cons]
      omega
  have hvalues := hsum b.view.matches.values
  unfold held
  rw [((records_advance b h).map _).sum_eq, List.map_append, List.sum_append]
  unfold records
  rw [List.map_append, List.sum_append]
  omega

theorem get?_offers_advance {view : View} (hget : (advance view h).offers.get? k = some o) :
    ∃ o', view.offers.get? k = some o' ∧ o = o'.restored (Gavl.owed h k view.matches.values) := by
  rw [OrderedMap.get?_eq_some_iff, offers_advance, List.mem_filterMap] at hget
  obtain ⟨e, he, hkept⟩ := hget
  obtain ⟨o', ho', heq⟩ := Option.map_eq_some_iff.mp hkept
  obtain ⟨rfl, rfl⟩ := Prod.mk.inj heq
  unfold keptOffer at ho'
  split_ifs at ho'
  exact ⟨e.2, (OrderedMap.get?_eq_some_iff _ _ _).mpr he, (Option.some.inj ho').symm⟩

theorem Balanced.advance (hb : Balanced seen b) (h : ℤ) : Balanced seen (b.step (.advance h)) := by
  have htakes : ((b.step (.advance h)).records.map Match.take).Perm b.taken := by
    refine ((records_advance b h).map Match.take).trans ?_
    have hsame : (b.view.matches.values.map (fun m => m.expire h) ++ b.closed).map Match.take
        = b.records.map Match.take := by
      unfold records
      rw [List.map_append, List.map_append, List.map_map]
      refine congrArg (· ++ _) (List.map_congr_left fun m _ => ?_)
      exact expire_take m h
    rw [hsame]
    exact hb.taken
  constructor
  · exact htakes
  · exact hb.ids
  · exact hb.seen_take
  · intro k o hget
    obtain ⟨o', ho', rfl⟩ := get?_offers_advance hget
    exact hb.seen_offer k o' ho'
  · intro k o hget
    obtain ⟨o', ho', rfl⟩ := get?_offers_advance hget
    have hcap := hb.capacity k o' ho'
    have hheld := held_advance b h k
    show o'.remaining + Gavl.owed h k b.view.matches.values + _ = o'.give.amount
    omega
  · intro t ht o hget
    obtain ⟨o', ho', rfl⟩ := get?_offers_advance hget
    exact hb.proRata t ht o' ho'
  · intro m hm
    change m ∈ (Gavl.advance b.view h).matches.values at hm
    rw [values_advance, List.mem_filterMap] at hm
    obtain ⟨m', hm', hkept⟩ := hm
    rw [(keptMatch_eq_some.mp hkept).2]
    have := hb.dust m' hm'
    unfold Match.expire
    split_ifs <;> exact this

/-! ## Ops -/

theorem Balanced.mono (hb : Balanced seen b) (id : String) : Balanced (id :: seen) b where
  taken := hb.taken
  ids := hb.ids
  seen_take := fun t ht =>
    ⟨List.mem_cons_of_mem _ (hb.seen_take t ht).1, List.mem_cons_of_mem _ (hb.seen_take t ht).2⟩
  seen_offer := fun k o hget =>
    ⟨List.mem_cons_of_mem _ (hb.seen_offer k o hget).1, (hb.seen_offer k o hget).2⟩
  capacity := hb.capacity
  proRata := hb.proRata
  dust := hb.dust

/-- Nothing is held of an offer that no write so far has posted. -/
theorem Balanced.held_of_not_seen (hb : Balanced seen b) (hk : k ∉ seen) : b.held k = 0 := by
  unfold held
  rw [List.sum_eq_zero_iff]
  intro x hx
  obtain ⟨m, hm, rfl⟩ := List.mem_map.mp hx
  have htake : m.take ∈ b.taken := hb.taken.mem_iff.mp (List.mem_map_of_mem hm)
  unfold Match.holds
  rw [if_neg]
  rintro ⟨rfl, _⟩
  exact hk (hb.seen_take _ htake).2

/-- One match is replaced by one of the same take, and what it no longer holds goes back. -/
theorem Balanced.replace (hb : Balanced seen b) {view' : View} {matchId : String}
    (hget : b.view.matches.get? matchId = some m)
    (hmatches : view'.matches = b.view.matches.set matchId m') (htake : m'.take = m.take)
    (hchains : m'.makerChain = m.makerChain ∧ m'.takerChain = m.takerChain)
    (hoffers : ∀ k o', view'.offers.get? k = some o' → ∃ o x, b.view.offers.get? k = some o ∧
      o' = o.restored x ∧ m'.holds k + x = m.holds k) :
    Balanced seen ⟨view', b.closed, b.taken⟩ := by
  obtain ⟨pre, post, hold, hnew⟩ := OrderedMap.values_set_of_get? hget m'
  rw [← hmatches] at hnew
  have hdust : ∀ n ∈ view'.matches.values, n ∈ b.view.matches.values ∨ n = m' := by
    intro n hn
    rw [hnew] at hn
    rw [hold]
    simp only [List.mem_append, List.mem_cons] at hn ⊢
    tauto
  have hm : m ∈ b.view.matches.values := by rw [hold]; simp
  constructor
  · show ((view'.matches.values ++ b.closed).map Match.take).Perm b.taken
    have hsame : (view'.matches.values ++ b.closed).map Match.take = b.records.map Match.take := by
      unfold records
      rw [hnew, hold]
      simp [htake]
    rw [hsame]
    exact hb.taken
  · exact hb.ids
  · exact hb.seen_take
  · intro k o' hget'
    obtain ⟨o, x, ho, rfl, _⟩ := hoffers k o' hget'
    exact hb.seen_offer k o ho
  · intro k o' hget'
    obtain ⟨o, x, ho, rfl, hholds⟩ := hoffers k o' hget'
    have hcap := hb.capacity k o ho
    unfold held records at hcap ⊢
    simp only [hold, hnew, List.map_append, List.map_cons, List.sum_append, List.sum_cons] at hcap ⊢
    show o.remaining + x + _ = o.give.amount
    omega
  · intro t ht o' hget'
    obtain ⟨o, x, ho, rfl, _⟩ := hoffers _ o' hget'
    exact hb.proRata t ht o ho
  · intro n hn
    obtain hn | rfl := hdust n hn
    · exact hb.dust n hn
    · have hlegs := hb.dust m hm
      have hgive : n.makerAmount = m.makerAmount := congrArg Take.fill htake
      have hwant : n.takerAmount = m.takerAmount := congrArg Take.owed htake
      rw [hchains.1, hchains.2, hgive, hwant]
      exact hlegs

/-- A match that holds what it held, on a board with the same offers. -/
theorem Balanced.relabel (hb : Balanced seen b) {matchId : String}
    (hget : b.view.matches.get? matchId = some m) (hterms : m'.terms = m.terms)
    (hlive : m.status ≠ .cancelled ∧ m'.status ≠ .cancelled) :
    Balanced seen
      ⟨{ b.view with «matches» := b.view.matches.set matchId m' }, b.closed, b.taken⟩ := by
  have hfields : m'.take = m.take ∧ m'.makerChain = m.makerChain ∧ m'.takerChain = m.takerChain := by
    have htake := congrArg Match.take hterms
    have hmaker := congrArg Match.makerChain hterms
    have htaker := congrArg Match.takerChain hterms
    exact ⟨htake, hmaker, htaker⟩
  refine hb.replace hget rfl hfields.1 hfields.2 fun k o hk => ⟨o, 0, hk, rfl, ?_⟩
  have hoffer : m'.offerId = m.offerId := congrArg Take.offerId hfields.1
  have hgive : m'.makerAmount = m.makerAmount := congrArg Take.fill hfields.1
  unfold Match.holds
  rw [hoffer, hgive, Nat.add_zero]
  simp [hlive.1, hlive.2]

theorem Balanced.post (hb : Balanced seen b) {w : Write} {offer : Offer} (hid : w.id ∉ seen)
    (hoffer : offer.id = w.id) (hfull : offer.remaining = offer.give.amount) :
    Balanced (w.id :: seen)
      ⟨{ b.view with offers := b.view.offers.set w.id offer }, b.closed, b.taken⟩ := by
  have hnone : b.held w.id = 0 := hb.held_of_not_seen hid
  -- no take was made against an offer that is only now posted
  have hfresh : ∀ t ∈ b.taken, t.offerId ≠ w.id := fun t ht heq =>
    hid (heq ▸ (hb.seen_take t ht).2)
  have hb := hb.mono w.id
  have hold : ∀ k o, (b.view.offers.set w.id offer).get? k = some o →
      w.id = k ∧ o = offer ∨ b.view.offers.get? k = some o := by
    intro k o hget
    rw [OrderedMap.get?_set] at hget
    split_ifs at hget with hk
    · exact .inl ⟨hk, (Option.some.inj hget).symm⟩
    · exact .inr hget
  refine ⟨hb.taken, hb.ids, hb.seen_take, ?_, ?_, ?_, hb.dust⟩
  · intro k o hget
    obtain ⟨rfl, rfl⟩ | hget := hold k o hget
    · exact ⟨List.mem_cons_self, hoffer⟩
    · exact hb.seen_offer k o hget
  · intro k o hget
    obtain ⟨rfl, rfl⟩ | hget := hold k o hget
    · show o.remaining + b.held w.id = o.give.amount
      omega
    · exact hb.capacity k o hget
  · intro t ht o hget
    obtain ⟨hk, rfl⟩ | hget := hold _ o hget
    · exact absurd hk.symm (hfresh t ht)
    · exact hb.proRata t ht o hget

theorem Balanced.cancel (hb : Balanced seen b) (offerId : String) :
    Balanced seen ⟨{ b.view with offers := b.view.offers.delete offerId }, b.closed, b.taken⟩ := by
  have hold : ∀ k o, (b.view.offers.delete offerId).get? k = some o →
      b.view.offers.get? k = some o := by
    intro k o hget
    rw [OrderedMap.get?_delete] at hget
    split_ifs at hget
    exact hget
  exact ⟨hb.taken, hb.ids, hb.seen_take, fun k o hget => hb.seen_offer k o (hold k o hget),
    fun k o hget => hb.capacity k o (hold k o hget),
    fun t ht o hget => hb.proRata t ht o (hold _ o hget), hb.dust⟩

theorem Balanced.take (hb : Balanced seen b) {w : Write} {offerId hash takerKey : String}
    {fill : ℕ} {offer : Offer} (hid : w.id ∉ seen)
    (hget : b.view.offers.get? offerId = some offer) (hcap : fill ≤ offer.remaining)
    (hgive : Gavl.dust offer.give.chain ≤ fill)
    (hwant : Gavl.dust offer.want.chain ≤ Gavl.proRata offer.give.amount offer.want.amount fill)
    (hnew : b.view.matches.get? w.id = none) :
    Balanced (w.id :: seen)
      ⟨⟨b.view.offers.set offerId { offer with remaining := offer.remaining - fill },
          b.view.matches.set w.id (newMatch w offer fill hash takerKey h)⟩, b.closed,
        b.taken ++ [⟨w.id, offerId, fill, Gavl.proRata offer.give.amount offer.want.amount fill⟩]⟩ := by
  have hfresh : w.id ∉ b.taken.map Take.id := by
    intro hmem
    obtain ⟨t, ht, heq⟩ := List.mem_map.mp hmem
    exact hid (heq ▸ (hb.seen_take t ht).1)
  have hoffer : offerId ∈ seen ∧ offer.id = offerId := hb.seen_offer offerId offer hget
  have hvalues := OrderedMap.values_set_of_new hnew (newMatch w offer fill hash takerKey h)
  have htake : (newMatch w offer fill hash takerKey h).take
      = ⟨w.id, offerId, fill, Gavl.proRata offer.give.amount offer.want.amount fill⟩ := by
    rw [← hoffer.2]
    rfl
  have hb := hb.mono w.id
  have hold : ∀ k o,
      (b.view.offers.set offerId { offer with remaining := offer.remaining - fill }).get? k = some o →
      ∃ o', b.view.offers.get? k = some o' ∧ o.id = o'.id ∧ o.give = o'.give ∧ o.want = o'.want ∧
        o.remaining + (if offerId = k then fill else 0) = o'.remaining := by
    intro k o hk
    rw [OrderedMap.get?_set] at hk
    split_ifs at hk with heq
    · subst heq
      rw [← Option.some.inj hk]
      refine ⟨offer, hget, rfl, rfl, rfl, ?_⟩
      show offer.remaining - fill + (if offerId = offerId then fill else 0) = offer.remaining
      rw [if_pos rfl]
      omega
    · exact ⟨o, hk, rfl, rfl, rfl, by rw [if_neg heq, Nat.add_zero]⟩
  constructor
  · show ((OrderedMap.values _ ++ b.closed).map Match.take).Perm _
    rw [hvalues, List.append_assoc, List.map_append, List.map_append, List.map_singleton, htake]
    have hperm := hb.taken
    unfold records at hperm
    rw [List.map_append] at hperm
    exact (List.perm_append_comm.append_left _).trans
      (by rw [← List.append_assoc]; exact hperm.append_right _)
  · show ((b.taken ++ [_]).map Take.id).Nodup
    rw [List.map_append, List.map_singleton, List.nodup_append]
    refine ⟨hb.ids, by simp, fun a ha c hc => ?_⟩
    rw [List.mem_singleton.mp hc]
    rintro rfl
    exact hfresh ha
  · intro t ht
    obtain ht | ht := List.mem_append.mp ht
    · exact hb.seen_take t ht
    · rw [List.mem_singleton.mp ht]
      exact ⟨List.mem_cons_self, List.mem_cons_of_mem _ hoffer.1⟩
  · intro k o hk
    obtain ⟨o', ho', hsame, _⟩ := hold k o hk
    rw [hsame]
    exact hb.seen_offer k o' ho'
  · intro k o hk
    obtain ⟨o', ho', _, hgive', _, hrem⟩ := hold k o hk
    have hcap' := hb.capacity k o' ho'
    have hholds : (newMatch w offer fill hash takerKey h).holds k = if offerId = k then fill else 0 := by
      unfold Match.holds
      rw [← hoffer.2]
      simp [newMatch]
    unfold held records at hcap' ⊢
    simp only [hvalues, List.map_append, List.sum_append, List.map_singleton, List.sum_singleton,
      hholds] at hcap' ⊢
    rw [hgive']
    omega
  · intro t ht o hk
    obtain ⟨o', ho', _, hgive', hwant', _⟩ := hold _ o hk
    rw [hgive', hwant']
    obtain ht | ht := List.mem_append.mp ht
    · exact hb.proRata t ht o' ho'
    · rw [List.mem_singleton] at ht
      subst ht
      rw [hget] at ho'
      rw [← Option.some.inj ho']
  · intro m hm
    change m ∈ OrderedMap.values (b.view.matches.set w.id _) at hm
    rw [hvalues, List.mem_append, List.mem_singleton] at hm
    obtain hm | rfl := hm
    · exact hb.dust m hm
    · exact ⟨hgive, hwant⟩

theorem Balanced.abort (hb : Balanced seen b) {matchId : String}
    (hget : b.view.matches.get? matchId = some m) (hstatus : m.status ≠ .cancelled) (h : ℤ) :
    Balanced seen
      ⟨restoreCapacity { b.view with «matches» := b.view.matches.set matchId (m.aborted h) } m,
        b.closed, b.taken⟩ := by
  refine hb.replace hget (matches_restoreCapacity _ _) rfl ⟨rfl, rfl⟩ fun k o' hk => ?_
  rw [offers_restoreCapacity, OrderedMap.get?_mapEntries] at hk
  obtain ⟨o, ho, rfl⟩ := Option.map_eq_some_iff.mp hk
  refine ⟨o, _, ho, rfl, ?_⟩
  unfold Match.holds Match.aborted
  simp [hstatus]

/-- Every op of a new write keeps the books balanced. -/
theorem Balanced.apply (hb : Balanced seen b) (w : Write) (op : Op) (h : ℤ) (hid : w.id ∉ seen) :
    Balanced (w.id :: seen) (b.step (.apply w op h)) := by
  show Balanced (w.id :: seen)
    ⟨(applyOp b.view w op h).1, b.closed, b.taken ++ takeOf b.view w op h⟩
  have heff := applyOp_effect b.view w op h
  generalize hr : applyOp b.view w op h = r at heff
  cases heff with
  | rejected =>
    have hnone : takeOf b.view w op h = [] := by
      unfold takeOf
      cases op <;> simp [hr]
    rw [hnone, List.append_nil]
    exact hb.mono w.id
  | post hgive hwant hnew =>
    simp only [takeOf, List.append_nil]
    exact hb.post hid rfl rfl
  | cancel hget hmaker =>
    simp only [takeOf, List.append_nil]
    exact (hb.cancel _).mono w.id
  | take hget hcap hgive hwant hnew hhash =>
    simp only [takeOf, hr, hget]
    exact hb.take hid hget hcap hgive hwant hnew
  | proof hget hstatus hproved =>
    simp only [takeOf, List.append_nil]
    have hmoves := hproved.moves hstatus (.advance h) ""
    exact (hb.relabel hget hmoves.terms ⟨by rw [hstatus]; decide, hproved.live hstatus⟩).mono w.id
  | locked hget hstatus hhint =>
    simp only [takeOf, List.append_nil]
    have hmoves := hhint.moves hstatus (.advance h) ""
    refine (hb.relabel hget hmoves.terms ⟨by rw [hstatus]; decide, ?_⟩).mono w.id
    cases hhint with
    | maker hnew => show _ ≠ _; rw [hstatus]; decide
    | taker hnew => show _ ≠ _; rw [hstatus]; decide
  | abort hget hmaker hstatus hlock =>
    simp only [takeOf, List.append_nil]
    exact (hb.abort hget hstatus h).mono w.id

/-! ## Runs -/

/-- The ids of the writes whose ops a run applies. -/
def appliedIds (steps : List BoardStep) : List String :=
  steps.filterMap (fun s => match s with
    | .advance _ => none
    | .apply w _ _ => some w.id)

theorem Balanced.run (hb : Balanced seen b) {steps : List BoardStep}
    (hids : (appliedIds steps).Nodup) (hnew : ∀ id ∈ appliedIds steps, id ∉ seen) :
    ∃ seen', Balanced seen' (run step b steps) := by
  induction steps generalizing b seen with
  | nil => exact ⟨seen, hb⟩
  | cons s steps ih =>
    cases s with
    | advance h => exact ih (hb.advance h) hids hnew
    | apply w op h =>
      have hcons : appliedIds (.apply w op h :: steps) = w.id :: appliedIds steps := rfl
      rw [hcons] at hids hnew
      obtain ⟨hw, hids⟩ := List.nodup_cons.mp hids
      refine ih (hb.apply w op h (hnew w.id List.mem_cons_self)) hids fun id hid hseen => ?_
      obtain rfl | hseen := List.mem_cons.mp hseen
      · exact hw hid
      · exact hnew id (List.mem_cons_of_mem _ hid) hseen

theorem appliedIds_boardSteps (K : Curve) {writes : List Write} (nowHeight : ℤ)
    (opts : FoldOptions) (hids : (writes.map (fun w => w.id)).Nodup) :
    (appliedIds (boardSteps K writes nowHeight opts)).Nodup := by
  have hflat : ∀ l : List Write,
      (appliedIds (l.flatMap (fun w => stepsOf K (heightOf opts.bornAt nowHeight w) w))).Sublist
        (l.map (fun w => w.id)) := by
    intro l
    induction l with
    | nil => exact List.Sublist.refl _
    | cons w l ih =>
      rw [List.flatMap_cons, List.map_cons]
      unfold appliedIds at ih ⊢
      rw [List.filterMap_append]
      unfold stepsOf
      cases parseOp K w.payload with
      | none => exact ih.cons _
      | some op => exact ih.cons_cons _
  unfold boardSteps
  have hsorted := (List.perm_insertionSort
    (fun a b => foldOrder opts nowHeight a b ≤ 0) writes).map (fun w => w.id)
  have hflat := hflat (sortWrites (foldOrder opts nowHeight) writes)
  unfold appliedIds at hflat ⊢
  rw [List.filterMap_append]
  simp only [List.filterMap_cons, List.filterMap_nil, List.append_nil]
  exact hflat.nodup (hsorted.nodup_iff.mpr hids)

/-- **Capacity is conserved**, in the board of every fold of writes of distinct ids. -/
theorem capacity_conserved (K : Curve) (writes : List Write) (nowHeight : ℤ) (order : WriteOrder)
    (bornAt : OrderedMap String ℤ) (hids : (writes.map (fun w => w.id)).Nodup) :
    (run step Books.empty (boardSteps K writes nowHeight ⟨order, bornAt, none⟩)).view
        = computeView K writes nowHeight ⟨order, bornAt, none⟩ ∧
      (run step Books.empty (boardSteps K writes nowHeight ⟨order, bornAt, none⟩)).Conserved := by
  constructor
  · rw [run_view, computeView_eq_run]
    rfl
  · obtain ⟨seen, hb⟩ := Balanced.empty.run (appliedIds_boardSteps K nowHeight _ hids)
      (fun _ _ => List.not_mem_nil)
    exact hb.conserved

open Checkpointed in
/-- The theorem at an offer and a take whose match times out. -/
theorem capacity_conserved_take :
    (run step Books.empty (boardSteps curve [take, post] 40 ⟨byTs, bornAt, none⟩)).view
        = computeView curve [take, post] 40 ⟨byTs, bornAt, none⟩ ∧
      (run step Books.empty (boardSteps curve [take, post] 40 ⟨byTs, bornAt, none⟩)).Conserved :=
  capacity_conserved curve [take, post] 40 byTs bornAt (by decide)

end Books

end Gavl
