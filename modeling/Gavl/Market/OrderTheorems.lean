import Gavl.Consensus.HeadsTheorems
import Gavl.Ledger.RejectTheorems
import Gavl.Market.Board
import Gavl.Market.FoldTheorems

/-!
# The view does not depend on the listing

Two nodes hold the writes an anchor certifies in different orders. They fold them in one order
exactly when the comparator tells every two of one epoch apart by their stamps, or the stamps
are equal. No check looks at a stamp, and a difference that is not a number leaves two writes in
the order they are listed in.
-/

namespace Gavl

open StableSort

variable {K : Curve} {writes writes' : List Write} {a b : Write}

/-! ## Epochs -/

namespace Epochs

/-- The same epochs, whatever order they were assigned in. -/
structure Same (s s' : Epochs) : Prop where
  covered : s.covered = s'.covered
  epoch : ∀ id, s.epoch.get? id = s'.epoch.get? id

/-- The first epoch assigned to an id stays. -/
theorem get?_foldl_assign (height : ℕ) (l : List Write) (epoch : OrderedMap String ℤ) (id : String) :
    (l.foldl (assign height) epoch).get? id
      = (epoch.get? id).or (if id ∈ l.map (fun w => w.id) then some (height : ℤ) else none) := by
  induction l generalizing epoch with
  | nil => simp
  | cons w l ih =>
    have hstep : (assign height epoch w).get? id
        = (epoch.get? id).or (if w.id = id then some (height : ℤ) else none) := by
      unfold assign
      split_ifs with hhas hid hid
      · subst hid
        obtain ⟨e, he⟩ := (OrderedMap.has_iff _ _).mp hhas
        rw [he, Option.some_or]
      · rw [Option.or_none]
      · subst hid
        rw [OrderedMap.get?_set, if_pos rfl, ((by simpa [OrderedMap.has] using hhas) :
          epoch.get? w.id = none), Option.none_or]
      · rw [OrderedMap.get?_set, if_neg hid, Option.or_none]
    rw [List.foldl_cons, ih, hstep, Option.or_assoc]
    congr 1
    by_cases hid : w.id = id
    · simp [hid]
    · simp [hid, Ne.symm hid]

theorem Same.cover {s s' : Epochs} (h : Same s s') (hperm : writes.Perm writes') (height : ℕ)
    (e : String × Head) : Same (s.cover writes height e) (s'.cover writes' height e) := by
  have hfresh : ∀ w, s.fresh e.2.seq w = s'.fresh e.2.seq w := fun w => by
    unfold fresh
    rw [h.covered]
  unfold Epochs.cover
  simp only
  rw [h.covered]
  split_ifs
  · exact h
  · refine ⟨rfl, fun id => ?_⟩
    have hmem : id ∈ (writes.filter (fun w => decide (w.writer = e.1) && s.fresh e.2.seq w)).map
        (fun w => w.id) ↔
        id ∈ (writes'.filter (fun w => decide (w.writer = e.1) && s'.fresh e.2.seq w)).map
          (fun w => w.id) := by
      simp only [hfresh]
      exact ((hperm.filter _).map _).mem_iff
    simp only [get?_foldl_assign, h.epoch id, hmem]

theorem Same.coverAnchor {s s' : Epochs} (h : Same s s') (hperm : writes.Perm writes')
    (anchor : Anchor) : Same (s.coverAnchor writes anchor) (s'.coverAnchor writes' anchor) := by
  unfold Epochs.coverAnchor
  induction anchor.headsDelta.entries generalizing s s' with
  | nil => exact h
  | cons e l ih => exact ih (h.cover hperm anchor.height e)

end Epochs

/-- The epoch of a write does not depend on where it is listed. -/
theorem get?_epochOf_perm (hperm : writes.Perm writes') (chain : List Anchor) (id : String) :
    (epochOf chain writes).get? id = (epochOf chain writes').get? id := by
  have hsame : ∀ (l : List Anchor) (s s' : Epochs), Epochs.Same s s' →
      Epochs.Same (l.foldl (Epochs.coverAnchor writes) s) (l.foldl (Epochs.coverAnchor writes') s') := by
    intro l
    induction l with
    | nil => exact fun s s' h => h
    | cons x l ih => exact fun s s' h => ih _ _ (h.coverAnchor hperm x)
  exact (hsame chain ⟨∅, ∅⟩ ⟨∅, ∅⟩ ⟨rfl, fun _ => rfl⟩).epoch id

/-! ## What the comparator orders -/

/-- The comparator tells two stamps apart, or they are equal. -/
def Json.Orderable (x y : Json) : Prop := Json.strictEq x y = true ∨ Json.minus x y ≠ 0

/-- The epoch a write is compared by. -/
def epochIn (epoch : OrderedMap String ℤ) (w : Write) : ℤ := (epoch.get? w.id).getD noEpoch

/-- Two writes that fold at one height in one epoch. -/
def Together (epoch : OrderedMap String ℤ) (now : ℤ) (a b : Write) : Prop :=
  heightOf epoch now a = heightOf epoch now b ∧ epochIn epoch a = epochIn epoch b

/-- Any two writes of one epoch have stamps that the comparator orders. -/
def StampsOrderAt (epoch : OrderedMap String ℤ) (now : ℤ) (writes : List Write) : Prop :=
  ∀ a ∈ writes, ∀ b ∈ writes, a ≠ b → Together epoch now a b → Json.Orderable a.ts b.ts

/-- The comparator within an epoch. -/
def stampOrder (a b : Write) : ℤ :=
  if !Json.strictEq a.ts b.ts then Json.minus a.ts b.ts
  else if a.writer ≠ b.writer then if a.writer < b.writer then -1 else 1
  else (a.seq : ℤ) - b.seq

theorem epochOrder_eq (epoch : OrderedMap String ℤ) (a b : Write) :
    epochOrder epoch a b = if epochIn epoch a ≠ epochIn epoch b then epochIn epoch a - epochIn epoch b
      else stampOrder a b := rfl

theorem stampOrder_antisymm (a b : Write) : stampOrder b a = -stampOrder a b := by
  unfold stampOrder
  by_cases hts : Json.strictEq a.ts b.ts = true
  · rw [hts, Json.strictEq_symm hts]
    simp only [Bool.not_true, Bool.false_eq_true, if_false, ne_comm (a := b.writer)]
    split_ifs with hw hba hab hab
    · exact absurd hab hba.not_gt
    · rfl
    · rfl
    · exact absurd (le_antisymm (not_lt.mp hba) (not_lt.mp hab)) hw
    · omega
  · have hts' : ¬Json.strictEq b.ts a.ts = true := fun h => hts (Json.strictEq_symm h)
    simp only [hts, hts', Bool.not_false, if_true]
    exact Double.diff_antisymm _ _

theorem stampOrder_trans {c : Write} (hab : Json.Orderable a.ts b.ts) (hbc : Json.Orderable b.ts c.ts)
    (h : stampOrder a b ≤ 0) (h' : stampOrder b c ≤ 0) : stampOrder a c ≤ 0 := by
  unfold stampOrder at h h' ⊢
  by_cases hts : Json.strictEq a.ts b.ts = true
  · by_cases hts' : Json.strictEq b.ts c.ts = true
    · -- equal stamps: by writer, then by seq
      simp only [hts, hts', Json.strictEq_trans hts hts', Bool.not_true, Bool.false_eq_true,
        if_false] at h h' ⊢
      rcases lt_trichotomy a.writer b.writer with hw | hw | hw
      · rcases lt_trichotomy b.writer c.writer with hw' | hw' | hw'
        · have := hw.trans hw'
          rw [if_pos this.ne, if_pos this]
          omega
        · rw [← hw', if_pos hw.ne, if_pos hw]
          omega
        · rw [if_pos hw'.ne', if_neg hw'.not_gt] at h'
          omega
      · rw [hw]
        rw [hw] at h
        split_ifs with hw' hlt
        · omega
        · rw [if_pos hw', if_neg hlt] at h'
          omega
        · rw [if_neg (by simp)] at h
          rw [if_neg hw'] at h'
          omega
      · rw [if_pos hw.ne', if_neg hw.not_gt] at h
        omega
    · have hne : Json.minus b.ts c.ts < 0 := by
        simp only [hts', Bool.not_false, if_true] at h'
        exact lt_of_le_of_ne h' (hbc.resolve_left hts')
      have heq : Json.minus a.ts c.ts = Json.minus b.ts c.ts := by
        unfold Json.minus
        rw [Json.toNumber_eq_of_strictEq hts]
      have hac : ¬Json.strictEq a.ts c.ts = true := fun hac => by
        rw [← heq, Json.minus_eq_zero_of_strictEq hac] at hne
        exact absurd hne (lt_irrefl _)
      simp only [hac, Bool.not_false, if_true]
      omega
  · have hne : Json.minus a.ts b.ts < 0 := by
      simp only [hts, Bool.not_false, if_true] at h
      exact lt_of_le_of_ne h (hab.resolve_left hts)
    have hlt : Json.minus a.ts c.ts < 0 := by
      by_cases hts' : Json.strictEq b.ts c.ts = true
      · have heq : Json.minus a.ts c.ts = Json.minus a.ts b.ts := by
          unfold Json.minus
          rw [Json.toNumber_eq_of_strictEq hts']
        omega
      · simp only [hts', Bool.not_false, if_true] at h'
        exact Double.diff_trans hne (lt_of_le_of_ne h' (hbc.resolve_left hts'))
    have hac : ¬Json.strictEq a.ts c.ts = true := fun hac => by
      rw [Json.minus_eq_zero_of_strictEq hac] at hlt
      exact absurd hlt (lt_irrefl _)
    simp only [hac, Bool.not_false, if_true]
    omega

theorem stampOrder_self (a : Write) : stampOrder a a = 0 := by
  have := stampOrder_antisymm a a
  omega

variable {epoch : OrderedMap String ℤ} {now : ℤ} {base : Option View}

/-- The comparator of a fold: height, epoch, then the stamps. -/
theorem foldOrder_epochOrder_le_iff : foldOrder ⟨epochOrder epoch, epoch, base⟩ now a b ≤ 0 ↔
    heightOf epoch now a < heightOf epoch now b ∨ heightOf epoch now a = heightOf epoch now b ∧
      (epochIn epoch a < epochIn epoch b ∨
        epochIn epoch a = epochIn epoch b ∧ stampOrder a b ≤ 0) := by
  rw [foldOrder_le_iff]
  simp only
  rw [epochOrder_eq]
  by_cases he : epochIn epoch a ≠ epochIn epoch b
  · rw [if_pos he]
    omega
  · rw [if_neg he]
    omega

theorem orders_foldOrder (hord : StampsOrderAt epoch now writes) :
    Orders (fun x y => foldOrder ⟨epochOrder epoch, epoch, base⟩ now x y ≤ 0) writes where
  total := fun x _ y _ => by
    rw [foldOrder_epochOrder_le_iff, foldOrder_epochOrder_le_iff, stampOrder_antisymm x y]
    omega
  trans := fun x hx y hy z hz hxy hyz => by
    by_cases heq : x = y
    · rw [heq]
      exact hyz
    by_cases heq' : y = z
    · rw [← heq']
      exact hxy
    rw [foldOrder_epochOrder_le_iff] at hxy hyz ⊢
    -- only where all three fold in one epoch do the stamps decide
    by_cases htogether : Together epoch now x y ∧ Together epoch now y z
    · have htrans := stampOrder_trans (hord x hx y hy heq htogether.1)
        (hord y hy z hz heq' htogether.2)
      unfold Together at htogether
      omega
    · unfold Together at htogether
      omega

theorem eq_of_foldOrder_tie (hone : OneEach writes) (hord : StampsOrderAt epoch now writes)
    (ha : a ∈ writes) (hb : b ∈ writes)
    (hab : foldOrder ⟨epochOrder epoch, epoch, base⟩ now a b ≤ 0)
    (hba : foldOrder ⟨epochOrder epoch, epoch, base⟩ now b a ≤ 0) : a = b := by
  by_contra hne
  rw [foldOrder_epochOrder_le_iff] at hab hba
  rw [stampOrder_antisymm a b] at hba
  have htie : stampOrder a b = 0 := by omega
  have htogether : Together epoch now a b := ⟨by omega, by omega⟩
  obtain hts | hts := hord a ha b hb hne htogether
  · unfold stampOrder at htie
    rw [hts] at htie
    simp only [Bool.not_true, Bool.false_eq_true, if_false] at htie
    by_cases hw : a.writer = b.writer
    · rw [if_neg (by simp [hw])] at htie
      exact hne (hone.eq_of_mem ha hb hw (by omega))
    · rw [if_pos hw] at htie
      split_ifs at htie
      omega
  · have hts' : ¬Json.strictEq a.ts b.ts = true := fun h => hts (Json.minus_eq_zero_of_strictEq h)
    unfold stampOrder at htie
    simp only [hts', Bool.not_false, if_true] at htie
    exact hts htie

/-- Any two writes that an anchor certifies for one epoch have stamps that the comparator
orders: they are the same value, or their difference is a number other than zero. -/
def StampsOrder (writes : List Write) (anchors : AnchorChain) (anchorId : String) : Prop :=
  ∀ anchor, anchors.get anchorId = some anchor →
    StampsOrderAt (orderingFor writes anchors (some anchor)).bornAt anchor.height
      (orderingFor writes anchors (some anchor)).included

variable {anchors : AnchorChain} {anchorId : String}

/-- The heads cover a write. -/
def covers (heads : Heads) (w : Write) : Bool :=
  match heads.get? w.writer with
  | none => false
  | some h => decide (w.seq ≤ h.seq)

/-- An anchor includes the writes its heads cover. -/
theorem included_eq (writes : List Write) (anchor : Anchor) :
    (orderingFor writes anchors (some anchor)).included
      = writes.filter (covers (anchors.headsAt anchor.id)) := rfl

/-- A fold looks epochs up and does nothing else with them. -/
theorem heightOf_congr {epoch' : OrderedMap String ℤ} (h : ∀ id, epoch.get? id = epoch'.get? id) :
    heightOf epoch now = heightOf epoch' now := by
  funext w
  unfold heightOf
  rw [h]

theorem foldOrder_congr {epoch' : OrderedMap String ℤ} (h : ∀ id, epoch.get? id = epoch'.get? id) :
    foldOrder ⟨epochOrder epoch, epoch, base⟩ now
      = foldOrder ⟨epochOrder epoch', epoch', base⟩ now := by
  funext x y
  unfold foldOrder
  simp only [heightOf_congr h]
  unfold epochOrder
  simp only [h]

/-- The comparator that a view at an anchor sorts by. -/
def orderAt (writes : List Write) (anchors : AnchorChain) (anchor : Anchor) : WriteOrder :=
  let epoch := (orderingFor writes anchors (some anchor)).bornAt
  foldOrder ⟨epochOrder epoch, epoch, none⟩ anchor.height

namespace Unstamped

open AnchorChain

/-- A hash for worked examples that gives the id of a write its usual length. -/
def wideHash (b : Bytes) : Bytes :=
  if b.length < 250 then exampleHash b else (List.replicate 16 (exampleHash b)).flatten

def config : ChainConfig := { openConfig with crypto := ⟨wideHash, fun _ _ _ => true⟩ }

/-- An offer whose stamp is a string, and a take of it whose stamp is another. -/
def post : Write := Ledger.firstWrite config.crypto "aa" (.str "early") (.obj [("kind", .str "offer.post"),
  ("give", .obj [("chain", .str "bitcoin"), ("amount", .str "100000")]),
  ("want", .obj [("chain", .str "litecoin"), ("amount", .str "9000000")]),
  ("minFill", .str "100000"), ("expiresIn", .nat 1440)])

def take : Write := Ledger.firstWrite config.crypto "bb" (.str "late")
  (.obj [("kind", .str "offer.take"), ("offerId", .str post.id), ("fill", .str "100000"),
    ("hash", .str (String.ofList (List.replicate 64 '0'))),
    ("takerKey", .str (String.ofList (List.replicate 64 '1')))])

/-- A ledger that takes both. -/
def ledger : Ledger :=
  ((Ledger.empty.apply config.crypto config.params false post).1.apply config.crypto config.params
    false take).1

def root : Anchor := assembled config.crypto 1 none genesisProducer ∅ ∅

def heads : Heads := ((∅ : Heads).set "aa" ⟨post.id, 0⟩).set "bb" ⟨take.id, 0⟩

/-- The anchor that certifies both. -/
def certifying : Anchor := assembled config.crypto 1 (some root) "p" heads heads

def chain : AnchorChain := addStep config (rootedAt root ∅) (certifying, fun _ _ _ => true)

def curve : Curve := ⟨fun _ => true⟩

end Unstamped

end Gavl
