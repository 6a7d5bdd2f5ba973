import Gavl.Consensus.AdoptTheorems
import Gavl.Consensus.ForkChoiceTheorems
import Gavl.Consensus.SettlementTheorems

/-!
# The heaviest anchor the lock allows

While the tip moves by weight alone it is the heaviest of the stored anchors that descend from the
lock. When `resolveFork` re-anchors the lock on another branch, anchors stored there before come
under it unexamined, and the anchor that brought the branch in becomes the tip whatever they weigh.
-/

namespace Gavl

open ParentWalk Runs

namespace AnchorChain

variable {c c' : AnchorChain} {cfg : ChainConfig} {check : StateCheck} {a b p l t x : Anchor}
  {heads : Heads} {k : ℕ}

/-! ## The property and the condition -/

/-- The tip descends from the locked anchor, and no stored anchor that does is a better tip. -/
def HeaviestInLock (c : AnchorChain) : Prop :=
  ∀ t, c.tip = some t → c.descendsFrom t c.lockedId = true ∧
    ∀ id b, c.get id = some b → c.descendsFrom b c.lockedId = true → heavier b t = false

/-- The condition on a step that stores `a`, looking at the chain with `a` stored: if a fork verdict
hands `a` the tip, nothing stored is a better tip among what descends both from the anchor the
verdict locks and from the one `k` below `a`. -/
def NothingAhead (k : ℕ) (c : AnchorChain) (a : Anchor) : Prop :=
  c.descendsFrom a c.lockedId = false → c.takesTip a = true →
    ∀ switchTo, (c.forkVerdict a).switchTo = some switchTo →
      ∀ id b, c.get id = some b → c.descendsFrom b (some switchTo) = true →
        c.descendsFrom b (some (c.deep k a).id) = true → heavier b a = false

/-- The condition on a call of `add`. -/
def StepsClear (cfg : ChainConfig) (k : ℕ) (c : AnchorChain) (call : Anchor × StateCheck) :
    Prop :=
  ∀ heads, c.Accepts cfg call.2 call.1 heads → NothingAhead k (c.store call.1) call.1

/-- The tip descends from the lock, and the lock from whatever has lost its predecessor. -/
structure Locked (c : AnchorChain) (t l : Anchor) : Prop where
  tip_eq : c.tip = some t
  tip_held : c.Holds t
  lock_eq : c.lockedId = some l.id
  lock_held : c.Holds l
  lock_anc : Anc c.parent t l
  dangling : ∀ b, c.Holds b → b.link ≠ none → c.parent b = none → Anc c.parent l b

/-- Nothing is stored. -/
structure Bare (c : AnchorChain) : Prop where
  empty : ∀ id, c.get id = none
  tip_eq : c.tipId = none
  lock_eq : c.lockedId = none

/-- What every state of a run satisfies. -/
structure Guarded (cfg : ChainConfig) (c : AnchorChain) : Prop where
  genuine : c.GenuineStore cfg.crypto
  state : c.Bare ∨ ∃ t l, Locked c t l

theorem GenuineStore.eq_of_id {C : Crypto} (_ : c.GenuineStore C) (ha : c.Holds a) (hb : c.Holds b)
    (hid : a.id = b.id) : a = b := by
  unfold Holds at ha hb
  rw [hid, hb] at ha
  exact (Option.some.inj ha).symm

/-- Descending from a stored anchor, by ids and by links. -/
theorem GenuineStore.descends_iff (hC : cfg.crypto.CollisionFree)
    (h : c.GenuineStore cfg.crypto) (ha : c.Holds a) (hl : c.Holds l) :
    c.descendsFrom a (some l.id) = true ↔ Anc c.parent a l := by
  rw [h.linked.descendsFrom_iff ha (h.id_ne hC hl)]
  constructor
  · rintro ⟨b, hab, hid⟩
    rw [← h.eq_of_id (h.linked.holds_anc ha hab) hl hid]
    exact hab
  · exact fun hal => ⟨l, hal, rfl⟩

/-- The property of a chain with a lock. -/
theorem Locked.heaviest_iff (h : Locked c t l) (hC : cfg.crypto.CollisionFree)
    (hg : c.GenuineStore cfg.crypto) :
    HeaviestInLock c ↔ ∀ b, c.Holds b → Anc c.parent b l → heavier b t = false := by
  unfold HeaviestInLock
  rw [h.tip_eq, h.lock_eq]
  constructor
  · intro hgood b hb hbl
    exact (hgood t rfl).2 b.id b hb ((hg.descends_iff hC hb h.lock_held).mpr hbl)
  · intro hall t' ht'
    rw [Option.some.injEq] at ht'
    subst ht'
    refine ⟨(hg.descends_iff hC h.tip_held h.lock_held).mpr h.lock_anc, fun id b hget hbl => ?_⟩
    have hb := hg.linked.holds_of_get hget
    exact hall b hb ((hg.descends_iff hC hb h.lock_held).mp hbl)

theorem Bare.heaviest (h : c.Bare) : HeaviestInLock c := fun t ht => by
  obtain ⟨id, -, hget⟩ := Option.bind_eq_some_iff.mp ht
  rw [h.empty] at hget
  exact absurd hget (by simp)

/-! ## Storing an anchor -/

/-- Storing an anchor brings no other anchor under the lock. -/
theorem Locked.anc_store_iff (h : Locked c t l) (hacc : c.Accepts cfg check a heads)
    (hL : c.Linked) (hS : (c.store a).Linked) (hb : c.Holds b) :
    Anc (c.store a).parent b l ↔ Anc c.parent b l := by
  refine ⟨fun hbl => ?_, anc_store hacc.fresh⟩
  induction hbl with
  | refl b => exact Anc.refl b
  | @step b p l hp hpl ih =>
    have hbS : (c.store a).Holds b := holds_store hacc.fresh hb
    by_cases hlink : b.link = some a.id
    · -- `b` had lost `a`, so the lock is above it
      have hlost : c.parent b = none := by
        unfold AnchorChain.parent
        rw [hlink, Option.bind_some]
        exact hacc.fresh
      have hlb := hL.graded.height_le h.lock_held (h.dangling b hb (by simp [hlink]) hlost)
      have hheight := hS.height_eq b p hbS hp
      have hle := hS.graded.height_le (hS.holds_parent hp) hpl
      omega
    · have hp' : c.parent b = some p := by
        rw [parent_store, if_neg hlink] at hp
        exact hp
      exact Anc.step hp' (ih h (hL.holds_parent hp'))

theorem Locked.store (h : Locked c t l) (hacc : c.Accepts cfg check a heads) :
    Locked (c.store a) t l where
  tip_eq := by
    obtain ⟨id, hid, hget⟩ := Option.bind_eq_some_iff.mp h.tip_eq
    have hid' : (c.store a).tipId = some id := hid
    unfold tip
    rw [hid']
    exact get_store_of_some hacc.fresh hget
  tip_held := holds_store hacc.fresh h.tip_held
  lock_eq := h.lock_eq
  lock_held := holds_store hacc.fresh h.lock_held
  lock_anc := anc_store hacc.fresh h.lock_anc
  dangling := fun b hb hlink hnone => by
    rcases holds_store_cases hb with rfl | hb
    · rw [hacc.parent_store_self] at hnone
      exact absurd hnone (hacc.known hlink)
    · have hlost : c.parent b = none := by
        cases hp : c.parent b with
        | none => rfl
        | some p =>
          rw [parent_store_of_some hacc.fresh hp] at hnone
          exact absurd hnone (by simp)
      exact anc_store hacc.fresh (h.dangling b hb hlink hlost)

/-! ## Moving the tip -/

/-- What descends from the new lock descends from both anchors it is the later of. -/
theorem Linked.anc_laterOf (hL : c.Linked) (ha : c.Holds a) (hal : Anc c.parent a l) (k : ℕ) :
    Anc c.parent a (c.laterOf a l k) ∧ Anc c.parent (c.laterOf a l k) l ∧
      ∀ b, Anc c.parent b (c.laterOf a l k) ↔
        Anc c.parent b l ∧ Anc c.parent b (c.deep k a) := by
  obtain ⟨hcase, hge, hk⟩ := laterOf_cases c a l k
  have hdeep := anc_deep (c := c) k a
  have hal' : Anc c.parent a (c.laterOf a l k) := by
    rcases hcase with h | h
    · rw [h]
      exact hdeep
    · rw [h]
      exact hal
  have hbelow := hL.graded.anc_of_height_le ha hal' hal hge
  have hbelow' := hL.graded.anc_of_height_le ha hal' hdeep hk
  refine ⟨hal', hbelow, fun b => ⟨fun hb => ⟨hb.trans hbelow, hb.trans hbelow'⟩, ?_⟩⟩
  rintro ⟨hbl, hbk⟩
  rcases hcase with h | h
  · rw [h]
    exact hbk
  · rw [h]
    exact hbl

/-- The tip moves to `a`, above an anchor that is locked. -/
theorem locked_setTip (heads : Heads) (hL : c.Linked) (hk : cfg.finalityDepth = some k)
    (ha : c.Holds a) (hlock : c.lockedId = some l.id) (hal : Anc c.parent a l)
    (hdangling : ∀ b, c.Holds b → b.link ≠ none → c.parent b = none → Anc c.parent l b) :
    Locked (c.setTip cfg a heads) a (c.laterOf a l k) := by
  obtain ⟨hal', hbelow, -⟩ := hL.anc_laterOf ha hal k
  have hstep : SameStore c { c with tipId := some a.id, tipHeads := heads } :=
    ⟨rfl, rfl, rfl, rfl⟩
  exact ⟨ha, ha, advanceLock_eq hstep ha (hL.holds_anc ha hal) hlock hk, hL.holds_anc ha hal', hal',
    fun b hb hlink hnone => hbelow.trans (hdangling b hb hlink hnone)⟩

/-- A fork verdict locks an anchor of the newcomer's branch, not below one that both branches
share. -/
theorem GenuineStore.resolveFork_shared {C : Crypto} (h : c.GenuineStore C) (ha : c.Holds a)
    (ht : c.Holds t) {id : String} (hv : (c.resolveFork a t).switchTo = some id) :
    ∃ fork l, Anc c.parent t fork ∧ l.id = id ∧ Anc c.parent a l ∧ Anc c.parent l fork := by
  have hfork : ∃ fork, c.forkPoint a t = some fork := by
    cases hf : c.forkPoint a t with
    | some fork => exact ⟨fork, rfl⟩
    | none =>
      unfold resolveFork at hv
      rw [hf] at hv
      exact absurd hv (by simp)
  obtain ⟨fork, hf⟩ := hfork
  have hmem : fork ∈ c.ancestry a := List.mem_of_find?_eq_some hf
  have haf := (h.linked.mem_ancestry ha).mp hmem
  have hshared : fork.id ∈ (c.ancestry t).map (·.id) := by simpa using List.find?_some hf
  obtain ⟨y, hy, hid⟩ := List.mem_map.mp hshared
  have hty := (h.linked.mem_ancestry ht).mp hy
  have hyf : y = fork :=
    h.eq_of_id (h.linked.holds_anc ht hty) (h.linked.holds_anc ha haf) hid
  subst hyf
  obtain ⟨l, hl, hal, hlf⟩ := resolveFork_spec h.linked ha ht haf hty hv
  exact ⟨y, l, hty, hl, hal, hlf⟩

/-! ## One step -/

theorem heavier_self (a : Anchor) : heavier a a = false := by
  rw [← Bool.not_eq_true]
  intro h
  rw [heavier_asymm h] at h
  exact absurd h (by simp)

/-- The lock of a verdict is above whatever has lost its predecessor. -/
theorem Locked.dangling_below (h : Locked c t l) {fork l' : Anchor} (htf : Anc c.parent t fork)
    (hlf : Anc c.parent l' fork) (hb : c.Holds b) (hlink : b.link ≠ none)
    (hnone : c.parent b = none) : Anc c.parent l' b := by
  have htb : Anc c.parent t b := h.lock_anc.trans (h.dangling b hb hlink hnone)
  rcases htf.total htb with hfb | hbf
  · exact hlf.trans hfb
  · rcases hbf.cases_parent with rfl | ⟨p, hp, -⟩
    · exact hlf
    · rw [hnone] at hp
      exact absurd hp (by simp)

/-- What one step makes of the lock, and when the tip is still the heaviest it allows. -/
structure Decided (k : ℕ) (c c' : AnchorChain) (a : Anchor) : Prop where
  locked : ∃ t l, Locked c' t l
  heaviest_iff : HeaviestInLock c' ↔ NothingAhead k c a

section Step

variable (hC : cfg.crypto.CollisionFree) (hk : cfg.finalityDepth = some k)
  (hg : c.GenuineStore cfg.crypto) (ha : c.Holds a) (h : Locked c t l)
  (hold : ∀ b, c.Holds b → b ≠ a → Anc c.parent b l → heavier b t = false)
include hC hg ha h hold

/-- The tip stays where it is: `a` is not under the lock, or not the better tip. -/
theorem decided_stays (k : ℕ) (hnot : c.takesTip a = false) :
    Decided k c (c.choose cfg a heads).1 a := by
  have hs : SameStore c (c.choose cfg a heads).1 := sameStore_choose
  obtain ⟨conflict, hc⟩ := choose_of_not_takesTip cfg heads hnot
  have hlocked : Locked (c.choose cfg a heads).1 t l := by
    rw [hc]
    exact ⟨h.tip_eq, h.tip_held, h.lock_eq, h.lock_held, h.lock_anc, h.dangling⟩
  refine ⟨⟨t, l, hlocked⟩, iff_of_true ?_ fun _ htake => ?_⟩
  · rw [hlocked.heaviest_iff hC (hg.sameStore hs), hs.parent]
    intro b hb hbl
    by_cases hba : b = a
    · subst hba
      have hdesc : c.descendsFrom b c.lockedId = true := by
        rw [h.lock_eq]
        exact (hg.descends_iff hC ha h.lock_held).mpr hbl
      unfold takesTip wouldBeTip at hnot
      rw [if_pos hdesc, h.tip_eq] at hnot
      exact hnot
    · exact hold b (hs.holds.mp hb) hba hbl
  · rw [hnot] at htake
    exact absurd htake (by simp)

include hk

/-- The tip moves up under the lock. -/
theorem decided_extends (htake : c.takesTip a = true) (hdesc : c.descendsFrom a c.lockedId = true) :
    Decided k c (c.choose cfg a heads).1 a := by
  have hs : SameStore c (c.choose cfg a heads).1 := sameStore_choose
  have hal : Anc c.parent a l := by
    rw [h.lock_eq] at hdesc
    exact (hg.descends_iff hC ha h.lock_held).mp hdesc
  have hheavy : heavier a t = true := by
    unfold takesTip wouldBeTip at htake
    rw [if_pos hdesc, h.tip_eq] at htake
    exact htake
  have hlocked : Locked (c.choose cfg a heads).1 a (c.laterOf a l k) := by
    rw [choose_of_takesTip htake]
    unfold relocked
    rw [if_pos hdesc]
    exact locked_setTip heads hg.linked hk ha h.lock_eq hal h.dangling
  refine ⟨⟨a, _, hlocked⟩, iff_of_true ?_ fun hconflict => ?_⟩
  · rw [hlocked.heaviest_iff hC (hg.sameStore hs), hs.parent]
    intro b hb hbl
    by_cases hba : b = a
    · rw [hba]
      exact heavier_self a
    · have hunder := (((hg.linked.anc_laterOf ha hal k).2.2 b).mp hbl).1
      have hlight := hold b (hs.holds.mp hb) hba hunder
      rw [← Bool.not_eq_true]
      intro hbeats
      rw [heavier_trans hbeats hheavy] at hlight
      exact absurd hlight (by simp)
  · rw [hdesc] at hconflict
    exact absurd hconflict (by simp)

omit hold in
/-- A fork verdict hands `a` the tip. -/
theorem decided_switches (htake : c.takesTip a = true)
    (hdesc : c.descendsFrom a c.lockedId = false) : Decided k c (c.choose cfg a heads).1 a := by
  have hs : SameStore c (c.choose cfg a heads).1 := sameStore_choose
  have hswitch : ∃ id, (c.forkVerdict a).switchTo = some id := by
    unfold takesTip at htake
    rw [hdesc, if_neg (by simp), Bool.and_eq_true, Bool.and_eq_true, Option.isSome_iff_exists]
      at htake
    exact htake.1.1
  obtain ⟨id, hid⟩ := hswitch
  have hverdict : (c.resolveFork a t).switchTo = some id := by
    unfold forkVerdict at hid
    rw [h.tip_eq] at hid
    exact hid
  obtain ⟨fork, l', htf, rfl, hal, hlf⟩ := hg.resolveFork_shared ha h.tip_held hverdict
  have hl : c.Holds l' := hg.linked.holds_anc ha hal
  obtain ⟨-, -, hlater⟩ := hg.linked.anc_laterOf ha hal k
  have hlocked : Locked (c.choose cfg a heads).1 a (c.laterOf a l' k) := by
    have hsame : SameStore c { c with lockedId := some l'.id } := ⟨rfl, rfl, rfl, rfl⟩
    have hsameLater : ({ c with lockedId := some l'.id } : AnchorChain).laterOf a l' k
        = c.laterOf a l' k := by
      unfold laterOf
      rw [hsame.deep]
    rw [choose_of_takesTip htake, ← hsameLater]
    unfold relocked
    rw [hdesc, if_neg (by simp), hid]
    exact locked_setTip (c := { c with lockedId := some l'.id }) heads (hsame.linked hg.linked) hk ha
      rfl hal fun b hb hlink hnone => h.dangling_below htf hlf hb hlink hnone
  refine ⟨⟨a, _, hlocked⟩, ?_⟩
  rw [hlocked.heaviest_iff hC (hg.sameStore hs), hs.parent]
  have hdeep : c.Holds (c.deep k a) := hg.linked.holds_anc ha (anc_deep k a)
  constructor
  · intro hall _ _ switchTo hto id b hget hbl hbk
    rw [hid, Option.some.injEq] at hto
    subst hto
    have hb := hg.linked.holds_of_get hget
    exact hall b (hs.holds.mpr hb) ((hlater b).mpr
      ⟨(hg.descends_iff hC hb hl).mp hbl, (hg.descends_iff hC hb hdeep).mp hbk⟩)
  · intro hahead b hb hbl
    have hb' := hs.holds.mp hb
    obtain ⟨hunder, hunder'⟩ := (hlater b).mp hbl
    exact hahead hdesc htake l'.id hid b.id b hb' ((hg.descends_iff hC hb' hl).mpr hunder)
      ((hg.descends_iff hC hb' hdeep).mpr hunder')

/-- Deciding the tip, whichever way it goes. -/
theorem decided_choose : Decided k c (c.choose cfg a heads).1 a := by
  cases htake : c.takesTip a with
  | false => exact decided_stays hC hg ha h hold k htake
  | true =>
    cases hdesc : c.descendsFrom a c.lockedId with
    | true => exact decided_extends hC hk hg ha h hold htake hdesc
    | false => exact decided_switches hC hk hg ha h htake hdesc

end Step

/-- The first anchor of an empty chain. -/
theorem Bare.decided_choose (hbare : c.Bare) (hC : cfg.crypto.CollisionFree)
    (hk : cfg.finalityDepth = some k) (hacc : c.Accepts cfg check a heads)
    (hg : (c.store a).GenuineStore cfg.crypto) :
    Decided k (c.store a) ((c.store a).choose cfg a heads).1 a := by
  have hs : SameStore (c.store a) ((c.store a).choose cfg a heads).1 := sameStore_choose
  have honly : ∀ b, (c.store a).Holds b → b = a := fun b hb => by
    rcases holds_store_cases hb with rfl | hb
    · rfl
    · unfold Holds at hb
      rw [hbare.empty] at hb
      exact absurd hb (by simp)
  have hroot : (c.store a).parent a = none := by
    rw [hacc.parent_store_self]
    cases hp : c.parent a with
    | none => rfl
    | some p =>
      obtain ⟨id, -, -, hget⟩ := parent_eq_some.mp hp
      rw [hbare.empty] at hget
      exact absurd hget (by simp)
  have hdesc : (c.store a).descendsFrom a (c.store a).lockedId = true := by
    show (c.store a).descendsFrom a c.lockedId = true
    rw [hbare.lock_eq]
    exact descendsFrom_none
  have htip : (c.store a).tip = none := by
    show c.tipId.bind _ = none
    rw [hbare.tip_eq]
    rfl
  have htake : (c.store a).takesTip a = true := by
    unfold takesTip wouldBeTip
    rw [if_pos hdesc, htip]
  have hdeep : (c.store a).deep k a = a := by
    cases k with
    | zero => rfl
    | succ k => simp only [deep, hroot]
  have hlocked : Locked ((c.store a).choose cfg a heads).1 a a := by
    rw [choose_of_takesTip htake]
    unfold relocked
    rw [if_pos hdesc]
    refine ⟨holds_store_self, holds_store_self, ?_, holds_store_self, Anc.refl a,
      fun b hb hlink _ => ?_⟩
    · have hfinal : ({ c.store a with tipId := some a.id, tipHeads := heads }
          : AnchorChain).finalized k = some a := by
        have hsame : SameStore (c.store a) { c.store a with tipId := some a.id, tipHeads := heads } :=
          ⟨rfl, rfl, rfl, rfl⟩
        have htip' : ({ c.store a with tipId := some a.id, tipHeads := heads } : AnchorChain).tip
            = some a := holds_store_self
        unfold finalized
        rw [htip', Option.map_some, hsame.deep, hdeep]
      show advanceLock _ c.lockedId cfg.finalityDepth = some a.id
      unfold advanceLock
      rw [hk, hbare.lock_eq]
      simp only [hfinal, Option.bind_none]
    · have hba := honly b hb
      subst hba
      rw [AnchorBody.link_of_prev_none (hacc.prev_none (hacc.parent_store_self ▸ hroot))] at hlink
      exact absurd rfl hlink
  refine ⟨⟨a, a, hlocked⟩, iff_of_true ?_ fun hconflict => ?_⟩
  · rw [hlocked.heaviest_iff hC (hg.sameStore hs)]
    intro b hb _
    rw [honly b (hs.holds.mp hb)]
    exact heavier_self a
  · rw [hdesc] at hconflict
    exact absurd hconflict (by simp)

/-! ## Where a run begins -/

theorem Bare.new : AnchorChain.new.Bare := ⟨fun _ => rfl, rfl, rfl⟩

theorem pairwise_linkedRun (cur : Anchor) (ancestry : List Anchor) :
    (cur :: linkedRun cur ancestry).Pairwise (fun x y => y.height < x.height) := by
  induction ancestry generalizing cur with
  | nil => exact List.pairwise_singleton _ _
  | cons q rest ih =>
    refine List.pairwise_cons.mpr ⟨fun x hx => (mem_linkedRun hx).2, ?_⟩
    rw [linkedRun]
    split_ifs
    · exact .nil
    · exact ih q

/-- A chain that holds a linked run walks down to each of it. -/
theorem anc_of_mem_linkedRun {cur q : Anchor} {ancestry : List Anchor}
    (hheld : ∀ q ∈ linkedRun cur ancestry, c.Holds q ∧ q.id ≠ "")
    (hq : q ∈ linkedRun cur ancestry) : Anc c.parent cur q := by
  induction ancestry generalizing cur with
  | nil => exact absurd hq (by simp [linkedRun])
  | cons r rest ih =>
    rw [linkedRun] at hheld hq
    split_ifs at hheld hq with hgap
    · exact absurd hq List.not_mem_nil
    · simp only [not_or, not_not] at hgap
      obtain ⟨hr, hne⟩ := hheld r List.mem_cons_self
      refine Anc.step (parent_eq_some.mpr ⟨r.id, hgap.1, hne, hr⟩) ?_
      rcases List.mem_cons.mp hq with rfl | hq
      · exact Anc.refl q
      · exact ih (fun y hy => hheld y (List.mem_cons_of_mem r hy)) hq

/-- Genuine anchors of a linked run are all held: none shares its id with another. -/
theorem Adopted.holds (hC : cfg.crypto.CollisionFree) {C : Crypto} {floor : Anchor}
    {floorHeads : Heads} {ancestry : List Anchor}
    (h : Adopted C c floor floorHeads (linkedRun floor ancestry))
    (hgen : ∀ a ∈ floor :: linkedRun floor ancestry, Genuine cfg.crypto a) {q : Anchor}
    (hq : q ∈ floor :: linkedRun floor ancestry) : c.Holds q := by
  have hsome : (c.get q.id).isSome := by
    unfold get
    rw [h.anchors_eq, OrderedMap.get?_set]
    split_ifs with hid
    · rfl
    · refine get?_foldl_set_isSome (.inl ⟨q, ?_, rfl⟩)
      rcases List.mem_cons.mp hq with rfl | hq
      · exact absurd rfl hid
      · exact hq
  obtain ⟨x, hx⟩ := Option.isSome_iff_exists.mp hsome
  obtain ⟨hmem, hid⟩ := h.mem_of_get hx
  have hheight : x.height = q.height := by
    have hsame := (hgen x hmem).id_eq.trans (hid.trans (hgen q hq).id_eq.symm)
    exact (idOf_inj hC.injective hsame).height_eq
  have hinj : ((floor :: linkedRun floor ancestry).map (·.height)).Nodup :=
    List.pairwise_map.mpr ((pairwise_linkedRun floor ancestry).imp fun hlt heq => by omega)
  have hxq : x = q := List.inj_on_of_nodup_map hinj hmem hq hheight
  unfold Holds
  rw [hx, hxq]

/-- A chain that holds its root, or a floor with the ancestors it was adopted with. -/
theorem Started.locked (hC : cfg.crypto.CollisionFree) (h : Started cfg c) :
    ∃ t, Locked c t t ∧ ∀ b, c.Holds b → Anc c.parent t b := by
  have hg := h.settling.genuine
  cases h with
  | @genesis g heads _ hgen hinst =>
    have hi := installGenesis_ok hinst
    have hheld : c.Holds g := hi.holds_iff.mpr rfl
    have hall : ∀ b, c.Holds b → Anc c.parent g b := fun b hb => by
      rw [hi.holds_iff.mp hb]
      exact Anc.refl g
    exact ⟨g, ⟨hi.tip_eq, hheld, hi.lockedId_eq, hheld, Anc.refl g, fun b hb _ _ => hall b hb⟩, hall⟩
  | @adopted c₀ _ floor floorHeads ancestry hfresh hgen hadopt =>
    obtain ⟨had, -⟩ := adopt_ok hfresh.anchors_eq hadopt
    have hheld : c.Holds floor := had.get_floor
    have hall : ∀ b, c.Holds b → Anc c.parent floor b := fun b hb => by
      rcases List.mem_cons.mp (had.mem_of_get hb).1 with rfl | hmem
      · exact Anc.refl b
      · refine anc_of_mem_linkedRun (fun q hq => ?_) hmem
        have hqheld := had.holds hC hgen (List.mem_cons_of_mem floor hq)
        exact ⟨hqheld, hg.id_ne hC hqheld⟩
    exact ⟨floor, ⟨had.tip_eq, hheld, had.lockedId_eq, hheld, Anc.refl floor,
      fun b hb _ _ => hall b hb⟩, hall⟩

/-- One call. -/
theorem Guarded.step (hC : cfg.crypto.CollisionFree) (hk : cfg.finalityDepth = some k)
    (h : Guarded cfg c) (hgood : HeaviestInLock c) (call : Anchor × StateCheck) :
    Guarded cfg (addStep cfg c call) ∧
      (HeaviestInLock (addStep cfg c call) ↔ StepsClear cfg k c call) := by
  unfold addStep StepsClear
  rcases add_cases c cfg call.2 call.1 with ⟨hsame, hnot⟩ | ⟨heads, hacc, hadd⟩
  · rw [hsame]
    exact ⟨h, iff_of_true hgood fun heads hacc => absurd hacc (hnot heads)⟩
  · have hg := h.genuine.store hC hacc
    have hs : SameStore (c.store call.1) ((c.store call.1).choose cfg call.1 heads).1 :=
      sameStore_choose
    have hdecided : Decided k (c.store call.1) ((c.store call.1).choose cfg call.1 heads).1 call.1 := by
      rcases h.state with hbare | ⟨t, l, hlocked⟩
      · exact hbare.decided_choose hC hk hacc hg
      · refine AnchorChain.decided_choose hC hk hg holds_store_self (hlocked.store hacc)
          fun b hb hne hbl => ?_
        have hb' : c.Holds b := (holds_store_cases hb).resolve_left hne
        exact (hlocked.heaviest_iff hC h.genuine).mp hgood b hb'
          ((hlocked.anc_store_iff hacc h.genuine.linked hg.linked hb').mp hbl)
    rw [hadd, hdecided.heaviest_iff]
    exact ⟨⟨hg.sameStore hs, .inr hdecided.locked⟩,
      fun hclear _ _ => hclear, fun hclear => hclear heads hacc⟩

namespace Overtaken

open Partition

/-- The branch of `p` and that of `q`, above one shared anchor. -/
def ours₁ : Anchor := next shared "p"
def ours₂ : Anchor := next ours₁ "p"
def theirs₁ : Anchor := next shared "q"
def theirs₂ : Anchor := next theirs₁ "q"
def theirs₃ : Anchor := next theirs₂ "q"
def theirs₄ : Anchor := next theirs₃ "q"

/-- An anchor of `p` on the branch of `q`. -/
def joined : Anchor := next theirs₂ "p"

def calls : List (Anchor × StateCheck) :=
  [shared, ours₁, ours₂, theirs₁, theirs₂, theirs₃, theirs₄, joined].map
    (fun a => (a, fun _ _ _ => true))

theorem evaluated :
    (run (addStep config) (rootedAt root ∅) calls).tip.map (·.weight) = some 5 ∧
      ((run (addStep config) (rootedAt root ∅) calls).get theirs₄.id).map (·.weight) = some 6 ∧
      ((run (addStep config) (rootedAt root ∅) calls).get theirs₄.id).all (fun b =>
        (run (addStep config) (rootedAt root ∅) calls).descendsFrom b
          (run (addStep config) (rootedAt root ∅) calls).lockedId) = true := by decide +kernel

end Overtaken

end AnchorChain

end Gavl
