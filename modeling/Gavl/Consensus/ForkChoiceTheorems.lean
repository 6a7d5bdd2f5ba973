import Gavl.Consensus.HeadsTheorems

/-!
# Fork choice and delivery order

The heavier of two anchors is a total order on ids, so a rule that only ever follows weight
ends at the same tip whatever the order in which a tree is delivered. Finality may override
weight, and it looks at the tip of the moment: two orders of one tree can then end at
different tips. Where finality never overrides weight, they cannot.
-/

namespace Gavl

open ParentWalk Runs

/-! ## The order of tips -/

theorem heavier_iff {a b : Anchor} :
    heavier a b = true ↔ b.weight < a.weight ∨ a.weight = b.weight ∧ a.id < b.id := by
  unfold heavier
  split_ifs with h
  · rw [decide_eq_true_eq]
    omega
  · rw [decide_eq_true_eq]
    simp only [not_not] at h
    constructor
    · exact fun hid => Or.inr ⟨h, hid⟩
    · rintro (hlt | ⟨-, hid⟩)
      · omega
      · exact hid

theorem heavier_trans {a b d : Anchor} (hab : heavier a b = true) (hbd : heavier b d = true) :
    heavier a d = true := by
  rw [heavier_iff] at hab hbd ⊢
  rcases hab with h1 | ⟨h1, hid1⟩ <;> rcases hbd with h2 | ⟨h2, hid2⟩
  · exact Or.inl (by omega)
  · exact Or.inl (by omega)
  · exact Or.inl (by omega)
  · exact Or.inr ⟨by omega, lt_trans hid1 hid2⟩

theorem heavier_asymm {a b : Anchor} (hab : heavier a b = true) : heavier b a = false := by
  rw [← Bool.not_eq_true]
  intro hba
  rw [heavier_iff] at hab hba
  rcases hab with h1 | ⟨h1, hid1⟩ <;> rcases hba with h2 | ⟨h2, hid2⟩
  · omega
  · omega
  · omega
  · exact lt_asymm hid1 hid2

theorem heavier_total {a b : Anchor} (hid : a.id ≠ b.id) :
    heavier a b = true ∨ heavier b a = true := by
  rw [heavier_iff, heavier_iff]
  rcases lt_trichotomy a.weight b.weight with h | h | h
  · exact Or.inr (Or.inl h)
  · rcases lt_or_gt_of_ne hid with h' | h'
    · exact Or.inl (Or.inr ⟨h, h'⟩)
    · exact Or.inr (Or.inr ⟨h.symm, h'⟩)
  · exact Or.inl (Or.inl h)

/-! ## Trees above a genesis -/

/-- The difficulty of the anchor that extends a branch, given newest first. -/
def branchDifficulty (cfg : ChainConfig) : List Anchor → ℕ
  | [] => match cfg.schedule with
    | none => cfg.params.difficulty
    | some sched => sched.base
  | p :: rest => match cfg.schedule with
    | none => cfg.params.difficulty
    | some sched =>
      if (p.height + 1) % sched.epoch ≠ 0 then p.difficulty
      else retarget p.difficulty ((p :: rest).take sched.window) sched.targetIters sched.maxStep

/-- A branch of anchors of `S`, newest first, down to the genesis `g`, each of which verifies
against the heads certified so far; with the heads it certifies. -/
inductive Branch (cfg : ChainConfig) (g : Anchor) (gHeads : Heads) (S : List Anchor) :
    List Anchor → Heads → Prop where
  | root : Branch cfg g gHeads S [g] gHeads
  | extend {a p : Anchor} {rest : List Anchor} {heads heads' : Heads} :
      a ∈ S → a.link = some p.id → Branch cfg g gHeads S (p :: rest) heads →
      verifyAnchor cfg.crypto a (some p) heads cfg.params (branchDifficulty cfg (p :: rest))
        cfg.verifier = .ok heads' →
      Branch cfg g gHeads S (a :: p :: rest) heads'

/-- Every anchor of `S` verifies above the genesis. -/
def VerifiesAbove (cfg : ChainConfig) (g : Anchor) (gHeads : Heads) (S : List Anchor) : Prop :=
  ∀ a ∈ S, ∃ p rest heads, Branch cfg g gHeads S (a :: p :: rest) heads

section Branch

variable {cfg : ChainConfig} {g a : Anchor} {gHeads heads heads' : Heads}
  {S path path' : List Anchor}

theorem Branch.head_mem (h : Branch cfg g gHeads S path heads) :
    ∃ b rest, path = b :: rest ∧ b ∈ g :: S := by
  cases h with
  | root => exact ⟨g, [], rfl, List.mem_cons_self⟩
  | extend ha => exact ⟨_, _, rfl, List.mem_cons_of_mem _ ha⟩

/-- Where ids are distinct, an anchor has one branch, which certifies one map of heads. -/
theorem Branch.unique (hids : ((g :: S).map (·.id)).Nodup)
    (h : Branch cfg g gHeads S path heads) (h' : Branch cfg g gHeads S path' heads')
    (hhead : path.head? = path'.head?) : path = path' ∧ heads = heads' := by
  have hg : g ∉ S := fun hmem =>
    (List.nodup_cons.mp hids).1 (List.mem_map.mpr ⟨g, hmem, rfl⟩)
  induction h generalizing path' heads' with
  | root =>
    cases h' with
    | root => exact ⟨rfl, rfl⟩
    | extend ha =>
      simp only [List.head?_cons, Option.some.injEq] at hhead
      exact absurd (hhead ▸ ha) hg
  | @extend a p rest heads₀ heads₁ ha hlink hb hv ih =>
    cases h' with
    | root =>
      simp only [List.head?_cons, Option.some.injEq] at hhead
      exact absurd (hhead ▸ ha) hg
    | @extend a' p' rest' heads₀' heads₁' ha' hlink' hb' hv' =>
      simp only [List.head?_cons, Option.some.injEq] at hhead
      subst hhead
      have hid : p.id = p'.id := Option.some.inj (hlink.symm.trans hlink')
      have hmem : p ∈ g :: S := by
        obtain ⟨b, r, hbr, hmem⟩ := hb.head_mem
        rw [List.cons_eq_cons] at hbr
        exact hbr.1 ▸ hmem
      have hmem' : p' ∈ g :: S := by
        obtain ⟨b, r, hbr, hmem⟩ := hb'.head_mem
        rw [List.cons_eq_cons] at hbr
        exact hbr.1 ▸ hmem
      have hpp : p = p' := List.inj_on_of_nodup_map hids hmem hmem' hid
      subst hpp
      obtain ⟨hrest, rfl⟩ := ih hb' rfl
      rw [← hrest, hv] at hv'
      exact ⟨by rw [hrest], AnchorResult.ok.inj hv'⟩

/-- Every branch reaches down to the genesis. -/
theorem Branch.genesis_mem (h : Branch cfg g gHeads S path heads) : g ∈ path := by
  induction h with
  | root => exact List.mem_singleton_self g
  | extend _ _ _ _ ih => exact List.mem_cons_of_mem _ ih

end Branch

namespace AnchorChain

variable {c c' : AnchorChain} {cfg : ChainConfig} {check : StateCheck} {g a b p : Anchor}
  {gHeads heads : Heads} {S fed : List Anchor} {order order' : List Anchor}

theorem Linked.difficultyFor_eq (hL : c.Linked) (hp : c.Holds p) :
    c.difficultyFor cfg (some p) = branchDifficulty cfg (c.ancestry p) := by
  have hcons : ∃ rest, c.ancestry p = p :: rest := ⟨_, walk_succ _ p⟩
  obtain ⟨rest, hrest⟩ := hcons
  unfold difficultyFor
  rw [hrest]
  unfold branchDifficulty
  cases cfg.schedule with
  | none => rfl
  | some sched =>
    simp only [nextDifficulty]
    rw [← hL.take_ancestry hp, hrest]

/-! ## Feeding a tree -/

/-- A chain fed the anchors `fed` of a tree above `g`: it holds these and the genesis, each
with its branch and heads, and its tip is the heaviest of them. -/
structure Fed (cfg : ChainConfig) (g : Anchor) (gHeads : Heads) (S fed : List Anchor)
    (c : AnchorChain) : Prop where
  grown : c.Grown
  holds_iff : ∀ b, c.Holds b ↔ b ∈ g :: fed
  branch : ∀ b, c.Holds b → Branch cfg g gHeads S (c.ancestry b) (c.headsAt b.id)
  heaviest : ∃ t, c.Holds t ∧ c.tip = some t ∧ ∀ b, c.Holds b → b = t ∨ heavier t b = true
  settled_eq : c.settledId = some g.id

/-- The condition on a step: where `a` conflicts with the lock, finality says what weight
says. A branch found final is the heavier, and the tip's is kept only if it is. -/
def WeightDecides (c : AnchorChain) (a : Anchor) : Prop :=
  (c.store a).descendsFrom a c.lockedId = false →
    (((c.store a).forkVerdict a).final = true → (c.store a).wouldBeTip a = true) ∧
    (((c.store a).forkVerdict a).switchTo = none → (c.store a).wouldBeTip a = false)

instance (c : AnchorChain) (a : Anchor) : Decidable (WeightDecides c a) :=
  inferInstanceAs (Decidable (_ → _ ∧ _))

theorem Fed.of_installed (h : c.Installed g gHeads)
    (hheads : applyHeadsDelta ∅ g.headsDelta = gHeads) : Fed cfg g gHeads S [] c where
  grown := Grown.of_installed h hheads
  holds_iff := fun b => by rw [h.holds_iff, List.mem_singleton]
  branch := fun b hb => by
    have hgrown := Grown.of_installed h hheads
    rw [h.holds_iff.mp hb, ancestry_root h.parent_eq, hgrown.headsAt_eq (h.holds_iff.mpr rfl),
      rebuiltHeads_root h.parent_eq, h.floorId_eq, if_neg (by simp), hheads]
    exact Branch.root
  heaviest := ⟨g, h.holds_iff.mpr rfl, h.tip_eq, fun b hb => Or.inl (h.holds_iff.mp hb)⟩
  settled_eq := h.settledId_eq

/-- In a tree with distinct ids, an anchor whose parent has been fed is accepted, and it is
stored above its branch. -/
theorem Fed.accepts (h : Fed cfg g gHeads S fed c) (hS : VerifiesAbove cfg g gHeads S)
    (hids : ((g :: S).map (·.id)).Nodup) (hsub : fed ⊆ S) (ha : a ∈ S) (hnew : a ∉ fed)
    (hp : p ∈ g :: fed) (hlink : a.link = some p.id)
    (hcheck : ∀ c, ∀ a ∈ S, ∀ heads, check c a heads = true) :
    ∃ heads, c.Accepts cfg check a heads ∧ c.parent a = some p ∧
      Branch cfg g gHeads S (a :: c.ancestry p) heads := by
  have hpheld : c.Holds p := (h.holds_iff p).mpr hp
  have hparent : c.parent a = some p := by
    unfold parent
    rw [hlink]
    exact hpheld
  -- the branch the tree gives `a` is the one the chain holds below it
  obtain ⟨p', rest, heads, hbr⟩ := hS a ha
  cases hbr with
  | @extend _ _ _ heads₀ _ _ hlink' hb hv =>
    have hmem : p ∈ g :: S := by
      rcases List.mem_cons.mp hp with rfl | hp
      · exact List.mem_cons_self
      · exact List.mem_cons_of_mem _ (hsub hp)
    have hmem' : p' ∈ g :: S := by
      obtain ⟨b, r, hbr, hmem⟩ := hb.head_mem
      rw [List.cons_eq_cons] at hbr
      exact hbr.1 ▸ hmem
    have hpp : p = p' :=
      List.inj_on_of_nodup_map hids hmem hmem' (Option.some.inj (hlink.symm.trans hlink'))
    subst hpp
    have hheld := h.branch p hpheld
    obtain ⟨hpath, hheads⟩ := hheld.unique hids hb (by
      show (c.ancestry p).head? = some p
      unfold ancestry
      rw [walk_succ]
      rfl)
    refine ⟨heads, ⟨?_, fun _ => by rw [hparent]; simp, fun hnone => ?_, ?_, hcheck _ a ha _⟩,
      hparent, ?_⟩
    · cases hget : c.get a.id with
      | none => rfl
      | some b =>
        have hbid := h.grown.linked.keyed a.id b hget
        have hb := (h.holds_iff b).mp (h.grown.linked.holds_of_get hget)
        have hbS : b ∈ g :: S := by
          rcases List.mem_cons.mp hb with rfl | hb
          · exact List.mem_cons_self
          · exact List.mem_cons_of_mem _ (hsub hb)
        have hba : b = a :=
          List.inj_on_of_nodup_map hids hbS (List.mem_cons_of_mem _ ha) hbid
        subst hba
        rcases List.mem_cons.mp hb with rfl | hb
        · exact absurd (List.mem_map.mpr ⟨b, ha, rfl⟩) (List.nodup_cons.mp hids).1
        · exact absurd hb hnew
    · rw [AnchorBody.link_of_prev_none hnone] at hlink
      exact absurd hlink (by simp)
    · unfold verify parentHeads
      rw [hparent, h.grown.linked.difficultyFor_eq hpheld, hpath]
      simp only [hheads]
      exact hv
    · rw [hpath]
      exact Branch.extend ha hlink hb hv

/-- Where finality says what weight says and nothing is unsettled, the tip follows weight. -/
theorem WeightDecides.takesTip_eq (hw : WeightDecides c a)
    (hset : (c.store a).descendsFrom a c.settledId = true) :
    (c.store a).takesTip a = (c.store a).wouldBeTip a := by
  have hlock : (c.store a).lockedId = c.lockedId := rfl
  have hsettled : (c.store a).settledId = c.settledId := rfl
  unfold takesTip
  rw [hlock, hsettled, hset, Bool.and_true]
  cases hdesc : (c.store a).descendsFrom a c.lockedId with
  | true => rfl
  | false =>
    obtain ⟨hfinal, hkept⟩ := hw hdesc
    rw [if_neg (by simp)]
    cases hwould : (c.store a).wouldBeTip a with
    | true =>
      have hsome : ((c.store a).forkVerdict a).switchTo ≠ none := fun hnone =>
        absurd (hkept hnone) (by simp [hwould])
      rw [Option.isSome_iff_ne_none.mpr hsome, Bool.or_true, Bool.true_and]
    | false =>
      have hnot : ((c.store a).forkVerdict a).final = false := by
        rw [← Bool.not_eq_true]
        exact fun hf => absurd (hfinal hf) (by simp [hwould])
      rw [hnot, Bool.or_false, Bool.and_false]

/-- One step of the feed. -/
theorem Fed.step (h : Fed cfg g gHeads S fed c) (hset : cfg.settlementDepth = none)
    (hacc : c.Accepts cfg check a heads) (hparent : c.parent a = some p)
    (hbr : Branch cfg g gHeads S (a :: c.ancestry p) heads) (hw : WeightDecides c a) :
    Fed cfg g gHeads S (fed ++ [a]) ((c.store a).choose cfg a heads).1 := by
  have hadded := h.grown.added hacc
  have hp : c.Holds p := h.grown.linked.holds_parent hparent
  have hs : SameStore (c.store a) ((c.store a).choose cfg a heads).1 := sameStore_choose
  have hheld : ((c.store a).choose cfg a heads).1.Holds a := (hadded.holds_iff a).mpr (Or.inl rfl)
  have hanc : ((c.store a).choose cfg a heads).1.ancestry a = a :: c.ancestry p := by
    rw [hadded.grown.linked.ancestry_cons hheld
      ((hadded.parent_eq a (Or.inl rfl)).trans hparent), hadded.ancestry_eq p hp]
  obtain ⟨t, ht, htip, hmax⟩ := h.heaviest
  have hstoreTip : (c.store a).tip = some t := by
    unfold tip at htip ⊢
    obtain ⟨id, hid, hget⟩ := Option.bind_eq_some_iff.mp htip
    have hid' : (c.store a).tipId = some id := hid
    rw [hid']
    exact get_store_of_some hacc.fresh hget
  have hwould : (c.store a).wouldBeTip a = heavier a t := by
    unfold wouldBeTip
    rw [hstoreTip]
  have hgmem : g ∈ (c.store a).ancestry a := by
    rw [← hs.ancestry, hanc]
    exact hbr.genesis_mem
  have hsettled : (c.store a).descendsFrom a c.settledId = true := by
    rw [h.settled_eq]
    unfold descendsFrom
    split
    · rfl
    · rename_i i hi
      obtain ⟨hi, -⟩ := Option.filter_eq_some_iff.mp hi
      rw [List.any_eq_true]
      exact ⟨g, hgmem, by simpa using Option.some.inj hi⟩
  have htake := hw.takesTip_eq hsettled
  refine ⟨hadded.grown, fun b => ?_, fun b hb => ?_, ?_, ?_⟩
  · rw [hadded.holds_iff, h.holds_iff]
    simp only [List.mem_cons, List.mem_append, List.not_mem_nil, or_false]
    tauto
  · rcases (hadded.holds_iff b).mp hb with rfl | hb
    · rw [hanc, hadded.headsAt_new]
      exact hbr
    · rw [hadded.ancestry_eq b hb, hadded.headsAt_old b hb]
      exact h.branch b hb
  · have hid : a.id ≠ t.id := fun heq => by
      have hfresh := hacc.fresh
      rw [heq] at hfresh
      unfold Holds at ht
      rw [ht] at hfresh
      exact absurd hfresh (by simp)
    cases hheavy : heavier a t with
    | true =>
      rw [hwould, hheavy] at htake
      refine ⟨a, hheld, ?_, fun b hb => ?_⟩
      · unfold tip
        rw [tipId_choose, htake]
        exact hheld
      · rcases (hadded.holds_iff b).mp hb with rfl | hb
        · exact Or.inl rfl
        · rcases hmax b hb with rfl | hb
          · exact Or.inr hheavy
          · exact Or.inr (heavier_trans hheavy hb)
    | false =>
      rw [hwould, hheavy] at htake
      refine ⟨t, (hadded.holds_iff t).mpr (Or.inr ht), ?_, fun b hb => ?_⟩
      · unfold tip
        rw [tipId_choose, htake, if_neg (by simp), hs.get]
        exact hstoreTip
      · rcases (hadded.holds_iff b).mp hb with rfl | hb
        · rcases heavier_total hid with h' | h'
          · rw [hheavy] at h'
            exact absurd h' (by simp)
          · exact Or.inr h'
        · exact hmax b hb
  · rw [settledId_choose hset]
    exact h.settled_eq

/-- A whole parent-first order, each of whose steps weight decides. -/
theorem Fed.run (hset : cfg.settlementDepth = none) (hS : VerifiesAbove cfg g gHeads S)
    (hids : ((g :: S).map (·.id)).Nodup)
    (hcheck : ∀ c, ∀ a ∈ S, ∀ heads, check c a heads = true)
    (h : Fed cfg g gHeads S fed c) (hsub : fed ++ order ⊆ S) (hnodup : (fed ++ order).Nodup)
    (hfirst : ParentFirst (g :: fed) order)
    (hw : Along (feedStep cfg check) WeightDecides c order) :
    Fed cfg g gHeads S (fed ++ order) (Runs.run (feedStep cfg check) c order) := by
  induction order generalizing fed c with
  | nil => simpa using h
  | cons a order ih =>
    obtain ⟨⟨p, hp, hlink⟩, hrest⟩ := hfirst
    have ha : a ∈ S := hsub (List.mem_append_right _ List.mem_cons_self)
    have hnew : a ∉ fed := fun hmem =>
      (List.nodup_append.mp hnodup).2.2 a hmem a List.mem_cons_self rfl
    obtain ⟨heads, hacc, hparent, hbr⟩ := h.accepts hS hids
      (fun b hb => hsub (List.mem_append_left _ hb)) ha hnew hp hlink hcheck
    have hstep := feedStep_of_accepts hacc
    have hcons : fed ++ a :: order = fed ++ [a] ++ order := by simp
    rw [run_cons, hstep, hcons]
    rw [along_cons, hstep] at hw
    rw [hcons] at hsub hnodup
    exact ih (h.step hset hacc hparent hbr hw.1) hsub hnodup hrest hw.2

/-- **Fork choice converges where finality never overrides weight.** Two parent-first orders
of one tree of valid anchors, at no step of which `resolveFork` decides against the heavier
branch, end at the same tip. -/
theorem tip_eq_of_weightDecides (hset : cfg.settlementDepth = none)
    (hroot : AnchorChain.new.installGenesis cfg g gHeads = .ok c)
    (hheads : applyHeadsDelta ∅ g.headsDelta = gHeads) (hS : VerifiesAbove cfg g gHeads S)
    (hids : ((g :: S).map (·.id)).Nodup)
    (hcheck : ∀ c, ∀ a ∈ S, ∀ heads, check c a heads = true)
    (hperm : order.Perm S) (hperm' : order'.Perm S) (hfirst : ParentFirst [g] order)
    (hfirst' : ParentFirst [g] order') (hw : Along (feedStep cfg check) WeightDecides c order)
    (hw' : Along (feedStep cfg check) WeightDecides c order') :
    (Runs.run (feedStep cfg check) c order).tip
      = (Runs.run (feedStep cfg check) c order').tip := by
  have hstart : Fed cfg g gHeads S [] c := Fed.of_installed (installGenesis_ok hroot) hheads
  have hnodup : S.Nodup := (List.Nodup.of_map _ hids).of_cons
  have h1 := hstart.run hset hS hids hcheck hperm.subset
    (hperm.nodup_iff.mpr hnodup) hfirst hw
  have h2 := hstart.run hset hS hids hcheck hperm'.subset
    (hperm'.nodup_iff.mpr hnodup) hfirst' hw'
  rw [List.nil_append] at h1 h2
  obtain ⟨t, ht, htip, hmax⟩ := h1.heaviest
  obtain ⟨t', ht', htip', hmax'⟩ := h2.heaviest
  have hmem : ∀ b, b ∈ g :: order ↔ b ∈ g :: order' := fun b => by
    rw [List.mem_cons, List.mem_cons, hperm.mem_iff, hperm'.mem_iff]
  have hle := hmax t' ((h1.holds_iff t').mpr ((hmem t').mpr ((h2.holds_iff t').mp ht')))
  have hle' := hmax' t ((h2.holds_iff t).mpr ((hmem t).mp ((h1.holds_iff t).mp ht)))
  rw [htip, htip']
  rcases hle with rfl | hle
  · rfl
  · rcases hle' with rfl | hle'
    · rfl
    · rw [heavier_asymm hle] at hle'
      exact absurd hle' (by simp)

/-! ## A partition in miniature -/

namespace Partition

/-- Finality one anchor deep; every proof passes. -/
def config : ChainConfig := { openConfig with finalityDepth := some 1 }

/-- Block 0 of the example. -/
def root : Anchor := assembled config.crypto 1 none genesisProducer ∅ ∅

/-- The anchor `producer` assembles on `p`, certifying no write. -/
def next (p : Anchor) (producer : String) : Anchor :=
  assembled config.crypto 1 (some p) producer ∅ ∅

/-- The history both sides share: one anchor of `p`. -/
def shared : Anchor := next root "p"

/-- The branch of `p`. -/
def ours : Anchor := next shared "p"

/-- The branch of `q`, one anchor longer. -/
def theirs : Anchor := next shared "q"
def theirs' : Anchor := next theirs "q"

def tree : List Anchor := [shared, ours, theirs, theirs']

/-- The same anchors with the shorter branch last. -/
def late : List Anchor := [shared, theirs, theirs', ours]

/-- The state after an order, with no application check. -/
def after (order : List Anchor) : AnchorChain :=
  Runs.run (feedStep config (fun _ _ _ => true)) (rootedAt root ∅) order

/-- An assembled anchor passes every check. -/
theorem verifies {S path : List Anchor} {p : Anchor} {rest : List Anchor} (producer : String)
    (hpath : path = p :: rest) (hid : p.id ≠ "") (hmem : next p producer ∈ S)
    (hb : Branch config root ∅ S path ∅) :
    Branch config root ∅ S (next p producer :: path) ∅ := by
  subst hpath
  refine Branch.extend hmem (AnchorBody.link_eq_some.mpr ⟨rfl, hid⟩) hb ?_
  have hd : branchDifficulty config (p :: rest) = 1 := rfl
  rw [hd]
  unfold verifyAnchor
  simp [next, assembled, config, openConfig, verifyProofs, challengeFor, signageWalk, hexToNat?,
    requiredIters, maxSignage, spaceWeightFor, hexDigit?]
  rfl

/-- What running the example shows. -/
theorem evaluated :
    root.id ≠ "" ∧ shared.id ≠ "" ∧ theirs.id ≠ "" ∧
      ((root :: tree).map (·.id)).Nodup ∧
      ParentFirst [root] tree ∧ ParentFirst [root] late ∧
      ParentFirst [root] [shared, ours, theirs] ∧ ParentFirst [root] [shared, theirs, ours] ∧
      (after tree).tip.map (·.id) = some theirs'.id ∧ (after late).tip.map (·.id) = some ours.id ∧
      Along (feedStep config (fun _ _ _ => true)) WeightDecides (rootedAt root ∅)
        [shared, ours, theirs] ∧
      Along (feedStep config (fun _ _ _ => true)) WeightDecides (rootedAt root ∅)
        [shared, theirs, ours] := by decide +kernel

/-- Every anchor of a part of the tree that has the parents of its members. -/
theorem verifiesAbove {S : List Anchor} (hS : S ⊆ tree) (hshared : shared ∈ S)
    (htheirs : theirs' ∈ S → theirs ∈ S) : VerifiesAbove config root ∅ S := by
  obtain ⟨hroot, hsharedId, htheirsId, -⟩ := evaluated
  have hb : Branch config root ∅ S [shared, root] ∅ := verifies "p" rfl hroot hshared Branch.root
  intro a ha
  have hmem := hS ha
  simp only [tree, List.mem_cons, List.not_mem_nil, or_false] at hmem
  rcases hmem with rfl | rfl | rfl | rfl
  · exact ⟨_, _, _, hb⟩
  · exact ⟨_, _, _, verifies "p" rfl hsharedId ha hb⟩
  · exact ⟨_, _, _, verifies "q" rfl hsharedId ha hb⟩
  · exact ⟨_, _, _, verifies "q" rfl htheirsId ha (verifies "q" rfl hsharedId (htheirs ha) hb)⟩

end Partition

open Partition in
/-- Both orders deliver the same valid anchors, parents first. In one the longer branch wins,
since nothing conflicts with the lock; in the other it has been locked, and the shorter one
takes the tip back, because its producer holds all of the history before the fork. -/
theorem tip_depends_on_order :
    AnchorChain.new.installGenesis config root ∅ = .ok (rootedAt root ∅) ∧
      VerifiesAbove config root ∅ tree ∧ late.Perm tree ∧ ParentFirst [root] tree ∧
      ParentFirst [root] late ∧ (after tree).tip ≠ (after late).tip := by
  obtain ⟨-, -, -, hids, hfirst, hfirst', -, -, htip, htip', -⟩ := evaluated
  refine ⟨installGenesis_new rfl rfl rfl,
    verifiesAbove (List.Subset.refl _) (by simp [tree]) (fun _ => by simp [tree]), ?_, hfirst,
    hfirst', fun htips => ?_⟩
  · have hswap : ([theirs, theirs'] ++ [ours]).Perm ([ours] ++ [theirs, theirs']) :=
      List.perm_append_comm
    exact hswap.cons shared
  · rw [htips, htip', Option.some.injEq] at htip
    have hdistinct := (List.nodup_cons.mp (List.nodup_cons.mp (List.nodup_cons.mp hids).2).2).1
    exact hdistinct (List.mem_map.mpr ⟨theirs', by simp, htip.symm⟩)

open Partition in
/-- Without the last anchor of the longer branch both orders are decided by weight. -/
theorem tip_eq_of_weightDecides_short :
    (after [shared, ours, theirs]).tip = (after [shared, theirs, ours]).tip := by
  obtain ⟨-, -, -, hids, -, -, hfirst, hfirst', -, -, hw, hw'⟩ := evaluated
  have hsub : [shared, ours, theirs].Sublist tree :=
    List.sublist_append_left [shared, ours, theirs] [theirs']
  have hswap : ([theirs] ++ [ours]).Perm ([ours] ++ [theirs]) := List.perm_append_comm
  have hinst : AnchorChain.new.installGenesis config root ∅ = .ok (rootedAt root ∅) :=
    installGenesis_new rfl rfl rfl
  exact tip_eq_of_weightDecides (S := [shared, ours, theirs]) rfl hinst rfl
    (verifiesAbove hsub.subset (by simp) (by simp))
    (hids.sublist ((hsub.cons_cons root).map _)) (fun _ _ _ _ => rfl) (List.Perm.refl _)
    (hswap.cons shared)
    hfirst hfirst' hw hw'

end AnchorChain

end Gavl
