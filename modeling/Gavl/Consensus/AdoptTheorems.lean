import Gavl.Consensus.HeadsTheorems

/-!
# An adopted chain mirrors the full one

A chain bootstrapped at a floor holds a part of what a full node holds. Above the floor it
reconstructs the same heads, asks for the same difficulty and gives the same verdicts, and it
keeps doing so while both are fed the same tree and while it prunes, within two limits. Heads
are rebuilt from the lowest anchor a walk reaches, so ancestry below the floor must not hide
the floor's heads; and a retarget window that a prune cuts off is no longer the full node's.
-/

namespace Gavl

open ParentWalk Runs

namespace AnchorChain

variable {c c' full light : AnchorChain} {cfg : ChainConfig} {check : StateCheck}
  {a b p f x t bottom : Anchor} {heads : Heads} {sched : RetargetSchedule}

/-! ## Mirrors -/

/-- `light` holds a part of what `full` holds. -/
structure PartOf (full light : AnchorChain) : Prop where
  linked : light.Linked
  sub : ∀ a, light.Holds a → full.Holds a

/-- A part that materializes at its floor and at its tip what `full` certifies there. -/
structure Mirrors (full light : AnchorChain) (f : Anchor) : Prop extends PartOf full light where
  floor_held : light.Holds f
  floor_eq : light.floorId = some f.id
  floor_heads : light.floorHeads = full.headsAt f.id
  base : light.rebuiltHeads f = full.headsAt f.id
  tip : ∃ t, light.tip = some t ∧ light.Holds t ∧ light.tipHeads = full.headsAt t.id ∧
    Anc light.parent t f

/-- At `a` the two chains are the same to whoever extends it. -/
structure AgreesAt (cfg : ChainConfig) (full light : AnchorChain) (a : Anchor) : Prop where
  held : full.Holds a
  heads_eq : light.headsAt a.id = full.headsAt a.id
  difficulty_eq : light.difficultyFor cfg (some a) = full.difficultyFor cfg (some a)
  verdict_eq : ∀ x : Anchor, x.link = some a.id → light.verify cfg x = full.verify cfg x

/-- The retarget window above `a`, if one is drawn there, ends no lower than `b`. -/
def WindowWithin (sched : RetargetSchedule) (a b : Anchor) : Prop :=
  (a.height + 1) % sched.epoch ≠ 0 ∨ b.height + sched.window ≤ a.height + 1

namespace PartOf

/-- Links held by the light chain are the full chain's. -/
theorem parent_full (h : PartOf full light) (hp : light.parent a = some p) :
    full.parent a = some p := by
  obtain ⟨id, hprev, hne, hget⟩ := parent_eq_some.mp hp
  have hid := h.linked.keyed id p hget
  have hfull := h.sub p (h.linked.holds_of_get hget)
  unfold Holds at hfull
  rw [hid] at hfull
  exact parent_eq_some.mpr ⟨id, hprev, hne, hfull⟩

/-- Heads that agree at an ancestor agree above it: both are overlaid with the same deltas. -/
theorem rebuiltHeads_of_anc (h : PartOf full light) (hfull : full.Grown)
    (hb : light.rebuiltHeads b = full.headsAt b.id) (hab : Anc light.parent a b)
    (ha : light.Holds a) : light.rebuiltHeads a = full.headsAt a.id := by
  induction hab with
  | refl a => exact hb
  | step hp _ ih =>
    rw [rebuiltHeads_cons h.linked ha hp, ih hb (h.linked.holds_parent hp),
      hfull.headsAt_child (h.sub _ ha) (h.parent_full hp)]

end PartOf

namespace Mirrors

theorem headsAt_eq (h : Mirrors full light f) (hfull : full.Grown) (ha : light.Holds a)
    (haf : Anc light.parent a f) : light.headsAt a.id = full.headsAt a.id := by
  refine headsAt_eq_of ha (fun htip => ?_) (fun hfloor => ?_)
    (h.rebuiltHeads_of_anc hfull h.base haf ha)
  · obtain ⟨t, ht, -, hheads, -⟩ := h.tip
    unfold AnchorChain.tip at ht
    unfold Holds at ha
    rw [htip, Option.bind_some, ha, Option.some.injEq] at ht
    rw [hheads, ht]
  · rw [h.floor_eq, Option.some.injEq] at hfloor
    rw [h.floor_heads, hfloor]

theorem difficultyFor_eq (h : Mirrors full light f)
    (hsched : cfg.schedule = some sched) (ha : light.Holds a) (hab : Anc light.parent a b)
    (hw : WindowWithin sched a b) :
    light.difficultyFor cfg (some a) = full.difficultyFor cfg (some a) := by
  unfold difficultyFor
  rw [hsched]
  simp only [nextDifficulty]
  split_ifs with hepoch
  · rfl
  · have hwin : sched.window + b.height ≤ a.height + 1 := by
      rcases hw with hw | hw
      · exact absurd hw hepoch
      · omega
    rw [h.linked.graded.walk_eq_of_anc (fun y q _ hq => h.parent_full hq) ha hab hwin]

theorem agreesAt (h : Mirrors full light f) (hfull : full.Grown)
    (hsched : cfg.schedule = some sched) (ha : light.Holds a) (haf : Anc light.parent a f)
    (hab : Anc light.parent a b) (hw : WindowWithin sched a b) : AgreesAt cfg full light a where
  held := h.sub a ha
  heads_eq := h.headsAt_eq hfull ha haf
  difficulty_eq := h.difficultyFor_eq hsched ha hab hw
  verdict_eq := fun x hx => by
    have hparent : ∀ {c : AnchorChain}, c.Holds a → c.parent x = some a := fun hheld => by
      unfold parent
      rw [hx]
      exact hheld
    exact verify_congr (hparent (h.sub a ha)) (hparent ha) (h.headsAt_eq hfull ha haf)
      (h.difficultyFor_eq hsched ha hab hw)

/-! ## Pruning the light chain -/

/-- A prune moves the floor up the tip's branch and materializes its heads there. -/
theorem prune (h : Mirrors full light f) (hfull : full.Grown) (height : ℤ) :
    ∃ f', Mirrors full (light.prune cfg height) f' := by
  rcases prune_cases light cfg height with hsame | ⟨t, f', htip, hmem, hheight, hnew, hprune⟩
  · rw [hsame]
    exact ⟨f, h⟩
  obtain ⟨t', htip', ht, htheads, htf⟩ := h.tip
  rw [htip, Option.some.injEq] at htip'
  subst htip'
  have hL := h.linked
  have htf' : Anc light.parent t f' := (hL.mem_ancestry ht).mp hmem
  have hf' : light.Holds f' := hL.holds_anc ht htf'
  -- the new floor is above the old one on the same branch
  have hlt : f.height < f'.height := by
    have := hnew f (by rw [h.floor_eq]; exact h.floor_held)
    omega
  have hff' : Anc light.parent f' f := hL.graded.anc_of_height_le ht htf' htf hlt.le
  have hheads : light.headsAt f'.id = full.headsAt f'.id := h.headsAt_eq hfull hf' hff'
  have hfheld : (light.prunedAt (light.pruneHeight cfg height) f').Holds f' :=
    holds_prunedAt.mpr ⟨hf', hheight.ge⟩
  have hroot : (light.prunedAt (light.pruneHeight cfg height) f').parent f' = none := by
    cases hp : (light.prunedAt (light.pruneHeight cfg height) f').parent f' with
    | none => rfl
    | some q =>
      obtain ⟨hq, hle⟩ := parent_prunedAt.mp hp
      have := hL.height_eq f' q hf' hq
      omega
  have htheld : (light.prunedAt (light.pruneHeight cfg height) f').Holds t := by
    have := hL.graded.height_le ht htf'
    exact holds_prunedAt.mpr ⟨ht, by omega⟩
  rw [hprune]
  refine ⟨f', ⟨hL.prunedAt, fun a ha => h.sub a (holds_prunedAt.mp ha).1⟩, hfheld, rfl, hheads, ?_,
    t, ?_, htheld, htheads, hL.anc_prunedAt ht htf' hheight.ge⟩
  · have hfloor : (light.prunedAt (light.pruneHeight cfg height) f').floorId = some f'.id := rfl
    rw [rebuiltHeads_root hroot, if_pos hfloor]
    exact hheads
  · obtain ⟨id, hid, hget⟩ := Option.bind_eq_some_iff.mp htip
    have hid' : (light.prunedAt (light.pruneHeight cfg height) f').tipId = some id := hid
    unfold AnchorChain.tip
    rw [hid', Option.bind_some, ← hL.keyed id t hget]
    exact htheld

end Mirrors

/-! ## Feeding both the same tree -/

/-- The application's check, of an anchor and the heads it certifies. -/
def appCheck (app : Anchor → Heads → Bool) : StateCheck := fun _ a heads => app a heads

/-- Every anchor held above its parent has passed the checks of `add`. -/
def Vetted (cfg : ChainConfig) (app : Anchor → Heads → Bool) (c : AnchorChain) : Prop :=
  ∀ a p, c.Holds a → c.parent a = some p →
    c.verify cfg a = .ok (c.headsAt a.id) ∧ app a (c.headsAt a.id) = true

variable {app : Anchor → Heads → Bool}

theorem Rooted.vetted (h : Rooted cfg c) : Vetted cfg app c := fun a p ha hp => by
  rw [h.parent_eq ha] at hp
  exact absurd hp (by simp)

theorem Vetted.added (h : Vetted cfg app c) (hgrown : c.Grown)
    (hacc : c.Accepts cfg (appCheck app) a heads) (hadd : Added c a heads c') :
    Vetted cfg app c' := by
  intro b p hb hp
  have hb' := (hadd.holds_iff b).mp hb
  have hp' : c.parent b = some p := (hadd.parent_eq b hb').symm.trans hp
  have hpheld : c.Holds p := hgrown.linked.holds_parent hp'
  have hverify : c'.verify cfg b = c.verify cfg b :=
    verify_congr hp' hp (hadd.headsAt_old p hpheld)
      (difficultyFor_congr hgrown.linked hadd.linked hpheld (hadd.holds_old hpheld)
        (hadd.ancestry_eq p hpheld))
  rw [hverify]
  rcases hb' with rfl | hb'
  · rw [hadd.headsAt_new]
    exact ⟨hacc.verified, hacc.state⟩
  · rw [hadd.headsAt_old b hb']
    exact h b p hb' hp'

/-- Both chains while they are fed one tree above the floor `f`. `bottom` is the lowest anchor
the light chain holds below it, `known` what an id may name, `seen` the part of the tree fed
so far. -/
structure Grafted (cfg : ChainConfig) (app : Anchor → Heads → Bool) (known : Anchor → Prop)
    (full light : AnchorChain) (f bottom : Anchor) (seen : List Anchor) : Prop where
  grown : full.Grown
  vetted : Vetted cfg app full
  ids : ∀ y z, known y → known z → y.id = z.id → y = z
  full_known : ∀ a, full.Holds a → known a
  mirrors : Mirrors full light f
  below : Anc light.parent f bottom
  above : ∀ a, light.Holds a → f.height ≤ a.height → Anc light.parent a f
  seen_held : ∀ a ∈ seen, full.Holds a → light.Holds a ∧ f.height ≤ a.height

/-- Above a floor on an epoch boundary a window reaches no lower than what `adopt` demands. -/
theorem windowWithin_of_boundary (hf : f.height % sched.epoch = 0)
    (hwin : bottom.height + sched.window ≤ f.height + sched.epoch) (hle : f.height ≤ a.height) :
    WindowWithin sched a bottom := by
  by_cases ha : (a.height + 1) % sched.epoch = 0
  · refine Or.inr ?_
    obtain ⟨i, hi⟩ := Nat.dvd_of_mod_eq_zero hf
    obtain ⟨j, hj⟩ := Nat.dvd_of_mod_eq_zero ha
    have hij : i < j := by
      by_contra hcon
      have := Nat.mul_le_mul_left sched.epoch (not_lt.mp hcon)
      omega
    have hstep : sched.epoch * (i + 1) ≤ sched.epoch * j := Nat.mul_le_mul_left _ hij
    rw [Nat.mul_add, Nat.mul_one] at hstep
    omega
  · exact Or.inl ha

namespace Grafted

variable {known : Anchor → Prop} {seen : List Anchor}

theorem agreesAt (h : Grafted cfg app known full light f bottom seen)
    (hsched : cfg.schedule = some sched) (hf : f.height % sched.epoch = 0)
    (hwin : bottom.height + sched.window ≤ f.height + sched.epoch) (ha : light.Holds a)
    (hle : f.height ≤ a.height) : AgreesAt cfg full light a :=
  h.mirrors.agreesAt h.grown hsched ha (h.above a ha hle) ((h.above a ha hle).trans h.below)
    (windowWithin_of_boundary hf hwin hle)

/-- The full chain alone takes an anchor of the tree. -/
theorem full_added (h : Grafted cfg app known full light f bottom seen) {full' : AnchorChain}
    (hacc : full.Accepts cfg (appCheck app) x heads) (hadd : Added full x heads full')
    (hx : known x) (hnew : x ∉ seen) : Grafted cfg app known full' light f bottom seen where
  grown := hadd.grown
  vetted := h.vetted.added h.grown hacc hadd
  ids := h.ids
  full_known := fun a ha => by
    rcases (hadd.holds_iff a).mp ha with rfl | ha
    · exact hx
    · exact h.full_known a ha
  mirrors := by
    have hm := h.mirrors
    have hf := hm.sub f hm.floor_held
    obtain ⟨t, htip, ht, htheads, htf⟩ := hm.tip
    exact ⟨⟨hm.linked, fun a ha => hadd.holds_old (hm.sub a ha)⟩, hm.floor_held, hm.floor_eq,
      by rw [hm.floor_heads, hadd.headsAt_old f hf], by rw [hm.base, hadd.headsAt_old f hf],
      t, htip, ht, by rw [htheads, hadd.headsAt_old t (hm.sub t ht)], htf⟩
  below := h.below
  above := h.above
  seen_held := fun a ha hheld => by
    rcases (hadd.holds_iff a).mp hheld with rfl | hheld
    · exact absurd ha hnew
    · exact h.seen_held a ha hheld

/-- The light chain takes an anchor the full one holds. -/
theorem light_extended (h : Grafted cfg app known full light f bottom seen) {light' : AnchorChain}
    (hx : full.Holds x) (hnew : light.get x.id = none)
    (hp : light.parent x = some p) (hle : f.height ≤ p.height)
    (hext : Extended light x (full.headsAt x.id) light') :
    Grafted cfg app known full light' f bottom (seen ++ [x]) := by
  have hm := h.mirrors
  have hL := hm.linked
  have hpheld := hL.holds_parent hp
  have hxp : Anc light'.parent x f :=
    Anc.step ((hext.parent_eq x (Or.inl rfl)).trans hp)
      (hext.anc_old hL hpheld (h.above p hpheld hle))
  have hheight : p.height + 1 = x.height :=
    h.grown.linked.height_eq x p hx (hm.parent_full hp)
  obtain ⟨t, htip, ht, htheads, htf⟩ := hm.tip
  refine ⟨h.grown, h.vetted, h.ids, h.full_known, ⟨⟨hext.linked, fun a ha => ?_⟩,
    hext.holds_old hm.floor_held, hext.floorId_eq.trans hm.floor_eq,
    hext.floorHeads_eq.trans hm.floor_heads,
    (hext.rebuilt_eq f hm.floor_held).trans hm.base, ?_⟩,
    hext.anc_old hL hm.floor_held h.below, fun a ha hfa => ?_, fun a ha hheld => ?_⟩
  · rcases (hext.holds_iff a).mp ha with rfl | ha
    · exact hx
    · exact hm.sub a ha
  · rcases hext.tip_cases with ⟨hid, hheads⟩ | ⟨hid, hheads⟩
    · refine ⟨x, ?_, hext.holds_new, hheads, hxp⟩
      unfold AnchorChain.tip
      rw [hid]
      exact hext.holds_new
    · refine ⟨t, ?_, hext.holds_old ht, hheads.trans htheads, hext.anc_old hL ht htf⟩
      obtain ⟨id, hid', hget⟩ := Option.bind_eq_some_iff.mp htip
      unfold AnchorChain.tip
      rw [hid, hid', Option.bind_some, ← hL.keyed id t hget]
      exact hext.holds_old ht
  · rcases (hext.holds_iff a).mp ha with rfl | ha
    · exact hxp
    · exact hext.anc_old hL ha (h.above a ha hfa)
  · rcases List.mem_append.mp ha with ha | ha
    · obtain ⟨hl, hfa⟩ := h.seen_held a ha hheld
      exact ⟨hext.holds_old hl, hfa⟩
    · rw [List.mem_singleton] at ha
      subst ha
      exact ⟨hext.holds_new, by omega⟩

/-- No anchor the light chain holds links to one of the tree that it lacks. -/
theorem link_ne (h : Grafted cfg app known full light f bottom seen) (hx : full.Holds x)
    (hnew : light.get x.id = none) (hle : f.height < x.height) (hb : light.Holds b) :
    b.link ≠ some x.id := by
  intro hl
  have hfull : full.parent b = some x := by
    unfold parent
    rw [hl]
    exact hx
  have hlight : light.parent b = none := by
    unfold parent
    rw [hl]
    exact hnew
  have hheight : x.height + 1 = b.height :=
    h.grown.linked.height_eq b x (h.mirrors.sub b hb) hfull
  rcases (h.above b hb (by omega)).cases_parent with rfl | ⟨q, hq, -⟩
  · omega
  · rw [hlight] at hq
    exact absurd hq (by simp)

/-- What the full chain holds of the tree, the light one takes. -/
theorem light_step (h : Grafted cfg app known full light f bottom seen)
    (hagree : AgreesAt cfg full light p) (hp : light.Holds p) (hle : f.height ≤ p.height)
    (hlink : x.link = some p.id) (hx : full.Holds x) :
    Grafted cfg app known full (feedStep cfg (appCheck app) light x) f bottom (seen ++ [x]) := by
  have hplight : light.parent x = some p := by
    unfold parent
    rw [hlink]
    exact hp
  have hpfull := h.mirrors.parent_full hplight
  have hheight : p.height + 1 = x.height := h.grown.linked.height_eq x p hx hpfull
  cases hnew : light.get x.id with
  | some z =>
    -- the light chain holds it already, so nothing happens
    have hzid := h.mirrors.linked.keyed x.id z hnew
    have hz := h.mirrors.linked.holds_of_get hnew
    have hzx : z = x :=
      h.ids z x (h.full_known z (h.mirrors.sub z hz)) (h.full_known x hx) hzid
    subst hzx
    rw [feedStep_of_not_accepts fun heads hacc => by
      have := hacc.fresh
      rw [hnew] at this
      exact absurd this (by simp)]
    refine { h with seen_held := fun a ha hheld => ?_ }
    rcases List.mem_append.mp ha with ha | ha
    · exact h.seen_held a ha hheld
    · rw [List.mem_singleton] at ha
      subst ha
      exact ⟨hz, by omega⟩
  | none =>
    obtain ⟨hverified, happ⟩ := h.vetted x p hx hpfull
    have hacc : light.Accepts cfg (appCheck app) x (full.headsAt x.id) := by
      refine ⟨hnew, fun _ => by rw [hplight]; simp, fun hnone => ?_, ?_, happ⟩
      · rw [AnchorBody.link_of_prev_none hnone] at hlink
        exact absurd hlink (by simp)
      · rw [hagree.verdict_eq x hlink]
        exact hverified
    rw [feedStep_of_accepts hacc]
    exact h.light_extended hx hnew hplight hle
      (hacc.extended h.mirrors.linked fun b hb => h.link_ne hx hnew (by omega) hb)

/-- An anchor neither chain accepts. -/
theorem rejected (h : Grafted cfg app known full light f bottom seen) (hx : ¬ full.Holds x) :
    Grafted cfg app known full light f bottom (seen ++ [x]) :=
  { h with
    seen_held := fun a ha hheld => by
      rcases List.mem_append.mp ha with ha | ha
      · exact h.seen_held a ha hheld
      · rw [List.mem_singleton] at ha
        exact absurd (ha ▸ hheld) hx }

/-- One anchor of the tree, fed to both. -/
theorem step (h : Grafted cfg app known full light f bottom seen)
    (hsched : cfg.schedule = some sched) (hf : f.height % sched.epoch = 0)
    (hwin : bottom.height + sched.window ≤ f.height + sched.epoch) (hx : known x)
    (hnew : x ∉ seen) (hp : p ∈ f :: seen) (hpk : known p) (hlink : x.link = some p.id) :
    Grafted cfg app known (feedStep cfg (appCheck app) full x)
      (feedStep cfg (appCheck app) light x) f bottom (seen ++ [x]) := by
  have hlinkNe : x.link ≠ none := by
    rw [hlink]
    simp
  -- what holds `x` under its id is `x`
  have hholds : ∀ {c : AnchorChain} {y : Anchor}, (∀ a, c.Holds a → known a) → c.Linked →
      known y → ∀ {z}, c.get y.id = some z → c.Holds y := by
    intro c y hk hL hy z hget
    have hz := hL.holds_of_get hget
    rw [← h.ids z y (hk z hz) hy (hL.keyed y.id z hget)]
    exact hz
  have hlk : ∀ a, light.Holds a → known a := fun a ha => h.full_known a (h.mirrors.sub a ha)
  by_cases hpheld : full.Holds p
  · have hpl : light.Holds p ∧ f.height ≤ p.height := by
      rcases List.mem_cons.mp hp with rfl | hp
      · exact ⟨h.mirrors.floor_held, le_rfl⟩
      · exact h.seen_held p hp hpheld
    have hagree := h.agreesAt hsched hf hwin hpl.1 hpl.2
    by_cases hxheld : full.Holds x
    · -- the full chain holds it already
      rw [feedStep_of_not_accepts (c := full) fun heads hacc => by
        have := hacc.fresh
        unfold Holds at hxheld
        rw [hxheld] at this
        exact absurd this (by simp)]
      exact h.light_step hagree hpl.1 hpl.2 hlink hxheld
    · by_cases hacc : ∃ heads, full.Accepts cfg (appCheck app) x heads
      · obtain ⟨heads, hacc⟩ := hacc
        have hadd := h.grown.added hacc
        rw [feedStep_of_accepts hacc]
        have h' := h.full_added hacc hadd hx hnew
        have hagree' := h'.agreesAt hsched hf hwin hpl.1 hpl.2
        exact h'.light_step hagree' hpl.1 hpl.2 hlink hadd.holds_new
      · -- one verdict for both: neither takes it
        have hlight : ∀ heads, ¬ light.Accepts cfg (appCheck app) x heads := by
          intro heads hl
          refine hacc ⟨heads, ?_, fun _ => ?_, fun hnone => ?_, ?_, hl.state⟩
          · cases hget : full.get x.id with
            | none => rfl
            | some z => exact absurd (hholds h.full_known h.grown.linked hx hget) hxheld
          · unfold parent
            rw [hlink, Option.bind_some]
            unfold Holds at hpheld
            rw [hpheld]
            simp
          · rw [AnchorBody.link_of_prev_none hnone] at hlinkNe
            exact absurd rfl hlinkNe
          · rw [← hagree.verdict_eq x hlink]
            exact hl.verified
        rw [feedStep_of_not_accepts fun heads hx => hacc ⟨heads, hx⟩,
          feedStep_of_not_accepts hlight]
        exact h.rejected hxheld
  · -- its parent was rejected by both
    have hnoparent : ∀ {c : AnchorChain}, (∀ a, c.Holds a → known a) → c.Linked →
        ¬ c.Holds p → c.parent x = none := by
      intro c hk hL hnp
      unfold parent
      rw [hlink, Option.bind_some]
      cases hget : c.get p.id with
      | none => rfl
      | some z => exact absurd (hholds hk hL hpk hget) hnp
    have hfull := hnoparent h.full_known h.grown.linked hpheld
    have hlight := hnoparent hlk h.mirrors.linked fun hl => hpheld (h.mirrors.sub p hl)
    rw [feedStep_of_not_accepts fun heads hacc => hacc.known hlinkNe hfull,
      feedStep_of_not_accepts fun heads hacc => hacc.known hlinkNe hlight]
    exact h.rejected fun hxheld => h.grown.closed x hxheld hlinkNe hfull

/-- The whole tree. -/
theorem run (h : Grafted cfg app known full light f bottom seen)
    (hsched : cfg.schedule = some sched) (hf : f.height % sched.epoch = 0)
    (hwin : bottom.height + sched.window ≤ f.height + sched.epoch) {tree : List Anchor}
    (hfirst : ParentFirst (f :: seen) tree) (hnodup : (seen ++ tree).Nodup)
    (hknown : ∀ a ∈ seen ++ tree, known a) :
    Grafted cfg app known (Runs.run (feedStep cfg (appCheck app)) full tree)
      (Runs.run (feedStep cfg (appCheck app)) light tree) f bottom (seen ++ tree) := by
  induction tree generalizing full light seen with
  | nil => simpa using h
  | cons x tree ih =>
    obtain ⟨⟨p, hp, hlink⟩, hrest⟩ := hfirst
    have hnew : x ∉ seen := fun hmem =>
      (List.nodup_append.mp hnodup).2.2 x hmem x List.mem_cons_self rfl
    have hpk : known p := by
      rcases List.mem_cons.mp hp with rfl | hp
      · exact h.full_known p (h.mirrors.sub p h.mirrors.floor_held)
      · exact hknown p (List.mem_append_left _ hp)
    have hcons : seen ++ x :: tree = seen ++ [x] ++ tree := by simp
    have hstep := h.step hsched hf hwin
      (hknown x (List.mem_append_right _ List.mem_cons_self)) hnew hp hpk hlink
    rw [hcons] at hnodup hknown ⊢
    exact ih hstep hrest hnodup hknown

end Grafted

/-! ## Adopting -/

/-- The linked run is a part of the ancestry, and heights fall along it. -/
theorem mem_linkedRun {cur : Anchor} {ancestry : List Anchor} (ha : a ∈ linkedRun cur ancestry) :
    a ∈ ancestry ∧ a.height < cur.height := by
  induction ancestry generalizing cur with
  | nil => exact absurd ha (by simp [linkedRun])
  | cons q rest ih =>
    rw [linkedRun] at ha
    split_ifs at ha with hgap
    · exact absurd ha (by simp)
    · have hq : q.height + 1 = cur.height := by
        simp only [not_or, not_not] at hgap
        exact hgap.2
      rcases List.mem_cons.mp ha with rfl | ha
      · exact ⟨List.mem_cons_self, by omega⟩
      · obtain ⟨hmem, hlt⟩ := ih ha
        exact ⟨List.mem_cons_of_mem _ hmem, by omega⟩

/-- The last of a linked run, or the anchor the run hangs from. -/
def runBottom (cur : Anchor) (linked : List Anchor) : Anchor := linked.getLast?.getD cur

theorem runBottom_cons {cur q : Anchor} {linked : List Anchor} :
    runBottom cur (q :: linked) = runBottom q linked := by
  unfold runBottom
  rw [List.getLast?_cons]
  rfl

theorem runBottom_height (cur : Anchor) (ancestry : List Anchor) :
    (runBottom cur (linkedRun cur ancestry)).height + (linkedRun cur ancestry).length
      = cur.height := by
  induction ancestry generalizing cur with
  | nil => simp [linkedRun, runBottom]
  | cons q rest ih =>
    rw [linkedRun]
    split_ifs with hgap
    · simp [runBottom]
    · simp only [not_or, not_not] at hgap
      rw [runBottom_cons, List.length_cons]
      have := ih q
      omega

theorem runBottom_le {cur : Anchor} {ancestry : List Anchor} (ha : a ∈ linkedRun cur ancestry) :
    (runBottom cur (linkedRun cur ancestry)).height ≤ a.height := by
  induction ancestry generalizing cur with
  | nil => exact absurd ha (by simp [linkedRun])
  | cons q rest ih =>
    rw [linkedRun] at ha ⊢
    split_ifs at ha ⊢ with hgap
    · exact absurd ha (by simp)
    · rw [runBottom_cons]
      rcases List.mem_cons.mp ha with rfl | ha
      · have := runBottom_height a rest
        omega
      · exact ih ha

/-- A chain that holds a linked run walks down it. -/
theorem anc_runBottom {cur : Anchor} {ancestry : List Anchor}
    (hheld : ∀ q ∈ linkedRun cur ancestry, c.Holds q ∧ q.id ≠ "") :
    Anc c.parent cur (runBottom cur (linkedRun cur ancestry)) := by
  induction ancestry generalizing cur with
  | nil => simpa [linkedRun, runBottom] using Anc.refl cur
  | cons q rest ih =>
    rw [linkedRun] at hheld ⊢
    split_ifs at hheld ⊢ with hgap
    · simpa [runBottom] using Anc.refl cur
    · simp only [not_or, not_not] at hgap
      obtain ⟨hq, hne⟩ := hheld q List.mem_cons_self
      rw [runBottom_cons]
      exact Anc.step (parent_eq_some.mpr ⟨q.id, hgap.1, hne, hq⟩)
        (ih fun r hr => hheld r (List.mem_cons_of_mem _ hr))

/-- The heads that the deltas of a run of anchors, newest first, add up to on their own. -/
def certifiedBy (anchors : List Anchor) : Heads :=
  anchors.foldr (fun a heads => applyHeadsDelta heads a.headsDelta) ∅

/-- Above a bottom that is not the floor, heads are what the run of deltas adds up to. -/
theorem rebuiltHeads_eq_certifiedBy (hL : c.Linked) {cur : Anchor} {ancestry : List Anchor}
    (hcur : c.Holds cur) (hheld : ∀ q ∈ linkedRun cur ancestry, c.Holds q ∧ q.id ≠ "")
    (hbottom : c.parent (runBottom cur (linkedRun cur ancestry)) = none)
    (hfloor : c.floorId ≠ some (runBottom cur (linkedRun cur ancestry)).id) :
    c.rebuiltHeads cur = certifiedBy (cur :: linkedRun cur ancestry) := by
  induction ancestry generalizing cur with
  | nil =>
    have hp : c.parent cur = none := hbottom
    have hne : c.floorId ≠ some cur.id := hfloor
    rw [rebuiltHeads_root hp, if_neg hne]
    rfl
  | cons q rest ih =>
    rw [linkedRun] at hheld hbottom hfloor ⊢
    split_ifs at hheld hbottom hfloor ⊢ with hgap
    · have hp : c.parent cur = none := hbottom
      have hne : c.floorId ≠ some cur.id := hfloor
      rw [rebuiltHeads_root hp, if_neg hne]
      rfl
    · simp only [not_or, not_not] at hgap
      rw [runBottom_cons] at hbottom hfloor
      obtain ⟨hq, hne⟩ := hheld q List.mem_cons_self
      have hp : c.parent cur = some q := parent_eq_some.mpr ⟨q.id, hgap.1, hne, hq⟩
      rw [rebuiltHeads_cons hL hcur hp,
        ih hq (fun r hr => hheld r (List.mem_cons_of_mem _ hr)) hbottom hfloor]
      rfl

/-- Setting anchors one after another leaves something under each of their ids. -/
theorem get?_foldl_set_isSome {m : OrderedMap String Anchor} {linked : List Anchor} {id : String}
    (h : (∃ q ∈ linked, q.id = id) ∨ (m.get? id).isSome) :
    ((linked.foldl (fun (m : OrderedMap String Anchor) (a : Anchor) =>
      m.set a.id a) m).get? id).isSome := by
  induction linked generalizing m with
  | nil =>
    rcases h with ⟨q, hq, -⟩ | h
    · exact absurd hq (by simp)
    · exact h
  | cons r linked ih =>
    rw [List.foldl_cons]
    refine ih ?_
    rcases h with ⟨q, hq, hid⟩ | h
    · rcases List.mem_cons.mp hq with rfl | hq
      · exact Or.inr (by rw [hid, OrderedMap.get?_set_self]; rfl)
      · exact Or.inl ⟨q, hq, hid⟩
    · refine Or.inr ?_
      rw [OrderedMap.get?_set]
      split_ifs
      · rfl
      · exact h

/-- Right after `adopt` on true ancestors that certify the floor's heads by themselves, or on
none, the light chain mirrors the full one. -/
theorem Adopted.mirrors {ancestry : List Anchor} {C : Crypto} (hfull : full.Grown)
    (hf : full.Holds f) (hanc : ∀ a ∈ linkedRun f ancestry, Anc full.parent f a)
    (h : Adopted C light f (full.headsAt f.id) (linkedRun f ancestry))
    (hcover : linkedRun f ancestry ≠ [] →
      certifiedBy (f :: linkedRun f ancestry) = full.headsAt f.id) :
    Mirrors full light f ∧ Anc light.parent f (runBottom f (linkedRun f ancestry)) ∧
      ∀ a, light.Holds a → f.height ≤ a.height → a = f := by
  have hfullheld : ∀ a ∈ f :: linkedRun f ancestry, full.Holds a := by
    intro a ha
    rcases List.mem_cons.mp ha with rfl | ha
    · exact hf
    · exact hfull.linked.holds_anc hf (hanc a ha)
  have hmem : ∀ a, light.Holds a → a ∈ f :: linkedRun f ancestry := fun a ha => (h.mem_of_get ha).1
  have hsame : ∀ {y z : Anchor}, full.Holds y → full.Holds z → y.id = z.id → y = z := by
    intro y z hy hz hyz
    unfold Holds at hy hz
    rw [hyz, hz] at hy
    exact (Option.some.inj hy).symm
  have hheld : ∀ a ∈ linkedRun f ancestry, light.Holds a := by
    intro a ha
    have hsome : (light.get a.id).isSome := by
      unfold get
      rw [h.anchors_eq, OrderedMap.get?_set]
      split_ifs
      · rfl
      · exact get?_foldl_set_isSome (Or.inl ⟨a, ha, rfl⟩)
    obtain ⟨z, hz⟩ := Option.isSome_iff_exists.mp hsome
    obtain ⟨hzmem, hzid⟩ := h.mem_of_get hz
    have hza := hsame (hfullheld z hzmem) (hfullheld a (List.mem_cons_of_mem _ ha)) hzid
    unfold Holds
    rw [hz, hza]
  have hkeyed : ∀ id a, light.get id = some a → a.id = id := fun id a ha => (h.mem_of_get ha).2
  have hparent : ∀ a p, light.parent a = some p → full.parent a = some p := by
    intro a p hp
    obtain ⟨id, hprev, hne, hget⟩ := parent_eq_some.mp hp
    have hp' := hfullheld p (h.mem_of_get hget).1
    unfold Holds at hp'
    rw [hkeyed id p hget] at hp'
    exact parent_eq_some.mpr ⟨id, hprev, hne, hp'⟩
  have hpart : PartOf full light :=
    ⟨⟨hkeyed, fun a p ha hp => hfull.linked.height_eq a p (hfullheld a (hmem a ha))
      (hparent a p hp)⟩, fun a ha => hfullheld a (hmem a ha)⟩
  have hidNe : ∀ {x y : Anchor}, Anc full.parent x y → x = y ∨ y.id ≠ "" := by
    intro x y hxy
    induction hxy with
    | refl x => exact Or.inl rfl
    | step hp _ ih =>
      rcases ih with rfl | ih
      · obtain ⟨id, -, hne, hget⟩ := parent_eq_some.mp hp
        rw [hfull.linked.keyed id _ hget]
        exact Or.inr hne
      · exact Or.inr ih
  have hrun : ∀ q ∈ linkedRun f ancestry, light.Holds q ∧ q.id ≠ "" := fun q hq => ⟨hheld q hq, by
    rcases hidNe (hanc q hq) with rfl | hne
    · exact absurd (mem_linkedRun hq).2 (lt_irrefl _)
    · exact hne⟩
  have hdown : Anc light.parent f (runBottom f (linkedRun f ancestry)) := anc_runBottom hrun
  have hbottom : light.parent (runBottom f (linkedRun f ancestry)) = none := by
    cases hp : light.parent (runBottom f (linkedRun f ancestry)) with
    | none => rfl
    | some q =>
      have hq := hmem q (hpart.linked.holds_parent hp)
      have hlt := hpart.linked.height_eq _ q
        (hpart.linked.holds_anc h.get_floor hdown) hp
      have hle : (runBottom f (linkedRun f ancestry)).height ≤ q.height := by
        rcases List.mem_cons.mp hq with rfl | hq
        · have := runBottom_height q ancestry
          omega
        · exact runBottom_le hq
      omega
  have hbase : light.rebuiltHeads f = full.headsAt f.id := by
    rcases hlinked : (linkedRun f ancestry).getLast? with _ | q
    · have hroot : runBottom f (linkedRun f ancestry) = f := by
        unfold runBottom
        rw [hlinked]
        rfl
      rw [hroot] at hbottom
      rw [rebuiltHeads_root hbottom, if_pos h.floorId_eq, h.floorHeads_eq]
    · have hq := List.mem_of_getLast? hlinked
      have hroot : runBottom f (linkedRun f ancestry) = q := by
        unfold runBottom
        rw [hlinked]
        rfl
      have hne : f.id ≠ q.id := fun heq => by
        have hfq := hsame hf (hfullheld q (List.mem_cons_of_mem _ hq)) heq
        have hlt := (mem_linkedRun hq).2
        rw [hfq] at hlt
        exact lt_irrefl _ hlt
      rw [rebuiltHeads_eq_certifiedBy hpart.linked h.get_floor hrun hbottom
        (by rw [hroot, h.floorId_eq]; simpa using hne)]
      exact hcover (List.ne_nil_of_mem hq)
  refine ⟨⟨hpart, h.get_floor, h.floorId_eq, h.floorHeads_eq,
    hbase, f, h.tip_eq, h.get_floor, h.tipHeads_eq, Anc.refl f⟩, hdown, fun a ha hle => ?_⟩
  rcases List.mem_cons.mp (hmem a ha) with rfl | ha
  · rfl
  · exact absurd (mem_linkedRun ha).2 (not_lt.mpr hle)

namespace Adopting

/-- Epochs of two anchors, difficulty recomputed over three. -/
def config : ChainConfig :=
  { openConfig with schedule := some ⟨8, 10, 2, 3, none⟩, finalityDepth := some 1 }

/-- An assembled anchor that took `iters` iterations. -/
def timed (iters : ℕ) (a : Anchor) : Anchor :=
  { a with
    time := ⟨iters, "", ""⟩
    id := idOf config.crypto a.toAnchorBody ⟨iters, "", ""⟩ }

/-- The heads the first anchor of the example certifies. -/
def certified : Heads := (∅ : Heads).set "w" ⟨"x", 0⟩

/-- The anchor `producer` assembles on `p`, certifying no write of its own. -/
def next (iters : ℕ) (p : Anchor) (producer : String) : Anchor :=
  timed iters (assembled config.crypto 8 (some p) producer ∅ certified)

/-- The honest chain: the write is certified in the first anchor, the floor took twice as
long as the others. -/
def root : Anchor := timed 10 (assembled config.crypto 8 none genesisProducer ∅ ∅)
def first : Anchor := timed 10 (assembled config.crypto 8 (some root) "p" certified certified)
def second : Anchor := next 10 first "p"
def third : Anchor := next 10 second "p"
def floor : Anchor := next 20 third "p"

/-- Above the floor: a branch of two anchors and a fork beside it. -/
def above : Anchor := next 10 floor "p"
def top : Anchor := timed 10 (assembled config.crypto 6 (some above) "p" ∅ certified)
def beside : Anchor := next 10 floor "q"

def tree : List Anchor := [above, top, beside]

/-- A chain fed anchors in order, with no application check. -/
def fed (c : AnchorChain) (anchors : List Anchor) : AnchorChain :=
  run (feedStep config (fun _ _ _ => true)) c anchors

def honest : AnchorChain := fed (rootedAt root ∅) [first, second, third, floor]

/-- A chain adopted at the floor with true ancestors of it. -/
def adopted (ancestry : List Anchor) : AnchorChain := adoptedAt floor certified ancestry

/-- As far as the window reaches, and as far as the anchor that certifies the write. -/
def short : List Anchor := [third]
def long : List Anchor := [third, second, first]

/-- What running the example shows. -/
theorem evaluated :
    honest.headsAt floor.id = certified ∧ ParentFirst [floor] tree ∧
      (((fed honest tree).get above.id).isSome ∧ ((fed (adopted short) tree).get above.id).isSome ∧
        ((fed honest tree).headsAt above.id).get? "w" = some ⟨"x", 0⟩ ∧
        ((fed (adopted short) tree).headsAt above.id).get? "w" = none) ∧
      ((((fed (adopted long) tree).prune config 5).get above.id).isSome ∧
        (fed honest tree).difficultyFor config (some above) = 6 ∧
        ((fed (adopted long) tree).prune config 5).difficultyFor config (some above) = 8) ∧
      (((fed (adopted long) tree).prune config 5).get beside.id).isSome ∧
        ((fed honest tree).headsAt beside.id).get? "w" = some ⟨"x", 0⟩ ∧
        (((fed (adopted long) tree).prune config 5).headsAt beside.id).get? "w" = none := by
  decide +kernel

end Adopting

end AnchorChain

end Gavl
