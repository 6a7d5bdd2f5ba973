import Gavl.Consensus.HeadsTheorems

/-!
# Chains whose heads can be rebuilt

What a chain materializes at its tip and at its floor is what the deltas below rebuild. Adding
anchors and pruning keep it so, as long as nothing is added right below an anchor whose parent
was dropped; and what a held anchor certifies then never changes.
-/

namespace Gavl

open ParentWalk

namespace AnchorChain

variable {c c' : AnchorChain} {cfg : ChainConfig} {check : StateCheck} {a b p q : Anchor}
  {heads : Heads}

/-- The materialized heads are those the deltas rebuild; tip and floor are held. -/
structure Rebuildable (c : AnchorChain) : Prop where
  linked : c.Linked
  cached : c.HeadsCached
  tip_held : ∀ id, c.tipId = some id → ∃ t, c.get id = some t
  floor_held : ∀ id, c.floorId = some id → ∃ f, c.get id = some f

theorem Grown.rebuildable (h : c.Grown) : c.Rebuildable where
  linked := h.linked
  cached := h.headsCached
  tip_held := h.tip_held
  floor_held := fun id hid => absurd hid (by rw [h.no_floor]; simp)

/-- No held anchor is waiting for the parent `a`. -/
def Unlinked (c : AnchorChain) (a : Anchor) : Prop := ∀ b, c.Holds b → b.link ≠ some a.id

/-- Certified heads in two chains that materialize the same and agree below the anchor. -/
theorem headsAt_congr (hq : c.Holds q) (hq' : c'.Holds q) (htip : c'.tipId = c.tipId)
    (htheads : c'.tipHeads = c.tipHeads) (hfloor : c'.floorId = c.floorId)
    (hfheads : c'.floorHeads = c.floorHeads) (hanc : c'.ancestry q = c.ancestry q) :
    c'.headsAt q.id = c.headsAt q.id := by
  unfold Holds at hq hq'
  unfold headsAt chainTo
  rw [htip, htheads, hfloor, hfheads, hq, hq']
  simp only [hanc]

/-- Storing an anchor changes nothing below those held. -/
theorem Accepts.headsAt_store (hacc : c.Accepts cfg check a heads) (hL : c.Linked)
    (hun : c.Unlinked a) (hq : c.Holds q) :
    (c.store a).ancestry q = c.ancestry q ∧ (c.store a).headsAt q.id = c.headsAt q.id := by
  have hs : SameStore (c.store a) ((c.store a).choose cfg a heads).1 := sameStore_choose
  have hanc : (c.store a).ancestry q = c.ancestry q := by
    rw [← hs.ancestry]
    exact (hacc.extended hL hun).ancestry_eq q hq
  exact ⟨hanc, headsAt_congr hq (holds_store hacc.fresh hq) rfl rfl rfl rfl hanc⟩

namespace Rebuildable

theorem headsAt_eq (h : c.Rebuildable) (ha : c.Holds a) : c.headsAt a.id = c.rebuiltHeads a :=
  h.cached.headsAt_eq ha

/-- The heads that verification returns are those that the stored anchor rebuilds. -/
theorem rebuiltHeads_new (h : c.Rebuildable) (hacc : c.Accepts cfg check a heads)
    (hext : Extended c a heads c') : c'.rebuiltHeads a = heads := by
  have hheads := hacc.spec.heads_eq
  unfold parentHeads at hheads
  have hpar := hext.parent_eq a (Or.inl rfl)
  cases hp : c.parent a with
  | none =>
    rw [hp] at hheads hpar
    have hfloor : c'.floorId ≠ some a.id := by
      intro hid
      rw [hext.floorId_eq] at hid
      obtain ⟨f, hf⟩ := h.floor_held _ hid
      rw [hacc.fresh] at hf
      exact absurd hf (by simp)
    rw [rebuiltHeads_root hpar, if_neg hfloor, hheads]
  | some p =>
    rw [hp] at hheads hpar
    simp only at hheads
    have hpheld := h.linked.holds_parent hp
    rw [rebuiltHeads_cons hext.linked hext.holds_new hpar, hext.rebuilt_eq p hpheld, hheads,
      h.headsAt_eq hpheld]

theorem of_extended (h : c.Rebuildable) (hacc : c.Accepts cfg check a heads)
    (hext : Extended c a heads c') : c'.Rebuildable where
  linked := hext.linked
  cached :=
    { tip_heads := fun t ht => by
        rcases hext.tip_eq h.linked h.tip_held ht with ⟨rfl, hheads⟩ | ⟨htip, hheads⟩
        · rw [hheads, h.rebuiltHeads_new hacc hext]
        · obtain ⟨id, -, hget⟩ := Option.bind_eq_some_iff.mp htip
          rw [hheads, hext.rebuilt_eq t (h.linked.holds_of_get hget)]
          exact h.cached.tip_heads t htip
      floor_root := fun f hf hid => by
        rw [hext.floorId_eq] at hid
        obtain ⟨f', hf'⟩ := h.floor_held _ hid
        have hheld : c.Holds f := by
          rcases (hext.holds_iff f).mp hf with rfl | hheld
          · rw [hacc.fresh] at hf'
            exact absurd hf' (by simp)
          · exact hheld
        rw [hext.parent_eq f (Or.inr hheld)]
        exact h.cached.floor_root f hheld hid }
  tip_held := fun id hid => by
    rcases hext.tip_cases with ⟨htip, -⟩ | ⟨htip, -⟩
    · rw [htip, Option.some.injEq] at hid
      exact ⟨a, hid ▸ hext.holds_new⟩
    · rw [htip] at hid
      obtain ⟨t, ht⟩ := h.tip_held id hid
      have hold := hext.holds_old (h.linked.holds_of_get ht)
      unfold Holds at hold
      rw [h.linked.keyed id t ht] at hold
      exact ⟨t, hold⟩
  floor_held := fun id hid => by
    rw [hext.floorId_eq] at hid
    obtain ⟨f, hf⟩ := h.floor_held id hid
    have hold := hext.holds_old (h.linked.holds_of_get hf)
    unfold Holds at hold
    rw [h.linked.keyed id f hf] at hold
    exact ⟨f, hold⟩

/-- A genesis is installed on an empty chain, which has no floor either. -/
theorem installGenesis (h : c.Rebuildable) {g : Anchor}
    (hok : c.installGenesis cfg g heads = .ok c') : c'.Installed g heads := by
  unfold AnchorChain.installGenesis at hok
  split_ifs at hok with hempty hroot hstate
  rw [Except.ok.injEq] at hok
  simp only [not_or, not_not, not_lt, Nat.le_zero] at hempty hroot
  have hnone : ∀ id, c.get id = none := by
    intro id
    cases hget : c.get id with
    | none => rfl
    | some a =>
      have hmem := (OrderedMap.get?_eq_some_iff c.anchors id a).mp hget
      rw [List.length_eq_zero_iff.mp hempty.2] at hmem
      exact absurd hmem List.not_mem_nil
  have hfloor : c.floorId = none := by
    cases hid : c.floorId with
    | none => rfl
    | some id =>
      obtain ⟨f, hf⟩ := h.floor_held id hid
      rw [hnone] at hf
      exact absurd hf (by simp)
  subst hok
  refine ⟨fun id => ?_, hroot.1, hroot.2, rfl, rfl, rfl, rfl, rfl, hfloor⟩
  show (c.anchors.set g.id g).get? id = _
  rw [OrderedMap.get?_set]
  by_cases hid : g.id = id
  · rw [if_pos hid, if_pos hid]
  · rw [if_neg hid, if_neg hid]
    exact hnone id

/-- What a held anchor certifies does not change when one is added. -/
theorem headsAt_extended (h : c.Rebuildable) (hacc : c.Accepts cfg check a heads)
    (hext : Extended c a heads c') (hb : c.Holds b) : c'.headsAt b.id = c.headsAt b.id := by
  rw [(h.of_extended hacc hext).headsAt_eq (hext.holds_old hb), hext.rebuilt_eq b hb,
    h.headsAt_eq hb]

/-- From a pruned floor upward the same deltas are laid over the same heads. -/
theorem rebuiltHeads_prunedAt (h : c.Rebuildable) {height : ℤ} {f x : Anchor} (hf : c.Holds f)
    (hroot : (c.prunedAt height f).parent f = none) (hx : (c.prunedAt height f).Holds x)
    (hanc : Anc (c.prunedAt height f).parent x f) :
    (c.prunedAt height f).rebuiltHeads x = c.rebuiltHeads x := by
  have hL' : (c.prunedAt height f).Linked := h.linked.prunedAt
  have hbase : (c.prunedAt height f).rebuiltHeads f = c.rebuiltHeads f := by
    rw [rebuiltHeads_root hroot, if_pos (show (c.prunedAt height f).floorId = some f.id from rfl)]
    exact h.headsAt_eq hf
  generalize hc' : c.prunedAt height f = c' at hx hanc hL' hbase
  induction hanc with
  | refl x => exact hbase
  | step hp _ ih =>
    rename_i x p y _
    have hpar : (c.prunedAt height y).parent x = some p := by
      rw [hc']
      exact hp
    have hheld : c.Holds x := by
      rw [← hc'] at hx
      exact (holds_prunedAt.mp hx).1
    rw [rebuiltHeads_cons hL' hx hp, ih hf hroot hc' (hL'.holds_parent hp) hbase,
      rebuiltHeads_cons h.linked hheld (parent_prunedAt.mp hpar).1]

/-- Pruning moves the floor up the branch of the tip and materializes its heads there. -/
theorem prune (h : c.Rebuildable) (cfg : ChainConfig) (height : ℤ) :
    (c.prune cfg height).Rebuildable := by
  rcases prune_cases c cfg height with hsame | ⟨t, f, htip, hmem, hheight, -, hprune⟩
  · rw [hsame]
    exact h
  have hL := h.linked
  obtain ⟨id, hid, hget⟩ := Option.bind_eq_some_iff.mp htip
  have ht : c.Holds t := hL.holds_of_get hget
  have htf : Anc c.parent t f := (hL.mem_ancestry ht).mp hmem
  have hf : c.Holds f := hL.holds_anc ht htf
  have hle := hL.graded.height_le ht htf
  rw [hprune]
  have hfheld : (c.prunedAt (c.pruneHeight cfg height) f).Holds f :=
    holds_prunedAt.mpr ⟨hf, hheight.ge⟩
  have htheld : (c.prunedAt (c.pruneHeight cfg height) f).Holds t :=
    holds_prunedAt.mpr ⟨ht, by omega⟩
  have hroot : (c.prunedAt (c.pruneHeight cfg height) f).parent f = none := by
    cases hp : (c.prunedAt (c.pruneHeight cfg height) f).parent f with
    | none => rfl
    | some q =>
      obtain ⟨hq, hqle⟩ := parent_prunedAt.mp hp
      have hq' := hL.height_eq f q hf hq
      omega
  have htid : c.tipId = some t.id := by
    rw [hid, hL.keyed id t hget]
  refine ⟨hL.prunedAt, ⟨fun t' ht' => ?_, fun g hg hgid => ?_⟩, fun id' hid' => ?_,
    fun id' hid' => ?_⟩
  · have htt : t' = t := by
      have htip' : (c.prunedAt (c.pruneHeight cfg height) f).tip = some t := by
        unfold tip
        rw [show (c.prunedAt (c.pruneHeight cfg height) f).tipId = some t.id from htid]
        exact htheld
      exact Option.some.inj (ht'.symm.trans htip')
    rw [htt, h.rebuiltHeads_prunedAt hf hroot htheld (hL.anc_prunedAt ht htf hheight.ge)]
    exact h.cached.tip_heads t htip
  · have hgf : g = f := by
      have hsame : f.id = g.id := Option.some.inj hgid
      unfold Holds at hg hfheld
      rw [← hsame, hfheld] at hg
      exact (Option.some.inj hg).symm
    rw [hgf]
    exact hroot
  · have heq : t.id = id' := Option.some.inj (htid.symm.trans hid')
    exact ⟨t, heq ▸ htheld⟩
  · have heq : f.id = id' := Option.some.inj hid'
    exact ⟨f, heq ▸ hfheld⟩

end Rebuildable

end AnchorChain

end Gavl
