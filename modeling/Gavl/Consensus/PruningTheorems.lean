import Gavl.Consensus.HeaviestTheorems
import Gavl.Consensus.VouchedTheorems

/-!
# Pruning is invisible

A chain that pruned well below its settled anchor and one that did not stay at the same tip
forever. They need not hold the same anchors: below the floor one has what the other dropped,
peers may send parts of it again, and forks that leave the settled branch are judged over
different heads and windows. What the two agree on is the anchors comparable with the anchor `s`
that was settled when one of them pruned, from the floor upward (`InView`). Nothing outside that
part is ever the tip, and nothing that is decided about it looks below the floor.
-/

namespace Gavl

open ParentWalk Runs

namespace AnchorChain

variable {c c' p : AnchorChain} {cfg : ChainConfig} {check : StateCheck}
  {a q r r' t t' l l' s n n' x y : Anchor} {heads : Heads} {h k m : ℕ}

/-! ## The part two chains agree on -/

/-- Held, no lower than `h`, and an ancestor or a descendant of `s`. -/
def InView (c : AnchorChain) (h : ℕ) (s x : Anchor) : Prop :=
  c.Holds x ∧ h ≤ x.height ∧ (Anc c.parent x s ∨ Anc c.parent s x)

/-- A chain in good standing whose settled anchor descends from `s` and that still reaches from
`s` down to height `h`. -/
structure Reaching (cfg : ChainConfig) (c : AnchorChain) (h : ℕ) (s r t l n : Anchor) : Prop
    extends Standing cfg c r t l n where
  low : r.height ≤ h
  after : Anc c.parent n s
  reaches : ∃ f, Anc c.parent s f ∧ f.height = h

/-- Two chains with the same view and the same tip, lock and settled anchor. -/
structure Alike (c p : AnchorChain) (h : ℕ) (s : Anchor) : Prop where
  view : ∀ x, InView c h s x ↔ InView p h s x
  tipId_eq : p.tipId = c.tipId
  lockedId_eq : p.lockedId = c.lockedId
  settledId_eq : p.settledId = c.settledId
  genesisId_eq : p.genesisId = c.genesisId

theorem GenuineStore.mem_ids {C : Crypto} (hg : c.GenuineStore C) (hx : c.Holds x)
    (hy : c.Holds y) : y.id ∈ (c.ancestry x).map (·.id) ↔ Anc c.parent x y := by
  rw [List.mem_map, ← hg.linked.mem_ancestry hx]
  constructor
  · rintro ⟨z, hz, hid⟩
    have hxz := (hg.linked.mem_ancestry hx).mp hz
    rwa [← hg.eq_of_id (hg.linked.holds_anc hx hxz) hy hid]
  · exact fun hxy => ⟨y, hxy, rfl⟩

namespace Reaching

theorem linked (hc : Reaching cfg c h s r t l n) : c.Linked := hc.genuine.linked

theorem held (hc : Reaching cfg c h s r t l n) : c.Holds s :=
  hc.linked.holds_anc hc.anchored.settled_held hc.after

theorem le_height (hc : Reaching cfg c h s r t l n) : h ≤ s.height := by
  obtain ⟨f, hsf, rfl⟩ := hc.reaches
  exact hc.linked.graded.height_le hc.held hsf

/-- What descends from `s` is in view. -/
theorem inView (hc : Reaching cfg c h s r t l n) (hx : c.Holds x) (hxs : Anc c.parent x s) :
    InView c h s x :=
  ⟨hx, le_trans hc.le_height (hc.linked.graded.height_le hx hxs), Or.inl hxs⟩

theorem tip_after (hc : Reaching cfg c h s r t l n) : Anc c.parent t s :=
  hc.tip_settled.trans hc.after

theorem lock_after (hc : Reaching cfg c h s r t l n) : Anc c.parent l s :=
  hc.anchored.settled_anc.trans hc.after

/-- Above height `h` the view is closed under predecessors. -/
theorem inView_parent (hc : Reaching cfg c h s r t l n) (hx : InView c h s x)
    (hlt : h < x.height) :
    ∃ q, c.parent x = some q ∧ InView c h s q ∧ q.height + 1 = x.height := by
  have hL := hc.linked
  obtain ⟨f, hsf, rfl⟩ := hc.reaches
  obtain ⟨hheld, -, hcmp⟩ := hx
  have hnext : ∀ q, c.parent x = some q → (Anc c.parent q s ∨ Anc c.parent s q) →
      ∃ q, c.parent x = some q ∧ InView c f.height s q ∧ q.height + 1 = x.height := by
    intro q hq hqs
    have hone := hL.height_eq x q hheld hq
    exact ⟨q, hq, ⟨hL.holds_parent hq, by omega, hqs⟩, hone⟩
  -- below `s` the branch goes on down to `f`
  have hbelow : Anc c.parent s x → ∃ q, c.parent x = some q ∧ Anc c.parent s q := by
    intro hsx
    have hxf : Anc c.parent x f := hL.graded.anc_of_height_le hc.held hsx hsf hlt.le
    rcases hxf.cases_parent with rfl | ⟨q, hq, -⟩
    · exact absurd hlt (lt_irrefl _)
    · exact ⟨q, hq, hsx.trans (Anc.of_parent hq)⟩
  rcases hcmp with hxs | hsx
  · rcases hxs.cases_parent with rfl | ⟨q, hq, hqs⟩
    · obtain ⟨q, hq, hsq⟩ := hbelow (Anc.refl x)
      exact hnext q hq (Or.inr hsq)
    · exact hnext q hq (Or.inl hqs)
  · obtain ⟨q, hq, hsq⟩ := hbelow hsx
    exact hnext q hq (Or.inr hsq)

end Reaching

namespace Alike

theorem symm (h' : Alike c p h s) : Alike p c h s where
  view := fun x => (h'.view x).symm
  tipId_eq := h'.tipId_eq.symm
  lockedId_eq := h'.lockedId_eq.symm
  settledId_eq := h'.settledId_eq.symm
  genesisId_eq := h'.genesisId_eq.symm

/-- A link up to an anchor in view is a link of the other chain. -/
theorem parent_eq (hA : Alike c p h s) (hc : Reaching cfg c h s r t l n)
    (hq : c.parent x = some q) (hview : InView c h s q) : p.parent x = some q := by
  obtain ⟨id, hprev, hid, hget⟩ := parent_eq_some.mp hq
  have hpq : p.Holds q := ((hA.view q).mp hview).1
  unfold Holds at hpq
  rw [hc.linked.keyed id q hget] at hpq
  exact parent_eq_some.mpr ⟨id, hprev, hid, hpq⟩

/-- The links of the two chains agree within the view. -/
theorem agree (hA : Alike c p h s) (hc : Reaching cfg c h s r t l n) :
    AgreeAbove c.parent p.parent (fun x : Anchor => x.height) h (InView c h s) := by
  intro x hx hlt
  obtain ⟨q, hq, hview, hone⟩ := hc.inView_parent hx hlt
  exact ⟨q, hq, hA.parent_eq hc hq hview, hview, hone⟩

/-- Ancestors in view are the same. -/
theorem anc (hA : Alike c p h s) (hc : Reaching cfg c h s r t l n) (hx : InView c h s x)
    (hy : h ≤ y.height) (hxy : Anc c.parent x y) : Anc p.parent x y :=
  ((hA.agree hc).anc hc.linked.graded hxy hx hx.1 hy).1

theorem anc_iff (hA : Alike c p h s) (hc : Reaching cfg c h s r t l n)
    (hp : Reaching cfg p h s r' t' l' n') (hx : InView c h s x) (hy : h ≤ y.height) :
    Anc c.parent x y ↔ Anc p.parent x y :=
  ⟨hA.anc hc hx hy, hA.symm.anc hp ((hA.view x).mp hx) hy⟩

/-- An anchor of one chain that descends from `s` is one of the other. -/
theorem transfer (hA : Alike c p h s) (hc : Reaching cfg c h s r t l n) (hx : c.Holds x)
    (hxs : Anc c.parent x s) : p.Holds x ∧ Anc p.parent x s :=
  ⟨((hA.view x).mp (hc.inView hx hxs)).1,
    hA.anc hc (hc.inView hx hxs) hc.le_height hxs⟩

/-- Tip, lock and settled anchor are the same anchors. -/
theorem partner (hA : Alike c p h s) (hc : Reaching cfg c h s r t l n)
    (hp : Reaching cfg p h s r' t' l' n') : t' = t ∧ l' = l ∧ n' = n := by
  have hid : ∀ {x x' : Anchor}, c.Holds x → Anc c.parent x s → p.Holds x' → x'.id = x.id →
      x' = x := fun hx hxs hx' heq =>
    hp.genuine.eq_of_id hx' (hA.transfer hc hx hxs).1 heq
  have ht : t'.id = t.id := by
    obtain ⟨i, hi, hget⟩ := Option.bind_eq_some_iff.mp hc.anchored.tip_eq
    obtain ⟨j, hj, hget'⟩ := Option.bind_eq_some_iff.mp hp.anchored.tip_eq
    rw [hA.tipId_eq, hi, Option.some.injEq] at hj
    rw [hc.linked.keyed i t hget, hp.linked.keyed j t' hget', hj]
  have hl : l'.id = l.id := by
    have := hA.lockedId_eq
    rw [hp.anchored.lock_eq, hc.anchored.lock_eq] at this
    exact Option.some.inj this
  have hn : n'.id = n.id := by
    have := hA.settledId_eq
    rw [hp.anchored.settled_eq, hc.anchored.settled_eq] at this
    exact Option.some.inj this
  exact ⟨hid hc.anchored.tip_held hc.tip_after hp.anchored.tip_held ht,
    hid hc.anchored.lock_held hc.lock_after hp.anchored.lock_held hl,
    hid hc.anchored.settled_held hc.after hp.anchored.settled_held hn⟩

/-! ## What is decided within the view -/

/-- The start of the ancestry down to height `h`. -/
theorem take_ancestry (hA : Alike c p h s) (hc : Reaching cfg c h s r t l n)
    (hp : Reaching cfg p h s r' t' l' n') (hx : InView c h s x) (i : ℕ) (hi : i + h ≤ x.height) :
    (p.ancestry x).take i = (c.ancestry x).take i ∧
      ∀ y ∈ (c.ancestry x).take i, InView c h s y ∧ h < y.height := by
  rw [hc.linked.take_ancestry hx.1, hp.linked.take_ancestry ((hA.view x).mp hx).1]
  exact (hA.agree hc).walk_eq hx hi

/-- What lies above height `h` is in that start. -/
theorem mem_take_ancestry (hc : Reaching cfg c h s r t l n) (hx : c.Holds x)
    (hxy : Anc c.parent x y) (hy : h < y.height) :
    y ∈ (c.ancestry x).take (x.height - h) := by
  have hL := hc.linked
  have hyx := hL.graded.height_le hx hxy
  rw [hL.take_ancestry hx]
  have hlow : ∀ {i : ℕ} {z : Anchor}, c.Holds z → Anc c.parent z y → z.height < y.height + i →
      y ∈ walk c.parent i z := by
    intro i
    induction i with
    | zero =>
      intro z hz hzy hlt
      have := hL.graded.height_le hz hzy
      omega
    | succ i ih =>
      intro z hz hzy hlt
      rw [walk_succ]
      rcases hzy.cases_parent with rfl | ⟨w, hw, hwy⟩
      · exact List.mem_cons_self
      · rw [hw]
        have hone := hL.height_eq z w hz hw
        exact List.mem_cons_of_mem _ (ih (hL.holds_parent hw) hwy (by omega))
  exact hlow hx hxy (by omega)

/-- The difficulty above an anchor whose window stays above height `h`. -/
theorem difficultyFor_eq (hA : Alike c p h s) (hc : Reaching cfg c h s r t l n)
    (hwin : ∀ sched, cfg.schedule = some sched → sched.window + h ≤ x.height)
    (hx : InView c h s x) :
    p.difficultyFor cfg (some x) = c.difficultyFor cfg (some x) := by
  unfold difficultyFor
  cases hs : cfg.schedule with
  | none => rfl
  | some sched =>
    simp only [nextDifficulty]
    rw [((hA.agree hc).walk_eq hx (hwin sched hs)).1]

/-- Descending from an anchor above `s`. -/
theorem descendsFrom_eq (hC : cfg.crypto.CollisionFree) (hA : Alike c p h s)
    (hc : Reaching cfg c h s r t l n) (hp : Reaching cfg p h s r' t' l' n')
    (hx : InView c h s x) (hy : c.Holds y) (hys : Anc c.parent y s) :
    p.descendsFrom x (some y.id) = c.descendsFrom x (some y.id) := by
  rw [Bool.eq_iff_iff, hc.genuine.descends_iff hC hx.1 hy,
    hp.genuine.descends_iff hC ((hA.view x).mp hx).1 (hA.transfer hc hy hys).1]
  exact (hA.anc_iff hc hp hx (hc.inView hy hys).2.1).symm

/-- The ids on the branch of `x`, asked about an anchor in view. -/
theorem mem_ids_iff (hA : Alike c p h s) (hc : Reaching cfg c h s r t l n)
    (hp : Reaching cfg p h s r' t' l' n') (hx : InView c h s x) (hy : InView c h s y) :
    y.id ∈ (p.ancestry x).map (·.id) ↔ y.id ∈ (c.ancestry x).map (·.id) := by
  rw [hc.genuine.mem_ids hx.1 hy.1, hp.genuine.mem_ids ((hA.view x).mp hx).1 ((hA.view y).mp hy).1]
  exact (hA.anc_iff hc hp hx hy.2.1).symm

/-- Two branches that share `s` are weighed alike: the fork point is `s` or above it, and the
reference window ending there stays above height `h`. -/
theorem resolveFork_eq (hA : Alike c p h s) (hc : Reaching cfg c h s r t l n)
    (hp : Reaching cfg p h s r' t' l' n') (hmargin : forkWindow + h ≤ s.height)
    (hx : c.Holds x) (hxs : Anc c.parent x s) (hy : c.Holds y) (hys : Anc c.parent y s) :
    p.resolveFork x y = c.resolveFork x y := by
  have hL := hc.linked
  have hxv := hc.inView hx hxs
  have hyv := hc.inView hy hys
  have hpos : h < s.height := by
    unfold forkWindow at hmargin
    omega
  have hxh := hxv.2.1
  have hyh := hyv.2.1
  obtain ⟨htx, hmx⟩ := hA.take_ancestry hc hp hxv (x.height - h) (by omega)
  obtain ⟨hty, -⟩ := hA.take_ancestry hc hp hyv (y.height - h) (by omega)
  have hsx := mem_take_ancestry hc hx hxs hpos
  have hshared : s.id ∈ (c.ancestry y).map (·.id) := (hc.genuine.mem_ids hy hc.held).mpr hys
  have hpoint : p.forkPoint x y = c.forkPoint x y := by
    unfold forkPoint
    refine find?_eq_of_take htx (fun z hz => ?_) hsx (by simpa using hshared)
    rw [decide_eq_decide]
    exact hA.mem_ids_iff hc hp hyv (hmx z hz).1
  have hbranch : p.branchAbove x y = c.branchAbove x y := by
    unfold branchAbove
    refine takeWhile_eq_of_take htx (fun z hz => ?_) hsx (by simpa using hshared)
    rw [decide_eq_decide, not_iff_not]
    exact hA.mem_ids_iff hc hp hyv (hmx z hz).1
  unfold resolveFork
  rw [hpoint, hbranch]
  cases hf : c.forkPoint x y with
  | none => rfl
  | some fork =>
    obtain ⟨hxf, hle, -⟩ := forkPoint_spec hL hx hxs hys hy hf
    have hfheld := hL.holds_anc hx hxf
    have hfs : Anc c.parent fork s := hL.graded.anc_of_height_le hx hxf hxs hle
    have hyf : Anc c.parent y fork := by
      rw [← hc.genuine.mem_ids hy hfheld]
      unfold forkPoint at hf
      simpa using List.find?_some hf
    have hours : (p.ancestry y).takeWhile (fun a => decide (a.id ≠ fork.id))
        = (c.ancestry y).takeWhile (fun a => decide (a.id ≠ fork.id)) :=
      takeWhile_eq_of_take hty (fun _ _ => rfl) (mem_take_ancestry hc hy hyf (by omega)) (by simp)
    have hreference : p.referenceProducers fork = c.referenceProducers fork := by
      unfold referenceProducers
      rw [(hA.take_ancestry hc hp (hc.inView hfheld hfs) forkWindow (by omega)).1]
    simp only [hours, hreference]

/-- Going `k` deep leads to the same anchor, or to height `h` and below in both chains. -/
theorem deep_cases (hA : Alike c p h s) (hc : Reaching cfg c h s r t l n)
    (hp : Reaching cfg p h s r' t' l' n') (k : ℕ) : ∀ {x : Anchor}, InView c h s x →
      p.deep k x = c.deep k x ∨ ((p.deep k x).height ≤ h ∧ (c.deep k x).height ≤ h) := by
  induction k with
  | zero => exact fun _ => Or.inl rfl
  | succ k ih =>
    intro x hx
    by_cases hlt : h < x.height
    · obtain ⟨q, hq, hq', hview, -⟩ := hA.agree hc x hx hlt
      unfold deep
      rw [hq, hq']
      exact ih hview
    · have hcle := hc.linked.graded.height_le hx.1 (anc_deep (k + 1) x)
      have hple := hp.linked.graded.height_le ((hA.view x).mp hx).1 (anc_deep (k + 1) x)
      exact Or.inr ⟨by omega, by omega⟩

theorem laterOf_eq (hA : Alike c p h s) (hc : Reaching cfg c h s r t l n)
    (hp : Reaching cfg p h s r' t' l' n') (hx : InView c h s x) (hy : h < y.height) (k : ℕ) :
    p.laterOf x y k = c.laterOf x y k := by
  unfold laterOf
  rcases hA.deep_cases hc hp k hx with heq | ⟨hple, hcle⟩
  · rw [heq]
  · rw [if_neg (by omega), if_neg (by omega)]

/-- The two chains move their tip to the same anchors. -/
theorem takesTip_eq (hC : cfg.crypto.CollisionFree) (hA : Alike c p h s)
    (hc : Reaching cfg c h s r t l n) (hp : Reaching cfg p h s r' t' l' n')
    (hmargin : forkWindow + h ≤ s.height) (hx : c.Holds x) (hxs : Anc c.parent x s) :
    p.descendsFrom x p.lockedId = c.descendsFrom x c.lockedId ∧
      p.forkVerdict x = c.forkVerdict x ∧ p.takesTip x = c.takesTip x := by
  obtain ⟨rfl, rfl, rfl⟩ := hA.partner hc hp
  have hview := hc.inView hx hxs
  have htip := hc.anchored.tip_held
  have hlock : p.descendsFrom x p.lockedId = c.descendsFrom x c.lockedId := by
    rw [hA.lockedId_eq, hc.anchored.lock_eq]
    exact hA.descendsFrom_eq hC hc hp hview hc.anchored.lock_held hc.lock_after
  have hsettled : p.descendsFrom x p.settledId = c.descendsFrom x c.settledId := by
    rw [hA.settledId_eq, hc.anchored.settled_eq]
    exact hA.descendsFrom_eq hC hc hp hview hc.anchored.settled_held hc.after
  have hverdict : p.forkVerdict x = c.forkVerdict x := by
    unfold forkVerdict
    rw [hp.anchored.tip_eq, hc.anchored.tip_eq]
    exact hA.resolveFork_eq hc hp hmargin hx hxs htip hc.tip_after
  have hwould : p.wouldBeTip x = c.wouldBeTip x := by
    unfold wouldBeTip
    rw [hp.anchored.tip_eq, hc.anchored.tip_eq]
  refine ⟨hlock, hverdict, ?_⟩
  unfold takesTip
  rw [hlock, hverdict, hwould, hsettled]

theorem refl (c : AnchorChain) (h : ℕ) (s : Anchor) : Alike c c h s :=
  ⟨fun _ => Iff.rfl, rfl, rfl, rfl, rfl⟩

theorem trans {b c d : AnchorChain} (h₁ : Alike b c h s) (h₂ : Alike c d h s) : Alike b d h s where
  view := fun x => (h₁.view x).trans (h₂.view x)
  tipId_eq := h₂.tipId_eq.trans h₁.tipId_eq
  lockedId_eq := h₂.lockedId_eq.trans h₁.lockedId_eq
  settledId_eq := h₂.settledId_eq.trans h₁.settledId_eq
  genesisId_eq := h₂.genesisId_eq.trans h₁.genesisId_eq

end Alike

theorem SameStore.inView (hs : SameStore c c') : InView c h s x ↔ InView c' h s x := by
  unfold InView
  rw [hs.holds, hs.parent]

/-- The lock from which a chain moves its tip to an anchor above `s`. -/
theorem Reaching.relocked (hc : Reaching cfg c h s r t l n)
    (hx : c.Holds x) (hxs : Anc c.parent x s) (htake : c.takesTip x = true) :
    ∃ l₀, (c.relocked x).lockedId = some l₀.id ∧ c.Holds l₀ ∧ Anc c.parent l₀ s := by
  unfold AnchorChain.relocked
  by_cases hdesc : c.descendsFrom x c.lockedId = true
  · rw [if_pos hdesc]
    exact ⟨l, hc.anchored.lock_eq, hc.anchored.lock_held, hc.lock_after⟩
  · unfold takesTip at htake
    rw [if_neg hdesc] at htake ⊢
    simp only [Bool.and_eq_true, Option.isSome_iff_exists] at htake
    obtain ⟨⟨⟨id, hswitch⟩, -⟩, -⟩ := htake
    have hverdict : (c.resolveFork x t).switchTo = some id := by
      unfold forkVerdict at hswitch
      rw [hc.anchored.tip_eq] at hswitch
      exact hswitch
    obtain ⟨l₀, hid, hxl, hls⟩ :=
      resolveFork_spec hc.linked hx hc.anchored.tip_held hxs hc.tip_after hverdict
    refine ⟨l₀, ?_, hc.linked.holds_anc hx hxl, hls⟩
    rw [hid]
    exact hswitch

/-- Lock and settled anchor after the tip moved. -/
theorem setTip_locks {c₀ : AnchorChain} (hs : SameStore c c₀) (hx : c.Holds x)
    (hk : cfg.finalityDepth = some k) (hm : cfg.settlementDepth = some m) (hl : c.Holds l)
    (hlock : c₀.lockedId = some l.id) (hn : c.Holds n) (hsettled : c₀.settledId = some n.id)
    (heads : Heads) :
    (c₀.setTip cfg x heads).lockedId = some (c.laterOf x l k).id ∧
      (c₀.setTip cfg x heads).settledId = some (c.laterOf x n m).id := by
  have hstep : SameStore c { c₀ with tipId := some x.id, tipHeads := heads } :=
    ⟨hs.anchors, hs.floorId, hs.floorHeads, hs.genesisId⟩
  have htip : AnchorChain.tip { c₀ with tipId := some x.id, tipHeads := heads } = some x := by
    unfold tip
    rw [hstep.get]
    exact hx
  exact ⟨advanceLock_eq hstep htip hl hlock hk, advanceLock_eq hstep htip hn hsettled hm⟩

/-- Deciding the tip about an anchor above `s` keeps two chains alike. -/
theorem Alike.choose (hC : cfg.crypto.CollisionFree) (hk : cfg.finalityDepth = some k)
    (hm : cfg.settlementDepth = some m) (hA : Alike c p h s) (hc : Reaching cfg c h s r t l n)
    (hp : Reaching cfg p h s r' t' l' n') (hmargin : forkWindow + h ≤ s.height)
    (hx : c.Holds x) (hxs : Anc c.parent x s) (heads heads' : Heads) :
    Alike (c.choose cfg x heads).1 (p.choose cfg x heads').1 h s := by
  obtain ⟨hdesc, hverdict, htakes⟩ := hA.takesTip_eq hC hc hp hmargin hx hxs
  have hview : ∀ y, InView (c.choose cfg x heads).1 h s y ↔ InView (p.choose cfg x heads').1 h s y :=
    fun y => (sameStore_choose.inView.symm.trans (hA.view y)).trans sameStore_choose.inView
  cases htake : c.takesTip x with
  | false =>
    obtain ⟨conflict, hcc⟩ := choose_of_not_takesTip cfg heads htake
    obtain ⟨conflict', hpc⟩ := choose_of_not_takesTip cfg heads' (htakes.trans htake)
    refine ⟨hview, ?_, ?_, ?_, ?_⟩ <;> rw [hcc, hpc]
    · exact hA.tipId_eq
    · exact hA.lockedId_eq
    · exact hA.settledId_eq
    · exact hA.genesisId_eq
  | true =>
    have hxp := (hA.transfer hc hx hxs).1
    have hxv := hc.inView hx hxs
    obtain ⟨l₀, hl₀, hheld, hls⟩ := hc.relocked hx hxs htake
    obtain ⟨-, -, rfl⟩ := hA.partner hc hp
    have hrelocked : (p.relocked x).lockedId = some l₀.id := by
      rw [← hl₀]
      unfold relocked
      rw [hdesc, hverdict]
      split_ifs
      · exact hA.lockedId_eq
      · rfl
    have hsettled : ∀ d : AnchorChain, (d.relocked x).settledId = d.settledId := by
      intro d
      unfold relocked
      split_ifs
      · rfl
      · rfl
    have hpos : ∀ {y : Anchor}, c.Holds y → Anc c.parent y s → h < y.height := by
      intro y hy hys
      have hle := hc.linked.graded.height_le hy hys
      unfold forkWindow at hmargin
      omega
    obtain ⟨hlc, hsc⟩ := setTip_locks sameStore_relocked hx hk hm hheld hl₀
      hc.anchored.settled_held ((hsettled c).trans hc.anchored.settled_eq) heads
    obtain ⟨hlp, hsp⟩ := setTip_locks sameStore_relocked hxp hk hm (hA.transfer hc hheld hls).1
      hrelocked hp.anchored.settled_held ((hsettled p).trans hp.anchored.settled_eq) heads'
    refine ⟨hview, ?_, ?_, ?_, ?_⟩ <;>
      rw [choose_of_takesTip htake, choose_of_takesTip (htakes.trans htake)]
    · rfl
    · show ((p.relocked x).setTip cfg x heads').lockedId = ((c.relocked x).setTip cfg x heads).lockedId
      rw [hlc, hlp, hA.laterOf_eq hc hp hxv (hpos hheld hls)]
    · show ((p.relocked x).setTip cfg x heads').settledId
        = ((c.relocked x).setTip cfg x heads).settledId
      rw [hsc, hsp, hA.laterOf_eq hc hp hxv (hpos hc.anchored.settled_held hc.after)]
    · show (p.relocked x).genesisId = (c.relocked x).genesisId
      rw [sameStore_relocked.genesisId, sameStore_relocked.genesisId, hA.genesisId_eq]

/-! ## Adding anchors -/

/-- An application check as its option is typed: a function of the anchor and of the heads, which
it can look up. -/
def readCheck (app : Anchor → (String → Option Head) → Bool) : StateCheck :=
  fun _ a heads => app a heads.get?

/-- One call of `add`, with what the application answers in it. -/
def readStep (cfg : ChainConfig) (c : AnchorChain)
    (call : Anchor × (Anchor → (String → Option Head) → Bool)) : AnchorChain :=
  (c.add cfg (readCheck call.2) call.1).1

namespace Reaching

/-- `s` is above the floor. -/
theorem above_floor (hc : Reaching cfg c h s r t l n) : Anc c.parent s r :=
  hc.linked.graded.anc_of_height_le hc.anchored.settled_held hc.after hc.above
    (le_trans hc.low hc.le_height)

theorem headsAt_root (hc : Reaching cfg c h s r t l n) (hx : c.Holds x)
    (hxs : Anc c.parent x s) : rootOfHeads cfg.crypto (c.headsAt x.id) = x.stateRoot :=
  hc.toStanding.headsAt_root hx (hxs.trans hc.above_floor)

theorem store (hC : cfg.crypto.CollisionFree) (hc : Reaching cfg c h s r t l n)
    (hacc : c.Accepts cfg check a heads) : Reaching cfg (c.store a) h s r t l n where
  toStanding := hc.toStanding.store hC hacc
  low := hc.low
  after := anc_store hacc.fresh hc.after
  reaches := by
    obtain ⟨f, hsf, hf⟩ := hc.reaches
    exact ⟨f, anc_store hacc.fresh hsf, hf⟩

theorem add (hC : cfg.crypto.CollisionFree) (hk : cfg.finalityDepth = some k)
    (hm : cfg.settlementDepth = some m) (hkm : k ≤ m) (hc : Reaching cfg c h s r t l n)
    (check : StateCheck) (a : Anchor) :
    ∃ t' l' n', Reaching cfg (c.add cfg check a).1 h s r t' l' n' := by
  obtain ⟨t', l', n', hstand, hnn⟩ := hc.toStanding.add hC hk hm hkm check a
  have hkeep : ∀ {x y : Anchor}, Anc c.parent x y → Anc (c.add cfg check a).1.parent x y := by
    intro x y hxy
    rcases add_cases c cfg check a with ⟨hsame, -⟩ | ⟨heads, hacc, hadd⟩
    · rw [hsame]
      exact hxy
    · rw [hadd, sameStore_choose.parent]
      exact anc_store hacc.fresh hxy
  obtain ⟨f, hsf, hf⟩ := hc.reaches
  exact ⟨t', l', n', hstand, hc.low, hnn.trans (hkeep hc.after), f, hkeep hsf, hf⟩

/-- Storing an anchor brings into view at most that anchor, where it descends from `s`. -/
theorem inView_store (hC : cfg.crypto.CollisionFree) (hc : Reaching cfg c h s r t l n)
    (hacc : c.Accepts cfg check a heads) :
    InView (c.store a) h s x ↔
      InView c h s x ∨ (x = a ∧ ∃ q, c.parent a = some q ∧ Anc c.parent q s) := by
  have hnew : ¬ c.Holds a := by
    intro ha
    unfold Holds at ha
    rw [hacc.fresh] at ha
    exact absurd ha (by simp)
  have hs := hc.store hC hacc
  constructor
  · rintro ⟨hx, hxh, hcmp⟩
    rw [hc.vouched.anc_store_iff hC hc.genuine hacc hx (le_trans hc.low hc.le_height),
      hc.vouched.anc_store_iff hC hc.genuine hacc hs.held (le_trans hc.low hxh)] at hcmp
    rcases holds_store_cases hx with rfl | hx
    · rcases hcmp with hxs | hsx
      · rcases hxs.cases_parent with rfl | ⟨q, hq, hqs⟩
        · exact absurd hc.held hnew
        · exact Or.inr ⟨rfl, q, hq, hqs⟩
      · exact absurd (hc.linked.holds_anc hc.held hsx) hnew
    · exact Or.inl ⟨hx, hxh, hcmp⟩
  · rintro (⟨hx, hxh, hcmp⟩ | ⟨rfl, q, hq, hqs⟩)
    · exact ⟨holds_store hacc.fresh hx, hxh, hcmp.imp (anc_store hacc.fresh) (anc_store hacc.fresh)⟩
    · refine hs.inView holds_store_self (Anc.step ?_ (anc_store hacc.fresh hqs))
      rw [hacc.parent_store_self]
      exact hq

end Reaching

namespace Alike

/-- What one chain accepts above `s`, the other accepts. -/
theorem accepts (hC : cfg.crypto.CollisionFree) (hA : Alike c p h s)
    (hc : Reaching cfg c h s r t l n) (hp : Reaching cfg p h s r' t' l' n')
    (hwin : ∀ sched, cfg.schedule = some sched → sched.window + h ≤ s.height)
    {app : Anchor → (String → Option Head) → Bool}
    (hacc : c.Accepts cfg (readCheck app) a heads) (hq : c.parent a = some q)
    (hqs : Anc c.parent q s) :
    ∃ heads', p.Accepts cfg (readCheck app) a heads' ∧ p.parent a = some q ∧
      Anc p.parent q s := by
  have hqheld := hc.linked.holds_parent hq
  have hview := hc.inView hqheld hqs
  obtain ⟨hpq, hpqs⟩ := hA.transfer hc hqheld hqs
  have hparent := hA.parent_eq hc hq hview
  have hget : ∀ w, (c.headsAt q.id).get? w = (p.headsAt q.id).get? w := by
    apply rootOfHeads_inj hC.injective
    rw [hc.headsAt_root hqheld hqs, hp.headsAt_root hpq hpqs]
  have hdiff : p.difficultyFor cfg (some q) = c.difficultyFor cfg (some q) :=
    hA.difficultyFor_eq hc (fun sched hs => le_trans (hwin sched hs)
      (hc.linked.graded.height_le hqheld hqs)) hview
  have hfresh : p.get a.id = none := by
    by_contra hne
    obtain ⟨b, hb⟩ := Option.ne_none_iff_exists'.mp hne
    have hbheld := hp.linked.holds_of_get hb
    have hbid := hp.linked.keyed a.id b hb
    -- the ids bind the bodies, so `b` links to `q` as well and is in view
    have hsame : SameBody b.toAnchorBody a.toAnchorBody := by
      apply idOf_inj hC.injective
      rw [(hp.genuine.genuine b hbheld).id_eq, hbid, hacc.spec.id_eq]
    have hbq : p.parent b = some q := by
      rw [← hparent]
      unfold parent AnchorBody.link
      rw [hsame.prev_eq]
    have hbview : InView c h s b :=
      (hA.view b).mpr (hp.inView hbheld (Anc.step hbq hpqs))
    have hcb := hbview.1
    unfold Holds at hcb
    rw [hbid, hacc.fresh] at hcb
    exact absurd hcb (by simp)
  have hheads : heads = applyHeadsDelta (c.headsAt q.id) a.headsDelta := by
    have := hacc.spec.heads_eq
    unfold parentHeads at this
    rw [hq] at this
    exact this
  refine ⟨applyHeadsDelta (p.headsAt q.id) a.headsDelta, ⟨hfresh, fun _ => ?_, fun hprev => ?_, ?_,
    ?_⟩, hparent, hpqs⟩
  · rw [hparent]
    simp
  · rw [parent_of_prev_none hprev] at hq
    exact absurd hq (by simp)
  · have hver := hacc.verified
    unfold verify parentHeads at hver ⊢
    rw [hq] at hver
    rw [hparent, hdiff]
    exact verifyAnchor_congr hget hver
  · have hstate := hacc.state
    unfold readCheck at hstate ⊢
    rw [← hstate, hheads]
    congr 1
    funext w
    exact (get?_applyHeadsDelta_congr hget a.headsDelta w).symm

/-- An anchor that does not get above `s` changes nothing in view. -/
theorem of_aside (hC : cfg.crypto.CollisionFree) (hc : Reaching cfg c h s r t l n)
    (haside : ∀ heads q, c.Accepts cfg check a heads → c.parent a = some q →
      ¬ Anc c.parent q s) : Alike c (c.add cfg check a).1 h s := by
  rcases add_cases c cfg check a with ⟨hsame, -⟩ | ⟨heads, hacc, hadd⟩
  · rw [hsame]
    exact refl c h s
  rw [hadd]
  have hs := hc.store hC hacc
  have hnot : ∀ y, c.Holds y → Anc c.parent y s →
      (c.store a).descendsFrom a (some y.id) = false := by
    intro y hy hys
    rw [← Bool.not_eq_true, hs.genuine.descends_iff hC holds_store_self (holds_store hacc.fresh hy)]
    intro hay
    have has : InView (c.store a) h s a :=
      hs.inView holds_store_self (hay.trans (anc_store hacc.fresh hys))
    rcases (hc.inView_store hC hacc).mp has with ⟨ha, -⟩ | ⟨-, q, hq, hqs⟩
    · unfold Holds at ha
      rw [hacc.fresh] at ha
      exact absurd ha (by simp)
    · exact haside heads q hacc hq hqs
  have htake : (c.store a).takesTip a = false := by
    have hlock := hnot l hc.anchored.lock_held hc.lock_after
    have hsettled := hnot n hc.anchored.settled_held hc.after
    unfold takesTip
    rw [hs.anchored.lock_eq, hs.anchored.settled_eq, hlock, hsettled, Bool.and_false]
    rfl
  obtain ⟨conflict, hchoose⟩ := choose_of_not_takesTip cfg heads htake
  refine ⟨fun x => ?_, ?_, ?_, ?_, ?_⟩
  · rw [← sameStore_choose.inView, hc.inView_store hC hacc]
    refine ⟨Or.inl, ?_⟩
    rintro (hx | ⟨-, q, hq, hqs⟩)
    · exact hx
    · exact absurd hqs (haside heads q hacc hq)
  all_goals
    rw [hchoose]
    rfl

/-- One call keeps the chains alike, whatever the anchor. -/
theorem readStep (hC : cfg.crypto.CollisionFree) (hk : cfg.finalityDepth = some k)
    (hm : cfg.settlementDepth = some m) (hA : Alike c p h s)
    (hc : Reaching cfg c h s r t l n) (hp : Reaching cfg p h s r' t' l' n')
    (hmargin : forkWindow + h ≤ s.height)
    (hwin : ∀ sched, cfg.schedule = some sched → sched.window + h ≤ s.height)
    (call : Anchor × (Anchor → (String → Option Head) → Bool)) :
    Alike (readStep cfg c call) (readStep cfg p call) h s := by
  obtain ⟨a, app⟩ := call
  unfold AnchorChain.readStep
  simp only
  by_cases hlive : ∃ heads q, c.Accepts cfg (readCheck app) a heads ∧ c.parent a = some q ∧
      Anc c.parent q s
  · obtain ⟨heads, q, hacc, hq, hqs⟩ := hlive
    obtain ⟨heads', hacc', hq', hqs'⟩ := hA.accepts hC hc hp hwin hacc hq hqs
    have hstored : Alike (c.store a) (p.store a) h s := by
      refine ⟨fun x => ?_, hA.tipId_eq, hA.lockedId_eq, hA.settledId_eq, hA.genesisId_eq⟩
      rw [hc.inView_store hC hacc, hp.inView_store hC hacc', hA.view x]
      exact or_congr_right (and_congr_right fun _ => ⟨fun _ => ⟨q, hq', hqs'⟩, fun _ => ⟨q, hq, hqs⟩⟩)
    have hpar : Anc (c.store a).parent a s := by
      refine Anc.step ?_ (anc_store hacc.fresh hqs)
      rw [hacc.parent_store_self]
      exact hq
    have hadd := feedStep_of_accepts hacc
    have hadd' := feedStep_of_accepts hacc'
    unfold feedStep at hadd hadd'
    rw [hadd, hadd']
    exact hstored.choose hC hk hm (hc.store hC hacc) (hp.store hC hacc') hmargin holds_store_self
      hpar heads heads'
  · have hcside : Alike c (c.add cfg (readCheck app) a).1 h s :=
      of_aside hC hc fun heads q hacc hq hqs => hlive ⟨heads, q, hacc, hq, hqs⟩
    have hpside : Alike p (p.add cfg (readCheck app) a).1 h s :=
      of_aside hC hp fun heads q hacc hq hqs => by
        obtain ⟨heads', hacc', hq', hqs'⟩ := hA.symm.accepts hC hp hc hwin hacc hq hqs
        exact hlive ⟨heads', q, hacc', hq', hqs'⟩
    exact (hcside.symm.trans hA).trans hpside

/-- What an observer reads of two chains that are alike. -/
theorem observed (hC : cfg.crypto.CollisionFree) (hA : Alike c p h s)
    (hc : Reaching cfg c h s r t l n) (hp : Reaching cfg p h s r' t' l' n')
    (hwin : ∀ sched, cfg.schedule = some sched → sched.window + h ≤ s.height) :
    p.tip = some t ∧ c.tip = some t ∧ p.settled = c.settled ∧
      (∀ w, (p.headsAt t.id).get? w = (c.headsAt t.id).get? w) ∧
      p.difficultyFor cfg (some t) = c.difficultyFor cfg (some t) := by
  obtain ⟨rfl, rfl, rfl⟩ := hA.partner hc hp
  have ht := hc.anchored.tip_held
  obtain ⟨hpt, hpts⟩ := hA.transfer hc ht hc.tip_after
  refine ⟨hp.anchored.tip_eq, hc.anchored.tip_eq, ?_, ?_, ?_⟩
  · rw [hc.anchored.settled_eq', hp.anchored.settled_eq']
  · apply rootOfHeads_inj hC.injective
    rw [hc.headsAt_root ht hc.tip_after, hp.headsAt_root hpt hpts]
  · exact hA.difficultyFor_eq hc (fun sched hs => le_trans (hwin sched hs)
      (hc.linked.graded.height_le ht hc.tip_after)) (hc.inView ht hc.tip_after)

end Alike

/-! ## Runs of two chains -/

/-- How far below the settled anchor a prune must stay: what fork choice and retargeting look back
over. -/
def pruneMargin (cfg : ChainConfig) : ℕ := max forkWindow ((cfg.schedule.map (·.window)).getD 0)

/-- Two chains that reach down to height `h`, each above its own floor, and are alike. -/
structure Paired (cfg : ChainConfig) (h : ℕ) (s r r' : Anchor) (c p : AnchorChain) : Prop where
  first : ∃ t l n, Reaching cfg c h s r t l n
  second : ∃ t l n, Reaching cfg p h s r' t l n
  alike : Alike c p h s

theorem Paired.readStep (hC : cfg.crypto.CollisionFree) (hk : cfg.finalityDepth = some k)
    (hm : cfg.settlementDepth = some m) (hkm : k ≤ m) (hP : Paired cfg h s r r' c p)
    (hmargin : forkWindow + h ≤ s.height)
    (hwin : ∀ sched, cfg.schedule = some sched → sched.window + h ≤ s.height)
    (call : Anchor × (Anchor → (String → Option Head) → Bool)) :
    Paired cfg h s r r' (readStep cfg c call) (readStep cfg p call) := by
  obtain ⟨⟨t, l, n, hc⟩, ⟨t', l', n', hp⟩, hA⟩ := hP
  exact ⟨hc.add hC hk hm hkm (readCheck call.2) call.1,
    hp.add hC hk hm hkm (readCheck call.2) call.1,
    hA.readStep hC hk hm hc hp hmargin hwin call⟩

/-- Right after pruning the two chains are alike. -/
theorem Standing.alike_prunedAt {f : Anchor} (hc : Standing cfg c r t l s)
    (hsf : Anc c.parent s f) : Alike c (c.prunedAt f.height f) f.height s := by
  have hL := hc.genuine.linked
  refine ⟨fun x => ⟨?_, ?_⟩, rfl, rfl, rfl, rfl⟩
  · rintro ⟨hx, hxh, hcmp⟩
    refine ⟨holds_prunedAt.mpr ⟨hx, by omega⟩, hxh, ?_⟩
    rcases hcmp with hxs | hsx
    · have hle := hL.graded.height_le hc.anchored.settled_held hsf
      exact Or.inl (hL.anc_prunedAt hx hxs (by omega))
    · exact Or.inr (hL.anc_prunedAt hc.anchored.settled_held hsx (by omega))
  · rintro ⟨hx, hxh, hcmp⟩
    have hback : ∀ {x y : Anchor}, Anc (c.prunedAt f.height f).parent x y → Anc c.parent x y :=
      fun hxy => hxy.mono fun _ _ hp => (parent_prunedAt.mp hp).1
    exact ⟨(holds_prunedAt.mp hx).1, hxh, hcmp.imp hback hback⟩

/-- **Pruning is invisible.** Take any state of a chain rooted at its genesis, prune it at least
`pruneMargin` below the settled anchor, and add the same anchors to it and to the chain that was
not pruned. The two are at the same tip and settled anchor, certify the same heads there and
demand the same difficulty above it, however many anchors were added. -/
theorem prune_invisible (hC : cfg.crypto.CollisionFree) (hk : cfg.finalityDepth = some k)
    (hm : cfg.settlementDepth = some m) (hkm : k ≤ m) {c₀ : AnchorChain} {g : Anchor}
    (hroot : GenesisRooted cfg c₀ g heads) (history : List ChainOp)
    (hc : run (opStep cfg) c₀ history = c) (hs : c.settled = some s) {floorHeight : ℤ}
    (hfloor : floorHeight ≤ s.height - pruneMargin cfg)
    (calls : List (Anchor × (Anchor → (String → Option Head) → Bool))) :
    ∃ t, (run (readStep cfg) (c.prune cfg floorHeight) calls).tip = some t ∧
      (run (readStep cfg) c calls).tip = some t ∧
      (run (readStep cfg) (c.prune cfg floorHeight) calls).settled
        = (run (readStep cfg) c calls).settled ∧
      (∀ w, ((run (readStep cfg) (c.prune cfg floorHeight) calls).headsAt t.id).get? w
        = ((run (readStep cfg) c calls).headsAt t.id).get? w) ∧
      (run (readStep cfg) (c.prune cfg floorHeight) calls).difficultyFor cfg (some t)
        = (run (readStep cfg) c calls).difficultyFor cfg (some t) := by
  obtain ⟨r, t, l, s₀, hstand⟩ : ∃ r t l s, Standing cfg c r t l s := by
    rw [← hc]
    exact inv_run (fun c => ∃ r t l s, Standing cfg c r t l s)
      (fun c op h => Standing.step hC hk hm hkm h op) ⟨g, g, g, g, hroot.standing⟩ history
  have hss : s₀ = s := Option.some.inj (hstand.anchored.settled_eq'.symm.trans hs)
  subst hss
  rcases hstand.prune hm floorHeight with hsame | ⟨f, hfh, hrf, hsf, hprune, hpruned⟩
  · -- nothing was pruned
    have hend : ∃ r t l s, Standing cfg (run (readStep cfg) c calls) r t l s :=
      inv_run (fun c => ∃ r t l s, Standing cfg c r t l s)
        (fun c call h => Standing.step hC hk hm hkm h (.add call.1 (readCheck call.2)))
        ⟨r, t, l, s₀, hstand⟩ calls
    obtain ⟨r, t, l, s, h⟩ := hend
    rw [hsame]
    exact ⟨t, h.anchored.tip_eq, h.anchored.tip_eq, rfl, fun _ => rfl, rfl⟩
  · rw [hprune]
    have hmargin : forkWindow + f.height ≤ s₀.height := by
      have : forkWindow ≤ pruneMargin cfg := le_max_left _ _
      omega
    have hwin : ∀ sched, cfg.schedule = some sched → sched.window + f.height ≤ s₀.height := by
      intro sched hsched
      have : sched.window ≤ pruneMargin cfg := by
        unfold pruneMargin
        rw [hsched]
        exact le_max_right _ _
      omega
    have hfull : Reaching cfg c f.height s₀ r t l s₀ :=
      ⟨hstand, hrf, Anc.refl s₀, f, hsf, rfl⟩
    have hshort : Reaching cfg (c.prunedAt f.height f) f.height s₀ f t l s₀ :=
      ⟨hpruned, le_rfl, Anc.refl s₀, f, hpruned.above, rfl⟩
    have hend : Paired cfg f.height s₀ r f (run (readStep cfg) c calls)
        (run (readStep cfg) (c.prunedAt f.height f) calls) :=
      rel_run (Paired cfg f.height s₀ r f)
        (fun c p call h => h.readStep hC hk hm hkm hmargin hwin call)
        ⟨⟨t, l, s₀, hfull⟩, ⟨t, l, s₀, hshort⟩, hstand.alike_prunedAt hsf⟩ calls
    obtain ⟨⟨t₁, l₁, n₁, h₁⟩, ⟨t₂, l₂, n₂, h₂⟩, halike⟩ := hend
    exact ⟨t₁, halike.observed hC h₁ h₂ hwin⟩

/-! ## A chain that is pruned -/

namespace Grown65

/-- A configuration whose hash cannot collide and that settles the tip at once. -/
def config : ChainConfig :=
  { openConfig with
    crypto := ⟨fun b => 0 :: b, fun _ _ _ => true⟩
    finalityDepth := some 0
    settlementDepth := some 0 }

/-- A genesis and the anchors built on it, one on top of the other. -/
def grown : ℕ → Anchor
  | 0 => assembled config.crypto 1 none genesisProducer ∅ ∅
  | n + 1 => assembled config.crypto 1 (some (grown n)) "p" ∅ ∅

def growth : ℕ → List ChainOp
  | 0 => []
  | n + 1 => growth n ++ [.add (grown (n + 1)) (fun _ _ _ => true)]

theorem collisionFree : config.crypto.CollisionFree :=
  ⟨fun _ _ h => (List.cons.inj h).2, fun b => List.cons_ne_nil 0 b⟩

theorem rooted : GenesisRooted config (rootedAt (grown 0) ∅) (grown 0) ∅ :=
  ⟨genuine_assembled _ _ _ _ _, rfl, installGenesis_new rfl rfl rfl⟩

theorem height_grown (n : ℕ) : (grown n).height = n := by
  induction n with
  | zero => rfl
  | succ n ih =>
    show (grown n).height + 1 = n + 1
    rw [ih]

/-- Each passes every check over the empty heads. -/
theorem verifies (n : ℕ) :
    verifyAnchor config.crypto (grown (n + 1)) (some (grown n)) ∅ config.params 1 config.verifier
      = .ok ∅ := by
  rw [grown]
  unfold verifyAnchor
  simp [assembled, config, openConfig, verifyProofs, challengeFor, signageWalk, hexToNat?,
    requiredIters, maxSignage, spaceWeightFor, hexDigit?]
  rfl

/-- After `n` anchors the last is the tip, locked and settled. -/
structure Grew (n : ℕ) (c : AnchorChain) : Prop where
  standing : Standing config c (grown 0) (grown n) (grown n) (grown n)
  tipHeads_eq : c.tipHeads = ∅
  height_le : ∀ b, c.Holds b → b.height ≤ n

theorem Grew.accepts {n : ℕ} (hc : Grew n c) :
    c.Accepts config (fun _ _ _ => true) (grown (n + 1)) ∅ := by
  have htip := hc.standing.anchored.tip_held
  have htipId : c.tipId = some (grown n).id := by
    obtain ⟨i, hi, hget⟩ := Option.bind_eq_some_iff.mp hc.standing.anchored.tip_eq
    rw [hi, hc.standing.genuine.linked.keyed i _ hget]
  have hparent : c.parent (grown (n + 1)) = some (grown n) :=
    parent_eq_some.mpr ⟨(grown n).id, rfl, hc.standing.genuine.id_ne collisionFree htip, htip⟩
  refine ⟨?_, fun _ => ?_, fun hprev => ?_, ?_, rfl⟩
  · by_contra hne
    obtain ⟨b, hb⟩ := Option.ne_none_iff_exists'.mp hne
    have hheld := hc.standing.genuine.linked.holds_of_get hb
    have hsame : SameBody b.toAnchorBody (grown (n + 1)).toAnchorBody := by
      apply idOf_inj collisionFree.injective
      rw [(hc.standing.genuine.genuine b hheld).id_eq,
        hc.standing.genuine.linked.keyed _ b hb]
      rfl
    have hle := hc.height_le b hheld
    rw [hsame.height_eq, height_grown] at hle
    omega
  · rw [hparent]
    simp
  · rw [parent_of_prev_none hprev] at hparent
    exact absurd hparent (by simp)
  · have hheads : c.parentHeads (grown (n + 1)) = ∅ := by
      unfold parentHeads
      rw [hparent]
      simp only
      unfold headsAt
      rw [htipId, if_pos rfl, hc.tipHeads_eq]
    have hdiff : c.difficultyFor config (some (grown n)) = 1 := rfl
    unfold verify
    rw [hparent, hheads, hdiff]
    exact verifies n

theorem Grew.next {n : ℕ} (hc : Grew n c) :
    Grew (n + 1) (c.add config (fun _ _ _ => true) (grown (n + 1))).1 := by
  have hacc := hc.accepts
  have hadd := feedStep_of_accepts hacc
  unfold feedStep at hadd
  rw [hadd]
  have hs := hc.standing.store collisionFree hacc
  have hlast := hs.anchored.tip_held
  have hparent : (c.store (grown (n + 1))).parent (grown (n + 1)) = some (grown n) :=
    parent_eq_some.mpr ⟨(grown n).id, rfl, hs.genuine.id_ne collisionFree hlast, hlast⟩
  have hdesc : (c.store (grown (n + 1))).descendsFrom (grown (n + 1))
      (c.store (grown (n + 1))).lockedId = true := by
    rw [hs.anchored.lock_eq, hs.genuine.descends_iff collisionFree holds_store_self hlast]
    exact Anc.of_parent hparent
  have hheavier : heavier (grown (n + 1)) (grown n) = true := by
    refine heavier_iff.mpr (.inl ?_)
    show (grown n).weight < (grown n).weight + 1
    omega
  have htake : (c.store (grown (n + 1))).takesTip (grown (n + 1)) = true := by
    unfold takesTip wouldBeTip
    rw [if_pos hdesc, hs.anchored.tip_eq]
    exact hheavier
  have hlater : (c.store (grown (n + 1))).laterOf (grown (n + 1)) (grown n) 0 = grown (n + 1) := by
    unfold laterOf deep
    rw [height_grown, height_grown, if_pos (by omega)]
  have hrelocked : (c.store (grown (n + 1))).relocked (grown (n + 1)) = c.store (grown (n + 1)) := by
    unfold relocked
    rw [if_pos hdesc]
  have hlocks : ((c.store (grown (n + 1))).setTip config (grown (n + 1)) ∅).lockedId
        = some ((c.store (grown (n + 1))).laterOf (grown (n + 1)) (grown n) 0).id ∧
      ((c.store (grown (n + 1))).setTip config (grown (n + 1)) ∅).settledId
        = some ((c.store (grown (n + 1))).laterOf (grown (n + 1)) (grown n) 0).id :=
    setTip_locks ⟨rfl, rfl, rfl, rfl⟩ holds_store_self rfl rfl hlast hs.anchored.lock_eq hlast
      hs.anchored.settled_eq ∅
  rw [hlater] at hlocks
  obtain ⟨hlock, hsettled⟩ := hlocks
  obtain ⟨t, l, s, hstand, -⟩ := hs.choose collisionFree rfl rfl le_rfl holds_store_self
    hacc.spec.stateRoot_eq.symm
  have hself : ((c.store (grown (n + 1))).choose config (grown (n + 1)) ∅).1.Holds (grown (n + 1)) :=
    sameStore_choose.holds.mpr holds_store_self
  have hchoose : (c.store (grown (n + 1))).choose config (grown (n + 1)) ∅
      = ((c.store (grown (n + 1))).setTip config (grown (n + 1)) ∅, .ok) := by
    rw [choose_of_takesTip htake, hrelocked]
  have hsame : ∀ {x : Anchor},
      ((c.store (grown (n + 1))).choose config (grown (n + 1)) ∅).1.Holds x →
      some x.id = some (grown (n + 1)).id → x = grown (n + 1) := fun hx hid =>
    hstand.genuine.eq_of_id hx hself (Option.some.inj hid)
  have ht : t = grown (n + 1) := by
    have htip := hstand.anchored.tip_eq
    unfold tip at htip
    rw [hchoose] at htip
    have hheld : (c.store (grown (n + 1))).get (grown (n + 1)).id = some t := htip
    rw [get_store_self, Option.some.injEq] at hheld
    exact hheld.symm
  have hl : l = grown (n + 1) := hsame hstand.anchored.lock_held (by
    rw [← hstand.anchored.lock_eq, hchoose, ← hlock])
  have hsn : s = grown (n + 1) := hsame hstand.anchored.settled_held (by
    rw [← hstand.anchored.settled_eq, hchoose, ← hsettled])
  subst ht hl hsn
  refine ⟨hstand, ?_, fun b hb => ?_⟩
  · rw [hchoose]
    rfl
  · rcases holds_store_cases (sameStore_choose.holds.mp hb) with rfl | hb
    · rw [height_grown]
    · have hle := hc.height_le b hb
      omega

theorem grew (n : ℕ) : Grew n (run (opStep config) (rootedAt (grown 0) ∅) (growth n)) := by
  induction n with
  | zero =>
    refine ⟨rooted.standing, rfl, fun b hb => ?_⟩
    rw [(installGenesis_ok rooted.installed).holds_iff.mp hb, height_grown]
  | succ n ih =>
    rw [growth, run_append]
    exact ih.next

end Grown65

open Grown65 in
/-- A chain of sixty-five anchors pruned to height one, and the anchor that comes next. -/
theorem prune_invisible_grown :
    ∃ t, (run (readStep config) ((run (opStep config) (rootedAt (grown 0) ∅) (growth 65)).prune
          config 1) [(grown 66, fun _ _ => true)]).tip = some t ∧
      (run (readStep config) (run (opStep config) (rootedAt (grown 0) ∅) (growth 65))
          [(grown 66, fun _ _ => true)]).tip = some t := by
  have hs := (grew 65).standing.anchored.settled_eq'
  have hfloor : (1 : ℤ) ≤ (grown 65).height - pruneMargin config := by
    rw [height_grown]
    decide
  obtain ⟨t, hpruned, hfull, -⟩ := prune_invisible collisionFree rfl rfl (le_refl 0)
    rooted (growth 65) rfl hs hfloor [(grown 66, fun _ _ => true)]
  exact ⟨t, hpruned, hfull⟩

end AnchorChain

end Gavl
