import Gavl.Consensus.Genesis
import Gavl.Consensus.SettlementTheorems
import Gavl.Ledger.LedgerTheorems

/-!
# Heads the state roots vouch for

`prune` materializes the heads of the new floor and drops what they were built from. The dropped
anchors may come back: a peer may send the genesis again, then its child, and so on up to the
floor, and from then on heads are rebuilt from below the floor. That this changes nothing is not
a matter of what is stored but of what was verified: a delta leads from any heads that have the
root of the parent to heads that have the root of the child (`Carries`), so every anchor above
the floor certifies the heads its own `stateRoot` commits to.
-/

namespace Gavl

open ParentWalk Runs

/-! ## Verification sees heads through lookups -/

theorem get?_applyHeadsDelta_congr {h h' : Heads} (heq : ∀ w, h.get? w = h'.get? w) (delta : Heads)
    (w : String) : (applyHeadsDelta h delta).get? w = (applyHeadsDelta h' delta).get? w := by
  rw [get?_applyHeadsDelta, get?_applyHeadsDelta, heq w]

/-- The proofs are judged without the heads. -/
theorem verifyProofs_congr {C : Crypto} {params : ChainParams} {verifier : SpaceVerifier}
    {a : Anchor} {expected : ℕ} {challenge : Bytes} {heads heads' r : Heads}
    (h : verifyProofs C params verifier a expected challenge heads = .ok r) :
    verifyProofs C params verifier a expected challenge heads' = .ok heads' := by
  unfold verifyProofs at h ⊢
  simp only at h ⊢
  split at h
  · exact absurd h (by simp)
  · split at h
    · exact absurd h (by simp)
    · split_ifs at h with h1 h2 h3 h4
      simp only [if_neg h1, if_neg h2, if_neg h3, if_neg h4]

/-- An anchor verifies alike over heads that answer every lookup alike. -/
theorem verifyAnchor_congr {C : Crypto} {a : Anchor} {prev : Option Anchor} {h h' r : Heads}
    {params : ChainParams} {expected : ℕ} {verifier : SpaceVerifier}
    (heq : ∀ w, h.get? w = h'.get? w)
    (hok : verifyAnchor C a prev h params expected verifier = .ok r) :
    verifyAnchor C a prev h' params expected verifier = .ok (applyHeadsDelta h' a.headsDelta) := by
  have hroot : rootOfHeads C (applyHeadsDelta h a.headsDelta)
      = rootOfHeads C (applyHeadsDelta h' a.headsDelta) :=
    rootOfHeads_congr C (get?_applyHeadsDelta_congr heq _)
  unfold verifyAnchor at hok ⊢
  simp only at hok ⊢
  rw [← hroot]
  split_ifs at hok ⊢
  cases hc : challengeFor C params a prev with
  | error reason =>
    rw [hc] at hok
    exact absurd hok (by simp)
  | ok challenge =>
    rw [hc] at hok
    exact verifyProofs_congr hok

/-! ## Deltas between roots -/

/-- The delta leads from any heads that have the root of the anchor linked to, to heads that have
the anchor's own root. -/
def Carries (C : Crypto) (a : Anchor) : Prop :=
  ∀ (b : AnchorBody) (t : TimeProof) (h : Heads), a.prev = some (idOf C b t) →
    rootOfHeads C h = b.stateRoot → rootOfHeads C (applyHeadsDelta h a.headsDelta) = a.stateRoot

theorem Carries.of_root (C : Crypto) {a : Anchor} (h : a.prev = none) : Carries C a :=
  fun _ _ _ hprev => absurd (h.symm.trans hprev) (by simp)

namespace AnchorChain

variable {c c' : AnchorChain} {cfg : ChainConfig} {check : StateCheck} {a b p r l s t x y : Anchor}
  {heads : Heads} {k m : ℕ}

/-- What verification over a certified parent establishes. -/
theorem Accepts.carries (hC : cfg.crypto.CollisionFree) (hg : c.GenuineStore cfg.crypto)
    (hacc : c.Accepts cfg check a heads) (hp : c.parent a = some p)
    (hroot : rootOfHeads cfg.crypto (c.headsAt p.id) = p.stateRoot) : Carries cfg.crypto a := by
  intro b t h hprev hh
  have hpheld := hg.linked.holds_parent hp
  have hprev' := hg.linked.prev_of_parent hp
  rw [hprev, Option.some.injEq, ← (hg.genuine p hpheld).id_eq] at hprev'
  have hsame := idOf_inj hC.injective hprev'
  have hget : ∀ w, h.get? w = (c.headsAt p.id).get? w := by
    apply rootOfHeads_inj hC.injective
    rw [hh, hroot, hsame.stateRoot_eq]
  have hspec := hacc.spec
  rw [hspec.stateRoot_eq, hspec.heads_eq]
  unfold parentHeads
  rw [hp]
  exact rootOfHeads_congr _ (get?_applyHeadsDelta_congr hget _)

/-! ## Chains whose floor is vouched for -/

/-- Everything held above `r` certifies what its root commits to. `r` is the floor, or genesis
while the chain is not pruned; only anchors as high as `r` may miss their predecessor. -/
structure Vouched (C : Crypto) (c : AnchorChain) (r : Anchor) : Prop where
  held : c.Holds r
  carries : ∀ x, c.Holds x → Anc c.parent x r → Carries C x
  root_eq : rootOfHeads C (c.rebuiltHeads r) = r.stateRoot
  floor : (c.floorId = some r.id ∧ rootOfHeads C c.floorHeads = r.stateRoot) ∨
    (c.floorId = none ∧ r.height = 0)
  dangling : ∀ b, c.Holds b → b.link ≠ none → c.parent b = none → b.height = r.height

namespace Vouched

variable {C : Crypto}

/-- Above the floor the rebuilt heads have the root the anchor commits to. -/
theorem rebuilt_root (h : Vouched C c r) (hg : c.GenuineStore C) (hx : c.Holds x)
    (hxr : Anc c.parent x r) : rootOfHeads C (c.rebuiltHeads x) = x.stateRoot := by
  have hroot := h.root_eq
  have hcar := h.carries
  clear h
  induction hxr with
  | refl x => exact hroot
  | @step x p r hp hpr ih =>
    have hpheld := hg.linked.holds_parent hp
    have hprev := hg.linked.prev_of_parent hp
    rw [← (hg.genuine p hpheld).id_eq] at hprev
    rw [rebuiltHeads_cons hg.linked hx hp]
    exact hcar x hx (Anc.step hp hpr) _ _ _ hprev (ih hpheld hroot hcar)

/-- Whatever `headsAt` answers above the floor, from a cache or rebuilt, has the root the anchor
commits to. -/
theorem headsAt_root (h : Vouched C c r) (hg : c.GenuineStore C) (htip : c.tip = some t)
    (htheads : rootOfHeads C c.tipHeads = t.stateRoot) (hx : c.Holds x)
    (hxr : Anc c.parent x r) : rootOfHeads C (c.headsAt x.id) = x.stateRoot := by
  unfold headsAt
  split_ifs with h1 h2
  · have hxt : c.tip = some x := by
      unfold tip
      rw [← h1]
      exact hx
    rw [htip, Option.some.injEq] at hxt
    rw [htheads, hxt]
  · rcases h.floor with ⟨hid, hroot⟩ | ⟨hid, -⟩
    · rw [hid, Option.some.injEq] at h2
      have hxr' : x = r := by
        have hr := h.held
        unfold Holds at hx hr
        rw [h2, hr] at hx
        exact (Option.some.inj hx).symm
      rw [hroot, hxr']
    · rw [hid] at h2
      exact absurd h2 (by simp)
  · have hreb := h.rebuilt_root hg hx hxr
    unfold Holds at hx
    rw [hx]
    exact hreb

theorem sameStore (h : Vouched C c r) (hs : SameStore c c') : Vouched C c' r where
  held := hs.holds.mpr h.held
  carries := fun x hx hxr => h.carries x (hs.holds.mp hx) (hs.parent ▸ hxr)
  root_eq := by
    rw [rebuiltHeads_congr (by rw [hs.ancestry]) hs.floorId hs.floorHeads]
    exact h.root_eq
  floor := by
    rw [hs.floorId, hs.floorHeads]
    exact h.floor
  dangling := fun b hb hl hp => by
    rw [hs.parent] at hp
    exact h.dangling b (hs.holds.mp hb) hl hp

/-! ## Storing an anchor -/

/-- An anchor that waits for its predecessor gets one right below the height of the floor. -/
theorem waiting (hC : cfg.crypto.CollisionFree) (h : Vouched cfg.crypto c r)
    (hg : c.GenuineStore cfg.crypto) (hacc : c.Accepts cfg check a heads) (hb : c.Holds b)
    (hl : b.link = some a.id) : b.height = r.height ∧ a.height + 1 = r.height := by
  have hnone : c.parent b = none := by
    unfold parent
    rw [hl]
    exact hacc.fresh
  have hheight := h.dangling b hb (by rw [hl]; simp) hnone
  have hpar : (c.store a).parent b = some a := by rw [parent_store, if_pos hl]
  have hone := (hg.store hC hacc).linked.height_eq b a (holds_store hacc.fresh hb) hpar
  exact ⟨hheight, by omega⟩

/-- Storing an anchor makes no new descendants of anything as high as the floor but itself. -/
theorem anc_store_iff (hC : cfg.crypto.CollisionFree) (h : Vouched cfg.crypto c r)
    (hg : c.GenuineStore cfg.crypto) (hacc : c.Accepts cfg check a heads)
    (hx : (c.store a).Holds x) (hy : r.height ≤ y.height) :
    Anc (c.store a).parent x y ↔ Anc c.parent x y := by
  refine ⟨fun hxy => ?_, anc_store hacc.fresh⟩
  refine (hg.store hC hacc).linked.graded.anc_restrict (fun z p hz hp hle => ?_) hx hxy hy
  rw [parent_store] at hp
  split_ifs at hp with hl
  · -- a link that was waiting leads below the floor
    rw [Option.some.injEq] at hp
    subst hp
    rcases holds_store_cases hz with rfl | hz
    · exact absurd hl hacc.link_ne_self
    · have hbelow := (h.waiting hC hg hacc hz hl).2
      omega
  · exact hp

/-- An anchor no one below it waits for changes no ancestry. -/
theorem ancestry_store (hC : cfg.crypto.CollisionFree) (hg : c.GenuineStore cfg.crypto)
    (hacc : c.Accepts cfg check a heads) (hx : c.Holds x)
    (hun : ∀ y, Anc c.parent x y → y.link ≠ some a.id) :
    (c.store a).ancestry x = c.ancestry x := by
  refine hg.linked.ancestry_congr (hg.store hC hacc).linked hx (holds_store hacc.fresh hx)
    fun y hy => ?_
  rw [parent_store, if_neg (hun y hy)]

/-- Verification returns the heads a walk from the stored anchor rebuilds, where the anchor is
below the floor. -/
theorem rebuilt_below (hC : cfg.crypto.CollisionFree) (h : Vouched cfg.crypto c r)
    (hg : c.GenuineStore cfg.crypto) (hacc : c.Accepts cfg check a heads)
    (htip : c.tip = some t) (hrt : r.height ≤ t.height) (hlow : a.height < r.height) :
    (c.store a).rebuiltHeads a = heads := by
  have hheads := hacc.spec.heads_eq
  unfold parentHeads at hheads
  have hself := hacc.parent_store_self
  have hfloor : (c.store a).floorId ≠ some a.id := by
    intro hid
    rcases h.floor with ⟨hid', -⟩ | ⟨hid', -⟩
    · have : some r.id = some a.id := hid'.symm.trans hid
      have hheld := h.held
      unfold Holds at hheld
      rw [Option.some.inj this, hacc.fresh] at hheld
      exact absurd hheld (by simp)
    · exact absurd (hid'.symm.trans hid) (by simp)
  cases hp : c.parent a with
  | none =>
    rw [hp] at hheads hself
    rw [rebuiltHeads_root hself, if_neg hfloor, hheads]
  | some q =>
    rw [hp] at hheads hself
    simp only at hheads
    have hL := hg.linked
    have hq := hL.holds_parent hp
    have hqa := hacc.height_eq hp
    -- `q` is too low to be the tip or the floor, so its heads are rebuilt
    have hqheads : c.headsAt q.id = c.rebuiltHeads q := by
      refine headsAt_eq_of hq (fun hid => ?_) (fun hid => ?_) rfl
      · have hqt : c.tip = some q := by
          unfold tip
          rw [hid]
          exact hq
        rw [htip, Option.some.injEq] at hqt
        subst hqt
        omega
      · rcases h.floor with ⟨hid', -⟩ | ⟨hid', -⟩
        · rw [hid', Option.some.injEq] at hid
          have hheld := h.held
          unfold Holds at hheld hq
          rw [hid, hq, Option.some.injEq] at hheld
          subst hheld
          omega
        · exact absurd (hid'.symm.trans hid) (by simp)
    have hanc : (c.store a).ancestry q = c.ancestry q := by
      refine ancestry_store hC hg hacc hq fun y hy hl => ?_
      have hbelow := (h.waiting hC hg hacc (hL.holds_anc hq hy) hl).1
      have hle := hL.graded.height_le hq hy
      omega
    rw [rebuiltHeads_cons (hg.store hC hacc).linked holds_store_self hself,
      rebuiltHeads_congr hanc rfl rfl, hheads, hqheads]

theorem store (hC : cfg.crypto.CollisionFree) (h : Vouched cfg.crypto c r)
    (hg : c.GenuineStore cfg.crypto) (hacc : c.Accepts cfg check a heads)
    (htip : c.tip = some t) (htr : Anc c.parent t r) (ht : c.Holds t)
    (htheads : rootOfHeads cfg.crypto c.tipHeads = t.stateRoot) :
    Vouched cfg.crypto (c.store a) r where
  held := holds_store hacc.fresh h.held
  carries := fun x hx hxr => by
    rw [h.anc_store_iff hC hg hacc hx le_rfl] at hxr
    rcases holds_store_cases hx with rfl | hx
    · rcases hxr.cases_parent with rfl | ⟨q, hq, hqr⟩
      · have hheld := h.held
        unfold Holds at hheld
        rw [hacc.fresh] at hheld
        exact absurd hheld (by simp)
      · exact hacc.carries hC hg hq
          (h.headsAt_root hg htip htheads (hg.linked.holds_parent hq) hqr)
    · exact h.carries x hx hxr
  root_eq := by
    have hL := hg.linked
    by_cases hl : r.link = some a.id
    · -- the floor's own predecessor comes back
      have hpar : (c.store a).parent r = some a := by rw [parent_store, if_pos hl]
      have hlow := (h.waiting hC hg hacc h.held hl).2
      have hrt := hL.graded.height_le ht htr
      rw [rebuiltHeads_cons (hg.store hC hacc).linked (holds_store hacc.fresh h.held) hpar,
        h.rebuilt_below hC hg hacc htip hrt (by omega)]
      refine h.carries r h.held (Anc.refl r) a.toAnchorBody a.time heads ?_
        hacc.spec.stateRoot_eq.symm
      rw [hacc.spec.id_eq]
      exact (AnchorBody.link_eq_some.mp hl).1
    · have hanc : (c.store a).ancestry r = c.ancestry r := by
        refine ancestry_store hC hg hacc h.held fun y hy hyl => ?_
        have hyr := (h.waiting hC hg hacc (hL.holds_anc h.held hy) hyl).1
        rw [← hL.graded.eq_of_height_le h.held hy hyr.ge] at hyl
        exact hl hyl
      rw [rebuiltHeads_congr hanc rfl rfl]
      exact h.root_eq
  floor := h.floor
  dangling := fun b hb hl hp => by
    rcases holds_store_cases hb with rfl | hb
    · rw [hacc.parent_store_self] at hp
      exact absurd hp (hacc.known hl)
    · refine h.dangling b hb hl ?_
      cases hcp : c.parent b with
      | none => rfl
      | some q =>
        rw [parent_store_of_some hacc.fresh hcp] at hp
        exact absurd hp (by simp)

end Vouched

/-! ## Runs -/

theorem GenuineStore.prunedAt {C : Crypto} (h : c.GenuineStore C) {height : ℤ} :
    (c.prunedAt height r).GenuineStore C where
  keyed := h.linked.prunedAt.keyed
  genuine := fun a ha => h.genuine a (holds_prunedAt.mp ha).1

/-- The tip above the lock, the lock above the settled anchor, the settled anchor above a floor
that is vouched for, in a store of genuine anchors. -/
structure Standing (cfg : ChainConfig) (c : AnchorChain) (r t l s : Anchor) : Prop where
  genuine : c.GenuineStore cfg.crypto
  anchored : Anchored c t l s
  vouched : Vouched cfg.crypto c r
  above : Anc c.parent s r
  tip_heads : rootOfHeads cfg.crypto c.tipHeads = t.stateRoot

namespace Standing

theorem tip_settled (h : Standing cfg c r t l s) : Anc c.parent t s :=
  h.anchored.lock_anc.trans h.anchored.settled_anc

/-- What `headsAt` answers above the floor has the root the anchor commits to. -/
theorem headsAt_root (h : Standing cfg c r t l s) (hx : c.Holds x) (hxr : Anc c.parent x r) :
    rootOfHeads cfg.crypto (c.headsAt x.id) = x.stateRoot :=
  h.vouched.headsAt_root h.genuine h.anchored.tip_eq h.tip_heads hx hxr

theorem store (hC : cfg.crypto.CollisionFree) (h : Standing cfg c r t l s)
    (hacc : c.Accepts cfg check a heads) : Standing cfg (c.store a) r t l s where
  genuine := h.genuine.store hC hacc
  anchored := h.anchored.store hacc.fresh
  vouched := h.vouched.store hC h.genuine hacc h.anchored.tip_eq (h.tip_settled.trans h.above)
    h.anchored.tip_held h.tip_heads
  above := anc_store hacc.fresh h.above
  tip_heads := h.tip_heads

/-- Deciding the tip: the same floor, and the settled anchor only moves up. -/
theorem choose (hC : cfg.crypto.CollisionFree) (hk : cfg.finalityDepth = some k)
    (hm : cfg.settlementDepth = some m) (hkm : k ≤ m) (h : Standing cfg c r t l s)
    (ha : c.Holds a) (hroot : rootOfHeads cfg.crypto heads = a.stateRoot) :
    ∃ t' l' s', Standing cfg (c.choose cfg a heads).1 r t' l' s' ∧
      Anc (c.choose cfg a heads).1.parent s' s := by
  have hs : SameStore c (c.choose cfg a heads).1 := sameStore_choose
  obtain ⟨t', l', s', hanch, hss⟩ := anchored_choose heads h.genuine.linked
    (fun b hb => h.genuine.id_ne hC hb) hk hm hkm h.anchored ha
  have habove : Anc (c.choose cfg a heads).1.parent s r := by
    rw [hs.parent]
    exact h.above
  refine ⟨t', l', s', ⟨h.genuine.sameStore hs, hanch, h.vouched.sameStore hs, hss.trans habove,
    ?_⟩, hss⟩
  have htip := hanch.tip_eq
  unfold tip at htip
  rw [hs.get] at htip
  rcases tip_choose c cfg a heads with ⟨hid, hheads⟩ | ⟨hid, hheads⟩
  · rw [hid, Option.bind_some, show c.get a.id = some a from ha, Option.some.injEq] at htip
    rw [hheads, hroot, htip]
  · rw [hid] at htip
    have htt : t = t' := Option.some.inj (h.anchored.tip_eq.symm.trans htip)
    rw [hheads, h.tip_heads, htt]

theorem add (hC : cfg.crypto.CollisionFree) (hk : cfg.finalityDepth = some k)
    (hm : cfg.settlementDepth = some m) (hkm : k ≤ m) (h : Standing cfg c r t l s)
    (check : StateCheck) (a : Anchor) :
    ∃ t' l' s', Standing cfg (c.add cfg check a).1 r t' l' s' ∧
      Anc (c.add cfg check a).1.parent s' s := by
  rcases add_cases c cfg check a with ⟨hsame, -⟩ | ⟨heads, hacc, hadd⟩
  · rw [hsame]
    exact ⟨t, l, s, h, Anc.refl s⟩
  · rw [hadd]
    exact (h.store hC hacc).choose hC hk hm hkm holds_store_self hacc.spec.stateRoot_eq.symm

/-- Pruning does nothing, or moves the floor up to an ancestor of the settled anchor. -/
theorem prune (hm : cfg.settlementDepth = some m) (h : Standing cfg c r t l s) (height : ℤ) :
    c.prune cfg height = c ∨
      ∃ f : Anchor, (f.height : ℤ) ≤ height ∧ r.height ≤ f.height ∧ Anc c.parent s f ∧
        c.prune cfg height = c.prunedAt f.height f ∧
        Standing cfg (c.prunedAt f.height f) f t l s := by
  rcases prune_cases c cfg height with hsame | ⟨t', f, htip, hmem, hheight, hfloor, hprune⟩
  · exact Or.inl hsame
  refine Or.inr ⟨f, ?_⟩
  rw [← hheight] at hprune hfloor
  have hL := h.genuine.linked
  have htt : t = t' := Option.some.inj (h.anchored.tip_eq.symm.trans htip)
  subst htt
  have hle : c.pruneHeight cfg height ≤ height := by
    unfold pruneHeight
    split_ifs
    · exact le_trans (clampTo_le _ _ _) (clampTo_le _ _ _)
    · exact clampTo_le _ _ _
  have hps : c.pruneHeight cfg height ≤ s.height := by
    unfold pruneHeight
    rw [hm, Option.isSome_some, if_pos rfl, h.anchored.settled_eq]
    exact clampTo_le_height h.anchored.settled_held _
  have ht := h.anchored.tip_held
  have htf : Anc c.parent t f := (hL.mem_ancestry ht).mp hmem
  have hf : c.Holds f := hL.holds_anc ht htf
  have hrf : r.height ≤ f.height := by
    rcases h.vouched.floor with ⟨hid, -⟩ | ⟨-, hzero⟩
    · have hlt := hfloor r (by rw [hid]; exact h.vouched.held)
      omega
    · omega
  have hsf : Anc c.parent s f := hL.graded.anc_of_height_le ht h.tip_settled htf (by omega)
  have hfr : Anc c.parent f r :=
    hL.graded.anc_of_height_le ht htf (h.tip_settled.trans h.above) hrf
  have hback : ∀ {x y : Anchor}, Anc (c.prunedAt f.height f).parent x y → Anc c.parent x y :=
    fun hxy => hxy.mono fun _ _ hp => (parent_prunedAt.mp hp).1
  have hroot : (c.prunedAt f.height f).parent f = none := by
    cases hp : (c.prunedAt f.height f).parent f with
    | none => rfl
    | some q =>
      obtain ⟨hq, hqle⟩ := parent_prunedAt.mp hp
      have hone := hL.height_eq f q hf hq
      omega
  have hheads := h.headsAt_root hf hfr
  have hvouched : Vouched cfg.crypto (c.prunedAt f.height f) f :=
    { held := holds_prunedAt.mpr ⟨hf, le_rfl⟩
      carries := fun x hx hxf =>
        h.vouched.carries x (holds_prunedAt.mp hx).1 ((hback hxf).trans hfr)
      root_eq := by
        rw [rebuiltHeads_root hroot, if_pos (show (c.prunedAt f.height f).floorId = some f.id from rfl)]
        exact hheads
      floor := Or.inl ⟨rfl, hheads⟩
      dangling := fun b hb hl hp => by
        obtain ⟨hb, hbf⟩ := holds_prunedAt.mp hb
        cases hq : c.parent b with
        | none =>
          have hbr := h.vouched.dangling b hb hl hq
          omega
        | some q =>
          -- the predecessor was below the new floor
          have hone := hL.height_eq b q hb hq
          by_contra hne
          have hkept : (c.prunedAt f.height f).parent b = some q :=
            parent_prunedAt.mpr ⟨hq, by omega⟩
          rw [hp] at hkept
          exact absurd hkept (by simp) }
  have hanch : Anchored (c.prunedAt f.height f) t l s := by
    rw [← hprune]
    exact h.anchored.prune hL hm height
  exact ⟨by omega, hrf, hsf, hprune, h.genuine.prunedAt, hanch, hvouched,
    hL.anc_prunedAt h.anchored.settled_held hsf le_rfl, h.tip_heads⟩

/-- A call keeps a chain in good standing. -/
theorem step (hC : cfg.crypto.CollisionFree) (hk : cfg.finalityDepth = some k)
    (hm : cfg.settlementDepth = some m) (hkm : k ≤ m)
    (h : ∃ r t l s, Standing cfg c r t l s) (op : ChainOp) :
    ∃ r t l s, Standing cfg (opStep cfg c op) r t l s := by
  obtain ⟨r, t, l, s, h⟩ := h
  cases op with
  | add a check =>
    obtain ⟨t', l', s', h', -⟩ := h.add hC hk hm hkm check a
    exact ⟨r, t', l', s', h'⟩
  | prune height =>
    rcases h.prune hm height with hsame | ⟨f, -, -, -, hprune, h'⟩
    · exact ⟨r, t, l, s, by rw [opStep, hsame]; exact h⟩
    · exact ⟨f, t, l, s, by rw [opStep, hprune]; exact h'⟩

end Standing

/-- A genesis that carries the hash of its content, installed with the heads its delta leads to,
as the hardcoded one is. -/
structure GenesisRooted (cfg : ChainConfig) (c : AnchorChain) (g : Anchor) (heads : Heads) :
    Prop where
  genuine : Genuine cfg.crypto g
  heads_eq : applyHeadsDelta ∅ g.headsDelta = heads
  installed : AnchorChain.new.installGenesis cfg g heads = .ok c

theorem GenesisRooted.standing {g : Anchor} (h : GenesisRooted cfg c g heads) :
    Standing cfg c g g g g := by
  have hi := installGenesis_ok h.installed
  have hheld : c.Holds g := hi.holds_iff.mpr rfl
  have hroot : rootOfHeads cfg.crypto heads = g.stateRoot := by
    have hok := h.installed
    unfold installGenesis at hok
    split_ifs at hok with h1 h2 h3
    exact not_not.mp h3
  refine ⟨⟨hi.linked.keyed, fun a ha => hi.holds_iff.mp ha ▸ h.genuine⟩,
    ⟨hi.tip_eq, hheld, hheld, hi.lockedId_eq, hheld, hi.settledId_eq, Anc.refl g, Anc.refl g⟩,
    ⟨hheld, fun x hx _ => ?_, ?_, Or.inr ⟨hi.floorId_eq, hi.height_eq⟩, fun b hb hl _ => ?_⟩,
    Anc.refl g, ?_⟩
  · rw [hi.holds_iff.mp hx]
    exact Carries.of_root _ hi.prev_eq
  · rw [rebuiltHeads_root hi.parent_eq, hi.floorId_eq, if_neg (by simp), h.heads_eq, hroot]
  · rw [hi.holds_iff.mp hb]
  · rw [hi.tipHeads_eq, hroot]

/-- The hardcoded genesis of any network, as the daemon installs it. -/
theorem genesisRooted_genesisAnchor (cfg : ChainConfig) (network : String) (difficulty : ℕ)
    (appRoot : String) :
    GenesisRooted cfg (rootedAt (genesisAnchor cfg.crypto network difficulty appRoot) ∅)
      (genesisAnchor cfg.crypto network difficulty appRoot) ∅ where
  genuine := by
    refine ⟨rfl, fun b t h => ?_⟩
    have hprev : (genesisAnchor cfg.crypto network difficulty appRoot).prev = none := rfl
    rw [hprev] at h
    exact absurd h (by simp)
  heads_eq := rfl
  installed := installGenesis_new rfl rfl rfl

end AnchorChain

end Gavl
