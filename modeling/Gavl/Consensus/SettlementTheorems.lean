import Gavl.Consensus.HeadsTheorems
import Gavl.Consensus.IdTheorems

/-!
# Settlement is irreversible

With a settlement depth no smaller than the finality depth, the settled anchor is below the
lock and the lock is below the tip, and every way of moving the tip keeps it so: extension,
a heavier or final fork, the fall back to a fork point, and pruning. What the argument needs of
a root is that its id and its link are what an honest chain's would be (`Genuine`).
-/

namespace Gavl

open ParentWalk Runs

/-! ## Genuine anchors -/

/-- No two inputs share a digest, and none has an empty one. -/
structure Crypto.CollisionFree (C : Crypto) : Prop where
  injective : Function.Injective C.sha256
  digest_ne : ∀ b, C.sha256 b ≠ []

/-- An anchor whose id is the hash of its content, one above whatever content it links to. -/
structure Genuine (C : Crypto) (a : Anchor) : Prop where
  id_eq : idOf C a.toAnchorBody a.time = a.id
  link_height : ∀ (b : AnchorBody) (t : TimeProof), a.prev = some (idOf C b t) →
    b.height + 1 = a.height

namespace AnchorChain

variable {c c' : AnchorChain} {cfg : ChainConfig} {check : StateCheck} {a b p l s t : Anchor}
  {heads : Heads} {k m : ℕ}

/-- A store of genuine anchors, each under its id. -/
structure GenuineStore (C : Crypto) (c : AnchorChain) : Prop where
  keyed : ∀ id a, c.get id = some a → a.id = id
  genuine : ∀ a, c.Holds a → Genuine C a

namespace GenuineStore

variable {C : Crypto}

theorem linked (h : c.GenuineStore C) : c.Linked where
  keyed := h.keyed
  height_eq := fun a p ha hp => by
    obtain ⟨id, hprev, -, hget⟩ := parent_eq_some.mp hp
    have hid := h.keyed id p hget
    have hpheld : c.Holds p := by
      unfold Holds
      rw [hid]
      exact hget
    refine (h.genuine a ha).link_height p.toAnchorBody p.time ?_
    rw [(h.genuine p hpheld).id_eq, hid, hprev]

theorem id_ne (hC : C.CollisionFree) (h : c.GenuineStore C) (ha : c.Holds a) : a.id ≠ "" := by
  rw [← (h.genuine a ha).id_eq]
  exact idOf_ne_empty hC.digest_ne _ _

theorem sameStore (h : c.GenuineStore C) (hs : SameStore c c') : c'.GenuineStore C where
  keyed := by
    rw [hs.get]
    exact h.keyed
  genuine := fun a ha => h.genuine a (hs.holds.mp ha)

/-- Verification makes every added anchor genuine. -/
theorem store (hC : cfg.crypto.CollisionFree) (h : c.GenuineStore cfg.crypto)
    (hacc : c.Accepts cfg check a heads) : (c.store a).GenuineStore cfg.crypto where
  keyed := fun id b hget => by
    rw [get_store] at hget
    split_ifs at hget with hid
    · rw [← Option.some.inj hget]
      exact hid
    · exact h.keyed id b hget
  genuine := fun b hb => by
    rcases holds_store_cases hb with rfl | hb
    · refine ⟨hacc.spec.id_eq, fun body time hprev => ?_⟩
      cases hp : c.parent b with
      | none =>
        rw [hacc.prev_none hp] at hprev
        exact absurd hprev (by simp)
      | some p =>
        have hid : p.id = idOf cfg.crypto body time := by
          have hprev' := h.linked.prev_of_parent hp
          rw [hprev, Option.some.injEq] at hprev'
          exact hprev'.symm
        rw [← (h.genuine p (h.linked.holds_parent hp)).id_eq] at hid
        rw [← hacc.height_eq hp, (idOf_inj hC.injective hid).height_eq]
    · exact h.genuine b hb

end GenuineStore

/-! ## What fork resolution may switch to -/

/-- A shared ancestor of the two branches is on the newcomer's branch at or below the fork
point. -/
theorem forkPoint_spec (hL : c.Linked) (ha : c.Holds a) (hs : Anc c.parent a s)
    (hst : Anc c.parent t s) (ht : c.Holds t) {fork : Anchor}
    (hfork : c.forkPoint a t = some fork) :
    Anc c.parent a fork ∧ s.height ≤ fork.height ∧
      ∀ b ∈ c.branchAbove a t, Anc c.parent a b ∧ fork.height < b.height := by
  have hsmem : s ∈ c.ancestry a := (hL.mem_ancestry ha).mpr hs
  have hsin : s.id ∈ (c.ancestry t).map (·.id) :=
    List.mem_map.mpr ⟨s, (hL.mem_ancestry ht).mpr hst, rfl⟩
  have hpair : (c.ancestry a).Pairwise (fun x y => y.height < x.height) := by
    rw [hL.ancestry_eq ha]
    exact hL.graded.pairwise_walk _ ha
  unfold forkPoint at hfork
  unfold branchAbove
  obtain ⟨hmem, before, after, hsplit, hbefore⟩ := List.find?_eq_some_iff_append.mp hfork
  rw [hsplit] at hpair hsmem
  have hlt := (List.pairwise_append.mp hpair).2.2
  refine ⟨(hL.mem_ancestry ha).mp (by rw [hsplit]; simp), ?_, fun b hb => ?_⟩
  · -- nothing before the fork point is shared, so `s` is not there
    rcases List.mem_append.mp hsmem with hsb | hsa
    · have := hbefore s hsb
      simp [hsin] at this
    · rcases List.mem_cons.mp hsa with rfl | hsa
      · exact le_rfl
      · exact le_of_lt ((List.pairwise_cons.mp (List.pairwise_append.mp hpair).2.1).1 s hsa)
  · have htake : (c.ancestry a).takeWhile
        (fun x => decide (x.id ∉ (c.ancestry t).map (·.id))) = before := by
      rw [hsplit, List.takeWhile_append_of_pos (fun x hx => by simpa using hbefore x hx)]
      have hfork' : fork.id ∈ (c.ancestry t).map (·.id) := by simpa using hmem
      rw [List.takeWhile_cons]
      simp [hfork']
    rw [htake] at hb
    refine ⟨(hL.mem_ancestry ha).mp (by rw [hsplit]; exact List.mem_append_left _ hb), ?_⟩
    exact hlt b hb fork List.mem_cons_self

/-- Whatever a fork re-anchors the lock to is on the newcomer's branch, above everything the
two branches share but the fork point. -/
theorem resolveFork_spec (hL : c.Linked) (ha : c.Holds a) (ht : c.Holds t)
    (hs : Anc c.parent a s) (hst : Anc c.parent t s) {id : String}
    (hv : (c.resolveFork a t).switchTo = some id) :
    ∃ l, l.id = id ∧ Anc c.parent a l ∧ Anc c.parent l s := by
  unfold resolveFork at hv
  cases hfork : c.forkPoint a t with
  | none => rw [hfork] at hv; exact absurd hv (by simp)
  | some fork =>
    rw [hfork] at hv
    obtain ⟨hafork, hle, habove⟩ := forkPoint_spec hL ha hs hst ht hfork
    have hbelow : ∀ l, Anc c.parent a l → fork.height ≤ l.height → Anc c.parent l s :=
      fun l hal hl => hL.graded.anc_of_height_le ha hal hs (le_trans hle hl)
    simp only at hv
    split_ifs at hv
    · -- the conflicting branch is final: its first anchor above the fork point
      rw [Option.map_eq_some_iff] at hv
      obtain ⟨l, hl, rfl⟩ := hv
      obtain ⟨hal, hlt⟩ := habove l (List.mem_of_getLast? hl)
      exact ⟨l, rfl, hal, hbelow l hal hlt.le⟩
    · rw [Option.some.injEq] at hv
      exact ⟨fork, hv, hafork, hbelow fork hafork le_rfl⟩

/-! ## The tip, the lock and the settled anchor -/

/-- The tip descends from the lock and the lock from the settled anchor. -/
structure Anchored (c : AnchorChain) (t l s : Anchor) : Prop where
  tip_eq : c.tip = some t
  tip_held : c.Holds t
  lock_held : c.Holds l
  lock_eq : c.lockedId = some l.id
  settled_held : c.Holds s
  settled_eq : c.settledId = some s.id
  lock_anc : Anc c.parent t l
  settled_anc : Anc c.parent l s

theorem Anchored.settled_eq' (h : Anchored c t l s) : c.settled = some s := by
  unfold settled
  rw [h.settled_eq]
  exact h.settled_held

/-- The later of a held anchor and the one `depth` deep. -/
def laterOf (c : AnchorChain) (t cur : Anchor) (depth : ℕ) : Anchor :=
  if cur.height < (c.deep depth t).height then c.deep depth t else cur

/-- `updateLock` keeps the later one. -/
theorem advanceLock_eq (hs : SameStore c c') (htip : c'.tip = some t) (hl : c.Holds l)
    {cur : Option String} (hcur : cur = some l.id) {depth : Option ℕ} (hk : depth = some k) :
    c'.advanceLock cur depth = some (c.laterOf t l k).id := by
  have hget : c'.get l.id = some l := by
    rw [hs.get]
    exact hl
  subst hcur hk
  unfold advanceLock finalized laterOf
  simp only [htip, Option.map_some, Option.bind_some, hget, hs.deep]
  split_ifs
  · rfl
  · rfl

theorem laterOf_cases (c : AnchorChain) (t cur : Anchor) (depth : ℕ) :
    (c.laterOf t cur depth = c.deep depth t ∨ c.laterOf t cur depth = cur) ∧
      cur.height ≤ (c.laterOf t cur depth).height ∧
      (c.deep depth t).height ≤ (c.laterOf t cur depth).height := by
  unfold laterOf
  split_ifs with h
  · exact ⟨Or.inl rfl, h.le, le_rfl⟩
  · exact ⟨Or.inr rfl, le_rfl, not_lt.mp h⟩

/-- Moving the tip above the lock and the settled anchor leaves it above the new ones, and the
new settled anchor above the old one. -/
theorem anchored_setTip (heads : Heads) (hL : c.Linked) (hk : cfg.finalityDepth = some k)
    (hm : cfg.settlementDepth = some m) (hkm : k ≤ m) (ha : c.Holds a)
    (hl : c.lockedId = some l.id) (hal : Anc c.parent a l) (hs : c.settledId = some s.id)
    (hls : Anc c.parent l s) :
    ∃ l' s', Anchored (c.setTip cfg a heads) a l' s' ∧ Anc c.parent s' s := by
  have hlheld : c.Holds l := hL.holds_anc ha hal
  have hsheld : c.Holds s := hL.holds_anc hlheld hls
  have has : Anc c.parent a s := hal.trans hls
  obtain ⟨hlcase, hlge, hlk⟩ := laterOf_cases c a l k
  obtain ⟨hscase, hsge, -⟩ := laterOf_cases c a s m
  have hal' : Anc c.parent a (c.laterOf a l k) := by
    rcases hlcase with h | h
    · rw [h]; exact anc_deep k a
    · rw [h]; exact hal
  have has' : Anc c.parent a (c.laterOf a s m) := by
    rcases hscase with h | h
    · rw [h]; exact anc_deep m a
    · rw [h]; exact has
  have hheight : (c.laterOf a s m).height ≤ (c.laterOf a l k).height := by
    rcases hscase with h | h
    · rw [h]
      exact le_trans (hL.graded.height_le (hL.holds_anc ha (anc_deep k a)) (anc_deep_of_le hkm a))
        hlk
    · rw [h]
      exact le_trans (hL.graded.height_le hlheld hls) hlge
  have hstep : SameStore c { c with tipId := some a.id, tipHeads := heads } :=
    ⟨rfl, rfl, rfl, rfl⟩
  have hlock : (c.setTip cfg a heads).lockedId = some (c.laterOf a l k).id :=
    advanceLock_eq hstep ha hlheld hl hk
  have hsettle : (c.setTip cfg a heads).settledId = some (c.laterOf a s m).id :=
    advanceLock_eq hstep ha hsheld hs hm
  exact ⟨c.laterOf a l k, c.laterOf a s m, ⟨ha, ha, hL.holds_anc ha hal', hlock,
    hL.holds_anc ha has', hsettle, hal', hL.graded.anc_of_height_le ha hal' has' hheight⟩,
    hL.graded.anc_of_height_le ha has' has hsge⟩

/-- Deciding the tip of a store keeps the order, and settles only upwards. -/
theorem anchored_choose (heads : Heads) (hL : c.Linked) (hne : ∀ b, c.Holds b → b.id ≠ "")
    (hk : cfg.finalityDepth = some k) (hm : cfg.settlementDepth = some m) (hkm : k ≤ m)
    (h : Anchored c t l s) (ha : c.Holds a) :
    ∃ t' l' s', Anchored (c.choose cfg a heads).1 t' l' s' ∧
      Anc (c.choose cfg a heads).1.parent s' s := by
  have hid : ∀ {x y : Anchor}, c.Holds x → c.Holds y → x.id = y.id → x = y := by
    intro x y hx hy hxy
    unfold Holds at hx hy
    rw [hxy, hy] at hx
    exact (Option.some.inj hx).symm
  cases htake : c.takesTip a with
  | false =>
    obtain ⟨conflict, hc⟩ := choose_of_not_takesTip cfg heads htake
    rw [hc]
    exact ⟨t, l, s, ⟨h.tip_eq, h.tip_held, h.lock_held, h.lock_eq, h.settled_held, h.settled_eq,
      h.lock_anc, h.settled_anc⟩, Anc.refl s⟩
  | true =>
    rw [choose_of_takesTip htake]
    unfold takesTip at htake
    unfold relocked
    by_cases hdesc : c.descendsFrom a c.lockedId = true
    · rw [if_pos hdesc]
      rw [h.lock_eq, hL.descendsFrom_iff ha (hne l h.lock_held)] at hdesc
      obtain ⟨b, hab, hbl⟩ := hdesc
      have hbl' : b = l := hid (hL.holds_anc ha hab) h.lock_held hbl
      subst hbl'
      obtain ⟨l', s', hanch, hs'⟩ := anchored_setTip heads hL hk hm hkm ha h.lock_eq hab
        h.settled_eq h.settled_anc
      exact ⟨a, l', s', hanch, hs'⟩
    · rw [if_neg hdesc] at htake ⊢
      simp only [Bool.and_eq_true, Option.isSome_iff_exists] at htake
      obtain ⟨⟨⟨id, hswitch⟩, -⟩, hsettled⟩ := htake
      rw [h.settled_eq, hL.descendsFrom_iff ha (hne s h.settled_held)] at hsettled
      obtain ⟨b, hab, hbs⟩ := hsettled
      have hbs' : b = s := hid (hL.holds_anc ha hab) h.settled_held hbs
      subst hbs'
      rw [hswitch]
      have hverdict : (c.resolveFork a t).switchTo = some id := by
        unfold forkVerdict at hswitch
        rw [h.tip_eq] at hswitch
        exact hswitch
      obtain ⟨l', hl', hal', hls'⟩ := resolveFork_spec hL ha h.tip_held hab
        (h.lock_anc.trans h.settled_anc) hverdict
      have hrelocked : SameStore c { c with lockedId := some id } := ⟨rfl, rfl, rfl, rfl⟩
      obtain ⟨l'', s', hanch, hs'⟩ := anchored_setTip (c := { c with lockedId := some id })
        (l := l') heads (hrelocked.linked hL) hk hm hkm (hrelocked.holds.mpr ha)
        (by rw [hl']) hal' h.settled_eq hls'
      exact ⟨a, l'', s', hanch, hs'⟩

theorem Anchored.store (h : Anchored c t l s) (hnew : c.get a.id = none) :
    Anchored (c.store a) t l s where
  tip_eq := by
    obtain ⟨id, hid, hget⟩ := Option.bind_eq_some_iff.mp h.tip_eq
    have hid' : (c.store a).tipId = some id := hid
    unfold tip
    rw [hid']
    exact get_store_of_some hnew hget
  tip_held := holds_store hnew h.tip_held
  lock_held := holds_store hnew h.lock_held
  lock_eq := h.lock_eq
  settled_held := holds_store hnew h.settled_held
  settled_eq := h.settled_eq
  lock_anc := anc_store hnew h.lock_anc
  settled_anc := anc_store hnew h.settled_anc

/-- Pruning stays below the lock and the settled anchor, so it cuts neither off. -/
theorem Anchored.prune (h : Anchored c t l s) (hL : c.Linked)
    (hm : cfg.settlementDepth = some m) (height : ℤ) :
    Anchored (c.prune cfg height) t l s := by
  rcases prune_cases c cfg height with hsame | ⟨t', floor, -, -, -, -, hprune⟩
  · rw [hsame]
    exact h
  have hps : c.pruneHeight cfg height ≤ s.height := by
    unfold pruneHeight
    rw [hm, Option.isSome_some, if_pos rfl, h.settled_eq]
    exact clampTo_le_height h.settled_held _
  have hsl : s.height ≤ l.height := hL.graded.height_le h.lock_held h.settled_anc
  have hlt : l.height ≤ t.height := hL.graded.height_le h.tip_held h.lock_anc
  have htip : (c.prunedAt (c.pruneHeight cfg height) floor).Holds t :=
    holds_prunedAt.mpr ⟨h.tip_held, by omega⟩
  rw [hprune]
  refine ⟨?_, htip, holds_prunedAt.mpr ⟨h.lock_held, by omega⟩, h.lock_eq,
    holds_prunedAt.mpr ⟨h.settled_held, hps⟩, h.settled_eq,
    hL.anc_prunedAt h.tip_held h.lock_anc (by omega),
    hL.anc_prunedAt h.lock_held h.settled_anc hps⟩
  obtain ⟨id, hid, hget⟩ := Option.bind_eq_some_iff.mp h.tip_eq
  have hid' : (c.prunedAt (c.pruneHeight cfg height) floor).tipId = some id := hid
  have heq : t.id = id := hL.keyed id t hget
  unfold tip
  rw [hid', Option.bind_some, ← heq]
  exact htip

/-! ## Runs of `add` and `prune` -/

/-- A call on the chain. -/
inductive ChainOp where
  | add (a : Anchor) (check : StateCheck)
  | prune (floorHeight : ℤ)

def opStep (cfg : ChainConfig) (c : AnchorChain) : ChainOp → AnchorChain
  | .add a check => (c.add cfg check a).1
  | .prune floorHeight => c.prune cfg floorHeight

/-- How a chain gets its root: a genesis, or a floor adopted with the run of ancestors that
links to it, all of them genuine. -/
inductive Started (cfg : ChainConfig) : AnchorChain → Prop where
  | genesis {g : Anchor} {heads : Heads} {c : AnchorChain} :
      Genuine cfg.crypto g → AnchorChain.new.installGenesis cfg g heads = .ok c → Started cfg c
  | adopted {c₀ c : AnchorChain} {floor : Anchor} {floorHeads : Heads} {ancestry : List Anchor} :
      Fresh cfg c₀ → (∀ a ∈ floor :: linkedRun floor ancestry, Genuine cfg.crypto a) →
      c₀.adopt cfg floor floorHeads ancestry = .ok c → Started cfg c

/-- What every state of a run satisfies. -/
structure Settling (cfg : ChainConfig) (c : AnchorChain) : Prop where
  genuine : c.GenuineStore cfg.crypto
  anchored : ∃ t l s, Anchored c t l s

theorem Started.settling (h : Started cfg c) : Settling cfg c := by
  cases h with
  | @genesis g heads _ hg hinst =>
    have hi := installGenesis_ok hinst
    have hheld : c.Holds g := hi.holds_iff.mpr rfl
    exact ⟨⟨hi.linked.keyed, fun a ha => hi.holds_iff.mp ha ▸ hg⟩, g, g, g, hi.tip_eq, hheld, hheld,
      hi.lockedId_eq, hheld, hi.settledId_eq, Anc.refl g, Anc.refl g⟩
  | @adopted c₀ _ floor floorHeads ancestry hfresh hall hadopt =>
    obtain ⟨had, -⟩ := adopt_ok hfresh.anchors_eq hadopt
    have hheld : c.Holds floor := had.get_floor
    exact ⟨⟨fun id a ha => (had.mem_of_get ha).2, fun a ha => hall a (had.mem_of_get ha).1⟩,
      floor, floor, floor, had.tip_eq, hheld, hheld, had.lockedId_eq, hheld, had.settledId_eq,
      Anc.refl floor, Anc.refl floor⟩

/-- One call: the order is kept, and the settled anchor is the one before or descends from it
along links held after the call. -/
theorem Settling.step (hC : cfg.crypto.CollisionFree) (hk : cfg.finalityDepth = some k)
    (hm : cfg.settlementDepth = some m) (hkm : k ≤ m) (h : Settling cfg c) (op : ChainOp)
    (hs : c.settled = some s) :
    Settling cfg (opStep cfg c op) ∧ ∃ s', (opStep cfg c op).settled = some s' ∧
      (s' = s ∨ Anc (opStep cfg c op).parent s' s) := by
  obtain ⟨t, l, s₀, hanch⟩ := h.anchored
  have hsettled : ∀ {c : AnchorChain} {t l s : Anchor}, Anchored c t l s → c.settled = some s :=
    fun hx => hx.settled_eq'
  have hs₀ : s₀ = s := Option.some.inj ((hsettled hanch).symm.trans hs)
  subst hs₀
  cases op with
  | prune height =>
    have hp := hanch.prune h.genuine.linked hm height
    refine ⟨⟨?_, t, l, s₀, hp⟩, s₀, hsettled hp, Or.inl rfl⟩
    simp only [opStep]
    rcases prune_cases c cfg height with hsame | ⟨t', floor, -, -, -, -, hprune⟩
    · rw [hsame]
      exact h.genuine
    · rw [hprune]
      exact ⟨h.genuine.linked.prunedAt.keyed,
        fun a ha => h.genuine.genuine a (holds_prunedAt.mp ha).1⟩
  | add a check =>
    simp only [opStep]
    rcases add_cases c cfg check a with ⟨hsame, -⟩ | ⟨heads, hacc, hadd⟩
    · rw [hsame]
      exact ⟨h, s₀, hs, Or.inl rfl⟩
    · have hstore := h.genuine.store hC hacc
      obtain ⟨t', l', s', hanch', hanc⟩ := anchored_choose heads hstore.linked
        (fun b hb => hstore.id_ne hC hb) hk hm hkm (hanch.store hacc.fresh) holds_store_self
      rw [hadd]
      exact ⟨⟨hstore.sameStore sameStore_choose, t', l', s', hanch'⟩, s', hsettled hanch',
        Or.inr hanc⟩

/-- Held at some point of the run. -/
def EverHeld (cfg : ChainConfig) (c : AnchorChain) (ops : List ChainOp) (a : Anchor) : Prop :=
  ∃ before after, ops = before ++ after ∧ (run (opStep cfg) c before).Holds a

/-- `s'` is `s` or descends from it along links between anchors held at some point. -/
def Descends (cfg : ChainConfig) (c : AnchorChain) (ops : List ChainOp) : Anchor → Anchor → Prop :=
  Relation.ReflTransGen (fun a p => a.prev = some p.id ∧ EverHeld cfg c ops p)

theorem Settling.settled_eq (h : Settling cfg c) : ∃ t s, c.tip = some t ∧ c.settled = some s ∧
    Anc c.parent t s := by
  obtain ⟨t, l, s, hanch⟩ := h.anchored
  exact ⟨t, s, hanch.tip_eq, hanch.settled_eq', hanch.lock_anc.trans hanch.settled_anc⟩

theorem Descends.of_anc {ops before after : List ChainOp} (hops : ops = before ++ after)
    (hL : (run (opStep cfg) c before).Linked) {a b : Anchor}
    (h : Anc (run (opStep cfg) c before).parent a b) : Descends cfg c ops a b := by
  induction h with
  | refl a => exact Relation.ReflTransGen.refl
  | step hp _ ih =>
    exact Relation.ReflTransGen.head ⟨hL.prev_of_parent hp, before, after, hops,
      hL.holds_parent hp⟩ ih

theorem EverHeld.append {ops more : List ChainOp} (h : EverHeld cfg c ops a) :
    EverHeld cfg c (ops ++ more) a := by
  obtain ⟨before, after, rfl, hheld⟩ := h
  exact ⟨before, after ++ more, List.append_assoc _ _ _, hheld⟩

theorem Descends.append {ops more : List ChainOp} (h : Descends cfg c ops a b) :
    Descends cfg c (ops ++ more) a b := by
  induction h with
  | refl => exact Relation.ReflTransGen.refl
  | tail _ hx ih => exact ih.tail ⟨hx.1, hx.2.append⟩

/-- **Settlement is irreversible.** In every state of every run of `add` and `prune` calls the
settled anchor is the tip or an ancestor of it, and every later settled anchor is an earlier
one or descends from it, at the same height or above. -/
theorem settlement_irreversible (hC : cfg.crypto.CollisionFree)
    (hk : cfg.finalityDepth = some k) (hm : cfg.settlementDepth = some m) (hkm : k ≤ m)
    (hstart : Started cfg c) (ops more : List ChainOp) :
    ∃ t s s', (run (opStep cfg) c ops).settled = some s ∧
      (run (opStep cfg) c (ops ++ more)).settled = some s' ∧
      (run (opStep cfg) c (ops ++ more)).tip = some t ∧
      Anc (run (opStep cfg) c (ops ++ more)).parent t s' ∧
      s.height ≤ s'.height ∧ Descends cfg c (ops ++ more) s' s := by
  have hinv : ∀ l, Settling cfg (run (opStep cfg) c l) := fun l =>
    inv_run _ (fun c op hx => by
      obtain ⟨-, s, -, hs, -⟩ := hx.settled_eq
      exact (hx.step hC hk hm hkm op hs).1) hstart.settling l
  obtain ⟨-, s, -, hs, -⟩ := (hinv ops).settled_eq
  -- the settled anchor after `more`, one call at a time
  have hlater : ∃ s', (run (opStep cfg) c (ops ++ more)).settled = some s' ∧
      s.height ≤ s'.height ∧ Descends cfg c (ops ++ more) s' s := by
    induction more using List.reverseRecOn with
    | nil =>
      rw [List.append_nil]
      exact ⟨s, hs, le_rfl, Relation.ReflTransGen.refl⟩
    | append_singleton more op ih =>
      obtain ⟨s₁, hs₁, hheight, hdesc⟩ := ih
      obtain ⟨hnext, s₂, hs₂, hcase⟩ := (hinv (ops ++ more)).step hC hk hm hkm op hs₁
      have hrun : run (opStep cfg) c (ops ++ (more ++ [op]))
          = opStep cfg (run (opStep cfg) c (ops ++ more)) op := by
        rw [← List.append_assoc, run_append]
        rfl
      have hdesc' : Descends cfg c (ops ++ (more ++ [op])) s₁ s := by
        rw [← List.append_assoc]
        exact hdesc.append
      rw [hrun]
      rcases hcase with rfl | hanc
      · exact ⟨s₂, hs₂, hheight, hdesc'⟩
      · have hL := hnext.genuine.linked
        obtain ⟨-, s₃, -, hs₃, -⟩ := hnext.settled_eq
        have hheld : (opStep cfg (run (opStep cfg) c (ops ++ more)) op).Holds s₂ := by
          obtain ⟨t', l', s', hanch⟩ := hnext.anchored
          have : s' = s₂ := Option.some.inj (hanch.settled_eq'.symm.trans hs₂)
          exact this ▸ hanch.settled_held
        refine ⟨s₂, hs₂, le_trans hheight (hL.graded.height_le hheld hanc), ?_⟩
        refine Relation.ReflTransGen.trans ?_ hdesc'
        exact Descends.of_anc (List.append_nil _).symm (hrun ▸ hL) (hrun ▸ hanc)
  obtain ⟨s', hs', hheight, hdesc⟩ := hlater
  obtain ⟨t, s'', htip, hs'', hanc⟩ := (hinv (ops ++ more)).settled_eq
  rw [hs', Option.some.injEq] at hs''
  subst hs''
  exact ⟨t, s, s', hs, hs', htip, hanc, hheight, hdesc⟩

/-! ## Roots that are not genuine -/

/-- An assembled root is genuine. -/
theorem genuine_assembled (C : Crypto) (difficulty : ℕ) (producer : String) (delta heads : Heads) :
    Genuine C (assembled C difficulty none producer delta heads) := by
  have hprev : (assembled C difficulty none producer delta heads).prev = none := rfl
  refine ⟨rfl, fun b t h => ?_⟩
  rw [hprev] at h
  exact absurd h (by simp)

namespace Settled

/-- A configuration whose hash cannot collide. -/
def config : ChainConfig :=
  { openConfig with
    crypto := ⟨fun b => 0 :: b, fun _ _ _ => true⟩
    finalityDepth := some 1
    settlementDepth := some 2 }

def root : Anchor := assembled config.crypto 1 none genesisProducer ∅ ∅

def growth : List ChainOp :=
  [.add (assembled config.crypto 1 (some root) "p" ∅ ∅) (fun _ _ _ => true)]

end Settled

open Settled in
/-- The theorem at a genesis and a run that adds its child and prunes. -/
theorem settlement_irreversible_pruned :
    ∃ t s s', (run (opStep config) (rootedAt root ∅) growth).settled = some s ∧
      (run (opStep config) (rootedAt root ∅) (growth ++ [.prune 1])).settled = some s' ∧
      (run (opStep config) (rootedAt root ∅) (growth ++ [.prune 1])).tip = some t ∧
      Anc (run (opStep config) (rootedAt root ∅) (growth ++ [.prune 1])).parent t s' ∧
      s.height ≤ s'.height ∧
      Descends config (rootedAt root ∅) (growth ++ [.prune 1]) s' s := by
  have hC : config.crypto.CollisionFree :=
    ⟨fun _ _ h => (List.cons.inj h).2, fun b => List.cons_ne_nil 0 b⟩
  have hstart : Started config (rootedAt root ∅) :=
    Started.genesis (genuine_assembled _ _ _ _ _) (installGenesis_new rfl rfl rfl)
  exact settlement_irreversible (k := 1) (m := 2) hC rfl rfl (by decide) hstart growth [.prune 1]

namespace StrayFloor

def config : ChainConfig :=
  { openConfig with finalityDepth := some 2, settlementDepth := some 2 }

/-- A root and its child, which any node accepts where no genesis is installed. -/
def root : Anchor := assembled config.crypto 1 none "p" ∅ ∅
def stray : Anchor := assembled config.crypto 1 (some root) "p" ∅ ∅

/-- A floor at height zero that names the anchor at height one as its predecessor. -/
def floor : Anchor :=
  let body : AnchorBody :=
    { (assembled config.crypto 1 none "q" ∅ ∅).toAnchorBody with
      prev := some stray.id
      weight := 10 }
  { body with time := ⟨0, "", ""⟩, id := idOf config.crypto body ⟨0, "", ""⟩, sig := "" }

def child : Anchor := assembled config.crypto 1 (some floor) "q" ∅ ∅

def ops : List ChainOp := [root, stray, child].map (fun a => .add a (fun _ _ _ => true))

end StrayFloor

open StrayFloor in
/-- `adopt` takes any floor, also one whose link does not lead one height down. The settled
anchor then moves from the floor to an anchor below it. -/
theorem settled_reverts_below_stray_floor :
    AnchorChain.new.adopt config floor ∅ [] = .ok (adoptedAt floor ∅ []) ∧
      (adoptedAt floor ∅ []).settled.map (·.id) = some floor.id ∧
      (run (opStep config) (adoptedAt floor ∅ []) ops).settled.map (·.id) = some stray.id ∧
      (run (opStep config) (adoptedAt floor ∅ []) ops).descendsFrom stray (some floor.id)
        = false :=
  ⟨adopt_new rfl rfl, by decide +kernel⟩

end AnchorChain

end Gavl
