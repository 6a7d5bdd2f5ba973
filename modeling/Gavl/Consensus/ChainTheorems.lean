import Gavl.Consensus.AnchorTheorems
import Gavl.Consensus.Chain

/-!
# The stored tree and its heads

What `add` may do to a chain, said once (`add_cases`), and the tree it stores. In a `Linked`
store heights fall by one along the held links, so a walk by ids is the true ancestry. A chain
that only ever grew from nothing or from genesis (`Grown`) holds every ancestor of what it
holds, and `headsAt` is the fold of the deltas along the ancestry whether or not the anchor is
the cached tip.
-/

namespace Gavl

open ParentWalk

namespace AnchorChain

variable {c c' : AnchorChain} {cfg : ChainConfig} {check : StateCheck} {a b p : Anchor}
  {heads : Heads}

/-! ## Stored anchors -/

/-- `a` is stored under its id. -/
def Holds (c : AnchorChain) (a : Anchor) : Prop := c.get a.id = some a

theorem parent_eq_some :
    c.parent a = some p ↔ ∃ id, a.prev = some id ∧ id ≠ "" ∧ c.get id = some p := by
  unfold parent
  simp only [Option.bind_eq_some_iff, AnchorBody.link_eq_some, and_assoc]

theorem parent_of_prev_none (h : a.prev = none) : c.parent a = none := by
  unfold parent
  rw [AnchorBody.link_of_prev_none h]
  rfl

/-- The store is keyed by id and heights fall by one along its links. -/
structure Linked (c : AnchorChain) : Prop where
  keyed : ∀ id a, c.get id = some a → a.id = id
  height_eq : ∀ a p, c.Holds a → c.parent a = some p → p.height + 1 = a.height

namespace Linked

theorem holds_of_get (hL : c.Linked) {id : String} (h : c.get id = some a) : c.Holds a := by
  unfold Holds
  rw [hL.keyed id a h]
  exact h

theorem holds_parent (hL : c.Linked) (h : c.parent a = some p) : c.Holds p := by
  obtain ⟨id, -, -, hget⟩ := parent_eq_some.mp h
  exact hL.holds_of_get hget

/-- The link of a child is the id of the parent. -/
theorem prev_of_parent (hL : c.Linked) (h : c.parent a = some p) : a.prev = some p.id := by
  obtain ⟨id, hprev, -, hget⟩ := parent_eq_some.mp h
  rw [hprev, hL.keyed id p hget]

theorem graded (hL : c.Linked) : Graded c.parent (fun a : Anchor => a.height) c.Holds where
  closed := fun _ _ _ h => hL.holds_parent h
  height_eq := hL.height_eq

theorem holds_anc (hL : c.Linked) (ha : c.Holds a) (h : Anc c.parent a b) : c.Holds b :=
  hL.graded.mem_of_anc ha h

/-- Distinct stored anchors have distinct keys, so there are at most `size` of them. -/
theorem length_le_size (_ : c.Linked) (l : List Anchor) (hl : l.Nodup)
    (hh : ∀ b ∈ l, c.Holds b) : l.length ≤ c.anchors.size := by
  have hinj : (l.map (fun b : Anchor => b.id)).Nodup := by
    refine (List.nodup_map_iff_inj_on hl).mpr fun x hx y hy hxy => ?_
    have h1 : c.get x.id = some x := hh x hx
    have h2 : c.get y.id = some y := hh y hy
    rw [hxy, h2] at h1
    exact (Option.some.inj h1).symm
  have hsub : l.map (fun b : Anchor => b.id) ⊆ c.anchors.entries.map Prod.fst := by
    intro k hk
    obtain ⟨b, hb, rfl⟩ := List.mem_map.mp hk
    have hmem := (OrderedMap.get?_eq_some_iff c.anchors b.id b).mp (hh b hb)
    exact List.mem_map.mpr ⟨(b.id, b), hmem, rfl⟩
  have hle := (List.subperm_of_subset hinj hsub).length_le
  rw [List.length_map, List.length_map] at hle
  exact hle

/-- The fuel of `ancestry` is enough: it is the walk of `height + 1` anchors. -/
theorem ancestry_eq (hL : c.Linked) (ha : c.Holds a) :
    c.ancestry a = walk c.parent (a.height + 1) a :=
  hL.graded.walk_of_card_le hL.length_le_size ha

theorem mem_ancestry (hL : c.Linked) (ha : c.Holds a) :
    b ∈ c.ancestry a ↔ Anc c.parent a b := by
  rw [hL.ancestry_eq ha]
  exact hL.graded.mem_walk ha

theorem ancestry_cons (hL : c.Linked) (ha : c.Holds a) (hp : c.parent a = some p) :
    c.ancestry a = a :: c.ancestry p := by
  rw [hL.ancestry_eq ha, hL.ancestry_eq (hL.holds_parent hp)]
  exact hL.graded.walk_cons ha hp

/-- A bounded walk is what `ancestry` starts with. -/
theorem take_ancestry (hL : c.Linked) (ha : c.Holds a) (n : ℕ) :
    (c.ancestry a).take n = walk c.parent n a := by
  rcases le_total n (a.height + 1) with hn | hn
  · rw [hL.ancestry_eq ha, walk_take hn]
  · rw [hL.ancestry_eq ha, hL.graded.walk_eq ha hn]
    exact List.take_of_length_le (le_trans (length_walk_le _ a) hn)

/-- Two stores that agree on the links below `b` agree on its ancestry. -/
theorem ancestry_congr (hL : c.Linked) (hL' : c'.Linked) (hb : c.Holds b) (hb' : c'.Holds b)
    (h : ∀ x, Anc c.parent b x → c'.parent x = c.parent x) : c'.ancestry b = c.ancestry b := by
  rw [hL.ancestry_eq hb, hL'.ancestry_eq hb']
  exact walk_congr fun x hx => h x (anc_of_mem_walk hx)

/-- `descendsFrom` finds an id exactly on the ancestors. -/
theorem descendsFrom_iff (hL : c.Linked) (ha : c.Holds a) {id : String} (hid : id ≠ "") :
    c.descendsFrom a (some id) = true ↔ ∃ b, Anc c.parent a b ∧ b.id = id := by
  unfold descendsFrom
  have hf : (some id).filter (fun i => decide (i ≠ "")) = some id := by simp [hid]
  rw [hf]
  simp only [List.any_eq_true, decide_eq_true_eq, hL.mem_ancestry ha]

end Linked

theorem ancestry_root (hp : c.parent a = none) : c.ancestry a = [a] := walk_succ_none hp

@[simp] theorem descendsFrom_none : c.descendsFrom a none = true := rfl

/-! ## The anchor `k` deep -/

theorem anc_deep (k : ℕ) : ∀ a : Anchor, Anc c.parent a (c.deep k a) := by
  induction k with
  | zero => intro a; exact Anc.refl a
  | succ k ih =>
    intro a
    unfold deep
    cases hp : c.parent a with
    | none => exact Anc.refl a
    | some p => exact Anc.step hp (ih p)

/-- The deeper of two ancestors of one anchor is an ancestor of the other. -/
theorem anc_deep_of_le {k m : ℕ} (hkm : k ≤ m) :
    ∀ a : Anchor, Anc c.parent (c.deep k a) (c.deep m a) := by
  induction k generalizing m with
  | zero => intro a; exact anc_deep m a
  | succ k ih =>
    intro a
    obtain ⟨m, rfl⟩ : ∃ j, m = j + 1 := ⟨m - 1, by omega⟩
    unfold deep
    cases hp : c.parent a with
    | none => exact Anc.refl a
    | some p => exact ih (by omega) p

/-! ## Storing an anchor -/

theorem get_store (id : String) :
    (c.store a).get id = if a.id = id then some a else c.get id := by
  unfold store get
  exact OrderedMap.get?_set _ _ _ _

@[simp] theorem get_store_self : (c.store a).get a.id = some a := by
  rw [get_store, if_pos rfl]

theorem holds_store_self : (c.store a).Holds a := get_store_self

theorem get_store_of_some (hnew : c.get a.id = none) {id : String} (h : c.get id = some b) :
    (c.store a).get id = some b := by
  rw [get_store, if_neg, h]
  rintro rfl
  rw [hnew] at h
  exact absurd h (by simp)

theorem holds_store (hnew : c.get a.id = none) (hb : c.Holds b) : (c.store a).Holds b :=
  get_store_of_some hnew hb

theorem holds_store_cases (h : (c.store a).Holds b) : b = a ∨ c.Holds b := by
  unfold Holds at h
  rw [get_store] at h
  split_ifs at h with hid
  · exact Or.inl (Option.some.inj h).symm
  · exact Or.inr h

theorem parent_store :
    (c.store a).parent b = if b.link = some a.id then some a else c.parent b := by
  unfold parent
  cases hb : b.link with
  | none => simp
  | some id =>
    simp only [Option.bind_some, get_store, Option.some.injEq]
    split_ifs with h1 h2 h2
    · rfl
    · exact absurd h1.symm h2
    · exact absurd h2.symm h1
    · rfl

/-- Links that are held stay as they are. -/
theorem parent_store_of_some (hnew : c.get a.id = none) (h : c.parent b = some p) :
    (c.store a).parent b = some p := by
  obtain ⟨id, hprev, hid, hget⟩ := parent_eq_some.mp h
  exact parent_eq_some.mpr ⟨id, hprev, hid, get_store_of_some hnew hget⟩

theorem anc_store (hnew : c.get a.id = none) (h : Anc c.parent b p) :
    Anc (c.store a).parent b p :=
  h.mono fun _ _ => parent_store_of_some hnew

/-! ## Adding an anchor -/

/-- What `add` demands of an anchor before it decides the tip. -/
structure Accepts (c : AnchorChain) (cfg : ChainConfig) (check : StateCheck) (a : Anchor)
    (heads : Heads) : Prop where
  fresh : c.get a.id = none
  known : a.link ≠ none → c.parent a ≠ none
  root : a.prev = none → c.genesisId = none ∨ c.genesisId = some a.id
  verified : c.verify cfg a = .ok heads
  state : check (c.store a) a heads = true

/-- `add` changes nothing, or stores an accepted anchor and decides the tip. -/
theorem add_cases (c : AnchorChain) (cfg : ChainConfig) (check : StateCheck) (a : Anchor) :
    ((c.add cfg check a).1 = c ∧ ∀ heads, ¬ c.Accepts cfg check a heads) ∨
      ∃ heads, c.Accepts cfg check a heads ∧
        c.add cfg check a = (c.store a).choose cfg a heads := by
  by_cases hhas : c.anchors.has a.id = true
  · refine Or.inl ⟨by unfold add; rw [if_pos hhas], fun heads hacc => ?_⟩
    obtain ⟨v, hv⟩ := (OrderedMap.has_iff _ _).mp hhas
    have := hacc.fresh
    unfold get at this
    rw [this] at hv
    exact absurd hv (by simp)
  have hnew : c.get a.id = none := by
    rw [Bool.not_eq_true, OrderedMap.has_eq_false_iff] at hhas
    exact hhas
  by_cases hroot : a.prev = none ∧ c.genesisId ≠ none ∧ some a.id ≠ c.genesisId
  · refine Or.inl ⟨by unfold add; rw [if_neg hhas, if_pos hroot], fun heads hacc => ?_⟩
    rcases hacc.root hroot.1 with h | h
    · exact hroot.2.1 h
    · exact hroot.2.2 h.symm
  by_cases hknown : a.link ≠ none ∧ c.parent a = none
  · refine Or.inl ⟨by unfold add; rw [if_neg hhas, if_neg hroot, if_pos hknown],
      fun heads hacc => hacc.known hknown.1 hknown.2⟩
  cases hv : c.verify cfg a with
  | fail reason =>
    have hadd : c.add cfg check a = (c, .fail reason) := by
      unfold add
      rw [if_neg hhas, if_neg hroot, if_neg hknown, hv]
    exact Or.inl ⟨by rw [hadd], fun heads hacc => by simpa [hv] using hacc.verified⟩
  | thrown message =>
    have hadd : c.add cfg check a = (c, .thrown message) := by
      unfold add
      rw [if_neg hhas, if_neg hroot, if_neg hknown, hv]
    exact Or.inl ⟨by rw [hadd], fun heads hacc => by simpa [hv] using hacc.verified⟩
  | ok heads =>
    have hadd : c.add cfg check a =
        if !check (c.store a) a heads then
          ({ c.store a with anchors := (c.store a).anchors.delete a.id },
            .fail "appRoot ≠ folded state")
        else (c.store a).choose cfg a heads := by
      unfold add
      rw [if_neg hhas, if_neg hroot, if_neg hknown, hv]
    by_cases hstate : check (c.store a) a heads = true
    · refine Or.inr ⟨heads, ⟨hnew, fun h hp => hknown ⟨h, hp⟩, fun h => ?_, hv, hstate⟩, ?_⟩
      · by_contra hcon
        push Not at hcon
        exact hroot ⟨h, hcon.1, fun heq => hcon.2 heq.symm⟩
      · rw [hadd, hstate]
        rfl
    · refine Or.inl ⟨?_, fun heads' hacc => ?_⟩
      · rw [hadd, Bool.not_eq_true] at *
        rw [hstate]
        -- stored for the check and dropped again: the map is the one before
        have hdel : (c.anchors.set a.id a).delete a.id = c.anchors :=
          OrderedMap.delete_set_of_new hnew a
        simp only [Bool.not_false, if_true, store, hdel]
      · have heq : heads' = heads := by
          have := hacc.verified
          rw [hv] at this
          exact (AnchorResult.ok.inj this).symm
        exact hstate (heq ▸ hacc.state)

namespace Accepts

theorem spec (h : c.Accepts cfg check a heads) :
    Verified cfg.crypto a (c.parent a) (c.parentHeads a) (c.difficultyFor cfg (c.parent a))
      heads := verifyAnchor_ok h.verified

theorem height_eq (h : c.Accepts cfg check a heads) (hp : c.parent a = some p) :
    p.height + 1 = a.height := by
  have hs := h.spec
  rw [hp] at hs
  exact hs.height_of_parent

/-- An accepted anchor does not link to itself. -/
theorem link_ne_self (h : c.Accepts cfg check a heads) : a.link ≠ some a.id := by
  intro hl
  refine h.known (by rw [hl]; simp) ?_
  unfold parent
  rw [hl]
  exact h.fresh

/-- Storing it does not change its own parent. -/
theorem parent_store_self (h : c.Accepts cfg check a heads) :
    (c.store a).parent a = c.parent a := by
  rw [parent_store, if_neg h.link_ne_self]

theorem prev_none (h : c.Accepts cfg check a heads) (hp : c.parent a = none) : a.prev = none :=
  h.spec.prev_eq_none hp

/-- Storing an accepted anchor keeps the store linked, if its height fits where links that
dangled name it. -/
theorem linked_store (h : c.Accepts cfg check a heads) (hL : c.Linked)
    (hd : ∀ b, c.Holds b → b.link = some a.id → a.height + 1 = b.height) :
    (c.store a).Linked := by
  constructor
  · intro id b hget
    rw [get_store] at hget
    split_ifs at hget with hid
    · rw [← Option.some.inj hget]
      exact hid
    · exact hL.keyed id b hget
  · intro b p hb hp
    rw [parent_store] at hp
    rcases holds_store_cases hb with rfl | hb
    · rw [if_neg h.link_ne_self] at hp
      exact h.height_eq hp
    · split_ifs at hp with hlink
      · rw [← Option.some.inj hp]
        exact hd b hb hlink
      · exact hL.height_eq b p hb hp

end Accepts

/-! ## Deciding the tip -/

/-- Whether `choose` moves the tip to `a`. -/
def takesTip (c : AnchorChain) (a : Anchor) : Bool :=
  if c.descendsFrom a c.lockedId then c.wouldBeTip a
  else (c.forkVerdict a).switchTo.isSome && ((c.forkVerdict a).final || c.wouldBeTip a)
    && c.descendsFrom a c.settledId

/-- The lock from which the tip moves to `a`: the one held, or the one a fork re-anchors. -/
def relocked (c : AnchorChain) (a : Anchor) : AnchorChain :=
  if c.descendsFrom a c.lockedId then c else { c with lockedId := (c.forkVerdict a).switchTo }

theorem choose_of_takesTip (h : c.takesTip a = true) :
    c.choose cfg a heads = ((c.relocked a).setTip cfg a heads, .ok) := by
  unfold takesTip at h
  unfold choose relocked
  by_cases hdesc : c.descendsFrom a c.lockedId = true
  · rw [if_pos hdesc] at h
    rw [if_pos hdesc, if_pos hdesc, if_pos h]
  · rw [if_neg hdesc] at h
    simp only [Bool.and_eq_true, Option.isSome_iff_exists] at h
    obtain ⟨⟨⟨s, hs⟩, hf⟩, hset⟩ := h
    rw [if_neg hdesc, if_neg hdesc]
    simp only [hs]
    rw [if_pos hf, hset]
    rfl

/-- Where the tip stays, at most the conflict report changes. -/
theorem choose_of_not_takesTip (cfg : ChainConfig) (heads : Heads) (h : c.takesTip a = false) :
    ∃ conflict, (c.choose cfg a heads).1 = { c with settledConflict := conflict } := by
  unfold takesTip at h
  unfold choose
  by_cases hdesc : c.descendsFrom a c.lockedId = true
  · rw [if_pos hdesc] at h
    rw [if_pos hdesc, h]
    exact ⟨c.settledConflict, rfl⟩
  · rw [if_neg hdesc] at h
    rw [if_neg hdesc]
    cases hs : (c.forkVerdict a).switchTo with
    | none =>
      simp only
      split_ifs
      · exact ⟨c.settledConflict, rfl⟩
      · exact ⟨c.settledConflict, rfl⟩
    | some s =>
      rw [hs, Option.isSome_some, Bool.true_and, Bool.and_eq_false_iff] at h
      simp only
      rcases h with h | h
      · rw [h]
        exact ⟨c.settledConflict, rfl⟩
      · by_cases hf : ((c.forkVerdict a).final || c.wouldBeTip a) = true
        · rw [if_pos hf, h]
          exact ⟨c.conflictWith a, rfl⟩
        · rw [if_neg hf]
          exact ⟨c.settledConflict, rfl⟩

/-- The parts of a chain that deciding the tip never touches. -/
structure SameStore (c c' : AnchorChain) : Prop where
  anchors : c'.anchors = c.anchors
  floorId : c'.floorId = c.floorId
  floorHeads : c'.floorHeads = c.floorHeads
  genesisId : c'.genesisId = c.genesisId

theorem sameStore_setTip : SameStore c (c.setTip cfg a heads) := ⟨rfl, rfl, rfl, rfl⟩

theorem sameStore_relocked : SameStore c (c.relocked a) := by
  unfold relocked
  split_ifs
  · exact ⟨rfl, rfl, rfl, rfl⟩
  · exact ⟨rfl, rfl, rfl, rfl⟩

theorem sameStore_choose : SameStore c (c.choose cfg a heads).1 := by
  cases h : c.takesTip a with
  | true =>
    rw [choose_of_takesTip h]
    have h1 := sameStore_relocked (c := c) (a := a)
    exact ⟨h1.anchors, h1.floorId, h1.floorHeads, h1.genesisId⟩
  | false =>
    obtain ⟨conflict, hc⟩ := choose_of_not_takesTip cfg heads h
    rw [hc]
    exact ⟨rfl, rfl, rfl, rfl⟩

namespace SameStore

theorem get (h : SameStore c c') : c'.get = c.get := by
  funext id
  unfold AnchorChain.get
  rw [h.anchors]

theorem parent (h : SameStore c c') : c'.parent = c.parent := by
  funext b
  unfold AnchorChain.parent
  rw [h.get]

theorem ancestry (h : SameStore c c') : c'.ancestry = c.ancestry := by
  funext b
  unfold AnchorChain.ancestry
  rw [h.parent, h.anchors]

theorem holds (h : SameStore c c') : c'.Holds b ↔ c.Holds b := by
  unfold Holds
  rw [h.get]

theorem deep (h : SameStore c c') (k : ℕ) : ∀ a, c'.deep k a = c.deep k a := by
  induction k with
  | zero => intro a; rfl
  | succ k ih =>
    intro a
    unfold AnchorChain.deep
    rw [h.parent]
    cases c.parent a with
    | none => rfl
    | some p => exact ih p

theorem linked (h : SameStore c c') (hL : c.Linked) : c'.Linked := by
  constructor
  · rw [h.get]
    exact hL.keyed
  · intro b p hb hp
    rw [h.parent] at hp
    exact hL.height_eq b p (h.holds.mp hb) hp

end SameStore

theorem tipId_choose :
    (c.choose cfg a heads).1.tipId = if c.takesTip a then some a.id else c.tipId := by
  cases h : c.takesTip a with
  | true =>
    rw [choose_of_takesTip h]
    rfl
  | false =>
    obtain ⟨conflict, hc⟩ := choose_of_not_takesTip cfg heads h
    rw [hc]
    rfl

/-- Without a settlement depth nothing but a root is ever settled. -/
theorem settledId_choose (hset : cfg.settlementDepth = none) :
    (c.choose cfg a heads).1.settledId = c.settledId := by
  cases h : c.takesTip a with
  | true =>
    rw [choose_of_takesTip h]
    unfold setTip updateLock relocked
    rw [hset]
    split_ifs
    · rfl
    · rfl
  | false =>
    obtain ⟨conflict, hc⟩ := choose_of_not_takesTip cfg heads h
    rw [hc]

/-- The tip after `choose`, with the heads cached for it. -/
theorem tip_choose (c : AnchorChain) (cfg : ChainConfig) (a : Anchor) (heads : Heads) :
    ((c.choose cfg a heads).1.tipId = some a.id ∧ (c.choose cfg a heads).1.tipHeads = heads) ∨
      ((c.choose cfg a heads).1.tipId = c.tipId ∧
        (c.choose cfg a heads).1.tipHeads = c.tipHeads) := by
  cases h : c.takesTip a with
  | true =>
    rw [choose_of_takesTip h]
    exact Or.inl ⟨rfl, rfl⟩
  | false =>
    obtain ⟨conflict, hc⟩ := choose_of_not_takesTip cfg heads h
    rw [hc]
    exact Or.inr ⟨rfl, rfl⟩

/-! ## Roots -/

/-- A chain that holds its genesis and nothing else. -/
structure Installed (c : AnchorChain) (g : Anchor) (heads : Heads) : Prop where
  get_eq : ∀ id, c.get id = if g.id = id then some g else none
  height_eq : g.height = 0
  prev_eq : g.prev = none
  tipId_eq : c.tipId = some g.id
  tipHeads_eq : c.tipHeads = heads
  lockedId_eq : c.lockedId = some g.id
  settledId_eq : c.settledId = some g.id
  genesisId_eq : c.genesisId = some g.id
  floorId_eq : c.floorId = none

theorem installGenesis_ok {g : Anchor}
    (h : AnchorChain.new.installGenesis cfg g heads = .ok c) : c.Installed g heads := by
  unfold installGenesis at h
  split_ifs at h with hempty hroot hstate
  rw [Except.ok.injEq] at h
  simp only [not_or, not_not] at hroot
  subst h
  exact ⟨fun id => OrderedMap.get?_set _ _ _ _, hroot.1, hroot.2, rfl, rfl, rfl, rfl, rfl, rfl⟩

/-- The chain an installed genesis starts. -/
def rootedAt (g : Anchor) (heads : Heads) : AnchorChain :=
  { new with
    anchors := new.anchors.set g.id g
    tipId := some g.id
    tipHeads := heads
    lockedId := some g.id
    settledId := some g.id
    genesisId := some g.id }

theorem installGenesis_new {g : Anchor} (hheight : g.height = 0) (hprev : g.prev = none)
    (hroot : rootOfHeads cfg.crypto heads = g.stateRoot) :
    new.installGenesis cfg g heads = .ok (rootedAt g heads) := by
  unfold installGenesis
  rw [if_neg (by simp [new, OrderedMap.size]), if_neg (by simp [hheight, hprev]),
    if_neg (not_not.mpr hroot)]
  rfl

namespace Installed

variable {g : Anchor}

theorem holds_iff (h : c.Installed g heads) : c.Holds b ↔ b = g := by
  unfold Holds
  rw [h.get_eq]
  constructor
  · intro hb
    split_ifs at hb
    exact (Option.some.inj hb).symm
  · rintro rfl
    rw [if_pos rfl]

theorem parent_eq (h : c.Installed g heads) : c.parent g = none := parent_of_prev_none h.prev_eq

theorem tip_eq (h : c.Installed g heads) : c.tip = some g := by
  unfold tip
  rw [h.tipId_eq, Option.bind_some, h.get_eq, if_pos rfl]

theorem linked (h : c.Installed g heads) : c.Linked := by
  refine ⟨fun id b hb => ?_, fun b p hb hp => ?_⟩
  · rw [h.get_eq] at hb
    split_ifs at hb with hid
    rw [← Option.some.inj hb]
    exact hid
  · rw [h.holds_iff.mp hb, h.parent_eq] at hp
    exact absurd hp (by simp)

end Installed

/-- A chain that holds nothing, or nothing but an installed genesis. -/
inductive Fresh (cfg : ChainConfig) : AnchorChain → Prop where
  | new : Fresh cfg AnchorChain.new
  | genesis {g : Anchor} {heads : Heads} {c : AnchorChain} :
      AnchorChain.new.installGenesis cfg g heads = .ok c → Fresh cfg c

theorem Fresh.anchors_eq (h : Fresh cfg c) (htip : c.tipId = none) : c.anchors = ∅ := by
  cases h with
  | new => rfl
  | genesis hg => exact absurd htip (by rw [(installGenesis_ok hg).tipId_eq]; simp)

/-- A chain bootstrapped at a floor, with the run of ancestors that links to it. -/
structure Adopted (C : Crypto) (c : AnchorChain) (floor : Anchor) (floorHeads : Heads)
    (linked : List Anchor) : Prop where
  anchors_eq : c.anchors = (linked.foldl (fun (m : OrderedMap String Anchor) (a : Anchor) =>
    m.set a.id a) ∅).set floor.id floor
  tipId_eq : c.tipId = some floor.id
  tipHeads_eq : c.tipHeads = floorHeads
  lockedId_eq : c.lockedId = some floor.id
  settledId_eq : c.settledId = some floor.id
  floorId_eq : c.floorId = some floor.id
  floorHeads_eq : c.floorHeads = floorHeads
  root_eq : rootOfHeads C floorHeads = floor.stateRoot

/-- `adopt` on a chain that holds nothing unless it has a tip. -/
theorem adopt_ok {floor : Anchor} {floorHeads : Heads} {ancestry : List Anchor}
    (hempty : c.tipId = none → c.anchors = ∅)
    (h : c.adopt cfg floor floorHeads ancestry = .ok c') :
    Adopted cfg.crypto c' floor floorHeads (linkedRun floor ancestry) ∧
      floorObjection cfg floor (linkedRun floor ancestry) = none := by
  unfold adopt at h
  simp only at h
  split_ifs at h with htip hroot
  cases hobj : floorObjection cfg floor (linkedRun floor ancestry) with
  | some reason =>
    rw [hobj] at h
    exact absurd h (by simp)
  | none =>
    rw [hobj] at h
    simp only [Except.ok.injEq] at h
    have hbase : c.adoptBase = ∅ := by
      unfold adoptBase
      split_ifs with hgenesis
      · rfl
      · rw [not_and, Bool.not_eq_false] at htip
        by_contra hne
        exact hgenesis (htip fun hnone => hne (hempty hnone))
    rw [hbase] at h
    subst h
    exact ⟨⟨rfl, rfl, rfl, rfl, rfl, rfl, rfl, not_not.mp hroot⟩, rfl⟩

/-- The chain a floor with its linked run starts. -/
def adoptedAt (floor : Anchor) (floorHeads : Heads) (linked : List Anchor) : AnchorChain :=
  { new with
    anchors := (linked.foldl (fun (m : OrderedMap String Anchor) (a : Anchor) =>
      m.set a.id a) ∅).set floor.id floor
    floorId := some floor.id
    floorHeads := floorHeads
    tipId := some floor.id
    tipHeads := floorHeads
    lockedId := some floor.id
    settledId := some floor.id }

theorem adopt_new {floor : Anchor} {floorHeads : Heads} {ancestry : List Anchor}
    (hroot : rootOfHeads cfg.crypto floorHeads = floor.stateRoot)
    (hobj : floorObjection cfg floor (linkedRun floor ancestry) = none) :
    new.adopt cfg floor floorHeads ancestry
      = .ok (adoptedAt floor floorHeads (linkedRun floor ancestry)) := by
  unfold adopt
  rw [if_neg (by simp [new]), if_neg (not_not.mpr hroot)]
  simp only [hobj]
  rfl

/-- Setting anchors under their ids one after another holds only these. -/
theorem get?_foldl_set {m : OrderedMap String Anchor} {linked : List Anchor} {id : String}
    (h : (linked.foldl (fun m a => m.set a.id a) m).get? id = some a) :
    (a ∈ linked ∧ a.id = id) ∨ m.get? id = some a := by
  induction linked generalizing m with
  | nil => exact Or.inr h
  | cons b linked ih =>
    rw [List.foldl_cons] at h
    rcases ih h with ⟨hmem, hid⟩ | hget
    · exact Or.inl ⟨List.mem_cons_of_mem _ hmem, hid⟩
    · rw [OrderedMap.get?_set] at hget
      split_ifs at hget with hid
      · rw [← Option.some.inj hget]
        exact Or.inl ⟨List.mem_cons_self, hid⟩
      · exact Or.inr hget

namespace Adopted

variable {C : Crypto} {floor : Anchor} {floorHeads : Heads} {linked : List Anchor}

theorem get_floor (h : Adopted C c floor floorHeads linked) :
    c.get floor.id = some floor := by
  unfold get
  rw [h.anchors_eq]
  exact OrderedMap.get?_set_self _ _ _

theorem tip_eq (h : Adopted C c floor floorHeads linked) : c.tip = some floor := by
  unfold tip
  rw [h.tipId_eq]
  exact h.get_floor

/-- An adopted chain holds the floor and its run, each under its id. -/
theorem mem_of_get (h : Adopted C c floor floorHeads linked) {id : String}
    (hget : c.get id = some a) : a ∈ floor :: linked ∧ a.id = id := by
  unfold get at hget
  rw [h.anchors_eq, OrderedMap.get?_set] at hget
  split_ifs at hget with hid
  · rw [← Option.some.inj hget]
    exact ⟨List.mem_cons_self, hid⟩
  · rcases get?_foldl_set hget with ⟨hmem, hid'⟩ | hnone
    · exact ⟨List.mem_cons_of_mem _ hmem, hid'⟩
    · exact absurd hnone (by simp)

end Adopted

/-! ## Pruning -/

/-- The chain without the anchors below `floorHeight`, `floor` its new floor. -/
def prunedAt (c : AnchorChain) (floorHeight : ℤ) (floor : Anchor) : AnchorChain :=
  { c with
    anchors := c.anchors.filter (fun _ a => decide (floorHeight ≤ (a.height : ℤ)))
    floorId := some floor.id
    floorHeads := c.headsAt floor.id }

theorem clampTo_le (c : AnchorChain) (id : Option String) (h : ℤ) : c.clampTo id h ≤ h := by
  unfold clampTo
  split
  · exact le_rfl
  · split_ifs with hlt
    · exact hlt.le
    · exact le_rfl

theorem clampTo_le_height (ha : c.Holds a) (h : ℤ) : c.clampTo (some a.id) h ≤ a.height := by
  unfold Holds at ha
  unfold clampTo
  simp only [Option.bind_some, ha]
  split_ifs with hlt
  · exact le_rfl
  · exact not_lt.mp hlt

/-- The height `prune` works with: the one asked for, no higher than what is locked or
settled. -/
def pruneHeight (c : AnchorChain) (cfg : ChainConfig) (h : ℤ) : ℤ :=
  if cfg.settlementDepth.isSome then c.clampTo c.settledId (c.clampTo c.lockedId h)
  else c.clampTo c.lockedId h

/-- `prune` does nothing, or drops everything below an anchor on the tip's branch. -/
theorem prune_cases (c : AnchorChain) (cfg : ChainConfig) (h : ℤ) :
    c.prune cfg h = c ∨
      ∃ t floor, c.tip = some t ∧ floor ∈ c.ancestry t ∧
        (floor.height : ℤ) = c.pruneHeight cfg h ∧
        (∀ f, c.floorId.bind c.get = some f → (f.height : ℤ) < c.pruneHeight cfg h) ∧
        c.prune cfg h = c.prunedAt (c.pruneHeight cfg h) floor := by
  cases htip : c.tip with
  | none =>
    refine Or.inl ?_
    unfold prune
    rw [htip]
  | some t =>
    have hheight : (if cfg.settlementDepth.isSome then c.clampTo c.settledId (c.clampTo c.lockedId h)
        else c.clampTo c.lockedId h) = c.pruneHeight cfg h := rfl
    unfold prune
    rw [htip]
    simp only
    rw [hheight]
    split_ifs with h1 h2
    · exact Or.inl rfl
    · exact Or.inl rfl
    · cases hfind : (c.ancestry t).find?
          (fun a => decide ((a.height : ℤ) ≤ c.pruneHeight cfg h)) with
      | none => exact Or.inl rfl
      | some floor =>
        simp only
        split_ifs with hne
        · exact Or.inl rfl
        · refine Or.inr ⟨t, floor, rfl, List.mem_of_find?_eq_some hfind, not_not.mp hne,
            fun f hf => ?_, rfl⟩
          rw [hf] at h2
          exact not_le.mp (by simpa using h2)

theorem get_prunedAt {h : ℤ} {floor : Anchor} (id : String) :
    (c.prunedAt h floor).get id = (c.get id).filter (fun a => decide (h ≤ (a.height : ℤ))) :=
  OrderedMap.get?_filter _ _ _

theorem holds_prunedAt {h : ℤ} {floor : Anchor} :
    (c.prunedAt h floor).Holds b ↔ c.Holds b ∧ h ≤ (b.height : ℤ) := by
  unfold Holds
  rw [get_prunedAt, Option.filter_eq_some_iff, decide_eq_true_eq]

/-- A held link up to an anchor that stays is kept. -/
theorem parent_prunedAt {h : ℤ} {floor : Anchor} :
    (c.prunedAt h floor).parent b = some p ↔ c.parent b = some p ∧ h ≤ (p.height : ℤ) := by
  rw [parent_eq_some, parent_eq_some]
  simp only [get_prunedAt, Option.filter_eq_some_iff, decide_eq_true_eq]
  constructor
  · rintro ⟨id, h1, h2, h3, h4⟩
    exact ⟨⟨id, h1, h2, h3⟩, h4⟩
  · rintro ⟨⟨id, h1, h2, h3⟩, h4⟩
    exact ⟨id, h1, h2, h3, h4⟩

theorem Linked.prunedAt {h : ℤ} {floor : Anchor} (hL : c.Linked) : (c.prunedAt h floor).Linked where
  keyed := fun id a hget => by
    rw [get_prunedAt, Option.filter_eq_some_iff] at hget
    exact hL.keyed id a hget.1
  height_eq := fun a p ha hp =>
    hL.height_eq a p (holds_prunedAt.mp ha).1 (parent_prunedAt.mp hp).1

/-- Above the height kept, ancestors stay ancestors. -/
theorem Linked.anc_prunedAt {h : ℤ} {floor : Anchor} (hL : c.Linked) (ha : c.Holds a)
    (hab : Anc c.parent a b) (hb : h ≤ (b.height : ℤ)) : Anc (c.prunedAt h floor).parent a b := by
  have hn : h.toNat ≤ b.height := by omega
  refine hL.graded.anc_restrict (h := h.toNat) (fun x p _ hp hle => ?_) ha hab hn
  exact parent_prunedAt.mpr ⟨hp, by omega⟩

/-! ## Heads along a branch -/

/-- The heads rebuilt by walking down from `a`: from the floor's if the walk ends there, from
nothing otherwise. -/
def rebuiltHeads (c : AnchorChain) (a : Anchor) : Heads :=
  match c.chainTo a with
  | [] => ∅
  | bottom :: above =>
    if c.floorId = some bottom.id then
      above.foldl (fun heads b => applyHeadsDelta heads b.headsDelta) c.floorHeads
    else (bottom :: above).foldl (fun heads b => applyHeadsDelta heads b.headsDelta) ∅

theorem rebuiltHeads_root (hp : c.parent a = none) :
    c.rebuiltHeads a =
      if c.floorId = some a.id then c.floorHeads else applyHeadsDelta ∅ a.headsDelta := by
  unfold rebuiltHeads chainTo
  rw [ancestry_root hp]
  rfl

theorem rebuiltHeads_cons (hL : c.Linked) (ha : c.Holds a) (hp : c.parent a = some p) :
    c.rebuiltHeads a = applyHeadsDelta (c.rebuiltHeads p) a.headsDelta := by
  unfold rebuiltHeads chainTo
  rw [hL.ancestry_cons ha hp, List.reverse_cons]
  cases hl : (c.ancestry p).reverse with
  | nil =>
    have : c.ancestry p ≠ [] := by
      unfold ancestry
      rw [walk_succ]
      simp
    exact absurd (List.reverse_eq_nil_iff.mp hl) this
  | cons bottom above =>
    simp only [List.cons_append]
    split_ifs
    · rw [List.foldl_append, List.foldl_cons, List.foldl_nil]
    · rw [← List.cons_append, List.foldl_append, List.foldl_cons, List.foldl_nil]

/-- What is materialized agrees with what would be rebuilt. -/
structure HeadsCached (c : AnchorChain) : Prop where
  tip_heads : ∀ t, c.tip = some t → c.tipHeads = c.rebuiltHeads t
  floor_root : ∀ f, c.Holds f → c.floorId = some f.id → c.parent f = none

/-- Each of the three ways `headsAt` answers. -/
theorem headsAt_eq_of {h : Heads} (ha : c.Holds a) (htip : c.tipId = some a.id → c.tipHeads = h)
    (hfloor : c.floorId = some a.id → c.floorHeads = h) (hreb : c.rebuiltHeads a = h) :
    c.headsAt a.id = h := by
  unfold headsAt
  split_ifs with h1 h2
  · exact htip h1.symm
  · exact hfloor h2.symm
  · unfold Holds at ha
    rw [ha]
    exact hreb

/-- `headsAt` does not depend on what is cached. -/
theorem HeadsCached.headsAt_eq (hH : c.HeadsCached) (ha : c.Holds a) :
    c.headsAt a.id = c.rebuiltHeads a := by
  refine headsAt_eq_of ha (fun htip => hH.tip_heads a ?_) (fun hfloor => ?_) rfl
  · unfold tip
    rw [htip]
    exact ha
  · rw [rebuiltHeads_root (hH.floor_root a ha hfloor), if_pos hfloor]

/-- Heads rebuilt in two stores agree where the ancestry and the floor do. -/
theorem rebuiltHeads_congr (hanc : c'.ancestry b = c.ancestry b) (hid : c'.floorId = c.floorId)
    (hheads : c'.floorHeads = c.floorHeads) : c'.rebuiltHeads b = c.rebuiltHeads b := by
  unfold rebuiltHeads chainTo
  rw [hanc, hid, hheads]

/-- The difficulty above an anchor is read off its ancestry. -/
theorem difficultyFor_congr (hL : c.Linked) (hL' : c'.Linked) (hb : c.Holds b)
    (hb' : c'.Holds b) (hanc : c'.ancestry b = c.ancestry b) :
    c'.difficultyFor cfg (some b) = c.difficultyFor cfg (some b) := by
  unfold difficultyFor
  cases cfg.schedule with
  | none => rfl
  | some sched =>
    simp only [nextDifficulty]
    rw [← hL.take_ancestry hb, ← hL'.take_ancestry hb', hanc]

/-- A child's verdict is read off its parent's heads and difficulty. -/
theorem verify_congr {x : Anchor} (hp : c.parent x = some p) (hp' : c'.parent x = some p)
    (hheads : c'.headsAt p.id = c.headsAt p.id)
    (hdiff : c'.difficultyFor cfg (some p) = c.difficultyFor cfg (some p)) :
    c'.verify cfg x = c.verify cfg x := by
  unfold verify parentHeads
  rw [hp, hp', hdiff]
  simp only [hheads]

/-! ## Growing by one anchor -/

/-- How a chain changes when an anchor is stored that no held one links to: everything held
before keeps its link, its ancestry and the heads below it. -/
structure Extended (c : AnchorChain) (a : Anchor) (heads : Heads) (c' : AnchorChain) : Prop where
  linked : c'.Linked
  holds_iff : ∀ b, c'.Holds b ↔ b = a ∨ c.Holds b
  parent_eq : ∀ b, b = a ∨ c.Holds b → c'.parent b = c.parent b
  ancestry_eq : ∀ b, c.Holds b → c'.ancestry b = c.ancestry b
  rebuilt_eq : ∀ b, c.Holds b → c'.rebuiltHeads b = c.rebuiltHeads b
  floorId_eq : c'.floorId = c.floorId
  floorHeads_eq : c'.floorHeads = c.floorHeads
  tip_cases : (c'.tipId = some a.id ∧ c'.tipHeads = heads) ∨
    (c'.tipId = c.tipId ∧ c'.tipHeads = c.tipHeads)

theorem Accepts.extended (hacc : c.Accepts cfg check a heads) (hL : c.Linked)
    (hun : ∀ b, c.Holds b → b.link ≠ some a.id) :
    Extended c a heads ((c.store a).choose cfg a heads).1 := by
  have hs : SameStore (c.store a) ((c.store a).choose cfg a heads).1 := sameStore_choose
  have hstore : (c.store a).Linked :=
    hacc.linked_store hL fun b hb hl => absurd hl (hun b hb)
  have hparent : ∀ b, b = a ∨ c.Holds b → (c.store a).parent b = c.parent b := by
    rintro b (rfl | hb)
    · exact hacc.parent_store_self
    · rw [parent_store, if_neg (hun b hb)]
  have hanc : ∀ b, c.Holds b → (c.store a).ancestry b = c.ancestry b := fun b hb =>
    hL.ancestry_congr hstore hb (holds_store hacc.fresh hb)
      fun x hx => hparent x (Or.inr (hL.holds_anc hb hx))
  refine ⟨hs.linked hstore, fun b => ?_, fun b hb => ?_, fun b hb => ?_, fun b hb => ?_,
    hs.floorId, hs.floorHeads, ?_⟩
  · rw [hs.holds]
    refine ⟨holds_store_cases, ?_⟩
    rintro (rfl | hb)
    · exact holds_store_self
    · exact holds_store hacc.fresh hb
  · rw [hs.parent]
    exact hparent b hb
  · rw [hs.ancestry]
    exact hanc b hb
  · rw [rebuiltHeads_congr (by rw [hs.ancestry]) hs.floorId hs.floorHeads]
    exact rebuiltHeads_congr (hanc b hb) rfl rfl
  · exact tip_choose (c.store a) cfg a heads

namespace Extended

theorem holds_new (h : Extended c a heads c') : c'.Holds a := (h.holds_iff a).mpr (Or.inl rfl)

theorem holds_old (h : Extended c a heads c') (hb : c.Holds b) : c'.Holds b :=
  (h.holds_iff b).mpr (Or.inr hb)

theorem anc_old (h : Extended c a heads c') (hL : c.Linked) (hb : c.Holds b)
    (hp : Anc c.parent b p) : Anc c'.parent b p := by
  induction hp with
  | refl b => exact Anc.refl b
  | step hq _ ih =>
    exact Anc.step ((h.parent_eq _ (Or.inr hb)).trans hq) (ih (hL.holds_parent hq))

/-- The tip after, with what is cached for it. -/
theorem tip_eq (h : Extended c a heads c') (hL : c.Linked)
    (hheld : ∀ id, c.tipId = some id → ∃ t, c.get id = some t) {t : Anchor}
    (ht : c'.tip = some t) :
    (t = a ∧ c'.tipHeads = heads) ∨ (c.tip = some t ∧ c'.tipHeads = c.tipHeads) := by
  unfold tip at ht
  obtain ⟨id, hid, hget⟩ := Option.bind_eq_some_iff.mp ht
  rcases h.tip_cases with ⟨htip, hheads⟩ | ⟨htip, hheads⟩
  · rw [htip, Option.some.injEq] at hid
    have hnew := h.holds_new
    unfold Holds at hnew
    rw [hid, hget] at hnew
    exact Or.inl ⟨Option.some.inj hnew, hheads⟩
  · refine Or.inr ⟨?_, hheads⟩
    rw [htip] at hid
    obtain ⟨t', ht'⟩ := hheld id hid
    have hold := h.holds_old (hL.holds_of_get ht')
    unfold Holds at hold
    rw [hL.keyed id t' ht', hget, Option.some.injEq] at hold
    unfold tip
    rw [hid, Option.bind_some, ht', hold]

end Extended

end AnchorChain

end Gavl
