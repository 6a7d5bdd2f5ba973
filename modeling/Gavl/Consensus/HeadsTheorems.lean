import Gavl.Consensus.ChainTheorems
import Gavl.Lib.Runs

/-!
# Certified heads along a chain

The heads an anchor certifies are its parent's with its delta on top. `verifyAnchor` compares
the outcome with the committed root and with nothing else: no check relates a delta to the
heads it is applied onto. So certified heads advance along every link of a chain exactly as
long as each delta that was accepted did.
-/

namespace Gavl

/-! ## Delivery orders -/

/-- Every anchor of the order comes after its parent, where `known` came before all of it. -/
def ParentFirst : List Anchor → List Anchor → Prop
  | _, [] => True
  | known, a :: rest => (∃ p ∈ known, a.link = some p.id) ∧ ParentFirst (known ++ [a]) rest

instance decidableParentFirst : (known order : List Anchor) → Decidable (ParentFirst known order)
  | _, [] => isTrue trivial
  | known, a :: rest =>
    @instDecidableAnd _ _ (inferInstanceAs (Decidable (∃ p ∈ known, a.link = some p.id)))
      (decidableParentFirst (known ++ [a]) rest)

/-! ## Advancing deltas -/

/-- `next` has every writer of `prev`, no lower, and the same head where no higher. -/
def HeadsLe (prev next : Heads) : Prop :=
  ∀ w h, prev.get? w = some h → ∃ h', next.get? w = some h' ∧ h.seq ≤ h'.seq ∧
    (h'.seq = h.seq → h'.id = h.id)

/-- No entry of `delta` lowers a head of `prev` or replaces it at the same height. -/
def Advances (prev delta : Heads) : Prop :=
  ∀ w h h', prev.get? w = some h → delta.get? w = some h' → h.seq ≤ h'.seq ∧
    (h'.seq = h.seq → h'.id = h.id)

theorem headsLe_applyHeadsDelta_iff {prev delta : Heads} :
    HeadsLe prev (applyHeadsDelta prev delta) ↔ Advances prev delta := by
  constructor
  · intro hle w h h' hw hd
    obtain ⟨h'', hnext, hres⟩ := hle w h hw
    rw [get?_applyHeadsDelta, hd] at hnext
    rw [Option.some.inj hnext]
    exact hres
  · intro hadv w h hw
    rw [get?_applyHeadsDelta]
    cases hd : delta.get? w with
    | none => exact ⟨h, hw, le_rfl, fun _ => rfl⟩
    | some h' => exact ⟨h', rfl, hadv w h h' hw hd⟩

namespace AnchorChain

open ParentWalk Runs

variable {c c' : AnchorChain} {cfg : ChainConfig} {check : StateCheck} {a b p : Anchor}
  {heads : Heads}

/-! ## Chains that only grew -/

/-- A chain that grew from nothing or from genesis: it was never pruned, and it holds the
parent of everything it holds. -/
structure Grown (c : AnchorChain) : Prop where
  linked : c.Linked
  closed : ∀ a, c.Holds a → a.link ≠ none → c.parent a ≠ none
  no_floor : c.floorId = none
  tip_held : ∀ id, c.tipId = some id → ∃ t, c.get id = some t
  tip_heads : ∀ t, c.tip = some t → c.tipHeads = c.rebuiltHeads t

namespace Grown

theorem headsCached (h : c.Grown) : c.HeadsCached where
  tip_heads := h.tip_heads
  floor_root := fun f _ hf => absurd hf (by rw [h.no_floor]; simp)

theorem headsAt_eq (h : c.Grown) (ha : c.Holds a) : c.headsAt a.id = c.rebuiltHeads a :=
  h.headsCached.headsAt_eq ha

/-- Certified heads are the parent's under the anchor's delta. -/
theorem headsAt_child (h : c.Grown) (ha : c.Holds a) (hp : c.parent a = some p) :
    c.headsAt a.id = applyHeadsDelta (c.headsAt p.id) a.headsDelta := by
  rw [h.headsAt_eq ha, h.headsAt_eq (h.linked.holds_parent hp), rebuiltHeads_cons h.linked ha hp]

theorem new : AnchorChain.new.Grown where
  linked := ⟨fun _ _ h => absurd h (by simp [get, AnchorChain.new]),
    fun _ _ h => absurd h (by simp [Holds, get, AnchorChain.new])⟩
  closed := fun _ h => absurd h (by simp [Holds, get, AnchorChain.new])
  no_floor := rfl
  tip_held := fun _ h => absurd h (by simp [AnchorChain.new])
  tip_heads := fun _ h => absurd h (by simp [tip, AnchorChain.new])

/-- No held anchor links to one that is not held. -/
theorem link_ne (h : c.Grown) (hnew : c.get a.id = none) (hb : c.Holds b) :
    b.link ≠ some a.id := by
  intro hl
  refine h.closed b hb (by rw [hl]; simp) ?_
  unfold parent
  rw [hl]
  exact hnew

theorem extended (h : c.Grown) (hacc : c.Accepts cfg check a heads) :
    Extended c a heads ((c.store a).choose cfg a heads).1 :=
  hacc.extended h.linked fun _ hb => h.link_ne hacc.fresh hb

/-- The heads `verifyAnchor` returns are the ones a walk from the stored anchor rebuilds. -/
theorem rebuiltHeads_new (h : c.Grown) (hacc : c.Accepts cfg check a heads)
    (hext : Extended c a heads c') : c'.rebuiltHeads a = heads := by
  have hheads := hacc.spec.heads_eq
  unfold parentHeads at hheads
  have hpar := hext.parent_eq a (Or.inl rfl)
  cases hp : c.parent a with
  | none =>
    rw [hp] at hheads hpar
    rw [rebuiltHeads_root hpar, hext.floorId_eq, h.no_floor, if_neg (by simp), hheads]
  | some p =>
    rw [hp] at hheads hpar
    simp only at hheads
    have hpheld := h.linked.holds_parent hp
    rw [rebuiltHeads_cons hext.linked hext.holds_new hpar, hext.rebuilt_eq p hpheld, hheads,
      h.headsAt_eq hpheld]

/-- A grown chain stays grown when it accepts an anchor. -/
theorem of_extended (h : c.Grown) (hacc : c.Accepts cfg check a heads)
    (hext : Extended c a heads c') : c'.Grown where
  linked := hext.linked
  closed := fun b hb hl => by
    have hb' := (hext.holds_iff b).mp hb
    rw [hext.parent_eq b hb']
    rcases hb' with rfl | hb'
    · exact hacc.known hl
    · exact h.closed b hb' hl
  no_floor := hext.floorId_eq.trans h.no_floor
  tip_held := fun id hid => by
    rcases hext.tip_cases with ⟨htip, -⟩ | ⟨htip, -⟩
    · rw [htip, Option.some.injEq] at hid
      exact ⟨a, hid ▸ hext.holds_new⟩
    · rw [htip] at hid
      obtain ⟨t, ht⟩ := h.tip_held id hid
      have hold := hext.holds_old (h.linked.holds_of_get ht)
      unfold Holds at hold
      rw [h.linked.keyed id t ht] at hold
      exact ⟨t, hold⟩
  tip_heads := fun t ht => by
    rcases hext.tip_eq h.linked h.tip_held ht with ⟨rfl, hheads⟩ | ⟨htip, hheads⟩
    · rw [hheads, h.rebuiltHeads_new hacc hext]
    · obtain ⟨id, -, hget⟩ := Option.bind_eq_some_iff.mp htip
      rw [hheads, hext.rebuilt_eq t (h.linked.holds_of_get hget)]
      exact h.tip_heads t htip

/-- `add` keeps a chain grown. -/
theorem add (h : c.Grown) (cfg : ChainConfig) (check : StateCheck) (a : Anchor) :
    (c.add cfg check a).1.Grown := by
  rcases add_cases c cfg check a with ⟨hsame, -⟩ | ⟨heads, hacc, hadd⟩
  · rw [hsame]
    exact h
  · rw [hadd]
    exact h.of_extended hacc (h.extended hacc)

/-- Installing a genesis whose delta certifies its heads roots a grown chain. -/
theorem of_installed {g : Anchor} (h : c.Installed g heads)
    (hheads : applyHeadsDelta ∅ g.headsDelta = heads) : c.Grown where
  linked := h.linked
  closed := fun b hb hl => by
    rw [h.holds_iff.mp hb, AnchorBody.link_of_prev_none h.prev_eq] at hl
    exact absurd rfl hl
  no_floor := h.floorId_eq
  tip_held := fun id hid => by
    rw [h.tipId_eq, Option.some.injEq] at hid
    exact ⟨g, by rw [h.get_eq, if_pos hid]⟩
  tip_heads := fun t ht => by
    rw [h.tip_eq, Option.some.injEq] at ht
    subst ht
    rw [rebuiltHeads_root h.parent_eq, h.floorId_eq, if_neg (by simp), hheads, h.tipHeads_eq]

end Grown

/-- What an accepted anchor changes in a grown chain: it is held, with its heads; everything
held before keeps its link, its ancestry and its heads. -/
structure Added (c : AnchorChain) (a : Anchor) (heads : Heads) (c' : AnchorChain) : Prop
    extends Extended c a heads c' where
  grown : c'.Grown
  headsAt_new : c'.headsAt a.id = heads
  headsAt_old : ∀ b, c.Holds b → c'.headsAt b.id = c.headsAt b.id

theorem Grown.added (h : c.Grown) (hacc : c.Accepts cfg check a heads) :
    Added c a heads ((c.store a).choose cfg a heads).1 := by
  have hext := h.extended hacc
  have hgrown := h.of_extended hacc hext
  refine ⟨hext, hgrown, ?_, fun b hb => ?_⟩
  · rw [hgrown.headsAt_eq hext.holds_new, h.rebuiltHeads_new hacc hext]
  · rw [hgrown.headsAt_eq (hext.holds_old hb), hext.rebuilt_eq b hb, h.headsAt_eq hb]

/-! ## Feeding anchors -/

/-- `add` with one application check. -/
def feedStep (cfg : ChainConfig) (check : StateCheck) (c : AnchorChain) (a : Anchor) :
    AnchorChain := (c.add cfg check a).1

theorem feedStep_of_accepts (hacc : c.Accepts cfg check a heads) :
    feedStep cfg check c a = ((c.store a).choose cfg a heads).1 := by
  unfold feedStep
  rcases add_cases c cfg check a with ⟨-, hnot⟩ | ⟨heads', hacc', hadd⟩
  · exact absurd hacc (hnot heads)
  · have hheads : heads' = heads :=
      AnchorResult.ok.inj (hacc'.verified.symm.trans hacc.verified)
    rw [hadd, hheads]

theorem feedStep_of_not_accepts (h : ∀ heads, ¬ c.Accepts cfg check a heads) :
    feedStep cfg check c a = c := by
  unfold feedStep
  rcases add_cases c cfg check a with ⟨hsame, -⟩ | ⟨heads, hacc, -⟩
  · exact hsame
  · exact absurd hacc (h heads)

/-- How a chain starts: constructed and nothing else, or with a genesis installed. -/
inductive Rooted (cfg : ChainConfig) : AnchorChain → Prop where
  | new : Rooted cfg AnchorChain.new
  | genesis {g : Anchor} {heads : Heads} {c : AnchorChain} :
      applyHeadsDelta ∅ g.headsDelta = heads →
      AnchorChain.new.installGenesis cfg g heads = .ok c → Rooted cfg c

theorem Rooted.grown (h : Rooted cfg c) : c.Grown := by
  cases h with
  | new => exact Grown.new
  | genesis hheads hg => exact Grown.of_installed (installGenesis_ok hg) hheads

/-- A root has no held link at all. -/
theorem Rooted.parent_eq (h : Rooted cfg c) (ha : c.Holds a) : c.parent a = none := by
  cases h with
  | new => exact absurd ha (by simp [Holds, get, AnchorChain.new])
  | genesis hheads hg =>
    have hi := installGenesis_ok hg
    rw [hi.holds_iff.mp ha, hi.parent_eq]

/-! ## Regress -/

/-- Certified heads never regress along a held link. -/
def NoRegress (c : AnchorChain) : Prop :=
  ∀ a p, c.Holds a → c.parent a = some p → HeadsLe (c.headsAt p.id) (c.headsAt a.id)

/-- One call to `add`, whatever the application's check answers in it. -/
def addStep (cfg : ChainConfig) (c : AnchorChain) (call : Anchor × StateCheck) : AnchorChain :=
  (c.add cfg call.2 call.1).1

/-- The condition on a call: an anchor that passes the checks of `add` carries a delta that
advances the heads its parent certifies. -/
def DeltaAdvances (cfg : ChainConfig) (c : AnchorChain) (call : Anchor × StateCheck) : Prop :=
  ∀ heads p, c.Accepts cfg call.2 call.1 heads → c.parent call.1 = some p →
    Advances (c.headsAt p.id) call.1.headsDelta

theorem Rooted.noRegress (h : Rooted cfg c) : c.NoRegress := fun a p ha hp => by
  rw [h.parent_eq ha] at hp
  exact absurd hp (by simp)

/-- In a grown chain regress is a matter of each stored delta. -/
theorem Grown.noRegress_iff (h : c.Grown) :
    c.NoRegress ↔
      ∀ a p, c.Holds a → c.parent a = some p → Advances (c.headsAt p.id) a.headsDelta := by
  refine forall₂_congr fun a p => forall₂_congr fun ha hp => ?_
  rw [h.headsAt_child ha hp, headsLe_applyHeadsDelta_iff]

/-- One call keeps certified heads from regressing exactly when its delta advances. -/
theorem Grown.noRegress_addStep_iff (h : c.Grown) (call : Anchor × StateCheck) :
    (addStep cfg c call).NoRegress ↔ c.NoRegress ∧ DeltaAdvances cfg c call := by
  unfold addStep
  rcases add_cases c cfg call.2 call.1 with ⟨hsame, hnot⟩ | ⟨heads, hacc, hadd⟩
  · rw [hsame]
    exact (and_iff_left fun heads p hacc => absurd hacc (hnot heads)).symm
  · have hadded := h.added hacc
    rw [hadd, hadded.grown.noRegress_iff, h.noRegress_iff]
    have hold : ∀ b p, c.parent b = some p →
        ((c.store call.1).choose cfg call.1 heads).1.headsAt p.id = c.headsAt p.id :=
      fun b p hp => hadded.headsAt_old p (h.linked.holds_parent hp)
    constructor
    · intro hall
      refine ⟨fun b p hb hp => ?_, fun _ p _ hp => ?_⟩
      · rw [← hold b p hp]
        exact hall b p ((hadded.holds_iff b).mpr (Or.inr hb))
          ((hadded.parent_eq b (Or.inr hb)).trans hp)
      · rw [← hold call.1 p hp]
        exact hall call.1 p ((hadded.holds_iff _).mpr (Or.inl rfl))
          ((hadded.parent_eq _ (Or.inl rfl)).trans hp)
    · rintro ⟨hall, hcond⟩ b p hb hp
      have hb' := (hadded.holds_iff b).mp hb
      rw [hadded.parent_eq b hb'] at hp
      rw [hold b p hp]
      rcases hb' with rfl | hb'
      · exact hcond heads p hacc hp
      · exact hall b p hb' hp

/-- **Certified heads never regress exactly when every accepted delta advances.** Over every
run of `add` calls from a fresh chain or an installed genesis, whatever the proofs and the
application checks answer. -/
theorem noRegress_run_iff (hroot : Rooted cfg c) (calls : List (Anchor × StateCheck)) :
    (run (addStep cfg) c calls).NoRegress ↔ Along (addStep cfg) (DeltaAdvances cfg) c calls := by
  rw [good_run_iff Grown (fun s i hs => hs.add cfg i.2 i.1)
    (fun s i hs => hs.noRegress_addStep_iff i) hroot.grown calls]
  exact and_iff_right hroot.noRegress

/-! ## A producer that lags behind -/

/-- A short hash for worked examples. -/
def exampleHash (b : Bytes) : Bytes :=
  let h := b.foldl (fun h x => (h * 31 + x.toNat) % 65521) 7
  [UInt8.ofNat (h / 256), UInt8.ofNat h]

/-- A configuration under which every proof and signature passes. -/
def openConfig : ChainConfig where
  crypto := ⟨exampleHash, fun _ _ _ => true⟩
  params := ⟨1, 1, 0, fun _ _ => true⟩
  verifier := fun _ _ _ _ => ⟨true, some "0"⟩
  schedule := none
  finalityDepth := none
  settlementDepth := none

/-- The anchor a producer assembles on `prev`, with `delta` leading to `heads`. -/
def assembled (C : Crypto) (difficulty : ℕ) (prev : Option Anchor) (producer : String)
    (delta heads : Heads) : Anchor :=
  let body : AnchorBody :=
    { height := match prev with | none => 0 | some p => p.height + 1
      prev := prev.map (·.id)
      producer := producer
      nonce := 0
      step := []
      difficulty := difficulty
      headsDelta := delta
      stateRoot := rootOfHeads C heads
      appRoot := ""
      weight := (match prev with | none => 0 | some p => p.weight) + difficulty
      space := ⟨"", "", 0⟩
      proof := .null }
  let time : TimeProof := ⟨0, "", ""⟩
  { body with time := time, id := idOf C body time, sig := "" }

namespace Regress

/-- Block 0 of the example. -/
def root : Anchor := assembled openConfig.crypto 1 none genesisProducer ∅ ∅

/-- One head of one writer. -/
def headOf (id : String) (seq : ℕ) : Heads := (∅ : Heads).set "w" ⟨id, seq⟩

/-- An anchor certifying the writer's sixth write. -/
def ahead : Anchor :=
  assembled openConfig.crypto 1 (some root) "p" (headOf "x" 5) (headOf "x" 5)

/-- Its child, by a producer whose ledger holds four. -/
def lagging : Anchor :=
  assembled openConfig.crypto 1 (some ahead) "q" (headOf "y" 3) (headOf "y" 3)

def calls : List (Anchor × StateCheck) :=
  [(ahead, fun _ _ _ => true), (lagging, fun _ _ _ => true)]

end Regress

/-- The law between two ids a chain links. -/
theorem NoRegress.headsLe_of_ids (hL : c.Linked) (h : c.NoRegress) {i j : String}
    (hij : ((c.get i).bind c.parent).map (·.id) = some j) :
    HeadsLe (c.headsAt j) (c.headsAt i) := by
  rw [Option.map_eq_some_iff] at hij
  obtain ⟨p, hp, rfl⟩ := hij
  obtain ⟨a, ha, hap⟩ := Option.bind_eq_some_iff.mp hp
  rw [← hL.keyed i a ha]
  exact h a p (hL.holds_of_get ha) hap

open Regress in
/-- Both anchors pass every check of `add`, and the second un-certifies two writes. -/
theorem regress_of_lagging_producer :
    new.installGenesis openConfig root ∅ = .ok (rootedAt root ∅) ∧
      ¬ (run (addStep openConfig) (rootedAt root ∅) calls).NoRegress := by
  have hinst : new.installGenesis openConfig root ∅ = .ok (rootedAt root ∅) :=
    installGenesis_new rfl rfl rfl
  refine ⟨hinst, fun h => ?_⟩
  have hgrown : (run (addStep openConfig) (rootedAt root ∅) calls).Grown :=
    inv_run _ (fun s i hs => hs.add _ i.2 i.1) (Rooted.genesis rfl hinst).grown calls
  obtain ⟨hlink, hbefore, hafter⟩ :
      (((run (addStep openConfig) (rootedAt root ∅) calls).get lagging.id).bind
        (run (addStep openConfig) (rootedAt root ∅) calls).parent).map (·.id) = some ahead.id ∧
      ((run (addStep openConfig) (rootedAt root ∅) calls).headsAt ahead.id).get? "w"
        = some ⟨"x", 5⟩ ∧
      ((run (addStep openConfig) (rootedAt root ∅) calls).headsAt lagging.id).get? "w"
        = some ⟨"y", 3⟩ := by decide +kernel
  obtain ⟨h', hget, hle, -⟩ := h.headsLe_of_ids hgrown.linked hlink "w" _ hbefore
  rw [hafter, Option.some.injEq] at hget
  rw [← hget] at hle
  exact absurd hle (by decide)

open Regress in
/-- The equivalence at the chain of the example: its run is one whose deltas do not advance. -/
theorem noRegress_run_iff_lagging :
    Rooted openConfig (rootedAt root ∅) ∧
      ((run (addStep openConfig) (rootedAt root ∅) calls).NoRegress ↔
        Along (addStep openConfig) (DeltaAdvances openConfig) (rootedAt root ∅) calls) := by
  have hroot : Rooted openConfig (rootedAt root ∅) :=
    Rooted.genesis rfl (installGenesis_new rfl rfl rfl)
  exact ⟨hroot, noRegress_run_iff hroot calls⟩

end AnchorChain

end Gavl
