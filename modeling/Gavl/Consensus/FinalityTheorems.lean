import Gavl.Consensus.SettlementTheorems

/-!
# Finality of a fork

Two nodes that stand on the two branches of a fork weigh it from opposite ends. Each counts, in the
reference window both hold, the anchors won by producers who built on one branch only. These
producers differ from branch to branch, so at most one branch has a strict majority, and both
nodes find the same one.
-/

namespace Gavl

open ParentWalk

/-! ## Counting supporters -/

section

open Classical

variable {reference : List String} {P Q : String → Prop}

/-- How many entries of `reference` satisfy `P`. -/
noncomputable def backing (reference : List String) (P : String → Prop) : ℕ :=
  reference.countP (fun p => decide (P p))

theorem backing_cons (p : String) :
    backing (p :: reference) P = backing reference P + if P p then 1 else 0 := by
  unfold backing
  rw [List.countP_cons]
  simp only [decide_eq_true_eq]

theorem backing_le_length : backing reference P ≤ reference.length := List.countP_le_length

theorem backing_or (h : ∀ p, P p → ¬Q p) :
    backing reference (fun p => P p ∨ Q p) = backing reference P + backing reference Q := by
  induction reference with
  | nil => rfl
  | cons p reference ih =>
    rw [backing_cons, backing_cons, backing_cons, ih]
    by_cases hp : P p
    · rw [if_pos hp, if_pos (Or.inl hp), if_neg (h p hp)]
      omega
    · by_cases hq : Q p
      · rw [if_neg hp, if_pos hq, if_pos (Or.inr hq)]
        omega
      · rw [if_neg hp, if_neg hq, if_neg (not_or.mpr ⟨hp, hq⟩)]
        omega

theorem backing_congr (h : ∀ p, P p ↔ Q p) : backing reference P = backing reference Q := by
  rw [show P = Q from funext fun p => propext (h p)]

theorem backing_eq (a : String) : backing reference (fun p => p = a) = reference.count a := by
  unfold backing List.count
  congr 1
  funext p
  by_cases hp : p = a <;> simp [hp]

/-- A sum over distinct members counts the entries that are one of them. -/
theorem sum_count_eq_backing {l : List String} (hl : l.Nodup) :
    (l.map (fun p => reference.count p)).sum = backing reference (fun p => p ∈ l) := by
  induction l with
  | nil =>
    unfold backing
    simp
  | cons a l ih =>
    obtain ⟨ha, hl⟩ := List.nodup_cons.mp hl
    have hsplit : backing reference (fun p => p ∈ a :: l) =
        backing reference (fun p => p = a) + backing reference (fun p => p ∈ l) := by
      rw [← backing_or (fun p (hp : p = a) hmem => ha (hp ▸ hmem))]
      exact backing_congr fun p => List.mem_cons
    rw [List.map_cons, List.sum_cons, ih hl, hsplit, backing_eq]

/-- Groups without a member in common back no more than there is. -/
theorem backing_add_le (h : ∀ p, P p → ¬Q p) :
    backing reference P + backing reference Q ≤ reference.length := by
  rw [← backing_or h]
  exact backing_le_length

end

namespace AnchorChain

theorem support_eq_backing {reference mine other : List String} (hmine : mine.Nodup) :
    support reference mine other = backing reference (fun p => p ∈ mine ∧ p ∉ other) := by
  unfold support
  rw [sum_count_eq_backing (hmine.filter _)]
  apply backing_congr
  intro p
  rw [List.mem_filter, decide_eq_true_eq]

variable {c d : AnchorChain} {a b x y fork p : Anchor}

/-! ## A fork -/

/-- `x` and `y` are held, and `fork` is the last anchor their branches share. -/
structure Diverged (c : AnchorChain) (x y fork : Anchor) : Prop where
  linked : c.Linked
  x_held : c.Holds x
  y_held : c.Holds y
  x_anc : Anc c.parent x fork
  y_anc : Anc c.parent y fork
  nearest : ∀ a, Anc c.parent x a → Anc c.parent y a → Anc c.parent fork a

/-- `p` minted an anchor of the branch of `x` above `fork`. -/
def MintedOn (c : AnchorChain) (x fork : Anchor) (p : String) : Prop :=
  ∃ a, Anc c.parent x a ∧ fork.height < a.height ∧ a.producer = p

/-- The producers who built on the branch of `x` and not on the one of `y` won a strict majority
of the reference window. -/
def Majority (c : AnchorChain) (x y fork : Anchor) : Prop :=
  (c.referenceProducers fork).length <
    2 * backing (c.referenceProducers fork)
      (fun p => c.MintedOn x fork p ∧ ¬c.MintedOn y fork p)

/-- No two branches have a majority of one window. -/
theorem not_majority_of_majority (h : c.Majority x y fork) : ¬c.Majority y x fork := by
  have hle := @backing_add_le (c.referenceProducers fork)
    (fun p => c.MintedOn x fork p ∧ ¬c.MintedOn y fork p)
    (fun p => c.MintedOn y fork p ∧ ¬c.MintedOn x fork p) (fun p hp hq => hp.2 hq.1)
  unfold Majority at h ⊢
  omega

/-- Of a run of falling heights, a prefix that ends before `fork` holds what is higher. -/
theorem mem_takeWhile_above {l : List Anchor} {q : Anchor → Bool}
    (hpair : l.Pairwise (fun x y => y.height < x.height)) (hfork : fork ∈ l)
    (habove : ∀ a ∈ l, fork.height < a.height → q a = true) (hend : q fork = false) :
    b ∈ l.takeWhile q ↔ b ∈ l ∧ fork.height < b.height := by
  obtain ⟨before, after, rfl⟩ := List.append_of_mem hfork
  obtain ⟨-, hafter, hbefore⟩ := List.pairwise_append.mp hpair
  have hhigher : ∀ a ∈ before, fork.height < a.height := fun a ha =>
    hbefore a ha fork List.mem_cons_self
  rw [List.takeWhile_append_of_pos fun a ha =>
      habove a (List.mem_append_left _ ha) (hhigher a ha),
    List.takeWhile_cons_of_neg (by simp [hend]), List.append_nil]
  constructor
  · intro hb
    exact ⟨List.mem_append_left _ hb, hhigher b hb⟩
  · rintro ⟨hb, hlt⟩
    rcases List.mem_append.mp hb with hb | hb
    · exact hb
    · rcases List.mem_cons.mp hb with rfl | hb
      · omega
      · have := (List.pairwise_cons.mp hafter).1 b hb
        omega

namespace Diverged

variable (h : c.Diverged x y fork)
include h

theorem symm : c.Diverged y x fork :=
  ⟨h.linked, h.y_held, h.x_held, h.y_anc, h.x_anc, fun a hy hx => h.nearest a hx hy⟩

theorem fork_held : c.Holds fork := h.linked.holds_anc h.x_held h.x_anc

/-- Nothing above the fork point is on both branches. -/
theorem not_shared (hb : Anc c.parent y b) (hlt : fork.height < b.height) :
    b.id ∉ (c.ancestry x).map (·.id) := by
  intro hmem
  obtain ⟨a, ha, hid⟩ := List.mem_map.mp hmem
  have hxa := (h.linked.mem_ancestry h.x_held).mp ha
  have hab : a = b := by
    have hb' : c.get b.id = some b := h.linked.holds_anc h.y_held hb
    have ha' : c.get a.id = some a := h.linked.holds_anc h.x_held hxa
    rw [hid, hb'] at ha'
    exact (Option.some.inj ha').symm
  have hle : b.height ≤ fork.height :=
    h.linked.graded.height_le h.fork_held (h.nearest b (hab ▸ hxa) hb)
  omega

theorem pairwise : (c.ancestry y).Pairwise (fun x y => y.height < x.height) := by
  rw [h.linked.ancestry_eq h.y_held]
  exact h.linked.graded.pairwise_walk _ h.y_held

theorem fork_mem : fork ∈ c.ancestry y := (h.linked.mem_ancestry h.y_held).mpr h.y_anc

theorem fork_shared : fork.id ∈ (c.ancestry x).map (·.id) := List.mem_map_of_mem h.symm.fork_mem

theorem mem_branchAbove :
    b ∈ c.branchAbove y x ↔ Anc c.parent y b ∧ fork.height < b.height := by
  unfold branchAbove
  rw [← h.linked.mem_ancestry h.y_held]
  apply mem_takeWhile_above h.pairwise h.fork_mem
  · intro a ha hlt
    exact decide_eq_true (h.not_shared ((h.linked.mem_ancestry h.y_held).mp ha) hlt)
  · exact decide_eq_false (not_not.mpr h.fork_shared)

theorem forkPoint_eq : c.forkPoint y x = some fork := by
  unfold forkPoint
  obtain ⟨before, after, hsplit⟩ := List.append_of_mem h.fork_mem
  refine List.find?_eq_some_iff_append.mpr
    ⟨decide_eq_true h.fork_shared, before, after, hsplit, fun b hb => ?_⟩
  have hpair := h.pairwise
  rw [hsplit] at hpair
  have hlt := (List.pairwise_append.mp hpair).2.2 b hb fork List.mem_cons_self
  have hyb : Anc c.parent y b :=
    (h.linked.mem_ancestry h.y_held).mp (by rw [hsplit]; exact List.mem_append_left _ hb)
  simpa using h.not_shared hyb hlt

/-- The branch of the tip, walked down to the fork point. -/
theorem mem_ours : b ∈ (c.ancestry y).takeWhile (fun a => decide (a.id ≠ fork.id)) ↔
    Anc c.parent y b ∧ fork.height < b.height := by
  rw [← h.linked.mem_ancestry h.y_held]
  apply mem_takeWhile_above h.pairwise h.fork_mem
  · intro a ha hlt
    have hya := (h.linked.mem_ancestry h.y_held).mp ha
    exact decide_eq_true fun hid => h.not_shared hya hlt (hid ▸ h.fork_shared)
  · exact decide_eq_false (not_not.mpr rfl)

end Diverged

/-- Whoever minted a list of anchors. -/
theorem mem_producersOf {l : List Anchor} {q : String} :
    q ∈ producersOf l ↔ ∃ a ∈ l, a.producer = q := by
  unfold producersOf
  rw [List.mem_dedup, List.mem_map]

/-- What `resolveFork` answers: the branch with a majority, and the fork point when there is
none. -/
structure Resolved (c : AnchorChain) (x y fork : Anchor) : Prop where
  keep : c.Majority x y fork → c.resolveFork y x = ⟨none, false⟩
  switch : c.Majority y x fork → (c.resolveFork y x).final = true
  share : ¬c.Majority x y fork → ¬c.Majority y x fork → c.resolveFork y x = ⟨some fork.id, false⟩

theorem nodup_producersOf (l : List Anchor) : (producersOf l).Nodup := List.nodup_dedup _

/-- The support the code adds up is the backing of the exclusive producers. -/
theorem majority_iff {mine other : List Anchor} (hmine : ∀ q, q ∈ producersOf mine ↔ c.MintedOn x fork q)
    (hother : ∀ q, q ∈ producersOf other ↔ c.MintedOn y fork q) :
    (c.referenceProducers fork).length <
      2 * support (c.referenceProducers fork) (producersOf mine) (producersOf other) ↔
        c.Majority x y fork := by
  unfold Majority
  rw [support_eq_backing (nodup_producersOf mine),
    backing_congr fun q => and_congr (hmine q) (not_congr (hother q))]

theorem Diverged.resolved (h : c.Diverged x y fork) : c.Resolved x y fork := by
  have hours : ∀ q, q ∈ producersOf ((c.ancestry x).takeWhile (fun a => decide (a.id ≠ fork.id))) ↔
      c.MintedOn x fork q := fun q => by
    simp only [mem_producersOf, h.symm.mem_ours, MintedOn, and_assoc]
  have htheirs : ∀ q, q ∈ producersOf (c.branchAbove y x) ↔ c.MintedOn y fork q := fun q => by
    simp only [mem_producersOf, h.mem_branchAbove, MintedOn, and_assoc]
  have hx := majority_iff hours htheirs
  have hy := majority_iff htheirs hours
  refine ⟨fun hmx => ?_, fun hmy => ?_, fun hmx hmy => ?_⟩
  all_goals
    unfold resolveFork
    rw [h.forkPoint_eq]
    simp only
  · rw [if_pos (hx.mpr hmx)]
  · rw [if_neg (mt hx.mp (not_majority_of_majority hmy)), if_pos (hy.mpr hmy)]
  · rw [if_neg (mt hx.mp hmx), if_neg (mt hy.mp hmy)]

namespace Resolved

variable (h : c.Resolved x y fork)
include h

/-- The branch of the newcomer is found final exactly when it has the majority. -/
theorem final_iff : (c.resolveFork y x).final = true ↔ c.Majority y x fork := by
  refine ⟨fun hfinal => ?_, h.switch⟩
  by_contra hmy
  by_cases hmx : c.Majority x y fork
  · rw [h.keep hmx] at hfinal
    exact absurd hfinal (by decide)
  · rw [h.share hmx hmy] at hfinal
    exact absurd hfinal (by simp)

/-- A node keeps its own branch exactly when that one has the majority. -/
theorem keep_iff : c.resolveFork y x = ⟨none, false⟩ ↔ c.Majority x y fork := by
  refine ⟨fun hkeep => ?_, h.keep⟩
  by_contra hmx
  by_cases hmy : c.Majority y x fork
  · have hfinal := h.switch hmy
    rw [hkeep] at hfinal
    exact absurd hfinal (by decide)
  · rw [h.share hmx hmy] at hkeep
    exact absurd hkeep (by simp)

end Resolved

/-! ## Two nodes -/

/-- A majority depends on the reference window and on who minted on the two branches. -/
theorem majority_congr {x' y' : Anchor}
    (hwindow : c.referenceProducers fork = d.referenceProducers fork)
    (hx : ∀ q, c.MintedOn x fork q ↔ d.MintedOn x' fork q)
    (hy : ∀ q, c.MintedOn y fork q ↔ d.MintedOn y' fork q) :
    c.Majority x y fork ↔ d.Majority x' y' fork := by
  unfold Majority
  rw [hwindow, backing_congr fun q => and_congr (hx q) (not_congr (hy q))]

/-- The two branches of a fork in `c`, and the window that ends at it, are held by `d` too. -/
structure SharedFork (c d : AnchorChain) (x y fork : Anchor) : Prop where
  diverged : c.Diverged x y fork
  linked : d.Linked
  branches : ∀ a, Anc c.parent x a ∨ Anc c.parent y a → fork.height ≤ a.height → d.Holds a
  window : ∀ a ∈ (c.ancestry fork).take forkWindow, d.Holds a
  window' : ∀ a ∈ (d.ancestry fork).take forkWindow, c.Holds a

/-- Where the parent is held, the link leads to it. -/
theorem parent_of_holds (hL : c.Linked) (h : c.parent a = some p) (hp : d.Holds p) :
    d.parent a = some p := by
  obtain ⟨id, hprev, hne, hget⟩ := parent_eq_some.mp h
  obtain rfl := hL.keyed id p hget
  exact parent_eq_some.mpr ⟨p.id, hprev, hne, hp⟩

/-- Walks that hold each other's anchors are one walk. -/
theorem walk_eq_of_holds (hc : c.Linked) (hd : d.Linked) {n : ℕ} : ∀ {a : Anchor},
    (∀ b ∈ walk c.parent n a, d.Holds b) → (∀ b ∈ walk d.parent n a, c.Holds b) →
      walk c.parent n a = walk d.parent n a := by
  induction n with
  | zero => intro a _ _; rfl
  | succ n ih =>
    intro a hwc hwd
    cases n with
    | zero =>
      rw [walk_succ, walk_succ]
      cases c.parent a <;> cases d.parent a <;> rfl
    | succ n =>
      cases hp : c.parent a with
      | some p =>
        have hp' : d.parent a = some p := by
          refine parent_of_holds hc hp (hwc p ?_)
          rw [walk_succ_some hp, walk_succ]
          simp
        rw [walk_succ_some hp] at hwc ⊢
        rw [walk_succ_some hp'] at hwd ⊢
        rw [ih (fun b hb => hwc b (List.mem_cons_of_mem _ hb))
          (fun b hb => hwd b (List.mem_cons_of_mem _ hb))]
      | none =>
        cases hp' : d.parent a with
        | none => rw [walk_succ_none hp, walk_succ_none hp']
        | some p =>
          have hp'' : c.parent a = some p := by
            refine parent_of_holds hd hp' (hwd p ?_)
            rw [walk_succ_some hp', walk_succ]
            simp
          rw [hp] at hp''
          exact absurd hp'' (by simp)

namespace SharedFork

theorem swap (h : SharedFork c d x y fork) : SharedFork c d y x fork :=
  ⟨h.diverged.symm, h.linked, fun a ha => h.branches a ha.symm, h.window, h.window'⟩

variable (h : SharedFork c d x y fork)
include h

/-- The branch of `x` is the same for either node, down to the fork point. -/
theorem anc_iff (hle : fork.height ≤ a.height) : Anc c.parent x a ↔ Anc d.parent x a := by
  have hL := h.diverged.linked
  -- the links of the branch are links of `d`
  have hparent : ∀ {b p : Anchor}, Anc c.parent x b → Anc c.parent p fork → c.parent b = some p →
      d.parent b = some p := fun hxb hpf hp => by
    have hxp := hxb.trans (Anc.of_parent hp)
    have hheld := hL.holds_anc h.diverged.x_held hxp
    exact parent_of_holds hL hp (h.branches _ (Or.inl hxp) (hL.graded.height_le hheld hpf))
  have hbranch : ∀ {b : Anchor}, Anc c.parent b fork → Anc c.parent x b →
      (Anc c.parent b a ↔ Anc d.parent b a) := by
    intro b hbf
    induction hbf with
    | refl b =>
      intro hxb
      have hheld := h.branches b (Or.inl hxb) le_rfl
      constructor
      · intro hba
        rw [hL.graded.eq_of_height_le (hL.holds_anc h.diverged.x_held hxb) hba hle]
        exact Anc.refl a
      · intro hba
        rw [h.linked.graded.eq_of_height_le hheld hba hle]
        exact Anc.refl a
    | @step b p e hp hpf ih =>
      intro hxb
      have hp' := hparent hxb hpf hp
      have hrec := ih h hle hparent (hxb.trans (Anc.of_parent hp))
      constructor
      · intro hba
        rcases hba.cases_parent with rfl | ⟨q, hq, hqa⟩
        · exact Anc.refl b
        · rw [hp, Option.some.injEq] at hq
          exact Anc.step hp' (hrec.mp (hq ▸ hqa))
      · intro hba
        rcases hba.cases_parent with rfl | ⟨q, hq, hqa⟩
        · exact Anc.refl b
        · rw [hp', Option.some.injEq] at hq
          exact Anc.step hp (hrec.mpr (hq ▸ hqa))
  exact hbranch h.diverged.x_anc (Anc.refl x)

theorem mintedOn_iff (q : String) : c.MintedOn x fork q ↔ d.MintedOn x fork q := by
  constructor
  · rintro ⟨a, ha, hlt, hq⟩
    exact ⟨a, (h.anc_iff hlt.le).mp ha, hlt, hq⟩
  · rintro ⟨a, ha, hlt, hq⟩
    exact ⟨a, (h.anc_iff hlt.le).mpr ha, hlt, hq⟩

theorem fork_le : fork.height ≤ x.height :=
  h.diverged.linked.graded.height_le h.diverged.x_held h.diverged.x_anc

/-- The fork is one for the other node too. -/
theorem diverged' : d.Diverged x y fork := by
  have hx : d.Holds x := h.branches x (Or.inl (Anc.refl x)) h.fork_le
  have hxf := (h.anc_iff le_rfl).mp h.diverged.x_anc
  refine ⟨h.linked, hx, h.branches y (Or.inr (Anc.refl y)) h.swap.fork_le, hxf,
    (h.swap.anc_iff le_rfl).mp h.diverged.y_anc, fun a hxa hya => ?_⟩
  rcases le_total fork.height a.height with hle | hle
  · have hfa := h.diverged.nearest a ((h.anc_iff hle).mpr hxa) ((h.swap.anc_iff hle).mpr hya)
    rw [h.diverged.linked.graded.eq_of_height_le h.diverged.fork_held hfa hle]
    exact Anc.refl a
  · exact h.linked.graded.anc_of_height_le hx hxf hxa hle

theorem referenceProducers_eq : c.referenceProducers fork = d.referenceProducers fork := by
  have hL := h.diverged.linked
  unfold referenceProducers
  rw [hL.take_ancestry h.diverged.fork_held, h.linked.take_ancestry h.diverged'.fork_held,
    walk_eq_of_holds hL h.linked]
  · rw [← hL.take_ancestry h.diverged.fork_held]
    exact h.window
  · rw [← h.linked.take_ancestry h.diverged'.fork_held]
    exact h.window'

theorem majority_iff' : c.Majority x y fork ↔ d.Majority x y fork :=
  majority_congr h.referenceProducers_eq h.mintedOn_iff h.swap.mintedOn_iff

end SharedFork

end AnchorChain

open AnchorChain

/-- **Both sides of a fork reach the same verdict.** A node on `x` that receives `y` finds the
branch of `y` final exactly when a node on `y` that receives `x` keeps its own, and vice versa; not
both branches are final; when neither is, both nodes fall back on the last anchor they share. And
whatever forks off in their place, with the same producers on its branches and the same window, is
judged the same, however many anchors each producer minted. -/
theorem resolveFork_symmetric {c d : AnchorChain} {x y fork : Anchor} (h : SharedFork c d x y fork) :
    ((c.resolveFork y x).final = true ↔ d.resolveFork x y = ⟨none, false⟩) ∧
    ((d.resolveFork x y).final = true ↔ c.resolveFork y x = ⟨none, false⟩) ∧
    ¬((c.resolveFork y x).final = true ∧ (d.resolveFork x y).final = true) ∧
    ((c.resolveFork y x).final = false → (d.resolveFork x y).final = false →
      c.resolveFork y x = ⟨some fork.id, false⟩ ∧ d.resolveFork x y = ⟨some fork.id, false⟩) ∧
    ∀ (e : AnchorChain) (x' y' : Anchor), e.Diverged x' y' fork →
      c.referenceProducers fork = e.referenceProducers fork →
      (∀ p, c.MintedOn x fork p ↔ e.MintedOn x' fork p) →
      (∀ p, c.MintedOn y fork p ↔ e.MintedOn y' fork p) →
        (e.resolveFork y' x').final = (c.resolveFork y x).final ∧
        (e.resolveFork y' x' = ⟨none, false⟩ ↔ c.resolveFork y x = ⟨none, false⟩) := by
  have hc := h.diverged.resolved
  have hd := h.diverged'.symm.resolved
  have hx := h.majority_iff'
  have hy := h.swap.majority_iff'
  refine ⟨?_, ?_, ?_, ?_, ?_⟩
  · rw [hc.final_iff, hd.keep_iff, hy]
  · rw [hd.final_iff, hc.keep_iff, hx]
  · rw [hc.final_iff, hd.final_iff, ← hx]
    exact fun hboth => not_majority_of_majority hboth.1 hboth.2
  · intro hcf hdf
    have hny : ¬c.Majority y x fork := by
      rw [← hc.final_iff, hcf]
      decide
    have hnx : ¬c.Majority x y fork := by
      rw [hx, ← hd.final_iff, hdf]
      decide
    exact ⟨hc.share hnx hny, hd.share (mt hy.mpr hny) (mt hx.mpr hnx)⟩
  · intro e x' y' hdiv hwindow hmx hmy
    have he := hdiv.resolved
    refine ⟨?_, ?_⟩
    · apply Bool.eq_iff_iff.mpr
      rw [he.final_iff, hc.final_iff, majority_congr hwindow hmy hmx]
    · rw [he.keep_iff, hc.keep_iff, majority_congr hwindow hmx hmy]

/-! ## A fork of two producers -/

namespace Split

/-- An anchor with nothing in it but its place and its producer. -/
def placed (id : String) (height : ℕ) (prev : Option String) (producer : String) : Anchor where
  height := height
  prev := prev
  producer := producer
  nonce := 0
  step := []
  difficulty := 1
  headsDelta := ∅
  stateRoot := ""
  appRoot := ""
  weight := height
  space := ⟨"", "", 0⟩
  proof := .null
  time := ⟨0, "", ""⟩
  id := id
  sig := ""

def root : Anchor := placed "g" 0 none genesisProducer
def fork : Anchor := placed "f" 1 (some "g") "p"
def left : Anchor := placed "x" 2 (some "f") "p"
def right : Anchor := placed "y" 2 (some "f") "q"

/-- A node that holds both branches and stands on `tip`. -/
def standing (tip : Anchor) : AnchorChain :=
  { new with
    anchors := (((∅ : OrderedMap String Anchor).set "g" root).set "f" fork).set "x" left |>.set "y" right
    tipId := some tip.id }

variable {tip tip' a : Anchor}

theorem get_standing {id : String} : (standing tip).get id = some a ↔
    (id = "g" ∧ a = root) ∨ (id = "f" ∧ a = fork) ∨ (id = "x" ∧ a = left) ∨
      (id = "y" ∧ a = right) := by
  have hentries : (standing tip).anchors.entries =
      [("g", root), ("f", fork), ("x", left), ("y", right)] := rfl
  unfold AnchorChain.get
  rw [OrderedMap.get?_eq_some_iff, hentries]
  simp

theorem linked : (standing tip).Linked := by
  refine ⟨fun id a h => ?_, fun a p ha hp => ?_⟩
  · rcases get_standing.mp h with ⟨rfl, rfl⟩ | ⟨rfl, rfl⟩ | ⟨rfl, rfl⟩ | ⟨rfl, rfl⟩ <;> rfl
  · obtain ⟨id, hprev, -, hget⟩ := parent_eq_some.mp hp
    rcases get_standing.mp ha with ⟨-, rfl⟩ | ⟨-, rfl⟩ | ⟨-, rfl⟩ | ⟨-, rfl⟩
    · exact absurd hprev (by simp [root, placed])
    all_goals
      obtain rfl := Option.some.inj hprev
      rcases get_standing.mp hget with ⟨hid, rfl⟩ | ⟨hid, rfl⟩ | ⟨hid, rfl⟩ | ⟨hid, rfl⟩ <;>
        first | rfl | exact absurd hid (by decide)

theorem parent_left : (standing tip).parent left = some fork :=
  parent_eq_some.mpr ⟨"f", rfl, by decide, get_standing.mpr (by simp)⟩

theorem parent_right : (standing tip).parent right = some fork :=
  parent_eq_some.mpr ⟨"f", rfl, by decide, get_standing.mpr (by simp)⟩

theorem shared : SharedFork (standing left) (standing right) left right fork := by
  have hleft : (standing left).Holds left := get_standing.mpr (by simp [left, placed])
  have hright : (standing left).Holds right := get_standing.mpr (by simp [right, placed])
  have hxf : Anc (standing left).parent left fork := Anc.of_parent parent_left
  have hyf : Anc (standing left).parent right fork := Anc.of_parent parent_right
  -- both nodes store the same anchors
  have hsame : ∀ a, (standing left).Holds a → (standing right).Holds a := fun _ h => h
  refine ⟨⟨linked, hleft, hright, hxf, hyf, fun a hx hy => ?_⟩, linked, fun a ha _ => ?_,
    fun a ha => ?_, fun a ha => ?_⟩
  · rcases hx.cases_parent with rfl | ⟨p, hp, hpa⟩
    · rcases hy.cases_parent with hne | ⟨p, hp, hpa⟩
      · exact absurd (congrArg Anchor.id hne) (by decide)
      · rw [parent_right, Option.some.injEq] at hp
        exact hp ▸ hpa
    · rw [parent_left, Option.some.injEq] at hp
      exact hp ▸ hpa
  · rcases ha with ha | ha
    · exact hsame a (linked.holds_anc hleft ha)
    · exact hsame a (linked.holds_anc hright ha)
  all_goals
    have hfork := linked.holds_anc hleft hxf
    exact linked.holds_anc hfork ((linked.mem_ancestry hfork).mp (List.mem_of_mem_take ha))

end Split

open Split in
/-- The producer of the window built on the left branch only, so both nodes find that one final. -/
theorem resolveFork_symmetric_split :
    (standing right).resolveFork left right = ⟨some left.id, true⟩ ∧
      (standing left).resolveFork right left = ⟨none, false⟩ := by
  have hfinal : (standing right).resolveFork left right = ⟨some left.id, true⟩ := by decide +kernel
  exact ⟨hfinal, (resolveFork_symmetric shared).2.1.mp (by rw [hfinal])⟩

end Gavl
