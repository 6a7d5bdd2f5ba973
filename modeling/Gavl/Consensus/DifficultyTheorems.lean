import Gavl.Consensus.HeadsTheorems

/-!
# Difficulty and weight along a chain

The difficulty an anchor must commit to divides by what the producers before it served, and is the
next anchor's input. It stays positive, moves at epoch boundaries only and within bounds there, and
the weights that add it up grow with every anchor.
-/

namespace Gavl

/-! ## Divisions that throw -/

namespace Checked

/-- A division of bigints throws on a zero divisor. -/
def div (n d : ℕ) : Except String ℕ := if d = 0 then .error "Division by zero" else .ok (n / d)

def clampStep (current next maxStep : ℕ) : Except String ℕ := do
  let lo ← div current maxStep
  let hi := current * maxStep
  if next < lo then return if lo < 1 then 1 else lo
  if hi < next then return hi
  return if next < 1 then 1 else next

def retarget (current : ℕ) (window : List Anchor) (targetIters : ℕ) (maxStep : Option ℕ) :
    Except String ℕ := do
  let maxStep := maxStep.getD 4
  if window.length = 0 then return current
  let observed ← div (window.map (·.time.iters)).sum window.length
  if observed = 0 then clampStep current (current * maxStep) maxStep
  else
    let next ← div (current * targetIters) observed
    clampStep current next maxStep

/-- `nextDifficulty`, with the exceptions of its divisions. -/
def nextDifficulty (parent : Anchor → Option Anchor) (sched : RetargetSchedule) :
    Option Anchor → Except String ℕ
  | none => .ok sched.base
  | some prev =>
    if (prev.height + 1) % sched.epoch ≠ 0 then .ok prev.difficulty
    else retarget prev.difficulty (ParentWalk.walk parent sched.window prev) sched.targetIters
      sched.maxStep

theorem div_eq {n d : ℕ} (h : d ≠ 0) : div n d = .ok (n / d) := if_neg h

theorem clampStep_eq {current next maxStep : ℕ} (h : 1 ≤ maxStep) :
    clampStep current next maxStep = .ok (Gavl.clampStep current next maxStep) := by
  unfold clampStep Gavl.clampStep
  rw [div_eq (by omega)]
  dsimp only [bind, Except.bind, pure, Except.pure]
  split_ifs <;> rfl

theorem retarget_eq {current : ℕ} {window : List Anchor} {targetIters : ℕ} {maxStep : Option ℕ}
    (h : 1 ≤ maxStep.getD 4) : retarget current window targetIters maxStep
      = .ok (Gavl.retarget current window targetIters maxStep) := by
  unfold retarget Gavl.retarget
  by_cases hlen : window.length = 0
  · rw [if_pos hlen]
    simp only [hlen, if_true]
    rfl
  · rw [if_neg hlen]
    simp only [hlen, if_false]
    rw [div_eq hlen]
    dsimp only [bind, Except.bind, pure, Except.pure]
    by_cases hobserved : (window.map (·.time.iters)).sum / window.length = 0
    · rw [if_pos hobserved, if_pos hobserved]
      exact clampStep_eq h
    · rw [if_neg hobserved, if_neg hobserved, div_eq hobserved]
      exact clampStep_eq h

/-- No division by zero occurs. -/
theorem nextDifficulty_eq {parent : Anchor → Option Anchor} {sched : RetargetSchedule}
    (h : 1 ≤ sched.maxStep.getD 4) (prev : Option Anchor) :
    nextDifficulty parent sched prev = .ok (Gavl.nextDifficulty parent sched prev) := by
  cases prev with
  | none => rfl
  | some prev =>
    simp only [nextDifficulty, Gavl.nextDifficulty]
    split_ifs
    · rfl
    · exact retarget_eq h

end Checked

/-! ## One retarget -/

/-- The range that one retarget stays in. -/
def InStep (maxStep current next : ℕ) : Prop :=
  max 1 (current / maxStep) ≤ next ∧ next ≤ current * maxStep

theorem inStep_clampStep {current maxStep : ℕ} (hcurrent : 1 ≤ current) (hstep : 1 ≤ maxStep)
    (next : ℕ) : InStep maxStep current (clampStep current next maxStep) := by
  have hlo : current / maxStep ≤ current := Nat.div_le_self _ _
  have hhi : current ≤ current * maxStep := Nat.le_mul_of_pos_right _ hstep
  unfold InStep clampStep
  dsimp only
  split_ifs <;> omega

theorem inStep_self {current maxStep : ℕ} (hcurrent : 1 ≤ current) (hstep : 1 ≤ maxStep) :
    InStep maxStep current current := by
  have hlo : current / maxStep ≤ current := Nat.div_le_self _ _
  have hhi : current ≤ current * maxStep := Nat.le_mul_of_pos_right _ hstep
  unfold InStep
  omega

theorem inStep_retarget {current : ℕ} {maxStep : Option ℕ} (hcurrent : 1 ≤ current)
    (hstep : 1 ≤ maxStep.getD 4) (window : List Anchor) (targetIters : ℕ) :
    InStep (maxStep.getD 4) current (retarget current window targetIters maxStep) := by
  unfold retarget
  dsimp only
  split_ifs
  · exact inStep_self hcurrent hstep
  · exact inStep_clampStep hcurrent hstep _
  · exact inStep_clampStep hcurrent hstep _

/-! ## One anchor after another -/

/-- What the difficulty and the weight of an anchor are to those of its parent. -/
structure Follows (sched : RetargetSchedule) (p a : Anchor) : Prop where
  weight_eq : a.weight = p.weight + a.difficulty
  height_eq : a.height = p.height + 1
  held : ¬ sched.epoch ∣ a.height → a.difficulty = p.difficulty
  inStep : 1 ≤ p.difficulty → InStep (sched.maxStep.getD 4) p.difficulty a.difficulty

namespace Follows

variable {sched : RetargetSchedule} {p a : Anchor}

theorem one_le (h : Follows sched p a) (hp : 1 ≤ p.difficulty) : 1 ≤ a.difficulty :=
  (le_max_left 1 _).trans (h.inStep hp).1

theorem weight_lt (h : Follows sched p a) (hp : 1 ≤ p.difficulty) : p.weight < a.weight := by
  have hweight := h.weight_eq
  have hone := h.one_le hp
  omega

end Follows

namespace AnchorChain

open Runs

variable {cfg : ChainConfig} {sched : RetargetSchedule} {c c₀ : AnchorChain} {a p : Anchor}
  {check : StateCheck} {heads : Heads}

/-- An accepted anchor follows its parent. -/
theorem Accepts.follows (h : c.Accepts cfg check a heads) (hp : c.parent a = some p)
    (hsched : cfg.schedule = some sched) (hstep : 1 ≤ sched.maxStep.getD 4) :
    Follows sched p a := by
  have hspec := h.spec
  rw [hp] at hspec
  have hheight := hspec.height_of_parent
  have hdifficulty : a.difficulty = nextDifficulty c.parent sched (some p) := by
    rw [hspec.difficulty_eq]
    unfold difficultyFor
    rw [hsched]
  refine ⟨?_, hheight.symm, fun hno => ?_, fun hone => ?_⟩
  · rw [← hspec.weight_of_parent, hspec.difficulty_eq]
  · rw [hdifficulty, nextDifficulty, if_pos]
    rw [← hheight] at hno
    exact fun hmod => hno (Nat.dvd_of_mod_eq_zero hmod)
  · rw [hdifficulty, nextDifficulty]
    split_ifs
    · exact inStep_self hone hstep
    · exact inStep_retarget hone hstep _ _

/-- Every anchor that was not there at the start has no link, or follows the parent it links to. -/
def Followed (sched : RetargetSchedule) (c₀ c : AnchorChain) : Prop :=
  ∀ a, c.Holds a → ¬ c₀.Holds a → a.link = none ∨ ∃ p, c.parent a = some p ∧ Follows sched p a

theorem followed_self : Followed sched c₀ c₀ := fun _ ha hnot => absurd ha hnot

theorem Followed.add (h : Followed sched c₀ c) (hsched : cfg.schedule = some sched)
    (hstep : 1 ≤ sched.maxStep.getD 4) (check : StateCheck) (a : Anchor) :
    Followed sched c₀ (c.add cfg check a).1 := by
  rcases add_cases c cfg check a with ⟨hsame, -⟩ | ⟨heads, hacc, hadd⟩
  · rw [hsame]
    exact h
  rw [hadd]
  intro b hb hnot
  rw [sameStore_choose.holds] at hb
  rw [sameStore_choose.parent]
  rcases holds_store_cases hb with rfl | hb
  · rw [hacc.parent_store_self]
    cases hp : c.parent b with
    | some p => exact Or.inr ⟨p, rfl, hacc.follows hp hsched hstep⟩
    | none => exact Or.inl (not_not.mp fun hlink => hacc.known hlink hp)
  · rcases h b hb hnot with hlink | ⟨p, hp, hfollows⟩
    · exact Or.inl hlink
    · exact Or.inr ⟨p, parent_store_of_some hacc.fresh hp, hfollows⟩

theorem followed_run (hsched : cfg.schedule = some sched) (hstep : 1 ≤ sched.maxStep.getD 4)
    (calls : List (Anchor × StateCheck)) : Followed sched c₀ (run (addStep cfg) c₀ calls) :=
  inv_run (Followed sched c₀) (fun _ call h => h.add hsched hstep call.2 call.1) followed_self calls

/-- A chain of parents whose anchors were added is a chain of anchors that follow one another. -/
theorem Followed.isChain (h : Followed sched c₀ c) {r : Anchor} {l : List Anchor}
    (hchain : (r :: l).IsChain (fun p a => c.parent a = some p))
    (hheld : ∀ a ∈ l, c.Holds a ∧ ¬ c₀.Holds a) : (r :: l).IsChain (Follows sched) := by
  induction l generalizing r with
  | nil => exact List.isChain_singleton r
  | cons b l ih =>
    obtain ⟨hb, hrest⟩ := List.isChain_cons_cons.mp hchain
    obtain ⟨hheldb, hheld⟩ := List.forall_mem_cons.mp hheld
    refine List.isChain_cons_cons.mpr ⟨?_, ih hrest hheld⟩
    rcases h b hheldb.1 hheldb.2 with hlink | ⟨p, hp, hfollows⟩
    · rw [parent, hlink] at hb
      exact absurd hb (by simp)
    · rw [hb] at hp
      exact Option.some.inj hp ▸ hfollows

end AnchorChain

/-! ## Chains -/

section
variable {sched : RetargetSchedule} {r : Anchor} {l : List Anchor}

/-- Along anchors that follow one another difficulties stay positive. -/
theorem one_le_difficulty_of_isChain (h : (r :: l).IsChain (Follows sched))
    (hr : 1 ≤ r.difficulty) : ∀ a ∈ l, 1 ≤ a.difficulty := by
  induction l generalizing r with
  | nil => exact fun a ha => absurd ha List.not_mem_nil
  | cons b l ih =>
    obtain ⟨hb, hrest⟩ := List.isChain_cons_cons.mp h
    intro a ha
    rcases List.mem_cons.mp ha with rfl | ha
    · exact hb.one_le hr
    · exact ih hrest (hb.one_le hr) a ha

/-- Each difficulty is its predecessor's, or a bounded step from it at an epoch boundary. -/
theorem steps_of_isChain (h : (r :: l).IsChain (Follows sched)) (hr : 1 ≤ r.difficulty) :
    (r :: l).IsChain (fun p a => (p.difficulty ≠ a.difficulty → sched.epoch ∣ a.height) ∧
      InStep (sched.maxStep.getD 4) p.difficulty a.difficulty) := by
  induction l generalizing r with
  | nil => exact List.isChain_singleton r
  | cons b l ih =>
    obtain ⟨hb, hrest⟩ := List.isChain_cons_cons.mp h
    refine List.isChain_cons_cons.mpr ⟨⟨fun hne => ?_, hb.inStep hr⟩, ih hrest (hb.one_le hr)⟩
    exact not_not.mp fun hno => hne (hb.held hno).symm

/-- The weight at the end is the weight at the start and the difficulties between. -/
theorem weight_getLast_of_isChain (h : (r :: l).IsChain (Follows sched)) :
    ((r :: l).getLast (List.cons_ne_nil r l)).weight = r.weight + (l.map (·.difficulty)).sum := by
  induction l generalizing r with
  | nil => rfl
  | cons b l ih =>
    obtain ⟨hb, hrest⟩ := List.isChain_cons_cons.mp h
    rw [List.getLast_cons (List.cons_ne_nil b l), ih hrest, List.map_cons, List.sum_cons,
      hb.weight_eq, Nat.add_assoc]

/-- Weights grow along anchors that follow one another. -/
theorem weight_pairwise_of_isChain (h : (r :: l).IsChain (Follows sched))
    (hr : 1 ≤ r.difficulty) : (r :: l).Pairwise (fun p a => p.weight < a.weight) := by
  have hlt : (r :: l).IsChain (fun p a => p.weight < a.weight) := by
    induction l generalizing r with
    | nil => exact List.isChain_singleton r
    | cons b l ih =>
      obtain ⟨hb, hrest⟩ := List.isChain_cons_cons.mp h
      exact List.isChain_cons_cons.mpr ⟨hb.weight_lt hr, ih hrest (hb.one_le hr)⟩
  have htrans : IsTrans Anchor (fun p a => p.weight < a.weight) := ⟨fun _ _ _ => lt_trans⟩
  exact List.isChain_iff_pairwise.mp hlt

end

namespace AnchorChain

open Runs

/-- **Difficulty and weight stay sound on every chain of accepted anchors.** No division throws in
the difficulty of any next anchor; above a root whose difficulty is positive every difficulty is,
moves at epoch boundaries only and within the clamp, and weights add up and grow. -/
theorem difficulty_sound (cfg : ChainConfig) (sched : RetargetSchedule)
    (hsched : cfg.schedule = some sched) (hstep : 1 ≤ sched.maxStep.getD 4) (c₀ : AnchorChain)
    (calls : List (Anchor × StateCheck)) (c : AnchorChain) (hc : run (addStep cfg) c₀ calls = c) :
    (∀ prev, Checked.nextDifficulty c.parent sched prev = .ok (c.difficultyFor cfg prev)) ∧
      ∀ (r : Anchor) (l : List Anchor), 1 ≤ r.difficulty →
        (r :: l).IsChain (fun p a => c.parent a = some p) →
        (∀ a ∈ l, c.Holds a ∧ ¬ c₀.Holds a) →
          (∀ a ∈ r :: l, 1 ≤ a.difficulty) ∧
            (r :: l).IsChain (fun p a =>
              (p.difficulty ≠ a.difficulty → sched.epoch ∣ a.height) ∧
                InStep (sched.maxStep.getD 4) p.difficulty a.difficulty) ∧
            ((r :: l).getLast (List.cons_ne_nil r l)).weight
              = r.weight + (l.map (·.difficulty)).sum ∧
            (r :: l).Pairwise (fun p a => p.weight < a.weight) := by
  have hfollowed : Followed sched c₀ c := hc ▸ followed_run hsched hstep calls
  refine ⟨fun prev => ?_, fun r l hr hchain hheld => ?_⟩
  · rw [Checked.nextDifficulty_eq hstep]
    unfold difficultyFor
    rw [hsched]
  have hfollows := hfollowed.isChain hchain hheld
  refine ⟨fun a ha => ?_, steps_of_isChain hfollows hr, weight_getLast_of_isChain hfollows,
    weight_pairwise_of_isChain hfollows hr⟩
  rcases List.mem_cons.mp ha with rfl | ha
  · exact hr
  · exact one_le_difficulty_of_isChain hfollows hr a ha

namespace Retargeted

open Regress

/-- A schedule that retargets at every anchor. -/
def config : ChainConfig := { openConfig with schedule := some ⟨1, 60, 1, 8, none⟩ }

/-- Block 0 served no iterations, so the difficulty rises by the whole step. -/
def child : Anchor := assembled config.crypto 4 (some root) "p" ∅ ∅

def added : AnchorChain := run (addStep config) (rootedAt root ∅) [(child, fun _ _ _ => true)]

end Retargeted

open Retargeted Regress in
/-- A chain of two anchors across an epoch boundary. -/
theorem difficulty_sound_retargeted : ∃ r a, added.parent a = some r ∧ r.difficulty = 1 ∧
    a.difficulty = 4 ∧ InStep 4 r.difficulty a.difficulty ∧ a.weight = r.weight + 4 ∧
      r.weight < a.weight := by
  obtain ⟨hchild, hparent, hne⟩ :
      (added.get child.id).map (fun a => (a.id, a.difficulty)) = some (child.id, 4) ∧
      ((added.get child.id).bind added.parent).map (fun r => r.difficulty) = some 1 ∧
      child.id ≠ root.id := by decide +kernel
  obtain ⟨a, ha, hfields⟩ := Option.map_eq_some_iff.mp hchild
  obtain ⟨hid, hdifficulty⟩ := Prod.mk.inj hfields
  rw [ha, Option.bind_some] at hparent
  obtain ⟨r, hr, hone⟩ := Option.map_eq_some_iff.mp hparent
  have hinst : (rootedAt root ∅).Installed root ∅ :=
    installGenesis_ok (installGenesis_new rfl rfl rfl :
      new.installGenesis openConfig root ∅ = .ok (rootedAt root ∅))
  have hheld : added.Holds a ∧ ¬ (rootedAt root ∅).Holds a := by
    refine ⟨?_, fun hold => hne ?_⟩
    · rw [← hid] at ha
      exact ha
    · rw [← hid, hinst.holds_iff.mp hold]
  obtain ⟨-, hsteps, hweight, hlt⟩ := (difficulty_sound config ⟨1, 60, 1, 8, none⟩ rfl (by decide)
    (rootedAt root ∅) [(child, fun _ _ _ => true)] added rfl).2 r [a] (by rw [hone])
    (List.isChain_cons_cons.mpr ⟨hr, List.isChain_singleton a⟩)
    (fun b hb => by rw [List.mem_singleton.mp hb]; exact hheld)
  refine ⟨r, a, hr, hone, hdifficulty, (List.isChain_cons_cons.mp hsteps).1.2, ?_, ?_⟩
  · rw [← hdifficulty]
    simpa using hweight
  · exact (List.pairwise_cons.mp hlt).1 a List.mem_cons_self

end AnchorChain

end Gavl
