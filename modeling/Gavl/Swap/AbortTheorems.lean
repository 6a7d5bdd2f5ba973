import Gavl.Swap.SessionTheorems

/-!
# A decided abort

A maker that has decided to abort is over and has no lock: its ticks return before they get to the
board, so that only the tick that decides it posts the abort.
-/

namespace Gavl

open Runs

namespace SwapSession

variable {E : Engine} {c : Ctx} {r : Reads}

/-! ## What stands -/

/-- A side that has decided to abort is over, and has no lock. -/
def AbortStands (side : Side) : Prop :=
  side.abort.isSome = true → side.stage.terminal = true ∧ side.myLock = none

theorem kept_abortStands : Kept E AbortStands where
  label _ _ _ h := h
  act c r k₀ k k' hact h := by
    -- an act that makes a side go on finds it going on, so that nothing was decided
    have hnone : k.side.stage.terminal = false ∨ k.side.myLock.isSome = true →
        k.side.abort = none := fun halive => by
      cases habort : k.side.abort with
      | none => rfl
      | some reason =>
        obtain ⟨hstage, hfree⟩ := h (by rw [habort]; rfl)
        rw [hstage, hfree] at halive
        simp at halive
    cases hact with
    | look hlook =>
      obtain ⟨verdict, note, rfl⟩ := hlook
      exact h
    | settle halive hgive =>
      intro habort
      obtain hstage | halive := halive
      · exact ⟨hstage, (h habort).2⟩
      · exact absurd habort (by simp [hnone halive])
    | post => simpa using h
    | abort hrole hfree halive hgive =>
      intro _
      simp [Tick.abort, hfree, SwapStage.terminal]
    | adopt hmine hpick hfree halive =>
      exact fun habort => absurd habort (by simp [Tick.adoptLock, hnone (Or.inl halive)])
    | intend hmine hfree halive hold =>
      exact fun habort => absurd habort (by simp [hnone (Or.inl halive)])
    | locked hlast halive =>
      exact fun habort => absurd habort (by simp [hnone (Or.inl halive)])
    | _ => exact h

theorem postBlocked_congr {k k' : Tick} {kind : PostKind}
    (h : k.posts.get? (k.side.role, kind) = k'.posts.get? (k'.side.role, kind)) :
    k.postBlocked c kind = k'.postBlocked c kind := by
  unfold Tick.postBlocked
  rw [h]

theorem get?_posts_postOp {k : Tick} {body : PostBody} (h : body.kind ≠ .abort) :
    (k.postOp c body).posts.get? (k.side.role, .abort) = k.posts.get? (k.side.role, .abort) := by
  unfold Tick.postOp
  split_ifs
  · rfl
  · exact OrderedMap.get?_set_of_ne _ _ fun heq => h (Prod.mk.inj heq).2

theorem post_mem_abort {k : Tick} {reason : String} (hopen : k.postBlocked c .abort = false) :
    .post k.side.identity .abort ∈ (k.abort c reason).effects := by
  have hsame : ((k.set { k.side with
      abort := some reason, stage := .cancelled, note := some reason }).postBlocked c .abort)
      = k.postBlocked c .abort := postBlocked_congr rfl
  unfold Tick.abort Tick.postOp
  rw [show PostBody.abort.kind = .abort from rfl, hsame, hopen]
  exact List.mem_append_right _ (List.mem_singleton.mpr rfl)

/-- Nothing is decided, and no more held back than at first; or the abort was posted. -/
theorem undecided_or_posted {k₀ k : Tick} (h : Tick.Acts E c r k₀ k) (hnone : k₀.side.abort = none)
    (hopen : k₀.postBlocked c .abort = false) :
    (k.side.abort = none ∧ k.posts.get? (k.side.role, .abort)
      = k₀.posts.get? (k₀.side.role, .abort)) ∨ .post k.side.identity .abort ∈ k.effects := by
  induction h with
  | refl => exact Or.inl ⟨hnone, rfl⟩
  | @tail k k' hk hact ih =>
    obtain ⟨hnone, hposts⟩ | hposted := ih
    · cases hact with
      | look hlook =>
        obtain ⟨verdict, note, rfl⟩ := hlook
        exact Or.inl ⟨hnone, hposts⟩
      | post hkind =>
        rw [Tick.postOp_side]
        exact Or.inl ⟨hnone, (get?_posts_postOp hkind).trans hposts⟩
      | abort hrole hfree halive hgive =>
        rw [Tick.Act.party (.abort hrole hfree halive hgive) |>.2]
        exact Or.inr (post_mem_abort ((postBlocked_congr hposts).trans hopen))
      | _ => exact Or.inl ⟨hnone, hposts⟩
    · rw [hact.party.2]
      obtain hsame | ⟨e, hmore, -⟩ := hact.effects
      · rw [hsame]
        exact Or.inr hposted
      · rw [hmore]
        exact Or.inr (List.mem_append_left _ hposted)

/-- A side that is over does nothing. -/
theorem effects_of_over {k : Tick} (hrole : k.side.role = .maker)
    (hstage : k.side.stage.terminal = true) (hfree : k.side.myLock = none) :
    (k.step E c r).effects = k.effects := by
  unfold Tick.step
  rw [hrole]
  show (Tick.stepMaker E c r k).effects = _
  unfold Tick.stepMaker
  extract_lets t key myKey
  split_ifs
  · rfl
  · rfl
  · simp_all

/-- **A decided abort is posted by the tick that decides it, and by no other.** -/
theorem abort_posted_iff (E : Engine) (identity : String) (steps : List SessionStep) (c : Ctx)
    (r : Reads) (s : SwapSession) (hs : s = run (step E) (fresh .maker identity) steps)
    (hopen : s.tick.postBlocked c .abort = false)
    (habort : (s.tick.step E c r).side.abort.isSome = true) :
    .post identity .abort ∈ (s.tick.step E c r).effects ↔ s.side.abort = none := by
  have hstands : AbortStands s.side := by
    rw [hs]
    have hfresh : AbortStands (Side.new .maker identity) := fun h => by cases h
    exact (kept_abortStands.run (s := fresh .maker identity) ⟨hfresh, hfresh⟩ steps).1
  have hparty : s.side.role = .maker ∧ s.side.identity = identity := by
    rw [hs]
    exact ((kept_party .maker identity).run (s := fresh .maker identity) ⟨⟨rfl, rfl⟩, ⟨rfl, rfl⟩⟩
      steps).1
  constructor
  · intro hposted
    by_contra hdecided
    obtain ⟨hstage, hfree⟩ := hstands (Option.isSome_iff_ne_none.mpr hdecided)
    rw [effects_of_over (k := s.tick) hparty.1 hstage hfree] at hposted
    cases hposted
  · intro hnone
    have hacts : Tick.Acts E c r s.tick (s.tick.step E c r) := Tick.acts_step
    obtain ⟨hstill, -⟩ | hposted := undecided_or_posted hacts hnone hopen
    · rw [hstill] at habort
      cases habort
    · rw [hacts.party.2] at hposted
      rwa [← hparty.2]

/-- Explorers that show the taker's lock already taken back. -/
def takenBack : Reads :=
  { emptyReads 0 with theirsBefore := .ok ⟨[sampleSpend [], samplePayment 3300 90], 100⟩ }

/-- A maker that has decided to abort, and failed to post it. -/
def abandoned : SwapSession :=
  run (step sampleEngine) (fresh .maker "maker")
    [.pass (sampleCtx 330 2 20) takenBack false, .posted .abort (.error "offline")]

/-- The theorem at the tick that decides. -/
theorem abort_posted_iff_decides :
    .post "maker" .abort ∈
        ((fresh .maker "maker").tick.step sampleEngine (sampleCtx 330 2 20) takenBack).effects ↔
      (fresh .maker "maker").side.abort = none :=
  abort_posted_iff sampleEngine "maker" [] (sampleCtx 330 2 20) takenBack _ rfl (by decide +kernel)
    (by decide +kernel)

/-- After the failed post no tick posts the abort, while the board keeps the match in escrow. -/
theorem abort_not_reposted : abandoned.side.abort.isSome = true ∧
    (sampleCtx 330 2 42).m = some (sampleMatch 330) ∧ (sampleMatch 330).status = .escrow ∧
      (sampleMatch 330).makerLock = none ∧ abandoned.tick.postBlocked (sampleCtx 330 2 42) .abort = false ∧
        .post "maker" .abort ∉
          (abandoned.tick.step sampleEngine (sampleCtx 330 2 42) (emptyReads 60000)).effects := by
  decide +kernel

end SwapSession

end Gavl
