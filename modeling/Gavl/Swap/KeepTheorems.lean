import Gavl.Swap.FundTheorems

/-!
# Funded coins are not left behind

A side that is over has no lock on record, or has seen its lock spent. Where the scans of a side
that has funded list what it funded, it is over with that lock on record only.
-/

namespace Gavl

open Runs

namespace Tick

variable {E : Engine} {c : Ctx} {r : Reads} {k₀ k k' : Tick}

/-- What the acts of one tick keep of a side holds of the side it leaves, and of all it saves. -/
theorem Acts.inv_of_acts {I : Side → Prop}
    (hact : ∀ k k', Acts E c r k₀ k → Act E c r k₀ k k' → I k.side → I k'.side)
    (h : Acts E c r k₀ k) (hI : I k₀.side) (hk₀ : k₀.effects = []) :
    I k.side ∧ ∀ side, .save side ∈ k.effects → I side := by
  induction h with
  | refl => exact ⟨hI, by simp [hk₀]⟩
  | @tail k k' hk hstep ih =>
    have hk' : I k'.side := hact k k' hk hstep ih.1
    refine ⟨hk', fun side hmem => ?_⟩
    obtain hsame | ⟨e, hmore, hsave⟩ := hstep.effects
    · rw [hsame] at hmem
      exact ih.2 side hmem
    · rw [hmore, List.mem_append, List.mem_singleton] at hmem
      obtain hmem | heq := hmem
      · exact ih.2 side hmem
      · rw [hsave side heq.symm]
        exact hk'

/-! ## Spent locks -/

/-- The lock of a side is among these outputs. -/
def LockIn (spent : List Outpoint) (side : Side) : Prop := ∃ lock ∈ spent, side.myLock = some lock

/-- A maker claims once its own lock is spent. -/
def ClaimsSpent (spent : List Outpoint) (side : Side) : Prop :=
  side.role = .maker → side.claim.isSome = true → LockIn spent side

/-- A side with a lock is over once the lock is spent. -/
def EndsSpent (spent : List Outpoint) (side : Side) : Prop :=
  side.stage.terminal = true → side.myLock.isSome = true → LockIn spent side

/-- The outputs hold all that the tick's scan of my HTLC shows spent. -/
def Shown (E : Engine) (c : Ctx) (r : Reads) (role : Role) (spent : List Outpoint) : Prop :=
  ∀ mine o, c.scanMine E r role = .ok mine → o ∈ mine.outs → o.spend.isSome = true →
    o.outpoint ∈ spent

variable {spent : List Outpoint}

theorem LockIn.mono {spent' : List Outpoint} {side : Side} (h : LockIn spent side)
    (hsub : spent ⊆ spent') : LockIn spent' side := by
  obtain ⟨lock, hmem, hlock⟩ := h
  exact ⟨lock, hsub hmem, hlock⟩

theorem lockIn_of_seesSpent (h : SeesSpent E c r k₀ k)
    (hshown : Shown E c r k₀.side.role spent) : LockIn spent k.side := by
  obtain ⟨mine, o, hscan, hmem, hlock, hspend⟩ := h
  exact ⟨o.outpoint, hshown mine o hscan hmem hspend, hlock⟩

/-- A side with the role, the claim and the lock of another. -/
theorem ClaimsSpent.congr {side side' : Side} (h : ClaimsSpent spent side)
    (hrole : side'.role = side.role) (hclaim : side'.claim = side.claim)
    (hlock : side'.myLock = side.myLock) : ClaimsSpent spent side' := by
  unfold ClaimsSpent LockIn
  rw [hrole, hclaim, hlock]
  exact h

theorem EndsSpent.congr {side side' : Side} (h : EndsSpent spent side)
    (hstage : side'.stage = side.stage) (hlock : side'.myLock = side.myLock) :
    EndsSpent spent side' := by
  unfold EndsSpent LockIn
  rw [hstage, hlock]
  exact h

/-- A maker without a lock has no claim. -/
theorem ClaimsSpent.of_free {side side' : Side} (h : ClaimsSpent spent side)
    (hfree : side.myLock = none) (hrole : side'.role = side.role)
    (hclaim : side'.claim = side.claim) : ClaimsSpent spent side' := by
  intro hmaker hsome
  obtain ⟨lock, -, hlock⟩ := h (hrole ▸ hmaker) (hclaim ▸ hsome)
  rw [hfree] at hlock
  cases hlock

theorem Act.claimsSpent (h : Act E c r k₀ k k') (hparty : k.side.role = k₀.side.role)
    (hshown : Shown E c r k₀.side.role spent) (hk : ClaimsSpent spent k.side) :
    ClaimsSpent spent k'.side := by
  cases h with
  | look hlook =>
    obtain ⟨verdict, note, rfl⟩ := hlook
    exact hk.congr rfl rfl rfl
  | post => exact hk.congr (by simp) (by simp) (by simp)
  | abort => exact hk.congr (by simp [Tick.abort]) (by simp [Tick.abort]) (by simp [Tick.abort])
  | adopt _ _ hfree => exact hk.of_free hfree rfl rfl
  | locked _ _ hfree => exact hk.of_free hfree rfl rfl
  | claim _ _ _ hspent =>
    intro hmaker _
    obtain ⟨lock, hmem, hlock⟩ :=
      lockIn_of_seesSpent (hspent (hparty.symm.trans hmaker)) hshown
    exact ⟨lock, hmem, hlock⟩
  | _ => exact hk.congr rfl rfl rfl

theorem Act.endsSpent (h : Act E c r k₀ k k') (hparty : k.side.role = k₀.side.role)
    (hours : c.Ours E k₀.side.role) (hshown : Shown E c r k₀.side.role spent)
    (hclaims : ClaimsSpent spent k.side) (hk : EndsSpent spent k.side) :
    EndsSpent spent k'.side := by
  cases h with
  | look hlook =>
    obtain ⟨verdict, note, rfl⟩ := hlook
    exact hk.congr rfl rfl
  | @settle stage note _ hover =>
    intro hstage hlock
    cases hover hstage with
    | foreign hforeign => exact absurd hours hforeign
    | unlocked hfree =>
      have hnone : k.side.myLock = none := hfree
      simp [hnone] at hlock
    | spent hspent => exact lockIn_of_seesSpent hspent hshown
    | claimed hrole _ hclaim => exact hclaims (hparty.trans hrole) hclaim
  | post => exact hk.congr (by simp) (by simp)
  | abort _ hfree =>
    intro _ hlock
    simp [Tick.abort, hfree] at hlock
  | adopt _ _ _ halive =>
    intro hstage
    have hover : k.side.stage.terminal = true := hstage
    simp [halive] at hover
  | locked _ halive =>
    intro hstage
    have hover : k.side.stage.terminal = true := hstage
    simp [halive] at hover
  | _ => exact hk.congr rfl rfl

/-- One lock at most reaches an explorer in a tick. -/
theorem Asked.only {saved : Side} {lock lock' : Outpoint} (h : Asked E c r k₀ saved k)
    (hlock : lock ∈ reachedLocks k.effects) (hlock' : lock' ∈ reachedLocks k.effects) :
    lock = lock' := by
  have honce := h.once
  generalize reachedLocks k.effects = locks at *
  rcases locks with _ | ⟨a, _ | ⟨b, locks⟩⟩
  · cases hlock
  · exact (List.mem_singleton.mp hlock).trans (List.mem_singleton.mp hlock').symm
  · rw [List.length_cons, List.length_cons] at honce
    omega

/-! ## A side that has funded -/

/-- A side that has funded a lock knows of no other, and is not over without it. -/
structure Holds (lock : Outpoint) (side : Side) : Prop where
  same : side.myLock = none ∨ side.myLock = some lock
  locked : side.stage.terminal = true → side.myLock.isSome = true

variable {lock : Outpoint}

theorem Holds.congr {side side' : Side} (h : Holds lock side) (hstage : side'.stage = side.stage)
    (hlock : side'.myLock = side.myLock) : Holds lock side' :=
  ⟨hlock ▸ h.same, hstage ▸ hlock ▸ h.locked⟩

/-- Where a tick begins without a lock, its scan picks the funded one. -/
def Picks (E : Engine) (c : Ctx) (r : Reads) (k₀ : Tick) (lock : Outpoint) : Prop :=
  k₀.side.myLock = none → ∀ mine, c.scanMine E r k₀.side.role = .ok mine →
    ∃ o, pickExact mine.outs (c.terms.myAmount k₀.side.role) false = some o ∧ lock = o.outpoint

theorem Picks.not_seesNoLock (h : Picks E c r k₀ lock) (hfree : k₀.side.myLock = none) {mine : Scan} :
    ¬SeesNoLock E c r k₀.side.role mine := by
  rintro ⟨hscan, hnone⟩
  obtain ⟨o, hpick, -⟩ := h hfree mine hscan
  rw [hnone] at hpick
  cases hpick

/-- Such a tick does not fund again. -/
theorem Picks.unasked (h : Picks E c r k₀ lock) (hk : Acts E c r k₀ k) (hk₀ : k₀.effects = []) :
    Unasked k.effects := by
  obtain hunasked | hasked := hk.unasked_or_asked hk₀ k₀.side
  · exact hunasked
  · obtain ⟨mine, hunseen⟩ := hasked.opened.unseen
    exact absurd hunseen (h.not_seesNoLock hasked.opened.free)

theorem Act.holds (h : Act E c r k₀ k k') (hk : Acts E c r k₀ k) (hk₀ : k₀.effects = [])
    (hours : c.Ours E k₀.side.role) (hpicks : Picks E c r k₀ lock) (hside : Holds lock k.side) :
    Holds lock k'.side := by
  have hstart : k.side.myLock = none → k₀.side.myLock = none := (hk.intent hk₀).free
  cases h with
  | look hlook =>
    obtain ⟨verdict, note, rfl⟩ := hlook
    exact hside.congr rfl rfl
  | @settle stage note _ hover =>
    refine ⟨hside.same, fun hstage => ?_⟩
    show k.side.myLock.isSome = true
    cases hover hstage with
    | foreign hforeign => exact absurd hours hforeign
    | unlocked hfree hgive =>
      obtain ⟨-, mine, hunseen⟩ := hgive
      exact absurd hunseen (hpicks.not_seesNoLock (hstart hfree))
    | spent hspent =>
      obtain ⟨mine, o, -, -, hlock, -⟩ := hspent
      rw [hlock]
      rfl
    | claimed _ hlock => exact hlock
  | post => exact hside.congr (by simp) (by simp)
  | abort _ hfree _ hgive =>
    obtain ⟨-, mine, hunseen⟩ := hgive
    exact absurd hunseen (hpicks.not_seesNoLock (hstart hfree))
  | adopt hmine hpick hfree =>
    obtain ⟨o', hpick', rfl⟩ := hpicks (hstart hfree) _ hmine
    obtain rfl := Option.some.inj (hpick.symm.trans hpick')
    exact ⟨Or.inr rfl, fun _ => rfl⟩
  | locked hlast =>
    have hreached := (hpicks.unasked hk hk₀ _ (List.mem_of_getLast? hlast)).2
    cases hreached
  | _ => exact hside.congr rfl rfl

end Tick

namespace Life

variable {E : Engine} {l : Life} {i : TimedStep} {c : Ctx} {r : Reads} {lock : Outpoint}

/-- A step whose tick, once something is funded, is of this identity's match, and whose scan, while
no lock is on record, picks what was funded. -/
def Attends (E : Engine) (l : Life) (i : TimedStep) : Prop :=
  ∀ c r, i.step.tick? = some (c, r) → ∀ f ∈ l.funded,
    c.Ours E l.session.side.role ∧ Tick.Picks E c r l.session.tick f.lock

/-- A side that is over has every lock it funded on record, and a scan has shown it spent. -/
def KeepsCoins (l : Life) : Prop :=
  SwapSession.Both (fun side => side.stage.terminal = true →
    ∀ f ∈ l.funded, side.myLock = some f.lock ∧ f.lock ∈ l.spent) l.session

/-- What a side in memory or in its file has kept of all it funded. -/
structure Accounted (funded : List Funding) (spent : List Outpoint) (side : Side) : Prop where
  claims : Tick.ClaimsSpent spent side
  holds : ∀ f ∈ funded, Tick.Holds f.lock side
  ends : funded ≠ [] → Tick.EndsSpent spent side

theorem Accounted.mono {funded : List Funding} {spent spent' : List Outpoint} {side : Side}
    (h : Accounted funded spent side) (hsub : spent ⊆ spent') : Accounted funded spent' side where
  claims hmaker hclaim := (h.claims hmaker hclaim).mono hsub
  holds := h.holds
  ends hne hstage hlock := (h.ends hne hstage hlock).mono hsub

theorem Accounted.congr {funded : List Funding} {spent : List Outpoint} {side side' : Side}
    (h : Accounted funded spent side) (hrole : side'.role = side.role)
    (hstage : side'.stage = side.stage) (hclaim : side'.claim = side.claim)
    (hlock : side'.myLock = side.myLock) : Accounted funded spent side' where
  claims := h.claims.congr hrole hclaim hlock
  holds f hf := (h.holds f hf).congr hstage hlock
  ends hne := (h.ends hne).congr hstage hlock

/-- A side has, in memory and in its file. -/
def Kept (l : Life) : Prop := SwapSession.Both (Accounted l.funded l.spent) l.session

theorem keepsCoins_of_accounted (h : Kept l) : KeepsCoins l := by
  have hside : ∀ side, Accounted l.funded l.spent side → side.stage.terminal = true →
      ∀ f ∈ l.funded, side.myLock = some f.lock ∧ f.lock ∈ l.spent := by
    intro side hacc hstage f hf
    have hlocked := (hacc.holds f hf).locked hstage
    obtain ⟨lock, hmem, hlock⟩ := hacc.ends (List.ne_nil_of_mem hf) hstage hlocked
    obtain hnone | hsame := (hacc.holds f hf).same
    · simp [hnone] at hlocked
    · rw [hsame] at hlock
      obtain rfl := Option.some.inj hlock
      exact ⟨hsame, hmem⟩
  exact ⟨hside _ h.1, hside _ h.2⟩

theorem shown_step (hi : i.step.tick? = some (c, r)) :
    Tick.Shown E c r l.session.side.role (l.step E i).spent := by
  intro mine o hscan hmem hspend
  show o.outpoint ∈ l.spent ++ shownSpent E l i
  refine List.mem_append_right _ ?_
  unfold shownSpent
  rw [hi]
  simp only [hscan]
  exact List.mem_map_of_mem (List.mem_filter.mpr ⟨hmem, hspend⟩)

/-- A tick of a side that has funded. -/
theorem accounted_of_funded (h : Kept l) (hattends : Attends E l i)
    (hi : i.step.tick? = some (c, r)) (hne : l.funded ≠ []) : Kept (l.step E i) := by
  obtain ⟨k, hacts, heffects, hboth⟩ := SwapSession.exists_acts (E := E) (s := l.session) hi
  obtain ⟨f, hf⟩ := List.exists_mem_of_ne_nil _ hne
  have hunasked := (hattends c r hi f hf).2.unasked hacts rfl
  have hfunded : (l.step E i).funded = l.funded := by
    show l.funded ++ fundings E l i = _
    rw [fundings_of_some hi, ← heffects, hunasked.reachedLocks, List.map_nil, List.append_nil]
  unfold Kept
  rw [hfunded]
  have hsub : l.spent ⊆ (l.step E i).spent := List.subset_append_left _ _
  have hours := (hattends c r hi f hf).1
  have hkeep : ∀ k k', Tick.Acts E c r l.session.tick k → Tick.Act E c r l.session.tick k k' →
      Accounted l.funded (l.step E i).spent k.side →
        Accounted l.funded (l.step E i).spent k'.side := by
    intro k k' hk hact hside
    have hparty : k.side.role = l.session.tick.side.role := hk.party.1
    exact ⟨hact.claimsSpent hparty (shown_step hi) hside.claims,
      fun g hg => hact.holds hk rfl hours (hattends c r hi g hg).2 (hside.holds g hg),
      fun hne => hact.endsSpent hparty hours (shown_step hi) hside.claims (hside.ends hne)⟩
  obtain ⟨hside, hsaves⟩ := hacts.inv_of_acts hkeep (h.1.mono hsub) rfl
  exact hboth _ hside (SwapSession.fileAfter_of_saves (h.2.mono hsub) hsaves)

/-- A tick of a side that has funded nothing before. -/
theorem accounted_of_unfunded (h : Kept l) (hi : i.step.tick? = some (c, r))
    (hnil : l.funded = []) : Kept (l.step E i) := by
  obtain ⟨k, hacts, heffects, hboth⟩ := SwapSession.exists_acts (E := E) (s := l.session) hi
  have hsub : l.spent ⊆ (l.step E i).spent := List.subset_append_left _ _
  have hfunded : (l.step E i).funded
      = (reachedLocks k.effects).map (funding E c l.session.side.role i.fundedAt) := by
    show l.funded ++ fundings E l i = _
    rw [hnil, fundings_of_some hi, heffects, List.nil_append]
  have hclaims : ∀ k k', Tick.Acts E c r l.session.tick k → Tick.Act E c r l.session.tick k k' →
      Tick.ClaimsSpent (l.step E i).spent k.side → Tick.ClaimsSpent (l.step E i).spent k'.side :=
    fun k k' hk hact hkeep => hact.claimsSpent hk.party.1 (shown_step hi) hkeep
  obtain ⟨hside, hsaves⟩ := hacts.inv_of_acts hclaims (h.1.mono hsub).claims rfl
  have hfile : Tick.ClaimsSpent (l.step E i).spent
      (SwapSession.fileAfter l.session.saved k.effects) :=
    SwapSession.fileAfter_of_saves (h.2.mono hsub).claims hsaves
  unfold Kept
  rw [hfunded]
  obtain hunasked | hasked := hacts.unasked_or_asked rfl l.session.saved
  · rw [hunasked.reachedLocks, List.map_nil]
    exact hboth _ ⟨hside, by simp, by simp⟩ ⟨hfile, by simp, by simp⟩
  · -- the tick began without a lock, so nothing it saves was over before
    have hfree : l.session.tick.side.myLock = none := hasked.opened.free
    have hends : ∀ k k', Tick.Acts E c r l.session.tick k → Tick.Act E c r l.session.tick k k' →
        (Tick.ClaimsSpent (l.step E i).spent k.side ∧ Tick.EndsSpent (l.step E i).spent k.side) →
          Tick.ClaimsSpent (l.step E i).spent k'.side ∧
            Tick.EndsSpent (l.step E i).spent k'.side := by
      intro k k' hk hact hside
      exact ⟨hclaims k k' hk hact hside.1,
        hact.endsSpent hk.party.1 hasked.opened.ours (shown_step hi) hside.1 hside.2⟩
    obtain ⟨hkeep, hkeeps⟩ := hacts.inv_of_acts (I := fun side =>
        Tick.ClaimsSpent (l.step E i).spent side ∧ Tick.EndsSpent (l.step E i).spent side) hends
      ⟨(h.1.mono hsub).claims, fun _ hlock => by simp [hfree] at hlock⟩ rfl
    have hholds : ∀ side, Tick.Sound r (reachedLocks k.effects) side →
        ∀ f ∈ (reachedLocks k.effects).map (funding E c l.session.side.role i.fundedAt),
          Tick.Holds f.lock side := by
      intro side hsound f hf
      obtain ⟨lock, hmem, rfl⟩ := List.mem_map.mp hf
      obtain hpending | ⟨other, hother, hlock⟩ := hsound
      · exact ⟨Or.inl hpending.free, fun hstage => by simp [hpending.alive] at hstage⟩
      · exact ⟨Or.inr (hasked.only hother hmem ▸ hlock), fun _ => by rw [hlock]; rfl⟩
    exact hboth _ ⟨hkeep.1, hholds _ hasked.side, fun _ => hkeep.2⟩
      ⟨hfile, hholds _ hasked.file, fun _ => (hkeeps _ hasked.kept).2⟩

theorem accounted_step (h : Kept l) (hattends : Attends E l i) : Kept (l.step E i) := by
  cases hi : i.step.tick? with
  | none =>
    have hfunded : (l.step E i).funded = l.funded := by
      show l.funded ++ fundings E l i = _
      rw [fundings_of_none hi, List.append_nil]
    have hspent : (l.step E i).spent = l.spent := by
      show l.spent ++ shownSpent E l i = _
      unfold shownSpent
      rw [hi, List.append_nil]
    unfold Kept
    rw [hfunded, hspent]
    exact SwapSession.both_of_label hi
      (fun side note lockPosted hside => hside.congr rfl rfl rfl rfl) h
  | some tick =>
    obtain ⟨c, r⟩ := tick
    by_cases hnil : l.funded = []
    · exact accounted_of_unfunded h hi hnil
    · exact accounted_of_funded h hattends hi hnil

/-- **Funded coins are kept**: as long as each scan answered without a lock on record picks what was
funded, a side is over, in memory or in its file, only once all it funded has been spent. -/
theorem coins_kept (E : Engine) (role : Role) (identity : String) (steps : List TimedStep)
    (h : Along (step E) (Attends E) (fresh role identity) steps) :
    KeepsCoins (run (step E) (fresh role identity) steps) := by
  have hside : Accounted [] [] (Side.new role identity) :=
    ⟨fun _ hclaim => by simp [Side.new] at hclaim, by simp, by simp⟩
  have hfresh : Kept (fresh role identity) := ⟨hside, hside⟩
  have hrun : Kept (run (step E) (fresh role identity) steps) :=
    inv_of_along (fun l i hl hi => accounted_step hl hi) hfresh h
  exact keepsCoins_of_accounted hrun

theorem ours_sampleCtx (h : ℤ) : (sampleCtx 100000 2 h).Ours sampleEngine .maker where
  own hforeign := hforeign.2 rfl
  key hrole := by cases hrole

/-- The theorem at the maker that dies once its funding is out: it comes back to its lock. -/
theorem coins_kept_died :
    KeepsCoins (run (step sampleEngine) (fresh .maker "maker") diedFunding) := by
  refine coins_kept sampleEngine .maker "maker" diedFunding
    ⟨fun c r _ f hf => ?_, fun c r hi f hf => ?_, trivial⟩
  · cases hf
  · obtain ⟨rfl, rfl⟩ := Prod.mk.inj (Option.some.inj hi)
    refine ⟨ours_sampleCtx 23, fun _ mine hscan => ?_⟩
    have hpicked : (((sampleCtx 100000 2 23).scanMine sampleEngine (listingReads 40000)
        .maker).toOption.bind fun mine => (pickExact mine.outs 100000 false).map HtlcOut.outpoint)
          = some ⟨toHex (List.replicate 32 5), 0⟩ := by
      decide +kernel
    change (sampleCtx 100000 2 23).scanMine sampleEngine (listingReads 40000) .maker = _ at hscan
    rw [hscan] at hpicked
    obtain ⟨o, hpick, hlock⟩ := Option.map_eq_some_iff.mp hpicked
    exact ⟨o, hpick, (lock_of_died hf).1.trans hlock.symm⟩

end Life

end Gavl
