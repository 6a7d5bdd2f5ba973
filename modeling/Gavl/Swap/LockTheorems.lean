import Gavl.Swap.SessionTheorems

/-!
# What a tick that funds leaves behind

The wallet is asked once a tick at most, and only after the intent is in the file. From then on the
side and its file are waiting for the lock, or have the one that reached an explorer.
-/

namespace Gavl

namespace SwapEffect

/-- The wallet is asked to fund. -/
def asks : SwapEffect → Bool
  | .fund _ _ _ => true
  | _ => false

/-- The lock of a funding transaction that reached an explorer. -/
def reached? : SwapEffect → Option Outpoint
  | .funded lock => some lock
  | _ => none

end SwapEffect

/-- The locks that reached an explorer. -/
def reachedLocks (effects : List SwapEffect) : List Outpoint :=
  effects.filterMap SwapEffect.reached?

/-- The file once some effects have happened. -/
abbrev fileOf (saved : Side) (effects : List SwapEffect) : Side :=
  SwapSession.fileAfter saved effects

theorem fileOf_append (saved : Side) (effects : List SwapEffect) (e : SwapEffect) :
    fileOf saved (effects ++ [e]) = fileOf (fileOf saved effects) [e] := by
  unfold fileOf SwapSession.fileAfter
  rw [List.foldl_append]

theorem fileOf_save (saved : Side) (effects : List SwapEffect) (side : Side) :
    fileOf saved (effects ++ [.save side]) = side := by
  rw [fileOf_append]
  rfl

theorem fileOf_of_getLast? {saved side : Side} {effects : List SwapEffect}
    (h : effects.getLast? = some (.save side)) : fileOf saved effects = side := by
  obtain ⟨before, rfl⟩ := List.getLast?_eq_some_iff.mp h
  exact fileOf_save saved before side

theorem reachedLocks_append (effects : List SwapEffect) (e : SwapEffect) :
    reachedLocks (effects ++ [e]) = reachedLocks effects ++ e.reached?.toList := by
  unfold reachedLocks
  rw [List.filterMap_append]
  cases h : e.reached? <;> simp [h]

namespace Tick

variable {E : Engine} {c : Ctx} {r : Reads} {k₀ k k' : Tick} {saved : Side}

/-! ## The intent -/

/-- A tick that may fund: it began with no lock, an earlier intent has had its time, the scan shows
no lock, and the match is ours. -/
structure Opened (E : Engine) (c : Ctx) (r : Reads) (k₀ : Tick) : Prop where
  free : k₀.side.myLock = none
  stale : k₀.intentFresh r = false
  unseen : ∃ mine, SeesNoLock E c r k₀.side.role mine
  ours : c.Ours E k₀.side.role

/-- A side between its intent and its lock. -/
structure Pending (r : Reads) (side : Side) : Prop where
  free : side.myLock = none
  intent : side.lockIntentAt = some r.now
  alive : side.stage.terminal = false

theorem intentFresh_congr (h : k.side.lockIntentAt = k'.side.lockIntentAt) :
    k.intentFresh r = k'.intentFresh r := by
  unfold intentFresh
  rw [h]

theorem intentFresh_now (h : k.side.lockIntentAt = some r.now) : k.intentFresh r = true := by
  unfold intentFresh
  rw [h]
  simp [lockIntentGraceMs]

/-- The intent a tick began with is not the one it makes. -/
theorem Opened.intent_ne (h : Opened E c r k₀) : k₀.side.lockIntentAt ≠ some r.now := fun heq => by
  have hstale := h.stale
  rw [intentFresh_now heq] at hstale
  cases hstale

/-- Where the lock and the intent of a tick come from, and what it saves without a lock. -/
structure Intent (E : Engine) (c : Ctx) (r : Reads) (k₀ k : Tick) : Prop where
  free : k.side.myLock = none → k₀.side.myLock = none
  intent : k.side.myLock = none → k.side.lockIntentAt = k₀.side.lockIntentAt ∨ Opened E c r k₀
  saved : ∀ side, .save side ∈ k.effects → side.myLock = none → Opened E c r k₀ ∧ Pending r side

/-- An act that leaves the lock and the intent, and saves nothing. -/
theorem Intent.quiet (h : Intent E c r k₀ k) (hlock : k'.side.myLock = k.side.myLock)
    (hintent : k'.side.lockIntentAt = k.side.lockIntentAt)
    (heffects : ∀ side, .save side ∈ k'.effects → .save side ∈ k.effects) :
    Intent E c r k₀ k' where
  free hfree := h.free (hlock ▸ hfree)
  intent hfree := hintent ▸ h.intent (hlock ▸ hfree)
  saved side hmem := h.saved side (heffects side hmem)

/-- An act that leaves a lock, and saves it. -/
theorem Intent.recorded (h : Intent E c r k₀ k) (hlock : k'.side.myLock.isSome = true)
    (heffects : k'.effects = k.effects ++ [.save k'.side]) : Intent E c r k₀ k' where
  free hfree := by simp [hfree] at hlock
  intent hfree := by simp [hfree] at hlock
  saved side hmem hfree := by
    rw [heffects, List.mem_append, List.mem_singleton] at hmem
    obtain hmem | heq := hmem
    · exact h.saved side hmem hfree
    · obtain rfl := SwapEffect.save.inj heq
      simp [hfree] at hlock

theorem Acts.intent (h : Acts E c r k₀ k) (hk₀ : k₀.effects = []) : Intent E c r k₀ k := by
  induction h with
  | refl => exact ⟨id, fun _ => Or.inl rfl, by simp [hk₀]⟩
  | @tail k k' hk hact ih =>
    cases hact with
    | look hlook =>
      obtain ⟨verdict, note, rfl⟩ := hlook
      exact ih.quiet rfl rfl fun _ hmem => hmem
    | post =>
      refine ih.quiet (by simp) (by simp) fun side hmem => ?_
      obtain hsame | hpost := postOp_effects (c := c) (k := k) _
      · exact hsame ▸ hmem
      · simpa [hpost] using hmem
    | abort =>
      refine ih.quiet (by simp [Tick.abort]) (by simp [Tick.abort]) fun side hmem => ?_
      obtain hsame | hpost := abort_effects (c := c) (k := k) _
      · exact hsame ▸ hmem
      · simpa [hpost] using hmem
    | adopt => exact ih.recorded rfl rfl
    | intend hmine hfree halive hold hours =>
      have hopened : Opened E c r k₀ := by
        obtain hsame | hopened := ih.intent hfree
        · exact ⟨ih.free hfree, intentFresh_congr hsame ▸ hold, ⟨_, hmine⟩, hours⟩
        · exact hopened
      refine ⟨fun _ => hopened.free, fun _ => Or.inr hopened, fun side hmem hside => ?_⟩
      rw [save_effects, List.mem_append, List.mem_singleton] at hmem
      obtain hmem | heq := hmem
      · exact ih.saved side hmem hside
      · obtain rfl := SwapEffect.save.inj heq
        exact ⟨hopened, hfree, rfl, halive⟩
    | locked => exact ih.recorded rfl rfl
    | claim hlock => exact ih.recorded hlock rfl
    | refund hlock => exact ih.recorded hlock rfl
    | settle => exact ih.quiet rfl rfl fun _ hmem => hmem
    | target => exact ih.quiet rfl rfl fun _ hmem => hmem
    | _ => exact ih.quiet rfl rfl fun side hmem => by simpa using hmem

/-! ## The lock -/

/-- A side waits for its lock, or has one of these. -/
def Sound (r : Reads) (locks : List Outpoint) (side : Side) : Prop :=
  Pending r side ∨ ∃ lock ∈ locks, side.myLock = some lock

theorem Sound.mono {locks locks' : List Outpoint} {side : Side} (h : Sound r locks side)
    (hsub : locks ⊆ locks') : Sound r locks' side :=
  h.imp_right fun ⟨lock, hmem, hlock⟩ => ⟨lock, hsub hmem, hlock⟩

theorem Sound.pending {locks : List Outpoint} {side : Side} (h : Sound r locks side)
    (hfree : side.myLock = none) : Pending r side := by
  obtain hpending | ⟨lock, -, hlock⟩ := h
  · exact hpending
  · rw [hfree] at hlock
    cases hlock

/-- A tick that has asked the wallet to fund. -/
structure Asked (E : Engine) (c : Ctx) (r : Reads) (k₀ : Tick) (saved : Side) (k : Tick) : Prop where
  opened : Opened E c r k₀
  side : Sound r (reachedLocks k.effects) k.side
  file : Sound r (reachedLocks k.effects) (fileOf saved k.effects)
  /-- What the file holds, the tick has saved. -/
  kept : .save (fileOf saved k.effects) ∈ k.effects
  once : (reachedLocks k.effects).length ≤ 1
  /-- No intent is saved again. -/
  marked : ∀ side, k.effects.getLast? = some (.save side) → side.myLock.isSome = true
  /-- Nothing reaches an explorer before the wallet answers. -/
  waiting : ∀ chain address amount, k.effects.getLast? = some (.fund chain address amount) →
    k.side.myLock = none ∧ (fileOf saved k.effects).myLock = none ∧ reachedLocks k.effects = []

namespace Asked

theorem pending (h : Asked E c r k₀ saved k) (hfree : k.side.myLock = none) : Pending r k.side :=
  h.side.pending hfree

/-- An act with no effect that leaves the lock, and keeps a waiting side waiting. -/
theorem quiet (h : Asked E c r k₀ saved k) (hlock : k'.side.myLock = k.side.myLock)
    (hpending : Pending r k.side → Pending r k'.side) (heffects : k'.effects = k.effects) :
    Asked E c r k₀ saved k' where
  opened := h.opened
  side := by
    rw [heffects]
    obtain hwait | ⟨lock, hmem, hsome⟩ := h.side
    · exact Or.inl (hpending hwait)
    · exact Or.inr ⟨lock, hmem, hlock.trans hsome⟩
  file := heffects ▸ h.file
  kept := heffects ▸ h.kept
  once := heffects ▸ h.once
  marked side hlast := h.marked side (heffects ▸ hlast)
  waiting chain address amount hlast := by
    rw [heffects] at hlast ⊢
    rw [hlock]
    exact h.waiting chain address amount hlast

/-- An act that posts or broadcasts. -/
theorem sent (h : Asked E c r k₀ saved k) {e : SwapEffect} (hside : k'.side = k.side)
    (heffects : k'.effects = k.effects ++ [e]) (hsave : ∀ side, e ≠ .save side)
    (hasks : e.asks = false) (hreached : e.reached? = none) : Asked E c r k₀ saved k' := by
  have hlocks : reachedLocks k'.effects = reachedLocks k.effects := by
    rw [heffects, reachedLocks_append, hreached]
    exact List.append_nil _
  have hfile : fileOf saved k'.effects = fileOf saved k.effects := by
    rw [heffects, fileOf_append]
    cases e with
    | save side => exact absurd rfl (hsave side)
    | _ => rfl
  have hlast : k'.effects.getLast? = some e := by rw [heffects, List.getLast?_concat]
  refine ⟨h.opened, by rw [hlocks, hside]; exact h.side, by rw [hlocks, hfile]; exact h.file, ?_,
    by rw [hlocks]; exact h.once, fun side hsaved => ?_, fun chain address amount hfund => ?_⟩
  · rw [hfile, heffects]
    exact List.mem_append_left _ h.kept
  · exact absurd (Option.some.inj (hlast.symm.trans hsaved)) (hsave side)
  · rw [Option.some.inj (hlast.symm.trans hfund)] at hasks
    cases hasks

/-- An act that saves a side with a lock. -/
theorem recorded (h : Asked E c r k₀ saved k)
    (hlock : ∃ lock ∈ reachedLocks k.effects, k'.side.myLock = some lock)
    (heffects : k'.effects = k.effects ++ [.save k'.side]) : Asked E c r k₀ saved k' := by
  have hlocks : reachedLocks k'.effects = reachedLocks k.effects := by
    rw [heffects, reachedLocks_append]
    exact List.append_nil _
  have hlast : k'.effects.getLast? = some (.save k'.side) := by rw [heffects, List.getLast?_concat]
  refine ⟨h.opened, by rw [hlocks]; exact Or.inr hlock, ?_, ?_, by rw [hlocks]; exact h.once,
    fun side hsaved => ?_, fun chain address amount hfund => ?_⟩
  · rw [hlocks, heffects, fileOf_save]
    exact Or.inr hlock
  · rw [heffects, fileOf_save]
    exact List.mem_append_right _ (List.mem_singleton.mpr rfl)
  · obtain rfl := SwapEffect.save.inj (Option.some.inj (hlast.symm.trans hsaved))
    obtain ⟨lock, -, hsome⟩ := hlock
    rw [hsome]
    rfl
  · cases Option.some.inj (hlast.symm.trans hfund)

/-- What a side has locked, when it has. -/
theorem lock_mem (h : Asked E c r k₀ saved k) (hlock : k.side.myLock.isSome = true) :
    ∃ lock ∈ reachedLocks k.effects, k.side.myLock = some lock := by
  obtain hpending | hlocked := h.side
  · simp [hpending.free] at hlock
  · exact hlocked

/-- A side that waits for its lock is not over. -/
theorem not_over (h : Asked E c r k₀ saved k) (hfree : k.side.myLock = none) :
    ¬Over E c r k₀ k := by
  intro hover
  cases hover with
  | foreign hnot => exact hnot h.opened.ours
  | unlocked _ hgive =>
    exact h.opened.intent_ne (hgive.1.symm.trans (h.pending hfree).intent)
  | spent hspent =>
    obtain ⟨mine, o, -, -, hlock, -⟩ := hspent
    rw [hfree] at hlock
    cases hlock
  | claimed _ hlock => simp [hfree] at hlock

end Asked

theorem Act.asked (h : Act E c r k₀ k k') (hk : Asked E c r k₀ saved k) :
    Asked E c r k₀ saved k' := by
  cases h with
  | look hlook =>
    obtain ⟨verdict, note, rfl⟩ := hlook
    exact hk.quiet rfl (fun hwait => ⟨hwait.free, hwait.intent, hwait.alive⟩) rfl
  | @settle stage note _ hover =>
    refine hk.quiet rfl (fun hwait => ⟨hwait.free, hwait.intent, ?_⟩) rfl
    cases hstage : stage.terminal with
    | false => exact hstage
    | true => exact absurd (hover hstage) (hk.not_over hwait.free)
  | post =>
    obtain hsame | hpost := postOp_effects (c := c) (k := k) _
    · exact hk.quiet (by simp) (by simp) hsame
    · exact hk.sent (by simp) hpost (by simp) rfl rfl
  | abort _ hfree _ hgive => exact absurd (.unlocked hfree hgive) (hk.not_over hfree)
  | adopt hmine hpick =>
    -- the scan shows no lock to adopt
    obtain ⟨mine', hmine', hnone⟩ := hk.opened.unseen
    obtain rfl := Except.ok.inj (hmine.symm.trans hmine')
    rw [hnone] at hpick
    cases hpick
  | intend _ hfree _ hold =>
    rw [intentFresh_now (hk.pending hfree).intent] at hold
    cases hold
  | fund _ hlast _ hfree =>
    have hlock := hk.marked _ hlast
    simp [hfree] at hlock
  | @funded lock hlast _ =>
    obtain ⟨chain, address, amount, hfund⟩ := hlast
    obtain ⟨hfree, hfile, hnone⟩ := hk.waiting chain address amount hfund
    have hlocks : reachedLocks (k.effects ++ [.funded lock]) = [lock] := by
      rw [reachedLocks_append, hnone]
      rfl
    have hsame : fileOf saved (k.effects ++ [.funded lock]) = fileOf saved k.effects :=
      fileOf_append saved k.effects (.funded lock)
    refine ⟨hk.opened, Or.inl (hk.pending hfree), ?_, ?_, ?_, fun side hsaved => ?_,
      fun chain address amount hagain => ?_⟩
    · rw [emit_effects, hsame]
      exact Or.inl (hk.file.pending hfile)
    · rw [emit_effects, hsame]
      exact List.mem_append_left _ hk.kept
    · rw [emit_effects, hlocks]
      exact Nat.le_refl 1
    · rw [getLast?_emit] at hsaved
      cases Option.some.inj hsaved
    · rw [getLast?_emit] at hagain
      cases Option.some.inj hagain
  | @locked lock hlast _ _ =>
    have hmem : lock ∈ reachedLocks k.effects := by
      obtain ⟨before, heq⟩ := List.getLast?_eq_some_iff.mp hlast
      rw [heq, reachedLocks_append]
      exact List.mem_append_right _ (List.mem_singleton.mpr rfl)
    exact hk.recorded ⟨lock, hmem, rfl⟩ rfl
  | target => exact hk.quiet rfl (fun hwait => ⟨hwait.free, hwait.intent, hwait.alive⟩) rfl
  | claim hlock => exact hk.recorded (hk.lock_mem hlock) rfl
  | refund hlock => exact hk.recorded (hk.lock_mem hlock) rfl
  | sendClaim => exact hk.sent rfl rfl (by simp) rfl rfl
  | sendRefund => exact hk.sent rfl rfl (by simp) rfl rfl

/-- Nothing is asked of the wallet, and nothing has reached an explorer. -/
def Unasked (effects : List SwapEffect) : Prop :=
  ∀ e ∈ effects, e.asks = false ∧ e.reached? = none

theorem Unasked.append {effects : List SwapEffect} (h : Unasked effects) {e : SwapEffect}
    (hasks : e.asks = false) (hreached : e.reached? = none) : Unasked (effects ++ [e]) := by
  intro e' hmem
  rw [List.mem_append, List.mem_singleton] at hmem
  obtain hmem | rfl := hmem
  · exact h e' hmem
  · exact ⟨hasks, hreached⟩

theorem Unasked.reachedLocks {effects : List SwapEffect} (h : Unasked effects) :
    reachedLocks effects = [] :=
  List.filterMap_eq_nil_iff.mpr fun e hmem => (h e hmem).2

/-- **A tick asks the wallet for nothing, or once, after its intent is saved.** -/
theorem Acts.unasked_or_asked (h : Acts E c r k₀ k) (hk₀ : k₀.effects = []) (saved : Side) :
    Unasked k.effects ∨ Asked E c r k₀ saved k := by
  induction h with
  | refl => exact Or.inl (by simp [Unasked, hk₀])
  | @tail k k' hk hact ih =>
    obtain hunasked | hasked := ih
    · cases hact with
      | post =>
        obtain hsame | hpost := postOp_effects (c := c) (k := k) _
        · exact Or.inl (hsame ▸ hunasked)
        · exact Or.inl (hpost ▸ hunasked.append rfl rfl)
      | abort =>
        obtain hsame | hpost := abort_effects (c := c) (k := k) _
        · exact Or.inl (hsame ▸ hunasked)
        · exact Or.inl (hpost ▸ hunasked.append rfl rfl)
      | fund hmine hlast hintent hfree =>
        -- what the file holds is the side that is about to ask
        have hmem : .save k.side ∈ k.effects := List.mem_of_getLast? hlast
        obtain ⟨hopened, hpending⟩ := (Acts.intent hk hk₀).saved k.side hmem hfree
        have hnone : reachedLocks k.effects = [] := hunasked.reachedLocks
        refine Or.inr ⟨hopened, Or.inl hpending, ?_, ?_, ?_, fun side hsaved => ?_,
          fun chain address amount _ => ?_⟩
        · rw [emit_effects, fileOf_append, fileOf_of_getLast? hlast]
          exact Or.inl hpending
        · rw [emit_effects, fileOf_append, fileOf_of_getLast? hlast]
          exact List.mem_append_left _ hmem
        · rw [emit_effects, reachedLocks_append, hnone]
          exact Nat.zero_le 1
        · rw [getLast?_emit] at hsaved
          cases Option.some.inj hsaved
        · rw [emit_effects, fileOf_append, fileOf_of_getLast? hlast, reachedLocks_append, hnone]
          exact ⟨hfree, hfree, rfl⟩
      | funded hlast =>
        obtain ⟨chain, address, amount, hfund⟩ := hlast
        have hasks := (hunasked _ (List.mem_of_getLast? hfund)).1
        cases hasks
      | look => exact Or.inl hunasked
      | settle => exact Or.inl hunasked
      | target => exact Or.inl hunasked
      | _ => exact Or.inl (hunasked.append rfl rfl)
    · exact Or.inr (hact.asked hasked)

end Tick

end Gavl
