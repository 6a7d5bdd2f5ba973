import Gavl.Market.FoldTheorems
import Gavl.Market.Steps

/-!
# The life of a match

The engine that moves coins trusts the fields of a match. They agree with each other in every
board the fold yields, and over any run a match moves only forward: into escrow, or out by a
missed deadline or by its maker's abort before the maker's lock is on record.
-/

namespace Gavl

open Runs

variable {view : View} {m m' m'' : Match} {w : Write} {op : Op} {h : ℤ} {k : String}
  {s : BoardStep} {r : View × Option String}

/-! ## Matches that agree with themselves -/

/-- The fields of a match agree. -/
structure Match.Sound (m : Match) : Prop where
  timed : m.proofDeadline < m.pruneAt
  makerKey_iff : m.makerKey.isSome ↔ m.makerProof.isSome
  escrow : m.status = .escrow → m.makerProof.isSome ∧ m.takerProof.isSome
  awaiting : m.status = .awaitingProofs → m.makerProof = none ∨ m.takerProof = none
  cancelled_iff : m.cancelled.isSome ↔ m.status = .cancelled
  lock : m.makerLock.isSome → m.status = .escrow

/-- The board's matches agree with themselves, and no two share a hash. -/
structure View.Sound (view : View) : Prop where
  «matches» : ∀ k m, view.matches.get? k = some m → m.Sound
  hash_inj : ∀ k k' m m', view.matches.get? k = some m → view.matches.get? k' = some m' →
    m.hash = m'.hash → k = k'

theorem Match.expire_eq (m : Match) (h : ℤ) :
    m.expire h = m ∨ m.status = .awaitingProofs ∧
      m.expire h = { m with status := .cancelled, cancelled := some ⟨m.proofDeadline + 1, .noProof⟩ } := by
  unfold Match.expire Match.timedOut
  split_ifs with hout
  · simp only [Bool.and_eq_true, decide_eq_true_eq] at hout
    exact .inr ⟨hout.1, rfl⟩
  · exact .inl rfl

theorem Match.escrowed_eq (m : Match) :
    m.escrowed = m ∧ ¬(m.makerProof.isSome ∧ m.takerProof.isSome) ∨
      m.escrowed = { m with status := .escrow } ∧ m.makerProof.isSome ∧ m.takerProof.isSome := by
  unfold Match.escrowed
  split_ifs with hboth
  · simp only [Bool.and_eq_true] at hboth
    exact .inr ⟨rfl, hboth⟩
  · exact .inl ⟨rfl, by simpa using hboth⟩

theorem Match.Sound.unlocked (hm : m.Sound) (hstatus : m.status ≠ .escrow) : m.makerLock = none := by
  cases hlock : m.makerLock with
  | none => rfl
  | some lock => exact absurd (hm.lock (by rw [hlock]; rfl)) hstatus

theorem Match.Sound.expire (hm : m.Sound) (h : ℤ) : (m.expire h).Sound := by
  obtain heq | ⟨hstatus, heq⟩ := m.expire_eq h
  · rw [heq]
    exact hm
  · have hlock := hm.unlocked (by rw [hstatus]; decide)
    rw [heq]
    exact ⟨hm.timed, hm.makerKey_iff, by simp, by simp, by simp, by simp [hlock]⟩

theorem Match.Sound.aborted (hm : m.Sound) (hlock : m.makerLock = none) (h : ℤ) :
    (m.aborted h).Sound := by
  unfold Match.aborted
  exact ⟨hm.timed, hm.makerKey_iff, by simp, by simp, by simp, by simp [hlock]⟩

/-- A proof recorded while proofs are awaited. -/
theorem Match.Sound.proved (hm : m.Sound) (hstatus : m.status = .awaitingProofs)
    (hproved : Proved m m') : m'.escrowed.Sound := by
  have hlock := hm.unlocked (by rw [hstatus]; decide)
  have hcancelled : m.cancelled = none := by
    have := hm.cancelled_iff
    rw [hstatus] at this
    simpa using this
  have hkey : m'.makerKey.isSome ↔ m'.makerProof.isSome := by
    cases hproved with
    | maker hnew => simp
    | taker hnew => exact hm.makerKey_iff
  have hsame : m'.proofDeadline < m'.pruneAt ∧ m'.status = .awaitingProofs ∧
      m'.makerLock = none ∧ m'.cancelled = none := by
    cases hproved with
    | maker hnew => exact ⟨hm.timed, hstatus, hlock, hcancelled⟩
    | taker hnew => exact ⟨hm.timed, hstatus, hlock, hcancelled⟩
  obtain ⟨htimed, hstatus', hlock', hcancelled'⟩ := hsame
  obtain ⟨heq, hmissing⟩ | ⟨heq, hboth⟩ := m'.escrowed_eq
  · rw [heq]
    refine ⟨htimed, hkey, by simp [hstatus'], fun _ => ?_, by simp [hstatus', hcancelled'],
      by simp [hlock']⟩
    by_cases hmaker : m'.makerProof = none
    · exact .inl hmaker
    · refine .inr (Option.not_isSome_iff_eq_none.mp fun htaker => hmissing ⟨?_, htaker⟩)
      exact Option.isSome_iff_ne_none.mpr hmaker
  · rw [heq]
    exact ⟨htimed, hkey, fun _ => hboth, by simp, by simp [hcancelled'], by simp⟩

theorem Match.Sound.hinted (hm : m.Sound) (hstatus : m.status = .escrow) (hhint : Hinted m m') :
    m'.Sound := by
  cases hhint with
  | maker hnew =>
    exact ⟨hm.timed, hm.makerKey_iff, hm.escrow, hm.awaiting, hm.cancelled_iff, fun _ => hstatus⟩
  | taker hnew => exact ⟨hm.timed, hm.makerKey_iff, hm.escrow, hm.awaiting, hm.cancelled_iff, hm.lock⟩

theorem newMatch_sound (w : Write) (offer : Offer) (fill : ℕ) (hash takerKey : String) (h : ℤ) :
    (newMatch w offer fill hash takerKey h).Sound := by
  have := proofWindow_lt_matchLifetime offer.want.chain
  refine ⟨?_, by simp [newMatch], by simp [newMatch], by simp [newMatch], by simp [newMatch],
    by simp [newMatch]⟩
  show h + (proofWindow : ℤ) < h + (matchLifetime offer.want.chain : ℤ)
  omega

/-! ## Boards that agree with themselves -/

theorem View.Sound.empty : emptyView.Sound := ⟨by simp [emptyView], by simp [emptyView]⟩

theorem get?_matches_advance (view : View) (h : ℤ) (k : String) :
    (advance view h).matches.get? k = (view.matches.get? k).bind (keptMatch h) := by
  cases hget : (advance view h).matches.get? k with
  | none =>
    symm
    rw [Option.bind_eq_none_iff]
    intro m hm
    rw [OrderedMap.get?_eq_none_iff, matches_advance] at hget
    by_contra hkept
    obtain ⟨m', hm'⟩ := Option.ne_none_iff_exists'.mp hkept
    refine hget (List.mem_map.mpr ⟨(k, m'), List.mem_filterMap.mpr ⟨(k, m), ?_, ?_⟩, rfl⟩)
    · exact (OrderedMap.get?_eq_some_iff _ _ _).mp hm
    · rw [hm']
      rfl
  | some m' =>
    symm
    rw [OrderedMap.get?_eq_some_iff, matches_advance, List.mem_filterMap] at hget
    obtain ⟨e, he, hkept⟩ := hget
    obtain ⟨m'', hm'', heq⟩ := Option.map_eq_some_iff.mp hkept
    obtain ⟨rfl, rfl⟩ := Prod.mk.inj heq
    rw [(OrderedMap.get?_eq_some_iff _ _ _).mpr he, Option.bind_some, hm'']

theorem keptMatch_eq_some : keptMatch h m = some m' ↔ h < m.pruneAt ∧ m' = m.expire h := by
  unfold keptMatch
  split_ifs with hprune
  · simp [hprune]
  · rw [Option.some.injEq]
    exact ⟨fun heq => ⟨not_le.mp hprune, heq.symm⟩, fun heq => heq.2.symm⟩

@[simp] theorem Match.expire_hash : (m.expire h).hash = m.hash := by
  unfold Match.expire; split_ifs <;> rfl

theorem View.Sound.advance (hview : view.Sound) (h : ℤ) : (advance view h).Sound := by
  have hold : ∀ k m', (Gavl.advance view h).matches.get? k = some m' →
      ∃ m, view.matches.get? k = some m ∧ m' = m.expire h := by
    intro k m' hget
    rw [get?_matches_advance, Option.bind_eq_some_iff] at hget
    obtain ⟨m, hm, hkept⟩ := hget
    exact ⟨m, hm, (keptMatch_eq_some.mp hkept).2⟩
  constructor
  · intro k m' hget
    obtain ⟨m, hm, rfl⟩ := hold k m' hget
    exact (hview.matches k m hm).expire h
  · intro k k' m m' hget hget' hhash
    obtain ⟨n, hn, rfl⟩ := hold k m hget
    obtain ⟨n', hn', rfl⟩ := hold k' m' hget'
    rw [Match.expire_hash, Match.expire_hash] at hhash
    exact hview.hash_inj k k' n n' hn hn' hhash

/-- Setting a match that agrees with itself, under a hash that no other match has. -/
theorem View.Sound.set (hview : view.Sound) {view' : View}
    (hset : view'.matches = view.matches.set k m) (hm : m.Sound)
    (hhash : ∀ k' m', view.matches.get? k' = some m' → m'.hash = m.hash → k' = k) :
    view'.Sound := by
  constructor
  · intro k' m' hget
    rw [hset, OrderedMap.get?_set] at hget
    split_ifs at hget
    · rw [← Option.some.inj hget]
      exact hm
    · exact hview.matches k' m' hget
  · intro a b ma mb hga hgb heq
    rw [hset, OrderedMap.get?_set] at hga hgb
    split_ifs at hga hgb with ha hb hb
    · exact ha.symm.trans hb
    · rw [← Option.some.inj hga] at heq
      exact absurd (hhash b mb hgb heq.symm).symm hb
    · rw [← Option.some.inj hgb] at heq
      exact absurd (hhash a ma hga heq).symm ha
    · exact hview.hash_inj a b ma mb hga hgb heq

/-- Overwriting a match with one of the same hash. -/
theorem View.Sound.overwrite (hview : view.Sound) {view' : View}
    (hset : view'.matches = view.matches.set k m') (hget : view.matches.get? k = some m)
    (hm' : m'.Sound) (hhash : m'.hash = m.hash) : view'.Sound :=
  hview.set hset hm' fun a ma hga heq => hview.hash_inj a k ma m hga hget (heq.trans hhash)

theorem Proved.hash_eq (hproved : Proved m m') : m'.escrowed.hash = m.hash := by
  have hsame : m'.hash = m.hash := by cases hproved <;> rfl
  obtain ⟨heq, _⟩ | ⟨heq, _⟩ := m'.escrowed_eq <;> rw [heq] <;> exact hsame

theorem View.Sound.effect (hview : view.Sound) (heff : Effect view w h op r) : r.1.Sound := by
  cases heff with
  | rejected => exact hview
  | post hgive hwant hnew => exact ⟨hview.matches, hview.hash_inj⟩
  | cancel hget hmaker => exact ⟨hview.matches, hview.hash_inj⟩
  | take hget hcap hgive hwant hnew hhash =>
    refine hview.set rfl (newMatch_sound _ _ _ _ _ _) ?_
    intro a ma hga heq
    exact absurd heq (hhash ma ((OrderedMap.mem_values _ _).mpr ⟨a, hga⟩))
  | proof hget hstatus hproved =>
    exact hview.overwrite rfl hget ((hview.matches _ _ hget).proved hstatus hproved)
      hproved.hash_eq
  | locked hget hstatus hhint =>
    exact hview.overwrite rfl hget ((hview.matches _ _ hget).hinted hstatus hhint)
      (by cases hhint <;> rfl)
  | abort hget hmaker hstatus hlock =>
    exact hview.overwrite (matches_restoreCapacity _ _) hget
      ((hview.matches _ _ hget).aborted hlock h) rfl

theorem View.Sound.step (hview : view.Sound) (s : BoardStep) : (boardStep view s).Sound := by
  cases s with
  | advance h => exact hview.advance h
  | apply w op h => exact hview.effect (applyOp_effect view w op h)

/-- Every board a run yields agrees with itself. -/
theorem View.Sound.run (hview : view.Sound) (steps : List BoardStep) :
    (run boardStep view steps).Sound :=
  inv_run View.Sound (fun _ s hv => hv.step s) hview steps

/-! ## How a match moves -/

/-- What a match is about, without what happens to it. -/
def Match.terms (m : Match) : Match :=
  { m with
    makerKey := none
    status := .awaitingProofs
    makerProof := none
    takerProof := none
    makerLock := none
    takerLock := none
    cancelled := none }

/-- The status moves a step can make. -/
inductive Match.StatusMove (s : BoardStep) (k : String) (m m' : Match) : Prop
  | stay (h : m'.status = m.status)
  | escrow (h : m.status = .awaitingProofs) (h' : m'.status = .escrow)
  | drop (h : m.status = .awaitingProofs) (h' : m'.status = .cancelled)
  /-- Out of escrow by the maker's abort alone, before the maker's lock is on record. -/
  | abort {w : Write} {height : ℤ} (hs : s = .apply w (.swapAbort k) height)
      (hmaker : w.writer = m.maker) (hlock : m.makerLock = none) (h : m.status = .escrow)
      (h' : m'.status = .cancelled)

/-- What a step does to a match that it keeps. -/
structure Match.Moves (s : BoardStep) (k : String) (m m' : Match) : Prop where
  terms : m'.terms = m.terms
  status : m.StatusMove s k m'
  makerLock : ∀ lock, m.makerLock = some lock → m'.makerLock = some lock
  takerLock : ∀ lock, m.takerLock = some lock → m'.takerLock = some lock
  cancelled : m.status = .cancelled → m' = m

theorem Match.Moves.refl (s : BoardStep) (k : String) (m : Match) : m.Moves s k m :=
  ⟨rfl, .stay rfl, fun _ hlock => hlock, fun _ hlock => hlock, fun _ => rfl⟩

theorem Match.moves_expire (m : Match) (s : BoardStep) (k : String) (h : ℤ) :
    m.Moves s k (m.expire h) := by
  obtain heq | ⟨hstatus, heq⟩ := m.expire_eq h
  · rw [heq]
    exact .refl s k m
  · rw [heq]
    refine ⟨rfl, .drop hstatus rfl, fun _ hlock => hlock, fun _ hlock => hlock, ?_⟩
    intro hcancelled
    rw [hstatus] at hcancelled
    exact absurd hcancelled (by decide)

theorem Proved.moves (hproved : Proved m m') (hstatus : m.status = .awaitingProofs)
    (s : BoardStep) (k : String) : m.Moves s k m'.escrowed := by
  have hsame : m'.terms = m.terms ∧ m'.status = m.status ∧ m'.makerLock = m.makerLock ∧
      m'.takerLock = m.takerLock := by
    cases hproved <;> exact ⟨rfl, rfl, rfl, rfl⟩
  obtain ⟨hterms, hstatus', hmaker, htaker⟩ := hsame
  have hlive : m.status = .cancelled → m'.escrowed = m := fun hcancelled => by
    rw [hstatus] at hcancelled
    exact absurd hcancelled (by decide)
  obtain ⟨heq, _⟩ | ⟨heq, _⟩ := m'.escrowed_eq
  · rw [heq] at hlive ⊢
    exact ⟨hterms, .stay hstatus', fun _ hlock => hmaker.trans hlock,
      fun _ hlock => htaker.trans hlock, hlive⟩
  · rw [heq] at hlive ⊢
    exact ⟨hterms, .escrow hstatus rfl, fun _ hlock => hmaker.trans hlock,
      fun _ hlock => htaker.trans hlock, hlive⟩

theorem Proved.live (hproved : Proved m m') (hstatus : m.status = .awaitingProofs) :
    m'.escrowed.status ≠ .cancelled := by
  have hstatus' : m'.status = .awaitingProofs := by cases hproved <;> exact hstatus
  obtain ⟨heq, _⟩ | ⟨heq, _⟩ := m'.escrowed_eq
  · rw [heq, hstatus']
    decide
  · rw [heq]
    show MatchStatus.escrow ≠ .cancelled
    decide

theorem Hinted.moves (hhint : Hinted m m') (hstatus : m.status = .escrow) (s : BoardStep)
    (k : String) : m.Moves s k m' := by
  have hlive : m.status = .cancelled → m' = m := fun hcancelled => by
    rw [hstatus] at hcancelled
    exact absurd hcancelled (by decide)
  cases hhint with
  | maker hnew =>
    refine ⟨rfl, .stay rfl, fun lock hlock => ?_, fun _ hlock => hlock, hlive⟩
    rw [hnew] at hlock
    exact absurd hlock (by simp)
  | taker hnew =>
    refine ⟨rfl, .stay rfl, fun _ hlock => hlock, fun lock hlock => ?_, hlive⟩
    rw [hnew] at hlock
    exact absurd hlock (by simp)

/-- Overwriting one match moves that one and leaves the others. -/
theorem moves_of_set {matchId : String} {n n' : Match} {view' : View}
    (hset : view'.matches = view.matches.set matchId n')
    (hget : view.matches.get? matchId = some n) (hmoves : n.Moves s matchId n')
    (hm : view.matches.get? k = some m) (hm' : view'.matches.get? k = some m') :
    m.Moves s k m' := by
  rw [hset, OrderedMap.get?_set] at hm'
  split_ifs at hm' with hk
  · subst hk
    rw [hget] at hm
    rw [← Option.some.inj hm, ← Option.some.inj hm']
    exact hmoves
  · rw [hm] at hm'
    rw [← Option.some.inj hm']
    exact .refl s k m

theorem Effect.moves (heff : Effect view w h op r) (hm : view.matches.get? k = some m)
    (hm' : r.1.matches.get? k = some m') : m.Moves (.apply w op h) k m' := by
  have hsame : r.1.matches.get? k = view.matches.get? k → m.Moves (.apply w op h) k m' := by
    intro heq
    rw [heq, hm, Option.some.injEq] at hm'
    rw [← hm']
    exact .refl _ k m
  cases heff with
  | rejected => exact hsame rfl
  | post hgive hwant hnew => exact hsame rfl
  | cancel hget hmaker => exact hsame rfl
  | take hget hcap hgive hwant hnew hhash =>
    refine hsame ?_
    rw [OrderedMap.get?_set_of_ne]
    rintro rfl
    rw [hnew] at hm
    exact absurd hm (by simp)
  | proof hget hstatus hproved => exact moves_of_set rfl hget (hproved.moves hstatus _ _) hm hm'
  | locked hget hstatus hhint => exact moves_of_set rfl hget (hhint.moves hstatus _ _) hm hm'
  | abort hget hmaker hstatus hlock =>
    refine moves_of_set (matches_restoreCapacity _ _) hget ?_ hm hm'
    refine ⟨rfl, ?_, fun _ hl => hl, fun _ hl => hl, fun hcancelled => absurd hcancelled hstatus⟩
    rename_i n
    cases hn : n.status with
    | awaitingProofs => exact .drop hn rfl
    | escrow => exact .abort rfl hmaker hlock hn rfl
    | cancelled => exact absurd hn hstatus

/-- One step moves every match it keeps as described. -/
theorem moves_of_step (hm : view.matches.get? k = some m)
    (hm' : (boardStep view s).matches.get? k = some m') : m.Moves s k m' := by
  cases s with
  | advance h =>
    rw [show boardStep view (.advance h) = advance view h from rfl, get?_matches_advance, hm,
      Option.bind_some, keptMatch_eq_some] at hm'
    rw [hm'.2]
    exact m.moves_expire _ k h
  | apply w op h => exact (applyOp_effect view w op h).moves hm hm'

/-! ## Runs -/

/-- What later steps leave of a match. -/
structure Match.Later (m m' : Match) : Prop where
  terms : m'.terms = m.terms
  makerLock : ∀ lock, m.makerLock = some lock → m'.makerLock = some lock
  takerLock : ∀ lock, m.takerLock = some lock → m'.takerLock = some lock
  /-- A cancelled match stays as it is. -/
  cancelled : m.status = .cancelled → m' = m
  /-- A match with the maker's lock on record is not cancelled. -/
  locked : m.makerLock.isSome → m'.status = .escrow

/-- After every step a match is on record under `k`. -/
def Kept (k : String) (view : View) (steps : List BoardStep) : Prop :=
  Along boardStep (fun view s => ((boardStep view s).matches.get? k).isSome) view steps

theorem later_of_run {steps : List BoardStep} (hview : view.Sound)
    (hkept : Kept k view steps) (hm : view.matches.get? k = some m)
    (hm' : (run boardStep view steps).matches.get? k = some m') : m.Later m' := by
  induction steps generalizing view m with
  | nil =>
    rw [run_nil, hm, Option.some.injEq] at hm'
    subst hm'
    exact ⟨rfl, fun _ hl => hl, fun _ hl => hl, fun _ => rfl, (hview.matches k m hm).lock⟩
  | cons s steps ih =>
    obtain ⟨hhere, hrest⟩ := hkept
    obtain ⟨n, hn⟩ := Option.isSome_iff_exists.mp hhere
    have hmove := moves_of_step hm hn
    have hlater := ih (hview.step s) hrest hn hm'
    have hcancelled : m.status = .cancelled → m' = m := fun hc => by
      have hnm := hmove.cancelled hc
      rw [hnm] at hlater
      exact hlater.cancelled hc
    refine ⟨hlater.terms.trans hmove.terms, fun lock hl => hlater.makerLock lock (hmove.makerLock lock hl),
      fun lock hl => hlater.takerLock lock (hmove.takerLock lock hl), hcancelled, ?_⟩
    intro hlock
    obtain ⟨lock, hl⟩ := Option.isSome_iff_exists.mp hlock
    exact hlater.locked (by rw [hmove.makerLock lock hl]; rfl)

/-- **A match lives as its fields say**: in the board of every fold its fields agree and no two
matches share a hash; in every run each step moves each match as allowed; and what is on record
of a match stays, whatever happens later. -/
theorem match_lifecycle (K : Curve) (writes : List Write) (nowHeight : ℤ) (order : WriteOrder)
    (bornAt : OrderedMap String ℤ) :
    (computeView K writes nowHeight ⟨order, bornAt, none⟩).Sound ∧
    (∀ steps : List BoardStep, Along boardStep (fun view s => ∀ k m m',
      view.matches.get? k = some m → (boardStep view s).matches.get? k = some m' →
        m.Moves s k m') emptyView steps) ∧
    (∀ (before after : List BoardStep) (k : String) (m m' : Match),
      (run boardStep emptyView before).matches.get? k = some m →
      Kept k (run boardStep emptyView before) after →
      (run boardStep emptyView (before ++ after)).matches.get? k = some m' → m.Later m') := by
  refine ⟨?_, ?_, ?_⟩
  · rw [computeView_eq_run]
    exact View.Sound.empty.run _
  · exact fun steps => along_of_forall (fun _ _ _ _ _ hm hm' => moves_of_step hm hm') _ steps
  · intro before after k m m' hm hkept hm'
    rw [run_append] at hm'
    exact later_of_run (View.Sound.empty.run before) hkept hm hm'

end Gavl
