import Gavl.Swap.LockTheorems
import Gavl.Swap.RevealTheorems

/-!
# One claim and one refund

A side builds its claim once and its refund once, saves each before it hands it to an explorer, and
from then on hands over that one again, restarts included.
-/

namespace Gavl

open Runs

/-- The saved transaction of a kind. -/
def Side.spendOf (side : Side) : SpendKind → Option RawTx
  | .claim => side.claim
  | .refund => side.refund

namespace Tick

variable {E : Engine} {c : Ctx} {r : Reads} {k₀ k k' : Tick} {kind : SpendKind} {saved : Side}

/-- A saved transaction is not replaced. -/
theorem Act.spendOf (h : Act E c r k₀ k k') {tx : RawTx} (hk : k.side.spendOf kind = some tx) :
    k'.side.spendOf kind = some tx := by
  cases h with
  | look hlook =>
    obtain ⟨verdict, note, rfl⟩ := hlook
    cases kind <;> exact hk
  | post => rwa [postOp_side]
  | abort =>
    rw [show (k.abort c _).side = _ from postOp_side _]
    cases kind <;> exact hk
  | claim _ _ hnew =>
    cases kind with
    | claim => simp [Side.spendOf, hnew] at hk
    | refund => exact hk
  | refund _ hnew =>
    cases kind with
    | claim => exact hk
    | refund => simp [Side.spendOf, hnew] at hk
  | _ => cases kind <;> exact hk

theorem kept_spendOf (E : Engine) (kind : SpendKind) (tx : RawTx) :
    SwapSession.Kept E (fun side => side.spendOf kind = some tx) where
  act _ _ _ _ _ hact h := hact.spendOf h
  label _ _ _ h := by cases kind <;> exact h

/-- A tick under way: its file holds the spends of its side, and all it has handed over is among
them. -/
structure Sending (saved : Side) (k : Tick) : Prop where
  synced : ∀ kind, (fileOf saved k.effects).spendOf kind = k.side.spendOf kind
  sent : ∀ kind chain tx, .broadcast kind chain tx ∈ k.effects → k.side.spendOf kind = some tx

/-- An act without a save or a broadcast, that leaves the spends. -/
theorem Sending.quiet (h : Sending saved k) (hside : ∀ kind, k'.side.spendOf kind = k.side.spendOf kind)
    (heffects : k'.effects = k.effects ∨ ∃ e, k'.effects = k.effects ++ [e] ∧
      (∀ side, e ≠ .save side) ∧ ∀ kind chain tx, e ≠ .broadcast kind chain tx) :
    Sending saved k' := by
  obtain hsame | ⟨e, hmore, hsave, hsend⟩ := heffects
  · exact ⟨fun kind => by rw [hsame, hside, h.synced], fun kind chain tx hmem => by
      rw [hside]
      exact h.sent kind chain tx (hsame ▸ hmem)⟩
  · have hfile : fileOf saved k'.effects = fileOf saved k.effects := by
      rw [hmore, fileOf_append]
      cases e with
      | save side => exact absurd rfl (hsave side)
      | _ => rfl
    refine ⟨fun kind => by rw [hfile, hside, h.synced], fun kind chain tx hmem => ?_⟩
    rw [hmore, List.mem_append, List.mem_singleton] at hmem
    obtain hmem | heq := hmem
    · rw [hside]
      exact h.sent kind chain tx hmem
    · exact absurd heq.symm (hsend kind chain tx)

/-- An act that saves its side, and drops no spend. -/
theorem Sending.recorded (h : Sending saved k)
    (hside : ∀ kind tx, k.side.spendOf kind = some tx → k'.side.spendOf kind = some tx)
    (heffects : k'.effects = k.effects ++ [.save k'.side]) : Sending saved k' := by
  refine ⟨fun kind => by rw [heffects, fileOf_save], fun kind chain tx hmem => ?_⟩
  rw [heffects, List.mem_append, List.mem_singleton] at hmem
  obtain hmem | heq := hmem
  · exact hside kind tx (h.sent kind chain tx hmem)
  · cases heq

/-- An act that hands over a saved transaction. -/
theorem Sending.send (h : Sending saved k) (kind : SpendKind) {chain : Chain} {tx : RawTx}
    (hsaved : k.side.spendOf kind = some tx) :
    Sending saved (k.emit (.broadcast kind chain tx)) := by
  refine ⟨fun kind' => ?_, fun kind' chain' tx' hmem => ?_⟩
  · rw [emit_effects, fileOf_append]
    exact h.synced kind'
  · rw [emit_effects, List.mem_append, List.mem_singleton] at hmem
    obtain hmem | heq := hmem
    · exact h.sent kind' chain' tx' hmem
    · obtain ⟨rfl, rfl, rfl⟩ := SwapEffect.broadcast.inj heq
      exact hsaved

theorem Act.sending (h : Act E c r k₀ k k') (hk : Sending saved k) : Sending saved k' := by
  have hkept : ∀ kind tx, k.side.spendOf kind = some tx → k'.side.spendOf kind = some tx :=
    fun kind tx hsaved => h.spendOf hsaved
  cases h with
  | look hlook =>
    obtain ⟨verdict, note, rfl⟩ := hlook
    exact hk.quiet (fun kind => by cases kind <;> rfl) (Or.inl rfl)
  | settle => exact hk.quiet (fun kind => by cases kind <;> rfl) (Or.inl rfl)
  | target => exact hk.quiet (fun kind => by cases kind <;> rfl) (Or.inl rfl)
  | post =>
    refine hk.quiet (fun kind => by rw [postOp_side]) ?_
    exact (postOp_effects _).imp_right fun hpost => ⟨_, hpost, by simp, by simp⟩
  | abort =>
    refine hk.quiet (fun kind => ?_) ?_
    · rw [show (k.abort c _).side = _ from postOp_side _]
      cases kind <;> rfl
    · exact (abort_effects _).imp_right fun hpost => ⟨_, hpost, by simp, by simp⟩
  | fund =>
    exact hk.quiet (fun kind => by cases kind <;> rfl) (Or.inr ⟨_, rfl, by simp, by simp⟩)
  | funded =>
    exact hk.quiet (fun kind => by cases kind <;> rfl) (Or.inr ⟨_, rfl, by simp, by simp⟩)
  | sendClaim _ hsaved => exact hk.send .claim hsaved
  | sendRefund hsaved => exact hk.send .refund hsaved
  | _ => exact hk.recorded hkept rfl

theorem Acts.sending (h : Acts E c r k₀ k) (hk₀ : Sending saved k₀) : Sending saved k := by
  induction h with
  | refl => exact hk₀
  | tail _ hact ih => exact hact.sending ih

end Tick

namespace SwapSession

variable {E : Engine} {s : SwapSession} {kind : SpendKind} {chain : Chain} {tx : RawTx}

/-- What a run does. -/
def trace (E : Engine) (s : SwapSession) : List SessionStep → List SwapEffect
  | [] => []
  | i :: steps => s.effects E i ++ (s.step E i).trace E steps

/-- The file holds the spends of the side. -/
def Synced (s : SwapSession) : Prop := ∀ kind, s.saved.spendOf kind = s.side.spendOf kind

/-- What a step hands over, it leaves in memory and in the file, which stay the same. -/
theorem synced_step (h : Synced s) (i : SessionStep) : Synced (s.step E i) ∧
    ∀ kind chain tx, .broadcast kind chain tx ∈ s.effects E i →
      Both (fun side => side.spendOf kind = some tx) (s.step E i) := by
  cases hi : i.tick? with
  | none =>
    refine ⟨fun kind => ?_, fun kind chain tx hmem => ?_⟩
    · have hboth : Both (fun side => side.spendOf kind = s.side.spendOf kind) (s.step E i) :=
        both_of_label hi (fun _ _ _ hside => by cases kind <;> exact hside) ⟨rfl, h kind⟩
      exact hboth.2.trans hboth.1.symm
    · obtain ⟨c, r, htick, -⟩ := mem_effects hmem
      rw [hi] at htick
      cases htick
  | some tick =>
    obtain ⟨c, r⟩ := tick
    obtain ⟨k, hacts, heffects, hboth⟩ := exists_acts (E := E) (s := s) hi
    have hk : Tick.Sending s.saved k := hacts.sending ⟨h, fun _ _ _ hmem => by cases hmem⟩
    refine ⟨fun kind => ?_, fun kind chain tx hmem => ?_⟩
    · have hsame := hboth (fun side => side.spendOf kind = k.side.spendOf kind) rfl (hk.synced kind)
      exact hsame.2.trans hsame.1.symm
    · have hside := hk.sent kind chain tx (heffects ▸ hmem)
      exact hboth (fun side => side.spendOf kind = some tx) hside ((hk.synced kind).trans hside)

theorem saved_of_mem_trace (h : Synced s) {steps : List SessionStep}
    (hmem : .broadcast kind chain tx ∈ s.trace E steps) :
    (run (step E) s steps).saved.spendOf kind = some tx := by
  induction steps generalizing s with
  | nil => cases hmem
  | cons i steps ih =>
    obtain ⟨hsynced, hsent⟩ := synced_step (E := E) h i
    obtain hfirst | hlater := List.mem_append.mp hmem
    · exact ((Tick.kept_spendOf E kind tx).run (hsent kind chain tx hfirst) steps).2
    · exact ih hsynced hlater

/-- **A side hands over one claim and one refund in its life**, and its file has each from before
the first time on. -/
theorem one_spend_a_kind (E : Engine) (role : Role) (identity : String) (steps : List SessionStep)
    (kind : SpendKind) (chain chain' : Chain) (tx tx' : RawTx)
    (h : .broadcast kind chain tx ∈ (fresh role identity).trace E steps)
    (h' : .broadcast kind chain' tx' ∈ (fresh role identity).trace E steps) :
    tx = tx' ∧ (run (step E) (fresh role identity) steps).saved.spendOf kind = some tx := by
  have hsynced : Synced (fresh role identity) := fun _ => rfl
  have hsaved := saved_of_mem_trace hsynced h
  exact ⟨Option.some.inj (hsaved.symm.trans (saved_of_mem_trace hsynced h')), hsaved⟩

/-- The theorem at the taker that sends its claim twice. -/
theorem one_spend_a_kind_resent : ∃ chain tx,
    .broadcast .claim chain tx ∈ (fresh .taker "taker").trace sampleEngine lateClaim ∧
      (run (step sampleEngine) (fresh .taker "taker") lateClaim).saved.spendOf .claim = some tx := by
  have hsends : ((fresh .taker "taker").trace sampleEngine lateClaim).any sendsClaim = true := by
    decide +kernel
  obtain ⟨e, hmem, hsent⟩ := List.any_eq_true.mp hsends
  unfold sendsClaim at hsent
  split at hsent
  · exact ⟨_, _, hmem,
      (one_spend_a_kind sampleEngine .taker "taker" lateClaim .claim _ _ _ _ hmem hmem).2⟩
  · cases hsent

end SwapSession

end Gavl
