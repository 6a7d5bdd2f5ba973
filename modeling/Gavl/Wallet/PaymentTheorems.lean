import Gavl.Lib.Runs
import Gavl.Wallet.CoinTheorems
import Gavl.Wallet.Payments

/-!
# Payments that share an input

Payments keep apart as long as no listing brings back an outpoint that a payment spent and that a
listing since has omitted. A listing that does is an endpoint that lags.
-/

namespace Gavl

open Runs

namespace PayState

variable {S : Schnorr} {L : TxLib} {s : PayState} {listed : List EsploraUtxo}

/-- The outpoints that successful payments spent. -/
def paidOutpoints (s : PayState) : List (String × ℕ) :=
  s.paid.flatMap fun tx => tx.inputs.map EsploraUtxo.outpoint

/-- No two successful payments have an input in common. -/
def Exclusive (s : PayState) : Prop :=
  s.paid.Pairwise fun a b => ∀ u ∈ a.inputs, ∀ v ∈ b.inputs, u.outpoint ≠ v.outpoint

/-- A listing brings back no outpoint that a payment spent and a listing since has omitted: what it
lists of them, the wallet still excludes. -/
def BringsNoneBack (s : PayState) (listed : List EsploraUtxo) : Prop :=
  ∀ u ∈ listed, u.outpoint ∈ s.paidOutpoints → u.key ∈ s.wallet.spent

instance : Decidable (s.BringsNoneBack listed) :=
  inferInstanceAs (Decidable (∀ u ∈ listed, u.outpoint ∈ s.paidOutpoints → u.key ∈ s.wallet.spent))

/-- The condition on a step: a listing it reads brings none back. -/
def Fresh (s : PayState) : PayEvent → Prop
  | .listing (some age) => ∀ listed ∈ s.moments[age]?, s.BringsNoneBack listed
  | .listing none | .call _ | .broadcast _ | .deposit _ | .confirm _ => True

instance : (e : PayEvent) → Decidable (s.Fresh e)
  | .listing (some age) =>
    inferInstanceAs (Decidable (∀ listed ∈ s.moments[age]?, s.BringsNoneBack listed))
  | .listing none | .call _ | .broadcast _ | .deposit _ | .confirm _ => isTrue trivial

/-- Payments so far are apart, and the running one from all of them. -/
structure Apart (s : PayState) : Prop where
  exclusive : s.Exclusive
  built : ∀ tx, s.built = some tx → ∀ u ∈ tx.inputs, u.outpoint ∉ s.paidOutpoints

/-- A spendable coin of such a listing is none that was paid with. -/
theorem notMem_paidOutpoints (h : s.BringsNoneBack listed) {u : EsploraUtxo} (hu : u ∈ listed)
    (hspend : (s.wallet.caughtUp listed).isSpendable u = true) : u.outpoint ∉ s.paidOutpoints := by
  intro hpaid
  have hlive : u.key ∈ (s.wallet.caughtUp listed).spent :=
    List.mem_filter.mpr ⟨h u hu hpaid, decide_eq_true (List.mem_map_of_mem hu)⟩
  unfold ChainWallet.isSpendable at hspend
  rw [decide_eq_true hlive] at hspend
  exact absurd hspend (by simp)

theorem Apart.settle (h : s.Apart) : s.settle.Apart :=
  ⟨h.exclusive, fun _ hnone => absurd hnone (by simp [PayState.settle])⟩

theorem Apart.read (h : s.Apart) (hback : s.BringsNoneBack listed) : (s.read S L listed).Apart := by
  unfold PayState.read
  split
  · rename_i args rest hqueue hbuilt
    split
    · rename_i w tx hpay
      refine ⟨h.exclusive, fun tx' htx u hu => ?_⟩
      obtain rfl := Option.some.inj htx
      have hok : (s.wallet.payNow S L args listed).2 = .ok tx := by rw [hpay]
      obtain ⟨hmem, hspend⟩ := List.mem_filter.mp ((payNow_subperm hok).subset hu)
      exact notMem_paidOutpoints hback hmem hspend
    · exact ⟨h.exclusive, fun _ hnone => absurd hnone (by simp [PayState.settle])⟩
  · exact h

/-- A payment that is taken is apart from those before it. -/
theorem Exclusive.accept (L : TxLib) {tx : BuiltTx} (h : s.Exclusive)
    (hnew : ∀ u ∈ tx.inputs, u.outpoint ∉ s.paidOutpoints) : (s.accept L tx).Exclusive := by
  show (s.paid ++ [tx]).Pairwise _
  rw [List.pairwise_append]
  refine ⟨h, List.pairwise_singleton _ _, fun a ha b hb u hu v hv heq => ?_⟩
  rw [List.mem_singleton.mp hb] at hv
  exact hnew v hv (List.mem_flatMap.mpr ⟨a, ha, List.mem_map.mpr ⟨u, hu, heq⟩⟩)

theorem Apart.step (h : s.Apart) (e : PayEvent) (hfresh : s.Fresh e) : (s.step S L e).Apart := by
  cases e with
  | call c =>
    show (s.pay L c).Apart
    unfold PayState.pay
    cases c with
    | send args => exact ⟨h.exclusive, h.built⟩
    | fundHtlc args =>
      dsimp only
      split
      · split_ifs
        · exact ⟨h.exclusive, h.built⟩
        · exact h
      · exact h
  | listing age =>
    cases age with
    | none =>
      show (if s.built.isNone then s.settle else s).Apart
      split_ifs
      · exact h.settle
      · exact h
    | some age =>
      unfold PayState.step
      dsimp only
      cases hlisted : s.moments[age]? with
      | none => exact h
      | some listed => exact h.read (hfresh listed hlisted)
  | broadcast answer =>
    unfold PayState.step
    dsimp only
    cases hbuilt : s.built with
    | none => exact h
    | some tx =>
      dsimp only
      split_ifs
      · exact ⟨h.exclusive.accept L (h.built tx hbuilt),
          fun _ hnone => absurd hnone (by simp [PayState.settle])⟩
      · exact h.settle
  | deposit u =>
    unfold PayState.step
    dsimp only
    split_ifs
    · exact h
    · exact ⟨h.exclusive, h.built⟩
  | confirm txid => exact ⟨h.exclusive, h.built⟩

/-- **Payments never share an input** in any run none of whose listings brings back an outpoint that
was spent and then omitted. -/
theorem payments_exclusive (S : Schnorr) (L : TxLib) (w : ChainWallet) (listed : List EsploraUtxo)
    (events : List PayEvent) (h : Along (PayState.step S L) Fresh (start w listed) events) :
    ∀ pre, pre <+: events → (run (PayState.step S L) (start w listed) pre).Exclusive := by
  rintro pre ⟨rest, rfl⟩
  have hstart : (start w listed).Apart :=
    ⟨List.Pairwise.nil, fun _ hnone => absurd hnone (by simp [start])⟩
  exact (inv_of_along (fun s e hs hfresh => hs.step e hfresh) hstart (along_append.mp h).1).exclusive

/-- The txid of a sample payment. -/
def sampleTxid (amount : ℤ) : String := sampleLib.txid ⟨[], [], amount, none, 0⟩

/-- Three overlapping calls. The first two read the newest state; the third is answered by an
endpoint that has not seen the first payment yet. -/
def laggingRun : List PayEvent :=
  [.call (.fundHtlc (samplePay 50000)), .call (.send (samplePay 10000)),
    .call (.send (samplePay 20000)),
    .listing (some 0), .broadcast (some (sampleTxid 50000)),
    .listing (some 0), .broadcast (some (sampleTxid 10000)),
    .listing (some 2), .broadcast (some (sampleTxid 20000))]

/-- The first and the third payment spend the same coin. -/
theorem payments_exclusive_lagging :
    ¬(run (PayState.step plainSchnorr sampleLib) (start sampleWallet [sampleCoin 100000])
      laggingRun).Exclusive := by
  unfold Exclusive
  decide +kernel

/-- Where each call reads the newest state. -/
def promptRun : List PayEvent :=
  [.call (.fundHtlc (samplePay 50000)), .call (.send (samplePay 10000)),
    .listing (some 0), .broadcast (some (sampleTxid 50000)),
    .listing (some 0), .broadcast (some (sampleTxid 10000))]

theorem payments_exclusive_prompt :
    (run (PayState.step plainSchnorr sampleLib) (start sampleWallet [sampleCoin 100000])
        promptRun).Exclusive ∧
      (run (PayState.step plainSchnorr sampleLib) (start sampleWallet [sampleCoin 100000])
        promptRun).paid.length = 2 := by
  have hfresh : Along (PayState.step plainSchnorr sampleLib) Fresh
      (start sampleWallet [sampleCoin 100000]) promptRun := by
    decide +kernel
  exact ⟨payments_exclusive _ _ _ _ promptRun hfresh promptRun (List.prefix_refl _), by decide +kernel⟩

end PayState

end Gavl
