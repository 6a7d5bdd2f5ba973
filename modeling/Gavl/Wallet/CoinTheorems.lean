import Gavl.Swap.DigestTheorems
import Gavl.Wallet.ChainWallet

/-!
# Coin selection is sound and complete

Some prefix of the coins, largest first, pays for itself whenever any choice of them does, and what
is built pays its fee exactly or loses less than a change output is worth.
-/

namespace Gavl

open LargestFirst

variable {S : Schnorr} {L : TxLib} {w : ChainWallet} {args : PayArgs} {outScript : Bytes}
  {listed : List EsploraUtxo} {tx : BuiltTx}

/-- What a payment from `n` inputs is charged, with a change output or without. -/
def payFee (L : TxLib) (args : PayArgs) (outScript : Bytes) (n : ℕ) (change : Bool) : ℕ :=
  args.feeRate.fee (L.vsize n outScript change)

/-- Inputs minus outputs. -/
def BuiltTx.fee (tx : BuiltTx) : ℤ := coinSum tx.inputs - tx.amount - tx.change.getD 0

/-- A transaction as the loop leaves it. -/
structure Selected (w : ChainWallet) (L : TxLib) (args : PayArgs) (outScript : Bytes)
    (tx : BuiltTx) : Prop where
  pays : tx.outScript = outScript
  amount : tx.amount = args.amount
  vsize : tx.vsize = L.vsize tx.inputs.length outScript tx.change.isSome
  change : ∀ c, tx.change = some c → (w.changeDust : ℤ) ≤ c
  fee_le : (payFee L args outScript tx.inputs.length tx.change.isSome : ℤ) ≤ tx.fee
  fee_lt : tx.change = none →
    tx.fee < payFee L args outScript tx.inputs.length true + w.changeDust

/-- What is built spends a prefix. -/
theorem selectCoins_some : ∀ {rest inputs : List EsploraUtxo},
    w.selectCoins L outScript args inputs rest = some tx →
      Selected w L args outScript tx ∧ ∃ n, tx.inputs = inputs ++ rest.take n := by
  intro rest
  induction rest with
  | nil => exact fun h => absurd h (by simp [ChainWallet.selectCoins])
  | cons u rest ih =>
    intro inputs h
    have hnext : w.selectCoins L outScript args (inputs ++ [u]) rest = some tx →
        Selected w L args outScript tx ∧ ∃ n, tx.inputs = inputs ++ (u :: rest).take n := by
      intro h
      obtain ⟨hsel, n, hn⟩ := ih h
      refine ⟨hsel, n + 1, ?_⟩
      rw [hn, List.append_assoc, List.singleton_append, List.take_succ_cons]
    have hone : inputs ++ [u] = inputs ++ (u :: rest).take 1 := rfl
    rw [ChainWallet.selectCoins] at h
    dsimp only at h
    split_ifs at h with hshort hchange hexact
    · exact hnext h
    · obtain rfl := Option.some.inj h
      refine ⟨⟨rfl, rfl, rfl, ?_, ?_, ?_⟩, 1, hone⟩
      · intro c hc
        rwa [← Option.some.inj hc]
      · simp only [BuiltTx.fee, payFee, Option.getD_some, Option.isSome_some]
        omega
      · exact fun h => absurd h (by simp)
    · obtain rfl := Option.some.inj h
      refine ⟨⟨rfl, rfl, rfl, ?_, ?_, ?_⟩, 1, hone⟩
      · exact fun c hc => absurd hc (by simp)
      · simp only [BuiltTx.fee, payFee, Option.getD_none, Option.isSome_none]
        omega
      · intro _
        simp only [BuiltTx.fee, payFee, Option.getD_none]
        omega
    · exact hnext h

/-- Where nothing is built, no prefix pays for itself. -/
theorem selectCoins_none : ∀ {rest inputs : List EsploraUtxo},
    w.selectCoins L outScript args inputs rest = none → ∀ n < rest.length,
      (coinSum (inputs ++ rest.take (n + 1)) : ℤ)
        < args.amount + payFee L args outScript (inputs.length + (n + 1)) false := by
  intro rest
  induction rest with
  | nil => exact fun _ n hn => absurd hn (Nat.not_lt_zero n)
  | cons u rest ih =>
    intro inputs h n hn
    have hlen : (inputs ++ [u]).length = inputs.length + 1 := List.length_append
    -- The prefix that ends with `u` fails both fee tests, and the longer ones fail further on.
    have hstep : (coinSum (inputs ++ [u]) : ℤ)
          < args.amount + payFee L args outScript (inputs.length + 1) false ∧
        w.selectCoins L outScript args (inputs ++ [u]) rest = none := by
      rw [ChainWallet.selectCoins] at h
      dsimp only at h
      unfold payFee
      rw [hlen] at h
      split_ifs at h with hshort hchange hexact
      · exact ⟨by omega, h⟩
      · exact ⟨by omega, h⟩
    cases n with
    | zero => exact hstep.1
    | succ n =>
      have := ih hstep.2 n (by rw [List.length_cons] at hn; omega)
      rw [hlen, List.append_assoc, List.singleton_append] at this
      rwa [List.take_succ_cons, show inputs.length + (n + 1 + 1) = inputs.length + 1 + (n + 1) by omega]

/-- If some choice of coins pays for itself, one of the prefixes does. -/
theorem selectCoins_complete {coins : List EsploraUtxo} (hamount : 1 ≤ args.amount)
    (hsub : coins.Subperm (listed.filter w.isSpendable))
    (hcovers : args.amount + payFee L args outScript coins.length false ≤ coinSum coins) :
    ∃ tx, w.selectCoins L outScript args [] (w.spendable listed) = some tx := by
  cases h : w.selectCoins L outScript args [] (w.spendable listed) with
  | some tx => exact ⟨tx, rfl⟩
  | none =>
    have hbest : coinSum coins ≤ coinSum ((w.spendable listed).take coins.length) :=
      sum_le_sum_largestFirst hsub
    have hlen : coins.length ≤ (w.spendable listed).length :=
      hsub.length_le.trans (largestFirst_perm _ _).length_eq.ge
    cases hn : coins.length with
    | zero =>
      rw [List.eq_nil_of_length_eq_zero hn] at hcovers
      have hnil : coinSum [] = 0 := rfl
      omega
    | succ n =>
      have hshort := selectCoins_none h n (by omega)
      rw [List.nil_append, List.length_nil, Nat.zero_add] at hshort
      rw [hn] at hcovers hbest
      omega

/-! ## Payments -/

/-- An address is no data carrier: what it decodes to does not begin with `OP_RETURN`. -/
def TxLib.NoData (L : TxLib) : Prop :=
  ∀ chain net text destination, L.decode chain net text = some destination →
    destination.script.head? ≠ some 0x6a

theorem one_le_dustThreshold (chain : Chain) {script : Bytes} (h : script.head? ≠ some 0x6a) :
    1 ≤ dustThreshold (networks chain) script := by
  have hin : 1 ≤ if isWitnessProgram script then 32 + 4 + 1 + 107 / 4 + 4 else 32 + 4 + 1 + 107 + 4 := by
    split <;> decide
  have hrate : 1000 ≤ (networks chain).dustRelayFeePerKvB := by cases chain <;> decide
  unfold dustThreshold
  rw [if_neg h]
  dsimp only
  apply (Nat.le_div_iff_mul_le (by decide)).mpr
  rw [Nat.one_mul]
  exact hrate.trans (Nat.le_mul_of_pos_left _ (by omega))

/-- A request that is not refused outright pays a destination no less than its dust. -/
theorem one_le_amount (hL : L.NoData) (h : w.checkPay L args = .ok outScript) : 1 ≤ args.amount := by
  unfold ChainWallet.checkPay at h
  split_ifs at h
  cases hdecode : L.decode w.chain w.net args.to with
  | none =>
    rw [hdecode] at h
    exact absurd h (by simp)
  | some destination =>
    rw [hdecode] at h
    dsimp only at h
    split_ifs at h with hdust
    have := one_le_dustThreshold w.chain (hL _ _ _ _ hdecode)
    omega

theorem payNow_ok_iff (S : Schnorr) (listed : List EsploraUtxo)
    (h : w.checkPay L args = .ok outScript) :
    (w.payNow S L args listed).2 = .ok tx ↔
      (w.caughtUp listed).selectCoins L outScript args [] ((w.caughtUp listed).spendable listed)
        = some tx := by
  unfold ChainWallet.payNow
  rw [h]
  dsimp only
  cases (w.caughtUp listed).selectCoins L outScript args [] ((w.caughtUp listed).spendable listed) with
  | none => exact iff_of_false (by simp) (by simp)
  | some tx' =>
    dsimp only
    rw [Except.ok.injEq, Option.some.injEq]

/-- What a payment spends is spendable. -/
theorem payNow_subperm (h : (w.payNow S L args listed).2 = .ok tx) :
    tx.inputs.Subperm (listed.filter (w.caughtUp listed).isSpendable) := by
  cases hcheck : w.checkPay L args with
  | error err =>
    unfold ChainWallet.payNow at h
    rw [hcheck] at h
    exact absurd h (by simp)
  | ok outScript =>
    obtain ⟨-, n, hn⟩ := selectCoins_some ((payNow_ok_iff S listed hcheck).mp h)
    rw [hn, List.nil_append]
    exact (List.take_sublist n _).subperm.trans (largestFirst_perm _ _).subperm

/-- **Coin selection is sound and complete** for a request that is not refused outright. -/
theorem payNow_sound_complete (hL : L.NoData) (hcheck : w.checkPay L args = .ok outScript)
    (hnodup : (listed.map EsploraUtxo.outpoint).Nodup)
    (hmono : ∀ n, payFee L args outScript n false ≤ payFee L args outScript n true) :
    ((∃ tx, (w.payNow S L args listed).2 = .ok tx) ↔
      ∃ coins, coins.Subperm (listed.filter (w.caughtUp listed).isSpendable) ∧
        args.amount + payFee L args outScript coins.length false ≤ coinSum coins) ∧
    ∀ tx, (w.payNow S L args listed).2 = .ok tx →
      tx.inputs.Subperm (listed.filter (w.caughtUp listed).isSpendable) ∧
      (tx.inputs.map EsploraUtxo.outpoint).Nodup ∧
      tx.outScript = outScript ∧ tx.amount = args.amount ∧
      (coinSum tx.inputs : ℤ) = args.amount + tx.change.getD 0 + tx.fee ∧
      (∀ c, tx.change = some c → (w.changeDust : ℤ) ≤ c) ∧
      (payFee L args outScript tx.inputs.length tx.change.isSome : ℤ) ≤ tx.fee ∧
      (tx.change = none → tx.fee < payFee L args outScript tx.inputs.length true + w.changeDust) := by
  have hselected : ∀ tx, (w.payNow S L args listed).2 = .ok tx →
      Selected (w.caughtUp listed) L args outScript tx := fun tx htx =>
    (selectCoins_some ((payNow_ok_iff S listed hcheck).mp htx)).1
  refine ⟨⟨?_, ?_⟩, ?_⟩
  · rintro ⟨tx, htx⟩
    have hsel := hselected tx htx
    refine ⟨tx.inputs, payNow_subperm htx, ?_⟩
    have hfee := hsel.fee_le
    unfold BuiltTx.fee at hfee
    rw [hsel.amount] at hfee
    cases hchange : tx.change with
    | none =>
      rw [hchange, Option.isSome_none, Option.getD_none] at hfee
      omega
    | some c =>
      have hc := hsel.change c hchange
      have := hmono tx.inputs.length
      rw [hchange, Option.isSome_some, Option.getD_some] at hfee
      omega
  · rintro ⟨coins, hsub, hcovers⟩
    obtain ⟨tx, htx⟩ := selectCoins_complete (one_le_amount hL hcheck) hsub hcovers
    exact ⟨tx, (payNow_ok_iff S listed hcheck).mpr htx⟩
  · intro tx htx
    have hsel := hselected tx htx
    have hsub := payNow_subperm htx
    refine ⟨hsub, ?_, hsel.pays, hsel.amount, ?_, hsel.change, hsel.fee_le, hsel.fee_lt⟩
    · obtain ⟨coins, hperm, hsub'⟩ := hsub
      have hlisted := hsub'.trans List.filter_sublist
      exact (hperm.map _).nodup_iff.mp ((hlisted.map _).nodup hnodup)
    · unfold BuiltTx.fee
      rw [hsel.amount]
      omega

/-- The output script of the address in the example below. -/
def sampleScript : Bytes :=
  fromHex "512079be667ef9dcbbac55a06295ce870b07029bfcdb2dce28d959f2815b16f81798"

/-- A library that knows one address, and measures payments between taproot outputs. -/
def sampleLib : TxLib where
  decode chain net text :=
    if chain = .bitcoin ∧ net = .mainnet ∧
        text = "bc1p0xlxvlhemja6c4dqv22uapctqupfhlxm9h8z3k2e72q4k9hcz7vqzk5jj0" then
      some ⟨true, sampleScript⟩
    else none
  vsize n _ change := (42 + 230 * n + (if change then 344 else 172) + 3) / 4
  txid tx :=
    let digits := Nat.toDigits 10 tx.amount.toNat
    String.ofList (List.replicate (64 - digits.length) '0' ++ digits)

def sampleWallet : ChainWallet := ⟨.bitcoin, .mainnet, [7], sampleScript, [], []⟩

/-- A request at one base unit a vbyte. -/
def samplePay (amount : ℤ) : PayArgs :=
  ⟨"bc1p0xlxvlhemja6c4dqv22uapctqupfhlxm9h8z3k2e72q4k9hcz7vqzk5jj0", amount, ⟨"1", true, id⟩⟩

def sampleCoin (value : ℕ) : EsploraUtxo := ⟨String.ofList (List.replicate 64 'a'), 0, value, true⟩

/-- A coin covers an amount below dust and its fee many times over, and nothing is built. -/
theorem payNow_sound_complete_dust :
    ¬((∃ tx, (sampleWallet.payNow plainSchnorr sampleLib (samplePay 1) [sampleCoin 100000]).2
          = .ok tx) ↔
      ∃ coins, coins.Subperm
          ([sampleCoin 100000].filter (sampleWallet.caughtUp [sampleCoin 100000]).isSpendable) ∧
        (samplePay 1).amount + payFee sampleLib (samplePay 1) sampleScript coins.length false
          ≤ coinSum coins) := by
  have hcheck : ∃ err, sampleWallet.checkPay sampleLib (samplePay 1) = .error err := ⟨_, rfl⟩
  have hrefused : ¬∃ tx, (sampleWallet.payNow plainSchnorr sampleLib (samplePay 1)
      [sampleCoin 100000]).2 = .ok tx := by
    rintro ⟨tx, htx⟩
    obtain ⟨err, herr⟩ := hcheck
    unfold ChainWallet.payNow at htx
    rw [herr] at htx
    exact absurd htx (by simp)
  refine fun h => hrefused (h.mpr ⟨[sampleCoin 100000], ?_, ?_⟩)
  · have hfilter : [sampleCoin 100000].filter (sampleWallet.caughtUp [sampleCoin 100000]).isSpendable
        = [sampleCoin 100000] := by rfl
    rw [hfilter]
  · decide

/-- A payment that is built, with change. -/
theorem payNow_sound_complete_change :
    ∃ tx, (sampleWallet.payNow plainSchnorr sampleLib (samplePay 50000) [sampleCoin 100000]).2
      = .ok tx ∧ tx.amount = 50000 := by
  have hL : sampleLib.NoData := by
    intro chain net text destination h
    unfold sampleLib at h
    dsimp only at h
    split_ifs at h
    obtain rfl := Option.some.inj h
    decide
  have hcheck : sampleWallet.checkPay sampleLib (samplePay 50000) = .ok sampleScript := by rfl
  have hnodup : ([sampleCoin 100000].map EsploraUtxo.outpoint).Nodup := by decide
  have key := payNow_sound_complete (S := plainSchnorr) hL hcheck hnodup fun n => by
    show (42 + 230 * n + 172 + 3) / 4 ≤ (42 + 230 * n + 344 + 3) / 4
    omega
  obtain ⟨tx, htx⟩ := key.1.mpr ⟨[sampleCoin 100000], List.Subperm.refl _, by decide⟩
  exact ⟨tx, htx, (key.2 tx htx).2.2.2.1⟩

end Gavl
