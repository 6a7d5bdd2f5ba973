import Gavl.Lib.EarlyReturn
import Gavl.Swap.Step

/-!
# What a tick can do

Every tick of a side is a sequence of acts: it looks, posts, finds or funds its lock, claims,
refunds, or settles on a stage. An act has at most one effect, so a tick cut short is a sequence of
acts too. What holds of ticks is proved act by act.
-/

namespace Gavl

open Relation EarlyReturn

/-! ## The two HTLCs of a side -/

namespace Terms

variable (t : Terms)

def myChain : Role → Chain
  | .taker => t.takerChain
  | .maker => t.makerChain

def myAmount : Role → ℕ
  | .taker => t.takerAmount
  | .maker => t.makerAmount

def theirChain : Role → Chain
  | .taker => t.makerChain
  | .maker => t.takerChain

def theirAmount : Role → ℕ
  | .taker => t.makerAmount
  | .maker => t.takerAmount

end Terms

namespace Ctx

variable (E : Engine) (c : Ctx) (r : Reads)

/-- The maker's key as the engine derives it. -/
def makerSwapKey : Bytes := E.lib.swapKey c.seed c.matchId c.terms.makerChain .maker

/-- The maker's public key in a role's eyes: a maker derives its own. -/
def makerPub : Role → Bytes
  | .taker => fromHex (c.terms.makerKey.getD "")
  | .maker => fromHex (toHex (E.lib.xOnly (c.makerSwapKey E)))

/-- The HTLC the taker funds, in a role's eyes. -/
def takerHtlc (role : Role) : HtlcParams :=
  ⟨c.hash, c.makerPub E role, fromHex c.terms.takerKey, c.terms.takerRefundBlocks⟩

/-- The HTLC the maker funds, in a role's eyes. -/
def makerHtlc (role : Role) : HtlcParams :=
  ⟨c.hash, fromHex c.terms.takerKey, c.makerPub E role, c.terms.makerRefundBlocks⟩

def myHtlc : Role → HtlcParams
  | .taker => c.takerHtlc E .taker
  | .maker => c.makerHtlc E .maker

def theirHtlc : Role → HtlcParams
  | .taker => c.makerHtlc E .taker
  | .maker => c.takerHtlc E .maker

/-- The tick's scan of my HTLC's address. -/
def scanMine (role : Role) : Except String Scan :=
  scan E.lib (c.terms.myChain role) (E.net (c.terms.myChain role)) (c.myHtlc E role) r.mine

/-- The tick's scan of theirs, for a side that has locked. -/
def scanTheirs (role : Role) : Except String Scan :=
  scan E.lib (c.terms.theirChain role) (E.net (c.terms.theirChain role)) (c.theirHtlc E role)
    r.theirs

/-- The derived keys are not the board's. -/
def Foreign : Role → Prop
  | .taker => E.lib.hashOf (E.lib.swapSecret c.seed (takeSwapId c.terms.offerId c.terms.taker
      c.terms.takeSeq)) ≠ c.hash ∨
    toHex (E.lib.xOnly (E.lib.swapKey c.seed (takeSwapId c.terms.offerId c.terms.taker
      c.terms.takeSeq) c.terms.takerChain .taker)) ≠ c.terms.takerKey
  | .maker => c.terms.makerKey.isSome = true ∧
    c.terms.makerKey ≠ some (toHex (E.lib.xOnly (c.makerSwapKey E)))

/-- The match is this identity's, and the keys of its HTLCs are known. -/
structure Ours (role : Role) : Prop where
  own : ¬c.Foreign E role
  key : role = .taker → c.terms.makerKey.isSome = true

end Ctx

namespace Tick

variable {E : Engine} {c : Ctx} {r : Reads} {k : Tick}

/-! ## What the parts leave of a side -/

@[simp] theorem set_side (side : Side) : (k.set side).side = side := rfl

@[simp] theorem set_effects (side : Side) : (k.set side).effects = k.effects := rfl

@[simp] theorem set_posts (side : Side) : (k.set side).posts = k.posts := rfl

@[simp] theorem emit_side (e : SwapEffect) : (k.emit e).side = k.side := rfl

@[simp] theorem emit_effects (e : SwapEffect) : (k.emit e).effects = k.effects ++ [e] := rfl

@[simp] theorem emit_posts (e : SwapEffect) : (k.emit e).posts = k.posts := rfl

theorem getLast?_emit (e : SwapEffect) : (k.emit e).effects.getLast? = some e :=
  List.getLast?_concat

@[simp] theorem save_side : k.save.side = k.side := rfl

@[simp] theorem save_effects : k.save.effects = k.effects ++ [.save k.side] := rfl

@[simp] theorem setNote_side (note : Option String) :
    (k.setNote note).side = { k.side with note := note } := rfl

@[simp] theorem setNote_effects (note : Option String) : (k.setNote note).effects = k.effects := rfl

@[simp] theorem setStage_side (stage : SwapStage) :
    (k.setStage stage).side = { k.side with stage := stage } := rfl

@[simp] theorem setStage_effects (stage : SwapStage) : (k.setStage stage).effects = k.effects := rfl

@[simp] theorem finish_side (stage : SwapStage) (note : Option String) :
    (k.finish stage note).side = { k.side with stage := stage, note := note } := rfl

@[simp] theorem finish_effects (stage : SwapStage) (note : Option String) :
    (k.finish stage note).effects = k.effects := rfl

@[simp] theorem postOp_side (body : PostBody) : (k.postOp c body).side = k.side := by
  unfold postOp
  split_ifs <;> rfl

@[simp] theorem postProof_side (chain : Chain) (amount : ℕ) (makerKey : Option String) :
    (k.postProof E c chain amount makerKey).side = k.side := postOp_side _

@[simp] theorem postLocked_side (hint : Option LockHint) : (postLocked c k hint).side = k.side := by
  unfold postLocked
  split
  · split_ifs <;> simp
  · rfl

theorem broadcast_side (sent : Except String Unit) (kind : SpendKind) (chain : Chain) (tx : RawTx) :
    ∃ note, (k.broadcast sent kind chain tx).side = { k.side with note := note } := by
  unfold broadcast
  split
  · exact ⟨k.side.note, rfl⟩
  · exact ⟨_, rfl⟩

theorem broadcast_myLock (sent : Except String Unit) (kind : SpendKind) (chain : Chain)
    (tx : RawTx) : (k.broadcast sent kind chain tx).side.myLock = k.side.myLock := by
  obtain ⟨note, hside⟩ := broadcast_side (k := k) sent kind chain tx
  rw [hside]

theorem broadcast_effects (sent : Except String Unit) (kind : SpendKind) (chain : Chain)
    (tx : RawTx) :
    (k.broadcast sent kind chain tx).effects = k.effects ++ [.broadcast kind chain tx] := by
  unfold broadcast
  split <;> rfl

theorem adopt_claim (mine : Scan) (amount : ℕ) :
    (k.adopt mine amount).side.claim = k.side.claim := by
  unfold adopt
  split_ifs
  · rfl
  · split <;> rfl

theorem adopt_theirLock (mine : Scan) (amount : ℕ) :
    (k.adopt mine amount).side.theirLock = k.side.theirLock := by
  unfold adopt
  split_ifs
  · rfl
  · split <;> rfl

theorem pickExact_spec {outs : List HtlcOut} {amount : ℕ} {unspentOnly : Bool} {o : HtlcOut}
    (h : pickExact outs amount unspentOnly = some o) : o ∈ outs ∧ o.value = amount := by
  unfold pickExact at h
  have hmem := (List.mem_insertionSort _).mp (List.mem_of_head? h)
  obtain ⟨hmem, hcond⟩ := List.mem_filter.mp hmem
  rw [Bool.and_eq_true, decide_eq_true_eq] at hcond
  exact ⟨hmem, hcond.1⟩

theorem theirOut_spec {outs : List HtlcOut} {amount : ℕ} {unspentOnly : Bool} {o : HtlcOut}
    (h : theirOut k outs amount unspentOnly = some o) :
    o ∈ outs ∧ (k.side.theirLock = none → o.value = amount) := by
  unfold theirOut at h
  cases hlock : k.side.theirLock with
  | some lock =>
    rw [hlock] at h
    exact ⟨List.mem_of_find?_eq_some h, fun hnone => by cases hnone⟩
  | none =>
    rw [hlock] at h
    obtain ⟨hmem, hvalue⟩ := pickExact_spec h
    exact ⟨hmem, fun _ => hvalue⟩

/-- A side that has looked at a proof, or been told of trouble. -/
def Looked (s s' : Side) : Prop := ∃ verdict note, s' = { s with theirProof := verdict, note := note }

theorem Looked.refl (s : Side) : Looked s s := ⟨s.theirProof, s.note, rfl⟩

theorem looked_verifyProof (proof : FundsProof) (chain : Chain) (amount : ℕ) :
    Looked k.side (k.verifyProof E c r proof chain amount).side := by
  unfold verifyProof
  split
  · exact ⟨_, k.side.note, rfl⟩
  · exact ⟨k.side.theirProof, _, rfl⟩

theorem looked_takerProofs : Looked k.side (takerProofs E c r k).side := by
  unfold takerProofs
  extract_lets k'
  have hk : k'.side = k.side := by
    show (if _ then _ else _ : Tick).side = _
    split_ifs <;> simp
  rw [← hk]
  split
  · split_ifs
    · exact looked_verifyProof _ _ _
    · exact Looked.refl _
  · exact Looked.refl _

/-! ## Acts -/

/-- An output the taker may reveal its secret for: unspent, confirmed, early in its refund window. -/
structure Revealable (E : Engine) (c : Ctx) (o : HtlcOut) (tip : ℕ) : Prop where
  unspent : o.spend = none
  confirmed : E.policy.confirmations c.terms.makerChain ≤ confsOf o.height tip
  early : confsOf o.height tip + claimSafetyBlocks c.terms.makerRefundBlocks
    ≤ c.terms.makerRefundBlocks

/-- The taker's scan shows the output it looked for when the tick began. -/
def SeesTarget (E : Engine) (c : Ctx) (r : Reads) (k₀ : Tick) (P : HtlcOut → ℕ → Prop) : Prop :=
  ∃ theirs o, c.scanTheirs E r .taker = .ok theirs ∧
    theirOut k₀ theirs.outs c.terms.makerAmount false = some o ∧ P o theirs.tip

/-- The scan shows no lock of mine. -/
def SeesNoLock (E : Engine) (c : Ctx) (r : Reads) (role : Role) (mine : Scan) : Prop :=
  c.scanMine E r role = .ok mine ∧ pickExact mine.outs (c.terms.myAmount role) false = none

/-- The scan shows my lock spent. -/
def SeesSpent (E : Engine) (c : Ctx) (r : Reads) (k₀ k : Tick) : Prop :=
  ∃ mine o, c.scanMine E r k₀.side.role = .ok mine ∧ o ∈ mine.outs ∧
    k.side.myLock = some o.outpoint ∧ o.spend.isSome = true

/-- The scan shows no lock of mine, and the tick has not tried to fund one. -/
def GivesUp (E : Engine) (c : Ctx) (r : Reads) (k₀ k : Tick) : Prop :=
  k.side.lockIntentAt = k₀.side.lockIntentAt ∧ ∃ mine, SeesNoLock E c r k₀.side.role mine

/-- Why a side may be over. -/
inductive Over (E : Engine) (c : Ctx) (r : Reads) (k₀ k : Tick) : Prop
  | foreign (h : ¬c.Ours E k₀.side.role)
  | unlocked (hfree : k.side.myLock = none) (h : GivesUp E c r k₀ k)
  | spent (h : SeesSpent E c r k₀ k)
  | claimed (hrole : k₀.side.role = .maker) (hlock : k.side.myLock.isSome = true)
      (h : k.side.claim.isSome = true)

/-- An act of the tick that began as `k₀`. -/
inductive Act (E : Engine) (c : Ctx) (r : Reads) (k₀ : Tick) : Tick → Tick → Prop
  | look {k : Tick} {side : Side} (h : Looked k.side side) : Act E c r k₀ k (k.set side)
  | settle {k : Tick} {stage : SwapStage} {note : Option String}
      (halive : stage.terminal = true ∨ k.side.stage.terminal = false ∨ k.side.myLock.isSome = true)
      (hover : stage.terminal = true → Over E c r k₀ k) :
      Act E c r k₀ k (k.finish stage note)
  | post {k : Tick} {body : PostBody} (hkind : body.kind ≠ .abort) : Act E c r k₀ k (k.postOp c body)
  | abort {k : Tick} {reason : String} (hrole : k₀.side.role = .maker) (hfree : k.side.myLock = none)
      (halive : k.side.stage.terminal = false) (hgive : GivesUp E c r k₀ k) :
      Act E c r k₀ k (k.abort c reason)
  | adopt {k : Tick} {mine : Scan} {o : HtlcOut} (hmine : c.scanMine E r k₀.side.role = .ok mine)
      (hpick : pickExact mine.outs (c.terms.myAmount k₀.side.role) false = some o)
      (hfree : k.side.myLock = none) (halive : k.side.stage.terminal = false) :
      Act E c r k₀ k (k.adoptLock o)
  | intend {k : Tick} {mine : Scan} (hmine : SeesNoLock E c r k₀.side.role mine)
      (hfree : k.side.myLock = none) (halive : k.side.stage.terminal = false)
      (hold : k.intentFresh r = false) (hours : c.Ours E k₀.side.role) :
      Act E c r k₀ k (Tick.save (k.set { k.side with lockIntentAt := some r.now }))
  | fund {k : Tick} {mine : Scan} (hmine : SeesNoLock E c r k₀.side.role mine)
      (hlast : k.effects.getLast? = some (.save k.side)) (hintent : k.side.lockIntentAt = some r.now)
      (hfree : k.side.myLock = none) :
      Act E c r k₀ k
        (k.emit (.fund (c.terms.myChain k₀.side.role) mine.address (c.terms.myAmount k₀.side.role)))
  | funded {k : Tick} {lock : Outpoint}
      (hlast : ∃ chain address amount, k.effects.getLast? = some (.fund chain address amount))
      (hanswer : r.fund = .paid lock ∨ ∃ err, r.fund = .lost lock err) :
      Act E c r k₀ k (k.emit (.funded lock))
  | locked {k : Tick} {lock : Outpoint} (hlast : k.effects.getLast? = some (.funded lock))
      (halive : k.side.stage.terminal = false) (hfree : k.side.myLock = none) :
      Act E c r k₀ k (Tick.save (k.set
        { k.side with myLock := some lock, lockIntentAt := none, note := none }))
  | target {k : Tick} (lock : Option Outpoint)
      (hsafe : k₀.side.role = .taker → k₀.side.claim = none ∧ SeesTarget E c r k₀ (Revealable E c)) :
      Act E c r k₀ k (k.set { k.side with theirLock := lock })
  | claim {k : Tick} {tx : RawTx} (hlock : k.side.myLock.isSome = true)
      (hsafe : k₀.side.role = .taker → k₀.side.claim = none ∧ SeesTarget E c r k₀ (Revealable E c))
      (hnew : k.side.claim = none) (hspent : k₀.side.role = .maker → SeesSpent E c r k₀ k) :
      Act E c r k₀ k (Tick.save (k.set { k.side with claim := some tx }))
  | sendClaim {k : Tick} {chain : Chain} {tx : RawTx}
      (hsafe : k₀.side.role = .taker →
        (k₀.side.claim = none ∧ SeesTarget E c r k₀ (Revealable E c)) ∨
          (k₀.side.claim = some tx ∧ SeesTarget E c r k₀ (fun o _ => o.spend = none)))
      (hsaved : k.side.claim = some tx) : Act E c r k₀ k (k.emit (.broadcast .claim chain tx))
  | refund {k : Tick} {tx : RawTx} (hlock : k.side.myLock.isSome = true)
      (hnew : k.side.refund = none) :
      Act E c r k₀ k (Tick.save (k.set { k.side with refund := some tx }))
  | sendRefund {k : Tick} {chain : Chain} {tx : RawTx} (hsaved : k.side.refund = some tx) :
      Act E c r k₀ k (k.emit (.broadcast .refund chain tx))

/-- A tick under way, that began as `k₀`. -/
def Acts (E : Engine) (c : Ctx) (r : Reads) (k₀ k : Tick) : Prop :=
  ReflTransGen (Act E c r k₀) k₀ k

variable {k₀ k' : Tick}

theorem Acts.refl (k₀ : Tick) : Acts E c r k₀ k₀ := ReflTransGen.refl

theorem Acts.act (hk : Acts E c r k₀ k) (h : Act E c r k₀ k k') : Acts E c r k₀ k' :=
  ReflTransGen.tail hk h

theorem tick_of_ends {S : Tick → Prop} {x : Flow Tick} (h : Ends x S S) : S x.tick := by
  cases x with
  | error k => exact h.1 k rfl
  | ok k => exact h.2 k rfl

/-! ## The parts as acts -/

theorem Acts.looked (hk : Acts E c r k₀ k) {side : Side} (h : Looked k.side side) :
    Acts E c r k₀ (k.set side) := hk.act (.look h)

theorem Acts.setNote (hk : Acts E c r k₀ k) (note : Option String) :
    Acts E c r k₀ (k.setNote note) := hk.looked ⟨k.side.theirProof, note, rfl⟩

/-- A stage that is not the end, from a side that has not ended or has locked. -/
theorem Acts.setStage (hk : Acts E c r k₀ k) {stage : SwapStage} (hstage : stage.terminal = false)
    (halive : k.side.stage.terminal = false ∨ k.side.myLock.isSome = true) :
    Acts E c r k₀ (k.setStage stage) :=
  hk.act (.settle (Or.inr halive) fun h => by simp [hstage] at h)

theorem Acts.postProof (hk : Acts E c r k₀ k) (chain : Chain) (amount : ℕ)
    (makerKey : Option String) : Acts E c r k₀ (k.postProof E c chain amount makerKey) :=
  hk.act (.post (by simp [PostBody.kind]))

theorem Acts.postLocked (hk : Acts E c r k₀ k) (hint : Option LockHint) :
    Acts E c r k₀ (postLocked c k hint) := by
  unfold Tick.postLocked
  split
  · split_ifs
    · exact hk.act (.post (by simp [PostBody.kind]))
    · exact hk
  · exact hk

theorem Acts.verifyProof (hk : Acts E c r k₀ k) (proof : FundsProof) (chain : Chain) (amount : ℕ) :
    Acts E c r k₀ (k.verifyProof E c r proof chain amount) := by
  have hlook := looked_verifyProof (E := E) (c := c) (r := r) (k := k) proof chain amount
  have hset : k.verifyProof E c r proof chain amount
      = k.set (k.verifyProof E c r proof chain amount).side := by
    unfold Tick.verifyProof
    split <;> rfl
  rw [hset]
  exact hk.looked hlook

theorem Acts.takerProofs (hk : Acts E c r k₀ k) : Acts E c r k₀ (takerProofs E c r k) := by
  unfold Tick.takerProofs
  extract_lets k'
  have hk' : Acts E c r k₀ k' := by
    show Acts E c r k₀ (if _ then _ else _)
    split_ifs
    · exact hk.postProof _ _ _
    · exact hk
  split
  · split_ifs
    · exact hk'.verifyProof _ _ _
    · exact hk'
  · exact hk'

/-- Adopting leaves a tick that knows its lock, or a scan without one. -/
theorem Acts.adopt (hk : Acts E c r k₀ k) {mine : Scan}
    (hmine : c.scanMine E r k₀.side.role = .ok mine)
    (halive : k.side.myLock = none → k.side.stage.terminal = false) :
    Acts E c r k₀ (k.adopt mine (c.terms.myAmount k₀.side.role)) ∧
      ((k.adopt mine (c.terms.myAmount k₀.side.role)).side.myLock = none →
        k.adopt mine (c.terms.myAmount k₀.side.role) = k ∧
          SeesNoLock E c r k₀.side.role mine) := by
  unfold Tick.adopt
  split_ifs with hlock
  · refine ⟨hk, fun hfree => ?_⟩
    rw [hfree] at hlock
    exact absurd hlock (by simp)
  · have hfree : k.side.myLock = none := by simpa using hlock
    split
    · rename_i o hpick
      refine ⟨hk.act (.adopt hmine hpick hfree (halive hfree)), fun h => ?_⟩
      exact absurd h (by simp [adoptLock])
    · rename_i hpick
      exact ⟨hk, fun _ => ⟨rfl, hmine, hpick⟩⟩

theorem Acts.lock (hk : Acts E c r k₀ k) {mine : Scan} (hmine : SeesNoLock E c r k₀.side.role mine)
    (hfree : k.side.myLock = none) (halive : k.side.stage.terminal = false)
    (hours : c.Ours E k₀.side.role) :
    Ends (k.lock r (c.terms.myChain k₀.side.role) mine.address (c.terms.myAmount k₀.side.role))
      (Acts E c r k₀) (fun k' => Acts E c r k₀ k' ∧ ∃ lock, k'.side
        = { k.side with myLock := some lock, lockIntentAt := none, note := none }) := by
  unfold Tick.lock
  split_ifs with hfresh
  · exact ends_error.mpr (hk.setNote _)
  · have hintend := hk.act (.intend hmine hfree halive (by simpa using hfresh) hours)
    have hfund := hintend.act (.fund hmine (by simp) (by simp) (by simpa using hfree))
    split
    · exact ends_error.mpr (hfund.setNote _)
    · rename_i lock err hanswer
      have hfunded := hfund.act (.funded ⟨_, _, _, getLast?_emit _⟩ (Or.inr ⟨err, hanswer⟩))
      exact ends_error.mpr (hfunded.setNote _)
    · rename_i lock hanswer
      have hfunded := hfund.act (.funded ⟨_, _, _, getLast?_emit _⟩ (Or.inl hanswer))
      exact ends_ok.mpr ⟨hfunded.act (.locked (getLast?_emit _) halive hfree), lock, rfl⟩

theorem Acts.broadcastClaim (hk : Acts E c r k₀ k) {chain : Chain} {tx : RawTx}
    (sent : Except String Unit)
    (hsafe : k₀.side.role = .taker →
      (k₀.side.claim = none ∧ SeesTarget E c r k₀ (Revealable E c)) ∨
        (k₀.side.claim = some tx ∧ SeesTarget E c r k₀ (fun o _ => o.spend = none)))
    (hsaved : k.side.claim = some tx) : Acts E c r k₀ (k.broadcast sent .claim chain tx) := by
  have hsent : Acts E c r k₀ (k.emit (.broadcast .claim chain tx)) :=
    hk.act (.sendClaim hsafe hsaved)
  unfold broadcast
  split
  · exact hsent
  · exact hsent.setNote _

theorem Acts.broadcastRefund (hk : Acts E c r k₀ k) (chain : Chain) {tx : RawTx}
    (sent : Except String Unit) (hsaved : k.side.refund = some tx) :
    Acts E c r k₀ (k.broadcast sent .refund chain tx) := by
  have hsent : Acts E c r k₀ (k.emit (.broadcast .refund chain tx)) :=
    hk.act (.sendRefund hsaved)
  unfold broadcast
  split
  · exact hsent
  · exact hsent.setNote _

theorem Acts.sendClaim (hk : Acts E c r k₀ k) (chain : Chain) (params : HtlcParams)
    (secret key : Bytes) (o : HtlcOut) (hlock : k.side.myLock.isSome = true)
    (hsafe : k₀.side.role = .taker →
      k₀.side.claim = none ∧ SeesTarget E c r k₀ (Revealable E c))
    (hnew : k.side.claim = none) (hspent : k₀.side.role = .maker → SeesSpent E c r k₀ k) :
    Ends (sendClaim E c r k chain params secret key o) (Acts E c r k₀) (fun k' => Acts E c r k₀ k' ∧
      k'.side.myLock = k.side.myLock) := by
  unfold Tick.sendClaim
  split
  · exact ends_error.mpr (hk.setNote _)
  · rename_i spend _
    have hclaim : Acts E c r k₀
        (Tick.save (k.set { k.side with claim := some ⟨spend.txid, spend.hex⟩ })) :=
      hk.act (.claim hlock hsafe hnew hspent)
    refine ends_ok.mpr ⟨hclaim.broadcastClaim _ (fun hrole => Or.inl (hsafe hrole)) rfl, ?_⟩
    rw [broadcast_myLock]
    rfl

theorem Acts.maybeRefund (hk : Acts E c r k₀ k) (chain : Chain) (params : HtlcParams)
    (myOut : Option HtlcOut) (tip : ℕ) (key : Bytes) (hlock : k.side.myLock.isSome = true) :
    Ends (k.maybeRefund E c r chain params myOut tip key) (Acts E c r k₀) (fun k' =>
      Acts E c r k₀ k' ∧ k'.side.myLock = k.side.myLock) := by
  unfold Tick.maybeRefund
  split
  · exact ends_ok.mpr ⟨hk, rfl⟩
  · rename_i o
    by_cases hspent : o.spend.isSome = true
    · rw [if_pos hspent]
      exact ends_ok.mpr ⟨hk, rfl⟩
    · rw [if_neg hspent]
      split
      · rename_i tx hsaved
        exact ends_ok.mpr ⟨hk.broadcastRefund _ _ hsaved, broadcast_myLock _ _ _ _⟩
      · rename_i hnew
        split_ifs
        · exact ends_ok.mpr ⟨hk, rfl⟩
        · split
          · exact ends_error.mpr (hk.setNote _)
          · rename_i spend _
            have hrefund : Acts E c r k₀
                (Tick.save (k.set { k.side with refund := some ⟨spend.txid, spend.hex⟩ })) :=
              hk.act (.refund hlock hnew)
            refine ends_ok.mpr ⟨hrefund.broadcastRefund _ _ rfl, ?_⟩
            rw [broadcast_myLock]
            rfl

/-! ## The taker's tick -/

theorem Acts.takerLock (hk : Acts E c r k₀ k) {mine : Scan} (hrole : k₀.side.role = .taker)
    (hnone : k.side.myLock = none → SeesNoLock E c r .taker mine)
    (halive : k.side.myLock = none → k.side.stage.terminal = false)
    (hintent : k.side.myLock = none → k.side.lockIntentAt = k₀.side.lockIntentAt)
    (hours : c.Ours E k₀.side.role) :
    Ends (takerLock E c r k mine) (Acts E c r k₀) (fun k' => Acts E c r k₀ k' ∧
      k'.side.myLock.isSome = true ∧ k'.side.claim = k.side.claim ∧
        k'.side.theirLock = k.side.theirLock) := by
  unfold Tick.takerLock
  by_cases hlock : k.side.myLock.isSome = true
  · rw [if_pos hlock]
    exact ends_ok.mpr ⟨hk, hlock, rfl, rfl⟩
  have hfree : k.side.myLock = none := by simpa using hlock
  have hscan : SeesNoLock E c r k₀.side.role mine := by
    rw [hrole]
    exact hnone hfree
  have hgive : GivesUp E c r k₀ k := ⟨hintent hfree, mine, hscan⟩
  rw [if_neg hlock]
  by_cases hgone : c.gone = true
  · rw [if_pos hgone]
    exact ends_error.mpr (hk.act (.settle (Or.inl rfl) fun _ => .unlocked hfree hgive))
  rw [if_neg hgone]
  split
  · rename_i m h _ _
    by_cases hproofs : m.status = .awaitingProofs
    · rw [if_pos hproofs]
      exact ends_error.mpr (hk.setStage rfl (Or.inl (halive hfree)))
    rw [if_neg hproofs]
    have hwait : Acts E c r k₀ (k.setStage .waitingTakerLock) :=
      hk.setStage rfl (Or.inl (halive hfree))
    -- the stage is alive from here on, and nothing but it has changed
    extract_lets k'
    change Acts E c r k₀ k' at hwait
    split
    · exact ends_error.mpr (hwait.setNote _)
    · exact ends_error.mpr (hwait.act (.settle (Or.inl rfl) fun _ => .unlocked hfree hgive))
    · split_ifs
      · exact ends_error.mpr (hwait.act (.settle (Or.inl rfl) fun _ => .unlocked hfree hgive))
      · exact ends_error.mpr (hwait.setNote _)
      · have hfund := hwait.lock hscan hfree rfl hours
        rw [hrole] at hfund
        refine hfund.mono fun k₁ h => ⟨h.1, ?_⟩
        obtain ⟨-, lock, hside⟩ := h
        rw [hside]
        exact ⟨rfl, rfl, rfl⟩
  · exact ends_error.mpr hk

/-- A stage of a side that has locked. -/
theorem Acts.settle (hk : Acts E c r k₀ k) (stage : SwapStage) (note : Option String)
    (hlock : k.side.myLock.isSome = true) (hover : stage.terminal = true → Over E c r k₀ k) :
    Acts E c r k₀ (k.finish stage note) :=
  hk.act (.settle (Or.inr (Or.inr hlock)) hover)

theorem revealable_of_claimable {theirOut : Option HtlcOut} {o : HtlcOut} {tip : ℕ}
    (h : claimable E c theirOut tip = some o) (hlate : tooLate c (confsOf o.height tip) = false) :
    theirOut = some o ∧ Revealable E c o tip := by
  unfold claimable at h
  obtain ⟨hout, hcond⟩ := Option.filter_eq_some_iff.mp h
  rw [Bool.and_eq_true, decide_eq_true_eq] at hcond
  refine ⟨hout, by simpa using hcond.1, hcond.2, ?_⟩
  unfold tooLate claimSafetyBlocks at hlate
  unfold claimSafetyBlocks
  have hle := of_decide_eq_false hlate
  omega

theorem Acts.takerClaim (hk : Acts E c r k₀ k) {theirs : Scan} (params : HtlcParams)
    (secret key : Bytes) (hseen : c.scanTheirs E r .taker = .ok theirs)
    (hlock : k.side.myLock.isSome = true) (hclaim : k.side.claim = k₀.side.claim)
    (hrole : k₀.side.role = .taker) :
    Ends (takerClaim E c r k params secret key
        (theirOut k₀ theirs.outs c.terms.makerAmount false) theirs.tip) (Acts E c r k₀)
      (fun k' => Acts E c r k₀ k' ∧ k'.side.myLock = k.side.myLock) := by
  unfold Tick.takerClaim
  split
  · rename_i tx hsaved
    have htx : k₀.side.claim = some tx := hclaim.symm.trans hsaved
    split
    · rename_i o ho
      split_ifs with hspend
      · refine ends_ok.mpr ⟨hk.broadcastClaim _ (fun _ => Or.inr ⟨htx, theirs, o, hseen, ho, ?_⟩)
          hsaved, broadcast_myLock _ _ _ _⟩
        simpa using hspend
      · exact ends_ok.mpr ⟨hk, rfl⟩
    · exact ends_ok.mpr ⟨hk, rfl⟩
  · rename_i hnew
    have htx : k₀.side.claim = none := hclaim.symm.trans hnew
    split
    · exact ends_ok.mpr ⟨hk, rfl⟩
    · rename_i o ho
      split_ifs with hlate
      · exact ends_ok.mpr ⟨hk.setNote _, rfl⟩
      · obtain ⟨hout, hsafe⟩ := revealable_of_claimable ho (by simpa using hlate)
        have hreveal : k₀.side.claim = none ∧ SeesTarget E c r k₀ (Revealable E c) :=
          ⟨htx, theirs, o, hseen, hout, hsafe⟩
        have htarget := hk.act (.target (some o.outpoint) fun _ => hreveal)
        refine (htarget.sendClaim _ _ _ _ _ hlock (fun _ => hreveal) hnew fun h => ?_).mono
          fun k' h => ⟨h.1, h.2⟩
        rw [hrole] at h
        cases h

/-- A spend of my lock, as the scan shows it. -/
theorem seesSpent_of_myOut {mine : Scan} (hmine : c.scanMine E r k₀.side.role = .ok mine)
    (hsame : k'.side.myLock = k.side.myLock)
    (hspent : ((myOut k mine.outs).bind HtlcOut.spend).isSome = true) :
    SeesSpent E c r k₀ k' := by
  cases hlock : k.side.myLock with
  | none => simp [myOut, hlock] at hspent
  | some lock =>
    cases hout : mine.outs.find? (fun o => decide (o.outpoint = lock)) with
    | none => simp [myOut, hlock, hout] at hspent
    | some o =>
      have hoEq : o.outpoint = lock := by simpa using List.find?_some hout
      refine ⟨mine, o, hmine, List.mem_of_find?_eq_some hout, ?_, ?_⟩
      · rw [hsame, hlock, hoEq]
      · simpa [myOut, hlock, hout] using hspent

theorem spend_of_counterClaim {myOut : Option HtlcOut} (h : (k.counterClaim myOut).isSome = true) :
    (myOut.bind HtlcOut.spend).isSome = true := by
  unfold counterClaim at h
  cases hspend : myOut.bind HtlcOut.spend with
  | none => simp [hspend] at h
  | some spend => rfl

theorem spend_of_refundConfirmed {myOut : Option HtlcOut} (h : k.refundConfirmed myOut = true) :
    (myOut.bind HtlcOut.spend).isSome = true := by
  unfold refundConfirmed at h
  split at h
  · rename_i hspend
    rw [hspend]
    rfl
  · cases h

theorem Acts.takerStage (hk : Acts E c r k₀ k) (theirOut : Option HtlcOut) {myOut : Option HtlcOut}
    (wrong late : Bool) (hlock : k.side.myLock.isSome = true)
    (hspent : (myOut.bind HtlcOut.spend).isSome = true → SeesSpent E c r k₀ k) :
    Acts E c r k₀ (takerStage c k theirOut myOut wrong late) := by
  unfold Tick.takerStage
  extract_lets confirmed lost refunded
  have hgoes : ∀ stage note, stage.terminal = false → Acts E c r k₀ (k.finish stage note) :=
    fun stage note hstage => hk.settle stage note hlock fun h => by simp [hstage] at h
  have hends : (myOut.bind HtlcOut.spend).isSome = true → ∀ stage note,
      Acts E c r k₀ (k.finish stage note) := fun h stage note =>
    hk.settle stage note hlock fun _ => .spent (hspent h)
  have hrefunded : refunded = true → (myOut.bind HtlcOut.spend).isSome = true :=
    spend_of_refundConfirmed
  by_cases hdone : (confirmed && ((k.counterClaim myOut).isSome || refunded)) = true
  · rw [if_pos hdone]
    rw [Bool.and_eq_true, Bool.or_eq_true] at hdone
    obtain ⟨-, hclaimed | hback⟩ := hdone
    · exact hends (spend_of_counterClaim hclaimed) _ _
    · exact hends (hrefunded hback) _ _
  rw [if_neg hdone]
  by_cases hback : refunded = true
  · rw [if_pos hback]
    exact hends (hrefunded hback) _ _
  rw [if_neg hback]
  split_ifs <;> exact hgoes _ _ rfl

theorem theirOut_congr (h : k.side.theirLock = k'.side.theirLock) :
    theirOut k = theirOut k' := by
  funext outs amount unspentOnly
  unfold theirOut
  rw [h]

theorem Acts.takerLocked (hk : Acts E c r k₀ k) (mine : Scan) (mineP : HtlcParams)
    (secret key : Bytes) (hlock : k.side.myLock.isSome = true)
    (hclaim : k.side.claim = k₀.side.claim) (htheirs : k.side.theirLock = k₀.side.theirLock)
    (hrole : k₀.side.role = .taker) (hmine : c.scanMine E r k₀.side.role = .ok mine) :
    Ends (takerLocked E c r k mine mineP (c.theirHtlc E .taker) secret key) (Acts E c r k₀)
      (Acts E c r k₀) := by
  unfold Tick.takerLocked
  extract_lets k₁ myOut
  have hk₁ : Acts E c r k₀ k₁ := hk.postLocked _
  have hside : k₁.side = k.side := postLocked_side _
  split
  · exact ends_error.mpr (hk₁.setNote _)
  · rename_i theirs hseen
    extract_lets theirOut wrong k₂ late
    have hk₂ : Acts E c r k₀ k₂ := hk₁.setNote _
    have hout : theirOut = Tick.theirOut k₀ theirs.outs c.terms.makerAmount false := by
      rw [← theirOut_congr (k := k₁) (by rw [hside, htheirs])]
    rw [hout]
    have hlock₂ : k₂.side.myLock.isSome = true := by
      show k₁.side.myLock.isSome = true
      rw [hside]
      exact hlock
    refine Ends.bind (hk₂.takerClaim _ _ _ hseen hlock₂ ?_ hrole) fun k₃ h₃ => ?_
    · show k₁.side.claim = _
      rw [hside]
      exact hclaim
    have hlock₃ : k₃.side.myLock.isSome = true := by
      rw [h₃.2]
      exact hlock₂
    refine Ends.bind (h₃.1.maybeRefund _ _ _ _ _ hlock₃) fun k₄ h₄ => ends_pure.mpr ?_
    have hsame : k₄.side.myLock = k₁.side.myLock := h₄.2.trans h₃.2
    refine h₄.1.takerStage _ _ _ ?_ (seesSpent_of_myOut hmine hsame)
    rw [h₄.2]
    exact hlock₃

/-- A side that is not over: its stage, or its lock, keeps it going. -/
theorem alive_of_not_over (h : ¬(k.side.stage.terminal && k.side.myLock.isNone) = true) :
    k.side.stage.terminal = false ∨ k.side.myLock.isSome = true := by
  cases hstage : k.side.stage.terminal <;> cases hlock : k.side.myLock <;> simp_all

theorem acts_stepTaker (hrole : k.side.role = .taker) : Acts E c r k (stepTaker E c r k) := by
  unfold stepTaker
  extract_lets t swapId secret key k₁
  by_cases hforeign : E.lib.hashOf secret ≠ c.hash ∨ toHex (E.lib.xOnly key) ≠ t.takerKey
  · rw [if_pos hforeign]
    refine (Acts.refl k).act (.settle (Or.inl rfl) fun _ => .foreign fun hours => hours.own ?_)
    rw [hrole]
    exact hforeign
  rw [if_neg hforeign]
  by_cases hover : (k.side.stage.terminal && k.side.myLock.isNone) = true
  · rw [if_pos hover]
    exact Acts.refl k
  rw [if_neg hover]
  have hk₁ : Acts E c r k k₁ := (Acts.refl k).takerProofs
  obtain ⟨verdict, note, hside⟩ : Looked k.side k₁.side := looked_takerProofs
  have halive : k₁.side.stage.terminal = false ∨ k₁.side.myLock.isSome = true := by
    rw [hside]
    exact alive_of_not_over hover
  split
  · rename_i hkey
    by_cases hgone : c.gone = true
    · rw [if_pos hgone]
      refine hk₁.act (.settle (Or.inl rfl) fun _ => .foreign fun hours => ?_)
      have hknown := hours.key hrole
      rw [show c.terms.makerKey = none from hkey] at hknown
      cases hknown
    · rw [if_neg hgone]
      exact hk₁.setStage rfl halive
  · rename_i makerKey hkey
    extract_lets mineP theirP
    have hpub : fromHex makerKey = c.makerPub E .taker := by
      show _ = fromHex (c.terms.makerKey.getD "")
      rw [show c.terms.makerKey = some makerKey from hkey]
      rfl
    have hmineP : mineP = c.myHtlc E .taker := by
      show HtlcParams.mk _ _ _ _ = _
      rw [hpub]
      rfl
    have htheirP : theirP = c.theirHtlc E .taker := by
      show HtlcParams.mk _ _ _ _ = _
      rw [hpub]
      rfl
    rw [htheirP, hmineP]
    split
    · exact hk₁.setNote _
    · rename_i mine hscan
      have hmine : c.scanMine E r k.side.role = .ok mine := by
        rw [hrole]
        exact hscan
      obtain ⟨hk₂, hfree⟩ := hk₁.adopt hmine fun h => halive.resolve_right (by simp [h])
      have hours : c.Ours E k.side.role := by
        refine ⟨?_, fun _ => by rw [show c.terms.makerKey = some makerKey from hkey]; rfl⟩
        rw [hrole]
        exact hforeign
      rw [hrole] at hk₂ hfree
      refine tick_of_ends (Ends.bind (hk₂.takerLock hrole ?_ ?_ ?_ hours) fun k₃ h₃ => ?_)
      · exact fun h => (hfree h).2
      · intro h
        have hsame := (hfree h).1
        have hlock : k₁.side.myLock = none := hsame ▸ h
        show (k₁.adopt mine (c.terms.myAmount .taker)).side.stage.terminal = false
        rw [hsame]
        exact halive.resolve_right (by simp [hlock])
      · intro h
        show (k₁.adopt mine (c.terms.myAmount .taker)).side.lockIntentAt = _
        rw [(hfree h).1, hside]
      · obtain ⟨hk₃, hlock, hclaim, htheirs⟩ := h₃
        refine hk₃.takerLocked mine _ secret key hlock ?_ ?_ hrole hmine
        · rw [hclaim, adopt_claim, hside]
        · rw [htheirs, adopt_theirLock, hside]

/-! ## The maker's tick -/

theorem Acts.makerProofs (hk : Acts E c r k₀ k) (myKey : String) :
    Acts E c r k₀ (makerProofs E c r k myKey) ∧ Looked k.side (makerProofs E c r k myKey).side := by
  unfold Tick.makerProofs
  extract_lets k'
  have hk' : Acts E c r k₀ k' := by
    show Acts E c r k₀ (if _ then _ else _)
    split_ifs
    · exact hk.postProof _ _ _
    · exact hk
  have hside : k'.side = k.side := by
    show (if _ then _ else _ : Tick).side = _
    split_ifs <;> simp
  rw [← hside]
  split
  · split_ifs
    · exact ⟨hk'.verifyProof _ _ _, looked_verifyProof _ _ _⟩
    · exact ⟨hk', Looked.refl _⟩
  · exact ⟨hk', Looked.refl _⟩

/-- A maker's tick that has not ended, with no lock of its own to be seen. -/
structure Waiting (E : Engine) (c : Ctx) (r : Reads) (k₀ k : Tick) (mine : Scan) : Prop where
  acts : Acts E c r k₀ k
  role : k₀.side.role = .maker
  free : k.side.myLock = none
  alive : k.side.stage.terminal = false
  intent : k.side.lockIntentAt = k₀.side.lockIntentAt
  scan : SeesNoLock E c r k₀.side.role mine

namespace Waiting

variable {mine : Scan}

theorem gives (h : Waiting E c r k₀ k mine) : GivesUp E c r k₀ k := ⟨h.intent, mine, h.scan⟩

theorem looked (h : Waiting E c r k₀ k mine) (hacts : Acts E c r k₀ k')
    (hlook : Looked k.side k'.side) : Waiting E c r k₀ k' mine := by
  obtain ⟨verdict, note, hside⟩ := hlook
  exact ⟨hacts, h.role, by rw [hside]; exact h.free, by rw [hside]; exact h.alive,
    by rw [hside]; exact h.intent, h.scan⟩

theorem setNote (h : Waiting E c r k₀ k mine) (note : Option String) :
    Waiting E c r k₀ (k.setNote note) mine :=
  h.looked (h.acts.setNote note) ⟨k.side.theirProof, note, rfl⟩

theorem abort (h : Waiting E c r k₀ k mine) (reason : String) : Acts E c r k₀ (k.abort c reason) :=
  h.acts.act (.abort h.role h.free h.alive h.gives)

theorem findTakerLock (h : Waiting E c r k₀ k mine) (m : Match) (theirP : HtlcParams) :
    Ends (findTakerLock E c r k m theirP) (Acts E c r k₀)
      (fun found => Waiting E c r k₀ found.1 mine) := by
  unfold Tick.findTakerLock
  split
  · exact ends_error.mpr (h.acts.setNote _)
  · split
    · exact ends_ok.mpr h
    · split_ifs
      · exact ends_error.mpr (h.abort _)
      · split
        · rename_i proof _ _
          have hlooked : Waiting E c r k₀
              (k.verifyProof E c r proof c.terms.takerChain c.terms.takerAmount) mine :=
            h.looked (h.acts.verifyProof _ _ _) (looked_verifyProof _ _ _)
          extract_lets k₁
          change Waiting E c r k₀ k₁ mine at hlooked
          split
          · split
            · exact ends_error.mpr (hlooked.acts.setNote _)
            · exact ends_ok.mpr hlooked
          · exact ends_ok.mpr hlooked
        · exact ends_ok.mpr h

theorem noTakerLock (h : Waiting E c r k₀ k mine) (height : ℤ) (theirs : Scan) :
    Acts E c r k₀ (noTakerLock c k height theirs) := by
  unfold Tick.noTakerLock
  extract_lets wrong k₁
  have h₁ : Waiting E c r k₀ k₁ mine := by
    clear_value wrong
    cases wrong with
    | some o => exact h.setNote _
    | none => exact h
  split
  · exact h₁.abort _
  · split_ifs
    · exact h₁.abort _
    · exact h₁.acts

theorem lockAgainst (h : Waiting E c r k₀ k mine) (height : ℤ) (theirs : Scan)
    (theirOut : HtlcOut) (hours : c.Ours E k₀.side.role) : Ends (lockAgainst E c r k height mine theirs theirOut) (Acts E c r k₀)
      (fun k' => Acts E c r k₀ k' ∧ k'.side.myLock.isSome = true) := by
  unfold Tick.lockAgainst
  extract_lets confs need k₁ src k₂
  have h₁ : Waiting E c r k₀ k₁ mine := h.setNote _
  split_ifs
  · exact ends_error.mpr (h₁.abort _)
  · exact ends_error.mpr h₁.acts
  · exact ends_error.mpr (h.abort _)
  all_goals
    have htarget := h.acts.act
      (.target (some theirOut.outpoint) fun htaker => by rw [h.role] at htaker; cases htaker)
    have h₂ : Acts E c r k₀ k₂ :=
      htarget.act (.settle (Or.inr (Or.inl h.alive))
        fun hterminal => by cases hterminal)
  · exact ends_error.mpr (h₂.setNote _)
  · have hfund := h₂.lock h.scan h.free rfl hours
    rw [h.role] at hfund
    refine hfund.mono fun k' h' => ⟨h'.1, ?_⟩
    obtain ⟨-, lock, hside⟩ := h'
    rw [hside]
    rfl

end Waiting

theorem Acts.makerLock (hk : Acts E c r k₀ k) {mine : Scan} (theirP : HtlcParams)
    (hrole : k₀.side.role = .maker)
    (hnone : k.side.myLock = none → SeesNoLock E c r .maker mine)
    (halive : k.side.myLock = none → k.side.stage.terminal = false)
    (hintent : k.side.myLock = none → k.side.lockIntentAt = k₀.side.lockIntentAt)
    (hours : c.Ours E k₀.side.role) :
    Ends (makerLock E c r k mine theirP) (Acts E c r k₀) (fun k' => Acts E c r k₀ k' ∧
      k'.side.myLock.isSome = true) := by
  unfold Tick.makerLock
  by_cases hlock : k.side.myLock.isSome = true
  · rw [if_pos hlock]
    exact ends_ok.mpr ⟨hk, hlock⟩
  have hfree : k.side.myLock = none := by simpa using hlock
  have hwait : Waiting E c r k₀ k mine :=
    ⟨hk, hrole, hfree, halive hfree, hintent hfree, by rw [hrole]; exact hnone hfree⟩
  rw [if_neg hlock]
  by_cases hgone : c.gone = true
  · rw [if_pos hgone]
    exact ends_error.mpr (hk.act (.settle (Or.inl rfl) fun _ => .unlocked hfree hwait.gives))
  rw [if_neg hgone]
  split
  · rename_i m height _ _
    by_cases hproofs : m.status = .awaitingProofs
    · rw [if_pos hproofs]
      exact ends_error.mpr (hk.setStage rfl (Or.inl hwait.alive))
    rw [if_neg hproofs]
    split
    · exact ends_error.mpr (hwait.abort _)
    · have hlooking : Waiting E c r k₀ (k.setStage .waitingTakerLock) mine :=
        ⟨hk.setStage rfl (Or.inl hwait.alive), hrole, hfree, rfl, hwait.intent, hwait.scan⟩
      refine Ends.bind (hlooking.findTakerLock m theirP) fun found hfound => ?_
      obtain ⟨k₁, theirs, theirOut⟩ := found
      cases theirOut with
      | none => exact ends_error.mpr (hfound.noTakerLock _ _)
      | some o => exact hfound.lockAgainst _ _ _ hours
  · exact ends_error.mpr hk

theorem Acts.learnSecret (hk : Acts E c r k₀ k) (spend : Option HtlcSpend) :
    Ends (learnSecret E c r k spend) (Acts E c r k₀)
      (fun secret => secret.isSome = true → spend.isSome = true) := by
  unfold Tick.learnSecret
  split
  · exact ends_ok.mpr (by simp)
  · split
    · exact ends_ok.mpr (by simp)
    · split
      · exact ends_error.mpr (hk.setNote _)
      · exact ends_ok.mpr (by simp)

theorem Acts.makerClaim (hk : Acts E c r k₀ k) (params : HtlcParams) (secret : Option Bytes)
    (key : Bytes) (theirOut : Option HtlcOut) (hrole : k₀.side.role = .maker)
    (hlock : k.side.myLock.isSome = true)
    (hspent : secret.isSome = true → SeesSpent E c r k₀ k) :
    Ends (makerClaim E c r k params secret key theirOut) (Acts E c r k₀) (fun k' =>
      Acts E c r k₀ k' ∧ k'.side.myLock = k.side.myLock) := by
  have hmaker : k₀.side.role ≠ .taker := by rw [hrole]; decide
  unfold Tick.makerClaim
  split
  · exact ends_ok.mpr ⟨hk, rfl⟩
  · split_ifs
    · exact ends_ok.mpr ⟨hk, rfl⟩
    · split
      · rename_i hsaved
        exact ends_ok.mpr ⟨hk.broadcastClaim _ (fun h => absurd h hmaker) hsaved,
          broadcast_myLock _ _ _ _⟩
      · rename_i hnew
        exact hk.sendClaim _ _ _ _ _ hlock (fun h => absurd h hmaker) hnew fun _ => hspent rfl
      · exact ends_ok.mpr ⟨hk, rfl⟩

theorem claim_of_claimConfirmed {theirOut : Option HtlcOut} (h : k.claimConfirmed theirOut = true) :
    k.side.claim.isSome = true := by
  unfold claimConfirmed at h
  split at h
  · rename_i hclaim _
    rw [hclaim]
    rfl
  · cases h

theorem claim_of_claimLost {theirOut : Option HtlcOut} (h : k.claimLost theirOut = true) :
    k.side.claim.isSome = true := by
  unfold claimLost at h
  split at h
  · rename_i hclaim _
    rw [hclaim]
    rfl
  · cases h

theorem Acts.makerStage (hk : Acts E c r k₀ k) (theirOut : Option HtlcOut) {myOut : Option HtlcOut}
    (counterClaimed learned : Bool) (hrole : k₀.side.role = .maker)
    (hlock : k.side.myLock.isSome = true)
    (hspent : (myOut.bind HtlcOut.spend).isSome = true → SeesSpent E c r k₀ k) :
    Acts E c r k₀ (makerStage k theirOut myOut counterClaimed learned) := by
  unfold Tick.makerStage
  have hgoes : ∀ stage note, stage.terminal = false → Acts E c r k₀ (k.finish stage note) :=
    fun stage note hstage => hk.settle stage note hlock fun h => by simp [hstage] at h
  by_cases hdone : k.claimConfirmed theirOut = true
  · rw [if_pos hdone]
    exact hk.settle _ _ hlock fun _ => .claimed hrole hlock (claim_of_claimConfirmed hdone)
  rw [if_neg hdone]
  by_cases hlost : k.claimLost theirOut = true
  · rw [if_pos hlost]
    exact hk.settle _ _ hlock fun _ => .claimed hrole hlock (claim_of_claimLost hlost)
  rw [if_neg hlost]
  by_cases hclaim : k.side.claim.isSome = true
  · rw [if_pos hclaim]
    exact hgoes _ _ rfl
  rw [if_neg hclaim]
  by_cases hback : k.refundConfirmed myOut = true
  · rw [if_pos hback]
    exact hk.settle _ _ hlock fun _ => .spent (hspent (spend_of_refundConfirmed hback))
  rw [if_neg hback]
  split_ifs <;> exact hgoes _ _ rfl

theorem Acts.makerLocked (hk : Acts E c r k₀ k) (mine : Scan) (mineP theirP : HtlcParams)
    (key : Bytes) (hrole : k₀.side.role = .maker) (hlock : k.side.myLock.isSome = true)
    (hmine : c.scanMine E r k₀.side.role = .ok mine) :
    Ends (makerLocked E c r k mine mineP theirP key) (Acts E c r k₀) (Acts E c r k₀) := by
  unfold Tick.makerLocked
  extract_lets k₁ myOut
  have hk₁ : Acts E c r k₀ k₁ := hk.postLocked _
  have hlock₁ : k₁.side.myLock.isSome = true := by
    rw [show k₁.side = k.side from postLocked_side _]
    exact hlock
  split
  · exact ends_error.mpr (hk₁.setNote _)
  · rename_i theirs _
    extract_lets theirOut k₂ counter
    have hk₂ : Acts E c r k₀ k₂ :=
      hk₁.act (.target _ fun h => absurd h (by rw [hrole]; decide))
    refine Ends.bind (hk₂.learnSecret _) fun secret hsecret => ?_
    have hseen : secret.isSome = true → SeesSpent E c r k₀ k₂ := fun h =>
      seesSpent_of_myOut hmine rfl (spend_of_counterClaim (hsecret h))
    refine Ends.bind (hk₂.makerClaim _ _ _ _ hrole hlock₁ hseen) fun k₃ h₃ => ?_
    have hlock₃ : k₃.side.myLock.isSome = true := by
      rw [h₃.2]
      exact hlock₁
    refine Ends.bind (h₃.1.maybeRefund _ _ _ _ _ hlock₃) fun k₄ h₄ => ends_pure.mpr ?_
    have hsame : k₄.side.myLock = k₁.side.myLock := h₄.2.trans h₃.2
    refine h₄.1.makerStage _ _ _ hrole ?_ (seesSpent_of_myOut hmine hsame)
    rw [h₄.2]
    exact hlock₃

theorem acts_stepMaker (hrole : k.side.role = .maker) : Acts E c r k (stepMaker E c r k) := by
  unfold stepMaker
  extract_lets t key myKey mineP theirP k₁
  by_cases hforeign : (t.makerKey.isSome && t.makerKey ≠ some myKey) = true
  · rw [if_pos hforeign]
    refine (Acts.refl k).act (.settle (Or.inl rfl) fun _ => .foreign fun hours => hours.own ?_)
    rw [hrole]
    rw [Bool.and_eq_true, decide_eq_true_eq] at hforeign
    exact hforeign
  rw [if_neg hforeign]
  by_cases hover : (k.side.stage.terminal && k.side.myLock.isNone) = true
  · rw [if_pos hover]
    exact Acts.refl k
  rw [if_neg hover]
  obtain ⟨hk₁, verdict, note, hside⟩ := (Acts.refl (E := E) (c := c) (r := r) k).makerProofs myKey
  change Acts E c r k k₁ at hk₁
  change k₁.side = _ at hside
  have halive : k₁.side.stage.terminal = false ∨ k₁.side.myLock.isSome = true := by
    rw [hside]
    exact alive_of_not_over hover
  split
  · exact hk₁.setNote _
  · rename_i mine hscan
    have hmine : c.scanMine E r k.side.role = .ok mine := by
      rw [hrole]
      exact hscan
    obtain ⟨hk₂, hfree⟩ := hk₁.adopt hmine fun h => halive.resolve_right (by simp [h])
    have hours : c.Ours E k.side.role := by
      refine ⟨fun h => hforeign ?_, fun h => by rw [hrole] at h; cases h⟩
      rw [hrole] at h
      rw [Bool.and_eq_true, decide_eq_true_eq]
      exact h
    rw [hrole] at hk₂ hfree
    refine tick_of_ends (Ends.bind (hk₂.makerLock theirP hrole ?_ ?_ ?_ hours) fun k₃ h₃ => ?_)
    · exact fun h => (hfree h).2
    · intro h
      have hsame := (hfree h).1
      have hlock : k₁.side.myLock = none := hsame ▸ h
      show (k₁.adopt mine (c.terms.myAmount .maker)).side.stage.terminal = false
      rw [hsame]
      exact halive.resolve_right (by simp [hlock])
    · intro h
      show (k₁.adopt mine (c.terms.myAmount .maker)).side.lockIntentAt = _
      rw [(hfree h).1, hside]
    · exact h₃.1.makerLocked mine _ _ key hrole h₃.2 hmine

/-- **A tick is a sequence of acts.** -/
theorem acts_step : Acts E c r k (k.step E c r) := by
  unfold step
  cases hrole : k.side.role with
  | taker => exact acts_stepTaker hrole
  | maker => exact acts_stepMaker hrole

/-! ## From acts to ticks -/

/-- An act keeps a side's role and identity. -/
theorem Act.party (h : Act E c r k₀ k k') :
    k'.side.role = k.side.role ∧ k'.side.identity = k.side.identity := by
  cases h with
  | look hlook =>
    obtain ⟨verdict, note, rfl⟩ := hlook
    exact ⟨rfl, rfl⟩
  | post => simp
  | abort => simp [Tick.abort]
  | _ => exact ⟨rfl, rfl⟩

theorem Acts.party (h : Acts E c r k₀ k) :
    k.side.role = k₀.side.role ∧ k.side.identity = k₀.side.identity := by
  induction h with
  | refl => exact ⟨rfl, rfl⟩
  | tail _ hact ih => exact ⟨hact.party.1.trans ih.1, hact.party.2.trans ih.2⟩

theorem postOp_effects (body : PostBody) : (k.postOp c body).effects = k.effects ∨
    (k.postOp c body).effects = k.effects ++ [.post k.side.identity body] := by
  unfold postOp
  split_ifs
  · exact Or.inl rfl
  · exact Or.inr rfl

theorem eq_post_of_postOp {body : PostBody} {e : SwapEffect}
    (h : (k.postOp c body).effects = k.effects ++ [e]) : e = .post k.side.identity body := by
  obtain hnone | hpost := postOp_effects (c := c) (k := k) body
  · exact absurd (hnone.symm.trans h) (by simp)
  · exact (List.singleton_inj.mp (List.append_cancel_left (hpost.symm.trans h))).symm

theorem abort_effects (reason : String) : (k.abort c reason).effects = k.effects ∨
    (k.abort c reason).effects = k.effects ++ [.post k.side.identity .abort] :=
  postOp_effects (k := k.set { k.side with
    abort := some reason, stage := .cancelled, note := some reason }) .abort

theorem eq_post_of_abort {reason : String} {e : SwapEffect}
    (h : (k.abort c reason).effects = k.effects ++ [e]) : e = .post k.side.identity .abort :=
  eq_post_of_postOp (k := k.set { k.side with
    abort := some reason, stage := .cancelled, note := some reason }) h

/-- An act has at most one effect; what it saves is the side it leaves. -/
theorem Act.effects (h : Act E c r k₀ k k') : k'.effects = k.effects ∨
    ∃ e, k'.effects = k.effects ++ [e] ∧ ∀ side, e = .save side → side = k'.side := by
  cases h with
  | look => exact Or.inl rfl
  | settle => exact Or.inl rfl
  | target => exact Or.inl rfl
  | post =>
    obtain hnone | hpost := postOp_effects (c := c) (k := k) _
    · exact Or.inl hnone
    · exact Or.inr ⟨_, hpost, fun side h => by cases h⟩
  | abort =>
    obtain hnone | hpost := abort_effects (c := c) (k := k) _
    · exact Or.inl hnone
    · exact Or.inr ⟨_, hpost, fun side h => by cases h⟩
  | fund => exact Or.inr ⟨_, rfl, fun side h => by cases h⟩
  | funded => exact Or.inr ⟨_, rfl, fun side h => by cases h⟩
  | sendClaim => exact Or.inr ⟨_, rfl, fun side h => by cases h⟩
  | sendRefund => exact Or.inr ⟨_, rfl, fun side h => by cases h⟩
  | _ => exact Or.inr ⟨_, rfl, fun side h => by cases h; rfl⟩

/-- A tick cut short is a sequence of acts. -/
theorem Acts.cut (h : Acts E c r k₀ k) {pre : List SwapEffect} (hpre : pre <+: k.effects)
    (hk₀ : k₀.effects = []) : ∃ k', Acts E c r k₀ k' ∧ k'.effects = pre := by
  induction h with
  | refl =>
    rw [hk₀, List.prefix_nil] at hpre
    exact ⟨k₀, Acts.refl k₀, hk₀.trans hpre.symm⟩
  | @tail k k' hk hact ih =>
    obtain hsame | ⟨e, hmore, -⟩ := hact.effects
    · rw [hsame] at hpre
      exact ih hpre
    · rw [hmore, List.prefix_concat_iff] at hpre
      obtain heq | hpre := hpre
      · exact ⟨k', Acts.act hk hact, hmore.trans heq.symm⟩
      · exact ih hpre

/-- What a tick does, act by act. -/
theorem Acts.forall_effects {P : SwapEffect → Prop}
    (hact : ∀ k k' e, Act E c r k₀ k k' → k'.effects = k.effects ++ [e] → P e)
    (h : Acts E c r k₀ k) (hk₀ : k₀.effects = []) : ∀ e ∈ k.effects, P e := by
  induction h with
  | refl => simp [hk₀]
  | @tail k k' hk hstep ih =>
    intro e he
    obtain hsame | ⟨e', hmore, -⟩ := hstep.effects
    · exact ih e (hsame ▸ he)
    · rw [hmore, List.mem_append, List.mem_singleton] at he
      obtain he | rfl := he
      · exact ih e he
      · exact hact k k' e hstep hmore

/-- What acts keep of a side holds of the side a tick leaves, and of every side it saves. -/
theorem Acts.inv {I : Side → Prop}
    (hact : ∀ k k', Act E c r k₀ k k' → I k.side → I k'.side) (h : Acts E c r k₀ k)
    (hI : I k₀.side) (hk₀ : k₀.effects = []) :
    I k.side ∧ ∀ side, .save side ∈ k.effects → I side := by
  induction h with
  | refl => exact ⟨hI, by simp [hk₀]⟩
  | @tail k k' hk hstep ih =>
    have hk' : I k'.side := hact k k' hstep ih.1
    refine ⟨hk', fun side hmem => ?_⟩
    obtain hsame | ⟨e, hmore, hsave⟩ := hstep.effects
    · rw [hsame] at hmem
      exact ih.2 side hmem
    · rw [hmore, List.mem_append, List.mem_singleton] at hmem
      obtain hmem | heq := hmem
      · exact ih.2 side hmem
      · rw [hsave side heq.symm]
        exact hk'

end Tick

end Gavl
