import Gavl.Swap.LockTheorems

/-!
# A side funds its HTLC once

A side that dies between its funding and the save of its lock finds the lock on the chain when it
comes back. The grace that its intent leaves covers the wallet's delay, the age of a scan and the
time an explorer takes to list a broadcast.
-/

namespace Gavl

open Runs

/-- A funding transaction that reached an explorer. -/
structure Funding where
  chain : Chain
  htlc : HtlcParams
  amount : ℕ
  lock : Outpoint
  /-- When it was broadcast, milliseconds. -/
  time : ℕ

namespace Funding

/-- Two fundings of one HTLC. -/
def Same (f g : Funding) : Prop := f.chain = g.chain ∧ f.htlc = g.htlc ∧ f.amount = g.amount

/-- An answer lists a funding: it is the history of an address where the lock pays the amount. -/
def ListedIn (E : Engine) (f : Funding) (a : ScanAnswer) : Prop :=
  ∀ htlc, htlcScript E.lib f.htlc = .ok htlc → IsHistory (toHex htlc.scriptPubKey) a.txs ∧
    ∃ tx ∈ a.txs, ∃ v, PaysAt (toHex htlc.scriptPubKey) tx f.lock.vout v ∧
      tx.txid = f.lock.txid ∧ v.value = f.amount

end Funding

/-- A step, when its scan was answered, and when what it funded was broadcast. -/
structure TimedStep where
  step : SessionStep
  scannedAt : ℕ
  fundedAt : ℕ

/-- A side, what it has funded, and the outputs of its HTLC a scan has shown spent. -/
structure Life where
  session : SwapSession
  funded : List Funding
  spent : List Outpoint

/-- How long at most, in milliseconds, from a scan to the look at the intent, from the intent to the
broadcast, and from the broadcast to its listing. -/
structure Delays where
  scan : ℕ
  wallet : ℕ
  listing : ℕ
  covered : scan + wallet + listing ≤ lockIntentGraceMs

namespace Life

variable {E : Engine} {l : Life} {i : TimedStep} {c : Ctx} {r : Reads}

/-- The life of a side that a match gives an identity. -/
def fresh (role : Role) (identity : String) : Life := ⟨SwapSession.fresh role identity, [], []⟩

/-- The funding of a tick's own HTLC with a lock. -/
def funding (E : Engine) (c : Ctx) (role : Role) (time : ℕ) (lock : Outpoint) : Funding :=
  ⟨c.terms.myChain role, c.myHtlc E role, c.terms.myAmount role, lock, time⟩

/-- What reaches an explorer in a step. -/
def fundings (E : Engine) (l : Life) (i : TimedStep) : List Funding :=
  match i.step.tick? with
  | some (c, _) => (reachedLocks (l.session.effects E i.step)).map
      (funding E c l.session.side.role i.fundedAt)
  | none => []

/-- What the scan of a step shows spent. -/
def shownSpent (E : Engine) (l : Life) (i : TimedStep) : List Outpoint :=
  match i.step.tick? with
  | some (c, r) =>
    match c.scanMine E r l.session.side.role with
    | .ok mine => (mine.outs.filter fun o => o.spend.isSome).map HtlcOut.outpoint
    | .error _ => []
  | none => []

def step (E : Engine) (l : Life) (i : TimedStep) : Life :=
  ⟨l.session.step E i.step, l.funded ++ fundings E l i, l.spent ++ shownSpent E l i⟩

/-- A step whose delays are within bounds. -/
def Timely (d : Delays) (i : TimedStep) : Prop :=
  ∀ c r, i.step.tick? = some (c, r) → r.now ≤ i.scannedAt + d.scan ∧ i.fundedAt ≤ r.now + d.wallet

/-- A scan long enough after a funding lists it. -/
def Listing (E : Engine) (d : Delays) (l : Life) (i : TimedStep) : Prop :=
  ∀ c r a f, i.step.tick? = some (c, r) → r.mine = .ok a → f ∈ l.funded →
    f.chain = c.terms.myChain l.session.side.role → f.htlc = c.myHtlc E l.session.side.role →
      f.time + d.listing ≤ i.scannedAt → f.ListedIn E a

theorem run_session (steps : List TimedStep) : (run (step E) l steps).session
    = run (SwapSession.step E) l.session (steps.map TimedStep.step) := by
  induction steps generalizing l with
  | nil => rfl
  | cons i steps ih => exact ih

/-- A step without a tick funds nothing, and its scan shows nothing. -/
theorem fundings_of_none (h : i.step.tick? = none) : fundings E l i = [] := by
  unfold fundings
  rw [h]

theorem fundings_of_some (h : i.step.tick? = some (c, r)) : fundings E l i
    = (reachedLocks (l.session.effects E i.step)).map
      (funding E c l.session.side.role i.fundedAt) := by
  unfold fundings
  rw [h]

/-! ## What a scan shows of a funding -/

theorem exists_of_scan {L : SwapLib} {chain : Chain} {net : Net} {params : HtlcParams}
    {answer : Except String ScanAnswer} {s : Scan} (h : scan L chain net params answer = .ok s) :
    ∃ htlc a, htlcScript L params = .ok htlc ∧ answer = .ok a ∧
      s.outs = (scanTxs (toHex htlc.scriptPubKey) a.txs).values := by
  unfold scan at h
  cases hhtlc : htlcScript L params with
  | error err =>
    rw [hhtlc] at h
    cases h
  | ok htlc =>
    rw [hhtlc] at h
    cases answer with
    | error err => cases h
    | ok a =>
      obtain rfl := Except.ok.inj h
      exact ⟨htlc, a, rfl, rfl, rfl⟩

theorem pickExact_ne_none {outs : List HtlcOut} {o : HtlcOut} (h : o ∈ outs) :
    pickExact outs o.value false ≠ none := by
  unfold pickExact
  rw [Ne, List.head?_eq_none_iff, ← List.length_eq_zero_iff, List.length_insertionSort,
    List.length_eq_zero_iff]
  exact List.ne_nil_of_mem (List.mem_filter.mpr ⟨h, by simp⟩)

/-- A scan of an answer that lists a funding finds a lock. -/
theorem not_seesNoLock {f : Funding} {role : Role} {mine : Scan} {a : ScanAnswer}
    (hanswer : r.mine = .ok a) (hlisted : f.ListedIn E a) (hhtlc : f.htlc = c.myHtlc E role)
    (hamount : f.amount = c.terms.myAmount role) : ¬Tick.SeesNoLock E c r role mine := by
  rintro ⟨hscan, hnone⟩
  obtain ⟨htlc, a', hscript, ha, houts⟩ := exists_of_scan hscan
  obtain rfl := Except.ok.inj (hanswer.symm.trans ha)
  obtain ⟨hhistory, tx, htx, v, hpays, -, hvalue⟩ := hlisted htlc (by rw [hhtlc]; exact hscript)
  obtain ⟨o, hmem, -, hvalue', -⟩ := showsAll_scanTxs hhistory tx htx _ v hpays
  rw [← hamount, ← hvalue, ← hvalue'] at hnone
  exact pickExact_ne_none (houts ▸ hmem) hnone

/-! ## What a side knows of what it has funded -/

/-- A side that has funded has a lock, or an intent that the funding followed in time. -/
def Knows (d : Delays) (f : Funding) (side : Side) : Prop :=
  side.myLock.isSome = true ∨ ∃ t, side.lockIntentAt = some t ∧ f.time ≤ t + d.wallet

variable {d : Delays} {f : Funding}

theorem Knows.congr {side side' : Side} (h : Knows d f side) (hlock : side'.myLock = side.myLock)
    (hintent : side'.lockIntentAt = side.lockIntentAt) : Knows d f side' := by
  unfold Knows
  rw [hlock, hintent]
  exact h

/-- An intent that is not fresh any more. -/
theorem grace_over {k : Tick} {t : ℕ} (hintent : k.side.lockIntentAt = some t)
    (hold : k.intentFresh r = false) : t + lockIntentGraceMs ≤ r.now := by
  unfold Tick.intentFresh at hold
  rw [hintent] at hold
  exact not_lt.mp (of_decide_eq_false hold)

/-- Only a later intent takes the place of an intent. -/
theorem kept_knows (E : Engine) (d : Delays) (f : Funding) : SwapSession.Kept E (Knows d f) where
  act c r k₀ k k' hact h := by
    cases hact with
    | look hlook =>
      obtain ⟨verdict, note, rfl⟩ := hlook
      exact h.congr rfl rfl
    | post => exact h.congr (by simp) (by simp)
    | abort => exact h.congr (by simp [Tick.abort]) (by simp [Tick.abort])
    | adopt => exact Or.inl rfl
    -- the new intent comes after the grace of the old one, and so after what followed that
    | intend _ hfree _ hold =>
      obtain hlock | ⟨t, hintent, htime⟩ := h
      · simp [hfree] at hlock
      · have hover := grace_over hintent hold
        exact Or.inr ⟨r.now, rfl, by omega⟩
    | locked => exact Or.inl rfl
    | _ => exact h.congr rfl rfl
  label _ _ _ h := h.congr rfl rfl

/-- What a tick that asked the wallet leaves knows of what it funded. -/
theorem knows_of_sound {locks : List Outpoint} {side : Side} (h : Tick.Sound r locks side)
    (htime : f.time ≤ r.now + d.wallet) : Knows d f side := by
  obtain hpending | ⟨lock, -, hlock⟩ := h
  · exact Or.inr ⟨r.now, hpending.intent, htime⟩
  · exact Or.inl (by rw [hlock]; rfl)

/-! ## The run -/

/-- A side knows of all it has funded, and has funded no HTLC twice. -/
structure FundedOnce (d : Delays) (l : Life) : Prop where
  knows : ∀ f ∈ l.funded, SwapSession.Both (Knows d f) l.session
  once : l.funded.Pairwise fun f g => ¬f.Same g

/-- A tick that may fund sees no earlier funding of its HTLC, so there is none. -/
theorem not_same_of_opened (h : FundedOnce d l) (htimely : Timely d i) (hlisting : Listing E d l i)
    (hi : i.step.tick? = some (c, r)) (hopened : Tick.Opened E c r l.session.tick)
    (hf : f ∈ l.funded) (lock : Outpoint) :
    ¬f.Same (funding E c l.session.side.role i.fundedAt lock) := by
  rintro ⟨hchain, hhtlc, hamount⟩
  obtain ⟨mine, hunseen⟩ := hopened.unseen
  obtain hlock | ⟨t, hintent, htime⟩ := (h.knows f hf).1
  · have hfree : l.session.side.myLock = none := hopened.free
    simp [hfree] at hlock
  · -- grace covers wallet, scan and listing: the scan came late enough to list the funding
    have hover := grace_over (k := l.session.tick) hintent hopened.stale
    have hscanned := (htimely c r hi).1
    have hcovered := d.covered
    obtain ⟨-, a, -, hanswer, -⟩ := exists_of_scan hunseen.1
    have hlisted : f.ListedIn E a := hlisting c r a f hi hanswer hf hchain hhtlc (by omega)
    exact not_seesNoLock hanswer hlisted hhtlc hamount hunseen

theorem fundedOnce_step (h : FundedOnce d l) (htimely : Timely d i) (hlisting : Listing E d l i) :
    FundedOnce d (l.step E i) := by
  have hkept : ∀ f ∈ l.funded, SwapSession.Both (Knows d f) (l.step E i).session :=
    fun f hf => (kept_knows E d f).step (h.knows f hf) i.step
  cases hi : i.step.tick? with
  | none =>
    have hnone : (l.step E i).funded = l.funded := by
      show l.funded ++ fundings E l i = _
      rw [fundings_of_none hi, List.append_nil]
    exact ⟨hnone ▸ hkept, hnone ▸ h.once⟩
  | some tick =>
    obtain ⟨c, r⟩ := tick
    obtain ⟨k, hacts, heffects, hboth⟩ := SwapSession.exists_acts (E := E) (s := l.session) hi
    have hnew : (l.step E i).funded = l.funded ++
        (reachedLocks k.effects).map (funding E c l.session.side.role i.fundedAt) := by
      show l.funded ++ fundings E l i = _
      rw [fundings_of_some hi, heffects]
    -- a tick asks the wallet once at most
    obtain hunasked | hasked := hacts.unasked_or_asked rfl l.session.saved
    · rw [hunasked.reachedLocks, List.map_nil, List.append_nil] at hnew
      exact ⟨hnew ▸ hkept, hnew ▸ h.once⟩
    · refine ⟨fun f hf => ?_, ?_⟩
      · rw [hnew, List.mem_append] at hf
        obtain hf | hf := hf
        · exact hkept f hf
        · obtain ⟨lock, -, rfl⟩ := List.mem_map.mp hf
          have htime := (htimely c r hi).2
          exact hboth _ (knows_of_sound hasked.side htime) (knows_of_sound hasked.file htime)
      · rw [hnew, List.pairwise_append]
        refine ⟨h.once, ?_, fun f hf g hg => ?_⟩
        · rcases hlocks : reachedLocks k.effects with _ | ⟨lock, _ | ⟨lock', locks⟩⟩
          · exact List.Pairwise.nil
          · exact List.pairwise_singleton _ _
          · have honce := hasked.once
            rw [hlocks, List.length_cons, List.length_cons] at honce
            omega
        · obtain ⟨lock, -, rfl⟩ := List.mem_map.mp hg
          exact not_same_of_opened h htimely hlisting hi hasked.opened hf lock

/-- **A side never funds an HTLC twice**, whatever crashes, as long as the intent's grace covers the
delays and explorers list what they were sent. -/
theorem funds_once (E : Engine) (role : Role) (identity : String) (d : Delays)
    (steps : List TimedStep)
    (h : Along (step E) (fun l i => Timely d i ∧ Listing E d l i) (fresh role identity) steps) :
    (run (step E) (fresh role identity) steps).funded.Pairwise fun f g => ¬f.Same g := by
  have hfresh : FundedOnce d (fresh role identity) := ⟨by simp [fresh], List.Pairwise.nil⟩
  have hrun : FundedOnce d (run (step E) (fresh role identity) steps) :=
    inv_of_along (fun l i hl hi => fundedOnce_step hl hi.1 hi.2) hfresh h
  exact hrun.once

/-- A maker that sees the taker's lock, and whose wallet can pay. -/
def fundingReads : Reads :=
  { emptyReads 0 with
    theirsBefore := .ok ⟨[samplePayment 1000000 98], 100⟩
    fund := .paid ⟨toHex (List.replicate 32 5), 0⟩ }

/-- Explorers that list the maker's own lock a while later. -/
def listingReads (now : ℕ) : Reads :=
  { emptyReads now with mine := .ok ⟨[samplePayment 100000 101], 102⟩ }

/-- A maker that dies once its funding is out, and comes back when the grace is over. -/
def diedFunding : List TimedStep :=
  [⟨.crash (sampleCtx 100000 2 20) fundingReads 3, 0, 8000⟩,
    ⟨.pass (sampleCtx 100000 2 23) (listingReads 40000) false, 38000, 0⟩]

theorem isHistory_samplePayment (amount height : ℕ) :
    IsHistory (toHex plainHtlc.scriptPubKey) [samplePayment amount height] where
  nodup := List.nodup_singleton _
  isHex tx htx := by
    obtain rfl := List.mem_singleton.mp htx
    exact isHexOf_toHex (List.replicate 32 5)
  spentHex tx htx vin hvin := by
    obtain rfl := List.mem_singleton.mp htx
    cases hvin
  spentOnce := List.nodup_nil
  touches tx htx := by
    obtain rfl := List.mem_singleton.mp htx
    exact Or.inl ⟨0, _, rfl, rfl⟩

theorem scriptPubKey_sampleSwapLib {p : HtlcParams} {htlc : Htlc}
    (h : htlcScript sampleSwapLib p = .ok htlc) : htlc.scriptPubKey = plainHtlc.scriptPubKey := by
  unfold htlcScript at h
  split_ifs at h <;> split at h
  · cases h
  · cases h
  · cases h
  · obtain rfl := Except.ok.inj h
    rfl

theorem listedIn_samplePayment {amount : ℕ} (hlock : f.lock = ⟨toHex (List.replicate 32 5), 0⟩)
    (hamount : f.amount = amount) (height tip : ℕ) :
    f.ListedIn sampleEngine ⟨[samplePayment amount height], tip⟩ := by
  intro htlc hscript
  rw [scriptPubKey_sampleSwapLib hscript, hlock, hamount]
  exact ⟨isHistory_samplePayment amount height, _, List.mem_singleton.mpr rfl,
    ⟨some (toHex plainHtlc.scriptPubKey), amount⟩, ⟨rfl, rfl⟩, rfl, rfl⟩

/-- What the maker has funded when it dies. -/
theorem lock_of_died (hf : f ∈ (step sampleEngine (fresh .maker "maker")
    ⟨.crash (sampleCtx 100000 2 20) fundingReads 3, 0, 8000⟩).funded) :
    f.lock = ⟨toHex (List.replicate 32 5), 0⟩ ∧ f.amount = 100000 := by
  have hfunded : ((step sampleEngine (fresh .maker "maker") ⟨.crash (sampleCtx 100000 2 20)
      fundingReads 3, 0, 8000⟩).funded.map fun f => (f.lock, f.amount))
        = [(⟨toHex (List.replicate 32 5), 0⟩, 100000)] := by
    decide +kernel
  have hmem := List.mem_map_of_mem (f := fun f : Funding => (f.lock, f.amount)) hf
  rw [hfunded] at hmem
  exact Prod.mk.inj (List.mem_singleton.mp hmem)

/-- The theorem at the maker that comes back: it has funded once. -/
theorem funds_once_died :
    (run (step sampleEngine) (fresh .maker "maker") diedFunding).funded.length = 1 ∧
      (run (step sampleEngine) (fresh .maker "maker") diedFunding).funded.Pairwise
        fun f g => ¬f.Same g := by
  refine ⟨by decide +kernel, funds_once sampleEngine .maker "maker" ⟨5000, 10000, 15000, by decide⟩
    diedFunding ⟨⟨fun c r hi => ?_, fun c r a f _ _ hf => ?_⟩,
      ⟨fun c r hi => ?_, fun c r a f hi hanswer hf _ hhtlc _ => ?_⟩, trivial⟩⟩
  · obtain ⟨rfl, rfl⟩ := Prod.mk.inj (Option.some.inj hi)
    decide
  · cases hf
  · obtain ⟨rfl, rfl⟩ := Prod.mk.inj (Option.some.inj hi)
    decide
  · obtain ⟨rfl, rfl⟩ := Prod.mk.inj (Option.some.inj hi)
    obtain rfl := Except.ok.inj hanswer
    obtain ⟨hlock, hamount⟩ := lock_of_died hf
    exact listedIn_samplePayment hlock hamount 101 102

end Life

end Gavl
