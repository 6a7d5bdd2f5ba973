import Gavl.Ledger.PruneTheorems
import Gavl.Sync.Node

/-!
# Reporting what was appended

Writes are appended inside `apply`, one and then what it unblocks from the buffer; they are reported
(persisted and gossiped) by its callers, a batch at a time. Between the two, a buffered write that
is refused makes `apply` return a failure for what it did append, and an element that throws ends a
batch before anything of it is reported.
-/

namespace Gavl

/-! ## Elements of a message -/

/-- How a value that is no write ends. -/
inductive Refusal where
  | rejected (reason : String)
  | thrown (message : String)

/-- An element of a message, as `apply` reads it. -/
inductive Element where
  | write (w : Write)
  /-- Reading the writer of `null` throws. -/
  | null
  /-- The writer is no string: what is kept for it is kept apart from all others. -/
  | stray (refusal : Refusal)
  /-- The writer is a string. It gets a chain, pinned to the plot root if there is one. -/
  | malformed (writer : String) (root : Option String) (refusal : Refusal)

namespace Refusal

def result : Refusal → ApplyResult
  | rejected reason => .fail reason
  | thrown message => .thrown message

def Throws : Refusal → Prop
  | rejected _ => False
  | thrown _ => True

theorem appended_result (refusal : Refusal) : refusal.result.appended = [] := by
  cases refusal <;> rfl

theorem thrown_iff (refusal : Refusal) :
    (∃ message, refusal.result = .thrown message) ↔ refusal.Throws := by
  cases refusal with
  | rejected reason => exact iff_of_false (by simp [result]) not_false
  | thrown message => exact iff_of_true ⟨message, rfl⟩ trivial

end Refusal

namespace Ledger

variable (L : Ledger)

/-- `apply` of an arbitrary element. -/
def applyElement (C : Crypto) (params : ChainParams) : Element → Ledger × ApplyResult
  | .write w => L.apply C params false w
  | .null => ({ L with tick := L.tick + 1 }, .thrown "Cannot read properties of null")
  | .stray refusal => ({ L with tick := L.tick + 1 }, refusal.result)
  | .malformed writer root refusal =>
    (L.put writer ((L.chains.get? writer).getD ⟨writer, root, [], 0, 0, none⟩) (L.live writer)
      (L.tick + 1), refusal.result)

/-- The loop over a batch: what it learned, unless an element threw. -/
def applyElements (C : Crypto) (params : ChainParams) :
    Ledger → List Element → Ledger × Option (List Write)
  | L, [] => (L, some [])
  | L, e :: es =>
    match L.applyElement C params e with
    | (L', .thrown _) => (L', none)
    | (L', result) =>
      let (L'', learned) := applyElements C params L' es
      (L'', learned.map (result.appended ++ ·))

/-- On writes this is the loop of the message handler. -/
theorem applyElements_writes (C : Crypto) (params : ChainParams) (L : Ledger) (ws : List Write) :
    L.applyElements C params (ws.map .write)
      = ((L.applyAll C params false ws).1, (L.applyAll C params false ws).2.map Prod.fst) := by
  induction ws generalizing L with
  | nil => rfl
  | cons w ws ih =>
    rw [List.map_cons, applyElements, applyAll]
    show (match L.apply C params false w with
      | (L', .thrown _) => (L', none)
      | (L', result) =>
        let (L'', learned) := applyElements C params L' (ws.map .write)
        (L'', learned.map (result.appended ++ ·))) = _
    obtain ⟨L', result⟩ := L.apply C params false w
    cases result with
    | applied writes buffered =>
      simp only [ih, Option.map_map]
      rfl
    | fail reason =>
      simp only [ih, ApplyResult.appended, List.nil_append, Option.map_id']
    | equivocation existing x =>
      simp only [ih, ApplyResult.appended, List.nil_append, Option.map_id']
    | thrown message => rfl

end Ledger

/-! ## Calls -/

/-- What reaches the node: a local write, or a `writes` or `announce` message. -/
inductive Call where
  | submit (e : Element)
  | message (es : List Element)

/-- The ledger with everything passed to `onApplied` so far. -/
structure Reports where
  ledger : Ledger
  reported : List Write

namespace Reports

/-- `submit`, or the handler of a message. -/
def step (C : Crypto) (params : ChainParams) (s : Reports) : Call → Reports
  | .submit e =>
    let (ledger, result) := s.ledger.applyElement C params e
    ⟨ledger, s.reported ++ result.appended⟩
  | .message es =>
    let (ledger, learned) := s.ledger.applyElements C params es
    ⟨ledger, s.reported ++ learned.getD []⟩

end Reports

/-! ## What is lost -/

/-- From a write on, each buffered write that follows without a gap links to the one before it and
comes from the same plot. -/
inductive Linked (pend : OrderedMap ℕ Pending) : Write → Prop
  | last {w : Write} (h : pend.get? (w.seq + 1) = none) : Linked pend w
  | next {w : Write} {e : Pending} (h : pend.get? (w.seq + 1) = some e)
      (plot : e.w.plot.root = w.plot.root) (prev : e.w.prev = some w.id)
      (rest : Linked pend e.w) : Linked pend w

namespace Ledger

variable (C : Crypto) (params : ChainParams) (L : Ledger)

/-- An element that is appended: the next write of its writer. -/
def Grows : Element → Prop
  | .write w => (L.chainFor w).Accepts C params w
  | _ => False

/-- What an element unblocks can be appended. -/
def Unblocks : Element → Prop
  | .write w => Linked (L.live w.writer) w
  | _ => True

/-- `apply` comes to verify a write: it is not below the base, its slot is free, and if it is next
it comes from the plot of its writer. -/
def Verifies (w : Write) : Prop :=
  let c := L.chainFor w
  ¬ w.seq < c.baseSeq ∧
    (if w.seq < c.nextSeq then c.writeAt w.seq
      else ((L.live w.writer).get? w.seq).map (·.w)) = none ∧
    (w.seq ≤ c.nextSeq → c.plotRoot = none ∨ c.plotRoot = some w.plot.root)

/-- An element on which `apply` throws. -/
def Throws : Element → Prop
  | .write w => L.Verifies w ∧ ∃ message, verifyWrite C params false w = .thrown message
  | .null => True
  | .stray refusal => refusal.Throws
  | .malformed _ _ refusal => refusal.Throws

/-- What each element unblocks can be appended, and none throws once something was appended. -/
def KeepsAll : Prop → Ledger → List Element → Prop
  | _, _, [] => True
  | started, L, e :: es =>
    (L.Grows C params e → L.Unblocks e) ∧ (L.Throws C params e → ¬ started) ∧
      (¬ L.Throws C params e →
        KeepsAll (started ∨ L.Grows C params e) (L.applyElement C params e).1 es)

end Ledger

namespace Reports

/-- Nothing that a call appends is lost. -/
def Keeps (C : Crypto) (params : ChainParams) (s : Reports) : Call → Prop
  | .submit e => s.ledger.Grows C params e → s.ledger.Unblocks e
  | .message es => s.ledger.KeepsAll C params False es

end Reports

/-! ## One element -/

open WriterChain

variable {C : Crypto} {params : ChainParams} {L : Ledger} {w : Write} {c : WriterChain}
  {pend : OrderedMap ℕ Pending} {tick : ℕ}

/-- What is below a write does not matter to what follows on it. -/
theorem Linked.congr {pend' : OrderedMap ℕ Pending}
    (hseq : ∀ seq e, pend.get? seq = some e → e.w.seq = seq)
    (hsame : ∀ seq, w.seq < seq → pend'.get? seq = pend.get? seq) (h : Linked pend w) :
    Linked pend' w := by
  induction h with
  | last h => exact .last (by rw [hsame _ (by omega), h])
  | @next w e h plot prev _ ih =>
    have he := hseq _ _ h
    refine .next (by rw [hsame _ (by omega), h]) plot prev (ih fun seq hlt => hsame seq ?_)
    omega

theorem Linked.next_iff {e : Pending} (h : pend.get? (w.seq + 1) = some e) :
    Linked pend w ↔ e.w.plot.root = w.plot.root ∧ e.w.prev = some w.id ∧ Linked pend e.w := by
  constructor
  · rintro (hnone | ⟨hsome, plot, prev, rest⟩)
    · rw [h] at hnone
      simp at hnone
    · rw [h, Option.some.injEq] at hsome
      exact hsome ▸ ⟨plot, prev, rest⟩
  · rintro ⟨plot, prev, rest⟩
    exact .next h plot prev rest

namespace Ledger

/-- A chain takes all that is buffered above its last write exactly when it is linked. -/
theorem drain_applied_iff (hc : c.Sound C params) (hnext : c.nextSeq = w.seq + 1)
    (hhead : c.headId = some w.id) (hplot : c.plotRoot = some w.plot.root) {n : ℕ}
    (hsize : pend.size ≤ n) (hp : BufferedAll C params c.writer c.nextSeq tick pend)
    (applied : List Write) :
    (∃ ws, (drain C params false n c pend applied).2.2 = .applied ws false) ↔ Linked pend w := by
  induction n generalizing c pend applied w with
  | zero =>
    refine iff_of_true ⟨applied, rfl⟩ (.last ?_)
    cases hget : pend.get? (w.seq + 1) with
    | none => rfl
    | some e =>
      have := List.length_pos_of_mem ((OrderedMap.get?_eq_some_iff _ _ _).mp hget)
      unfold OrderedMap.size at hsize
      omega
  | succ n ih =>
    rw [drain, hnext]
    cases hget : pend.get? (w.seq + 1) with
    | none => exact iff_of_true ⟨applied, rfl⟩ (.last hget)
    | some e =>
      have hb := hp _ _ (hnext ▸ hget)
      have hseq : e.w.seq = c.nextSeq := by rw [hb.seq, hnext]
      rw [Linked.next_iff hget]
      simp only
      by_cases hacc : c.Accepts C params e.w
      · rw [hc.append_eq hacc]
        simp only
        have hplot' : (c.extend params e.w).plotRoot = some e.w.plot.root := by
          obtain h | h := hacc.plot
          · rw [hplot] at h
            simp at h
          · show some (c.plotRoot.getD e.w.plot.root) = _
            rw [h]
            rfl
        have hrest : BufferedAll C params (c.extend params e.w).writer
            (c.extend params e.w).nextSeq tick (pend.delete (w.seq + 1)) := fun seq x hx => by
          rw [OrderedMap.get?_delete] at hx
          split_ifs at hx with hne
          have hbx := hp seq x hx
          refine hbx.mono ?_ le_rfl
          rw [nextSeq_extend, hnext]
          have := hbx.ahead
          omega
        have hroot : e.w.plot.root = w.plot.root := by
          have := (hacc.plot.resolve_left (by rw [hplot]; simp)).symm.trans hplot
          exact Option.some.inj this
        rw [ih (hc.extend hacc) (by rw [nextSeq_extend, hseq]) headId_extend hplot'
          (by have := OrderedMap.size_delete_lt hget; omega) hrest]
        have hbelow : ∀ seq, e.w.seq < seq →
            (pend.delete (w.seq + 1)).get? seq = pend.get? seq := fun seq hlt => by
          rw [OrderedMap.get?_delete, if_neg (by omega)]
        have hslot : ∀ seq x, pend.get? seq = some x → x.w.seq = seq := fun seq x hx =>
          (hp seq x hx).seq
        constructor
        · intro h
          refine ⟨hroot, by rw [hacc.prev, hhead], h.congr ?_ fun seq hlt => (hbelow seq hlt).symm⟩
          intro seq x hx
          rw [OrderedMap.get?_delete] at hx
          split_ifs at hx
          exact hslot seq x hx
        · rintro ⟨-, -, h⟩
          exact h.congr hslot hbelow
      · have hfalse : ¬ (e.w.plot.root = w.plot.root ∧ e.w.prev = some w.id ∧ Linked pend e.w) := by
          rintro ⟨hroot, hprev, -⟩
          exact hacc ⟨hb.writer, .inr (by rw [hplot, hroot]), hb.verified, hseq, by rw [hprev, hhead]⟩
        refine iff_of_false ?_ hfalse
        obtain ⟨hw, -⟩ | ⟨-, ⟨reason, heq⟩ | ⟨message, heq⟩⟩ := hc.append_cases hseq
        · exact absurd hw hacc
        · rw [heq]
          simp
        · rw [heq]
          simp

/-- What a chain gains is what the ledger gains. -/
theorem allWrites_put {v : String} {c' : WriterChain} {A : List Write}
    (hwrites : c'.writes = ((L.chains.get? v).elim [] (·.writes)) ++ A) (pend : OrderedMap ℕ Pending)
    (tick : ℕ) : (L.put v c' pend tick).allWrites.Perm (L.allWrites ++ A) := by
  have hflat : ∀ m : OrderedMap String WriterChain,
      m.values.flatMap (·.writes) = m.entries.flatMap (fun e => e.2.writes) := fun m => by
    unfold OrderedMap.values
    rw [List.flatMap_map]
  show ((L.chains.set v c').values.flatMap (·.writes)).Perm
    (L.chains.values.flatMap (·.writes) ++ A)
  rw [hflat, hflat]
  cases hc : L.chains.get? v with
  | none =>
    rw [hc, Option.elim_none, List.nil_append] at hwrites
    rw [OrderedMap.set_entries_of_new hc, List.flatMap_append]
    show (_ ++ (c'.writes ++ [])).Perm _
    rw [hwrites, List.append_nil]
  | some c =>
    rw [hc, Option.elim_some] at hwrites
    have hnew := (L.chains.entries_set_perm v c').flatMap_right (fun e => e.2.writes)
    have hold := (L.chains.entries_set_perm v c).flatMap_right (fun e => e.2.writes)
    rw [OrderedMap.set_of_get? hc] at hold
    refine hnew.trans (List.Perm.trans ?_ (hold.symm.append_right A))
    rw [List.flatMap_append, List.flatMap_append, List.append_assoc]
    show (_ ++ (c'.writes ++ [])).Perm (_ ++ ((c.writes ++ []) ++ A))
    rw [hwrites, List.append_nil, List.append_nil]

theorem writes_chainFor (L : Ledger) (w : Write) :
    (L.chainFor w).writes = (L.chains.get? w.writer).elim [] (·.writes) := by
  unfold chainFor
  cases L.chains.get? w.writer <;> rfl

/-- `append` throws where the plot is right and the checks throw. -/
theorem append_thrown_iff (hw : w.writer = c.writer) {message : String} :
    (c.append C params false w).2 = .thrown message ↔
      (c.plotRoot = none ∨ c.plotRoot = some w.plot.root) ∧
        verifyWrite C params false w = .thrown message := by
  unfold append
  rw [if_neg (not_not.mpr hw)]
  by_cases hplot : c.plotRoot ≠ none ∧ c.plotRoot ≠ some w.plot.root
  · rw [if_pos hplot]
    refine iff_of_false (by simp) fun h => ?_
    obtain h | h := h.1
    · exact hplot.1 h
    · exact hplot.2 h
  · rw [if_neg hplot]
    have hplot' : c.plotRoot = none ∨ c.plotRoot = some w.plot.root := by
      by_contra hno
      exact hplot (not_or.mp hno)
    cases hv : verifyWrite C params false w with
    | thrown m => simp [hplot']
    | fail reason => simp
    | ok =>
      simp only
      cases c.writes.find? (fun x => decide (x.seq = w.seq)) with
      | some existing =>
        simp only
        split_ifs <;> simp
      | none =>
        simp only
        split_ifs <;> simp

/-- Where `apply` appends nothing, it throws exactly when it comes to a check that throws. -/
theorem applyTo_thrown_iff (hL : L.Sound C params) (hw : ¬ (L.chainFor w).Accepts C params w) :
    (∃ message, (applyTo C params false (L.chainFor w) (L.live w.writer) (L.tick + 1) w).2.2
      = .thrown message) ↔ L.Throws C params (.write w) := by
  obtain ⟨hc, hwriter⟩ := hL.chainFor w
  unfold Throws Verifies applyTo
  simp only
  by_cases hbase : w.seq < (L.chainFor w).baseSeq
  · simp [hbase]
  rw [if_neg hbase]
  cases hex : (if w.seq < (L.chainFor w).nextSeq then (L.chainFor w).writeAt w.seq
      else ((L.live w.writer).get? w.seq).map (·.w)) with
  | some x =>
    simp only
    split_ifs <;> simp
  | none =>
    simp only [hbase, not_false_eq_true, true_and]
    by_cases hahead : (L.chainFor w).nextSeq < w.seq
    · rw [if_pos hahead]
      have himp : ¬ w.seq ≤ (L.chainFor w).nextSeq := by omega
      cases verifyWrite C params false w with
      | ok => simp
      | fail reason => simp
      | thrown message => simp [himp]
    · have hseq := seq_eq_of_free hbase hex hahead
      rw [if_neg hahead]
      have hiff := fun message => @append_thrown_iff C params w (L.chainFor w) hwriter.symm message
      obtain ⟨hacc, -⟩ | ⟨-, ⟨reason, heq⟩ | ⟨message, heq⟩⟩ := hc.append_cases hseq
      · exact absurd hacc hw
      · rw [heq] at hiff ⊢
        refine iff_of_false (by simp) ?_
        rintro ⟨hplot, message, hm⟩
        exact absurd ((hiff message).mpr ⟨hplot hseq.le, hm⟩) (by simp)
      · rw [heq] at hiff ⊢
        have hboth := (hiff message).mp rfl
        exact iff_of_true ⟨message, rfl⟩ ⟨fun _ => hboth.1, message, hboth.2⟩

/-- What `apply` does with an element: it appends `A`, and reports it unless what it unblocks is
refused. -/
structure Effect (C : Crypto) (params : ChainParams) (L : Ledger) (e : Element) (A : List Write) :
    Prop where
  sound : (L.applyElement C params e).1.Sound C params
  perm : (L.applyElement C params e).1.allWrites.Perm (L.allWrites ++ A)
  grows : L.Grows C params e ↔ A ≠ []
  reported : (L.Grows C params e → L.Unblocks e) → (L.applyElement C params e).2.appended = A
  lost : ¬ (L.Grows C params e → L.Unblocks e) → (L.applyElement C params e).2.appended = []
  throws : (L.Grows C params e → L.Unblocks e) →
    ((∃ message, (L.applyElement C params e).2 = .thrown message) ↔ L.Throws C params e)

/-- The clock alone. -/
theorem Sound.ticked (hL : L.Sound C params) : ({ L with tick := L.tick + 1 } : Ledger).Sound C params where
  writer := hL.writer
  chain := hL.chain
  buffer := fun v c hc seq e he => by
    have hb := hL.buffer v c hc seq e he
    exact hb.mono hb.ahead (Nat.le_succ _)
  known := hL.known

/-- A chain without writes that is not pinned to the plot of a write. -/
theorem sound_opened (writer : String) (root : Option String) :
    WriterChain.Sound C params ⟨writer, root, [], 0, 0, none⟩ where
  stretch := trivial
  writer := fun _ h => absurd h List.not_mem_nil
  verified := fun _ h => absurd h List.not_mem_nil
  plot := fun _ h => absurd h List.not_mem_nil
  weight := by simp [nextSeq]
  base := fun _ => rfl

/-- What an element that is no write does to a ledger. -/
theorem Sound.effect_malformed (hL : L.Sound C params) (writer : String) (root : Option String)
    (refusal : Refusal) : Effect C params L (.malformed writer root refusal) [] where
  sound := by
    cases hc : L.chains.get? writer with
    | none =>
      have hlive : L.live writer = ∅ := by
        unfold Ledger.live OrderedMap.has
        rw [hc]
        rfl
      show (L.put writer ((L.chains.get? writer).getD _) (L.live writer) (L.tick + 1)).Sound C params
      rw [hc, hlive]
      refine hL.put (Nat.le_succ _) (sound_opened writer root) rfl fun seq e he => ?_
      simp at he
    | some c =>
      show (L.put writer ((L.chains.get? writer).getD _) (L.live writer) (L.tick + 1)).Sound C params
      rw [hc]
      refine hL.put (Nat.le_succ _) (hL.chain _ c hc) (hL.writer _ c hc) fun seq e he => ?_
      have hb := hL.buffer _ c hc seq e (get?_of_live he)
      exact hb.mono hb.ahead (Nat.le_succ _)
  perm := by
    refine allWrites_put ?_ _ _
    rw [List.append_nil]
    cases L.chains.get? writer <;> rfl
  grows := by simp [Grows]
  reported := fun _ => refusal.appended_result
  lost := fun _ => refusal.appended_result
  throws := fun _ => refusal.thrown_iff

/-- The next write of a chain is appended, and then what it unblocks. -/
theorem applyTo_of_accepts (hc : c.Sound C params) (hw : c.Accepts C params w)
    (hfree : pend.get? w.seq = none) (t : ℕ) : applyTo C params false c pend t w
      = drain C params false pend.size (c.extend params w) pend [w] := by
  have hseq := hw.seq
  have hbase : ¬ w.seq < c.baseSeq := by
    unfold nextSeq at hseq
    omega
  unfold applyTo
  rw [if_neg hbase, if_neg (by omega : ¬ w.seq < c.nextSeq), hfree]
  simp only [Option.map_none]
  rw [if_neg (by omega), hc.append_eq hw]

theorem applyElement_write (L : Ledger) (w : Write) :
    L.applyElement C params (.write w) =
      let r := applyTo C params false (L.chainFor w) (L.live w.writer) (L.tick + 1) w
      (L.put w.writer r.1 r.2.1 (L.tick + 1), r.2.2) := apply_eq L false w

/-- The next write of its writer is appended with what it unblocks, which `apply` reports unless
some of it is refused. -/
theorem Sound.effect_accepted (hL : L.Sound C params) (hw : (L.chainFor w).Accepts C params w) :
    ∃ A, Effect C params L (.write w) A := by
  obtain ⟨hc, -⟩ := hL.chainFor w
  have hp := hL.live w
  have hfree : (L.live w.writer).get? w.seq = none := by
    cases hget : (L.live w.writer).get? w.seq with
    | none => rfl
    | some e =>
      have := (hp _ _ hget).ahead
      have := hw.seq
      omega
  have hp' : BufferedAll C params ((L.chainFor w).extend params w).writer
      ((L.chainFor w).extend params w).nextSeq (L.tick + 1) (L.live w.writer) := by
    rw [nextSeq_extend]
    exact hp
  have hplot : ((L.chainFor w).extend params w).plotRoot = some w.plot.root := by
    show some ((L.chainFor w).plotRoot.getD w.plot.root) = _
    obtain h | h := hw.plot <;> rw [h] <;> rfl
  have hlinked := drain_applied_iff (hc.extend hw) (by rw [nextSeq_extend, hw.seq]) headId_extend
    hplot le_rfl hp' [w]
  obtain ⟨ws, c', pend', result, hdrain, hext, -, hcases⟩ :=
    drain_spec (hc.extend hw) le_rfl hp' [w]
  have heq : L.applyElement C params (.write w)
      = (L.put w.writer c' pend' (L.tick + 1), result) := by
    rw [applyElement_write, applyTo_of_accepts hc hw hfree, hdrain]
  rw [hdrain] at hlinked
  simp only at hlinked
  refine ⟨w :: ws, hL.apply w, ?_, iff_of_true hw (List.cons_ne_nil _ _), fun hkeeps => ?_,
    fun hloses => ?_, fun hkeeps => ?_⟩
  · rw [heq]
    refine allWrites_put ?_ _ _
    rw [hext.writes, writes_extend, writes_chainFor, List.append_assoc]
    rfl
  · obtain ⟨xs, happlied⟩ := hlinked.mpr (hkeeps hw)
    obtain hres | ⟨reason, hres⟩ | ⟨message, hres⟩ := hcases
    · rw [heq, hres]
      rfl
    · rw [hres] at happlied
      simp at happlied
    · rw [hres] at happlied
      simp at happlied
  · obtain hres | ⟨reason, hres⟩ | ⟨message, hres⟩ := hcases
    · exact absurd (fun _ => hlinked.mp ⟨_, hres⟩) hloses
    · rw [heq, hres]
      rfl
    · rw [heq, hres]
      rfl
  · obtain ⟨xs, happlied⟩ := hlinked.mpr (hkeeps hw)
    refine iff_of_false ?_ ?_
    · rw [heq, happlied]
      simp
    · rintro ⟨-, message, hm⟩
      rw [hw.verified] at hm
      simp at hm

/-- Any other write appends nothing. -/
theorem Sound.effect_refused (hL : L.Sound C params) (hw : ¬ (L.chainFor w).Accepts C params w) :
    Effect C params L (.write w) [] := by
  have hnone : (L.applyElement C params (.write w)).1.allWrites.Perm (L.allWrites ++ []) ∧
      (L.applyElement C params (.write w)).2.appended = [] := by
    have hsame : (L.chainFor w).writes = ((L.chains.get? w.writer).elim [] (·.writes)) ++ [] := by
      rw [writes_chainFor, List.append_nil]
    rw [applyElement_write]
    obtain ⟨result, h, happ, -⟩ | ⟨-, -, h⟩ | ⟨hacc, -⟩ :=
      applyTo_cases (w := w) (hL.chainFor w).1 (L.live w.writer) (L.tick + 1)
    · rw [h]
      exact ⟨allWrites_put hsame _ _, happ⟩
    · rw [h]
      exact ⟨allWrites_put hsame _ _, rfl⟩
    · exact absurd hacc hw
  refine ⟨hL.apply w, hnone.1, iff_of_false hw (by simp), fun _ => hnone.2, fun _ => hnone.2,
    fun _ => ?_⟩
  rw [applyElement_write]
  exact applyTo_thrown_iff hL hw

theorem Sound.effect (hL : L.Sound C params) (e : Element) : ∃ A, Effect C params L e A := by
  cases e with
  | write w =>
    by_cases hw : (L.chainFor w).Accepts C params w
    · exact hL.effect_accepted hw
    · exact ⟨[], hL.effect_refused hw⟩
  | null =>
    exact ⟨[], hL.ticked, by rw [List.append_nil]; exact .refl _, by simp [Grows], fun _ => rfl,
      fun _ => rfl, fun _ => iff_of_true ⟨_, rfl⟩ trivial⟩
  | stray refusal =>
    exact ⟨[], hL.ticked, by rw [List.append_nil]; exact .refl _, by simp [Grows],
      fun _ => refusal.appended_result, fun _ => refusal.appended_result,
      fun _ => refusal.thrown_iff⟩
  | malformed writer root refusal => exact ⟨[], hL.effect_malformed writer root refusal⟩

/-! ## One batch -/

theorem applyElements_thrown {e : Element} {message : String}
    (h : (L.applyElement C params e).2 = .thrown message) (es : List Element) :
    L.applyElements C params (e :: es) = ((L.applyElement C params e).1, none) := by
  rw [applyElements]
  cases hstep : L.applyElement C params e with
  | mk L' result =>
    rw [hstep] at h
    simp only at h
    rw [h]

theorem applyElements_next {e : Element}
    (h : ¬ ∃ message, (L.applyElement C params e).2 = .thrown message) (es : List Element) :
    L.applyElements C params (e :: es)
      = (((L.applyElement C params e).1.applyElements C params es).1,
        ((L.applyElement C params e).1.applyElements C params es).2.map
          ((L.applyElement C params e).2.appended ++ ·)) := by
  rw [applyElements]
  cases hstep : L.applyElement C params e with
  | mk L' result =>
    rw [hstep] at h
    cases result with
    | thrown message => exact absurd ⟨message, rfl⟩ h
    | applied writes buffered => rfl
    | fail reason => rfl
    | equivocation existing x => rfl

/-- A batch appends `A` and learns part of it, all of it exactly when its elements keep all. -/
structure BatchEffect (C : Crypto) (params : ChainParams) (L : Ledger) (es : List Element)
    (started : Prop) (A : List Write) : Prop where
  sound : (L.applyElements C params es).1.Sound C params
  perm : (L.applyElements C params es).1.allWrites.Perm (L.allWrites ++ A)
  learned : ∀ ws, (L.applyElements C params es).2 = some ws → ws.Sublist A
  keepsAll : L.KeepsAll C params started es ↔
    (L.applyElements C params es).2 = some A ∨
      (L.applyElements C params es).2 = none ∧ A = [] ∧ ¬ started

/-- A batch that ends in an element that throws. -/
theorem BatchEffect.thrown {e : Element} {A : List Write} {started : Prop} {message : String}
    (h : Effect C params L e A) (hthrown : (L.applyElement C params e).2 = .thrown message)
    (es : List Element) : BatchEffect C params L (e :: es) started A := by
  have heq := applyElements_thrown hthrown es
  have hiff : L.KeepsAll C params started (e :: es) ↔ A = [] ∧ ¬ started := by
    rw [KeepsAll]
    by_cases hkeeps : L.Grows C params e → L.Unblocks e
    · have ht := (h.throws hkeeps).mp ⟨message, hthrown⟩
      have hA : A = [] := by
        rw [← h.reported hkeeps, hthrown]
        rfl
      exact ⟨fun hall => ⟨hA, hall.2.1 ht⟩,
        fun hno => ⟨hkeeps, fun _ => hno.2, fun hreturns => absurd ht hreturns⟩⟩
    · have hA : A ≠ [] := h.grows.mp (Classical.not_imp.mp hkeeps).1
      exact iff_of_false (fun hall => hkeeps hall.1) fun hno => hA hno.1
  refine ⟨?_, ?_, ?_, ?_⟩
  · rw [heq]
    exact h.sound
  · rw [heq]
    exact h.perm
  · rw [heq]
    simp
  · rw [heq, hiff]
    simp

/-- A batch whose first element does not throw. -/
theorem BatchEffect.next {e : Element} {es : List Element} {A A' : List Write} {started : Prop}
    (h : Effect C params L e A)
    (hreturns : ¬ ∃ message, (L.applyElement C params e).2 = .thrown message)
    (hrest : BatchEffect C params (L.applyElement C params e).1 es (started ∨ L.Grows C params e) A') :
    BatchEffect C params L (e :: es) started (A ++ A') := by
  have heq := applyElements_next hreturns es
  have hsub : (L.applyElement C params e).2.appended.Sublist A := by
    by_cases hkeeps : L.Grows C params e → L.Unblocks e
    · rw [h.reported hkeeps]
    · rw [h.lost hkeeps]
      exact List.nil_sublist _
  refine ⟨?_, ?_, fun ws hws => ?_, ?_⟩
  · rw [heq]
    exact hrest.sound
  · rw [heq, ← List.append_assoc]
    exact hrest.perm.trans (h.perm.append_right A')
  · rw [heq, Option.map_eq_some_iff] at hws
    obtain ⟨ws', hws', rfl⟩ := hws
    exact hsub.append (hrest.learned ws' hws')
  · rw [heq, KeepsAll]
    by_cases hkeeps : L.Grows C params e → L.Unblocks e
    · have ht : ¬ L.Throws C params e := fun ht => hreturns ((h.throws hkeeps).mpr ht)
      rw [h.reported hkeeps]
      have hnil : ¬ L.Grows C params e ↔ A = [] := by rw [h.grows, not_not]
      constructor
      · rintro ⟨-, -, hall⟩
        obtain hsome | ⟨hnone, hA', hstart⟩ := hrest.keepsAll.mp (hall ht)
        · exact .inl (by rw [hsome, Option.map_some])
        · rw [not_or, hnil] at hstart
          exact .inr ⟨by rw [hnone, Option.map_none], by rw [hstart.2, hA', List.append_nil], hstart.1⟩
      · intro hall
        refine ⟨hkeeps, fun h => absurd h ht, fun _ => hrest.keepsAll.mpr ?_⟩
        obtain hsome | ⟨hnone, hboth, hstart⟩ := hall
        · obtain ⟨ws, hws, heqs⟩ := Option.map_eq_some_iff.mp hsome
          rw [List.append_cancel_left_eq] at heqs
          exact .inl (heqs ▸ hws)
        · have hboth' := List.append_eq_nil_iff.mp hboth
          rw [Option.map_eq_none_iff] at hnone
          exact .inr ⟨hnone, hboth'.2, not_or.mpr ⟨hstart, hnil.mpr hboth'.1⟩⟩
    · -- what was appended first is missing from what is learned
      have hA : A ≠ [] := h.grows.mp (Classical.not_imp.mp hkeeps).1
      refine iff_of_false (fun hall => hkeeps hall.1) ?_
      rintro (hsome | ⟨-, hnil, -⟩)
      · rw [h.lost hkeeps, Option.map_eq_some_iff] at hsome
        obtain ⟨ws, hws, hlen⟩ := hsome
        have hle := (hrest.learned ws hws).length_le
        have := congrArg List.length hlen
        have hpos := List.length_pos_iff.mpr hA
        rw [List.nil_append, List.length_append] at this
        omega
      · exact hA (List.append_eq_nil_iff.mp hnil).1

theorem Sound.batchEffect (hL : L.Sound C params) (es : List Element) (started : Prop) :
    ∃ A, BatchEffect C params L es started A := by
  induction es generalizing L started with
  | nil =>
    refine ⟨[], hL, ?_, fun ws h => ?_, iff_of_true trivial (.inl rfl)⟩
    · rw [List.append_nil]
      exact .refl _
    · rw [← Option.some.inj h]
  | cons e es ih =>
    obtain ⟨A, h⟩ := hL.effect e
    by_cases hthrown : ∃ message, (L.applyElement C params e).2 = .thrown message
    · obtain ⟨message, hthrown⟩ := hthrown
      exact ⟨A, .thrown h hthrown es⟩
    · obtain ⟨A', hrest⟩ := ih h.sound (started ∨ L.Grows C params e)
      exact ⟨A ++ A', .next h hthrown hrest⟩

/-- Ledgers that arise in a node to which anything is sent. -/
inductive Heard (C : Crypto) (params : ChainParams) : Ledger → Prop
  | empty : Heard C params Ledger.empty
  | element {L : Ledger} (hL : Heard C params L) (e : Element) :
      Heard C params (L.applyElement C params e).1
  | replay {L : Ledger} (hL : Heard C params L) (w : Write) (hw : TimeProven C params w) :
      Heard C params (L.apply C params true w).1
  | seedCheckpoint {L : Ledger} (hL : Heard C params L) (heads : Heads) :
      Heard C params (L.seedCheckpoint params heads)
  | pruneBelow {L : Ledger} (hL : Heard C params L) {heads : Heads} (hheld : L.Holds heads) :
      Heard C params (L.pruneBelow C params heads)

theorem Heard.sound (h : Heard C params L) : L.Sound C params := by
  induction h with
  | empty => exact .empty
  | element _ e ih =>
    obtain ⟨A, heff⟩ := ih.effect e
    exact heff.sound
  | replay _ w hw ih =>
    rw [ih.apply_replay hw]
    exact ih.apply w
  | seedCheckpoint _ heads ih => exact ih.seedCheckpoint heads
  | pruneBelow _ hheld ih => exact ih.pruneBelow hheld

end Ledger

/-! ## Runs -/

namespace Reports

variable {s : Reports}

/-- What was reported since `L` is part of what was appended. -/
structure Accounted (C : Crypto) (params : ChainParams) (L : Ledger) (s : Reports) : Prop where
  sound : s.ledger.Sound C params
  part : (L.allWrites ++ s.reported).Subperm s.ledger.allWrites

/-- Everything appended since `L` was reported. -/
def Balanced (L : Ledger) (s : Reports) : Prop :=
  s.ledger.allWrites.Perm (L.allWrites ++ s.reported)

/-- A call appends `A` and reports part of it, all of it exactly when it keeps all. -/
theorem step_effect (hs : s.ledger.Sound C params) (call : Call) :
    ∃ A R, (s.step C params call).ledger.Sound C params ∧
      (s.step C params call).ledger.allWrites.Perm (s.ledger.allWrites ++ A) ∧
      (s.step C params call).reported = s.reported ++ R ∧ R.Sublist A ∧
      (s.Keeps C params call ↔ R = A) := by
  cases call with
  | submit e =>
    obtain ⟨A, h⟩ := hs.effect e
    refine ⟨A, (s.ledger.applyElement C params e).2.appended, h.sound, h.perm, rfl, ?_⟩
    show _ ∧ ((s.ledger.Grows C params e → s.ledger.Unblocks e) ↔ _)
    by_cases hkeeps : s.ledger.Grows C params e → s.ledger.Unblocks e
    · rw [h.reported hkeeps]
      exact ⟨.refl _, iff_of_true hkeeps rfl⟩
    · have hA : A ≠ [] := h.grows.mp (Classical.not_imp.mp hkeeps).1
      rw [h.lost hkeeps]
      exact ⟨List.nil_sublist _, iff_of_false hkeeps fun hnil => hA hnil.symm⟩
  | message es =>
    obtain ⟨A, h⟩ := hs.batchEffect es False
    refine ⟨A, (s.ledger.applyElements C params es).2.getD [], h.sound, h.perm, rfl, ?_⟩
    show _ ∧ (s.ledger.KeepsAll C params False es ↔ _)
    rw [h.keepsAll]
    cases hlearned : (s.ledger.applyElements C params es).2 with
    | none =>
      refine ⟨List.nil_sublist _, ?_⟩
      simp [eq_comm]
    | some ws =>
      refine ⟨h.learned ws hlearned, ?_⟩
      simp

theorem Accounted.step (h : Accounted C params L s) (call : Call) :
    Accounted C params L (s.step C params call) := by
  obtain ⟨A, R, hsound, hperm, hreported, hsub, -⟩ := step_effect h.sound call
  refine ⟨hsound, ?_⟩
  rw [hreported, ← List.append_assoc]
  exact (h.part.append hsub.subperm).trans hperm.symm.subperm

open AnchorChain Ledger.Pruned in
/-- A second write that does not link to the first, then the first. -/
def unlinked : List Call :=
  [.message [.write (Ledger.writeFrom openConfig.crypto [] "ab" 1 none)], .submit (.write first)]

end Reports

end Gavl
