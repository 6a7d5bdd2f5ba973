import Gavl.Market.CodecTheorems
import Gavl.Market.Payload

/-!
# The encoding of a board

The canonical state of a board says all of it and nothing else: it survives a JSON round trip, does
not depend on the order offers and matches came in, and differs when anything on the board does.
-/

namespace Gavl

open Json Runs

/-! ## Encodings that keys may be sorted in -/

namespace Json

variable {α β : Type}

/-- Sorting the keys of what is encoded loses nothing. -/
def Faithful (f : α → Json) : Prop := ∀ x y, (f x).sortValue = (f y).sortValue → x = y

theorem Faithful.comp {f : α → Json} {g : β → α} (hf : Faithful f) (hg : Function.Injective g) :
    Faithful (fun x => f (g x)) := fun _ _ h => hg (hf _ _ h)

theorem faithful_str : Faithful str := fun x y h => by
  rw [sortValue_str, sortValue_str] at h
  exact str.inj h

theorem faithful_nat : Faithful nat := fun x y h => by
  rw [sortValue_nat, sortValue_nat] at h
  exact nat_injective h

theorem faithful_decimal : Faithful decimal := fun x y h => by
  rw [sortValue_decimal, sortValue_decimal] at h
  exact decimal_injective h

theorem faithful_int : Faithful int := fun x y h => by
  have hxy : int x = int y := (sortValue_num _).symm.trans (h.trans (sortValue_num _))
  have hread := asInt?_int x
  rw [hxy, asInt?_int y] at hread
  exact (Option.some.inj hread).symm

theorem faithful_nullable : Faithful nullable := fun x y h => by
  rw [sortValue_nullable, sortValue_nullable] at h
  exact nullable_injective h

theorem faithful_orNull {f : α → Json} (hf : Faithful f) (hnull : ∀ x, (f x).sortValue ≠ .null) :
    Faithful (orNull f) := fun x y h => by
  cases x with
  | none =>
    cases y with
    | none => rfl
    | some y =>
      have hy : Json.null = (f y).sortValue := sortValue_null.symm.trans h
      exact absurd hy.symm (hnull y)
  | some x =>
    cases y with
    | none =>
      have hx : (f x).sortValue = .null := h.trans sortValue_null
      exact absurd hx (hnull x)
    | some y => exact congrArg some (hf x y h)

theorem faithful_arr {f : α → Json} (hf : Faithful f) : Faithful (fun l : List α => arr (l.map f)) := by
  intro l
  induction l with
  | nil =>
    intro l' h
    cases l' with
    | nil => rfl
    | cons y l' =>
      simp only [sortValue, sortItems_eq_map, arr.injEq] at h
      exact absurd h (by simp)
  | cons x l ih =>
    intro l' h
    cases l' with
    | nil =>
      simp only [sortValue, sortItems_eq_map, arr.injEq] at h
      exact absurd h (by simp)
    | cons y l' =>
      simp only [sortValue, sortItems_eq_map, arr.injEq, List.map_cons, List.cons.injEq] at h
      have htail : (arr (l.map f)).sortValue = (arr (l'.map f)).sortValue := by
        simp only [sortValue, sortItems_eq_map, arr.injEq]
        exact h.2
      rw [hf x y h.1, ih l' htail]

/-- A member of two records that sort to the same one. -/
theorem Faithful.field {f : α → Json} (hf : Faithful f) {a b : Json} {keys : List String}
    (h : a.sortValue = b.sortValue) (hkeys : b.keys? = some keys) (hrecord : Record keys) {k : String}
    {x y : α} (hk : k ≠ "__proto__") (ha : a.get? k = some (f x)) (hb : b.get? k = some (f y)) :
    x = y := by
  cases a with
  | obj fs =>
    cases b with
    | obj gs =>
      obtain ⟨w, hw, heq⟩ := mem_of_sortValue_eq h hk (mem_of_get? ha)
      have hget := get?_of_mem (Option.some.inj hkeys ▸ hrecord.1) hw
      rw [hb] at hget
      obtain rfl := Option.some.inj hget
      exact hf x y heq.symm
    | _ => exact absurd hb (by simp [Json.get?])
  | _ => exact absurd ha (by simp [Json.get?])

end Json

/-! ## Records -/

theorem MatchStatus.name_injective : Function.Injective MatchStatus.name := fun a b h => by
  cases a <;> cases b <;> first | rfl | exact absurd h (by decide)

theorem CancelReason.name_injective : Function.Injective CancelReason.name := fun a b h => by
  cases a <;> cases b <;> first | rfl | exact absurd h (by decide)

theorem faithful_chain : Faithful (fun c : Chain => .str c.name) :=
  faithful_str.comp Chain.name_injective

theorem sortValue_obj_ne_null (fs : List (String × Json)) : (obj fs).sortValue ≠ .null := by
  rw [sortValue]
  simp

theorem faithful_canonLeg : Faithful canonLeg := by
  intro l l' h
  have hrecord : Record ["chain", "amount"] := by decide
  have hchain : l.chain = l'.chain :=
    faithful_chain.field h rfl hrecord (k := "chain") (by decide) rfl rfl
  have hamount : l.amount = l'.amount :=
    faithful_decimal.field h rfl hrecord (k := "amount") (by decide) rfl rfl
  cases l
  cases l'
  simp only at hchain hamount
  rw [hchain, hamount]

/-- Every member of an offer is told apart. -/
theorem faithful_canonOffer : Faithful canonOffer := by
  intro o o' h
  have hrecord : Record
      ["id", "maker", "give", "want", "minFill", "remaining", "postedAt", "expiresAt"] := by decide
  have hid : o.id = o'.id := faithful_str.field h rfl hrecord (k := "id") (by decide) rfl rfl
  have hmaker : o.maker = o'.maker :=
    faithful_str.field h rfl hrecord (k := "maker") (by decide) rfl rfl
  have hgive : o.give = o'.give :=
    faithful_canonLeg.field h rfl hrecord (k := "give") (by decide) rfl rfl
  have hwant : o.want = o'.want :=
    faithful_canonLeg.field h rfl hrecord (k := "want") (by decide) rfl rfl
  have hfill : o.minFill = o'.minFill :=
    faithful_decimal.field h rfl hrecord (k := "minFill") (by decide) rfl rfl
  have hremaining : o.remaining = o'.remaining :=
    faithful_decimal.field h rfl hrecord (k := "remaining") (by decide) rfl rfl
  have hposted : o.postedAt = o'.postedAt :=
    faithful_int.field h rfl hrecord (k := "postedAt") (by decide) rfl rfl
  have hexpires : o.expiresAt = o'.expiresAt :=
    faithful_int.field h rfl hrecord (k := "expiresAt") (by decide) rfl rfl
  cases o
  cases o'
  simp only at hid hmaker hgive hwant hfill hremaining hposted hexpires
  rw [hid, hmaker, hgive, hwant, hfill, hremaining, hposted, hexpires]

theorem faithful_copyUtxo : Faithful copyUtxo := by
  intro u u' h
  have hrecord : Record ["txid", "vout", "value"] := by decide
  have htxid : u.txid = u'.txid :=
    faithful_str.field h rfl hrecord (k := "txid") (by decide) rfl rfl
  have hvout : u.vout = u'.vout :=
    faithful_nat.field h rfl hrecord (k := "vout") (by decide) rfl rfl
  have hvalue : u.value = u'.value :=
    faithful_str.field h rfl hrecord (k := "value") (by decide) rfl rfl
  cases u
  cases u'
  simp only at htxid hvout hvalue
  rw [htxid, hvout, hvalue]

theorem faithful_copyProof : Faithful copyProof := by
  intro p p' h
  have hrecord : Record ["chain", "net", "pubkey", "utxos", "sig"] := by decide
  have hchain : p.chain = p'.chain :=
    faithful_chain.field h rfl hrecord (k := "chain") (by decide) rfl rfl
  have hnet : p.net = p'.net :=
    (faithful_str.comp Net.name_injective).field h rfl hrecord (k := "net") (by decide) rfl rfl
  have hpubkey : p.pubkey = p'.pubkey :=
    faithful_str.field h rfl hrecord (k := "pubkey") (by decide) rfl rfl
  have hutxos : p.utxos = p'.utxos :=
    (faithful_arr faithful_copyUtxo).field h rfl hrecord (k := "utxos") (by decide) rfl rfl
  have hsig : p.sig = p'.sig := faithful_str.field h rfl hrecord (k := "sig") (by decide) rfl rfl
  cases p
  cases p'
  simp only at hchain hnet hpubkey hutxos hsig
  rw [hchain, hnet, hpubkey, hutxos, hsig]

theorem faithful_copyLock : Faithful copyLock := by
  intro l l' h
  have hrecord : Record ["txid", "vout", "at"] := by decide
  have htxid : l.txid = l'.txid :=
    faithful_str.field h rfl hrecord (k := "txid") (by decide) rfl rfl
  have hvout : l.vout = l'.vout :=
    faithful_nat.field h rfl hrecord (k := "vout") (by decide) rfl rfl
  have hat : l.at = l'.at := faithful_int.field h rfl hrecord (k := "at") (by decide) rfl rfl
  cases l
  cases l'
  simp only at htxid hvout hat
  rw [htxid, hvout, hat]

theorem faithful_copyCancelled : Faithful copyCancelled := by
  intro c c' h
  have hrecord : Record ["at", "reason"] := by decide
  have hat : c.at = c'.at := faithful_int.field h rfl hrecord (k := "at") (by decide) rfl rfl
  have hreason : c.reason = c'.reason :=
    (faithful_str.comp CancelReason.name_injective).field h rfl hrecord (k := "reason") (by decide)
      rfl rfl
  cases c
  cases c'
  simp only at hat hreason
  rw [hat, hreason]

/-- The keys of an encoded match. -/
def matchKeys : List String :=
  ["id", "offerId", "maker", "taker", "takeSeq", "makerChain", "makerRefundBlocks", "takerChain",
    "takerRefundBlocks", "hash", "takerKey", "makerKey", "status", "takenAt", "proofDeadline",
    "pruneAt", "makerProof", "takerProof", "makerLock", "takerLock", "cancelled", "makerAmount",
    "takerAmount"]

theorem record_matchKeys : Record matchKeys := by decide

/-- Every member of a match is told apart. -/
theorem faithful_canonMatch : Faithful canonMatch := by
  intro m m' h
  have field : ∀ {α : Type} {f : α → Json} {x y : α}, Faithful f → ∀ k : String,
      k ≠ "__proto__" → (canonMatch m).get? k = some (f x) → (canonMatch m').get? k = some (f y) →
        x = y := fun hf k hk ha hb => by
    have hkeys : (canonMatch m').keys? = some matchKeys := rfl
    exact hf.field h hkeys record_matchKeys hk ha hb
  have hproof := faithful_orNull faithful_copyProof fun p => sortValue_obj_ne_null _
  have hlock := faithful_orNull faithful_copyLock fun l => sortValue_obj_ne_null _
  have hcancel := faithful_orNull faithful_copyCancelled fun c => sortValue_obj_ne_null _
  have hid : m.id = m'.id := field faithful_str "id" (by decide) rfl rfl
  have hofferId : m.offerId = m'.offerId := field faithful_str "offerId" (by decide) rfl rfl
  have hmaker : m.maker = m'.maker := field faithful_str "maker" (by decide) rfl rfl
  have htaker : m.taker = m'.taker := field faithful_str "taker" (by decide) rfl rfl
  have hseq : m.takeSeq = m'.takeSeq := field faithful_nat "takeSeq" (by decide) rfl rfl
  have hmakerChain : m.makerChain = m'.makerChain := field faithful_chain "makerChain" (by decide) rfl rfl
  have hmakerAmount : m.makerAmount = m'.makerAmount :=
    field faithful_decimal "makerAmount" (by decide) rfl rfl
  have hmakerBlocks : m.makerRefundBlocks = m'.makerRefundBlocks :=
    field faithful_nat "makerRefundBlocks" (by decide) rfl rfl
  have htakerChain : m.takerChain = m'.takerChain := field faithful_chain "takerChain" (by decide) rfl rfl
  have htakerAmount : m.takerAmount = m'.takerAmount :=
    field faithful_decimal "takerAmount" (by decide) rfl rfl
  have htakerBlocks : m.takerRefundBlocks = m'.takerRefundBlocks :=
    field faithful_nat "takerRefundBlocks" (by decide) rfl rfl
  have hhash : m.hash = m'.hash := field faithful_str "hash" (by decide) rfl rfl
  have htakerKey : m.takerKey = m'.takerKey := field faithful_str "takerKey" (by decide) rfl rfl
  have hmakerKey : m.makerKey = m'.makerKey := field faithful_nullable "makerKey" (by decide) rfl rfl
  have hstatus : m.status = m'.status :=
    field (faithful_str.comp MatchStatus.name_injective) "status" (by decide) rfl rfl
  have htaken : m.takenAt = m'.takenAt := field faithful_int "takenAt" (by decide) rfl rfl
  have hdeadline : m.proofDeadline = m'.proofDeadline :=
    field faithful_int "proofDeadline" (by decide) rfl rfl
  have hprune : m.pruneAt = m'.pruneAt := field faithful_int "pruneAt" (by decide) rfl rfl
  have hmakerProof : m.makerProof = m'.makerProof := field hproof "makerProof" (by decide) rfl rfl
  have htakerProof : m.takerProof = m'.takerProof := field hproof "takerProof" (by decide) rfl rfl
  have hmakerLock : m.makerLock = m'.makerLock := field hlock "makerLock" (by decide) rfl rfl
  have htakerLock : m.takerLock = m'.takerLock := field hlock "takerLock" (by decide) rfl rfl
  have hcancelled : m.cancelled = m'.cancelled := field hcancel "cancelled" (by decide) rfl rfl
  cases m
  cases m'
  rw [Match.mk.injEq]
  exact ⟨hid, hofferId, hmaker, htaker, hseq, hmakerChain, hmakerAmount, hmakerBlocks, htakerChain,
    htakerAmount, htakerBlocks, hhash, htakerKey, hmakerKey, hstatus, htaken, hdeadline, hprune,
    hmakerProof, htakerProof, hmakerLock, htakerLock, hcancelled⟩

/-! ## Boards -/

/-- The same offers and matches under the same ids, in whatever order they were inserted. -/
structure View.Same (v w : View) : Prop where
  offers : v.offers.entries.Perm w.offers.entries
  «matches» : v.matches.entries.Perm w.matches.entries

variable {v w : View}

/-- Sorted by id, the values of a map do not depend on the order they were inserted in. -/
theorem sorted_eq_of_perm {ν : Type} {id : ν → String} {m n : OrderedMap String ν}
    (hkeyed : ∀ k x, m.get? k = some x → id x = k) (h : m.entries.Perm n.entries) :
    m.values.insertionSort (fun a b => id a ≤ id b) = n.values.insertionSort (fun a b => id a ≤ id b) := by
  refine StableSort.insertionSort_eq_of_perm ⟨fun a _ b _ => le_total _ _, fun a _ b _ c _ => le_trans⟩
    (fun a ha b hb hab hba => ?_) (h.map Prod.snd)
  exact List.inj_on_of_nodup_map (OrderedMap.nodup_values hkeyed) ha hb (le_antisymm hab hba)

theorem entries_perm_of_sorted {ν : Type} {id : ν → String} {m n : OrderedMap String ν}
    (hm : ∀ k x, m.get? k = some x → id x = k) (hn : ∀ k x, n.get? k = some x → id x = k)
    (h : m.values.insertionSort (fun a b => id a ≤ id b)
      = n.values.insertionSort (fun a b => id a ≤ id b)) : m.entries.Perm n.entries := by
  have hvalues : m.values.Perm n.values := by
    refine (List.perm_insertionSort (fun a b => id a ≤ id b) m.values).symm.trans ?_
    rw [h]
    exact List.perm_insertionSort _ _
  rw [OrderedMap.entries_of_keyed hm, OrderedMap.entries_of_keyed hn]
  exact hvalues.map _

/-- The encoding does not depend on the order of insertion. -/
theorem serializeView_of_same (hv : v.Keyed) (h : v.Same w) : serializeView v = serializeView w := by
  unfold serializeView
  rw [sorted_eq_of_perm hv.offers h.offers, sorted_eq_of_perm hv.matches h.matches]

/-- Boards whose encodings are the same up to key order are the same. -/
theorem same_of_sortValue_eq (hv : v.Keyed) (hw : w.Keyed)
    (h : (serializeView v).sortValue = (serializeView w).sortValue) : v.Same w := by
  have hrecord : Record ["offers", "matches"] := by decide
  have hoffers := (faithful_arr faithful_canonOffer).field h rfl hrecord (k := "offers") (by decide)
    rfl rfl
  have hmatches := (faithful_arr faithful_canonMatch).field h rfl hrecord (k := "matches")
    (by decide) rfl rfl
  exact ⟨entries_perm_of_sorted hv.offers hw.offers hoffers,
    entries_perm_of_sorted hv.matches hw.matches hmatches⟩

/-- A copy is what it copies. -/
theorem cloneView_eq (v : View) : cloneView v = v := by
  have hproof : ∀ p, cloneProof p = p := fun p => by
    unfold cloneProof
    rw [List.map_id']
  have hmatch : ∀ m, cloneMatch m = m := fun m => by
    unfold cloneMatch
    rw [funext hproof, Option.map_id', Option.map_id']
    rw [show cloneLock = id from rfl, show cloneCancelled = id from rfl]
    simp only [Option.map_id, id_eq]
  have hoffers : (cloneView v).offers = v.offers :=
    OrderedMap.ext_entries (OrderedMap.entries_foldl_set v.offers.nodup)
  have hmatches : (cloneView v).matches = v.matches := by
    show v.matches.entries.foldl (fun m e => OrderedMap.set m e.1 (cloneMatch e.2)) ∅ = _
    simp only [hmatch]
    exact OrderedMap.ext_entries (OrderedMap.entries_foldl_set v.matches.nodup)
  cases v
  cases hclone : cloneView _
  rw [hclone] at hoffers hmatches
  simp only at hoffers hmatches
  rw [hoffers, hmatches]

/-! ## Numbers on the board -/

/-- `Number.isSafeInteger`: the integers a double counts without a gap. -/
def isSafeInteger (n : ℤ) : Prop := n.natAbs < 2 ^ 53

def FundsProof.Safe (p : FundsProof) : Prop := ∀ u ∈ p.utxos, u.vout < 2 ^ 53

def LockHint.Safe (l : LockHint) : Prop := l.vout < 2 ^ 53 ∧ isSafeInteger l.at

def Offer.Safe (o : Offer) : Prop := isSafeInteger o.postedAt ∧ isSafeInteger o.expiresAt

/-- Every number of a match is a safe integer, and so is the height it may be cancelled at. -/
structure Match.Safe (m : Match) : Prop where
  takeSeq : m.takeSeq < 2 ^ 53
  makerRefundBlocks : m.makerRefundBlocks < 2 ^ 53
  takerRefundBlocks : m.takerRefundBlocks < 2 ^ 53
  takenAt : isSafeInteger m.takenAt
  proofDeadline : isSafeInteger m.proofDeadline
  timeout : isSafeInteger (m.proofDeadline + 1)
  pruneAt : isSafeInteger m.pruneAt
  makerProof : ∀ p, m.makerProof = some p → p.Safe
  takerProof : ∀ p, m.takerProof = some p → p.Safe
  makerLock : ∀ l, m.makerLock = some l → l.Safe
  takerLock : ∀ l, m.takerLock = some l → l.Safe
  cancelled : ∀ c, m.cancelled = some c → isSafeInteger c.at

structure View.Safe (view : View) : Prop where
  offers : ∀ k o, view.offers.get? k = some o → o.Safe
  «matches» : ∀ k m, view.matches.get? k = some m → m.Safe

theorem plain_orNull {α : Type} {f : α → Json} {x : Option α} (h : ∀ y, x = some y → (f y).Plain) :
    (orNull f x).Plain := by
  cases x with
  | none => trivial
  | some y => exact h y rfl

theorem plain_nullable (s : Option String) : (nullable s).Plain := by
  cases s <;> trivial

theorem plain_canonOffer {o : Offer} (h : o.Safe) : (canonOffer o).Plain := by
  refine plain_record
    ["id", "maker", "give", "want", "minFill", "remaining", "postedAt", "expiresAt"] rfl (by decide) ?_
  simp only [List.forall_mem_cons]
  exact ⟨trivial, trivial, plain_canonLeg _, plain_canonLeg _, trivial, trivial, plain_int h.1,
    plain_int h.2, by simp⟩

theorem plain_copyLock {l : LockHint} (h : l.Safe) : (copyLock l).Plain := by
  refine plain_record ["txid", "vout", "at"] rfl (by decide) ?_
  simp only [List.forall_mem_cons]
  exact ⟨trivial, plain_nat h.1, plain_int h.2, by simp⟩

theorem plain_copyCancelled {c : Cancelled} (h : isSafeInteger c.at) : (copyCancelled c).Plain := by
  refine plain_record ["at", "reason"] rfl (by decide) ?_
  simp only [List.forall_mem_cons]
  exact ⟨plain_int h, trivial, by simp⟩

theorem plain_canonMatch {m : Match} (h : m.Safe) : (canonMatch m).Plain := by
  refine plain_record matchKeys rfl record_matchKeys ?_
  show ∀ e ∈ matchBody m ++ _, e.2.Plain
  unfold matchBody
  simp only [List.cons_append, List.nil_append, List.forall_mem_cons]
  exact ⟨trivial, trivial, trivial, trivial, plain_nat h.takeSeq, trivial,
    plain_nat h.makerRefundBlocks, trivial, plain_nat h.takerRefundBlocks, trivial, trivial,
    plain_nullable _, trivial, plain_int h.takenAt, plain_int h.proofDeadline, plain_int h.pruneAt,
    plain_orNull fun p hp => plain_copyProof (h.makerProof p hp),
    plain_orNull fun p hp => plain_copyProof (h.takerProof p hp),
    plain_orNull fun l hl => plain_copyLock (h.makerLock l hl),
    plain_orNull fun l hl => plain_copyLock (h.takerLock l hl),
    plain_orNull fun c hc => plain_copyCancelled (h.cancelled c hc), trivial, trivial, by simp⟩

/-- The encoding of a board survives a JSON round trip. -/
theorem plain_serializeView (h : v.Safe) : (serializeView v).Plain := by
  refine plain_record ["offers", "matches"] rfl (by decide) ?_
  simp only [List.forall_mem_cons]
  refine ⟨plainItems_iff.mpr fun j hj => ?_, plainItems_iff.mpr fun j hj => ?_, by simp⟩
  · obtain ⟨o, ho, rfl⟩ := List.mem_map.mp hj
    obtain ⟨k, hk⟩ := (OrderedMap.mem_values _ _).mp ((List.mem_insertionSort _).mp ho)
    exact plain_canonOffer (h.offers k o hk)
  · obtain ⟨m, hm, rfl⟩ := List.mem_map.mp hj
    obtain ⟨k, hk⟩ := (OrderedMap.mem_values _ _).mp ((List.mem_insertionSort _).mp hm)
    exact plain_canonMatch (h.matches k m hk)

/-! ## What folding makes of the numbers -/

namespace View.Safe

variable {view : View} {k : String} {w : Write} {height : ℤ}

/-- A height from which every span of the fold ends at a safe integer. -/
def Counts (height : ℤ) : Prop := height.natAbs + 2 ^ 12 ≤ 2 ^ 53

theorem empty : emptyView.Safe := ⟨by simp [emptyView], by simp [emptyView]⟩

theorem setOffer (h : view.Safe) {o : Offer} (ho : o.Safe) :
    View.Safe { view with offers := view.offers.set k o } where
  offers := fun k' o' hget => by
    rw [OrderedMap.get?_set] at hget
    split_ifs at hget
    · exact Option.some.inj hget ▸ ho
    · exact h.offers k' o' hget
  «matches» := h.matches

theorem setMatch (h : view.Safe) {m : Match} (hm : m.Safe) :
    View.Safe { view with «matches» := view.matches.set k m } where
  offers := h.offers
  «matches» := fun k' m' hget => by
    rw [OrderedMap.get?_set] at hget
    split_ifs at hget
    · exact Option.some.inj hget ▸ hm
    · exact h.matches k' m' hget

theorem advance (h : view.Safe) (height : ℤ) : (advance view height).Safe where
  offers := fun k o hget => by
    obtain ⟨o', ho', rfl⟩ := Books.get?_offers_advance hget
    exact h.offers k o' ho'
  «matches» := fun k m hget => by
    rw [get?_matches_advance, Option.bind_eq_some_iff] at hget
    obtain ⟨m', hm', hkept⟩ := hget
    obtain ⟨-, rfl⟩ := keptMatch_eq_some.mp hkept
    have hm := h.matches k m' hm'
    unfold Match.expire
    split_ifs
    · exact { hm with cancelled := fun c hc => Option.some.inj hc ▸ hm.timeout }
    · exact hm

theorem offerPost (h : view.Safe) (hheight : Counts height) {give want : Leg} {minFill expiresIn : ℕ}
    (hexpires : expiresIn ≤ maxOfferTtl) :
    (applyOfferPost view w give want minFill expiresIn height).1.Safe := by
  have heffect := @effect_offerPost view w height give want minFill expiresIn
  generalize applyOfferPost view w give want minFill expiresIn height = result at heffect
  have hspan : isSafeInteger height ∧ isSafeInteger (height + expiresIn) := by
    unfold Counts at hheight
    unfold maxOfferTtl at hexpires
    unfold isSafeInteger
    omega
  cases heffect with
  | rejected => exact h
  | post => exact h.setOffer hspan

theorem offerTake (h : view.Safe) (hheight : Counts height) (hseq : w.seq < 2 ^ 53)
    {offerId hash takerKey : String} {fill : ℕ} :
    (applyOfferTake view w offerId fill hash takerKey height).1.Safe := by
  have heffect := @effect_offerTake view w height offerId hash takerKey fill
  generalize applyOfferTake view w offerId fill hash takerKey height = result at heffect
  cases heffect with
  | rejected => exact h
  | @take offerId hash takerKey fill offer hget =>
    have hblocks : ∀ chain role, defaultRefundBlocks chain role < 2 ^ 53 := fun chain role => by
      cases chain <;> cases role <;> decide
    have hlife : ∀ chain, matchLifetime chain ≤ 2200 := fun chain => by cases chain <;> decide
    have hspan : isSafeInteger height ∧ isSafeInteger (height + proofWindow) ∧
        isSafeInteger (height + proofWindow + 1) ∧
          isSafeInteger (height + matchLifetime offer.want.chain) := by
      have := hlife offer.want.chain
      unfold Counts at hheight
      unfold isSafeInteger proofWindow
      omega
    have ho : offer.Safe := h.offers _ _ hget
    have hoffer : View.Safe { view with
        offers := view.offers.set offerId { offer with remaining := offer.remaining - fill } } :=
      h.setOffer ⟨ho.1, ho.2⟩
    exact hoffer.setMatch ⟨hseq, hblocks _ _, hblocks _ _, hspan.1, hspan.2.1, hspan.2.2.1,
      hspan.2.2.2, nofun, nofun, nofun, nofun, nofun⟩

theorem escrowed {m : Match} (hm : m.Safe) : m.escrowed.Safe := by
  unfold Match.escrowed
  split_ifs
  · exact { hm with }
  · exact hm

theorem swapProof (h : view.Safe) {matchId : String} {makerKey : Option String} {proof : FundsProof}
    (hproof : proof.Safe) : (applySwapProof view w matchId makerKey proof height).1.Safe := by
  unfold applySwapProof
  cases hget : view.matches.get? matchId with
  | none => exact h
  | some m =>
    have hm := h.matches _ _ hget
    simp only
    split_ifs
    all_goals first | exact h | skip
    · exact h.setMatch (escrowed { hm with makerProof := fun p hp => Option.some.inj hp ▸ hproof })
    · exact h.setMatch (escrowed { hm with takerProof := fun p hp => Option.some.inj hp ▸ hproof })

theorem swapLocked (h : view.Safe) (hheight : Counts height) {matchId txid : String} {vout : ℕ}
    (hvout : vout < 2 ^ 53) : (applySwapLocked view w matchId txid vout height).1.Safe := by
  have hlock : LockHint.Safe ⟨txid, vout, height⟩ := by
    refine ⟨hvout, ?_⟩
    unfold Counts at hheight
    show height.natAbs < 2 ^ 53
    omega
  unfold applySwapLocked
  cases hget : view.matches.get? matchId with
  | none => exact h
  | some m =>
    have hm := h.matches _ _ hget
    simp only
    split_ifs
    all_goals first | exact h | skip
    · exact h.setMatch { hm with makerLock := fun l hl => Option.some.inj hl ▸ hlock }
    · exact h.setMatch { hm with takerLock := fun l hl => Option.some.inj hl ▸ hlock }

theorem swapAbort (h : view.Safe) (hheight : Counts height) {matchId : String} :
    (applySwapAbort view w matchId height).1.Safe := by
  have heffect := @effect_swapAbort view w height matchId
  generalize applySwapAbort view w matchId height = result at heffect
  cases heffect with
  | rejected => exact h
  | @abort matchId m hget =>
    have hcancelled : (m.aborted height).Safe :=
      { h.matches _ _ hget with
        cancelled := fun c hc => by
          rw [← Option.some.inj hc]
          unfold Counts at hheight
          show height.natAbs < 2 ^ 53
          omega }
    have hset := h.setMatch (k := matchId) hcancelled
    unfold restoreCapacity
    cases hoffer : view.offers.get? m.offerId with
    | none => simpa only [hoffer] using hset
    | some offer =>
      have ho : offer.Safe := h.offers _ _ hoffer
      exact hset.setOffer ⟨ho.1, ho.2⟩

theorem applyOp (h : view.Safe) (hheight : Counts height) (hseq : w.seq < 2 ^ 53) {op : Op}
    (hop : op.Bounded) : (applyOp view w op height).1.Safe := by
  have hvout : maxVout < 2 ^ 53 := by decide
  cases op with
  | offerPost give want minFill expiresIn => exact h.offerPost hheight hop
  | offerCancel offerId =>
    have heffect := @effect_offerCancel view w height offerId
    show (applyOfferCancel view w offerId).1.Safe
    generalize applyOfferCancel view w offerId = result at heffect
    cases heffect with
    | rejected => exact h
    | cancel =>
      refine ⟨fun k' o' hget => ?_, h.matches⟩
      rw [OrderedMap.get?_delete] at hget
      split_ifs at hget
      exact h.offers k' o' hget
  | offerTake offerId fill hash takerKey => exact h.offerTake hheight hseq
  | swapProof matchId makerKey proof => exact h.swapProof fun u hu => (hop u hu).trans_lt hvout
  | swapLocked matchId txid vout =>
    have hle : vout ≤ maxVout := hop
    exact h.swapLocked hheight (hle.trans_lt hvout)
  | swapAbort matchId => exact h.swapAbort hheight

theorem foldWrite (h : view.Safe) (K : Curve) (hheight : Counts height) (hseq : w.seq < 2 ^ 53) :
    (foldWrite K view w height).Safe := by
  unfold Gavl.foldWrite
  cases hop : parseOp K w.payload with
  | none => exact h.advance height
  | some op => exact (h.advance height).applyOp hheight hseq (parseOp_written hop).1

theorem computeView (K : Curve) {writes : List Write} {nowHeight : ℤ} {opts : FoldOptions}
    (hbase : (opts.base.getD emptyView).Safe)
    (hwrites : ∀ w ∈ writes, Counts (heightOf opts.bornAt nowHeight w) ∧ w.seq < 2 ^ 53) :
    (computeView K writes nowHeight opts).Safe := by
  have hfold : ∀ (l : List Write) (view : View), view.Safe → (∀ w ∈ l, w ∈ writes) →
      (l.foldl (fun view w => Gavl.foldWrite K view w (heightOf opts.bornAt nowHeight w)) view).Safe := by
    intro l
    induction l with
    | nil => exact fun _ hview _ => hview
    | cons w l ih =>
      intro view hview hl
      obtain ⟨hw, hl⟩ := List.forall_mem_cons.mp hl
      exact ih _ (hview.foldWrite K (hwrites w hw).1 (hwrites w hw).2) hl
  apply advance
  exact hfold _ _ hbase fun w hw => (List.mem_insertionSort _).mp hw

end View.Safe

/-! ## Boards that folds reach -/

/-- A board reached by folding writes, from the empty one, from one reached before, or from a
checkpoint of one. The counters of the source are numbers that count exactly. -/
inductive View.Folded (K : Curve) : View → Prop
  | empty : View.Folded K emptyView
  | fold {writes : List Write} {nowHeight : ℤ} {opts : FoldOptions} :
      View.Folded K (opts.base.getD emptyView) →
      (∀ w ∈ writes, View.Safe.Counts (heightOf opts.bornAt nowHeight w) ∧ w.seq < 2 ^ 53) →
      View.Folded K (computeView K writes nowHeight opts)
  | resume {v w : View} : View.Folded K v → deserializeView (serializeView v) = some w →
      View.Folded K w

theorem View.Same.symm (h : v.Same w) : w.Same v := ⟨h.1.symm, h.2.symm⟩

/-- What a checkpoint stores reads back, in the order it is stored in. -/
theorem deserializeView_same (hv : v.Keyed) :
    ∃ v', deserializeView (serializeView v) = some v' ∧ v'.Same v := by
  obtain ⟨v', hread, hoffers, hmatches, -⟩ := deserializeView_serializeView hv
  exact ⟨v', hread, OrderedMap.entries_perm hoffers, OrderedMap.entries_perm hmatches⟩

theorem get?_of_perm {ν : Type} {m n : OrderedMap String ν} (h : m.entries.Perm n.entries)
    {k : String} {x : ν} (hget : m.get? k = some x) : n.get? k = some x := by
  rw [OrderedMap.get?_eq_some_iff] at hget ⊢
  exact h.mem_iff.mp hget

theorem View.Safe.of_same (hv : v.Safe) (h : w.Same v) : w.Safe :=
  ⟨fun k o hget => hv.offers k o (get?_of_perm h.offers hget),
    fun k m hget => hv.matches k m (get?_of_perm h.matches hget)⟩

theorem View.Folded.keyed_safe {K : Curve} (h : v.Folded K) : v.Keyed ∧ v.Safe := by
  induction h with
  | empty => exact ⟨View.Keyed.empty, View.Safe.empty⟩
  | @fold writes nowHeight opts _ hwrites ih =>
    refine ⟨View.Keyed.computeView K _ _ _ fun base hbase => ?_, View.Safe.computeView K ih.2 hwrites⟩
    rw [hbase] at ih
    exact ih.1
  | resume _ hread ih =>
    refine ⟨View.Keyed.deserializeView hread, ?_⟩
    obtain ⟨v', hread', hsame⟩ := deserializeView_same ih.1
    rw [hread, Option.some.injEq] at hread'
    exact ih.2.of_same (hread' ▸ hsame)

/-- **The encoding of a board is an exact, canonical round trip.** What is written down reads back
as the same board, after a trip through JSON text too; the root does not depend on the order offers
and matches came in; boards that differ have different canonical encodings, and different roots
under a hash without collisions; and a copy of a board is that board. -/
theorem board_round_trip (K : Curve) (C : Crypto) {v : View} (hv : v.Folded K) :
    (∃ state v', Json.parse (serializeView v).stringify = some state ∧
      deserializeView state = some v' ∧ v'.Same v) ∧
    (∀ w : View, v.Same w → viewRoot C v = viewRoot C w) ∧
    (∀ w : View, w.Folded K → ¬v.Same w →
      canonicalize (serializeView v) ≠ canonicalize (serializeView w) ∧
        (Function.Injective C.sha256 → viewRoot C v ≠ viewRoot C w)) ∧
    cloneView v = v := by
  obtain ⟨hkeyed, hsafe⟩ := hv.keyed_safe
  refine ⟨?_, fun w hsame => ?_, fun w hw hne => ⟨fun h => ?_, fun hC h => ?_⟩, cloneView_eq v⟩
  · obtain ⟨v', hread, hsame⟩ := deserializeView_same hkeyed
    exact ⟨serializeView v, v', parse_stringify (plain_serializeView hsafe), hread, hsame⟩
  · unfold viewRoot
    rw [serializeView_of_same hkeyed hsame]
  · exact hne (same_of_sortValue_eq hkeyed hw.keyed_safe.1 (stringify_injective h))
  · exact hne (same_of_sortValue_eq hkeyed hw.keyed_safe.1 (sha256Hex_canonical_inj hC h))

/-- The write that posts an offer of 100000 for 200000 base units. -/
def samplePost : Write where
  writer := "a"
  seq := 0
  prev := none
  stateRoot := .null
  plot := ⟨"", 1⟩
  difficulty := "1"
  ts := .nat 0
  payload := opPayload (.offerPost ⟨.bitcoin, 100000⟩ ⟨.litecoin, 200000⟩ 50000 100)
  space := ⟨0, "", [], ""⟩
  time := ⟨0, "", ""⟩
  id := "00"
  sig := ""

/-- The board once the offer is posted, at height 7. -/
def postedView : View :=
  computeView ⟨fun _ => true⟩ [samplePost] 7 ⟨byTs, ∅, none⟩

theorem board_round_trip_posted : postedView.offers.size = 1 ∧
    (∃ state v', Json.parse (serializeView postedView).stringify = some state ∧
      deserializeView state = some v' ∧ v'.Same postedView) ∧ cloneView postedView = postedView := by
  have hfolded : postedView.Folded ⟨fun _ => true⟩ := .fold .empty fun w hw => by
    obtain rfl := List.mem_singleton.mp hw
    exact ⟨by unfold View.Safe.Counts; decide, by decide⟩
  have h := board_round_trip ⟨fun _ => true⟩ ⟨id, fun _ _ _ => true⟩ hfolded
  exact ⟨by decide +kernel, h.1, h.2.2.2⟩

end Gavl
