import Gavl.Market.AccountTheorems
import Gavl.Market.ListingTheorems
import Gavl.Market.OriginTheorems
import Gavl.Market.Requests
import Gavl.Swap.KeysTheorems
import Gavl.Swap.SessionTheorems

/-!
# A node's own matches derive

The keys and the secret of a swap are not stored: the engine derives them again from the match on the
board. For a match that the node took, or proved funds for, that gives the hash and the keys that the
board shows, whatever the board went through between a call and its write.
-/

namespace Gavl

open Runs

variable {K : Curve} {p v : Json} {op : Op} {lib : SwapLib} {pubHex : String} {seed : Bytes}
  {P : Write → Prop}

/-! ## Kinds -/

namespace Op

/-- The kind that the payload of an op states. -/
def kind : Op → String
  | offerPost _ _ _ _ => "offer.post"
  | offerCancel _ => "offer.cancel"
  | offerTake _ _ _ _ => "offer.take"
  | swapProof _ _ _ => "swap.proof"
  | swapLocked _ _ _ => "swap.locked"
  | swapAbort _ => "swap.abort"

end Op

theorem string?_opPayload (op : Op) : (opPayload op).string? "kind" = some op.kind := by
  cases op with
  | swapProof matchId makerKey proof => cases makerKey <;> rfl
  | _ => rfl

theorem kind_of_parseIdOp {field : String} {make : String → Op} {kind : String}
    (h : parseIdOp p field make = some op) (hmake : ∀ id, (make id).kind = kind) : op.kind = kind := by
  unfold parseIdOp at h
  split_ifs at h
  obtain ⟨id, -, rfl⟩ := Option.map_eq_some_iff.mp h
  exact hmake id

theorem kind_of_parseOfferPost (h : parseOfferPost p = some op) : op.kind = "offer.post" := by
  unfold parseOfferPost at h
  split_ifs at h
  obtain ⟨give, -, h⟩ := Option.bind_eq_some_iff.mp h
  obtain ⟨want, -, h⟩ := Option.bind_eq_some_iff.mp h
  split_ifs at h
  obtain ⟨v, -, h⟩ := Option.bind_eq_some_iff.mp h
  obtain ⟨minFill, -, h⟩ := Option.bind_eq_some_iff.mp h
  obtain ⟨ttl, -, h⟩ := Option.bind_eq_some_iff.mp h
  split_ifs at h
  obtain rfl := Option.some.inj h
  rfl

/-- What the parser reads of a take. -/
theorem parseOfferTake_eq (h : parseOfferTake K p = some op) : ∃ offerId fill hash takerKey,
    op = .offerTake offerId fill hash takerKey ∧ p.get? "offerId" = some (.str offerId) ∧
      p.get? "hash" = some (.str hash) ∧ p.get? "takerKey" = some (.str takerKey) := by
  unfold parseOfferTake at h
  split_ifs at h
  obtain ⟨offerId, hoffer, h⟩ := Option.bind_eq_some_iff.mp h
  obtain ⟨hash, hhash, h⟩ := Option.bind_eq_some_iff.mp h
  obtain ⟨takerKey, hkey, h⟩ := Option.bind_eq_some_iff.mp h
  obtain ⟨v, -, h⟩ := Option.bind_eq_some_iff.mp h
  obtain ⟨fill, -, h⟩ := Option.bind_eq_some_iff.mp h
  obtain ⟨a, ha, hoffer⟩ := Option.bind_eq_some_iff.mp hoffer
  obtain ⟨b, hb, hhash⟩ := Option.bind_eq_some_iff.mp hhash
  obtain ⟨c, hc, hkey⟩ := Option.bind_eq_some_iff.mp hkey
  obtain rfl := eq_str_of_isHex64 hoffer
  obtain rfl := eq_str_of_isHex64 hhash
  obtain rfl := eq_str_of_isXOnlyKey hkey
  exact ⟨offerId, fill, hash, takerKey, (Option.some.inj h).symm, ha, hb, hc⟩

/-- What it reads of a proof of funds. -/
theorem parseSwapProof_eq (h : parseSwapProof K p = some op) : ∃ matchId makerKey proof,
    op = .swapProof matchId makerKey proof ∧ p.get? "matchId" = some (.str matchId) ∧
      p.get? "makerKey" = makerKey.map Json.str := by
  unfold parseSwapProof at h
  split_ifs at h
  obtain ⟨matchId, hmatch, h⟩ := Option.bind_eq_some_iff.mp h
  obtain ⟨proof, -, h⟩ := Option.bind_eq_some_iff.mp h
  obtain ⟨a, ha, hmatch⟩ := Option.bind_eq_some_iff.mp hmatch
  obtain rfl := eq_str_of_isHex64 hmatch
  cases hkey : p.get? "makerKey" with
  | none =>
    rw [hkey] at h
    exact ⟨matchId, none, proof, (Option.some.inj h).symm, ha, rfl⟩
  | some key =>
    rw [hkey] at h
    obtain ⟨makerKey, hmaker, h⟩ := Option.bind_eq_some_iff.mp h
    have hop := (Option.some.inj h).symm
    obtain rfl := eq_str_of_isXOnlyKey hmaker
    exact ⟨matchId, some makerKey, proof, hop, ha, rfl⟩

theorem kind_of_parseSwapLocked (h : parseSwapLocked p = some op) : op.kind = "swap.locked" := by
  unfold parseSwapLocked at h
  split_ifs at h
  obtain ⟨matchId, -, h⟩ := Option.bind_eq_some_iff.mp h
  obtain ⟨txid, -, h⟩ := Option.bind_eq_some_iff.mp h
  obtain ⟨vout, -, h⟩ := Option.bind_eq_some_iff.mp h
  obtain rfl := Option.some.inj h
  rfl

/-- A payload is parsed as an op of the kind that it states. -/
theorem kind_of_parseOp (h : parseOp K p = some op) : p.string? "kind" = some op.kind := by
  unfold parseOp at h
  split at h
  · rw [kind_of_parseOfferPost h]
    assumption
  · rw [kind_of_parseIdOp h fun _ => rfl]
    assumption
  · obtain ⟨offerId, fill, hash, takerKey, rfl, -⟩ := parseOfferTake_eq h
    assumption
  · obtain ⟨matchId, makerKey, proof, rfl, -⟩ := parseSwapProof_eq h
    assumption
  · rw [kind_of_parseSwapLocked h]
    assumption
  · rw [kind_of_parseIdOp h fun _ => rfl]
    assumption
  · cases h

/-! ## What was asked for -/

/-- A payload is posted as the op that it parses to. -/
theorem parsed_of_submit {board : Board} {seq : ℕ} {payload : Json}
    (h : Builder.submit K pubHex (fun _ => p) board seq = some payload) :
    ∃ op, parseOp K p = some op ∧ payload = opPayload op := by
  obtain ⟨op, hop, h⟩ := Option.bind_eq_some_iff.mp h
  simp only at h
  split at h
  · cases h
  · exact ⟨op, hop, (Option.some.inj h).symm⟩

theorem parseOfferTake_of_kind (h : parseOp K p = some op) (hkind : op.kind = "offer.take") :
    parseOfferTake K p = some op := by
  have hp := kind_of_parseOp h
  rw [hkind] at hp
  unfold parseOp at h
  rw [hp] at h
  exact h

theorem parseSwapProof_of_kind (h : parseOp K p = some op) (hkind : op.kind = "swap.proof") :
    parseSwapProof K p = some op := by
  have hp := kind_of_parseOp h
  rw [hkind] at hp
  unfold parseOp at h
  rw [hp] at h
  exact h

/-- A take that is read back from what was posted was asked for. -/
theorem take_of_payload {offerId hash takerKey : String} {fill : ℕ} (hop : parseOp K p = some op)
    (h : parseOp K (opPayload op) = some (.offerTake offerId fill hash takerKey)) :
    p.string? "kind" = some "offer.take" ∧ p.get? "offerId" = some (.str offerId) ∧
      p.get? "hash" = some (.str hash) ∧ p.get? "takerKey" = some (.str takerKey) := by
  have hkind : op.kind = "offer.take" := by
    have hsame := (string?_opPayload op).symm.trans (kind_of_parseOp h)
    exact Option.some.inj hsame
  have hp : p.string? "kind" = some "offer.take" := by
    rw [kind_of_parseOp hop, hkind]
  -- what was asked for, and what is read back of it
  obtain ⟨offerId', fill', hash', takerKey', rfl, hoffer, hhash, hkey⟩ :=
    parseOfferTake_eq (parseOfferTake_of_kind hop hkind)
  obtain ⟨o, f, x, y, heq, ho, hx, hy⟩ := parseOfferTake_eq (parseOfferTake_of_kind h rfl)
  obtain ⟨rfl, rfl, rfl, rfl⟩ := Op.offerTake.inj heq
  obtain rfl : offerId' = offerId := Json.str.inj (Option.some.inj ho)
  obtain rfl : hash' = hash := Json.str.inj (Option.some.inj hx)
  obtain rfl : takerKey' = takerKey := Json.str.inj (Option.some.inj hy)
  exact ⟨hp, hoffer, hhash, hkey⟩

/-- and so was a proof of funds. -/
theorem proof_of_payload {matchId : String} {makerKey : Option String} {proof : FundsProof}
    (hop : parseOp K p = some op)
    (h : parseOp K (opPayload op) = some (.swapProof matchId makerKey proof)) :
    p.string? "kind" = some "swap.proof" ∧ p.get? "matchId" = some (.str matchId) ∧
      p.get? "makerKey" = makerKey.map Json.str := by
  have hkind : op.kind = "swap.proof" := by
    have hsame := (string?_opPayload op).symm.trans (kind_of_parseOp h)
    exact Option.some.inj hsame
  have hp : p.string? "kind" = some "swap.proof" := by
    rw [kind_of_parseOp hop, hkind]
  obtain ⟨matchId', makerKey', proof', rfl, hmatch, hkey⟩ :=
    parseSwapProof_eq (parseSwapProof_of_kind hop hkind)
  obtain ⟨x, y, z, heq, hx, hy⟩ := parseSwapProof_eq (parseSwapProof_of_kind h rfl)
  obtain ⟨rfl, rfl, rfl⟩ := Op.swapProof.inj heq
  -- the payload of a proof has the field only where it carries a key
  cases makerKey' with
  | none =>
    obtain rfl : matchId' = matchId := Json.str.inj (Option.some.inj hx)
    obtain rfl : makerKey = none := by
      cases makerKey with
      | none => rfl
      | some key => cases hy
    exact ⟨hp, hmatch, hkey⟩
  | some key' =>
    obtain rfl : matchId' = matchId := Json.str.inj (Option.some.inj hx)
    obtain rfl : makerKey = some key' := by
      cases makerKey with
      | none => cases hy
      | some key => exact congrArg some (Json.str.inj (Option.some.inj hy)).symm
    exact ⟨hp, hmatch, hkey⟩

namespace Request

variable {r : Request} {board : Board} {seq : ℕ} {payload : Json}

/-- The kind of op that a request asks for. -/
def kind : Request → String
  | postOffer _ _ _ _ _ _ => "offer.post"
  | cancelOffer _ => "offer.cancel"
  | takeOffer _ _ _ => "offer.take"
  | swapProof _ _ _ _ => "swap.proof"
  | swapLocked _ _ _ => "swap.locked"
  | swapAbort _ => "swap.abort"

theorem build_takeOffer {offerId : String} {fill : Json} {offer : Offer}
    (h : (takeOffer offerId fill offer).build lib pubHex seed seq = some p) :
    p = .obj [("kind", .str "offer.take"), ("offerId", .str offerId), ("fill", fill),
      ("hash", .str (derived lib seed (Gavl.takeSwapId offerId pubHex seq) offer.want.chain).1),
      ("takerKey", .str (derived lib seed (Gavl.takeSwapId offerId pubHex seq) offer.want.chain).2)] := by
  simp only [build] at h
  cases hid : Keys.takeSwapId offerId pubHex seq with
  | error err =>
    rw [hid] at h
    cases h
  | ok swapId =>
    rw [hid] at h
    obtain rfl := Keys.takeSwapId_ok hid
    exact (Option.some.inj h).symm

theorem string?_build (h : r.build lib pubHex seed seq = some p) :
    p.string? "kind" = some r.kind := by
  cases r with
  | takeOffer offerId fill offer =>
    rw [build_takeOffer h]
    rfl
  | postOffer giveChain giveAmount wantChain wantAmount minFill expiresIn =>
    obtain rfl := Option.some.inj h
    rfl
  | cancelOffer id =>
    obtain rfl := Option.some.inj h
    rfl
  | swapProof matchId role makerChain proof =>
    obtain rfl := Option.some.inj h
    exact string?_opPayload _
  | swapLocked matchId txid vout =>
    obtain rfl := Option.some.inj h
    rfl
  | swapAbort matchId =>
    obtain rfl := Option.some.inj h
    rfl

/-- What a request posts is the op that its payload parses to. -/
theorem builder_eq_some (h : r.builder K lib pubHex seed board seq = some payload) :
    ∃ p op, r.build lib pubHex seed seq = some p ∧ parseOp K p = some op ∧ payload = opPayload op := by
  obtain ⟨p, hp, h⟩ := Option.bind_eq_some_iff.mp h
  obtain ⟨op, hop, rfl⟩ := parsed_of_submit h
  exact ⟨p, op, hp, hop, rfl⟩

/-- A take that was posted is one that was called for, and says what is derived at its seq. -/
theorem take_of_builder {offerId hash takerKey : String} {fill : ℕ}
    (h : r.builder K lib pubHex seed board seq = some payload)
    (htake : parseOp K payload = some (.offerTake offerId fill hash takerKey)) :
    ∃ f offer, r = .takeOffer offerId f offer ∧ (hash, takerKey)
      = derived lib seed (Gavl.takeSwapId offerId pubHex seq) offer.want.chain := by
  obtain ⟨p, op, hp, hop, rfl⟩ := builder_eq_some h
  obtain ⟨hkind, hoffer, hhash, hkey⟩ := take_of_payload hop htake
  rw [string?_build hp, Option.some.injEq] at hkind
  cases r with
  | takeOffer id f offer =>
    obtain rfl := build_takeOffer hp
    obtain rfl : id = offerId := Json.str.inj (Option.some.inj hoffer)
    refine ⟨f, offer, rfl, ?_⟩
    rw [← Json.str.inj (Option.some.inj hhash), ← Json.str.inj (Option.some.inj hkey)]
  -- any other request states another kind
  | _ => exact absurd hkind (by simp [kind])

/-- A maker's proof that was posted carries the key that is derived from the match. -/
theorem proof_of_builder {matchId key : String} {proof : FundsProof}
    (h : r.builder K lib pubHex seed board seq = some payload)
    (hproof : parseOp K payload = some (.swapProof matchId (some key) proof)) :
    ∃ chain x, r = .swapProof matchId .maker chain x ∧
      some key = makerKey lib seed matchId chain .maker := by
  obtain ⟨p, op, hp, hop, rfl⟩ := builder_eq_some h
  obtain ⟨hkind, hmatch, hkey⟩ := proof_of_payload hop hproof
  rw [string?_build hp, Option.some.injEq] at hkind
  cases r with
  | swapProof id role makerChain x =>
    obtain rfl := Option.some.inj hp
    cases role with
    | taker => cases hkey
    | maker =>
      obtain rfl : id = matchId := Json.str.inj (Option.some.inj hmatch)
      refine ⟨makerChain, x, rfl, ?_⟩
      exact congrArg some (Json.str.inj (Option.some.inj hkey)).symm
  | _ => exact absurd hkind (by simp [kind])

end Request

/-! ## Matches -/

/-- What a request read from the board when it was made is signed for. -/
def Request.Reads (K : Curve) (P : Write → Prop) : Request → Prop
  | .takeOffer offerId _ offer => offer.Signed K P offerId
  | .swapProof matchId _ makerChain _ => ∃ m : Match, m.Signed K P matchId ∧ m.makerChain = makerChain
  | _ => True

/-- A run of an account of the identity that posts what its daemon is asked for. -/
structure AccountRun (C : Crypto) (params : ChainParams) (K : Curve) (P : Write → Prop) (lib : SwapLib)
    (pubHex : String) (seed : Bytes) where
  account : Account
  steps : List AccountStep
  key : account.pubHex = pubHex
  complete : account.writer.Complete C params
  fresh : account.Fresh C params
  queue : account.queue = []
  alone : Along (Account.step C params) (Account.Alone C params account.next.1) account steps
  asked : ∀ build ∈ steps.filterMap AccountStep.build?, ∃ r : Request, r.Reads K P ∧
    build = r.builder K lib pubHex seed

namespace AccountRun

variable {C : Crypto} {params : ChainParams} {w : Write}

/-- The writes that it made. -/
def posted (s : AccountRun C params K P lib pubHex seed) : List Write :=
  (run (Account.step C params) s.account s.steps).posted

/-- Each write says what a request built of its seq. -/
theorem requested (s : AccountRun C params K P lib pubHex seed) (hw : w ∈ s.posted) :
    ∃ (r : Request) (board : Board), r.Reads K P ∧
      r.builder K lib pubHex seed board w.seq = some w.payload := by
  obtain ⟨hline, hposts⟩ := Account.posts_in_line s.complete s.fresh s.alone
  obtain ⟨e, he, hsome⟩ := List.mem_filterMap.mp hw
  obtain ⟨board, hbuilt⟩ := hline.built e he w hsome
  have hasked : e.1 ∈ s.steps.filterMap AccountStep.build? := by
    rw [s.queue, List.nil_append] at hposts
    rw [← hposts]
    unfold Account.posts
    rw [List.append_assoc]
    exact List.mem_append_left _ (List.mem_map_of_mem he)
  obtain ⟨r, hreads, hr⟩ := s.asked e.1 hasked
  rw [hr] at hbuilt
  exact ⟨r, board, hreads, hbuilt⟩

end AccountRun

/-- Writes with one id carry one op. -/
def IdsBind (K : Curve) (P : Write → Prop) : Prop :=
  ∀ w w' op op', P w → P w' → w.id = w'.id → parseOp K w.payload = some op →
    parseOp K w'.payload = some op' → op = op'

variable {k : String} {o o' : Offer} {m m' : Match} {view : View}

theorem Offer.Signed.legs_eq (hids : IdsBind K P) (h : o.Signed K P k) (h' : o'.Signed K P k) :
    o.give = o'.give ∧ o.want = o'.want := by
  obtain ⟨w, hw, hid, -, ttl, hop, -⟩ := h.post
  obtain ⟨w', hw', hid', -, ttl', hop', -⟩ := h'.post
  have heq := hids w w' _ _ hw hw' (hid.trans hid'.symm) hop hop'
  obtain ⟨hgive, hwant, -, -⟩ := Op.offerPost.inj heq
  exact ⟨hgive, hwant⟩

theorem Match.Signed.makerChain_eq (hids : IdsBind K P) (h : m.Signed K P k) (h' : m'.Signed K P k) :
    m.makerChain = m'.makerChain := by
  obtain ⟨w, hw, hid, -, -, hop⟩ := h.take
  obtain ⟨w', hw', hid', -, -, hop'⟩ := h'.take
  have heq := hids w w' _ _ hw hw' (hid.trans hid'.symm) hop hop'
  obtain ⟨hoffer, -, -, -⟩ := Op.offerTake.inj heq
  obtain ⟨o, ho, -, hchain, -⟩ := h.offer
  obtain ⟨o', ho', -, hchain', -⟩ := h'.offer
  rw [hchain, hchain', (ho.legs_eq hids (hoffer ▸ ho')).1]

/-- **Matches derive.** Where nobody else signs for an identity, and boards are signed for, a match that
the identity took has the hash and the key that the engine derives from its seed, and a match of which
it is the maker shows no key but the derived one. -/
theorem matches_derive {C : Crypto} {params : ChainParams} {E : Engine} {c : Ctx}
    (hown : ∀ w, P w → w.writer = pubHex →
      ∃ s : AccountRun C params K P E.lib pubHex c.seed, w ∈ s.posted)
    (hids : IdsBind K P) (hview : view.Signed K P) (hget : view.matches.get? c.matchId = some m)
    (hterms : c.terms = termsOf m) :
    (m.taker = pubHex → ¬c.Foreign E .taker) ∧ (m.maker = pubHex → ¬c.Foreign E .maker) := by
  have hm := hview.matches c.matchId m hget
  constructor
  · intro htaker
    obtain ⟨w, hw, -, hwriter, hseq, hop⟩ := hm.take
    obtain ⟨s, hposted⟩ := hown w hw (hwriter.trans htaker)
    obtain ⟨r, board, hreads, hbuilt⟩ := s.requested hposted
    obtain ⟨f, offer, rfl, hderived⟩ := Request.take_of_builder hbuilt hop
    -- the offer that was found is the one that is matched
    obtain ⟨o, ho, -, -, hchain, -⟩ := hm.offer
    have hwant : offer.want = o.want := (Offer.Signed.legs_eq hids hreads ho).2
    rw [hwant, ← hchain, hseq, ← htaker] at hderived
    obtain ⟨hhash, hkey⟩ := Prod.mk.inj hderived
    have hsecret : c.hash = E.lib.hashOf (E.lib.swapSecret c.seed
        (takeSwapId m.offerId m.taker m.takeSeq)) := by
      unfold Ctx.hash
      rw [hterms]
      show fromHex m.hash = _
      rw [hhash, fromHex_toHex]
    unfold Ctx.Foreign
    rw [hsecret, hterms]
    intro hforeign
    obtain hne | hne := hforeign
    · exact hne rfl
    · exact hne hkey.symm
  · intro hmaker hforeign
    unfold Ctx.Foreign at hforeign
    rw [hterms] at hforeign
    obtain ⟨hsome, hne⟩ := hforeign
    have hproof : m.makerProof ≠ none := hm.makerKey fun hnone => by
      rw [show (termsOf m).makerKey = m.makerKey from rfl, hnone] at hsome
      cases hsome
    obtain ⟨proof, hproof⟩ := Option.ne_none_iff_exists'.mp hproof
    obtain ⟨key, hkey, -, w, hw, hwriter, hop⟩ := hm.makerProof proof hproof
    obtain ⟨s, hposted⟩ := hown w hw (hwriter.trans hmaker)
    obtain ⟨r, board, hreads, hbuilt⟩ := s.requested hposted
    obtain ⟨chain, x, rfl, hderived⟩ := Request.proof_of_builder hbuilt hop
    obtain ⟨m', hm', rfl⟩ := hreads
    refine hne ?_
    show m.makerKey = _
    rw [hkey, hderived, hm'.makerChain_eq hids hm]
    unfold Ctx.makerSwapKey
    rw [hterms]
    rfl

namespace Asked

open Account.Posting Checkpointed

def ownSeed : Bytes := List.replicate 32 5

/-- A take of the whole offer. -/
def request : Request := .takeOffer offerId (.str "100000") onBoard

/-- The account posts it on a board that lists the offer. -/
def steps : List AccountStep :=
  [.post (request.builder curve sampleSwapLib "ab" ownSeed),
    .start ⟨some 5, ⟨(∅ : OrderedMap String Offer).set offerId onBoard, ∅⟩⟩ (.nat 2), .finish]

def posted : List Write := (run (Account.step crypto rules) account steps).posted

/-- The maker's write, and what the account posted. -/
def Made (w : Write) : Prop := w = post ∨ w ∈ posted

theorem signed_onBoard : onBoard.Signed curve Made offerId :=
  ⟨rfl, post, .inl rfl, rfl, rfl, 1440, by decide +kernel, rfl⟩

def posting : AccountRun crypto rules curve Made sampleSwapLib "ab" ownSeed where
  account := account
  steps := steps
  key := by decide
  complete := complete_writer
  fresh := fresh_account
  queue := rfl
  alone := ⟨trivial, trivial, trivial, trivial⟩
  asked := fun _ hbuild => ⟨request, signed_onBoard, List.mem_singleton.mp hbuild⟩

def folded : View := computeView curve (post :: posted) 7 ⟨byTs, ∅, none⟩

/-- The match that the take made. -/
def matchId : String := ((posted.map (fun w => w.id)).head?).getD ""

def ctx (m : Match) : Ctx := ⟨matchId, termsOf m, none, none, ownSeed⟩

theorem own_made : ∀ w, Made w → w.writer = "ab" →
    ∃ s : AccountRun crypto rules curve Made sampleSwapLib "ab" ownSeed, w ∈ s.posted := by
  intro w hw hwriter
  obtain rfl | hw := hw
  · exact absurd hwriter (by decide)
  · exact ⟨posting, hw⟩

theorem idsBind_made : IdsBind curve Made := by
  have hposted : ∀ w ∈ posted, w.id ≠ post.id ∧
      parseOp curve w.payload = parseOp curve (opPayload (.offerTake offerId 100000
        (toHex ownSeed) (toHex (List.replicate 32 6)))) := by
    decide +kernel
  intro w w' op op' hw hw' hid hop hop'
  obtain rfl | hw := hw
  · obtain rfl | hw' := hw'
    · exact Option.some.inj (hop.symm.trans hop')
    · exact absurd hid.symm (hposted w' hw').1
  · obtain rfl | hw' := hw'
    · exact absurd hid (hposted w hw).1
    · rw [(hposted w hw).2] at hop
      rw [(hposted w' hw').2] at hop'
      exact Option.some.inj (hop.symm.trans hop')

end Asked

open Asked Account.Posting Checkpointed in
/-- The theorem at a take: the match is the account's, and derives. -/
theorem matches_derive_taken : ∃ m, folded.matches.get? matchId = some m ∧ m.taker = "ab" ∧
    ¬(ctx m).Foreign sampleEngine .taker := by
  have htaker : (folded.matches.get? matchId).map (fun m => m.taker) = some "ab" := by decide +kernel
  obtain ⟨m, hm, hme⟩ := Option.map_eq_some_iff.mp htaker
  have hsigned : folded.Signed curve Made := by
    refine View.Signed.computeView (fun w hw => ?_) 7 .empty
    obtain rfl | hw := List.mem_cons.mp hw
    · exact .inl rfl
    · exact .inr hw
  have hget : folded.matches.get? (ctx m).matchId = some m := by
    simp only [ctx]
    exact hm
  have hown : ∀ w, Made w → w.writer = "ab" →
      ∃ s : AccountRun crypto rules curve Made sampleEngine.lib "ab" (ctx m).seed, w ∈ s.posted :=
    own_made
  have hterms : (ctx m).terms = termsOf m := rfl
  refine ⟨m, hm, hme, ?_⟩
  exact (matches_derive hown idsBind_made hsigned hget hterms).1 hme

end Gavl
