import Gavl.Consensus.AdoptTheorems
import Gavl.Consensus.IdTheorems
import Gavl.Consensus.Mining
import Gavl.Market.OrderTheorems
import Gavl.Sync.FloorTheorems
import Gavl.Sync.SnapshotTheorems

/-!
# The producer

A producer mines over what its node holds: the tip, the heads of its own ledger, the fold of its
own writes. A node that holds everything the tip certifies judges the anchor by what the tip
certifies. The two are the same where the producer's ledger is as far as its tip.
-/

namespace Gavl

open AnchorChain Runs

namespace Daemon

variable {V : Type} {cfg : DaemonConfig V} {F : Farmer} {p v : Daemon V} {t a : Anchor}

/-- The anchor `produceOne` mines over the tip and the heads of the ledger. Everything is read
before the first `await`; what is mined is submitted in a later step. -/
def produceOne (cfg : DaemonConfig V) (F : Farmer) (d : Daemon V) : Option Anchor :=
  F.mineAnchor cfg.chain.crypto cfg.chain.params d.anchors.tip
    (match d.anchors.tip with | none => ∅ | some t => d.anchors.headsAt t.id)
    d.ledger.heads (d.anchors.difficultyFor cfg.chain d.anchors.tip)
    (d.appRootFor cfg d.anchors d.anchors.tip)

/-- `t` is held, under an id that a child can link to, and so is every write it certifies. -/
structure Synced (v : Daemon V) (t : Anchor) : Prop where
  id_ne : t.id ≠ ""
  held : v.anchors.get t.id = some t
  writes : v.haveAllWrites (v.anchors.headsAt t.id) = true

/-- The producer `p` is as far as its tip, as `v` sees it. -/
structure AsFarAs (cfg : DaemonConfig V) (p v : Daemon V) (t : Anchor) : Prop where
  /-- Both retarget alike above the tip. -/
  difficulty_eq : p.anchors.difficultyFor cfg.chain (some t) =
    v.anchors.difficultyFor cfg.chain (some t)
  /-- The producer's ledger has a head of every writer that the tip certifies. -/
  writers : ∀ w, (v.anchors.headsAt t.id).get? w ≠ none → p.ledger.headOf w ≠ none
  /-- A head that the producer leaves out as certified is certified. -/
  certified : ∀ w h, p.ledger.headOf w = some h → (p.anchors.headsAt t.id).get? w = some h →
    (v.anchors.headsAt t.id).get? w = some h
  /-- The certified writes that the producer holds fold to the board of all of them. -/
  board : cfg.app.viewRoot (p.viewAt cfg p.anchors t.id) =
    cfg.app.viewRoot (v.viewAt cfg v.anchors t.id)

/-! ## What a verifier makes of it -/

section

variable {K : Curve} {writes writes' : List Write} {chain chain' : AnchorChain} {base : Option View}

/-- Over one chain, the same certified writes fold to one view, if their stamps order them. -/
theorem viewOf_orderingFor_eq (hchain : chain'.chainTo t = chain.chainTo t)
    (hperm : (orderingFor writes chain (some t)).included.Perm
      (orderingFor writes' chain' (some t)).included)
    (hone : OneEach (orderingFor writes chain (some t)).included)
    (hord : StampsOrderAt (orderingFor writes chain (some t)).bornAt t.height
      (orderingFor writes chain (some t)).included) :
    viewOf K (orderingFor writes' chain' (some t)) base
      = viewOf K (orderingFor writes chain (some t)) base := by
  have hepoch : ∀ id, (orderingFor writes chain (some t)).bornAt.get? id
      = (orderingFor writes' chain' (some t)).bornAt.get? id := by
    intro id
    show (epochOf (chain.chainTo t) _).get? id = (epochOf (chain'.chainTo t) _).get? id
    rw [hchain]
    exact get?_epochOf_perm hperm _ id
  have horder : orderAt writes' chain' t = orderAt writes chain t :=
    foldOrder_congr fun id => (hepoch id).symm
  have hsort : sortWrites (orderAt writes chain t) (orderingFor writes chain (some t)).included
      = sortWrites (orderAt writes chain t) (orderingFor writes' chain' (some t)).included :=
    StableSort.insertionSort_eq_of_perm (r := fun x y => orderAt writes chain t x y ≤ 0)
      (orders_foldOrder hord)
      (fun a ha b hb hab hba => eq_of_foldOrder_tie hone hord ha hb hab hba) hperm
  have hview : ∀ (ws : List Write) (c : AnchorChain), viewOf K (orderingFor ws c (some t)) base
      = advance (foldWrites K (heightOf (orderingFor ws c (some t)).bornAt t.height)
          (sortWrites (orderAt ws c t) (orderingFor ws c (some t)).included)
          (base.getD emptyView)) t.height := fun _ _ => rfl
  rw [hview, hview, horder, ← hsort, heightOf_congr hepoch]

/-- On one chain grown from genesis and on one base, a producer that holds the writes its tip
certifies, and a head of each of their writers, is as far as its tip. -/
theorem asFarAs_of_certified {C : Crypto} {cfg : DaemonConfig View} {p v : Daemon View}
    (happ : cfg.app = boardApp C K) (hp : p.anchors.Grown) (hv : v.anchors.Grown)
    (hpt : p.anchors.Holds t) (hvt : v.anchors.Holds t)
    (hanc : v.anchors.ancestry t = p.anchors.ancestry t)
    (hbase : v.checkpointBase = p.checkpointBase)
    (hwriters : ∀ w, (p.anchors.headsAt t.id).get? w ≠ none → p.ledger.headOf w ≠ none)
    (hperm : (orderingFor p.ledger.allWrites p.anchors (some t)).included.Perm
      (orderingFor v.ledger.allWrites v.anchors (some t)).included)
    (hone : OneEach (orderingFor p.ledger.allWrites p.anchors (some t)).included)
    (hord : StampsOrder p.ledger.allWrites p.anchors t.id) : AsFarAs cfg p v t := by
  have hheads : v.anchors.headsAt t.id = p.anchors.headsAt t.id := by
    rw [hv.headsAt_eq hvt, hp.headsAt_eq hpt]
    unfold rebuiltHeads chainTo
    rw [hanc, hv.no_floor, hp.no_floor]
    -- without a floor both start from nothing
    simp
  refine ⟨(difficultyFor_congr hp.linked hv.linked hpt hvt hanc).symm, ?_, ?_, ?_⟩
  · rw [hheads]
    exact hwriters
  · intro w h _ hcert
    rw [hheads]
    exact hcert
  · have hchain : v.anchors.chainTo t = p.anchors.chainTo t := by
      unfold chainTo
      rw [hanc]
    unfold viewAt
    rw [happ, show p.anchors.get t.id = some t from hpt, show v.anchors.get t.id = some t from hvt,
      hbase]
    exact congrArg _ (viewOf_orderingFor_eq hchain hperm hone (hord t hpt)).symm

end

namespace Behind

open Rollback

/-- A farmer whose every proof passes under the open configuration. -/
def farmer : Farmer where
  publicKey := []
  sign := fun _ => []
  prover := ⟨⟨"standin", "", 0⟩, fun _ => some ⟨.null, "0"⟩⟩
  vdfEval := fun _ n => if n < 2 ^ 53 then some ⟨n, "", ""⟩ else none

/-- The producer takes the anchor that certifies the first write, and not the write. -/
def events : List Event := [.root false, .submitAnchor boundary]

def producer : Daemon View := run (step config) (Daemon.new "gavl") events

/-- Its peer has the write as well. -/
def synced : Daemon View :=
  run (step config) (Daemon.new "gavl") (events ++ [.message peer (.writes [first])])

theorem evaluated : producer.anchors.tipId = some boundary.id ∧ boundary.id ≠ "" ∧
    (producer.anchors.get boundary.id).map (·.id) = some boundary.id ∧
    synced.haveAllWrites (producer.anchors.headsAt boundary.id) = true ∧
    synced.haveAllWrites (applyHeadsDelta (producer.anchors.headsAt boundary.id)
      (diffHeads (producer.anchors.headsAt boundary.id) producer.ledger.heads)) = true ∧
    (producer.produceOne config farmer).isSome = true ∧
    rootOfHeads config.chain.crypto producer.ledger.heads ≠ rootOfHeads config.chain.crypto
      (applyHeadsDelta (producer.anchors.headsAt boundary.id)
        (diffHeads (producer.anchors.headsAt boundary.id) producer.ledger.heads)) := by
  decide +kernel

/-- A node that holds block 0 and no write. -/
def rooted : Daemon View :=
  { (Daemon.new "gavl" : Daemon View) with anchors := rootedAt Forged.root ∅ }

end Behind

end Daemon

end Gavl
