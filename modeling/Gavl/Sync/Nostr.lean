import Gavl.Det.JsonParse
import Gavl.Det.Number
import Gavl.Det.Shape
import Gavl.Sync.Chunk

/-!
# The relay transport

Virtual peer links over public relays. A peer is the key its events are signed with; it gets a link
when its presence or a frame of it is seen, and loses it when its presence goes stale or a newer peer
needs the slot. Big frames are split across events.
-/

namespace Gavl

/-- Presence older than this is of a node that is gone. -/
def presenceTtlMs : ℤ := 10 * 60000

/-- Longest frame that is published in one event. -/
def maxContent : ℕ := 16 * 1024

/-- Tag of a chunk: the message's id, the index and the part count. -/
def chunkTag : String := "gc"

/-- An event as the relay pool hands it over: its signature is that of `pubkey`. -/
structure NostrEvent where
  pubkey : String
  /-- Seconds. -/
  createdAt : ℤ
  tags : List (List String)
  content : List Char
deriving DecidableEq

/-- What is known of a peer that was seen. -/
structure Presence where
  producer : Option String
  «at» : ℤ

/-- One virtual peer link. -/
structure NostrConnection where
  peerKey : String
  closed : Bool

/-- The integer a double holds, if it holds one. -/
def Double.toInt? : Double → Option ℤ
  | .finite units => if units % 2 ^ 1074 = 0 then some (units / 2 ^ 1074) else none
  | _ => none

/-- `Number(s)` where it is an integer. -/
def intOfText? (s : String) : Option ℤ := (numberOfText s.toList).toInt?

/-- A message that was published. -/
structure Outgoing where
  /-- What its parts are known by, if it was split. -/
  id : Option String
  toPubkey : String
  msg : Json

structure NostrTransport where
  myPubkey : String
  network : String
  /-- Cap on active connections that are not pinned. -/
  maxPeers : ℕ
  destroyed : Bool
  /-- Every connection there has been; its number is its place. -/
  links : List NostrConnection
  /-- Key to live connection. -/
  active : OrderedMap String ℕ
  seen : OrderedMap String Presence
  pinned : List String
  /-- Key to the time of the last frame from it. -/
  lastFrame : OrderedMap String ℤ
  producerToAddress : OrderedMap String String
  reasm : Reassembler
  /-- What was handed to the handlers of a connection. -/
  delivered : List (ℕ × Json)
  /-- Drawn at boot: digits and letters, and a dash. -/
  idPrefix : String
  msgSeq : ℕ
  /-- Events handed to the relays. -/
  published : List NostrEvent
  /-- The messages they carry. -/
  sent : List Outgoing

namespace NostrTransport

def new (myPubkey network idPrefix : String) (maxPeers : ℕ) : NostrTransport :=
  ⟨myPubkey, network, maxPeers, false, [], ∅, ∅, [], ∅, ∅, Reassembler.new {}, [], idPrefix, 0, [],
    []⟩

variable (C : Crypto) (t : NostrTransport)

/-! ## The peer set -/

def isOpen (n : ℕ) : Bool := (t.links[n]?).any (fun l => !l.closed)

/-- `fireClose` of a connection. -/
def closeLink (n : ℕ) : NostrTransport :=
  { t with links := t.links.modify n (fun l => { l with closed := true }) }

/-- When a peer was last heard from, or seen. -/
def lastHeard (pk : String) : ℤ :=
  ((t.lastFrame.get? pk).or ((t.seen.get? pk).map Presence.at)).getD 0

/-- The first of the unpinned peers that were heard from the longest ago. -/
def leastRecent : Option String :=
  (t.active.keys.foldl (fun oldest pk =>
    if pk ∈ t.pinned then oldest
    else
      match oldest with
      | none => some (pk, t.lastHeard pk)
      | some (key, «at») => if t.lastHeard pk < «at» then some (pk, t.lastHeard pk) else some (key, «at»))
    none).map Prod.fst

/-- Close the link of a peer and free its slot. -/
def dropPeer (pk : String) : NostrTransport :=
  match t.active.get? pk with
  | none => t
  | some n => { t with active := t.active.delete pk }.closeLink n

/-- Make room; `none` if all are pinned. -/
def evictLRU : Option NostrTransport :=
  (t.leastRecent.filter (fun pk => decide (pk ≠ ""))).map t.dropPeer

/-- A new link, greeted by the node. -/
def connect (pk : String) : NostrTransport × Option ℕ :=
  ({ t with links := t.links ++ [⟨pk, false⟩], active := t.active.set pk t.links.length },
    some t.links.length)

/-- The connection of a peer, a new one if it has none and there is a slot. -/
def activate (pk : String) : NostrTransport × Option ℕ :=
  if t.destroyed || decide (pk = t.myPubkey) then (t, none)
  else
    match (t.active.get? pk).filter t.isOpen with
    | some n => (t, some n)
    | none =>
      if t.maxPeers ≤ t.active.size ∧ pk ∉ t.pinned then
        match t.evictLRU with
        | none => (t, none)
        | some t => t.connect pk
      else t.connect pk

/-! ## Presence -/

/-- What the producer of a node signs. -/
def bindingMessage (network pubkey : String) : Bytes := utf8 s!"gavl-bind:{network}:{pubkey}".toList

/-- The producer that a presence event is bound to by its signature. -/
def producerOf (ev : NostrEvent) : Option String :=
  match Json.parse ev.content with
  | none => none
  | some body =>
    match body.string? "producer", body.string? "sig" with
    | some producer, some sig =>
      if producer ≠ "" ∧ sig ≠ "" ∧
          C.edVerify (fromHex producer) (bindingMessage t.network ev.pubkey) (fromHex sig) = true then
        some producer
      else none
    | _, _ => none

def onPresence (now : ℤ) (ev : NostrEvent) : NostrTransport :=
  if t.destroyed || decide (ev.pubkey = t.myPubkey) then t
  else if presenceTtlMs < now - ev.createdAt * 1000 then t
  else
    let producer := t.producerOf C ev
    let t := match producer with
      | some p => { t with producerToAddress := t.producerToAddress.set p ev.pubkey }
      | none => t
    ({ t with seen := t.seen.set ev.pubkey ⟨producer, now⟩ }.activate ev.pubkey).1

/-- Forget one peer whose presence went stale. A pin keeps the slot. -/
def sweepPeer (now : ℤ) (t : NostrTransport) (e : String × Presence) : NostrTransport :=
  if now - e.2.at ≤ presenceTtlMs then t
  else
    let t := { t with seen := t.seen.delete e.1, lastFrame := t.lastFrame.delete e.1 }
    if e.1 ∈ t.pinned then t else t.dropPeer e.1

def sweepStale (now : ℤ) : NostrTransport := t.seen.entries.foldl (sweepPeer now) t

/-! ## The wire -/

/-- A frame is whole: hand it to the peer's connection, if it is JSON and the peer has one. -/
def deliver (pk : String) (json : List Char) : NostrTransport :=
  match Json.parse json with
  | none => t
  | some msg =>
    match t.activate pk with
    | (t, none) => t
    | (t, some n) => { t with delivered := t.delivered ++ [(n, msg)] }

/-- Credit a peer with a frame. -/
def heard (now : ℤ) (pk : String) : NostrTransport :=
  { t with
    lastFrame := t.lastFrame.set pk now
    seen := if t.seen.has pk then t.seen else t.seen.set pk ⟨none, now⟩ }

def onWire (now : ℤ) (ev : NostrEvent) : NostrTransport :=
  if t.destroyed || decide (ev.pubkey = t.myPubkey) then t
  else
    let t := t.heard now ev.pubkey
    match ev.tags.find? (fun tag => decide (tag[0]? = some chunkTag)) with
    | none => t.deliver ev.pubkey ev.content
    | some gc =>
      let (reasm, done) := t.reasm.accept ev.pubkey (gc[1]?.getD "") (gc[2]?.bind intOfText?)
        (gc[3]?.bind intOfText?) ev.content now
      match done with
      | none => { t with reasm := reasm }
      | some json => { t with reasm := reasm }.deliver ev.pubkey json

/-- One event addressed to a peer. -/
def buildDirect (toPubkey : String) (nowSec : ℤ) (content : List Char) (extraTags : List (List String)) :
    NostrEvent :=
  ⟨t.myPubkey, nowSec, ["p", toPubkey] :: ["d", t.network] :: extraTags, content⟩

/-- Publish a message addressed to one peer. One that cannot be split is reported, and not sent. -/
def publishDirect (toPubkey : String) (nowSec : ℤ) (msg : Json) : NostrTransport :=
  if t.destroyed then t
  else
    match splitPayload msg.stringify maxContent with
    | .error _ => t
    | .ok none =>
      { t with
        published := t.published ++ [t.buildDirect toPubkey nowSec msg.stringify []]
        sent := t.sent ++ [⟨none, toPubkey, msg⟩] }
    | .ok (some parts) =>
      let id := t.idPrefix ++ toString (t.msgSeq + 1)
      -- the parts after the first leave a little later each, if the transport is still there
      { t with
        msgSeq := t.msgSeq + 1
        published := t.published ++ parts.zipIdx.map (fun p =>
          t.buildDirect toPubkey nowSec p.1
            [[chunkTag, id, toString p.2, toString parts.length]])
        sent := t.sent ++ [⟨some id, toPubkey, msg⟩] }

/-- `send` of a connection. -/
def send (n : ℕ) (nowSec : ℤ) (msg : Json) : NostrTransport :=
  match t.links[n]? with
  | none => t
  | some l => if l.closed then t else t.publishDirect l.peerKey nowSec msg

/-! ## What drives it -/

/-- Pin a peer, which keeps a slot for it. What is no key is refused. -/
def dialPeer (peerAddr : String) : NostrTransport :=
  let cs := ((peerAddr.toList.dropWhile isSpace).reverse.dropWhile isSpace).reverse
  let pk := String.ofList (cs.map Char.toLower)
  if !isHexOf 64 pk || decide (pk = t.myPubkey) then t
  else ({ t with pinned := if pk ∈ t.pinned then t.pinned else t.pinned ++ [pk] }.activate pk).1

def destroy : NostrTransport :=
  { t with
    destroyed := true
    links := t.links.zipIdx.map (fun l =>
      if l.2 ∈ t.active.values then { l.1 with closed := true } else l.1)
    active := ∅ }

/-- Peers from which a frame arrived in the last `ms`. -/
def livePeerAddrs (ms now : ℤ) : List String :=
  (t.lastFrame.filter (fun _ «at» => decide (now - «at» ≤ ms))).keys

end NostrTransport

inductive NostrStep where
  | presence (now : ℤ) (ev : NostrEvent)
  | wire (now : ℤ) (ev : NostrEvent)
  /-- The node sends on a connection. -/
  | send (n : ℕ) (nowSec : ℤ) (msg : Json)
  | dial (peerAddr : String)
  | sweep (now : ℤ)
  /-- The node closes a connection. -/
  | closed (n : ℕ)
  | destroy

def NostrTransport.step (C : Crypto) (t : NostrTransport) : NostrStep → NostrTransport
  | .presence now ev => t.onPresence C now ev
  | .wire now ev => t.onWire now ev
  | .send n nowSec msg => t.send n nowSec msg
  | .dial peerAddr => t.dialPeer peerAddr
  | .sweep now => t.sweepStale now
  | .closed n => t.closeLink n
  | .destroy => t.destroy

end Gavl
