import Gavl.Det.Canonical
import Gavl.Lib.Base64
import Gavl.Lib.OrderedMap
import Gavl.Lib.Utf8

/-!
# Frame chunking

A big message is split across relay-sized events and put back together. A chunk may come late, twice
or between the chunks of other messages, and what a sender may pin in memory is bounded.
-/

namespace Gavl

/-- The length of a string of the source, in UTF-16 code units. -/
def utf16Length (s : List Char) : ℕ := (s.map (fun c => if c.toNat < 0x10000 then 1 else 2)).sum

/-- Hard ceiling on parts per message. -/
def maxParts : ℕ := 1024

/-- The slices of `s` that `n` turns of the loop cut, `max` characters each. -/
def slices (s : List Char) (max n : ℕ) : List (List Char) :=
  (List.range n).map (fun i => (s.drop (i * max)).take max)

/-- Split `json` into relay-sized parts, or `none` when it already fits in one frame. Parts are
base64 of the UTF-8 bytes, so every index is a character. -/
def splitPayload (json : List Char) (maxContent : ℕ) : Except String (Option (List (List Char))) :=
  if utf16Length json ≤ maxContent then .ok none
  else
    let b64 := Base64.encode (utf8 json)
    let n := (b64.length + (maxContent - 1)) / maxContent
    if maxContent = 0 then
      .error s!"payload needs Infinity chunks, over the {maxParts} limit — too large to send over relays"
    else if maxParts < n then
      .error s!"payload needs {n} chunks, over the {maxParts} limit — too large to send over relays"
    else .ok (some (slices b64 maxContent n))

/-- Reverse of `splitPayload` for a complete, in-order part list. -/
def joinPayload (parts : List (List Char)) : List Char :=
  Utf8.decode (Base64.decode parts.flatten)

/-- A message some of whose chunks are still to come. -/
structure Partial where
  total : ℕ
  parts : List (Option (List Char))
  «have» : ℕ
  bytes : ℤ
  «at» : ℤ

namespace Partial

/-- Whether the chunk at `index` is missing. -/
def lacks (p : Partial) (index : ℕ) : Bool := decide (p.parts[index]? = some none)

/-- The partial with a chunk in its place, unless one was there. -/
def fill (p : Partial) (index : ℕ) (part : List Char) (now : ℤ) : Partial :=
  if p.lacks index then
    { p with
      parts := p.parts.set index (some part)
      «have» := p.have + 1
      bytes := p.bytes + utf16Length part
      «at» := now }
  else { p with «at» := now }

end Partial

structure ReassemblerOptions where
  /-- Drop a partial message that has not completed in this long. -/
  ttlMs : ℤ := 60000
  maxPartialPerSender : ℕ := 4
  /-- Over all senders. -/
  maxBytes : ℤ := 8 * 1024 * 1024
  maxPartLen : ℕ := 64 * 1024

structure Reassembler extends ReassemblerOptions where
  /-- Sender to message id to partial. -/
  bySender : OrderedMap String (OrderedMap String Partial)
  /-- Recently completed messages. -/
  done : OrderedMap String ℤ
  bytes : ℤ

namespace Reassembler

def new (opts : ReassemblerOptions) : Reassembler := ⟨opts, ∅, ∅, 0⟩

variable (r : Reassembler)

/-- `this.bySender.get(sender)?.get(id)`. -/
def partial? (sender id : String) : Option Partial := (r.bySender.get? sender).bind (fun m => m.get? id)

/-- The sender's map, the empty one when it has none. -/
def ensure (sender : String) : OrderedMap String Partial := (r.bySender.get? sender).getD ∅

def drop (sender id : String) (p : Partial) : Reassembler :=
  let msgs := (r.ensure sender).delete id
  { r with
    bytes := r.bytes - p.bytes
    bySender := if msgs.size = 0 then r.bySender.delete sender else r.bySender.set sender msgs }

def forget (sender id : String) : Reassembler :=
  match r.partial? sender id with
  | none => r
  | some p => r.drop sender id p

/-- The first of the entries that are oldest. -/
def oldest {α : Type} (entries : List (α × Partial)) : Option α :=
  (entries.foldl (fun best e =>
    match best with
    | none => some e
    | some b => if e.2.at < b.2.at then some e else some b) none).map Prod.fst

def evictOldestOf (sender : String) : Reassembler :=
  match oldest (r.ensure sender).entries with
  | none => r
  | some id => r.forget sender id

/-- All partials, under sender and id. -/
def pending : List ((String × String) × Partial) :=
  r.bySender.entries.flatMap (fun e => e.2.entries.map (fun q => ((e.1, q.1), q.2)))

/-- Whether there was one to evict. -/
def evictOldest : Reassembler × Bool :=
  match oldest r.pending with
  | none => (r, false)
  | some (sender, id) => (r.forget sender id, true)

/-- Shed the oldest partials until back under the cap; each turn takes one away. -/
def shed : ℕ → Reassembler → Reassembler
  | 0, r => r
  | n + 1, r => if r.maxBytes < r.bytes ∧ r.evictOldest.2 then shed n r.evictOldest.1 else r

/-- Drop partials that have gone quiet, and completed messages that are old or too many. -/
def sweep (now : ℤ) : Reassembler :=
  let quiet := r.bySender.entries.foldl (fun r e =>
    let r := e.2.entries.foldl (fun r q => if r.ttlMs < now - q.2.at then r.drop e.1 q.1 q.2 else r) r
    if (r.ensure e.1).size = 0 then { r with bySender := r.bySender.delete e.1 } else r) r
  let done := r.done.filter (fun _ «at» => decide (now - «at» ≤ r.ttlMs))
  { quiet with
    done := (done.keys.take (done.size - 4096)).foldl (fun m k => m.delete k) done }

/-- The same id with another part count is corrupt or malicious: drop what there was. -/
def reshaped (sender id : String) (total : ℕ) : Reassembler :=
  match r.partial? sender id with
  | some p => if p.total ≠ total then r.forget sender id else r
  | none => r

/-- The partial of a message, a new one when there is none; the cap is on the sender. -/
def opened (sender id : String) (total : ℕ) (now : ℤ) : Reassembler × Partial :=
  match r.partial? sender id with
  | some p => (r, p)
  | none =>
    (if r.maxPartialPerSender ≤ (r.ensure sender).size then r.evictOldestOf sender else r,
      ⟨total, List.replicate total none, 0, 0, now⟩)

/-- Store a partial that has grown by some bytes. -/
def put (sender id : String) (p : Partial) (grown : ℕ) : Reassembler :=
  { r with
    bySender := r.bySender.set sender ((r.ensure sender).set id p)
    bytes := r.bytes + grown }

/-- Give a message out when it is whole, and remember that it was. -/
def complete (sender id : String) (p : Partial) (now : ℤ) : Reassembler × Option (List Char) :=
  -- an eviction may have dropped this very message
  if (r.partial? sender id).isNone then (r, none)
  else if p.have ≠ p.total then (r, none)
  else
    let r := r.forget sender id
    ({ r with done := r.done.set s!"{sender}|{id}" now },
      some (joinPayload (p.parts.map (fun part => part.getD []))))

/-- The tail of `accept`: the chunk is well formed and the message not completed yet. -/
def receive (sender id : String) (index total : ℕ) (part : List Char) (now : ℤ) :
    Reassembler × Option (List Char) :=
  let (r, p) := (r.reshaped sender id total).opened sender id total now
  let filled := p.fill index part now
  let r := r.put sender id filled (if p.lacks index then utf16Length part else 0)
  (shed r.pending.length r).complete sender id filled now

/-- Accept one chunk: the reassembled payload when it completed the message. The numbers are the
integers among those of the source, `none` for any other. -/
def accept (sender id : String) (index total : Option ℤ) (part : List Char) (now : ℤ) :
    Reassembler × Option (List Char) :=
  match index, total with
  | some index, some total =>
    if total < 1 ∨ maxParts < total then (r, none)
    else if index < 0 ∨ total ≤ index then (r, none)
    else if r.maxPartLen < utf16Length part then (r, none)
    else
      let r := r.sweep now
      if r.done.has s!"{sender}|{id}" then (r, none)
      else r.receive sender id index.toNat total.toNat part now
  | _, _ => (r, none)

end Reassembler

end Gavl
