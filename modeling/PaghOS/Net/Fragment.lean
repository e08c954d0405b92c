import Mathlib.Data.List.Sort
import PaghOS.Net.Wire

/-!
IPv4 datagrams cut into fragments and put together again (`net/ip.rs`): the
packets `output_v4` sends, and `input_v4` with the reassembly buffers, behind
its check that the packet is for this host.
-/

namespace PaghOS.Net

def fragUnit : Nat := 8
def reasmCap : Nat := 4
def reasmTtlTicks : Nat := 10000
def reasmTotalCap : Nat := 131072

def ipv4FlagMf : Nat := 0x2000
def ipv4OffsetMask : Nat := 0x1FFF

structure Chunk where
  offset : Nat
  data : List UInt8
  deriving DecidableEq

/-- The loop of `fragment_chunks`; it ends when every round takes a byte. -/
def chunkLoop (payload : List UInt8) (unit : Nat) : Nat → Nat → List Chunk
  | 0, _ => []
  | fuel+1, off =>
    if off < payload.length then
      let stop := min (off+unit) payload.length
      ⟨off,(payload.drop off).take (stop-off)⟩ :: chunkLoop payload unit fuel stop
    else []

def fragmentChunks (payload : List UInt8) (maxPayload : Nat) : List Chunk :=
  if payload.length ≤ maxPayload then [⟨0,payload⟩]
  else chunkLoop payload (maxPayload-maxPayload%fragUnit) payload.length 0

structure Datagram where
  src : Ipv4Addr
  dst : Ipv4Addr
  proto : UInt8
  id : UInt16
  payload : List UInt8
  deriving DecidableEq

def flagsFrag (offset : Nat) (more : Bool) : Nat :=
  (offset/fragUnit%65536 &&& ipv4OffsetMask) ||| (if more then ipv4FlagMf else 0)

/-- The packets of one datagram, at most `maxPayload` bytes behind each header. -/
def Datagram.packets (maxPayload : Nat) (d : Datagram) : List (List UInt8) :=
  let fragments := fragmentChunks d.payload maxPayload
  fragments.zipIdx.map (fun c => ipv4Build d.src d.dst d.proto d.id.toNat
    (flagsFrag c.1.offset (c.2+1 < fragments.length)) 64 c.1.data)

structure FragKey where
  src : IpAddr
  dst : IpAddr
  id : Nat
  proto : UInt8
  deriving DecidableEq

structure FragBuf where
  key : FragKey
  frags : List (Nat × List UInt8)
  total : Option Nat
  seen : Nat
  deriving DecidableEq

def FragBuf.bytesHeld (b : FragBuf) : Nat := b.frags.foldr (fun f n => f.2.length+n) 0

def contiguous : Nat → List (Nat × List UInt8) → Option Nat
  | expect, [] => some expect
  | expect, f :: frags => if f.1 ≠ expect then none else contiguous (expect+f.2.length) frags

def FragBuf.sorted (b : FragBuf) : List (Nat × List UInt8) :=
  b.frags.insertionSort (fun f g => f.1 ≤ g.1)

def FragBuf.tryComplete (b : FragBuf) : Option (List UInt8) :=
  match b.total with
  | none => none
  | some total =>
    if contiguous 0 b.sorted = some total then some (b.sorted.flatMap (·.2)) else none

def FragBuf.add (now off : Nat) (more : Bool) (payload : List UInt8) (b : FragBuf) : FragBuf where
  key := b.key
  seen := now
  frags := if b.frags.any (fun f => f.1 = off) then b.frags else b.frags ++ [(off,payload)]
  total := if more then b.total else some (off+payload.length)

structure Reassembler where
  bufs : List FragBuf
  deriving DecidableEq

namespace Reassembler

def new : Reassembler := ⟨[]⟩

def onTick (r : Reassembler) (now : Nat) : Reassembler :=
  ⟨r.bufs.filter (fun b => now < b.seen+reasmTtlTicks)⟩

def heldTotal (r : Reassembler) : Nat := r.bufs.foldr (fun b n => b.bytesHeld+n) 0

def bufFor (r : Reassembler) (key : FragKey) : Option FragBuf :=
  r.bufs.find? (fun b => b.key = key)

/-- The buffers with one for `key` among them; `none` when there is no room for
another. -/
def opened (r : Reassembler) (now : Nat) (key : FragKey) : Option (List FragBuf) :=
  if (r.bufFor key).isSome then some r.bufs
  else if r.bufs.length ≥ reasmCap then none
  else some (r.bufs ++ [⟨key,[],none,now⟩])

def alterFirst (key : FragKey) (f : FragBuf → FragBuf) : List FragBuf → List FragBuf
  | [] => []
  | b :: bufs => if b.key = key then f b :: bufs else b :: alterFirst key f bufs

def feed (r : Reassembler) (now : Nat) (key : FragKey) (fragOffBytes : Nat) (more : Bool)
    (payload : List UInt8) : Reassembler × Option (List UInt8) :=
  if r.heldTotal+payload.length > reasmTotalCap then (r,none)
  else
    match r.opened now key with
    | none => (r,none)
    | some bufs =>
      let bufs := alterFirst key (FragBuf.add now fragOffBytes more payload) bufs
      match (bufFor ⟨bufs⟩ key).bind FragBuf.tryComplete with
      | some out => (⟨bufs.filter (fun b => b.key ≠ key)⟩,some out)
      | none => (⟨bufs⟩,none)

end Reassembler

structure Delivery where
  src : Ipv4Addr
  dst : Ipv4Addr
  proto : UInt8
  payload : List UInt8
  deriving DecidableEq

def Reassembler.inputV4 (r : Reassembler) (pkt : List UInt8) (now : Nat) :
    Reassembler × Option Delivery :=
  match ipv4Parse pkt with
  | none => (r,none)
  | some (h,payload) =>
    let mf : Bool := h.flagsFrag &&& ipv4FlagMf ≠ 0
    let fragOff := (h.flagsFrag &&& ipv4OffsetMask)*fragUnit
    if mf ∨ fragOff ≠ 0 then
      let fed := r.feed now ⟨.v4 h.src,.v4 h.dst,h.ident,h.proto⟩ fragOff mf payload
      (fed.1,fed.2.map (fun full => ⟨h.src,h.dst,h.proto,full⟩))
    else (r,some ⟨h.src,h.dst,h.proto,payload⟩)

end PaghOS.Net
