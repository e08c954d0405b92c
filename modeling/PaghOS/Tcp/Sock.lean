import Mathlib.Data.List.Sort
import PaghOS.Lib.Loop
import PaghOS.Lib.Serial

/-!
One connection of `src/net/tcp.rs`. Unsigned subtractions of the source are
partial (`none` is a panic), sequence numbers wrap. `out` collects what is
handed to the IP layer; addresses and ports are fixed per connection and left
to the table.
-/

namespace PaghOS.Tcp
open Loop Serial

def ackEveryN : UInt8 := 2
def tailAckDelayTicks : Nat := 16
def mss : Nat := 1460
def defaultPeerMss : UInt16 := 536
def rtoInitMs : UInt32 := 300
def rtoMaxMs : UInt32 := 30000
def connectMaxRetries : Nat := 5
def dataMaxRetries : Nat := 15
def timeWaitTicks : Nat := 2000
def iwBytes : UInt32 := 4*1460
def oooCap : Nat := 16

def tcpFin : UInt8 := 1
def tcpSyn : UInt8 := 2
def tcpRst : UInt8 := 4
def tcpPsh : UInt8 := 8
def tcpAck : UInt8 := 16

inductive State where
  | closed | listen | synSent | synRcvd | established | finWait1 | finWait2
  | closeWait | lastAck | closing | timeWait
  deriving DecidableEq

def State.isDataState : State → Bool
  | .established | .finWait1 | .finWait2 | .closeWait => true
  | _ => false

structure TcpHeader where
  seq : UInt32
  ack : UInt32
  flags : UInt8
  window : UInt16
  mss : Option UInt16
  wscale : Option UInt8
  sackPermitted : Bool
  sackBlocks : List (UInt32 × UInt32)
  deriving DecidableEq

def TcpHeader.has (hdr : TcpHeader) (flag : UInt8) : Bool := hdr.flags &&& flag != 0

structure Segment where
  seq : UInt32
  ack : UInt32
  flags : UInt8
  wnd : UInt16
  opts : List UInt8
  payload : List UInt8
  deriving DecidableEq

structure TcpSock where
  state : State
  iss : UInt32
  sndUna : UInt32
  sndNxt : UInt32
  sndWnd : UInt32
  sndScale : UInt8
  ctrlNeedsSend : Bool
  closeRequested : Bool
  finSeq : Option UInt32
  irs : UInt32
  rcvNxt : UInt32
  rcvScale : UInt8
  peerMss : UInt16
  peerFinSeq : Option UInt32
  peerFinSeen : Bool
  tx : List UInt8
  rx : List UInt8
  txCap : Nat
  rxCap : Nat
  ooo : List (UInt32 × List UInt8)
  everEstablished : Bool
  unackedSegs : UInt8
  lastAckTick : Nat
  lastAdvFree : Nat
  wndUpdatePending : Bool
  refused : Bool
  sackOk : Bool
  offeredSack : Bool
  sacked : List (UInt32 × UInt32)
  cwnd : UInt32
  ssthresh : UInt32
  dupAcks : UInt8
  rtoMs : UInt32
  rtoDeadline : Option Nat
  retries : Nat
  rttSrttMs : Option UInt32
  rttVarMs : UInt32
  timingEnd : Option UInt32
  timingStart : Option Nat
  timewaitDeadline : Option Nat
  out : List Segment
  deriving DecidableEq

def satAdd (a b : UInt32) : UInt32 := UInt32.ofNat (min (a.toNat+b.toNat) 0xFFFFFFFF)

def satMul (a b : UInt32) : UInt32 := UInt32.ofNat (min (a.toNat*b.toNat) 0xFFFFFFFF)

def offerScaleFrom : (room cap : Nat) → UInt8 → UInt8
  | 0, _, s => s
  | room+1, cap, s => if cap > 255 then offerScaleFrom room (cap >>> 1) (s+1) else s

def offerScale (rxCap : Nat) : UInt8 := offerScaleFrom 14 (rxCap >>> 8) 0

def TcpSock.newActive (rxCap txCap : Nat) (iss : UInt32) : TcpSock where
  state := .synSent
  iss := iss
  sndUna := iss
  sndNxt := iss+1
  sndWnd := 4096
  sndScale := 0
  ctrlNeedsSend := true
  closeRequested := false
  finSeq := none
  irs := 0
  rcvNxt := 0
  rcvScale := offerScale rxCap
  peerMss := defaultPeerMss
  peerFinSeq := none
  peerFinSeen := false
  tx := []
  rx := []
  txCap := txCap
  rxCap := rxCap
  ooo := []
  everEstablished := false
  unackedSegs := 0
  lastAckTick := 0
  lastAdvFree := 0
  wndUpdatePending := false
  refused := false
  sackOk := false
  offeredSack := true
  sacked := []
  cwnd := iwBytes
  ssthresh := 65535
  dupAcks := 0
  rtoMs := rtoInitMs
  rtoDeadline := none
  retries := 0
  rttSrttMs := none
  rttVarMs := 0
  timingEnd := none
  timingStart := none
  timewaitDeadline := none
  out := []

def TcpSock.maySend (s : TcpSock) : Bool :=
  match s.state with
  | .synRcvd | .established | .finWait1 | .finWait2 | .closeWait | .lastAck | .closing => true
  | _ => false

def TcpSock.canSend (s : TcpSock) : Bool := s.maySend && s.tx.length < s.txCap

def TcpSock.sendSlice (s : TcpSock) (data : List UInt8) : Option (TcpSock × Nat) := do
  if !s.canSend then some (s,0)
  else
    let room ← usub s.txCap s.tx.length
    let n := min room data.length
    some ({ s with tx := s.tx ++ data.take n },n)

def TcpSock.recvSlice (s : TcpSock) (len : Nat) : Option (TcpSock × List UInt8) := do
  let n := min len s.rx.length
  let got := s.rx.take n
  let s := { s with rx := s.rx.drop n }
  if n > 0 ∧ s.wndUpdatePending = false then
    let free ← usub s.rxCap s.rx.length
    if free-s.lastAdvFree ≥ s.rxCap/4 then some ({ s with wndUpdatePending := true },got)
    else some (s,got)
  else some (s,got)

def TcpSock.eofVisible (s : TcpSock) : Bool := s.peerFinSeen && s.rx.isEmpty

def TcpSock.close (s : TcpSock) : TcpSock :=
  if s.state = .closed ∨ s.finSeq.isSome then s else { s with closeRequested := true }

def TcpSock.finPending (s : TcpSock) : Bool :=
  match s.finSeq with
  | some f => seqLe s.sndUna f
  | none => false

def TcpSock.outstandingData (s : TcpSock) : Nat :=
  let raw := (s.sndNxt-s.sndUna).toNat
  if s.finPending then raw-1 else raw

def TcpSock.rcvWndField (s : TcpSock) : Option UInt16 := do
  let free ← usub s.rxCap s.rx.length
  if s.rcvScale > 0 then
    some (UInt16.ofNat (min ((free >>> s.rcvScale.toNat)%4294967296) 65535))
  else some (UInt16.ofNat (min free 65535))

def TcpSock.effectiveMss (s : TcpSock) : Nat := min mss s.peerMss.toNat

def TcpSock.clipBlock (s : TcpSock) (b : UInt32 × UInt32) : Option (UInt32 × UInt32) :=
  let (l,r) := b
  if seqLe r s.sndUna || seqLt s.sndNxt l then none
  else some (if seqLt l s.sndUna then s.sndUna else l,if seqLt s.sndNxt r then s.sndNxt else r)

def mergeRange (merged : List (UInt32 × UInt32)) (b : UInt32 × UInt32) :
    List (UInt32 × UInt32) :=
  match merged with
  | (l,r) :: rest =>
    if !seqGt b.1 r then (l,if seqGt b.2 r then b.2 else r) :: rest else b :: merged
  | [] => [b]

def normalizeRanges (ranges : List (UInt32 × UInt32)) : List (UInt32 × UInt32) :=
  ((ranges.insertionSort (fun a b => a.1 ≤ b.1)).foldl mergeRange []).reverse

def TcpSock.pruneSacked (s : TcpSock) : TcpSock :=
  let above := s.sacked.filter (fun b => seqGt b.2 s.sndUna)
  let clip := fun b : UInt32 × UInt32 => (if seqLt b.1 s.sndUna then s.sndUna else b.1,b.2)
  { s with sacked := above.map clip }

def TcpSock.noteSacked (s : TcpSock) (blocks : List (UInt32 × UInt32)) : TcpSock :=
  let fresh := blocks.filterMap s.clipBlock
  let sacked := s.sacked ++ fresh
  TcpSock.pruneSacked { s with sacked := if fresh = [] then sacked else normalizeRanges sacked }

/-- The walk of `first_hole` over the recorded ranges: the offset of a gap in
front of one of them, or how far they reach. -/
def holeWalk (una : UInt32) (total : Nat) : Nat → List (UInt32 × UInt32) → Option Nat
  | off, [] => if off < total then some off else none
  | off, (l,r) :: rest =>
    if (l-una).toNat > off then some (min off total)
    else holeWalk una total (max (r-una).toNat off) rest

def TcpSock.firstHole (s : TcpSock) : Option Nat :=
  holeWalk s.sndUna s.outstandingData 0 s.sacked

def TcpSock.output (s : TcpSock) (free : Nat) (g : Segment) : TcpSock :=
  { s with lastAdvFree := free, out := s.out ++ [g] }

def TcpSock.emit (s : TcpSock) (seq ack : UInt32) (flags : UInt8) (opts payload : List UInt8) :
    Option TcpSock := do
  let wnd ← s.rcvWndField
  let free ← usub s.rxCap s.rx.length
  some (s.output free ⟨seq,ack,flags,wnd,opts,payload⟩)

def ctrlOptions (scale : UInt8) : List UInt8 :=
  let o := [2,4,5,180] ++ (if scale > 0 then [1,3,3,scale] else []) ++ [4,2]
  o ++ List.replicate ((4-o.length%4)%4) 1

def beBytes (v : UInt32) : List UInt8 :=
  [(v >>> 24).toUInt8,(v >>> 16).toUInt8,(v >>> 8).toUInt8,v.toUInt8]

def sackOption (blocks : List (UInt32 × UInt32)) : List UInt8 :=
  let n := min blocks.length 4
  if n = 0 then []
  else [1,1,5,UInt8.ofNat (2+8*n)] ++
    (blocks.take n).flatMap (fun b => beBytes b.1 ++ beBytes b.2)

def mergeEdge (merged : List (UInt32 × UInt32)) (b : UInt32 × UInt32) :
    List (UInt32 × UInt32) :=
  match merged with
  | (l,r) :: rest => if b.1 ≤ r then (l,max r b.2) :: rest else b :: merged
  | [] => [b]

def TcpSock.ackOptionsWithSack (s : TcpSock) : List UInt8 :=
  if !s.sackOk || s.ooo.isEmpty then []
  else
    let edges := s.ooo.map (fun e => (e.1,e.1+UInt32.ofNat e.2.length))
    sackOption ((edges.insertionSort (fun a b => a.1 ≤ b.1)).foldl mergeEdge []).reverse

def TcpSock.emitAck (s : TcpSock) (opts : List UInt8) : Option TcpSock :=
  s.emit s.sndNxt s.rcvNxt tcpAck opts []

/-- The `i32` arithmetic overflows only on a sample of 24 days and more; it wraps here,
as in a release build. -/
def TcpSock.rttSample (s : TcpSock) (rtt : UInt32) : TcpSock :=
  match s.rttSrttMs with
  | none => { s with rttSrttMs := some (max rtt 1), rttVarMs := rtt/2 }
  | some prev =>
    let err := rtt.toInt32-prev.toInt32
    let var := s.rttVarMs.toInt32
    { s with
      rttVarMs := (max (var+(err.abs-var)/4) 1).toUInt32
      rttSrttMs := some (max (prev.toInt32+err/8) 1).toUInt32 }

def TcpSock.takeRtt (s : TcpSock) (ack : UInt32) (now : Nat) : TcpSock :=
  match s.timingEnd,s.timingStart with
  | some fin,some t0 =>
    if !seqLt ack fin then
      { s.rttSample (UInt32.ofNat (min (now-t0) 0xFFFFFFFF)) with
        timingEnd := none, timingStart := none }
    else s
  | _,_ => s

def TcpSock.growCwnd (s : TcpSock) : TcpSock :=
  let m := UInt32.ofNat s.effectiveMss
  if s.outstandingData > 0 then
    if s.cwnd < s.ssthresh then { s with cwnd := satAdd s.cwnd m }
    else { s with cwnd := satAdd s.cwnd (max (m*m/max s.cwnd 1) 1) }
  else s

def TcpSock.armRto (s : TcpSock) (now : Nat) : TcpSock :=
  { s with rtoDeadline := some (now+s.rtoMs.toNat) }

def TcpSock.armRtoIfNone (s : TcpSock) (now : Nat) : TcpSock :=
  if s.rtoDeadline.isNone then s.armRto now else s

def TcpSock.slide (s : TcpSock) (ack : UInt32) : TcpSock :=
  let advanced := (ack-s.sndUna).toNat
  { s with tx := s.tx.drop (min advanced s.tx.length), sndUna := ack }

def TcpSock.ackAdvance (s : TcpSock) (hdr : TcpHeader) (now : Nat) : TcpSock :=
  let s := ((s.slide hdr.ack).takeRtt hdr.ack now).growCwnd
  let s := { s with rtoDeadline := none, retries := 0, dupAcks := 0 }
  let s := if s.outstandingData > 0 then s.armRto now else s
  let s := { s with sndWnd := hdr.window.toUInt32 <<< s.sndScale.toUInt32 }
  if hdr.sackBlocks.length > 0 then s.noteSacked hdr.sackBlocks else s.pruneSacked

def TcpSock.halvedSsthresh (s : TcpSock) : UInt32 :=
  max (s.cwnd/2) (2*UInt32.ofNat s.effectiveMss)

def TcpSock.fastRetransmit (s : TcpSock) (n now : Nat) : Option TcpSock :=
  let payload := s.tx.take n
  let s := { s with ssthresh := s.halvedSsthresh, cwnd := s.halvedSsthresh, dupAcks := 0 }
  (s.armRto now).emit s.sndUna s.rcvNxt (tcpAck ||| tcpPsh) [] payload

def TcpSock.finAcked (s : TcpSock) (ack : UInt32) (now : Nat) : TcpSock :=
  let covered := match s.finSeq with
    | some f => seqGt ack f
    | none => false
  if covered then
    match s.state with
    | .finWait1 => { s with state := .finWait2 }
    | .closing => { s with state := .timeWait, timewaitDeadline := some (now+timeWaitTicks) }
    | .lastAck => { s with state := .closed }
    | _ => s
  else s

def TcpSock.processAck (s : TcpSock) (hdr : TcpHeader) (now : Nat) : Option TcpSock :=
  if seqLt s.sndUna hdr.ack && seqLe hdr.ack s.sndNxt then
    some ((s.ackAdvance hdr now).finAcked hdr.ack now)
  else if hdr.ack = s.sndUna ∧ hdr.flags &&& (tcpSyn ||| tcpFin) = 0 ∧
      s.outstandingData > 0 then
    let dup := if s.dupAcks = 255 then 255 else s.dupAcks+1
    if dup = 3 then
      let n := min (min s.effectiveMss s.tx.length) 65535
      if n > 0 then s.fastRetransmit n now
      else some (TcpSock.finAcked { s with dupAcks := 0 } hdr.ack now)
    else some (TcpSock.finAcked { s with dupAcks := dup } hdr.ack now)
  else
    let s := { s with sndWnd := hdr.window.toUInt32 <<< s.sndScale.toUInt32 }
    let s := if hdr.sackBlocks.length > 0 then s.noteSacked hdr.sackBlocks else s
    some (s.finAcked hdr.ack now)

end PaghOS.Tcp
