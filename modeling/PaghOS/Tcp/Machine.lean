import PaghOS.Tcp.Sock

namespace PaghOS.Tcp
open Loop Serial

/-- A segment that starts at `rcvNxt`. The flag says that the caller still owes
the peer an ACK. -/
def TcpSock.acceptInOrder (s : TcpSock) (body : List UInt8) (fin : Bool) (now : Nat) :
    Option (TcpSock × Bool) := do
  let rcv := s.rcvNxt
  let space ← usub s.rxCap s.rx.length
  let n := min space body.length
  let s := { s with rx := s.rx ++ body.take n, rcvNxt := rcv+UInt32.ofNat n }
  let s :=
    if fin then
      { s with peerFinSeq := some (rcv+UInt32.ofNat body.length), peerFinSeen := true }
    else s
  let s := { s with unackedSegs := s.unackedSegs+1 }
  if s.unackedSegs ≥ ackEveryN then
    let s := { s with unackedSegs := 0, lastAckTick := now }
    let s ← s.emitAck s.ackOptionsWithSack
    some (s,false)
  else some (s,true)

def TcpSock.storeOoo (s : TcpSock) (seq : UInt32) (body : List UInt8) : TcpSock :=
  let off := (seq-s.rcvNxt).toNat
  let buffered := s.rxCap-s.rx.length+s.ooo.foldr (fun e n => e.2.length+n) 0
  if off < max buffered 1 ∧ s.ooo.length < oooCap ∧ !s.ooo.any (fun e => e.1 == seq) then
    { s with ooo := s.ooo ++ [(seq,body)] }
  else s

def TcpSock.acceptStream (s : TcpSock) (seq : UInt32) (body : List UInt8) (fin : Bool)
    (now : Nat) : Option (TcpSock × Bool) := do
  if !s.state.isDataState then some (s,false)
  else if seq = s.rcvNxt then s.acceptInOrder body fin now
  else if seqLt s.rcvNxt seq then
    let s := s.storeOoo seq body
    let s ← s.emitAck s.ackOptionsWithSack
    some (s,false)
  else
    let rel := (s.rcvNxt-seq).toNat
    if rel < body.length then s.acceptInOrder (body.drop rel) fin now
    else
      let s ← s.emitAck s.ackOptionsWithSack
      some (s,false)

def TcpSock.consumeFin (s : TcpSock) (now : Nat) : TcpSock × Bool :=
  match s.peerFinSeq with
  | some fpos =>
    if s.rcvNxt = fpos then
      let s := { s with rcvNxt := fpos+1 }
      match s.state with
      | .established | .synRcvd => ({ s with state := .closeWait },true)
      | .finWait1 => ({ s with state := .closing },true)
      | .finWait2 =>
        ({ s with state := .timeWait, timewaitDeadline := some (now+timeWaitTicks) },true)
      | _ => (s,true)
    else (s,false)
  | none => (s,false)

/-- `Vec::swap_remove`: the last element takes the place of the removed one. -/
def swapRemove {α : Type} (xs : List α) (i : Nat) : List α :=
  match xs.getLast? with
  | some last => (xs.set i last).dropLast
  | none => []

def TcpSock.promoteOoo (s : TcpSock) : Option (TcpSock × Bool) := do
  match s.ooo.findIdx? (fun e => e.1 == s.rcvNxt) with
  | some pos =>
    let (_,data) ← s.ooo[pos]?
    let s := { s with ooo := swapRemove s.ooo pos }
    let space ← usub s.rxCap s.rx.length
    let n := min space data.length
    some ({ s with rx := s.rx ++ data.take n, rcvNxt := s.rcvNxt+UInt32.ofNat n },true)
  | none => some (s,false)

/-- `loop` until a round makes no progress. A round takes a buffered segment,
or it is the one that takes the FIN and the next one stops; so `ooo.len()+2`
rounds are enough. -/
def TcpSock.consumeLoop (now : Nat) : (rounds : Nat) → TcpSock → Option TcpSock
  | 0, s => some s
  | rounds+1, s => do
    let (s,p₁) := s.consumeFin now
    let (s,p₂) ← s.promoteOoo
    if p₁ || p₂ then TcpSock.consumeLoop now rounds s else some s

def TcpSock.consumeFinAndOoo (s : TcpSock) (now : Nat) : Option TcpSock :=
  TcpSock.consumeLoop now (s.ooo.length+2) s

def TcpSock.establishedInput (s : TcpSock) (hdr : TcpHeader) (body : List UInt8) (now : Nat) :
    Option TcpSock := do
  let s ← (if hdr.has tcpAck then s.processAck hdr now else some s)
  let (s,owed) ←
    (if !body.isEmpty || hdr.has tcpFin then s.acceptStream hdr.seq body (hdr.has tcpFin) now
     else some (s,false))
  let s ← s.consumeFinAndOoo now
  if s.state.isDataState && owed then s.emitAck s.ackOptionsWithSack else some s

def TcpSock.synsentInput (s : TcpSock) (hdr : TcpHeader) (body : List UInt8) (now : Nat) :
    Option TcpSock := do
  if hdr.has tcpSyn && hdr.has tcpAck then
    if hdr.ack ≠ s.iss+1 then some s
    else
      let s := { s with
        irs := hdr.seq
        rcvNxt := hdr.seq+1
        sndUna := hdr.ack
        sndNxt := hdr.ack
        peerMss := hdr.mss.getD defaultPeerMss
        sackOk := s.offeredSack && hdr.sackPermitted }
      let s := match hdr.wscale with
        | some w => { s with sndScale := min w 14 }
        | none => { s with sndScale := 0, rcvScale := 0 }
      let s := { s with
        everEstablished := true, state := .established, rtoDeadline := none, retries := 0 }
      let s ← s.emitAck []
      if !body.isEmpty then s.establishedInput hdr body now else some s
  else if hdr.has tcpSyn then
    some { s with
      irs := hdr.seq, rcvNxt := hdr.seq+1, state := .synRcvd, ctrlNeedsSend := true }
  else some s

def TcpSock.synrcvdInput (s : TcpSock) (hdr : TcpHeader) (body : List UInt8) (now : Nat) :
    Option TcpSock :=
  if hdr.has tcpAck && seqLe s.sndUna hdr.ack && seqLe hdr.ack s.sndNxt then
    let s := { s with
      everEstablished := true, state := .established, rtoDeadline := none, retries := 0 }
    if !body.isEmpty then s.establishedInput hdr body now else some s
  else some s

/-- A reset is honoured when it acknowledges our SYN or falls into the window. -/
def TcpSock.rstAcceptable (s : TcpSock) (hdr : TcpHeader) : Option Bool := do
  if s.state = .synSent then some (hdr.ack == s.iss+1)
  else
    let wnd := (← s.rcvWndField).toUInt32 <<< s.rcvScale.toUInt32
    some (!seqLt hdr.seq (s.rcvNxt-wnd) && seqLt hdr.seq (s.rcvNxt+wnd))

def TcpSock.connectedInput (s : TcpSock) (hdr : TcpHeader) (body : List UInt8) (now : Nat) :
    Option TcpSock := do
  if hdr.has tcpRst then
    if ← s.rstAcceptable hdr then
      some { s with refused := s.refused || !s.everEstablished, state := .closed }
    else some s
  else
    match s.state with
    | .synSent => s.synsentInput hdr body now
    | .synRcvd => s.synrcvdInput hdr body now
    | _ => s.establishedInput hdr body now

def TcpSock.emitCtrl (s : TcpSock) : Option TcpSock :=
  if s.state = .synSent then s.emit s.iss 0 tcpSyn (ctrlOptions s.rcvScale) []
  else s.emit s.iss s.rcvNxt (tcpSyn ||| tcpAck) (ctrlOptions s.rcvScale) []

/-- Bare FIN, first hole or persist probe, whichever the state calls for. -/
def TcpSock.resend (s : TcpSock) : Option TcpSock := do
  if s.outstandingData = 0 ∧ s.finPending then
    let finAt ← s.finSeq
    s.emit finAt s.rcvNxt (tcpAck ||| tcpFin) [] []
  else if s.outstandingData > 0 then
    match s.firstHole with
    | some off =>
      let n := min s.effectiveMss (← usub s.tx.length off)
      s.emit (s.sndUna+UInt32.ofNat off) s.rcvNxt (tcpAck ||| tcpPsh) [] ((s.tx.drop off).take n)
    | none => some s
  else if s.sndWnd = 0 then
    match s.tx with
    | b :: _ => s.emit s.sndUna s.rcvNxt tcpAck [] [b]
    | [] => some s
  else some s

def TcpSock.timerExpired (s : TcpSock) (now : Nat) : Option TcpSock :=
  let s := { s with
    retries := s.retries+1
    rtoMs := min (satMul s.rtoMs 2) rtoMaxMs
    timingEnd := none
    timingStart := none
    ssthresh := s.halvedSsthresh
    cwnd := UInt32.ofNat s.effectiveMss }
  if s.state = .synSent ∨ s.state = .synRcvd then
    if s.retries > connectMaxRetries then some { s with refused := true, state := .closed }
    else (s.armRto now).emitCtrl
  else if s.retries > dataMaxRetries then some { s with state := .closed }
  else
    let s := s.armRto now
    if s.state.isDataState then s.resend else some s

def TcpSock.timerStep (s : TcpSock) (now : Nat) : Option TcpSock :=
  match s.rtoDeadline with
  | some d => if now ≥ d then s.timerExpired now else some s
  | none => some s

def TcpSock.tailGuard (s : TcpSock) (now : Nat) : Option TcpSock := do
  if s.unackedSegs > 0 ∧ now ≥ s.lastAckTick+tailAckDelayTicks then
    let s ← s.emitAck []
    some { s with unackedSegs := 0, lastAckTick := now }
  else some s

def TcpSock.windowUpdate (s : TcpSock) (now : Nat) : Option TcpSock := do
  if s.wndUpdatePending && s.state.isDataState then
    let s ← s.emitAck []
    let free ← usub s.rxCap s.rx.length
    some { s with
      wndUpdatePending := false, lastAdvFree := free, unackedSegs := 0, lastAckTick := now }
  else some s

def TcpSock.nextTake (s : TcpSock) : Option Nat := do
  let allowed := (min s.sndWnd s.cwnd).toNat
  if s.outstandingData ≥ allowed then some 0
  else
    let unsent := s.tx.length-s.outstandingData
    if unsent = 0 then some 0
    else some (min s.effectiveMss (min (← usub allowed s.outstandingData) unsent))

def TcpSock.sendData (s : TcpSock) (take now : Nat) : Option TcpSock := do
  let nxt := s.sndNxt
  let payload := (s.tx.drop s.outstandingData).take take
  let s :=
    if s.timingEnd.isNone then
      { s with timingEnd := some (nxt+UInt32.ofNat take), timingStart := some now }
    else s
  let s ← s.emit nxt s.rcvNxt (tcpAck ||| tcpPsh) [] payload
  some (TcpSock.armRtoIfNone { s with sndNxt := nxt+UInt32.ofNat take } now)

/-- The transmit `loop`. Every round takes at least one unsent byte, so that
`tx.len()` rounds are enough. -/
def TcpSock.sendLoop (now : Nat) : (rounds : Nat) → TcpSock → Option TcpSock
  | 0, s => some s
  | rounds+1, s => do
    let take ← s.nextTake
    if take = 0 then some s
    else
      let s ← s.sendData take now
      TcpSock.sendLoop now rounds s

def State.afterFin : State → State
  | .established => .finWait1
  | .closeWait => .lastAck
  | s => s

def TcpSock.sendFin (s : TcpSock) (now : Nat) : Option TcpSock := do
  if s.closeRequested ∧ s.finSeq.isNone ∧ s.outstandingData = s.tx.length then
    let seq := s.sndNxt
    let s ← s.emit seq s.rcvNxt (tcpAck ||| tcpFin) [] []
    let s := { s with finSeq := some seq, sndNxt := seq+1, state := s.state.afterFin }
    some (s.armRtoIfNone now)
  else some s

def TcpSock.stepSock (s : TcpSock) (now : Nat) : Option TcpSock := do
  let s ← s.timerStep now
  let s ← s.tailGuard now
  let s ← s.windowUpdate now
  match s.state with
  | .synSent | .synRcvd =>
    if s.ctrlNeedsSend then
      let s ← s.emitCtrl
      some (TcpSock.armRtoIfNone { s with ctrlNeedsSend := false } now)
    else some s
  | .established | .closeWait | .finWait1 | .lastAck | .closing =>
    let s ← TcpSock.sendLoop now s.tx.length s
    s.sendFin now
  | _ => some s

def TcpSock.expireTimeWait (s : TcpSock) (now : Nat) : TcpSock :=
  if s.state = .timeWait then
    match s.timewaitDeadline with
    | some d => if now ≥ d then { s with state := .closed } else s
    | none => { s with timewaitDeadline := some (now+timeWaitTicks) }
  else s

inductive Event where
  | send (data : List UInt8)
  | recv (len : Nat)
  | close
  | poll (now : Nat)
  | input (hdr : TcpHeader) (body : List UInt8) (now : Nat)
  deriving DecidableEq

def TcpSock.newChild (irs iss : UInt32) : TcpSock :=
  { TcpSock.newActive 4096 4096 iss with
    state := .synRcvd
    irs := irs
    rcvNxt := irs+1
    sndUna := iss
    sndNxt := iss+1 }

/-- A listener answers a bare SYN with a child and a SYN-ACK, and nothing else.
The backlog is left to the table. -/
def listenerInput (hdr : TcpHeader) (body : List UInt8) (iss : UInt32) :
    Option (Option TcpSock) := do
  if !hdr.has tcpSyn || hdr.has tcpAck || !body.isEmpty then some none
  else
    let s := TcpSock.newChild hdr.seq iss
    let s := { s with
      peerMss := hdr.mss.getD defaultPeerMss
      sackOk := s.offeredSack && hdr.sackPermitted }
    let s := match hdr.wscale with
      | some w => { s with sndScale := min w 14, rcvScale := offerScale 4096 }
      | none => s
    let s ← s.emit s.iss (hdr.seq+1) (tcpSyn ||| tcpAck) (ctrlOptions s.rcvScale) []
    some (some s)

/-- A connection with its slot of the table. `sent` is every byte `send_slice`
accepted, `received` every byte `recv_slice` returned and `out` of the socket
what the last event emitted; nothing in the stack reads them. -/
structure Conn where
  sock : TcpSock
  reaped : Bool
  sent : List UInt8
  received : List UInt8
  deriving DecidableEq

def Conn.open (rxCap txCap : Nat) (iss : UInt32) : Conn :=
  ⟨TcpSock.newActive rxCap txCap iss,false,[],[]⟩

def Conn.step (c : Conn) (e : Event) : Option Conn := do
  let s := { c.sock with out := [] }
  if c.reaped then some { c with sock := s }
  else
    match e with
    | .send data =>
      let (s,n) ← s.sendSlice data
      some { c with sock := s, sent := c.sent ++ data.take n }
    | .recv len =>
      let (s,got) ← s.recvSlice len
      some { c with sock := s, received := c.received ++ got }
    | .close => some { c with sock := s.close }
    | .poll now =>
      let s ← s.stepSock now
      let s := s.expireTimeWait now
      some { c with sock := s, reaped := s.state = .closed }
    | .input hdr body now =>
      let s ← s.connectedInput hdr body now
      some { c with sock := s }

end PaghOS.Tcp
