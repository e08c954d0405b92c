import PaghOS.Tcp.Machine

namespace PaghOS.Tcp
open Loop Serial Option TcpSock

/-- The scale is one the handshake may agree on, and the window stays below what
it can announce: `65535 << 14`. -/
def Scaled (s : TcpSock) : Prop := s.sndScale ≤ 14 ∧ s.sndWnd.toNat ≤ 1073725440

theorem announced_le (window : UInt16) {scale : UInt8} (h : scale ≤ 14) :
    (window.toUInt32 <<< scale.toUInt32).toNat ≤ 1073725440 := by
  have hw := window.toNat_lt
  have hk : scale.toNat ≤ 14 := h
  have hpow : 2^scale.toNat ≤ 2^14 := Nat.pow_le_pow_right (by decide) hk
  have hmul := Nat.mul_le_mul (show window.toNat ≤ 65535 by omega) hpow
  rw [UInt32.toNat_shiftLeft,Nat.shiftLeft_eq]
  refine (Nat.mod_le _ _).trans ?_
  simpa [Nat.mod_eq_of_lt (show scale.toNat < 32 by omega)] using hmul

/-- What one step may do without touching the send side: everything the peer
could see of the stream stays, and only bare segments without FIN go out. -/
structure Quiet (s t : TcpSock) : Prop where
  iss : t.iss = s.iss
  una : t.sndUna = s.sndUna
  nxt : t.sndNxt = s.sndNxt
  fin : t.finSeq = s.finSeq
  tx : t.tx = s.tx
  txCap : t.txCap = s.txCap
  ever : t.everEstablished = s.everEstablished
  scaled : Scaled s → Scaled t
  out : ∃ bare, t.out = s.out ++ bare ∧ ∀ g ∈ bare, g.payload = [] ∧ g.flags &&& tcpFin = 0
  room : s.rx.length ≤ s.rxCap → t.rx.length ≤ t.rxCap
  synSent : t.state = .synSent → s.state = .synSent
  synRcvd : t.state = .synRcvd → s.state = .synRcvd
  waiting : s.state = .synSent → t.state = .synSent ∨ t.state = .closed
  closed : s.state = .closed → t.state = .closed
  half : s.state = .synRcvd → t.state = .synRcvd ∨ t.state = .closed

def TcpHeader.offeredScale (hdr : TcpHeader) : UInt8 :=
  match hdr.wscale with
  | some w => min w 14
  | none => 0

theorem min_scale_le (w : UInt8) : min w 14 ≤ 14 := by
  rw [show min w 14 = if w ≤ 14 then w else 14 from rfl]
  split
  · assumption
  · exact UInt8.le_refl _

theorem offeredScale_le (hdr : TcpHeader) : hdr.offeredScale ≤ 14 := by
  unfold TcpHeader.offeredScale
  split
  · exact min_scale_le _
  · decide

def TcpSock.opened (s : TcpSock) (hdr : TcpHeader) (sndScale rcvScale : UInt8) : TcpSock :=
  { s with
    irs := hdr.seq, rcvNxt := hdr.seq+1, sndUna := hdr.ack, sndNxt := hdr.ack,
    peerMss := hdr.mss.getD defaultPeerMss, sackOk := s.offeredSack && hdr.sackPermitted,
    sndScale := sndScale, rcvScale := rcvScale, everEstablished := true,
    state := .established, rtoDeadline := none, retries := 0 }

def TcpSock.met (s : TcpSock) (hdr : TcpHeader) : TcpSock :=
  { s with irs := hdr.seq, rcvNxt := hdr.seq+1, state := .synRcvd, ctrlNeedsSend := true }

def TcpSock.joined (s : TcpSock) : TcpSock :=
  { s with everEstablished := true, state := .established, rtoDeadline := none, retries := 0 }

theorem synsentInput_eq (s : TcpSock) (hdr : TcpHeader) (body : List UInt8) (now : Nat) :
    s.synsentInput hdr body now = if hdr.has tcpSyn && hdr.has tcpAck then
        if hdr.ack ≠ s.iss+1 then some s else do
          let u ← (s.opened hdr hdr.offeredScale (if hdr.wscale.isSome then s.rcvScale else 0)).emitAck []
          if !body.isEmpty then u.establishedInput hdr body now else some u
      else if hdr.has tcpSyn then some (s.met hdr)
      else some s := by
  unfold synsentInput TcpHeader.offeredScale
  cases hdr.wscale <;> rfl

theorem Quiet.refl (s : TcpSock) : Quiet s s := by
  constructor <;> first | exact Or.inl | exact id | simp

theorem Quiet.trans {s t u : TcpSock} (h : Quiet s t) (k : Quiet t u) : Quiet s u where
  iss := k.iss.trans h.iss
  una := k.una.trans h.una
  nxt := k.nxt.trans h.nxt
  fin := k.fin.trans h.fin
  tx := k.tx.trans h.tx
  txCap := k.txCap.trans h.txCap
  ever := k.ever.trans h.ever
  scaled := fun hs => k.scaled (h.scaled hs)
  out := by
    obtain ⟨xs,hxs,hx⟩ := h.out
    obtain ⟨ys,hys,hy⟩ := k.out
    refine ⟨xs ++ ys,by simp [hxs,hys],fun g hg => ?_⟩
    rcases List.mem_append.mp hg with hg | hg
    · exact hx g hg
    · exact hy g hg
  room := fun hr => k.room (h.room hr)
  synSent := fun hs => h.synSent (k.synSent hs)
  synRcvd := fun hs => h.synRcvd (k.synRcvd hs)
  waiting := by
    intro hs
    rcases h.waiting hs with ht | ht
    · exact k.waiting ht
    · exact .inr (k.closed ht)
  closed := fun hs => k.closed (h.closed hs)
  half := by
    intro hs
    rcases h.half hs with ht | ht
    · exact k.half ht
    · exact .inr (k.closed ht)

theorem Quiet.timers (s : TcpSock) (cwnd ssthresh rtoMs rttVarMs : UInt32)
    (dupAcks : UInt8) (rtoDeadline : Option Nat) (retries : Nat) (rttSrttMs : Option UInt32)
    (timingEnd : Option UInt32) (timingStart : Option Nat) (sacked : List (UInt32 × UInt32)) :
    Quiet s { s with
      cwnd := cwnd, ssthresh := ssthresh, rtoMs := rtoMs, rttVarMs := rttVarMs,
      dupAcks := dupAcks, rtoDeadline := rtoDeadline, retries := retries,
      rttSrttMs := rttSrttMs, timingEnd := timingEnd, timingStart := timingStart,sacked := sacked } := by
  constructor <;> first | exact Or.inl | exact id | simp

theorem rcvWndField_isSome {s : TcpSock} (hroom : s.rx.length ≤ s.rxCap) :
    ∃ field, s.rcvWndField = some field := by
  simp only [rcvWndField,usub_of_le hroom,bind_eq_bind,bind_some]
  split
  · exact ⟨_,rfl⟩
  · exact ⟨_,rfl⟩

theorem emit_eq {s : TcpSock} (hroom : s.rx.length ≤ s.rxCap) (seq ack : UInt32) (flags : UInt8)
    (opts payload : List UInt8) : ∃ wnd free, s.emit seq ack flags opts payload =
      some (s.output free ⟨seq,ack,flags,wnd,opts,payload⟩) := by
  obtain ⟨wnd,hwnd⟩ := rcvWndField_isSome hroom
  exact ⟨wnd,s.rxCap-s.rx.length,by simp [emit,hwnd,usub_of_le hroom]⟩

/-- The stopwatch may start before a segment goes out. -/
theorem TcpSock.stopwatch (s : TcpSock) (n now : Nat) : ∃ e t, (if s.timingEnd.isNone then
    { s with timingEnd := some (s.sndNxt+UInt32.ofNat n), timingStart := some now } else s) =
    { s with timingEnd := e, timingStart := t } := by
  split
  · exact ⟨_,_,rfl⟩
  · exact ⟨s.timingEnd,s.timingStart,rfl⟩

theorem emit_yields {s : TcpSock} {seq ack : UInt32} {flags : UInt8} {opts payload : List UInt8}
    {P : TcpSock → Prop} (h : ∀ wnd free, P (s.output free ⟨seq,ack,flags,wnd,opts,payload⟩)) :
    Yields (s.emit seq ack flags opts payload) P :=
  Yields.bind (Yields.any _) fun wnd _ => Yields.bind (Yields.any _) fun free _ => .pure (h wnd free)

theorem emit_state (s : TcpSock) (seq ack : UInt32) (flags : UInt8) (opts payload : List UInt8) :
    Yields (s.emit seq ack flags opts payload)
      (fun t => t.state = s.state ∧ t.closeRequested = s.closeRequested) :=
  emit_yields fun _ _ => ⟨rfl,rfl⟩

theorem Quiet.window (s : TcpSock) (window : UInt16) :
    Quiet s { s with sndWnd := window.toUInt32 <<< s.sndScale.toUInt32 } := by
  constructor <;> first
    | exact Or.inl
    | exact fun h => ⟨h.1,announced_le window h.1⟩
    | simp

variable {s t : TcpSock}

theorem pruneSacked_quiet (s : TcpSock) : Quiet s s.pruneSacked :=
  Quiet.timers s _ _ _ _ _ _ _ _ _ _ _

theorem noteSacked_quiet (s : TcpSock) (blocks : List (UInt32 × UInt32)) : Quiet s (s.noteSacked blocks) :=
  (Quiet.timers s _ _ _ _ _ _ _ _ _ _ _).trans (pruneSacked_quiet _)

theorem Quiet.move (s : TcpSock) {state : State} (rcvNxt : UInt32)
    (timewaitDeadline : Option Nat) (hfrom : s.state ≠ .synSent) (hopen : s.state ≠ .closed)
    (hhalf : s.state ≠ .synRcvd) (hto : state ≠ .synSent) (hto' : state ≠ .synRcvd) : Quiet s { s with
      state := state, rcvNxt := rcvNxt, timewaitDeadline := timewaitDeadline } := by
  constructor <;> first | exact id | simp [hfrom,hopen,hhalf,hto,hto']

theorem finAcked_quiet (s : TcpSock) (ack : UInt32) (now : Nat) : Quiet s (s.finAcked ack now) := by
  unfold finAcked
  dsimp only
  repeat' split
  all_goals rename_i hs
  all_goals first
    | exact Quiet.refl s
    | exact Quiet.move s _ _ (by simp [hs]) (by simp [hs]) (by simp [hs]) (by simp) (by simp)

structure Still (s t : TcpSock) : Prop extends Quiet s t where
  rto : t.rtoDeadline = s.rtoDeadline

theorem Still.refl (s : TcpSock) : Still s s := ⟨Quiet.refl s,rfl⟩

theorem Still.trans {u : TcpSock} (h : Still s t) (k : Still t u) : Still s u :=
  ⟨h.toQuiet.trans k.toQuiet,k.rto.trans h.rto⟩

/-- What the handshake and the peer's ACKs settle. Arrivals and reads leave it
alone. -/
def TcpSock.peerPart (s : TcpSock) :
    UInt32 × UInt8 × UInt8 × UInt16 × UInt32 × List (UInt32 × UInt32) :=
  (s.sndWnd,s.sndScale,s.rcvScale,s.peerMss,s.cwnd,s.sacked)

structure Frozen (s t : TcpSock) : Prop extends Still s t where
  part : t.peerPart = s.peerPart

theorem Frozen.refl (s : TcpSock) : Frozen s s := ⟨Still.refl s,rfl⟩

theorem Frozen.trans {u : TcpSock} (h : Frozen s t) (k : Frozen t u) : Frozen s u :=
  ⟨h.toStill.trans k.toStill,k.part.trans h.part⟩

theorem close_frozen (s : TcpSock) : Frozen s s.close := by
  unfold close
  split
  · exact Frozen.refl s
  · refine ⟨⟨?_,rfl⟩,rfl⟩
    constructor <;> first | exact Or.inl | exact id | simp

theorem storeOoo_frozen (s : TcpSock) (seq : UInt32) (body : List UInt8) :
    Frozen s (s.storeOoo seq body) := by
  unfold storeOoo
  dsimp only
  split
  · refine ⟨⟨?_,rfl⟩,rfl⟩
    constructor <;> first | exact Or.inl | exact id | simp
  · exact Frozen.refl s

theorem Frozen.receive (s : TcpSock) (hroom : s.rx.length ≤ s.rxCap) (data : List UInt8)
    (rcvNxt : UInt32) (peerFinSeq : Option UInt32) (peerFinSeen : Bool) (unackedSegs : UInt8)
    (ooo : List (UInt32 × List UInt8)) (lastAckTick : Nat) : Frozen s { s with
      rx := s.rx ++ data.take (min (s.rxCap-s.rx.length) data.length), rcvNxt := rcvNxt,
      peerFinSeq := peerFinSeq, peerFinSeen := peerFinSeen, unackedSegs := unackedSegs,
      ooo := ooo, lastAckTick := lastAckTick } := by
  refine ⟨⟨?_,rfl⟩,rfl⟩
  constructor <;> first | exact Or.inl | exact id | simp
  omega

section
variable {u : TcpSock}

/-- Where a state stands as seen from the peer's stream. -/
inductive Side where
  | off | waiting | half | open | past
  deriving DecidableEq

def State.side : State → Side
  | .closed | .listen => .off
  | .synSent => .waiting
  | .synRcvd => .half
  | .established | .finWait1 | .finWait2 => .open
  | .closeWait | .lastAck | .closing | .timeWait => .past

/-- What sending, timers and the application's side may do: the receive side
stays, and the state keeps its side or closes. -/
structure Sends (s t : TcpSock) : Prop where
  irs : t.irs = s.irs
  rcvNxt : t.rcvNxt = s.rcvNxt
  rx : t.rx = s.rx
  rxCap : t.rxCap = s.rxCap
  ooo : t.ooo = s.ooo
  finSeq : t.peerFinSeq = s.peerFinSeq
  finSeen : t.peerFinSeen = s.peerFinSeen
  ever : t.everEstablished = s.everEstablished
  side : t.state = .closed ∨ t.state.side = s.state.side
  closed : s.state = .closed → t.state = .closed

def TcpSock.recvPart (s : TcpSock) : UInt32 × UInt32 × List UInt8 × Nat ×
    List (UInt32 × List UInt8) × Option UInt32 × Bool × Bool :=
  (s.irs,s.rcvNxt,s.rx,s.rxCap,s.ooo,s.peerFinSeq,s.peerFinSeen,s.everEstablished)

theorem Sends.of_recvPart (h : t.recvPart = s.recvPart)
    (hside : t.state = .closed ∨ t.state.side = s.state.side)
    (hclosed : s.state = .closed → t.state = .closed) : Sends s t := by
  simp only [recvPart,Prod.mk.injEq] at h
  obtain ⟨h₁,h₂,h₃,h₄,h₅,h₆,h₇,h₈⟩ := h
  exact ⟨h₁,h₂,h₃,h₄,h₅,h₆,h₇,h₈,hside,hclosed⟩

theorem Sends.same (h : t.recvPart = s.recvPart) (hstate : t.state = s.state) : Sends s t :=
  .of_recvPart h (.inr (by rw [hstate])) (by rw [hstate]; exact id)

theorem Sends.refl (s : TcpSock) : Sends s s := .same rfl rfl

theorem Sends.trans (h : Sends s t) (k : Sends t u) : Sends s u where
  irs := k.irs.trans h.irs
  rcvNxt := k.rcvNxt.trans h.rcvNxt
  rx := k.rx.trans h.rx
  rxCap := k.rxCap.trans h.rxCap
  ooo := k.ooo.trans h.ooo
  finSeq := k.finSeq.trans h.finSeq
  finSeen := k.finSeen.trans h.finSeen
  ever := k.ever.trans h.ever
  side := by
    rcases h.side with ht | ht
    · exact .inl (k.closed ht)
    · rw [← ht]
      exact k.side
  closed := fun hs => k.closed (h.closed hs)

theorem emit_sends (s : TcpSock) (seq ack : UInt32) (flags : UInt8) (opts payload : List UInt8) :
    Yields (s.emit seq ack flags opts payload) (Sends s) :=
  emit_yields fun _ _ => .same rfl rfl

/-- Sending on its own: what goes out has no options, or those of a SYN. -/
structure Transmits (s t : TcpSock) : Prop extends Sends s t where
  out : ∃ new, t.out = s.out ++ new ∧ ∀ g ∈ new, g.opts = [] ∨ ∃ scale, g.opts = ctrlOptions scale

theorem Transmits.silent (h : Sends s t) (hout : t.out = s.out) : Transmits s t :=
  ⟨h,[],by simp [hout],nofun⟩

theorem Transmits.same (h : t.recvPart = s.recvPart) (hstate : t.state = s.state)
    (hout : t.out = s.out) : Transmits s t := .silent (.same h hstate) hout

theorem Transmits.refl (s : TcpSock) : Transmits s s := .same rfl rfl rfl

theorem Transmits.trans (h : Transmits s t) (k : Transmits t u) : Transmits s u := by
  obtain ⟨xs,hxs,hx⟩ := h.out
  obtain ⟨ys,hys,hy⟩ := k.out
  refine ⟨h.toSends.trans k.toSends,xs ++ ys,by rw [hys,hxs,List.append_assoc],fun g hg => ?_⟩
  exact (List.mem_append.mp hg).elim (hx g) (hy g)

theorem Transmits.after (k : Transmits t u) (h : t.recvPart = s.recvPart) (hstate : t.state = s.state)
    (hout : t.out = s.out) : Transmits s u := (Transmits.same h hstate hout).trans k

theorem Transmits.output (s : TcpSock) (free : Nat) {g : Segment}
    (hopts : g.opts = [] ∨ ∃ scale, g.opts = ctrlOptions scale) : Transmits s (s.output free g) :=
  ⟨.same rfl rfl,[g],rfl,by simpa using hopts⟩

theorem emit_transmits (s : TcpSock) (seq ack : UInt32) (flags : UInt8) {opts : List UInt8}
    (payload : List UInt8) (hopts : opts = [] ∨ ∃ scale, opts = ctrlOptions scale) :
    Yields (s.emit seq ack flags opts payload) (Transmits s) :=
  emit_yields fun _ free => .output s free hopts

theorem emitCtrl_transmits (s : TcpSock) : Yields s.emitCtrl (Transmits s) := by
  unfold emitCtrl
  split
  · exact emit_transmits _ _ _ _ _ (.inr ⟨_,rfl⟩)
  · exact emit_transmits _ _ _ _ _ (.inr ⟨_,rfl⟩)

end

section
variable (hroom : s.rx.length ≤ s.rxCap)
include hroom

omit hroom in
theorem ack_noFin : tcpAck &&& tcpFin = 0 := rfl

theorem emit_frozen (seq ack : UInt32) {flags : UInt8}
    (hfin : flags &&& tcpFin = 0) (opts : List UInt8) :
    Returns (s.emit seq ack flags opts []) (Frozen s) := by
  obtain ⟨wnd,free,h⟩ := emit_eq hroom seq ack flags opts []
  rw [h]
  refine .pure ⟨⟨?_,rfl⟩,rfl⟩
  constructor <;> first
    | exact Or.inl
    | exact id
    | simp [output,hfin]

theorem emitAck_frozen (opts : List UInt8) :
    Returns (s.emitAck opts) (Frozen s) := emit_frozen hroom _ _ (by decide) _

omit hroom in
theorem Frozen.thenAck (h : Frozen s t) (hroom : s.rx.length ≤ s.rxCap) (opts : List UInt8) :
    Returns (do let u ← t.emitAck opts; some (u,false)) (fun r => Frozen s r.1) :=
  Returns.bind (emitAck_frozen (h.room hroom) opts) fun _ hu => .pure (h.trans hu)

theorem acceptInOrder_frozen (body : List UInt8) (fin : Bool)
    (now : Nat) : Returns (s.acceptInOrder body fin now) (fun r => Frozen s r.1) := by
  have hrecv := Frozen.receive s hroom body
  unfold acceptInOrder
  simp only [usub_of_le hroom,bind_eq_bind,bind_some]
  cases fin <;> simp only [if_true,if_false,Bool.false_eq_true] <;> split
  · exact (hrecv _ _ _ _ _ _).thenAck hroom _
  · exact .pure (hrecv _ _ _ _ _ _)
  · exact (hrecv _ _ _ _ _ _).thenAck hroom _
  · exact .pure (hrecv _ _ _ _ _ _)

theorem acceptStream_frozen (seq : UInt32) (body : List UInt8)
    (fin : Bool) (now : Nat) : Returns (s.acceptStream seq body fin now) (fun r => Frozen s r.1) := by
  unfold acceptStream
  split
  · exact .pure (Frozen.refl s)
  split
  · exact acceptInOrder_frozen hroom body fin now
  split
  · exact (storeOoo_frozen s seq body).thenAck hroom _
  dsimp only
  split
  · exact acceptInOrder_frozen hroom _ fin now
  · exact (Frozen.refl s).thenAck hroom _

omit hroom in
theorem consumeFin_frozen (hopen : s.state ≠ .synRcvd) (now : Nat) : Frozen s (s.consumeFin now).1 := by
  unfold consumeFin
  split
  · split
    · dsimp only
      split
      case h_2 hs => exact absurd hs hopen
      case h_5 =>
        refine ⟨⟨?_,rfl⟩,rfl⟩
        constructor <;> first | exact Or.inl | exact id | simp
      all_goals
        rename_i hs
        refine ⟨⟨?_,rfl⟩,rfl⟩
        exact Quiet.move s _ _ (by simp [hs]) (by simp [hs]) hopen (by simp) (by simp)
    · exact Frozen.refl s
  · exact Frozen.refl s

theorem promoteOoo_returns :
    Returns s.promoteOoo (fun r => r = (s,false) ∧ (∀ e ∈ s.ooo, e.1 ≠ s.rcvNxt) ∨
      ∃ i data, s.ooo[i]? = some (s.rcvNxt,data) ∧ r = ({ s with
        ooo := swapRemove s.ooo i, rx := s.rx ++ data.take (min (s.rxCap-s.rx.length) data.length),
        rcvNxt := s.rcvNxt+UInt32.ofNat (min (s.rxCap-s.rx.length) data.length) },true)) := by
  unfold promoteOoo
  split
  · rename_i i hi
    obtain ⟨hlt,hat,-⟩ := List.findIdx?_eq_some_iff_getElem.mp hi
    have hget := List.getElem?_eq_getElem hlt
    simp only [hget,usub_of_le hroom,bind_eq_bind,bind_some]
    refine .pure (.inr ⟨i,s.ooo[i].2,?_,rfl⟩)
    rw [hget,← eq_of_beq hat]
  · rename_i hnone
    exact .pure (.inl ⟨rfl,fun e he => by simpa using List.findIdx?_eq_none_iff.mp hnone e he⟩)

theorem promoteOoo_frozen : Returns s.promoteOoo (fun r => Frozen s r.1) := by
  refine (promoteOoo_returns hroom).mono fun r hr => ?_
  rcases hr with ⟨rfl,-⟩ | ⟨i,data,-,rfl⟩
  · exact Frozen.refl s
  · exact Frozen.receive s hroom _ _ _ _ _ _ _

omit hroom in
theorem consumeLoop_returns {I : TcpSock → Prop} {now : Nat} (hfin : ∀ s, I s → I (s.consumeFin now).1)
    (hpromote : ∀ s, I s → Returns s.promoteOoo (fun r => I r.1)) (rounds : Nat) (hs : I s) :
    Returns (TcpSock.consumeLoop now rounds s) I := by
  induction rounds generalizing s with
  | zero => exact .pure hs
  | succ rounds ih =>
    have hf := hfin s hs
    rw [consumeLoop]
    cases hc : s.consumeFin now with
    | mk t p =>
      rw [hc] at hf
      refine Returns.bind (hpromote t hf) fun r hr => ?_
      dsimp only
      split
      · exact ih hr
      · exact .pure hr

theorem consumeLoop_frozen (hopen : s.state ≠ .synRcvd) (now rounds : Nat) :
    Returns (TcpSock.consumeLoop now rounds s) (Frozen s) := by
  refine consumeLoop_returns (fun t ht => ?_) (fun t ht => ?_) rounds (Frozen.refl s)
  · exact ht.trans (consumeFin_frozen (fun hs => hopen (ht.synRcvd hs)) now)
  · exact (promoteOoo_frozen (ht.room hroom)).mono fun _ hr => ht.trans hr

def TcpSock.streamInput (s : TcpSock) (hdr : TcpHeader) (body : List UInt8) (now : Nat) :
    Option TcpSock := do
  let (s,owed) ←
    (if !body.isEmpty || hdr.has tcpFin then s.acceptStream hdr.seq body (hdr.has tcpFin) now
     else some (s,false))
  let s ← s.consumeFinAndOoo now
  if s.state.isDataState && owed then s.emitAck s.ackOptionsWithSack else some s

omit hroom in
theorem establishedInput_eq (s : TcpSock) (hdr : TcpHeader) (body : List UInt8) (now : Nat) :
    s.establishedInput hdr body now = (if hdr.has tcpAck then s.processAck hdr now else some s) >>= fun t =>
        t.streamInput hdr body now := rfl

theorem streamInput_frozen (hopen : s.state ≠ .synRcvd)
    (hdr : TcpHeader) (body : List UInt8) (now : Nat) :
    Returns (s.streamInput hdr body now) (Frozen s) := by
  have hacc : Returns (if !body.isEmpty || hdr.has tcpFin then
      s.acceptStream hdr.seq body (hdr.has tcpFin) now else some (s,false))
      (fun r => Frozen s r.1) := by
    split
    · exact acceptStream_frozen hroom _ _ _ _
    · exact .pure (Frozen.refl s)
  refine Returns.bind hacc fun r hr => ?_
  have hopen' := fun hs => hopen (hr.synRcvd hs)
  refine Returns.bind (consumeLoop_frozen (hr.room hroom) hopen' now _) fun t ht => ?_
  have hq := hr.trans ht
  split
  · exact (emitAck_frozen (hq.room hroom) _).mono fun _ hu => hq.trans hu
  · exact .pure hq

omit hroom in
theorem tailGuard_frozen (now : Nat) (hroom : s.rx.length ≤ s.rxCap) : Returns (s.tailGuard now)
      (fun t => Frozen s t ∧ Transmits s t ∧ t.state = s.state ∧ t.closeRequested = s.closeRequested) := by
  unfold tailGuard
  split
  · obtain ⟨wnd,free,hemit⟩ := emit_eq hroom s.sndNxt s.rcvNxt tcpAck [] []
    rw [emitAck,hemit]
    refine .pure ⟨⟨⟨?_,rfl⟩,rfl⟩,(Transmits.output s free (.inl rfl)).trans (.same rfl rfl rfl),rfl,rfl⟩
    constructor <;> first | exact Or.inl | exact id | simp [output,ack_noFin]
  · exact .pure ⟨Frozen.refl s,.refl s,rfl,rfl⟩

omit hroom in
theorem windowUpdate_frozen (now : Nat) (hroom : s.rx.length ≤ s.rxCap) : Returns (s.windowUpdate now)
      (fun t => Frozen s t ∧ Transmits s t ∧ t.state = s.state ∧ t.closeRequested = s.closeRequested) := by
  unfold windowUpdate
  split
  · obtain ⟨wnd,free,hemit⟩ := emit_eq hroom s.sndNxt s.rcvNxt tcpAck [] []
    rw [emitAck,hemit]
    simp only [output,usub_of_le hroom,bind_eq_bind,bind_some]
    refine .pure ⟨⟨⟨?_,rfl⟩,rfl⟩,(Transmits.output s free (.inl rfl)).trans (.same rfl rfl rfl),rfl,rfl⟩
    constructor <;> first | exact Or.inl | exact id | simp [ack_noFin]
  · exact .pure ⟨Frozen.refl s,.refl s,rfl,rfl⟩

theorem emitCtrl_frozen : Returns s.emitCtrl (Frozen s) := by
  unfold emitCtrl
  split
  · exact emit_frozen hroom _ _ (by decide) _
  · exact emit_frozen hroom _ _ (by decide) _

theorem recvSlice_eq (len : Nat) : ∃ w, s.recvSlice len = some ({ s with
      rx := s.rx.drop (min len s.rx.length), wndUpdatePending := w },s.rx.take (min len s.rx.length)) := by
  have hdrop : (s.rx.drop (min len s.rx.length)).length ≤ s.rxCap := by simp; omega
  unfold recvSlice
  dsimp only
  split
  · simp only [usub_of_le hdrop,bind_eq_bind,bind_some]
    split
    · exact ⟨_,rfl⟩
    · exact ⟨_,rfl⟩
  · exact ⟨_,rfl⟩

theorem recvSlice_frozen (len : Nat) : Returns (s.recvSlice len) (fun r => Frozen s r.1) := by
  obtain ⟨w,hw⟩ := recvSlice_eq hroom len
  rw [hw]
  refine .pure ⟨⟨?_,rfl⟩,rfl⟩
  constructor <;> first | exact Or.inl | exact id | simp
  omega

end

theorem expireTimeWait_frozen (s : TcpSock) (now : Nat) : Frozen s (s.expireTimeWait now) := by
  unfold expireTimeWait
  split
  · rename_i hs
    split
    · split
      · refine ⟨⟨?_,rfl⟩,rfl⟩
        exact Quiet.move s _ _ (by simp [hs]) (by simp [hs]) (by simp [hs]) (by simp) (by simp)
      · exact Frozen.refl s
    · refine ⟨⟨?_,rfl⟩,rfl⟩
      constructor <;> first | exact Or.inl | exact id | simp
  · exact Frozen.refl s

/-- The third duplicate ACK: the front of the buffer goes out again. -/
def TcpSock.fastDue (s : TcpSock) (hdr : TcpHeader) : Prop :=
  (seqLt s.sndUna hdr.ack && seqLe hdr.ack s.sndNxt) = false ∧ hdr.ack = s.sndUna ∧
    hdr.flags &&& (tcpSyn ||| tcpFin) = 0 ∧ s.outstandingData > 0 ∧ s.dupAcks = 2 ∧
    0 < min (min s.effectiveMss s.tx.length) 65535

theorem dupAcks_two {n : UInt8} (h : (if n = 255 then 255 else n+1) = (3 : UInt8)) : n = 2 := by
  split at h
  · cases h
  · exact (UInt8.add_left_inj 1).mp (h.trans rfl)

/-- An ACK that is neither new nor a duplicate; its window counts. -/
def TcpSock.windowDue (s : TcpSock) (hdr : TcpHeader) : Prop :=
  (seqLt s.sndUna hdr.ack && seqLe hdr.ack s.sndNxt) = false ∧
    ¬ (hdr.ack = s.sndUna ∧ hdr.flags &&& (tcpSyn ||| tcpFin) = 0 ∧ s.outstandingData > 0)

theorem noteSacked_nil (s : TcpSock) : s.noteSacked [] = s.pruneSacked := by
  simp [noteSacked,pruneSacked]

/-- A new cumulative ACK slides the window, takes over its size and the SACK blocks, and
leaves the retransmission timer running if data is outstanding. -/
theorem ackAdvance_eq (s : TcpSock) (hdr : TcpHeader) (now : Nat) :
    ∃ cwnd rttVarMs rttSrttMs timingEnd timingStart rtoDeadline,
      (0 < (s.slide hdr.ack).outstandingData → rtoDeadline ≠ none) ∧
      s.ackAdvance hdr now = TcpSock.noteSacked { s.slide hdr.ack with
        cwnd := cwnd, rttVarMs := rttVarMs, rttSrttMs := rttSrttMs, timingEnd := timingEnd,
        timingStart := timingStart, rtoDeadline := rtoDeadline, retries := 0, dupAcks := 0,
        sndWnd := hdr.window.toUInt32 <<< s.sndScale.toUInt32 } hdr.sackBlocks := by
  have hrtt : ∃ rttVarMs rttSrttMs timingEnd timingStart, (s.slide hdr.ack).takeRtt hdr.ack now =
      { s.slide hdr.ack with
        rttVarMs := rttVarMs, rttSrttMs := rttSrttMs, timingEnd := timingEnd,
        timingStart := timingStart } := by
    unfold takeRtt rttSample
    repeat' split
    all_goals exact ⟨_,_,_,_,rfl⟩
  have hgrow : ∀ u : TcpSock, ∃ cwnd, u.growCwnd = { u with cwnd := cwnd } := by
    intro u
    unfold growCwnd
    dsimp only
    repeat' split
    all_goals exact ⟨_,rfl⟩
  have hnote : ∀ u : TcpSock, (if hdr.sackBlocks.length > 0 then u.noteSacked hdr.sackBlocks
      else u.pruneSacked) = u.noteSacked hdr.sackBlocks := by
    intro u
    split
    · rfl
    · rename_i hnone
      rw [List.length_eq_zero_iff.mp (Nat.eq_zero_of_not_pos hnone),noteSacked_nil]
  obtain ⟨var,srtt,fin,start,hrtt⟩ := hrtt
  obtain ⟨cwnd,hgrow⟩ := hgrow ((s.slide hdr.ack).takeRtt hdr.ack now)
  rw [hrtt] at hgrow
  simp only [ackAdvance,hrtt,hgrow,hnote]
  split
  · exact ⟨cwnd,var,srtt,fin,start,some (now+s.rtoMs.toNat),fun _ => nofun,rfl⟩
  · rename_i hout
    exact ⟨cwnd,var,srtt,fin,start,none,fun hpos => (hout hpos).elim,rfl⟩

theorem ackAdvance_quiet (s : TcpSock) (hdr : TcpHeader) (now : Nat) :
    Quiet (s.slide hdr.ack) (s.ackAdvance hdr now) := by
  obtain ⟨cwnd,var,srtt,fin,start,deadline,-,heq⟩ := ackAdvance_eq s hdr now
  rw [heq]
  have htimers := Quiet.timers (s.slide hdr.ack) cwnd s.ssthresh s.rtoMs var 0 deadline 0 srtt fin
    start s.sacked
  exact (htimers.trans (Quiet.window _ hdr.window)).trans (noteSacked_quiet _ _)

/-- What an ACK leaves that is not the third duplicate, before the FIN is looked at. -/
def TcpSock.ackTaken (s : TcpSock) (hdr : TcpHeader) (now : Nat) : TcpSock :=
  if seqLt s.sndUna hdr.ack && seqLe hdr.ack s.sndNxt then s.ackAdvance hdr now
  else if hdr.ack = s.sndUna ∧ hdr.flags &&& (tcpSyn ||| tcpFin) = 0 ∧ s.outstandingData > 0 then
    { s with dupAcks := if s.dupAcks = 2 then 0 else if s.dupAcks = 255 then 255 else s.dupAcks+1 }
  else
    let t := { s with sndWnd := hdr.window.toUInt32 <<< s.sndScale.toUInt32 }
    if hdr.sackBlocks.length > 0 then t.noteSacked hdr.sackBlocks else t

theorem processAck_fast {hdr : TcpHeader} (h : s.fastDue hdr) (now : Nat) : s.processAck hdr now =
    s.fastRetransmit (min (min s.effectiveMss s.tx.length) 65535) now := by
  obtain ⟨hnew,hack,hflags,hout,hdup,hpos⟩ := h
  unfold processAck
  rw [if_neg (by simp [hnew]),if_pos ⟨hack,hflags,hout⟩,hdup]
  exact if_pos hpos

theorem processAck_slow {hdr : TcpHeader} (h : ¬ s.fastDue hdr) (now : Nat) :
    s.processAck hdr now = some ((s.ackTaken hdr now).finAcked hdr.ack now) := by
  unfold processAck ackTaken
  split
  · rfl
  rename_i hnew
  split
  · rename_i hdup
    dsimp only
    by_cases htwo : s.dupAcks = 2
    · have hnone : ¬ min (min s.effectiveMss s.tx.length) 65535 > 0 := fun hpos =>
        h ⟨by simpa using hnew,hdup.1,hdup.2.1,hdup.2.2,htwo,hpos⟩
      rw [if_neg hnone,if_pos htwo,if_pos (by rw [htwo]; rfl)]
    · rw [if_neg htwo,if_neg fun hthree => htwo (dupAcks_two hthree)]
  · rfl

end PaghOS.Tcp
