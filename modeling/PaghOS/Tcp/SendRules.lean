import PaghOS.Tcp.Quiet

/-!
What one event can do to a connection, as rules: an invariant that survives
every quiet change has to be checked only where a write, `process_ack`, the
timers, the transmit loop and the handshake do something to it. A step panics
only where the timer resends from beyond the end of the buffer.
-/

namespace PaghOS.Tcp
open Loop Serial Option TcpSock Bool

variable {hdr : TcpHeader} {body : List UInt8} {c : Conn} {q : Prop}

/-- The states in which `step_sock` transmits. -/
def State.sending : State → Bool
  | .established | .closeWait | .finWait1 | .closing | .lastAck => true
  | _ => false

theorem State.afterFin_ne {a : State} (h : a.sending = true) :
    a.afterFin ≠ .synSent ∧ a.afterFin ≠ .synRcvd := by
  cases a <;> simp_all [State.afterFin,State.sending]

theorem State.afterFin_side (a : State) : a.afterFin.side = a.side := by cases a <;> rfl

/-- A quiet change under which the peer's window is `w`. A running timer goes on
running, and only a handshake starts one. -/
structure Adjusts (w : UInt32) (s t : TcpSock) : Prop extends Quiet s t where
  armed : s.rtoDeadline ≠ none → t.rtoDeadline ≠ none
  idle : s.rtoDeadline = none → t.rtoDeadline = none ∨ s.state = .synSent ∨ s.state = .synRcvd
  wnd : t.sndWnd = w
  sndScale : t.sndScale = s.sndScale
  rcvScale : t.rcvScale = s.rcvScale
  mss : t.peerMss = s.peerMss

structure Rests (s t : TcpSock) : Prop extends Adjusts s.sndWnd s t where
  sacked : t.sacked = s.sacked

/-- A new cumulative ACK: the window slid, its size is the announced one, and the
timer runs if data is still outstanding. -/
structure Slid (s : TcpSock) (hdr : TcpHeader) (t : TcpSock) : Prop
    extends Quiet (s.slide hdr.ack) t where
  armed : 0 < t.outstandingData → t.rtoDeadline ≠ none
  wnd : t.sndWnd = hdr.window.toUInt32 <<< s.sndScale.toUInt32
  sndScale : t.sndScale = s.sndScale
  rcvScale : t.rcvScale = s.rcvScale
  mss : t.peerMss = s.peerMss

section Relations
variable {s t u : TcpSock} {w : UInt32}

theorem Quiet.outstanding (h : Quiet s t) : t.outstandingData = s.outstandingData := by
  unfold outstandingData finPending
  rw [h.una,h.nxt,h.fin]

theorem Adjusts.trans (h : Adjusts w s t) (k : Adjusts t.sndWnd t u) : Adjusts w s u where
  toQuiet := h.toQuiet.trans k.toQuiet
  armed := fun hs => k.armed (h.armed hs)
  idle := by
    intro hs
    rcases h.idle hs with ht | hstate
    · exact (k.idle ht).imp_right fun hstate => hstate.imp h.synSent h.synRcvd
    · exact .inr hstate
  wnd := k.wnd.trans h.wnd
  sndScale := k.sndScale.trans h.sndScale
  rcvScale := k.rcvScale.trans h.rcvScale
  mss := k.mss.trans h.mss

theorem Rests.trans (h : Rests s t) (k : Rests t u) : Rests s u where
  toAdjusts := h.toAdjusts.trans k.toAdjusts
  sacked := k.sacked.trans h.sacked

theorem Quiet.rst (s : TcpSock) (refused : Bool) :
    Quiet s { s with refused := refused, state := .closed } := by
  constructor <;> first | exact id | simp

theorem Frozen.rst (s : TcpSock) (refused : Bool) :
    Frozen s { s with refused := refused, state := .closed } := ⟨⟨Quiet.rst s refused,rfl⟩,rfl⟩

theorem Frozen.rests (h : Frozen s t) : Rests s t := by
  have hpart := h.part
  simp only [peerPart,Prod.mk.injEq] at hpart
  obtain ⟨hwnd,hsnd,hrcv,hmss,-,hsacked⟩ := hpart
  refine ⟨⟨h.toQuiet,?_,?_,hwnd,hsnd,hrcv,hmss⟩,hsacked⟩
  · rw [h.rto]; exact id
  · rw [h.rto]; exact .inl

end Relations

section Frames
variable {s : TcpSock}

theorem emit_part (s : TcpSock) (seq ack : UInt32) (flags : UInt8) (opts payload : List UInt8) :
    Yields (s.emit seq ack flags opts payload) (fun t => t.peerPart = s.peerPart) :=
  emit_yields fun _ _ => rfl

theorem psh_noFin : (tcpAck ||| tcpPsh) &&& tcpFin = 0 := by decide

theorem ackAdvance_slid (s : TcpSock) (hdr : TcpHeader) (now : Nat) : Slid s hdr (s.ackAdvance hdr now) := by
  have hquiet := ackAdvance_quiet s hdr now
  obtain ⟨_,_,_,_,_,_,harmed,heq⟩ := ackAdvance_eq s hdr now
  rw [heq] at hquiet ⊢
  exact ⟨hquiet,harmed,rfl,rfl,rfl,rfl⟩

theorem finAcked_rests (s : TcpSock) (ack : UInt32) (now : Nat) : Rests s (s.finAcked ack now) := by
  have hquiet := finAcked_quiet s ack now
  unfold finAcked at hquiet ⊢
  dsimp only at hquiet ⊢
  repeat' split
  all_goals exact ⟨⟨by simp_all,id,.inl,rfl,rfl,rfl,rfl⟩,rfl⟩

/-- An ACK slides the window, sets its size or changes nothing the peer sees; the
third duplicate sends the front of the buffer again. -/
theorem processAck_spec (hroom : s.rx.length ≤ s.rxCap) (hdr : TcpHeader) (now : Nat) :
    Returns (s.processAck hdr now) (fun t =>
      (s.fastDue hdr ∧ ∃ u wnd free d, Rests s u ∧ t = TcpSock.output
        { u with rtoDeadline := some d } free ⟨s.sndUna,s.rcvNxt,tcpAck ||| tcpPsh,wnd,[],
          s.tx.take (min (min s.effectiveMss s.tx.length) 65535)⟩) ∨
      ∃ u, Rests u t ∧ (Rests s u ∨
        (seqLt s.sndUna hdr.ack = true ∧ seqLe hdr.ack s.sndNxt = true) ∧ Slid s hdr u ∨
        s.windowDue hdr ∧ Adjusts (hdr.window.toUInt32 <<< s.sndScale.toUInt32) s u)) := by
  by_cases hdue : s.fastDue hdr
  · have hrest : Rests s { s with
        ssthresh := s.halvedSsthresh, cwnd := s.halvedSsthresh, dupAcks := 0 } :=
      ⟨⟨Quiet.timers s _ _ _ _ _ _ _ _ _ _ _,id,.inl,rfl,rfl,rfl,rfl⟩,rfl⟩
    obtain ⟨wnd,free,hemit⟩ := emit_eq (s := armRto { s with
        ssthresh := s.halvedSsthresh, cwnd := s.halvedSsthresh, dupAcks := 0 } now) hroom s.sndUna
      s.rcvNxt (tcpAck ||| tcpPsh) [] (s.tx.take (min (min s.effectiveMss s.tx.length) 65535))
    rw [processAck_fast hdue,fastRetransmit]
    dsimp only
    rw [hemit]
    exact .pure (.inl ⟨hdue,_,wnd,free,now+s.rtoMs.toNat,hrest,rfl⟩)
  rw [processAck_slow hdue]
  refine .pure (.inr ⟨_,finAcked_rests _ _ _,?_⟩)
  unfold ackTaken
  split
  · rename_i hvalid
    simp only [and_eq_true] at hvalid
    exact .inr (.inl ⟨hvalid,ackAdvance_slid s hdr now⟩)
  rename_i hnew
  split
  · exact .inl ⟨⟨Quiet.timers s _ _ _ _ _ _ _ _ _ _ _,id,.inl,rfl,rfl,rfl,rfl⟩,rfl⟩
  rename_i hold
  have hwnd : ∀ sacked, Adjusts (hdr.window.toUInt32 <<< s.sndScale.toUInt32) s { s with
      sndWnd := hdr.window.toUInt32 <<< s.sndScale.toUInt32, sacked := sacked } := by
    intro sacked
    refine ⟨?_,id,.inl,rfl,rfl,rfl,rfl⟩
    exact (Quiet.window s hdr.window).trans (Quiet.timers _ _ _ _ _ _ _ _ _ _ _ sacked)
  refine .inr (.inr ⟨⟨by simpa using hnew,hold⟩,?_⟩)
  dsimp only
  split
  · exact hwnd _
  · exact hwnd s.sacked

theorem processAck_open (hroom : s.rx.length ≤ s.rxCap) (hrcvd : s.state ≠ .synRcvd) (hdr : TcpHeader)
    (now : Nat) : Returns (s.processAck hdr now) (fun t => t.state ≠ .synRcvd) := by
  refine (processAck_spec hroom hdr now).mono fun t ht hstate => hrcvd ?_
  rcases ht with ⟨-,u,wnd,free,d,hu,rfl⟩ | ⟨u,ht,hu | ⟨-,hu⟩ | ⟨-,hu⟩⟩
  · exact hu.synRcvd hstate
  · exact hu.synRcvd (ht.synRcvd hstate)
  · exact hu.synRcvd (ht.synRcvd hstate)
  · exact hu.synRcvd (ht.synRcvd hstate)

theorem armRtoIfNone_eq (s : TcpSock) (now : Nat) :
    ∃ d, s.armRtoIfNone now = { s with rtoDeadline := some d } := by
  unfold armRtoIfNone
  split
  · exact ⟨_,rfl⟩
  · rename_i hsome
    obtain ⟨d,hd⟩ := ne_none_iff_exists'.mp (by simpa using hsome)
    exact ⟨d,by rw [← hd]⟩

theorem nextTake_spec (s : TcpSock) : Returns s.nextTake (fun n => n = 0 ∨
      n ≤ s.tx.length-s.outstandingData ∧ s.outstandingData+n ≤ s.sndWnd.toNat) := by
  unfold nextTake
  dsimp only
  split
  · exact .pure (.inl rfl)
  split
  · exact .pure (.inl rfl)
  rename_i hlt _
  have hmin : (min s.sndWnd s.cwnd).toNat ≤ s.sndWnd.toNat := by
    rw [show min s.sndWnd s.cwnd = if s.sndWnd ≤ s.cwnd then s.sndWnd else s.cwnd from rfl]
    split
    · exact le_rfl
    · rename_i hle
      exact UInt32.le_iff_toNat_le.mp (UInt32.le_of_lt (UInt32.not_le.mp hle))
  simp only [usub_of_le (le_of_lt (lt_of_not_ge hlt)),bind_eq_bind,bind_some]
  exact .pure (.inr (by omega))

/-- With a segment of `n` bytes from the buffer out. -/
abbrev TcpSock.dataOut (s : TcpSock) (n : Nat) (wnd : UInt16) (free d : Nat) : TcpSock :=
  { s.output free ⟨s.sndNxt,s.rcvNxt,tcpAck ||| tcpPsh,wnd,[],(s.tx.drop s.outstandingData).take n⟩ with
    sndNxt := s.sndNxt+UInt32.ofNat n, rtoDeadline := some d }

abbrev TcpSock.finOut (s : TcpSock) (wnd : UInt16) (free d : Nat) : TcpSock :=
  { s.output free ⟨s.sndNxt,s.rcvNxt,tcpAck ||| tcpFin,wnd,[],[]⟩ with
    finSeq := some s.sndNxt, sndNxt := s.sndNxt+1, state := s.state.afterFin, rtoDeadline := some d }

section
variable (hroom : s.rx.length ≤ s.rxCap)
include hroom

theorem sendData_eq (n now : Nat) : ∃ e b wnd free d, s.sendData n now =
    some { s.dataOut n wnd free d with timingEnd := e, timingStart := b } := by
  obtain ⟨e,b,hstart⟩ := s.stopwatch n now
  obtain ⟨wnd,free,hemit⟩ := emit_eq (s := { s with timingEnd := e, timingStart := b }) hroom s.sndNxt
    s.rcvNxt (tcpAck ||| tcpPsh) [] ((s.tx.drop s.outstandingData).take n)
  simp only [TcpSock.sendData,hstart,hemit,bind_eq_bind,bind_some]
  obtain ⟨d,harm⟩ := armRtoIfNone_eq { s.output free ⟨s.sndNxt,s.rcvNxt,tcpAck ||| tcpPsh,wnd,[],
    (s.tx.drop s.outstandingData).take n⟩ with
      timingEnd := e, timingStart := b, sndNxt := s.sndNxt+UInt32.ofNat n } now
  exact ⟨e,b,wnd,free,d,congrArg some harm⟩

theorem sendFin_eq (hready : s.closeRequested = true ∧ s.finSeq = none ∧ s.outstandingData = s.tx.length)
    (now : Nat) : ∃ wnd free d, s.sendFin now = some (s.finOut wnd free d) := by
  obtain ⟨wnd,free,hemit⟩ := emit_eq hroom s.sndNxt s.rcvNxt (tcpAck ||| tcpFin) [] []
  unfold TcpSock.sendFin
  rw [if_pos (by simpa using hready)]
  simp only [hemit,bind_eq_bind,bind_some]
  obtain ⟨d,harm⟩ := armRtoIfNone_eq { s.output free ⟨s.sndNxt,s.rcvNxt,tcpAck ||| tcpFin,wnd,[],[]⟩ with
    finSeq := some s.sndNxt, sndNxt := s.sndNxt+1, state := s.state.afterFin } now
  exact ⟨wnd,free,d,congrArg some harm⟩

omit hroom in
/-- `tx.len()` rounds are enough: the loop ends where nothing may be sent. A FIN on
its way is itself a number that is out. -/
theorem sendLoop_settles (hroom : s.rx.length ≤ s.rxCap) (hlen : s.tx.length+1 < 4294967296)
    (hfin : s.finPending = true → s.sndUna ≠ s.sndNxt) (now : Nat) {rounds : Nat}
    (h : s.tx.length ≤ s.outstandingData+rounds) :
    Returns (sendLoop now rounds s) (fun t => t.nextTake = some 0) := by
  induction rounds generalizing s with
  | zero =>
    have hall : s.tx.length-s.outstandingData = 0 := by omega
    exact .pure (by simp [nextTake,hall])
  | succ rounds ih =>
    obtain ⟨n,htake,hn⟩ := nextTake_spec s
    simp only [sendLoop,htake,bind_eq_bind,bind_some]
    split
    · rename_i hnone
      exact .pure (hnone ▸ htake)
    rename_i hpos
    obtain ⟨hunsent,-⟩ := hn.resolve_left hpos
    obtain ⟨e,b,wnd,free,d,hdata⟩ := sendData_eq hroom n now
    rw [hdata,bind_some]
    have hout : s.outstandingData = ahead s.sndUna s.sndNxt-(if s.finPending then 1 else 0) := by
      unfold outstandingData ahead
      split <;> rfl
    have hraw : s.finPending = true → 0 < ahead s.sndUna s.sndNxt := fun hpend =>
      Nat.pos_of_ne_zero (mt (ahead_eq_zero_iff _ _).mp (hfin hpend))
    have hadv : ahead s.sndUna (s.sndNxt+UInt32.ofNat n) = ahead s.sndUna s.sndNxt+n :=
      ahead_advance _ _ (by split at hout <;> omega)
    have hless : ∀ t : TcpSock, t.finPending = s.finPending → t.sndUna = s.sndUna →
        t.sndNxt = s.sndNxt+UInt32.ofNat n → s.tx.length ≤ t.outstandingData+rounds := by
      intro t hpend huna hnxt
      rw [outstandingData,hpend,huna,hnxt,← ahead,hadv]
      grind
    refine ih hroom hlen (fun _ heq => ?_) (hless _ rfl rfl rfl)
    have hzero : ahead s.sndUna (s.sndNxt+UInt32.ofNat n) = 0 := (ahead_eq_zero_iff _ _).mpr heq
    omega

theorem rstAcceptable_returns (hdr : TcpHeader) : Returns (s.rstAcceptable hdr) (fun _ => True) := by
  obtain ⟨field,hfield⟩ := rcvWndField_isSome hroom
  unfold rstAcceptable
  rw [hfield]
  split
  · exact .pure trivial
  · exact .pure trivial

end

end Frames

/-- An invariant that only the transmissions of new data and of the FIN, the
peer's ACKs and the timers can endanger, and that the first two keep. -/
structure Upheld (I : TcpSock → Prop) : Prop where
  room : ∀ s, I s → s.rx.length ≤ s.rxCap
  rests : ∀ s t, I s → Rests s t → I t
  data : ∀ s n wnd free d, I s → s.state.sending = true → n ≠ 0 → n ≤ s.tx.length-s.outstandingData →
    s.outstandingData+n ≤ s.sndWnd.toNat → I (s.dataOut n wnd free d)
  fin : ∀ s wnd free d, I s → s.state.sending = true → s.finSeq = none →
    s.outstandingData = s.tx.length → I (s.finOut wnd free d)

/-- `process_ack` keeps the invariant on this header. -/
structure AckKept (I : TcpSock → Prop) (s : TcpSock) (hdr : TcpHeader) : Prop where
  slides : seqLt s.sndUna hdr.ack = true → seqLe hdr.ack s.sndNxt = true →
    ∀ t, Slid s hdr t → I t
  fast : s.fastDue hdr → ∀ t wnd free d, Rests s t → I (TcpSock.output { t with rtoDeadline := some d }
      free ⟨s.sndUna,s.rcvNxt,tcpAck ||| tcpPsh,wnd,[],
        s.tx.take (min (min s.effectiveMss s.tx.length) 65535)⟩)
  window : s.windowDue hdr →
    ∀ t, Adjusts (hdr.window.toUInt32 <<< s.sndScale.toUInt32) s t → I t

/-- An expired timer keeps the invariant, whatever it resends, and panics only if `q`. -/
structure ResendKept (q : Prop) (I : TcpSock → Prop) (s : TcpSock) : Prop where
  fin : ∀ f wnd free, s.finSeq = some f → s.outstandingData = 0 →
    I (s.output free ⟨f,s.rcvNxt,tcpAck ||| tcpFin,wnd,[],[]⟩)
  hole : ∀ off wnd free, 0 < s.outstandingData → s.firstHole = some off → off ≤ s.tx.length →
    I (s.output free ⟨s.sndUna+UInt32.ofNat off,s.rcvNxt,tcpAck ||| tcpPsh,wnd,[],
        (s.tx.drop off).take (min s.effectiveMss (s.tx.length-off))⟩)
  beyond : ∀ off, 0 < s.outstandingData → s.firstHole = some off → s.tx.length < off → q
  probe : ∀ b rest wnd free, s.outstandingData = 0 → s.finPending = false → s.sndWnd = 0 →
    s.tx = b :: rest → I (s.output free ⟨s.sndUna,s.rcvNxt,tcpAck,wnd,[],[b]⟩)

theorem AckKept.mono {I J : TcpSock → Prop} {s : TcpSock} (h : AckKept I s hdr) (hij : ∀ t, I t → J t) :
    AckKept J s hdr where
  slides := fun hlt hle t ht => hij t (h.slides hlt hle t ht)
  fast := fun hdue t wnd free d ht => hij _ (h.fast hdue t wnd free d ht)
  window := fun hdue t ht => hij t (h.window hdue t ht)

theorem ResendKept.mono {I J : TcpSock → Prop} {s : TcpSock} (h : ResendKept q I s)
    (hij : ∀ t, I t → J t) : ResendKept q J s where
  fin := fun f wnd free hf hzero => hij _ (h.fin f wnd free hf hzero)
  hole := fun off wnd free hpos hhole hoff => hij _ (h.hole off wnd free hpos hhole hoff)
  beyond := h.beyond
  probe := fun b rest wnd free hnone hfin hwnd htx => hij _ (h.probe b rest wnd free hnone hfin hwnd htx)

def TcpSock.resendDue (s : TcpSock) (now : Nat) : Bool :=
  s.rtoDeadline.any (fun d => d ≤ now) && s.state.isDataState && decide (s.retries < dataMaxRetries)

/-- An arriving segment keeps the invariant. The ACK of a segment that completes
the handshake is looked at only if it brings data. -/
structure InputKept (I : TcpSock → Prop) (s : TcpSock) (hdr : TcpHeader) (body : List UInt8) :
    Prop where
  opens : s.state = .synSent → hdr.has tcpSyn = true → hdr.has tcpAck = true →
    hdr.ack = s.iss+1 → ∀ rcv, rcv = 0 ∨ rcv = s.rcvScale →
    I (s.opened hdr hdr.offeredScale rcv) ∧
      (body ≠ [] → ∀ u, Frozen (s.opened hdr hdr.offeredScale rcv) u → AckKept I u hdr)
  meets : s.state = .synSent → hdr.has tcpSyn = true → hdr.has tcpAck = false → I (s.met hdr)
  joins : s.state = .synRcvd → hdr.has tcpAck = true → seqLe s.sndUna hdr.ack = true →
    seqLe hdr.ack s.sndNxt = true → I s.joined ∧ (body ≠ [] → AckKept I s.joined hdr)
  acks : s.state ≠ .synSent → s.state ≠ .synRcvd → hdr.has tcpAck = true → AckKept I s hdr

def Conn.accepted (c : Conn) (data : List UInt8) : List UInt8 :=
  data.take (min (c.sock.txCap-c.sock.tx.length) data.length)

theorem step_send_eq (hr : c.reaped = false) (hcan : c.sock.canSend = true) (data : List UInt8) :
    c.step (.send data) = some { c with
      sock := { c.sock with out := [], tx := c.sock.tx ++ c.accepted data },
      sent := c.sent ++ c.accepted data } := by
  have hlt : c.sock.tx.length ≤ c.sock.txCap := by
    simp only [canSend,and_eq_true,decide_eq_true_eq] at hcan
    exact le_of_lt hcan.2
  have hcan' : canSend { c.sock with out := [] } = true := hcan
  simp [Conn.step,hr,sendSlice,hcan',usub_of_le hlt,Conn.accepted]

theorem step_reaped (h : c.reaped = true) (e : Event) :
    c.step e = some { c with sock := { c.sock with out := [] } } := by simp [Conn.step,h]

namespace Upheld
variable {I : TcpSock → Prop} {s : TcpSock}

section
variable (h : Upheld I)
include h

theorem frozen (hs : I s) {m : Option TcpSock} (hm : Returns m (Frozen s)) : Returns m I :=
  hm.mono fun t ht => h.rests s t hs ht.rests

theorem processAck (hs : I s) (hack : AckKept I s hdr) (now : Nat) :
    Returns (s.processAck hdr now) I := by
  refine (processAck_spec (h.room s hs) hdr now).mono fun t ht => ?_
  rcases ht with ⟨hdue,u,wnd,free,d,hu,rfl⟩ | ⟨u,ht,hu⟩
  · exact hack.fast hdue u wnd free d hu
  refine h.rests u t ?_ ht
  rcases hu with hu | ⟨hvalid,hu⟩ | ⟨hdue,hu⟩
  · exact h.rests s u hs hu
  · exact hack.slides hvalid.1 hvalid.2 u hu
  · exact hack.window hdue u hu

theorem emit (hs : I s) {seq ack : UInt32} {flags : UInt8} {payload : List UInt8}
    (hout : ∀ wnd free, I (s.output free ⟨seq,ack,flags,wnd,[],payload⟩)) :
    Returns (s.emit seq ack flags [] payload) (fun t => I t ∧ Transmits s t) := by
  obtain ⟨wnd,free,hemit⟩ := emit_eq (h.room s hs) seq ack flags [] payload
  rw [hemit]
  exact .pure ⟨hout wnd free,.output s free (.inl rfl)⟩

theorem resend (hs : I s) (hk : ResendKept q I s) :
    ReturnsUnless q s.resend (fun t => I t ∧ Transmits s t) := by
  unfold TcpSock.resend
  split
  · rename_i hbare
    obtain ⟨hzero,hpend⟩ := hbare
    cases hf : s.finSeq with
    | none => simp [TcpSock.finPending,hf] at hpend
    | some f => exact .inl (h.emit hs fun wnd free => hk.fin f wnd free hf hzero)
  rename_i hbare
  split
  · rename_i hpos
    cases hhole : s.firstHole with
    | none => exact .inl (.pure ⟨hs,.refl s⟩)
    | some off =>
      by_cases hoff : off ≤ s.tx.length
      · simp only [usub_of_le hoff,bind_eq_bind,bind_some]
        exact .inl (h.emit hs fun wnd free => hk.hole off wnd free hpos hhole hoff)
      · simp only [usub,if_neg hoff,bind_eq_bind,bind_none]
        exact .inr ⟨rfl,hk.beyond off hpos hhole (not_le.mp hoff)⟩
  refine .inl ?_
  split
  · rename_i hzero hwnd
    cases htx : s.tx with
    | nil => exact .pure ⟨hs,.refl s⟩
    | cons b rest =>
      have hnone : s.outstandingData = 0 := by omega
      refine h.emit hs fun wnd free => hk.probe b rest wnd free hnone ?_ hwnd htx
      simpa [hnone] using hbare
  · exact .pure ⟨hs,.refl s⟩

theorem timerStep (hs : I s) (now : Nat) (hk : s.resendDue now = true →
      ∀ t, Rests s t → t.state = s.state → I t → ResendKept q I t) :
    ReturnsUnless q (s.timerStep now) (fun t => I t ∧ Transmits s t) := by
  unfold TcpSock.timerStep
  split
  · rename_i deadline hdeadline
    split
    · rename_i hnow
      have hback : ∀ d, Rests s { s with
          retries := s.retries+1, rtoMs := min (satMul s.rtoMs 2) rtoMaxMs, timingEnd := none,
          timingStart := none, ssthresh := s.halvedSsthresh, cwnd := UInt32.ofNat s.effectiveMss,
          rtoDeadline := some d } := by
        refine fun d => ⟨⟨Quiet.timers s _ _ _ _ _ _ _ _ _ _ _,fun _ => nofun,?_,rfl,rfl,rfl,rfl⟩,rfl⟩
        simp [hdeadline]
      have harm := hback (now+(min (satMul s.rtoMs 2) rtoMaxMs).toNat)
      have hkeep := h.rests _ _ hs harm
      unfold TcpSock.timerExpired
      dsimp only
      rw [hdeadline]
      split
      · refine .inl ?_
        split
        · exact .pure ⟨h.rests _ _ hs ((hback deadline).trans (Frozen.rst _ true).rests),
            .silent (.of_recvPart rfl (.inl rfl) fun _ => rfl) rfl⟩
        · refine ((emitCtrl_frozen (h.room _ hkeep)).and (emitCtrl_transmits _)).mono fun t ht => ?_
          exact ⟨h.rests _ _ hkeep ht.1.rests,ht.2.after rfl rfl rfl⟩
      split
      · exact .inl (.pure ⟨h.rests _ _ hs ((hback deadline).trans (Frozen.rst _ s.refused).rests),
          .silent (.of_recvPart rfl (.inl rfl) fun _ => rfl) rfl⟩)
      rename_i hretries
      split
      · rename_i hdata
        have hdue : s.resendDue now = true := by
          simp only [TcpSock.resendDue,hdeadline,any_some,and_eq_true,decide_eq_true_eq]
          exact ⟨⟨hnow,hdata⟩,by omega⟩
        refine Or.imp_left (fun hm => hm.mono fun t ht => ?_) (h.resend hkeep (hk hdue _ harm rfl hkeep))
        exact ⟨ht.1,ht.2.after rfl rfl rfl⟩
      · exact .inl (.pure ⟨hkeep,.same rfl rfl rfl⟩)
    · exact .inl (.pure ⟨hs,.refl s⟩)
  · exact .inl (.pure ⟨hs,.refl s⟩)

theorem sendData (hs : I s) (hstate : s.state.sending = true) {n : Nat} (hpos : n ≠ 0)
    (hn : n ≤ s.tx.length-s.outstandingData) (hwnd : s.outstandingData+n ≤ s.sndWnd.toNat)
    (now : Nat) :
    Returns (s.sendData n now) (fun t => I t ∧ t.state = s.state ∧ Transmits s t) := by
  obtain ⟨e,b,wnd,free,d,hdata⟩ := sendData_eq (h.room s hs) n now
  rw [hdata]
  have hkeep := h.rests s { s with timingEnd := e, timingStart := b } hs
    ⟨⟨Quiet.timers s _ _ _ _ _ _ _ _ _ _ _,id,.inl,rfl,rfl,rfl,rfl⟩,rfl⟩
  exact .pure ⟨h.data _ n wnd free d hkeep hstate hpos hn hwnd,rfl,
    (Transmits.output s free (.inl rfl)).trans (.same rfl rfl rfl)⟩

theorem sendLoop (hs : I s) (hstate : s.state.sending = true) (now rounds : Nat) :
    Returns (TcpSock.sendLoop now rounds s) (fun t => I t ∧ t.state = s.state ∧ Transmits s t) := by
  induction rounds generalizing s with
  | zero => exact .pure ⟨hs,rfl,.refl s⟩
  | succ rounds ih =>
    obtain ⟨n,htake,hn⟩ := nextTake_spec s
    simp only [sendLoop,htake,bind_eq_bind,bind_some]
    split
    · exact .pure ⟨hs,rfl,.refl s⟩
    rename_i hpos
    obtain ⟨hunsent,hwnd⟩ := hn.resolve_left hpos
    refine Returns.bind (h.sendData hs hstate hpos hunsent hwnd now) fun t ht => ?_
    exact (ih ht.1 (ht.2.1 ▸ hstate)).mono fun _ hu => ⟨hu.1,hu.2.1.trans ht.2.1,ht.2.2.trans hu.2.2⟩

theorem sendFin (hs : I s) (hstate : s.state.sending = true) (now : Nat) :
    Returns (s.sendFin now) (fun t => I t ∧ Transmits s t) := by
  by_cases hready : s.closeRequested = true ∧ s.finSeq = none ∧ s.outstandingData = s.tx.length
  · obtain ⟨wnd,free,d,hfin⟩ := sendFin_eq (h.room s hs) hready now
    rw [hfin]
    refine .pure ⟨h.fin s wnd free d hs hstate hready.2.1 hready.2.2,
      (Transmits.output s free (.inl rfl)).trans (.silent (.of_recvPart rfl (.inr ?_) ?_) rfl)⟩
    · exact s.state.afterFin_side
    · intro hclosed
      exact congrArg State.afterFin hclosed
  · unfold TcpSock.sendFin
    rw [if_neg (by simpa using hready)]
    exact .pure ⟨hs,.refl s⟩

theorem ctrlStep (hs : I s) (hstate : s.state = .synSent ∨ s.state = .synRcvd) (now : Nat) :
    Returns (if s.ctrlNeedsSend then do
      let s ← s.emitCtrl
      some (TcpSock.armRtoIfNone { s with ctrlNeedsSend := false } now)
    else some s) (fun t => I t ∧ Transmits s t) := by
  split
  · refine Returns.bind ((emitCtrl_frozen (h.room s hs)).and (emitCtrl_transmits s)) fun t ⟨ht,hout⟩ => ?_
    obtain ⟨d,harm⟩ := armRtoIfNone_eq { t with ctrlNeedsSend := false } now
    rw [harm]
    refine .pure ⟨h.rests s _ hs ⟨⟨ht.toQuiet.trans ?_,fun _ => nofun,fun _ => .inr hstate,
      ht.rests.wnd,ht.rests.sndScale,ht.rests.rcvScale,ht.rests.mss⟩,ht.rests.sacked⟩,
      hout.trans (.same rfl rfl rfl)⟩
    constructor <;> first | exact Or.inl | exact id | simp
  · exact .pure ⟨hs,.refl s⟩

theorem stepSock (hs : I s) (now : Nat) (hk : s.resendDue now = true →
      ∀ t, Rests s t → t.state = s.state → I t → ResendKept q I t) :
    ReturnsUnless q (s.stepSock now) (fun t => I t ∧ Transmits s t) := by
  unfold TcpSock.stepSock
  refine ReturnsUnless.bind (h.timerStep hs now hk) fun s₁ h₁ => .inl ?_
  refine Returns.bind (tailGuard_frozen now (h.room _ h₁.1)) fun s₂ h₂ => ?_
  have hkeep := h.rests _ _ h₁.1 h₂.1.rests
  refine Returns.bind (windowUpdate_frozen now (h.room _ hkeep)) fun s₃ h₃ => ?_
  have hkeep := h.rests _ _ hkeep h₃.1.rests
  have hbefore := (h₁.2.trans h₂.2.1).trans h₃.2.1
  refine Returns.mono (P := fun t => I t ∧ Transmits s₃ t) ?_ fun t ht => ⟨ht.1,hbefore.trans ht.2⟩
  have hsend : s₃.state.sending = true →
      Returns (do let s ← TcpSock.sendLoop now s₃.tx.length s₃; s.sendFin now)
        (fun t => I t ∧ Transmits s₃ t) := by
    intro hstate
    refine Returns.bind (h.sendLoop hkeep hstate now _) fun s₄ h₄ => ?_
    exact (h.sendFin h₄.1 (h₄.2.1 ▸ hstate) now).mono fun t ht => ⟨ht.1,h₄.2.2.trans ht.2⟩
  split
  case h_1 hstate => exact h.ctrlStep hkeep (.inl hstate) now
  case h_2 hstate => exact h.ctrlStep hkeep (.inr hstate) now
  case h_8 => exact .pure ⟨hkeep,.refl s₃⟩
  all_goals
    rename_i hstate
    exact hsend (by rw [hstate]; rfl)

theorem establishedInput (hs : I s) (hrcvd : s.state ≠ .synRcvd)
    (hack : hdr.has tcpAck = true → AckKept I s hdr) (body : List UInt8) (now : Nat) :
    Returns (s.establishedInput hdr body now) I := by
  rw [establishedInput_eq]
  have hafter : Returns (if hdr.has tcpAck then s.processAck hdr now else some s)
      (fun t => I t ∧ t.state ≠ .synRcvd) := by
    split
    · rename_i hflag
      exact (h.processAck hs (hack hflag) now).and (processAck_open (h.room s hs) hrcvd hdr now).yields
    · exact .pure ⟨hs,hrcvd⟩
  refine Returns.bind hafter fun t ht => ?_
  exact h.frozen ht.1 (streamInput_frozen (h.room t ht.1) ht.2 hdr body now)

theorem synsentInput (hs : I s) (hstate : s.state = .synSent) (hk : InputKept I s hdr body) (now : Nat) :
    Returns (s.synsentInput hdr body now) I := by
  rw [synsentInput_eq]
  split
  · rename_i hflags
    simp only [and_eq_true] at hflags
    split
    · exact .pure hs
    rename_i hack
    have hrcv : (if hdr.wscale.isSome then s.rcvScale else 0) = 0 ∨
        (if hdr.wscale.isSome then s.rcvScale else 0) = s.rcvScale := by
      split
      · exact .inr rfl
      · exact .inl rfl
    generalize (if hdr.wscale.isSome then s.rcvScale else 0) = rcv at hrcv ⊢
    obtain ⟨hopen,hacks⟩ := hk.opens hstate hflags.1 hflags.2 (Classical.not_not.mp hack) rcv hrcv
    refine Returns.bind (emitAck_frozen (h.room _ hopen) []) fun u hfrozen => ?_
    have hkeep := h.rests _ _ hopen hfrozen.rests
    split
    · rename_i hbody
      refine h.establishedInput hkeep ?_ (fun _ => hacks (by simpa using hbody) u hfrozen) body now
      exact fun hrcvd => absurd (hfrozen.synRcvd hrcvd) (by simp [opened])
    · exact .pure hkeep
  rename_i hflags
  split
  · rename_i hsyn
    exact .pure (hk.meets hstate hsyn (by simpa [hsyn] using hflags))
  · exact .pure hs

theorem synrcvdInput (hs : I s) (hstate : s.state = .synRcvd) (hk : InputKept I s hdr body) (now : Nat) :
    Returns (s.synrcvdInput hdr body now) I := by
  unfold TcpSock.synrcvdInput
  split
  · rename_i hacks
    simp only [and_eq_true] at hacks
    obtain ⟨hjoined,hack⟩ := hk.joins hstate hacks.1.1 hacks.1.2 hacks.2
    dsimp only
    split
    · rename_i hbody
      exact h.establishedInput (s := s.joined) hjoined (by simp [TcpSock.joined])
        (fun _ => hack (by simpa using hbody)) body now
    · exact .pure hjoined
  · exact .pure hs

theorem connectedInput (hs : I s) (hk : hdr.has tcpRst = false → InputKept I s hdr body) (now : Nat) :
    Returns (s.connectedInput hdr body now) I := by
  unfold TcpSock.connectedInput
  split
  · refine Returns.bind (rstAcceptable_returns (h.room s hs) hdr) fun ok _ => ?_
    split
    · exact .pure (h.rests _ _ hs (Frozen.rst s _).rests)
    · exact .pure hs
  rename_i hrst
  have hk := hk (by simpa using hrst)
  split
  · rename_i hstate
    exact h.synsentInput hs hstate hk now
  · rename_i hstate
    exact h.synrcvdInput hs hstate hk now
  · rename_i hsent hrcvd
    exact h.establishedInput hs hrcvd (hk.acks hsent hrcvd) body now

end

/-- One event, for an invariant that may speak of what was written. -/
theorem step {I : List UInt8 → TcpSock → Prop} {e : Event} (h : Upheld (I c.sent))
    (hs : I c.sent { c.sock with out := [] })
    (hsend : ∀ data, e = .send data → c.reaped = false → c.sock.canSend = true → data ≠ [] →
      I (c.sent ++ c.accepted data) { c.sock with out := [], tx := c.sock.tx ++ c.accepted data })
    (hpoll : ∀ now, e = .poll now → c.reaped = false → c.sock.resendDue now = true →
      ∀ t, Rests { c.sock with out := [] } t → t.state = c.sock.state → I c.sent t →
        ResendKept q (I c.sent) t)
    (hinput : ∀ hdr body now, e = .input hdr body now → c.reaped = false →
      hdr.has tcpRst = false → InputKept (I c.sent) { c.sock with out := [] } hdr body) :
    ReturnsUnless q (c.step e) (fun d => I d.sent d.sock) := by
  cases hr : c.reaped with
  | true =>
    rw [step_reaped hr]
    exact .inl (.pure hs)
  | false =>
  cases e with
  | send data =>
    refine .inl ?_
    by_cases hcan : c.sock.canSend = true
    · rw [step_send_eq hr hcan]
      refine .pure ?_
      by_cases hdata : data = []
      · simpa [Conn.accepted,hdata] using hs
      · exact hsend data rfl hr hcan hdata
    · have hcan' : canSend { c.sock with out := [] } = false := eq_false_iff.mpr hcan
      refine ⟨{ c with sock := { c.sock with out := [] } },?_,hs⟩
      simp [Conn.step,hr,sendSlice,hcan']
  | recv len =>
    simp only [Conn.step,hr,false_eq_true,if_false]
    refine .inl (Returns.bind (recvSlice_frozen (h.room _ hs) len) fun r hfrozen => .pure ?_)
    exact h.rests _ _ hs hfrozen.rests
  | close =>
    simp only [Conn.step,hr,false_eq_true,if_false]
    exact .inl (.pure (h.rests _ _ hs (close_frozen _).rests))
  | poll now =>
    simp only [Conn.step,hr,false_eq_true,if_false]
    refine ReturnsUnless.bind (h.stepSock hs now (hpoll now rfl hr)) fun t ht => .inl (.pure ?_)
    exact h.rests _ _ ht.1 (expireTimeWait_frozen t now).rests
  | input hdr body now =>
    simp only [Conn.step,hr,false_eq_true,if_false]
    exact .inl (Returns.bind (h.connectedInput hs (hinput hdr body now rfl hr) now) fun t ht => .pure ht)

end Upheld

end PaghOS.Tcp
