import PaghOS.Tcp.SendSide

/-!
The send stream from the handshake on, phase by phase. On the way through
SYN-RCVD the ACK of our SYN does not move `snd_una`: it stays at `iss` until
`process_ack` sees that ACK number again, and until then nothing may be
accepted for sending.
-/

namespace PaghOS.Tcp
open Loop Serial Option List TcpSock Bool

variable {s t : TcpSock} {c : Conn} {cap : Nat} {log : List Segment} {sent : List UInt8}
variable {hdr : TcpHeader} {body : List UInt8} {direct : Prop} {w ack : UInt32}

/-- The first bytes are accepted while `snd_una` still stands before our SYN. -/
def EarlySend (c : Conn) : Event → Prop
  | .send data => c.reaped = false ∧ c.sock.canSend = true ∧ data ≠ [] ∧ c.sent = [] ∧
      c.sock.sndUna = c.sock.iss
  | _ => False

instance (c : Conn) : (e : Event) → Decidable (EarlySend c e)
  | .send _ => inferInstanceAs (Decidable (_ ∧ _))
  | .recv _ | .close | .poll _ | .input _ _ _ => .isFalse id

/-- Nothing was accepted, sent or acknowledged. -/
structure Blank (cap : Nat) (s : TcpSock) : Prop where
  room : s.rx.length ≤ s.rxCap
  scaled : Scaled s
  capEq : s.txCap = cap
  fin : s.finSeq = none
  tx : s.tx = []
  una : s.sndUna = s.iss
  nxt : s.sndNxt = s.iss+1

theorem Blank.quiet (h : Blank cap s) (k : Quiet s t) : Blank cap t where
  room := k.room h.room
  scaled := k.scaled h.scaled
  capEq := k.txCap.trans h.capEq
  fin := k.fin.trans h.fin
  tx := k.tx.trans h.tx
  una := by rw [k.una,k.iss]; exact h.una
  nxt := by rw [k.nxt,k.iss]; exact h.nxt

theorem ahead_succ (a : UInt32) : ahead a (a+1) = 1 :=
  ahead_add_ofNat a (show 1 < 4294967296 by decide)

theorem Blank.outstanding (h : Blank cap s) : s.outstandingData = 1 := by
  have hone : (s.iss+1-s.iss).toNat = 1 := ahead_succ s.iss
  simp only [outstandingData,finPending,h.fin,h.una,h.nxt,hone]
  rfl

theorem Blank.ack_eq (h : Blank cap s) (hlt : seqLt s.sndUna ack = true)
    (hle : seqLe ack s.sndNxt = true) : ack = s.iss+1 := by
  rw [h.una,seqLt_iff] at hlt
  rw [h.nxt,seqLe_iff,ahead_sub s.iss,ahead_succ] at hle
  have hadd := add_ahead s.iss ack
  rw [show ahead s.iss ack = 1 by omega] at hadd
  exact hadd.symm

/-- A half-open socket, or one that still waits for any answer to its SYN. -/
structure Knocking (cap : Nat) (s : TcpSock) : Prop extends Blank cap s where
  ever : s.everEstablished = false
  state : s.state = .synSent ∨ s.state = .synRcvd

/-- Gave up, or was refused, before it was ever established. -/
structure Lost (s : TcpSock) : Prop where
  ever : s.everEstablished = false
  room : s.rx.length ≤ s.rxCap
  state : s.state = .closed

theorem Lost.quiet (h : Lost s) (k : Quiet s t) : Lost t :=
  ⟨k.ever.trans h.ever,k.room h.room,k.closed h.state⟩

/-- Established by way of SYN-RCVD, with our SYN still unacknowledged as far as
`snd_una` tells. No timer runs, so that nothing is resent. -/
structure Fresh (cap : Nat) (s : TcpSock) : Prop extends Blank cap s where
  ever : s.everEstablished = true
  synSent : s.state ≠ .synSent
  synRcvd : s.state ≠ .synRcvd
  rto : s.rtoDeadline = none

theorem Fresh.adjusts (h : Fresh cap s) (k : Adjusts w s t) : Fresh cap t where
  toBlank := h.toBlank.quiet k.toQuiet
  ever := k.ever.trans h.ever
  synSent := fun hs => h.synSent (k.synSent hs)
  synRcvd := fun hs => h.synRcvd (k.synRcvd hs)
  rto := by
    rcases k.idle h.rto with ht | hs | hs
    · exact ht
    · exact absurd hs h.synSent
    · exact absurd hs h.synRcvd

/-- Handshake segments and acknowledgements only. -/
def Bare (log : List Segment) : Prop := ∀ g ∈ log, g.payload = [] ∧ g.flags &&& tcpFin = 0

theorem Quiet.bare (k : Quiet s t) (h : Bare (log ++ s.out)) : Bare (log ++ t.out) := by
  obtain ⟨bare,hout,hbare⟩ := k.out
  intro g hg
  rw [hout,← append_assoc,mem_append] at hg
  rcases hg with hg | hg
  · exact h g hg
  · exact hbare g hg

theorem Live.established {u : TcpSock} (hever : u.everEstablished = true)
    (hroom : u.rx.length ≤ u.rxCap) (hscaled : Scaled u) (hcap : u.txCap = cap)
    (hsent : u.state ≠ .synSent) (hrcvd : u.state ≠ .synRcvd)
    (hfin : u.finSeq = none) (htx : u.tx = []) (huna : u.sndUna = u.iss+1)
    (hnxt : u.sndNxt = u.iss+1) (hout : u.out = [])
    (hlog : ∀ g ∈ log, g.flags &&& tcpFin = 0) : Live cap log [] u := by
  have hseq : u.iss+1 = seqAt u.iss 0 := by simp [seqAt]
  have hlog' : ∀ g ∈ log ++ u.out, g.flags &&& tcpFin = 0 := by simpa [hout] using hlog
  have hnone : u.outstandingData = 0 := outstanding_finAcked (huna.trans hnxt.symm)
  refine ⟨hever,hroom,hscaled,by simp [htx],hcap,hsent,hrcvd,by simp [htx],
    by simp [htx],?_,by simp [hout],by simp [acked,hnone],fun _ => hlog',finLast_of_noFin hlog'⟩
  exact .streaming 0 hfin (Nat.zero_le _) (Nat.zero_le _) (by simpa [acked,htx,hseq] using huna)
    (by simpa [acked,htx,hseq] using hnxt)

theorem Fresh.slide (h : Fresh cap s) (hout : s.out = []) (hlog : Bare log)
    (hack : ack = s.iss+1) : Live cap log [] (s.slide ack) := by
  refine Live.established h.ever h.room h.scaled h.capEq h.synSent h.synRcvd h.fin ?_ hack h.nxt
    hout fun g hg => (hlog g hg).2
  simp [TcpSock.slide,h.tx]

/-- The phases of a connection. A `direct` handshake does not pass through SYN-RCVD. -/
inductive Phase (direct : Prop) (cap : Nat) (log : List Segment) (sent : List UInt8) (s : TcpSock) :
    Prop where
  | knocking (h : Knocking cap s) (hdir : direct → s.state ≠ .synRcvd) (hsent : sent = [])
      (hlog : Bare (log ++ s.out))
  | lost (h : Lost s)
  | fresh (h : Fresh cap s) (hdir : ¬ direct) (hsent : sent = []) (hlog : Bare (log ++ s.out))
  | live (h : Live cap log sent s)

section
variable (h : Phase direct cap log sent s)
include h

theorem Phase.room : s.rx.length ≤ s.rxCap := by
  cases h with
  | knocking h => exact h.room
  | lost h => exact h.room
  | fresh h => exact h.room
  | live h => exact h.room

theorem Phase.adjusts (k : Adjusts w s t) : Phase direct cap log sent t := by
  cases h with
  | knocking h hdir hsent hlog =>
    have hever := k.ever.trans h.ever
    have hstate : (t.state = .synSent ∨ t.state = .synRcvd) ∨ t.state = .closed := by
      rcases h.state with hs | hs
      · exact (k.waiting hs).imp_left .inl
      · exact (k.half hs).imp_left .inr
    rcases hstate with hs | hs
    · exact .knocking ⟨h.toBlank.quiet k.toQuiet,hever,hs⟩ (fun hd ht => hdir hd (k.synRcvd ht)) hsent
        (k.toQuiet.bare hlog)
    · exact .lost ⟨hever,k.room h.room,hs⟩
  | lost h => exact .lost (h.quiet k.toQuiet)
  | fresh h hdir hsent hlog => exact .fresh (h.adjusts k) hdir hsent (k.toQuiet.bare hlog)
  | live h => exact .live (h.quiet k.toQuiet)

theorem Phase.clearOut : Phase direct cap (log ++ s.out) sent { s with out := [] } := by
  cases h with
  | knocking h hdir hsent hlog =>
    exact .knocking ⟨⟨h.room,h.scaled,h.capEq,h.fin,h.tx,h.una,h.nxt⟩,h.ever,h.state⟩ hdir hsent
      (by simpa using hlog)
  | lost h => exact .lost ⟨h.ever,h.room,h.state⟩
  | fresh h hdir hsent hlog =>
    exact .fresh ⟨⟨h.room,h.scaled,h.capEq,h.fin,h.tx,h.una,h.nxt⟩,h.ever,h.synSent,h.synRcvd,h.rto⟩ hdir
      hsent (by simpa using hlog)
  | live h => exact .live h.clearOut

/-- A socket that transmits is live, or has nothing to transmit. -/
theorem Phase.sending (hstate : s.state.sending = true) :
    Live cap log sent s ∨ s.tx = [] ∧ s.outstandingData = 1 := by
  cases h with
  | knocking h => rcases h.state with hs | hs <;> simp [hs,State.sending] at hstate
  | lost h => simp [h.state,State.sending] at hstate
  | fresh h => exact .inr ⟨h.tx,h.outstanding⟩
  | live h => exact .inl h

omit h in
theorem phase_upheld : Upheld (Phase direct cap log sent) where
  room := fun _ h => h.room
  rests := fun _ _ h k => h.adjusts k.toAdjusts
  data := by
    intro s n wnd free d h hstate hpos hn hwnd
    rcases h.sending hstate with hlive | ⟨htx,-⟩
    · exact .live (hlive.data hpos hn hwnd)
    · simp [htx] at hn
      exact absurd hn hpos
  fin := by
    intro s wnd free d h hstate hfin hall
    rcases h.sending hstate with hlive | ⟨htx,hone⟩
    · exact .live (hlive.fin hstate hfin hall)
    · simp [htx,hone] at hall

theorem Phase.ackKept (hout : s.out = []) (hsyn : s.state ≠ .synSent) (hrcvd : s.state ≠ .synRcvd)
    (hhalf : s.everEstablished = true → ¬ (s.sndUna = s.sndNxt ∧ hdr.ack = s.sndUna+2147483648)) :
    AckKept (Phase direct cap log sent) s hdr := by
  have hphase := h
  cases h with
  | knocking h =>
    rcases h.state with hs | hs
    · exact absurd hs hsyn
    · exact absurd hs hrcvd
  | lost h =>
    have hslid : Lost (s.slide hdr.ack) := ⟨h.ever,h.room,h.state⟩
    refine ⟨fun _ _ t ht => .lost (hslid.quiet ht.toQuiet),fun _ t wnd free d ht => ?_,
      fun _ t ht => hphase.adjusts ht⟩
    have hlost := h.quiet ht.toQuiet
    exact .lost ⟨hlost.ever,hlost.room,hlost.state⟩
  | fresh h hdir hsent hlog =>
    subst hsent
    refine ⟨fun hlt hle t ht => .live ?_,fun hdue => absurd hdue.2.2.2.2.2 (by simp [h.tx]),
      fun _ t ht => hphase.adjusts ht⟩
    exact (h.slide hout (by simpa [hout] using hlog) (h.ack_eq hlt hle)).quiet ht.toQuiet
  | live h => exact (h.ackKept (by simp [hout]) (hhalf h.ever)).mono fun _ => .live

theorem Phase.inputKept (hout : s.out = [])
    (hmeet : direct → s.state = .synSent → ¬ (hdr.has tcpSyn = true ∧ hdr.has tcpAck = false))
    (hhalf : s.everEstablished = true → ¬ HalfWrap s hdr) :
    InputKept (Phase direct cap log sent) s hdr body where
  opens := by
    intro hstate _ _ hack rcv _
    cases h with
    | lost h => simp [h.state] at hstate
    | fresh h => exact absurd hstate h.synSent
    | live h => exact absurd hstate h.synSent
    | knocking h hdir hsent hlog =>
      subst hsent
      have hlive : Live cap log [] (s.opened hdr hdr.offeredScale rcv) :=
        Live.established rfl h.room ⟨offeredScale_le hdr,h.scaled.2⟩ h.capEq (by simp [opened])
          (by simp [opened]) h.fin h.tx hack hack hout fun g hg => (hlog g (mem_append_left _ hg)).2
      refine ⟨.live hlive,fun _ u hu => ((hlive.quiet hu.toQuiet).ackKept ?_ ?_).mono fun _ => .live⟩
      · obtain ⟨bare,houts,hnone⟩ := hu.out
        simpa [houts,opened,hout] using fun g hg => (hnone g hg).1
      rintro ⟨-,hfar⟩
      have hself := ahead_self hdr.ack
      rw [show u.sndUna = hdr.ack from hu.una] at hfar
      nth_rewrite 2 [hfar] at hself
      rw [show (2147483648 : UInt32) = UInt32.ofNat 2147483648 from rfl,
        ahead_add_ofNat _ (by decide)] at hself
      cases hself
  meets := by
    intro hstate hsyn hack
    cases h with
    | lost h => simp [h.state] at hstate
    | fresh h => exact absurd hstate h.synSent
    | live h => exact absurd hstate h.synSent
    | knocking h hdir hsent hlog =>
      exact .knocking ⟨⟨h.room,h.scaled,h.capEq,h.fin,h.tx,h.una,h.nxt⟩,h.ever,.inr rfl⟩
        (fun hd => absurd ⟨hsyn,hack⟩ (hmeet hd hstate)) hsent hlog
  joins := by
    intro hstate _ _ _
    cases h with
    | lost h => simp [h.state] at hstate
    | fresh h => exact absurd hstate h.synRcvd
    | live h => exact absurd hstate h.synRcvd
    | knocking h hdir hsent hlog =>
      have hfresh : Phase direct cap log sent s.joined :=
        .fresh ⟨⟨h.room,h.scaled,h.capEq,h.fin,h.tx,h.una,h.nxt⟩,rfl,by simp [joined],
          by simp [joined],rfl⟩ (fun hd => hdir hd hstate) hsent hlog
      refine ⟨hfresh,fun _ => hfresh.ackKept hout (by simp [joined]) (by simp [joined]) fun _ hbad => ?_⟩
      have hone := h.outstanding
      rw [outstanding_finAcked (s := s) hbad.1] at hone
      cases hone
  acks := fun hsyn hrcvd hack => h.ackKept hout hsyn hrcvd fun hever hbad => hhalf hever ⟨hack,hbad⟩

end

/-- An event under which the stream may be expected to hold: nothing is accepted
once the FIN is out, and the handshake is not a simultaneous open. -/
def Admissible (c : Conn) : Event → Prop
  | .send data => c.sock.finSeq = none ∨ ∀ d ∈ c.step (.send data), d.sent = c.sent
  | .input hdr _ _ => ¬ (c.sock.state = .synSent ∧ hdr.has tcpRst = false ∧
      hdr.has tcpSyn = true ∧ hdr.has tcpAck = false)
  | _ => True

instance (c : Conn) (e : Event) : Decidable (Admissible c e) := by
  unfold Admissible
  split <;> infer_instance

/-- The send stream as application and peer see it. -/
structure StreamOk (c : Conn) : Prop where
  unacked : c.sock.tx = c.sent.drop (acked c.sock c.sent)
  una : c.sock.sndUna = seqAt c.sock.iss (acked c.sock c.sent) ∨
    c.sock.finSeq = some (seqAt c.sock.iss c.sent.length) ∧ c.sock.tx = [] ∧
      c.sock.sndUna = seqAt c.sock.iss (c.sent.length+1)
  outstanding : c.sock.outstandingData ≤ c.sock.tx.length
  emitted : ∀ g ∈ c.sock.out, g.payload ≠ [] →
    Carries c.sock.iss c.sent (acked c.sock c.sent) g

theorem cannot_send (h : s.state = .synSent ∨ s.state = .closed) : s.canSend = false := by
  rcases h with hs | hs <;> simp [canSend,maySend,hs]

theorem Unclosed.finSeq {data : List UInt8} (h : Unclosed c (.send data)) (hr : c.reaped = false)
    (hcan : c.sock.canSend = true) (hdata : data ≠ []) : c.sock.finSeq = none := by
  rcases h with h | h
  · exact h
  have hnone := append_right_eq_self.mp (h _ (step_send_eq hr hcan data))
  simp only [canSend,and_eq_true,decide_eq_true_eq] at hcan
  have hlen := congrArg length hnone
  have hpos := length_pos_iff.mpr hdata
  simp only [Conn.accepted,length_take,length_nil] at hlen
  omega

theorem Phase.write {data : List UInt8} (h : Phase direct cap log c.sent { c.sock with out := [] })
    (hopen : Unclosed c (.send data)) (hearly : ¬ direct → ¬ EarlySend c (.send data))
    (hr : c.reaped = false) (hcan : c.sock.canSend = true) (hdata : data ≠ []) :
    Phase direct cap log (c.sent ++ c.accepted data)
      { c.sock with out := [], tx := c.sock.tx ++ c.accepted data } := by
  have hearly : c.sent = [] → c.sock.sndUna = c.sock.iss → direct := by
    intro hsent huna
    exact Classical.not_not.mp fun hd => hearly hd ⟨hr,hcan,hdata,hsent,huna⟩
  cases h with
  | knocking h hdir hsent =>
    rcases h.state with hs | hs
    · simp [cannot_send (s := c.sock) (.inl hs)] at hcan
    · exact absurd hs (hdir (hearly hsent h.una))
  | lost h => simp [cannot_send (s := c.sock) (.inr h.state)] at hcan
  | fresh h hdir hsent => exact absurd (hearly hsent h.una) hdir
  | live h =>
    refine .live (h.write rfl (hopen.finSeq hr hcan hdata) ?_)
    simp only [canSend,and_eq_true,decide_eq_true_eq] at hcan
    simp only [Conn.accepted,length_take]
    omega

theorem Phase.step (h : Phase direct cap log c.sent c.sock) (e : Event) (hadm : direct → Admissible c e)
    (hopen : Unclosed c e) (hearly : ¬ direct → ¬ EarlySend c e) (hhalf : ¬ HalfWrapEvent c e) :
    Returns (c.step e) (fun d => Phase direct cap (log ++ c.sock.out) d.sent d.sock) := by
  refine Or.resolve_right (phase_upheld.step (I := Phase direct cap (log ++ c.sock.out)) h.clearOut ?_ ?_
    ?_) And.right
  · rintro data rfl hr hcan hdata
    exact h.clearOut.write hopen hearly hr hcan hdata
  · rintro now rfl hr hdue t hrest hstate ht
    simp only [resendDue,and_eq_true,decide_eq_true_eq] at hdue
    obtain ⟨⟨hrto,hdata⟩,-⟩ := hdue
    rw [← hstate] at hdata
    cases ht with
    | knocking h => rcases h.state with hs | hs <;> simp [hs,State.isDataState] at hdata
    | lost h => simp [h.state,State.isDataState] at hdata
    | fresh h =>
      refine absurd h.rto (hrest.armed fun hnone => ?_)
      simp [show c.sock.rtoDeadline = none from hnone] at hrto
    | live h => exact h.resendKept.mono fun _ => .live
  · rintro hdr body now rfl hr hrst
    exact h.clearOut.inputKept rfl (fun hd hstate hk => hadm hd ⟨hstate,hrst,hk⟩)
      fun hever hk => hhalf ⟨hr,hever,hrst,hk⟩

theorem Admissible.unclosed {c : Conn} {e : Event} (h : Admissible c e) : Unclosed c e := by
  cases e <;> first | exact h | exact trivial

def SendInv (cap : Nat) (c : Conn) : Prop := ∃ log, Phase True cap log c.sent c.sock

theorem Live.streamOk {c : Conn} (h : Live cap log c.sent c.sock) : StreamOk c where
  unacked := h.suffix
  una := by
    cases h.window with
    | streaming k hfin hk hreach huna hnxt => exact .inl huna
    | finSent hfin hreach huna hnxt => exact .inl huna
    | finAcked hfin htx huna hnxt => exact .inr ⟨hfin,htx,huna⟩
  outstanding := h.outstanding_le
  emitted := h.emitted

theorem SendInv.live (h : SendInv cap c) (hever : c.sock.everEstablished = true) :
    ∃ log, Live cap log c.sent c.sock := by
  obtain ⟨log,h⟩ := h
  cases h with
  | knocking h => simp [h.ever] at hever
  | lost h => simp [h.ever] at hever
  | fresh h hdir => exact absurd trivial hdir
  | live h => exact ⟨log,h⟩

theorem step_sendInv (c : Conn) (e : Event) (h : SendInv cap c) (hadm : Admissible c e)
    (hhalf : ¬ HalfWrapEvent c e) : Returns (c.step e) (SendInv cap) := by
  obtain ⟨log,h⟩ := h
  refine (h.step e (fun _ => hadm) hadm.unclosed ?_ hhalf).mono fun _ hd => ⟨_,hd⟩
  exact fun hd => absurd trivial hd

theorem outstanding_of_halfWrap {ack : UInt32} (hempty : s.sndUna = s.sndNxt)
    (hack : ack = s.sndUna+2147483648) : seqLt s.sndUna ack = true ∧ seqLe ack s.sndNxt = true ∧
      2147483647 ≤ (s.slide ack).outstandingData := by
  have hto : ahead s.sndUna ack = 2147483648 := by
    rw [hack]
    exact ahead_add_ofNat _ (by decide)
  have hback : ahead ack s.sndNxt = 2147483648 := by
    rw [← hempty,ahead_sub s.sndUna,hto,ahead_self]
  refine ⟨by rw [seqLt_iff]; omega,by rw [seqLe_iff]; omega,?_⟩
  have hraw : ((s.slide ack).sndNxt-(s.slide ack).sndUna).toNat = 2147483648 := hback
  simp only [outstandingData,hraw]
  split <;> omega

theorem halfWrap_breaks (hcap : cap < 1073741824) (c : Conn) (e : Event) (h : SendInv cap c)
    (hhalf : HalfWrapEvent c e) :
    ¬ Returns (c.step e) (fun d => d.sock.everEstablished = true → StreamOk d) := by
  cases e with
  | send data | recv len | close | poll now => exact hhalf.elim
  | input hdr body now =>
    obtain ⟨hr,hever,hrst,hflag,hempty,hack⟩ := hhalf
    obtain ⟨log,hlive⟩ := h.live hever
    have hs := hlive.clearOut
    obtain ⟨hlt,hle,hbig⟩ := outstanding_of_halfWrap (s := { c.sock with out := [] }) hempty hack
    have hproc : processAck { c.sock with out := [] } hdr now = some
        ((ackAdvance { c.sock with out := [] } hdr now).finAcked hdr.ack now) := by
      simp [processAck,hlt,hle]
    have hq := (ackAdvance_quiet { c.sock with out := [] } hdr now).trans
      (finAcked_quiet _ hdr.ack now)
    obtain ⟨u,hu,hqu⟩ := streamInput_frozen (hq.room hs.room)
      (fun hk => hlive.synRcvd (hq.synRcvd hk)) hdr body now
    have hq := hq.trans hqu.toQuiet
    have hin : connectedInput { c.sock with out := [] } hdr body now = some u := by
      have hest : establishedInput { c.sock with out := [] } hdr body now = some u := by
        simp only [establishedInput,hflag,if_true,hproc,bind_eq_bind,bind_some]
        exact hu
      simp only [connectedInput,hrst,false_eq_true,if_false]
      split
      · rename_i hsyn
        exact absurd hsyn hlive.synSent
      · rename_i hsyn
        exact absurd hsyn hlive.synRcvd
      · exact hest
    rintro ⟨d,hd,hok⟩
    simp only [Conn.step,hr,false_eq_true,if_false,hin,bind_eq_bind,bind_some,some_inj] at hd
    subst hd
    have hle : u.outstandingData ≤ u.tx.length := (hok (hq.ever.trans hever)).outstanding
    have hbig : 2147483647 ≤ u.outstandingData := by
      rw [hq.outstanding]
      exact hbig
    have htx : u.tx.length ≤ c.sock.tx.length := by
      rw [hq.tx]
      simp [slide]
    have hroom := hlive.txLe
    omega

theorem knocking_open (rxCap txCap : Nat) (iss : UInt32) :
    Knocking txCap (Conn.open rxCap txCap iss).sock where
  room := Nat.zero_le _
  scaled := show (0 : UInt8) ≤ 14 ∧ (4096 : UInt32).toNat ≤ _ by decide
  capEq := rfl
  fin := rfl
  tx := rfl
  una := rfl
  nxt := rfl
  ever := rfl
  state := .inl rfl

theorem sendInv_open (rxCap txCap : Nat) (iss : UInt32) : SendInv txCap (Conn.open rxCap txCap iss) :=
  ⟨[],.knocking (knocking_open rxCap txCap iss) (fun _ => nofun) rfl nofun⟩

/-- Along every admissible run of an actively opened connection the stream is
intact after each event exactly when no segment brings the half-way ACK. -/
theorem sendStream_iff {txCap : Nat} (hcap : txCap < 1073741824) (rxCap : Nat) (iss : UInt32)
    (events : List Event) (hadm : ∀ p e c, p ++ [e] <+: events →
      run Conn.step (Conn.open rxCap txCap iss) p = some c → Admissible c e) :
    (∀ p, p <+: events → Returns (run Conn.step (Conn.open rxCap txCap iss) p)
      (fun c => c.sock.everEstablished = true → StreamOk c)) ↔
    ∀ p e c, p ++ [e] <+: events → run Conn.step (Conn.open rxCap txCap iss) p = some c →
      ¬ HalfWrapEvent c e :=
  run_safe_iff Admissible (fun _ h hever => (h.live hever).choose_spec.streamOk) step_sendInv
    (fun c e h _ hhalf => halfWrap_breaks hcap c e h hhalf) (sendInv_open rxCap txCap iss) events
    hadm

def synAck (iss : UInt32) : TcpHeader := ⟨1000,iss+1,tcpSyn ||| tcpAck,4096,none,none,false,[]⟩

def bareAck (ack : UInt32) : TcpHeader := ⟨1001,ack,tcpAck,4096,none,none,false,[]⟩

/-- A handshake, five bytes, their transmission and their acknowledgement. -/
def shortExchange : List Event :=
  [.poll 0,.input (synAck 7) [] 1,.send [104,101,108,108,111],.poll 2,.input (bareAck 13) [] 3]

theorem sendStream_iff_shortExchange :
    (∀ p, p <+: shortExchange → Returns (run Conn.step (Conn.open 4096 4096 7) p)
      (fun c => c.sock.everEstablished = true → StreamOk c)) ↔
    ∀ p e c, p ++ [e] <+: shortExchange → run Conn.step (Conn.open 4096 4096 7) p = some c →
      ¬ HalfWrapEvent c e :=
  sendStream_iff (by decide) 4096 7 shortExchange
    (Along.at_prefix (by decide +kernel : Along Conn.step Admissible _ _))

/-- Five bytes are buffered and nothing is outstanding when an ACK arrives half
the sequence space away: they are dropped unsent. -/
theorem halfWrap_drops_unsent : (run Conn.step (Conn.open 4096 4096 7) [.poll 0,.input (synAck 7) [] 1,
      .send [104,101,108,108,111],.input (bareAck (8+2147483648)) [] 3]).map
      (fun c => (c.sock.tx,c.sent,c.sock.outstandingData)) =
    some ([],[104,101,108,108,111],2147483648) := by
  decide +kernel

end PaghOS.Tcp
