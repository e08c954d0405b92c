import PaghOS.Tcp.PassiveOpen
import PaghOS.Tcp.Reassembly

/-!
The receive stream over whole runs. Payload on a segment with SYN is taken one
byte too early, and a FIN is believed although the bytes before it did not all
fit; without these two the reader gets the peer's stream and its end.
-/

namespace PaghOS.Tcp
open Loop Serial PaghOS.Stream Option TcpSock

/-- A SYN with so much payload that some of it lies beyond `rcv_nxt` when the
payload is taken to start at the SYN itself. -/
def LongSyn (c : Conn) : Event → Prop
  | .input hdr body _ => hdr.has tcpRst = false ∧ hdr.has tcpSyn = true ∧
      c.received.length+c.sock.rx.length+1 < body.length
  | _ => False

instance (c : Conn) : (e : Event) → Decidable (LongSyn c e)
  | .input _ _ _ => inferInstanceAs (Decidable (_ ∧ _))
  | .send _ | .recv _ | .close | .poll _ => .isFalse id

/-- A FIN on a segment that reaches `rcv_nxt` and brings more new bytes than
there is room for. -/
def CutFin (c : Conn) : Event → Prop
  | .input hdr body _ => hdr.has tcpRst = false ∧ hdr.has tcpFin = true ∧
      seqLt c.sock.rcvNxt hdr.seq = false ∧
      c.sock.rxCap-c.sock.rx.length < body.length-(c.sock.rcvNxt-hdr.seq).toNat
  | _ => False

instance (c : Conn) : (e : Event) → Decidable (CutFin c e)
  | .input _ _ _ => inferInstanceAs (Decidable (_ ∧ _))
  | .send _ | .recv _ | .close | .poll _ => .isFalse id

def Brought (irs : UInt32) (peer : List UInt8) : Event → Prop
  | .input hdr body _ => Genuine irs peer hdr body
  | _ => True

instance (irs : UInt32) (peer : List UInt8) : (e : Event) → Decidable (Brought irs peer e)
  | .input hdr body _ => inferInstanceAs (Decidable (Genuine irs peer hdr body))
  | .send _ | .recv _ | .close | .poll _ => .isTrue trivial

section Total
variable {s : TcpSock}

theorem room_ackKept (h : s.rx.length ≤ s.rxCap) (hdr : TcpHeader) :
    AckKept (fun s => s.rx.length ≤ s.rxCap) s hdr where
  slides := fun _ _ _ k => k.room h
  fast := fun _ _ _ _ _ k => k.room h
  window := fun _ _ k => k.room h

theorem room_inputKept (h : s.rx.length ≤ s.rxCap) (hdr : TcpHeader) (body : List UInt8) :
    InputKept (fun s => s.rx.length ≤ s.rxCap) s hdr body where
  opens := fun _ _ _ _ _ _ => ⟨h,fun _ _ hu => room_ackKept (hu.room h) hdr⟩
  meets := fun _ _ _ => h
  joins := fun _ _ _ _ => ⟨h,fun _ => room_ackKept (s := s.joined) h hdr⟩
  acks := fun _ _ _ => room_ackKept h hdr

theorem establishedInput_returns (hroom : s.rx.length ≤ s.rxCap) (hopen : s.state ≠ .synRcvd)
    (hdr : TcpHeader) (body : List UInt8) (now : Nat) :
    Returns (s.establishedInput hdr body now) (fun t => t.rx.length ≤ t.rxCap) :=
  room_upheld.establishedInput hroom hopen (fun _ => room_ackKept hroom hdr) body now

/-- Only a poll can panic. -/
theorem step_isSome {c : Conn} (hroom : c.sock.rx.length ≤ c.sock.rxCap) {e : Event}
    (he : ∀ now, e ≠ .poll now) : (c.step e).isSome = true := by
  have hstep := room_upheld.step (q := False) (I := fun _ s => s.rx.length ≤ s.rxCap) (c := c) (e := e)
    hroom (fun _ _ _ _ _ => hroom) (fun now hpoll => absurd hpoll (he now))
    fun hdr body _ _ _ _ => room_inputKept (s := { c.sock with out := [] }) hroom hdr body
  rcases hstep with ⟨d,hd,-⟩ | ⟨-,hq⟩
  · rw [hd]; rfl
  · exact hq.elim

end Total

variable {irs : UInt32} {peer : List UInt8} {fits : Prop}

/-- The receive stream as the reader sees it. `rcv_nxt` counts the SYN, every
byte that went into `rx`, and the FIN once it was taken. Arrivals and reads
never panic. -/
structure RecvOk (irs : UInt32) (peer : List UInt8) (c : Conn) : Prop where
  front : c.received ++ c.sock.rx <+: peer
  room : c.sock.rx.length ≤ c.sock.rxCap
  nxt : c.sock.everEstablished = true ∨ c.sock.state = .synRcvd → c.sock.irs = irs ∧
    c.sock.rcvNxt = irs+1+UInt32.ofNat (c.received.length+c.sock.rx.length)+
      (if c.sock.finTaken then 1 else 0)
  fin : (c.sock.state.side = .past → c.sock.finTaken = true) ∧
    (c.sock.finTaken = true → c.sock.state.side = .past ∨ c.sock.state.side = .off)
  reads : ∀ len, (c.step (.recv len)).isSome = true
  arrivals : ∀ hdr body now, (c.step (.input hdr body now)).isSome = true

theorem Follows.finTaken {received : List UInt8} {s : TcpSock}
    (h : Follows irs peer fits received s) (hsmall : peer.length+2 < 4294967296) :
    s.finTaken = false ∧ s.rcvNxt = seqAt irs (received.length+s.rx.length) ∧ s.state.side ≠ .past ∨
    s.finTaken = true ∧ s.rcvNxt = seqAt irs (received.length+s.rx.length)+1 ∧
      (s.state.side = .past ∨ s.state.side = .off) := by
  have hlen := h.length_le
  have hback : ∀ n, seqAt irs (n+1)-1 = seqAt irs n := by
    intro n
    rw [← seqAt_add]
    exact UInt32.add_sub_cancel _ _
  cases h.place with
  | before hnxt hside =>
    refine .inl ⟨?_,hnxt,hside⟩
    rcases h.fin with hn | hs
    · simp [TcpSock.finTaken,hn]
    have hne : seqAt irs peer.length ≠ s.rcvNxt-1 := by
      intro heq
      have hnext : seqAt irs (peer.length+1) = s.rcvNxt := by
        rw [← seqAt_add,heq]
        exact UInt32.sub_add_cancel _ _
      have := seqAt_inj (by omega) (by omega) (hnext.trans hnxt)
      omega
    simpa [TcpSock.finTaken,hs] using hne
  | after hnxt hfin hall hside =>
    refine .inr ⟨?_,?_,hside⟩
    · simp [TcpSock.finTaken,hfin,hnxt,hback]
    · rw [hall,hnxt,← seqAt_add]
      rfl

theorem Hears.recvOk {c : Conn} (h : Hears irs peer fits c.received c.sock)
    (hsmall : peer.length+2 < 4294967296) : RecvOk irs peer c := by
  rcases h with h | h
  · have hroom : c.sock.rx.length ≤ c.sock.rxCap := by simp [h.rx]
    have hside : c.sock.state.side ≠ .past ∧ c.sock.state ≠ .synRcvd := by
      rcases h.state with hs | hs <;> simp [hs,State.side]
    refine ⟨by simp [h.rx,h.nothing],hroom,?_,⟨fun hp => absurd hp hside.1,?_⟩,
      fun _ => step_isSome hroom (by simp),fun _ _ _ => step_isSome hroom (by simp)⟩
    · rintro (hever | hs)
      · rw [h.ever] at hever; cases hever
      · exact absurd hs hside.2
    · simp [finTaken,h.finSeq]
  · refine ⟨h.front,h.room,fun _ => ⟨h.irsEq,?_⟩,?_,fun _ => step_isSome h.room (by simp),
      fun _ _ _ => step_isSome h.room (by simp)⟩
    · rcases h.finTaken hsmall with ⟨hf,hnxt,-⟩ | ⟨hf,hnxt,-⟩
      · simpa [hf,seqAt] using hnxt
      · simpa [hf,seqAt] using hnxt
    · rcases h.finTaken hsmall with ⟨hf,-,hs⟩ | ⟨hf,-,hs⟩
      · exact ⟨fun hp => absurd hp hs,fun ht => by rw [hf] at ht; cases ht⟩
      · exact ⟨fun _ => hf,fun _ => hs⟩

theorem Hears.eof {c : Conn} (h : Hears irs peer True c.received c.sock)
    (heof : c.sock.eofVisible = true) : c.received = peer := by
  simp only [eofVisible,Bool.and_eq_true,List.isEmpty_iff] at heof
  rcases h with h | h
  · rw [h.finSeen] at heof
    cases heof.1
  have hall := h.seen trivial heof.1
  have hfront := h.front
  rw [heof.2] at hall hfront
  exact (List.append_nil c.received ▸ hfront).eq_of_length (by simpa using hall)

theorem Hears.step {c : Conn} {e : Event} (h : Hears irs peer fits c.received c.sock)
    (hsmall : peer.length+2 < 4294967296) (hgen : Brought irs peer e)
    (hshort : ¬ LongSyn c e) (hwhole : fits → ¬ CutFin c e) :
    Yields (c.step e) (fun d => Hears irs peer fits d.received d.sock) := by
  have hclear : Hears irs peer fits c.received { c.sock with out := [] } :=
    h.sends (.same rfl rfl)
  unfold Conn.step
  dsimp only
  split
  · exact .pure hclear
  cases e with
  | send data =>
    exact Yields.bind (sendSlice_transmits _ data) fun r hr => .pure (hclear.sends hr.toSends)
  | recv len =>
    exact Yields.bind (hclear.recvSlice len) fun r hr => .pure hr
  | close => exact .pure (hclear.sends (close_transmits _).toSends)
  | poll now =>
    refine Yields.bind (stepSock_transmits hclear.room now) fun t ht => .pure ?_
    exact hclear.sends (ht.trans (expireTimeWait_transmits t now)).toSends
  | input hdr body now =>
    refine Yields.bind (hclear.connectedInput hsmall hgen ?_ ?_ now)
      (fun t ht => .pure ht)
    · intro hrst hsyn
      simpa [LongSyn,hrst,hsyn] using hshort
    · intro hf hrst hfin hlt
      simpa [CutFin,hrst,hfin,hlt] using hwhole hf

theorem listenerInput_follows {hdr : TcpHeader} {body : List UInt8} {iss : UInt32} {s : TcpSock}
    (h : listenerInput hdr body iss = some (some s)) : Follows s.irs peer fits [] s ∧ s.state = .synRcvd := by
  have hs := listenerInput_emits h
  have hhalf : State.synRcvd.side ≠ .waiting ∧ State.synRcvd.side ≠ .past := by decide
  have hchild : Follows hdr.seq peer fits [] (answering hdr iss) := by
    refine ⟨rfl,hhalf.1,Nat.zero_le _,List.nil_prefix,.inl rfl,nofun,nofun,.before ?_ hhalf.2⟩
    simp [answering,newChild,newActive,seqAt]
  have hfol := hchild.sends (emit_sends _ _ _ _ _ _ s hs)
  exact ⟨hfol.irsEq.symm ▸ hfol,(emit_state _ _ _ _ _ _ s hs).1⟩

theorem Starts.hears {c : Conn} (h : Starts c) (hirs : c.sock.state = .synRcvd → c.sock.irs = irs) :
    Hears irs peer fits c.received c.sock := by
  cases h with
  | active rxCap txCap iss => exact .inl ⟨.inl rfl,rfl,rfl,rfl,rfl,rfl,rfl⟩
  | passive h =>
    obtain ⟨hfol,hstate⟩ := listenerInput_follows h
    exact .inr (hirs hstate ▸ hfol)

section Runs
variable {c : Conn} {events : List Event}

theorem run_hears (fits : Prop) (hc : Starts c) (hirs : c.sock.state = .synRcvd → c.sock.irs = irs)
    (hsmall : peer.length+2 < 4294967296) (hgen : ∀ e ∈ events, Brought irs peer e)
    (hcond : ∀ p e d, p ++ [e] <+: events → run Conn.step c p = some d →
      ¬ LongSyn d e ∧ (fits → ¬ CutFin d e)) (p : List Event) (hp : p <+: events) :
    Yields (run Conn.step c p) (fun d => Hears irs peer fits d.received d.sock) := by
  refine run_yields (fun d e => Brought irs peer e ∧ ¬ LongSyn d e ∧ (fits → ¬ CutFin d e))
    (fun d e h hk => h.step hsmall hk.1 hk.2.1 hk.2.2) (hc.hears hirs) ?_ p hp
  intro p e d hpe hd
  exact ⟨hgen e (hpe.subset (by simp)),hcond p e d hpe hd⟩

/-- Whatever order the segments arrive in, and however they overlap: the reader
gets the peer's stream, as long as no SYN brings more than a byte too many. -/
theorem recvStream_of_shortSyn (hc : Starts c)
    (hirs : c.sock.state = .synRcvd → c.sock.irs = irs) (hsmall : peer.length < 2147483648)
    (hgen : ∀ e ∈ events, Brought irs peer e)
    (hcond : ∀ p e d, p ++ [e] <+: events → run Conn.step c p = some d → ¬ LongSyn d e) :
    ∀ p, p <+: events → Yields (run Conn.step c p) (RecvOk irs peer) := by
  intro p hp
  refine (run_hears False hc hirs (by omega) hgen ?_ p hp).mono
    (fun d hd => hd.recvOk (by omega))
  exact fun p e d hpe hd => ⟨hcond p e d hpe hd,False.elim⟩

def dataAt (off : UInt32) (flags : UInt8) : TcpHeader :=
  ⟨1001+off,8,flags,4096,none,none,false,[]⟩

/-- Five bytes and the FIN, the end before the beginning and the beginning twice. -/
def shuffledHello : List Event :=
  [.poll 0,.input (synAck 7) [] 1,.input (dataAt 3 tcpAck) [108,111] 2,
    .input (dataAt 0 tcpAck) [104,101,108] 3,.recv 4,
    .input (dataAt 2 (tcpAck ||| tcpFin)) [108,108,111] 4,.recv 9,.input (dataAt 5 (tcpAck ||| tcpFin)) [] 5]

theorem recvStream_of_shuffledHello : (run Conn.step (Conn.open 512 512 7) shuffledHello).isSome = true ∧
      Yields (run Conn.step (Conn.open 512 512 7) shuffledHello) (RecvOk 1000 [104,101,108,108,111]) :=
  ⟨by decide +kernel,
    recvStream_of_shortSyn (.active 512 512 7) nofun (by decide) (by decide +kernel)
      (Along.at_prefix (by decide +kernel : Along Conn.step (fun c e => ¬ LongSyn c e) _ _))
      shuffledHello List.prefix_rfl⟩

def helloOnSyn : List Event := [.poll 0,.input (synAck 7) [104,101,108,108,111] 1]

/-- The first byte is lost and the others move up. -/
theorem helloOnSyn_loses_first : (∀ e ∈ helloOnSyn, Brought 1000 [104,101,108,108,111] e) ∧
    (run Conn.step (Conn.open 512 512 7) helloOnSyn).map (fun c => (c.received ++ c.sock.rx)) =
      some [101,108,108,111] ∧ ¬ [101,108,108,111] <+: [104,101,108,108,111] := by
  decide +kernel

/-- The end of file shows only behind the last byte, as long as in addition no
FIN is believed ahead of bytes that do not fit. -/
theorem eof_of_wholeFin (hc : Starts c)
    (hirs : c.sock.state = .synRcvd → c.sock.irs = irs) (hsmall : peer.length+2 < 4294967296)
    (hgen : ∀ e ∈ events, Brought irs peer e)
    (hcond : ∀ p e d, p ++ [e] <+: events → run Conn.step c p = some d → ¬ LongSyn d e ∧ ¬ CutFin d e) :
    ∀ p, p <+: events → Yields (run Conn.step c p)
      (fun d => d.sock.eofVisible = true → d.received = peer) := by
  intro p hp
  refine (run_hears True hc hirs hsmall hgen ?_ p hp).mono fun d hd => hd.eof
  exact fun p e d hpe hd => ⟨(hcond p e d hpe hd).1,fun _ => (hcond p e d hpe hd).2⟩

theorem eof_of_shuffledHello :
    (run Conn.step (Conn.open 512 512 7) shuffledHello).map (fun d => d.sock.eofVisible) = some true ∧
      Yields (run Conn.step (Conn.open 512 512 7) shuffledHello)
        (fun d => d.sock.eofVisible = true → d.received = [104,101,108,108,111]) :=
  ⟨by decide +kernel,
    eof_of_wholeFin (.active 512 512 7) nofun (by decide)
      (by decide +kernel : ∀ e ∈ shuffledHello, Brought 1000 [104,101,108,108,111] e)
      (Along.at_prefix (by decide +kernel : Along Conn.step
        (fun c e => ¬ LongSyn c e ∧ ¬ CutFin c e) _ _)) shuffledHello List.prefix_rfl⟩

def overfullFin : List Event :=
  [.poll 0,.input (synAck 7) [] 1,.input (dataAt 0 (tcpAck ||| tcpFin)) (List.replicate 513 97) 2,.recv 512]

/-- The end of file shows although the last byte never reached the reader. -/
theorem overfullFin_ends_early : (∀ e ∈ overfullFin, Brought 1000 (List.replicate 513 97) e) ∧
    (run Conn.step (Conn.open 512 512 7) overfullFin).map
      (fun c => (c.sock.eofVisible,c.received.length)) = some (true,512) := by
  decide +kernel

end Runs

end PaghOS.Tcp
