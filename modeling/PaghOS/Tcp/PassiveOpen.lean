import PaghOS.Tcp.SendStream

/-!
The send stream of every connection, however it was opened: also one whose
handshake passes through SYN-RCVD.
-/

namespace PaghOS.Tcp
open Loop Serial Option List TcpSock

variable {c : Conn} {iss ack : UInt32} {x : Traced} {hdr : TcpHeader} {body : List UInt8}

/-- A local open, or the child of a listener. -/
inductive Starts : Conn → Prop where
  | active (rxCap txCap : Nat) (iss : UInt32) : Starts (Conn.open rxCap txCap iss)
  | passive {hdr : TcpHeader} {body : List UInt8} {iss : UInt32} {s : TcpSock}
      (h : listenerInput hdr body iss = some (some s)) : Starts ⟨s,false,[],[]⟩

/-- A connection with everything it emitted so far. -/
structure Traced where
  conn : Conn
  log : List Segment
  deriving DecidableEq

def Traced.start (c : Conn) : Traced := ⟨c,c.sock.out⟩

def Traced.step (x : Traced) (e : Event) : Option Traced := do
  let d ← x.conn.step e
  some ⟨d,x.log ++ d.sock.out⟩

instance (c : Conn) : (e : Event) → Decidable (HalfWrapEvent c e)
  | .input _ _ _ => inferInstanceAs (Decidable (_ ∧ _ ∧ _ ∧ _ ∧ _ ∧ _))
  | .send _ | .recv _ | .close | .poll _ => .isFalse id

/-- The send stream as application and peer see it. `snd_una` is the first
unacknowledged byte, or one past an acknowledged FIN, or still our SYN. -/
structure DeliveryOk (x : Traced) : Prop where
  unacked : x.conn.sock.tx = x.conn.sent.drop (acked x.conn.sock x.conn.sent)
  una : x.conn.sock.sndUna = seqAt x.conn.sock.iss (acked x.conn.sock x.conn.sent) ∨
    x.conn.sock.finSeq = some (seqAt x.conn.sock.iss x.conn.sent.length) ∧ x.conn.sock.tx = [] ∧
      x.conn.sock.sndUna = seqAt x.conn.sock.iss (x.conn.sent.length+1) ∨
    x.conn.sock.sndUna = x.conn.sock.iss ∧ acked x.conn.sock x.conn.sent = 0
  emitted : ∀ g ∈ x.conn.sock.out, g.payload ≠ [] → Carries x.conn.sock.iss x.conn.sent 0 g
  finLast : FinLast x.conn.sock.iss x.conn.sent x.log

variable {s t : TcpSock} {cap : Nat} {log : List Segment} {sent : List UInt8}

/-- What earlier events emitted is all of the log but the last event's part. -/
def TraceInv (cap : Nat) (x : Traced) : Prop :=
  ∃ log, x.log = log ++ x.conn.sock.out ∧ Phase False cap log x.conn.sent x.conn.sock

theorem TraceInv.step (h : TraceInv cap x) (e : Event) (hopen : Unclosed x.conn e)
    (hearly : ¬ EarlySend x.conn e) (hhalf : ¬ HalfWrapEvent x.conn e) :
    Returns (x.step e) (TraceInv cap) := by
  obtain ⟨log,hlog,hphase⟩ := h
  refine Returns.bind (hphase.step e False.elim hopen (fun _ => hearly) hhalf) fun d hd => .pure ?_
  exact ⟨log ++ x.conn.sock.out,by rw [hlog],hd⟩

theorem Carries.from_start {n : Nat} {g : Segment} (h : Carries iss sent n g) :
    Carries iss sent 0 g := by
  obtain ⟨off,-,hoff⟩ := h
  exact ⟨off,Nat.zero_le _,hoff⟩

theorem TraceInv.deliveryOk (h : TraceInv cap x)
    (hever : x.conn.sock.everEstablished = true) : DeliveryOk x := by
  obtain ⟨log,hlog,hphase⟩ := h
  cases hphase with
  | knocking h => simp [h.ever] at hever
  | lost h => simp [h.ever] at hever
  | fresh h hdir hsent hbare =>
    refine ⟨by simp [h.tx,hsent],.inr (.inr ⟨h.una,by simp [acked,hsent]⟩),?_,?_⟩
    · exact fun g hg hne => absurd (hbare g (mem_append_right _ hg)).1 hne
    · rw [hlog]
      exact finLast_of_noFin fun g hg => (hbare g hg).2
  | live h =>
    have hok := h.streamOk
    refine ⟨hok.unacked,?_,fun g hg hne => (hok.emitted g hg hne).from_start,?_⟩
    · rcases hok.una with huna | huna
      · exact .inl huna
      · exact .inr (.inl huna)
    · rw [hlog]
      exact h.finLast

/-- The child a listener makes for a SYN, before the answer goes out. -/
def TcpSock.answering (hdr : TcpHeader) (iss : UInt32) : TcpSock :=
  { TcpSock.newChild hdr.seq iss with
    peerMss := hdr.mss.getD defaultPeerMss, sackOk := true && hdr.sackPermitted,
    sndScale := hdr.offeredScale }

theorem listenerInput_emits
    (h : listenerInput hdr body iss = some (some s)) : (TcpSock.answering hdr iss).emit iss
      (hdr.seq+1) (tcpSyn ||| tcpAck) (ctrlOptions (offerScale 4096)) [] = some s := by
  unfold listenerInput at h
  split at h
  · simp at h
  simp only [bind_eq_bind,bind_eq_some_iff] at h
  obtain ⟨t,ht,h⟩ := h
  obtain rfl := some.inj (some.inj h)
  unfold answering TcpHeader.offeredScale
  cases hw : hdr.wscale <;> simp only [hw] at ht ⊢ <;> exact ht

theorem listenerInput_knocking
    (h : listenerInput hdr body iss = some (some s)) : Knocking 4096 s ∧ Bare s.out := by
  have hs := listenerInput_emits h
  have hroom : (answering hdr iss).rx.length ≤ (answering hdr iss).rxCap :=
    Nat.zero_le _
  obtain ⟨wnd,free,hemit⟩ := emit_eq hroom iss (hdr.seq+1) (tcpSyn ||| tcpAck)
    (ctrlOptions (offerScale 4096)) []
  obtain rfl := some.inj (hemit.symm.trans hs)
  have hscaled : Scaled (answering hdr iss) :=
    ⟨offeredScale_le hdr,show (4096 : UInt32).toNat ≤ _ by decide⟩
  refine ⟨⟨⟨hroom,hscaled,rfl,rfl,rfl,rfl,rfl⟩,rfl,.inr rfl⟩,?_⟩
  have hout : (answering hdr iss).out = [] := rfl
  simp only [output,hout,nil_append,Bare,mem_singleton,forall_eq]
  exact ⟨trivial,by decide⟩

theorem Starts.traceInv (h : Starts c) : ∃ cap, TraceInv cap (Traced.start c) := by
  cases h with
  | active rxCap txCap iss =>
    exact ⟨txCap,[],rfl,.knocking (knocking_open rxCap txCap iss) False.elim rfl nofun⟩
  | passive h =>
    obtain ⟨hk,hbare⟩ := listenerInput_knocking h
    exact ⟨4096,[],rfl,.knocking hk False.elim rfl hbare⟩

/-- However a connection was opened: as long as nothing is accepted for sending
before `snd_una` has left our SYN, and no half-way ACK arrives, the stream goes
out as the application wrote it, all of it before the FIN. -/
theorem delivery_of_late_send {c : Conn} (hc : Starts c) (events : List Event)
    (hcond : ∀ p e x, p ++ [e] <+: events → run Traced.step (Traced.start c) p = some x →
      Unclosed x.conn e ∧ ¬ EarlySend x.conn e ∧ ¬ HalfWrapEvent x.conn e) :
    ∀ p, p <+: events → Returns (run Traced.step (Traced.start c) p)
      (fun x => x.conn.sock.everEstablished = true → DeliveryOk x) := by
  obtain ⟨cap,hinv⟩ := hc.traceInv
  exact run_safe (fun x e => Unclosed x.conn e ∧ ¬ EarlySend x.conn e ∧ ¬ HalfWrapEvent x.conn e)
    (fun _ h hever => h.deliveryOk hever) (fun _ e h hk => h.step e hk.1 hk.2.1 hk.2.2) hinv hcond

def bareSyn : TcpHeader := ⟨1000,0,tcpSyn,4096,none,none,false,[]⟩

/-- A child whose first data arrives with the ACK of the handshake answers two
bytes and closes. -/
def requestFirst : List Event :=
  [.poll 0,.input (bareAck 8) [71,69,84] 1,.send [79,75],.poll 2,.close,.poll 3,.input (bareAck 11) [] 4]

def childConn : Conn :=
  ⟨{ TcpSock.newChild 1000 7 with
      lastAdvFree := 4096, out := [⟨7,1001,18,4096,[2,4,5,180,4,2,1,1],[]⟩] },false,[],[]⟩

theorem delivery_of_requestFirst : Returns (run Traced.step (Traced.start childConn) requestFirst)
      (fun x => x.conn.sock.everEstablished = true → DeliveryOk x) :=
  delivery_of_late_send (.passive (show listenerInput bareSyn [] 7 = some (some _) by
    decide +kernel)) requestFirst (Along.at_prefix (by decide +kernel : Along Traced.step
      (fun x e => Unclosed x.conn e ∧ ¬ EarlySend x.conn e ∧ ¬ HalfWrapEvent x.conn e) _ _))
    requestFirst prefix_rfl

/-- Five bytes written right after the handshake: the first segment leaves out
the first of them and carries the others under its sequence number. -/
theorem earlySend_skips_first :
    (run Conn.step childConn [.poll 0,.input (bareAck 8) [] 1,.send [104,101,108,108,111],
      .poll 2]).map (fun c => (c.sock.everEstablished,
        c.sock.out.map (fun g => (g.seq,g.payload)),c.sent)) =
    some (true,[(8,[101,108,108,111])],[104,101,108,108,111]) := by
  decide +kernel

end PaghOS.Tcp
