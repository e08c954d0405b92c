import PaghOS.Tcp.Options
import PaghOS.Tcp.Reachable

/-!
The reset that `TcpTable::input` sends for a segment without a socket, and what
`connected_input` of its receiver makes of it.
-/

namespace PaghOS.Tcp
open Loop Serial Option TcpSock
open Segment hiding ack

def resetReply (hdr : TcpHeader) (body : List UInt8) : Option Segment :=
  if hdr.has tcpRst then none
  else
    let (seq,ack) :=
      if hdr.has tcpAck then (0,hdr.seq)
      else (hdr.ack,hdr.seq+(UInt32.ofNat body.length+(if hdr.has tcpSyn then 1 else 0)))
    some ⟨seq,ack,tcpRst ||| tcpAck,0,[],[]⟩

def State.synchronized : State → Bool
  | .established | .finWait1 | .finWait2 | .closeWait | .lastAck | .closing | .timeWait => true
  | _ => false

def TcpSock.rcvWindow (s : TcpSock) : UInt32 :=
  match s.rcvWndField with
  | some field => field.toUInt32 <<< s.rcvScale.toUInt32
  | none => 0

/-- A segment with ACK of a synchronized socket that can receive, or the SYN of
one that is opening. -/
inductive Sent (s : TcpSock) (g : Segment) : Prop where
  | acks (hstate : s.state.synchronized = true) (hwnd : 0 < s.rcvWindow.toNat)
      (hack : g.flags &&& tcpAck ≠ 0)
  | syn (hstate : s.state = .synSent) {t : TcpSock} (ht : s.emitCtrl = some t)
      (hout : t.out = s.out ++ [g])

section Reply
variable {s : TcpSock} {g r : Segment}

theorem resetReply_ack (hack : g.flags &&& tcpAck ≠ 0)
    (hr : resetReply g.header g.payload = some r) : r = ⟨0,g.seq,tcpRst ||| tcpAck,0,[],[]⟩ := by
  unfold resetReply at hr
  split at hr
  · cases hr
  · have hflag : g.header.has tcpAck = true := by simpa [header_has] using hack
    simp only [hflag,if_true,header_seq] at hr
    exact (some.inj hr).symm

theorem resetReply_syn {t : TcpSock} (hroom : s.rx.length ≤ s.rxCap) (hstate : s.state = .synSent)
    (ht : s.emitCtrl = some t) (hout : t.out = s.out ++ [g]) (hr : resetReply g.header g.payload = some r) :
    r = ⟨0,s.iss+1,tcpRst ||| tcpAck,0,[],[]⟩ := by
  have hg : ∃ wnd, g = ⟨s.iss,0,tcpSyn,wnd,ctrlOptions s.rcvScale,[]⟩ := by
    rw [emitCtrl,if_pos hstate] at ht
    obtain ⟨wnd,free,he⟩ := emit_eq hroom s.iss 0 tcpSyn (ctrlOptions s.rcvScale) []
    obtain rfl := some.inj (ht.symm.trans he)
    exact ⟨wnd,(List.singleton_inj.mp (List.append_cancel_left hout)).symm⟩
  obtain ⟨wnd,rfl⟩ := hg
  simp only [resetReply,header_has,header_ack,header_seq] at hr
  rw [if_neg (by decide),if_neg (by decide),if_pos (by decide)] at hr
  simpa using (some.inj hr).symm

theorem rcvWindow_le (h : Bounded s) : s.rcvWindow.toNat ≤ 1073725440 := by
  obtain ⟨field,hfield⟩ := rcvWndField_isSome h.room
  rw [rcvWindow,hfield]
  exact announced_le field h.scale

theorem zero_in_window_iff (nxt wnd : UInt32) (hpos : 0 < wnd.toNat) (hwnd : wnd.toNat ≤ 1073741824) :
    (!seqLt 0 (nxt-wnd) && seqLt 0 (nxt+wnd)) = true ↔
      nxt.toNat ≤ wnd.toNat ∨ 4294967296 < nxt.toNat+wnd.toNat := by
  have hn := nxt.toNat_lt
  have hzero : ∀ x : UInt32, ahead 0 x = x.toNat := by simp [ahead]
  have hsub : (nxt-wnd).toNat = (4294967296-wnd.toNat+nxt.toNat)%4294967296 := by
    simp [UInt32.toNat_sub]
  have hadd : (nxt+wnd).toNat = (nxt.toNat+wnd.toNat)%4294967296 := by
    simp
  rw [Bool.and_eq_true,Bool.not_eq_true',Bool.eq_false_iff,ne_eq,seqLt_iff,seqLt_iff,hzero,hzero,hsub,hadd]
  omega

theorem reset_has_rst (seq ack : UInt32) :
    (Segment.mk seq ack (tcpRst ||| tcpAck) 0 [] []).header.has tcpRst = true := by
  rw [header_has]
  show ((tcpRst ||| tcpAck) &&& tcpRst != 0) = true
  decide

theorem connectedInput_reset {hdr : TcpHeader} (hrst : hdr.has tcpRst = true) (now : Nat)
    (hlive : s.state ≠ .closed) : Returns (s.connectedInput hdr [] now) (fun t => t.state = .closed) ↔
      s.rstAcceptable hdr = some true := by
  unfold connectedInput
  rw [if_pos hrst]
  cases hacc : s.rstAcceptable hdr with
  | none => simp [Returns]
  | some acc =>
    cases acc with
    | true => simp [Returns]
    | false => simpa [Returns] using hlive

end Reply

/-- Every connection, every segment with an ACK of a synchronized socket and the
SYN of an opening one: the reset that answers it closes the connection exactly if
it is the SYN's, or the receive window reaches the sequence number zero. -/
theorem reset_accepted_iff {c : Conn} (hc : Reachable c) {g r : Segment} (hg : Sent c.sock g)
    (hr : resetReply g.header g.payload = some r) (now : Nat) :
    Returns (c.sock.connectedInput r.header r.payload now) (fun t => t.state = .closed) ↔
      c.sock.state = .synSent ∨ c.sock.rcvNxt.toNat ≤ c.sock.rcvWindow.toNat ∨
        4294967296 < c.sock.rcvNxt.toNat+c.sock.rcvWindow.toNat := by
  have hb := hc.bounded
  cases hg with
  | acks hstate hwnd hack =>
    have hlive : c.sock.state ≠ .closed := by intro h; simp [h,State.synchronized] at hstate
    have hopen : c.sock.state ≠ .synSent := by intro h; simp [h,State.synchronized] at hstate
    obtain rfl := resetReply_ack hack hr
    rw [connectedInput_reset (reset_has_rst _ _) now hlive]
    obtain ⟨field,hfield⟩ := rcvWndField_isSome hb.room
    have hwindow : c.sock.rcvWindow = field.toUInt32 <<< c.sock.rcvScale.toUInt32 := by
      rw [rcvWindow,hfield]
    have hacc := zero_in_window_iff c.sock.rcvNxt c.sock.rcvWindow hwnd
      ((rcvWindow_le hb).trans (by decide))
    rw [hwindow] at hacc ⊢
    unfold rstAcceptable
    rw [if_neg hopen,hfield]
    simp [header_seq,hacc,hopen]
  | syn hstate ht hout =>
    obtain rfl := resetReply_syn hb.room hstate ht hout hr
    rw [connectedInput_reset (reset_has_rst _ _) now (by simp [hstate])]
    simp [rstAcceptable,hstate]

def lowPeer : Conn :=
  (run Conn.step (Conn.open 4096 4096 7) [.poll 0,.input (synAck 7) [] 1]).get (by decide +kernel)

theorem reset_accepted_lowPeer : Returns (lowPeer.sock.connectedInput
      (Segment.mk 0 8 (tcpRst ||| tcpAck) 0 [] []).header [] 2) (fun t => t.state = .closed) :=
  (reset_accepted_iff (c := lowPeer) (g := ⟨8,1001,tcpAck,4096,[],[]⟩)
    (r := ⟨0,8,tcpRst ||| tcpAck,0,[],[]⟩) ⟨_,_,.active 4096 4096 7,(some_get _).symm⟩
    (.acks (by decide +kernel) (by decide +kernel) (by decide)) (by decide +kernel) 2).mpr
    (.inr (.inl (by decide +kernel)))

/-- With a peer that started at a hundred thousand, the answer to the ACK of the
handshake is dropped. -/
theorem reset_ignored : (run Conn.step (Conn.open 4096 4096 7)
      [.poll 0,.input { synAck 7 with seq := 100000 } [] 1]).bind (fun c =>
        c.sock.out.getLast?.bind (fun g => (resetReply g.header g.payload).bind (fun r =>
          (c.sock.connectedInput r.header r.payload 2).map (fun t =>
            (c.sock.rcvWindow,g.flags,r.seq,t.state))))) = some (4096,tcpAck,0,.established) := by
  decide +kernel

end PaghOS.Tcp
