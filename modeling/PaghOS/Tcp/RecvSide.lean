import PaghOS.Lib.Stream
import PaghOS.Tcp.SendSide

namespace PaghOS.Tcp
open Loop Serial PaghOS.Stream TcpSock

variable {s t u : TcpSock}

theorem finAcked_transmits (s : TcpSock) (ack : UInt32) (now : Nat) : Transmits s (s.finAcked ack now) := by
  unfold finAcked
  dsimp only
  repeat' split
  all_goals rename_i hs
  all_goals first
    | exact .same rfl rfl rfl
    | exact .silent (.of_recvPart rfl (by simp [hs,State.side]) (by simp [hs])) rfl

theorem processAck_transmits (s : TcpSock) (hdr : TcpHeader) (now : Nat) :
    Yields (s.processAck hdr now) (Transmits s) := by
  by_cases hdue : s.fastDue hdr
  · rw [processAck_fast hdue]
    exact (emit_transmits _ _ _ _ _ (.inl rfl)).mono fun t ht => ht.after rfl rfl rfl
  rw [processAck_slow hdue]
  refine .pure (Transmits.trans ?_ (finAcked_transmits _ _ _))
  unfold ackTaken
  split
  · obtain ⟨_,_,_,_,_,_,-,heq⟩ := ackAdvance_eq s hdr now
    rw [heq]
    exact .same rfl rfl rfl
  repeat' split
  all_goals exact .same rfl rfl rfl

theorem processAck_sends (s : TcpSock) (hdr : TcpHeader) (now : Nat) :
    Yields (s.processAck hdr now) (Sends s) :=
  (processAck_transmits s hdr now).mono fun _ h => h.toSends

theorem sendSlice_transmits (s : TcpSock) (data : List UInt8) :
    Yields (s.sendSlice data) (fun r => Transmits s r.1) := by
  unfold sendSlice
  split
  · exact .pure (Transmits.refl s)
  · refine Yields.bind (Yields.any _) fun room _ => .pure (.same rfl rfl rfl)

theorem close_transmits (s : TcpSock) : Transmits s s.close := by
  unfold close
  split
  · exact Transmits.refl s
  · exact .same rfl rfl rfl

theorem room_upheld : Upheld (fun s => s.rx.length ≤ s.rxCap) where
  room := fun _ h => h
  rests := fun _ _ h k => k.room h
  data := fun _ _ _ _ _ h _ _ _ _ => h
  fin := fun _ _ _ _ h _ _ _ => h

theorem room_resendKept (h : s.rx.length ≤ s.rxCap) :
    ResendKept True (fun s => s.rx.length ≤ s.rxCap) s where
  fin := fun _ _ _ _ _ => h
  hole := fun _ _ _ _ _ _ => h
  beyond := fun _ _ _ _ => trivial
  probe := fun _ _ _ _ _ _ _ _ => h

theorem stepSock_transmits (hroom : s.rx.length ≤ s.rxCap) (now : Nat) :
    Yields (s.stepSock now) (Transmits s) :=
  (room_upheld.stepSock hroom now fun _ _ _ _ h => room_resendKept h).yields.mono fun _ h => h.2

theorem expireTimeWait_transmits (s : TcpSock) (now : Nat) : Transmits s (s.expireTimeWait now) := by
  unfold expireTimeWait
  repeat' split
  all_goals first | exact .same rfl rfl rfl | exact .silent (.of_recvPart rfl (.inl rfl) fun _ => rfl) rfl

theorem takeAck_transmits (s : TcpSock) (hdr : TcpHeader) (now : Nat) :
    Yields (if hdr.has tcpAck then s.processAck hdr now else some s) (Transmits s) := by
  split
  · exact processAck_transmits s hdr now
  · exact .pure (Transmits.refl s)

/-- The bytes that fit are appended and the FIN, if there is one, is recorded. -/
def TcpSock.taken (s : TcpSock) (data : List UInt8) (fin : Bool) : TcpSock :=
  let n := min (s.rxCap-s.rx.length) data.length
  if fin then { s with
    rx := s.rx ++ data.take n, rcvNxt := s.rcvNxt+UInt32.ofNat n,
    peerFinSeq := some (s.rcvNxt+UInt32.ofNat data.length), peerFinSeen := true }
  else { s with rx := s.rx ++ data.take n, rcvNxt := s.rcvNxt+UInt32.ofNat n }

/-- An invariant of the receive side that neither sending nor an ACK endangers. -/
structure Receives (I : TcpSock → Prop) : Prop where
  room : ∀ s, I s → s.rx.length ≤ s.rxCap
  sends : ∀ s t, I s → Transmits s t → I t
  ack : ∀ s, I s → Yields (s.emitAck s.ackOptionsWithSack) I

namespace Receives
variable {I : TcpSock → Prop} {body : List UInt8} {fin : Bool}

theorem of_sends (hroom : ∀ s, I s → s.rx.length ≤ s.rxCap) (h : ∀ s t, I s → Sends s t → I t) :
    Receives I :=
  ⟨hroom,fun s t hs k => h s t hs k.toSends,fun s hs => (emit_sends _ _ _ _ _ _).mono fun t => h s t hs⟩

theorem thenAck (h : Receives I) (hs : I s) (owed : Bool) :
    Yields (do let u ← s.emitAck s.ackOptionsWithSack; some (u,owed)) (fun r => I r.1) :=
  Yields.bind (h.ack s hs) fun _ hu => .pure hu

theorem acceptInOrder (h : Receives I) (hs : I s) (htaken : I (s.taken body fin)) (now : Nat) :
    Yields (s.acceptInOrder body fin now) (fun r => I r.1) := by
  unfold TcpSock.acceptInOrder
  unfold TcpSock.taken at htaken
  dsimp only at htaken
  simp only [usub_of_le (h.room s hs),Option.bind_eq_bind,Option.bind_some]
  generalize (if fin = true then _ else _) = u at htaken ⊢
  split
  · have hsame := h.sends _ { u with unackedSegs := 0, lastAckTick := now } htaken (.same rfl rfl rfl)
    exact h.thenAck hsame _
  · exact .pure (h.sends _ _ htaken (.same rfl rfl rfl))

/-- What `accept_stream` takes at once starts at `rcv_nxt`, the old part dropped. -/
theorem acceptStream (h : Receives I) (hs : I s) {seq : UInt32}
    (htaken : seqLt s.rcvNxt seq = false → seq = s.rcvNxt ∨ ahead seq s.rcvNxt < body.length →
      I (s.taken (body.drop (ahead seq s.rcvNxt)) fin))
    (hstore : seqLt s.rcvNxt seq = true → I (s.storeOoo seq body)) (now : Nat) :
    Yields (s.acceptStream seq body fin now) (fun r => I r.1) := by
  unfold TcpSock.acceptStream
  split
  · exact .pure hs
  split
  · rename_i hseq
    subst hseq
    have hself : seqLt s.rcvNxt s.rcvNxt = false := by simp [seqLt]
    exact h.acceptInOrder hs (by simpa using htaken hself (.inl rfl)) now
  split
  · rename_i hfuture
    exact h.thenAck (hstore hfuture) _
  rename_i hpast
  dsimp only
  split
  · rename_i hrel
    exact h.acceptInOrder hs (htaken (by simpa using hpast) (.inr hrel)) now
  · exact h.thenAck hs _

theorem establishedInput {J : TcpSock → Prop} (h : Receives I) (hJ : Receives J) (hs : I s)
    {hdr : TcpHeader} {now : Nat} (hacc : ∀ t, Transmits s t → I t → body ≠ [] ∨ hdr.has tcpFin = true →
      Yields (t.acceptStream hdr.seq body (hdr.has tcpFin) now) (fun r => I r.1))
    (hloop : ∀ t, I t → Yields (t.consumeFinAndOoo now) J) :
    Yields (s.establishedInput hdr body now) J := by
  refine Yields.bind (takeAck_transmits s hdr now) (fun t ht => ?_)
  have hkeep := h.sends s t hs ht
  have hstream : Yields (if !body.isEmpty || hdr.has tcpFin then
      t.acceptStream hdr.seq body (hdr.has tcpFin) now else some (t,false)) (fun r => I r.1) := by
    split
    · rename_i hsome
      exact hacc t ht hkeep (by simpa using hsome)
    · exact .pure hkeep
  refine Yields.bind hstream (fun r hr => Yields.bind (hloop r.1 hr) (fun u hu => ?_))
  split
  · exact hJ.ack u hu
  · exact .pure hu

end Receives

theorem streamInput_idle (hs : s.state = .closed) (hooo : s.ooo = []) (hfin : s.peerFinSeq = none)
    (hdr : TcpHeader) (body : List UInt8) (now : Nat) : s.streamInput hdr body now = some s := by
  have hloop : s.consumeFinAndOoo now = some s := by
    simp [consumeFinAndOoo,consumeLoop,consumeFin,promoteOoo,hfin,hooo]
  have hnothing : (if !body.isEmpty || hdr.has tcpFin then
      s.acceptStream hdr.seq body (hdr.has tcpFin) now else some (s,false)) = some (s,false) := by
    split
    · simp [acceptStream,hs,State.isDataState]
    · rfl
  simp only [streamInput,hnothing,hloop,Option.bind_eq_bind,Option.bind_some,Bool.and_false,
    Bool.false_eq_true,if_false]

end PaghOS.Tcp
