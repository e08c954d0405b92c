import PaghOS.Tcp.PassiveOpen

/-!
The retransmission timer. It is switched off by every new ACK and on again only
while data is outstanding: an ACK of all data that leaves the FIN, or a poll
that may not send what is buffered, leaves a connection with nothing scheduled.
-/

namespace PaghOS.Tcp
open Loop Serial Option TcpSock

/-- The timer runs while something is buffered or the FIN is unacknowledged. -/
def Armed (c : Conn) : Prop :=
  c.reaped = false → c.sock.state.sending = true →
    c.sock.tx ≠ [] ∨ c.sock.finPending = true → c.sock.rtoDeadline ≠ none

/-- A poll that finds the timer off and bytes in the buffer, and may send none
of them: the windows are used up, or all is sent, or the segment size is zero.
If all is sent and a close is asked for, the FIN goes out instead. -/
def Stalled (c : Conn) : Event → Prop
  | .poll _ => c.reaped = false ∧ c.sock.state.sending = true ∧ c.sock.rtoDeadline = none ∧
      c.sock.tx ≠ [] ∧
      ¬ (c.sock.outstandingData < (min c.sock.sndWnd c.sock.cwnd).toNat ∧
        c.sock.outstandingData < c.sock.tx.length ∧ 0 < c.sock.effectiveMss) ∧
      ¬ (c.sock.closeRequested = true ∧ c.sock.finSeq = none ∧ c.sock.outstandingData = c.sock.tx.length)
  | _ => False

def StrandsFin (c : Conn) : Event → Prop
  | .input hdr _ _ => c.reaped = false ∧ hdr.has tcpRst = false ∧ hdr.has tcpAck = true ∧
      seqLt c.sock.sndUna hdr.ack = true ∧ seqLe hdr.ack c.sock.sndNxt = true ∧
      c.sock.finSeq.any (fun f => seqLe hdr.ack f) = true ∧ ahead hdr.ack c.sock.sndNxt ≤ 1
  | _ => False

instance (c : Conn) : (e : Event) → Decidable (Stalled c e)
  | .poll _ => inferInstanceAs (Decidable (_ ∧ _))
  | .send _ | .recv _ | .close | .input _ _ _ => .isFalse id

instance (c : Conn) : (e : Event) → Decidable (StrandsFin c e)
  | .input _ _ _ => inferInstanceAs (Decidable (_ ∧ _))
  | .send _ | .recv _ | .close | .poll _ => .isFalse id

/-- A FIN that is out and unacknowledged keeps the timer running. -/
structure Ticking (s : TcpSock) : Prop where
  room : s.rx.length ≤ s.rxCap
  fin : s.finPending = true → s.rtoDeadline ≠ none
  waiting : s.state = .synSent ∨ s.state = .synRcvd → s.finSeq = none

section Steps
variable {s t : TcpSock}
variable {hdr : TcpHeader} {c : Conn}

theorem Quiet.finPending_eq (k : Quiet s t) : t.finPending = s.finPending := by
  simp [finPending,k.fin,k.una]

theorem Ticking.rests (h : Ticking s) (k : Rests s t) : Ticking t where
  room := k.room h.room
  fin := fun hpend => k.armed (h.fin (by rw [← k.finPending_eq]; exact hpend))
  waiting := by
    intro hs
    rw [k.fin]
    exact h.waiting (hs.imp k.synSent k.synRcvd)

theorem ticking_upheld : Upheld Ticking where
  room := fun _ h => h.room
  rests := fun _ _ h k => h.rests k
  data := fun _ _ _ _ _ h _ _ _ _ => ⟨h.room,nofun,h.waiting⟩
  fin := by
    intro s wnd free d h hstate _ _
    refine ⟨h.room,nofun,fun hs => ?_⟩
    rcases hs with hs | hs
    · exact absurd hs (State.afterFin_ne hstate).1
    · exact absurd hs (State.afterFin_ne hstate).2

theorem armed_upheld : Upheld (fun s => Ticking s ∧ s.rtoDeadline ≠ none) where
  room := fun _ h => h.1.room
  rests := fun _ _ h k => ⟨h.1.rests k,k.armed h.2⟩
  data := fun _ n wnd free d h hstate hpos hn hwnd =>
    ⟨ticking_upheld.data _ n wnd free d h.1 hstate hpos hn hwnd,nofun⟩
  fin := fun _ wnd free d h hstate hfin hall => ⟨ticking_upheld.fin _ wnd free d h.1 hstate hfin hall,nofun⟩

theorem Ticking.resendKept (h : Ticking s) : ResendKept True Ticking s where
  beyond := fun _ _ _ _ => trivial
  fin := fun _ _ _ _ _ => ⟨h.room,h.fin,h.waiting⟩
  hole := fun _ _ _ _ _ _ => ⟨h.room,h.fin,h.waiting⟩
  probe := fun _ _ _ _ _ _ _ _ => ⟨h.room,h.fin,h.waiting⟩

theorem armed_resendKept (h : Ticking s ∧ s.rtoDeadline ≠ none) :
    ResendKept True (fun s => Ticking s ∧ s.rtoDeadline ≠ none) s where
  beyond := fun _ _ _ _ => trivial
  fin := fun _ _ _ _ _ => ⟨⟨h.1.room,h.1.fin,h.1.waiting⟩,h.2⟩
  hole := fun _ _ _ _ _ _ => ⟨⟨h.1.room,h.1.fin,h.1.waiting⟩,h.2⟩
  probe := fun _ _ _ _ _ _ _ _ => ⟨⟨h.1.room,h.1.fin,h.1.waiting⟩,h.2⟩

theorem Slid.strands (h : Slid s hdr t) (hpend : t.finPending = true) (hnone : t.outstandingData = 0) :
    s.finSeq.any (fun f => seqLe hdr.ack f) = true ∧ ahead hdr.ack s.sndNxt ≤ 1 := by
  have hfin : t.finSeq = s.finSeq := h.fin
  have huna : t.sndUna = hdr.ack := h.una
  have hnxt : t.sndNxt = s.sndNxt := h.nxt
  have hraw : (t.sndNxt-t.sndUna).toNat = ahead hdr.ack s.sndNxt := by rw [hnxt,huna]; rfl
  simp only [outstandingData,hpend,if_true,hraw] at hnone
  refine ⟨?_,by omega⟩
  simp only [finPending,hfin,huna] at hpend
  cases hf : s.finSeq with
  | none => simp [hf] at hpend
  | some f => simpa [hf] using hpend

theorem Ticking.ackKept (h : Ticking s)
    (hfree : s.state = .synSent ∨ s.state = .synRcvd → s.finSeq = none)
    (hstrand : ¬ (seqLt s.sndUna hdr.ack = true ∧ seqLe hdr.ack s.sndNxt = true ∧
      s.finSeq.any (fun f => seqLe hdr.ack f) = true ∧ ahead hdr.ack s.sndNxt ≤ 1)) :
    AckKept Ticking s hdr where
  slides := by
    intro hlt hle t ht
    refine ⟨ht.room h.room,fun hpend => ?_,fun hs => ?_⟩
    · refine ht.armed (Nat.pos_of_ne_zero fun hnone => hstrand ⟨hlt,hle,?_⟩)
      exact ht.strands hpend hnone
    · rw [ht.fin]
      exact hfree (hs.imp ht.synSent ht.synRcvd)
  fast := fun _ _ _ _ _ ht => ⟨(h.rests ht).room,nofun,(h.rests ht).waiting⟩
  window := by
    intro _ t ht
    refine ⟨ht.room h.room,fun hpend => ht.armed (h.fin ?_),fun hs => ?_⟩
    · rw [← ht.finPending_eq]
      exact hpend
    · rw [ht.fin]
      exact hfree (hs.imp ht.synSent ht.synRcvd)

theorem Ticking.of_open (hroom : s.rx.length ≤ s.rxCap) (hfin : s.finSeq = none) : Ticking s where
  room := hroom
  fin := fun hpend => absurd hpend (by simp [finPending,hfin])
  waiting := fun _ => hfin

theorem ackKept_open (hroom : s.rx.length ≤ s.rxCap) (hfin : s.finSeq = none) (hdr : TcpHeader) :
    AckKept Ticking s hdr :=
  (Ticking.of_open hroom hfin).ackKept (fun _ => hfin) (by simp [hfin])

theorem Ticking.inputKept (h : Ticking { c.sock with out := [] }) (hr : c.reaped = false)
    {body : List UInt8} {now : Nat} (hrst : hdr.has tcpRst = false)
    (hstrand : ¬ StrandsFin c (.input hdr body now)) :
    InputKept Ticking { c.sock with out := [] } hdr body where
  opens := by
    intro hstate _ _ _ rcv _
    have hfin := h.waiting (.inl hstate)
    refine ⟨.of_open h.room hfin,fun _ u hu => ?_⟩
    exact ackKept_open (hu.room h.room) (hu.fin.trans hfin) hdr
  meets := fun hstate _ _ => .of_open h.room (h.waiting (.inl hstate))
  joins := by
    intro hstate _ _ _
    have hfin := h.waiting (.inr hstate)
    exact ⟨.of_open h.room hfin,fun _ =>
      ackKept_open (s := joined { c.sock with out := [] }) h.room hfin hdr⟩
  acks := fun _ _ hack => h.ackKept h.waiting fun hk => hstrand ⟨hr,hrst,hack,hk⟩

theorem nextTake_pos (hwnd : s.outstandingData < (min s.sndWnd s.cwnd).toNat)
    (hunsent : s.outstandingData < s.tx.length) (hmss : 0 < s.effectiveMss) :
    ∃ n, s.nextTake = some n ∧ n ≠ 0 := by
  unfold nextTake
  dsimp only
  rw [if_neg (by omega),if_neg (by omega),usub_of_le (le_of_lt hwnd)]
  exact ⟨_,rfl,by omega⟩

theorem sendLoop_armed (h : Ticking s) (hstate : s.state.sending = true)
    (hwnd : s.outstandingData < (min s.sndWnd s.cwnd).toNat)
    (hunsent : s.outstandingData < s.tx.length) (hmss : 0 < s.effectiveMss) (now : Nat) :
    Returns (TcpSock.sendLoop now s.tx.length s)
      (fun t => (Ticking t ∧ t.rtoDeadline ≠ none) ∧ t.state = s.state) := by
  obtain ⟨n,htake,hpos⟩ := nextTake_pos hwnd hunsent hmss
  obtain ⟨rounds,hrounds⟩ : ∃ rounds, s.tx.length = rounds+1 := ⟨s.tx.length-1,by omega⟩
  -- whatever went before, the first round ends with arming the timer
  obtain ⟨e,b,wnd,free,d,hdata⟩ := sendData_eq h.room n now
  rw [hrounds]
  simp only [sendLoop,htake,hdata,bind_eq_bind,bind_some,if_neg hpos]
  refine (armed_upheld.sendLoop ?_ ?_ now rounds).mono fun _ ht => ⟨ht.1,ht.2.1⟩
  · exact ⟨⟨h.room,by simp,h.waiting⟩,by simp⟩
  · exact hstate

def Scheduled (s : TcpSock) : Prop :=
  s.state.sending = true → s.tx ≠ [] ∨ s.finPending = true → s.rtoDeadline ≠ none

theorem Ticking.transmit (h : Ticking s) (hsending : s.state.sending = true)
    (hoff : s.rtoDeadline = none) (hgo : s.tx ≠ [] →
      s.outstandingData < (min s.sndWnd s.cwnd).toNat ∧ s.outstandingData < s.tx.length ∧
        0 < s.effectiveMss ∨
      s.closeRequested = true ∧ s.finSeq = none ∧ s.outstandingData = s.tx.length) (now : Nat) :
    Returns (do let t ← TcpSock.sendLoop now s.tx.length s; t.sendFin now) Scheduled := by
  by_cases htx : s.tx = []
  · have hpend : s.finPending = false := by
      rw [← Bool.not_eq_true]
      exact fun hpend => h.fin hpend hoff
    simp only [htx,List.length_nil,sendLoop,bind_eq_bind,bind_some]
    by_cases hready : s.closeRequested = true ∧ s.finSeq = none ∧ s.outstandingData = s.tx.length
    · obtain ⟨wnd,free,d,hsent⟩ := sendFin_eq h.room hready now
      rw [hsent]
      exact .pure fun _ _ => by simp
    · unfold sendFin
      rw [if_neg (by simpa using hready)]
      refine .pure fun _ hwork => ?_
      simp [htx,hpend] at hwork
  · rcases hgo htx with ⟨hwnd,hunsent,hmss⟩ | hready
    · refine Returns.bind (sendLoop_armed h hsending hwnd hunsent hmss now) fun t ht => ?_
      exact (armed_upheld.sendFin ht.1 (ht.2 ▸ hsending) now).mono fun _ hu _ _ => hu.1.2
    -- the buffer is sent, so that the loop does nothing and the FIN goes out
    have hloop : ∀ rounds, sendLoop now rounds s = some s := by
      intro rounds
      cases rounds with
      | zero => rfl
      | succ rounds =>
        have htake : s.nextTake = some 0 := by
          unfold nextTake
          dsimp only
          split
          · rfl
          · rw [if_pos (by omega)]
        simp [sendLoop,htake]
    obtain ⟨wnd,free,d,hsent⟩ := sendFin_eq h.room hready now
    simp only [hloop,hsent,bind_eq_bind,bind_some]
    exact .pure fun _ _ => by simp

theorem Ticking.stepSock_off (h : Ticking s) (hoff : s.rtoDeadline = none)
    (hgo : s.state.sending = true → s.tx ≠ [] →
      s.outstandingData < (min s.sndWnd s.cwnd).toNat ∧ s.outstandingData < s.tx.length ∧
        0 < s.effectiveMss ∨
      s.closeRequested = true ∧ s.finSeq = none ∧ s.outstandingData = s.tx.length) (now : Nat) :
    Yields (s.stepSock now) Scheduled := by
  have htimer : s.timerStep now = some s := by simp [timerStep,hoff]
  unfold stepSock
  rw [htimer]
  refine Yields.bind (Yields.pure (P := (· = s)) rfl) fun v hv => ?_
  subst hv
  refine Yields.bind (tailGuard_frozen now h.room).yields fun u hu => ?_
  refine Yields.bind (windowUpdate_frozen now (hu.1.room h.room)).yields fun t ht => ?_
  have hfrozen := hu.1.trans ht.1
  have hstate := ht.2.2.1.trans hu.2.2.1
  have hclose := ht.2.2.2.trans hu.2.2.2
  have hpart := hfrozen.part
  simp only [peerPart,Prod.mk.injEq] at hpart
  obtain ⟨hwnd,-,-,hmss,hcwnd,-⟩ := hpart
  have hsend : t.state.sending = true →
      Yields (do let u ← sendLoop now t.tx.length t; u.sendFin now) Scheduled := by
    intro hsending
    refine ((h.rests hfrozen.rests).transmit hsending (hfrozen.rto.trans hoff) ?_ now).yields
    rw [hfrozen.tx,hfrozen.outstanding,hwnd,hcwnd,hfrozen.fin,hclose]
    simp only [effectiveMss,hmss]
    exact hgo (by rw [← hstate]; exact hsending)
  have hctrl : t.state.sending = false → Yields (if t.ctrlNeedsSend then do
      let u ← t.emitCtrl
      some (armRtoIfNone { u with ctrlNeedsSend := false } now)
    else some t) Scheduled := by
    intro hidle
    split
    · refine Yields.bind (Yields.any _) fun u _ => ?_
      obtain ⟨d,harm⟩ := armRtoIfNone_eq { u with ctrlNeedsSend := false } now
      rw [harm]
      exact .pure fun _ _ => by simp
    · exact .pure fun hsending => by simp [hidle] at hsending
  split
  case h_1 hs => exact hctrl (by simp [hs,State.sending])
  case h_2 hs => exact hctrl (by simp [hs,State.sending])
  case h_8 =>
    refine .pure fun hsending => ?_
    revert hsending
    cases hs : t.state <;> simp_all [State.sending]
  all_goals
    rename_i hs
    exact hsend (by simp [hs,State.sending])

theorem Ticking.stepSock_on (h : Ticking s) (hon : s.rtoDeadline ≠ none) (now : Nat) :
    Yields (s.stepSock now) Scheduled :=
  (armed_upheld.stepSock ⟨h,hon⟩ now fun _ _ _ _ ht => armed_resendKept ht).yields.mono
    (fun _ ht _ _ => ht.1.2)

theorem Scheduled.expire (h : Scheduled s) (now : Nat) : Scheduled (s.expireTimeWait now) := by
  unfold expireTimeWait
  split
  · rename_i hs
    repeat' split
    all_goals
      intro hsending
      simp [State.sending,hs] at hsending
  · exact h

theorem Ticking.clearOut (h : Ticking s) : Ticking { s with out := [] } := ⟨h.room,h.fin,h.waiting⟩

theorem Ticking.poll (h : Ticking c.sock) {now : Nat} (hstall : ¬ Stalled c (.poll now)) :
    Yields (c.step (.poll now)) Armed := by
  cases hr : c.reaped with
  | true =>
    rw [step_reaped hr]
    exact .pure fun hlive => by simp [hr] at hlive
  | false =>
    have hsock : Yields (stepSock { c.sock with out := [] } now) Scheduled := by
      by_cases hoff : c.sock.rtoDeadline = none
      · refine h.clearOut.stepSock_off hoff (fun hsending htx => ?_) now
        refine Classical.not_not.mp fun hno => hstall ⟨hr,hsending,hoff,htx,?_⟩
        exact not_or.mp hno
      · exact h.clearOut.stepSock_on hoff now
    simp only [Conn.step,hr,Bool.false_eq_true,if_false]
    refine Yields.bind hsock fun t ht => .pure ?_
    exact fun _ => ht.expire now

theorem Ticking.step (h : Ticking c.sock) {e : Event} (hstrand : ¬ StrandsFin c e) :
    Yields (c.step e) (fun d => Ticking d.sock) := by
  have hc := h.clearOut
  refine ReturnsUnless.yields (ticking_upheld.step (I := fun _ => Ticking) hc
    (fun _ _ _ _ _ => ⟨h.room,h.fin,h.waiting⟩) (fun _ _ _ _ t _ _ ht => ht.resendKept) ?_)
  rintro hdr body now rfl hr hrst
  exact Ticking.inputKept hc hr hrst hstrand

end Steps

theorem Starts.ticking {c : Conn} (h : Starts c) : Ticking c.sock := by
  cases h with
  | active rxCap txCap iss =>
    have hk := knocking_open rxCap txCap iss
    exact .of_open hk.room hk.fin
  | passive h =>
    have hk := (listenerInput_knocking h).1
    exact .of_open hk.room hk.fin

/-- However a connection was opened: as long as no ACK stops right before the
FIN, and no poll is kept from sending while the timer is off, every poll leaves
the timer running that work depends on. -/
theorem poll_arms {c : Conn} (hc : Starts c) (events : List Event)
    (hcond : ∀ p e d, p ++ [e] <+: events → run Conn.step c p = some d →
      ¬ StrandsFin d e ∧ ¬ Stalled d e) :
    ∀ p now, p ++ [.poll now] <+: events → Yields (run Conn.step c (p ++ [.poll now])) Armed := by
  intro p now hp
  have hrun := run_yields (fun d e => ¬ StrandsFin d e ∧ ¬ Stalled d e)
    (fun d e (h : Ticking d.sock) hk => h.step hk.1) hc.ticking hcond p
    ((List.prefix_append p _).trans hp)
  cases hd : run Conn.step c p with
  | none =>
    rw [run_append,hd]
    exact Yields.panic
  | some d =>
    rw [run_concat Conn.step hd]
    exact (hrun d hd).poll (hcond p _ d hp hd).2

/-- Two bytes and the FIN go out at once and are acknowledged at once. -/
def promptClose : List Event :=
  [.poll 0,.input (synAck 7) [] 1,.send [104,105],.close,.poll 2,.input (bareAck 11) [] 3,.poll 4]

theorem poll_arms_promptClose : Returns (run Conn.step (Conn.open 4096 4096 7) promptClose) Armed :=
  (poll_arms (.active 4096 4096 7) promptClose
    (Along.at_prefix (by decide +kernel : Along Conn.step
      (fun d e => ¬ StrandsFin d e ∧ ¬ Stalled d e) _ _))
    [.poll 0,.input (synAck 7) [] 1,.send [104,105],.close,.poll 2,.input (bareAck 11) [] 3] 4
    List.prefix_rfl).returns (by decide +kernel)

/-- The peer acknowledges the two bytes but has not seen the FIN: nothing is
scheduled that would send the FIN again. Behind a closed window nothing is
scheduled that would probe it. -/
theorem idle_timer :
    (run Conn.step (Conn.open 4096 4096 7) [.poll 0,.input (synAck 7) [] 1,.send [104,105],.close,
      .poll 2,.input (bareAck 10) [] 3,.poll 4]).map
      (fun c => (c.reaped,c.sock.state,c.sock.finPending,c.sock.rtoDeadline)) =
    some (false,.finWait1,true,none) ∧
    (run Conn.step (Conn.open 4096 4096 7) [.poll 0,.input (synAck 7) [] 1,
      .input { bareAck 8 with window := 0 } [] 2,.send [104],.poll 3]).map
      (fun c => (c.reaped,c.sock.state,c.sock.tx,c.sock.rtoDeadline)) =
    some (false,.established,[104],none) := by
  decide +kernel

end PaghOS.Tcp
