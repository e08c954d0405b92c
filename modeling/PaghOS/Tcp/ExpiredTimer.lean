import PaghOS.Tcp.Reachable
import PaghOS.Tcp.RetransmitTimer

/-!
What an expired timer sends. Outside the data states it sends nothing, and in
them it looks for a hole in the data only: a FIN behind data that the peer has
selectively acknowledged is not sent again.
-/

namespace PaghOS.Tcp
open Loop Serial List Option TcpSock

variable {off : Nat} {una : UInt32} {ranges : List (UInt32 × UInt32)}

def covered (una : UInt32) (ranges : List (UInt32 × UInt32)) (i : Nat) : Bool :=
  ranges.any (fun b => ahead una b.1 ≤ i && i < ahead una b.2)

/-- The data byte `i` behind `snd_una` is out, and neither acknowledged nor
covered by a recorded SACK block. -/
def TcpSock.missing (s : TcpSock) (i : Nat) : Bool :=
  i < s.outstandingData && !covered s.sndUna s.sacked i

def TcpSock.finMissing (s : TcpSock) : Bool :=
  s.finPending && !s.finSeq.any (fun f => covered s.sndUna s.sacked (ahead s.sndUna f))

def Lowest (s : TcpSock) (i : Nat) : Prop := s.missing i = true ∧ ∀ j < i, s.missing j = false

/-- One more segment, with the lowest missing byte in its place, or the FIN when
no data is missing. -/
structure Resent (s t : TcpSock) : Prop where
  data : ∀ i, Lowest s i → ∃ g b, t.out = s.out ++ [g] ∧ s.tx[i]? = some b ∧
    g.payload[ahead g.seq (s.sndUna+UInt32.ofNat i)]? = some b
  fin : (∀ i, s.missing i = false) → s.finMissing = true →
    ∃ g, t.out = s.out ++ [g] ∧ s.finSeq = some g.seq ∧ g.flags &&& tcpFin ≠ 0

def reach (una : UInt32) : Nat → List (UInt32 × UInt32) → Nat
  | off, [] => off
  | off, (l,r) :: rest => if ahead una l > off then off else reach una (max (ahead una r) off) rest

theorem covered_of_lt_reach {i : Nat}
    (hoff : off ≤ i) (h : i < reach una off ranges) : covered una ranges i = true := by
  induction ranges generalizing off with
  | nil => exact absurd h (not_lt.mpr hoff)
  | cons b rest ih =>
    unfold reach at h
    split at h
    · exact absurd h (not_lt.mpr hoff)
    rename_i hstart
    simp only [covered,any_cons,Bool.or_eq_true,Bool.and_eq_true,decide_eq_true_eq]
    by_cases hend : i < ahead una b.2
    · exact .inl ⟨by omega,hend⟩
    · exact .inr (ih (by omega) h)

theorem holeWalk_eq {total : Nat}
    (h : reach una off ranges < total) : holeWalk una total off ranges = some (reach una off ranges) := by
  induction ranges generalizing off with
  | nil => simpa [holeWalk,reach] using h
  | cons b rest ih =>
    unfold reach at h ⊢
    unfold holeWalk
    split at h
    · rename_i hgap
      rw [if_pos hgap,if_pos (show (b.1-una).toNat > off from hgap)]
      congr 1
      omega
    · rename_i hgap
      rw [if_neg hgap,if_neg (show ¬ (b.1-una).toNat > off from hgap)]
      exact ih h

section Expiry
variable {s t : TcpSock} {i : Nat}

theorem Lowest.reach_le (h : Lowest s i) : reach s.sndUna 0 s.sacked ≤ i := by
  have hmissing := h.1
  simp only [missing,Bool.and_eq_true,decide_eq_true_eq,Bool.not_eq_true'] at hmissing
  refine Nat.not_lt.mp fun hlt => ?_
  have hcovered := covered_of_lt_reach (Nat.zero_le i) hlt
  rw [hmissing.2] at hcovered
  cases hcovered

theorem Lowest.lt_outstanding (h : Lowest s i) : i < s.outstandingData := by
  have hmissing := h.1
  simp only [missing,Bool.and_eq_true,decide_eq_true_eq] at hmissing
  exact hmissing.1

theorem Lowest.firstHole (h : Lowest s i) : s.firstHole = some (reach s.sndUna 0 s.sacked) :=
  holeWalk_eq (lt_of_le_of_lt h.reach_le h.lt_outstanding)

theorem Lowest.unique {j : Nat} (h : Lowest s i) (k : Lowest s j) : i = j := by
  rcases lt_trichotomy i j with hlt | heq | hgt
  · exact absurd h.1 (by simp [k.2 i hlt])
  · exact heq
  · exact absurd k.1 (by simp [h.2 j hgt])

theorem exists_lowest (h : s.missing i = true) : ∃ j, Lowest s j := by
  have hex : ∃ j, s.missing j = true := ⟨i,h⟩
  refine ⟨Nat.find hex,Nat.find_spec hex,fun j hj => ?_⟩
  simpa using Nat.find_min hex hj

theorem outstanding_lt (s : TcpSock) : s.outstandingData < 4294967296 := by
  have hlt := (s.sndNxt-s.sndUna).toNat_lt
  unfold outstandingData
  dsimp only
  split
  · omega
  · omega

def TcpSock.backedOff (s : TcpSock) (now : Nat) : TcpSock :=
  TcpSock.armRto { s with
    retries := s.retries+1
    rtoMs := min (satMul s.rtoMs 2) rtoMaxMs
    timingEnd := none
    timingStart := none
    ssthresh := s.halvedSsthresh
    cwnd := UInt32.ofNat s.effectiveMss } now

theorem timerStep_fires (hstate : s.state.sending = true) {deadline now : Nat}
    (hdue : s.rtoDeadline = some deadline) (hnow : deadline ≤ now)
    (hretries : s.retries < dataMaxRetries) : s.timerStep now =
      if s.state.isDataState then (s.backedOff now).resend else some (s.backedOff now) := by
  have hwait : ¬ (s.state = .synSent ∨ s.state = .synRcvd) := by
    rintro (hs | hs)
    · simp [hs,State.sending] at hstate
    · simp [hs,State.sending] at hstate
  have hgo : ¬ s.retries+1 > dataMaxRetries := not_lt.mpr hretries
  simp only [timerStep,hdue,ge_iff_le,if_pos hnow,timerExpired,if_neg hwait,if_neg hgo]
  rfl

theorem hole_payload {n : Nat} (hoff : off ≤ i) (hi : i < 4294967296) (tx : List UInt8) :
    ((tx.drop off).take n)[ahead (una+UInt32.ofNat off) (una+UInt32.ofNat i)]? =
      if i-off < n then tx[i]? else none := by
  have hplace : ahead (una+UInt32.ofNat off) (una+UInt32.ofNat i) = i-off := by
    have hsplit : una+UInt32.ofNat i = una+UInt32.ofNat off+UInt32.ofNat (i-off) := by
      rw [add_ofNat_add,Nat.add_sub_cancel' hoff]
    rw [hsplit,ahead_add_ofNat _ (by omega)]
  rw [hplace,List.getElem?_take]
  split
  · rw [List.getElem?_drop,Nat.add_sub_cancel' hoff]
  · rfl

section
variable (hroom : s.rx.length ≤ s.rxCap)
include hroom

theorem resend_hole (hout : 0 < s.outstandingData)
    (hole : s.firstHole = some off) (hoff : off ≤ s.tx.length) : ∃ wnd free, s.resend =
      some (s.output free ⟨s.sndUna+UInt32.ofNat off,s.rcvNxt,tcpAck ||| tcpPsh,wnd,[],
        (s.tx.drop off).take (min s.effectiveMss (s.tx.length-off))⟩) := by
  unfold resend
  rw [if_neg (by omega),if_pos hout,hole]
  simp only [usub_of_le hoff,bind_eq_bind,bind_some]
  exact emit_eq hroom _ _ _ _ _

theorem resend_fin (hout : s.outstandingData = 0) {f : UInt32}
    (hfin : s.finSeq = some f) (hpend : s.finPending = true) : ∃ wnd free, s.resend =
      some (s.output free ⟨f,s.rcvNxt,tcpAck ||| tcpFin,wnd,[],[]⟩) := by
  unfold resend
  rw [if_pos ⟨hout,hpend⟩,hfin]
  exact emit_eq hroom _ _ _ _ _

theorem resend_no_fin (hout : 0 < s.outstandingData) :
    Yields s.resend (fun t => t.out = s.out ∨ ∃ g, t.out = s.out ++ [g] ∧ g.flags &&& tcpFin = 0) := by
  unfold resend
  rw [if_neg (by omega),if_pos hout]
  split
  · rename_i off _
    refine Yields.bind (Yields.any _) fun n _ => ?_
    obtain ⟨wnd,free,he⟩ := emit_eq hroom (s.sndUna+UInt32.ofNat off) s.rcvNxt (tcpAck ||| tcpPsh)
      [] ((s.tx.drop off).take (min s.effectiveMss n))
    rw [he]
    exact .pure (.inr ⟨_,rfl,psh_noFin⟩)
  · exact .pure (.inl rfl)

omit hroom in
theorem not_resent (hwork : (∃ i, s.missing i = true) ∨ s.finMissing = true)
    (hout : t.out = s.out) : ¬ Resent s t := by
  intro h
  have hgrown : ∃ g, t.out = s.out ++ [g] := by
    by_cases hdata : ∃ i, s.missing i = true
    · obtain ⟨i,hi⟩ := hdata
      obtain ⟨j,hj⟩ := exists_lowest hi
      obtain ⟨g,b,hg,-⟩ := h.data j hj
      exact ⟨g,hg⟩
    · have hnone : ∀ i, s.missing i = false := by simpa using hdata
      obtain ⟨g,hg,-⟩ := h.fin hnone (hwork.resolve_left hdata)
      exact ⟨g,hg⟩
  obtain ⟨g,hg⟩ := hgrown
  rw [hout] at hg
  simpa using congrArg List.length hg

theorem resent_fin (hout : s.outstandingData = 0)
    (hfin : s.finMissing = true) : Returns s.resend (Resent s) := by
  simp only [finMissing,Bool.and_eq_true] at hfin
  cases hseq : s.finSeq with
  | none => simp [finPending,hseq] at hfin
  | some f =>
    obtain ⟨wnd,free,he⟩ := resend_fin hroom hout hseq hfin.1
    rw [he]
    refine .pure ⟨fun i hi => ?_,fun _ _ => ⟨_,rfl,hseq,?_⟩⟩
    · exact absurd hi.lt_outstanding (by omega)
    · show (tcpAck ||| tcpFin) &&& tcpFin ≠ 0
      decide

theorem resent_hole (hlow : Lowest s i) (hi : i < s.tx.length)
    (hmss : i < reach s.sndUna 0 s.sacked+s.effectiveMss) : Returns s.resend (Resent s) := by
  have hreach := hlow.reach_le
  have hlt := hlow.lt_outstanding
  obtain ⟨wnd,free,he⟩ := resend_hole hroom (by omega) hlow.firstHole (by omega)
  rw [he]
  refine .pure ⟨fun j hj => ?_,fun hnone => absurd hlow.1 (by simp [hnone i])⟩
  obtain rfl := hlow.unique hj
  obtain ⟨b,hb⟩ : ∃ b, s.tx[i]? = some b := ⟨_,List.getElem?_eq_getElem hi⟩
  refine ⟨_,b,rfl,hb,?_⟩
  rw [hole_payload hreach (hlt.trans (outstanding_lt s)),if_pos (by omega),hb]

theorem Resent.lowest (hout : 0 < s.outstandingData)
    (hwork : (∃ i, s.missing i = true) ∨ s.finMissing = true) (ht : s.resend = some t) (h : Resent s t) :
    ∃ i, Lowest s i ∧ i < s.tx.length ∧ i < reach s.sndUna 0 s.sacked+s.effectiveMss := by
  by_cases hdata : ∃ i, s.missing i = true
  · obtain ⟨j,hj⟩ := hdata
    obtain ⟨i,hlow⟩ := exists_lowest hj
    have hreach := hlow.reach_le
    obtain ⟨g,b,hg,hb,hplace⟩ := h.data i hlow
    have hi : i < s.tx.length := (List.getElem?_eq_some_iff.mp hb).1
    obtain ⟨wnd,free,he⟩ := resend_hole hroom hout hlow.firstHole (by omega)
    obtain rfl := some.inj (ht.symm.trans he)
    obtain rfl := singleton_inj.mp (append_cancel_left hg)
    rw [hole_payload hreach (hlow.lt_outstanding.trans (outstanding_lt s))] at hplace
    split at hplace
    · exact ⟨i,hlow,hi,by omega⟩
    · cases hplace
  · have hnone : ∀ i, s.missing i = false := by simpa using hdata
    obtain ⟨g,hg,-,hfin⟩ := h.fin hnone (hwork.resolve_left hdata)
    rcases resend_no_fin hroom hout t ht with hsame | ⟨g',hg',hnofin⟩
    · exact absurd h (not_resent hwork hsame)
    · obtain rfl := singleton_inj.mp (append_cancel_left (hg.symm.trans hg'))
      exact absurd hnofin hfin

theorem resend_iff (hwork : (∃ i, s.missing i = true) ∨ s.finMissing = true) :
    Returns s.resend (Resent s) ↔ s.outstandingData = 0 ∨ ∃ i, Lowest s i ∧ i < s.tx.length ∧
      i < reach s.sndUna 0 s.sacked+s.effectiveMss := by
  rcases Nat.eq_zero_or_pos s.outstandingData with hout | hout
  · have hnone : ¬ ∃ i, s.missing i = true := by simp [missing,hout]
    exact ⟨fun _ => .inl hout,fun _ => resent_fin hroom hout (hwork.resolve_left hnone)⟩
  constructor
  · rintro ⟨t,ht,h⟩
    exact .inr (h.lowest hroom hout hwork ht)
  · rintro (hzero | ⟨i,hlow,hi,hmss⟩)
    · omega
    · exact resent_hole hroom hlow hi hmss

end

end Expiry

/-- For every connection whose timer fires below the retry limit while something
sent is missing: it is resent exactly in the data states, and there if only the
FIN is out, or if the lowest missing byte is in the buffer and within one segment
of the first gap between the SACK ranges taken in their order. -/
theorem expiry_resends_iff {c : Conn} (hc : Reachable c) (hstate : c.sock.state.sending = true)
    {deadline now : Nat} (hdue : c.sock.rtoDeadline = some deadline) (hnow : deadline ≤ now)
    (hretries : c.sock.retries < dataMaxRetries)
    (hwork : (∃ i, c.sock.missing i = true) ∨ c.sock.finMissing = true) :
    Returns (c.sock.timerStep now) (Resent c.sock) ↔
      c.sock.state.isDataState = true ∧ (c.sock.outstandingData = 0 ∨
        ∃ i, Lowest c.sock i ∧ i < c.sock.tx.length ∧
          i < reach c.sock.sndUna 0 c.sock.sacked+c.sock.effectiveMss) := by
  rw [timerStep_fires hstate hdue hnow hretries]
  by_cases hdata : c.sock.state.isDataState = true
  · rw [if_pos hdata]
    have hiff := resend_iff (s := c.sock.backedOff now) hc.bounded.room hwork
    refine Iff.trans ?_ (hiff.trans (by simp only [hdata,true_and]; exact Iff.rfl))
    exact ⟨fun h => h.mono fun _ ht => ⟨ht.data,ht.fin⟩,fun h => h.mono fun _ ht => ⟨ht.data,ht.fin⟩⟩
  rw [if_neg hdata]
  refine ⟨fun h => ?_,fun h => absurd h.1 hdata⟩
  obtain ⟨t,ht,h⟩ := h
  obtain rfl := some.inj ht
  exact absurd h (not_resent hwork rfl)

def gapped : Conn :=
  (run Conn.step (Conn.open 4096 4096 7) [.poll 0,.input (synAck 7) [] 1,.send [104,105,106],
    .poll 2,.input { bareAck 9 with sackBlocks := [(10,11)] } [] 3]).get (by decide +kernel)

theorem gapped_resends : Returns (gapped.sock.timerStep 303) (Resent gapped.sock) :=
  (expiry_resends_iff ⟨_,_,.active 4096 4096 7,(some_get _).symm⟩
    (by decide +kernel : gapped.sock.state.sending = true)
    (by decide +kernel : gapped.sock.rtoDeadline = some 303) (by decide)
    (by decide +kernel) (.inl ⟨0,by decide +kernel⟩)).mpr
    ⟨by decide +kernel,.inr ⟨0,⟨by decide +kernel,nofun⟩,by decide +kernel,by decide +kernel⟩⟩

/-- Both sides close at once and our FIN is lost: the timer that guards it
expires and sends nothing. -/
theorem closing_never_resends :
    (run Conn.step (Conn.open 4096 4096 7) [.poll 0,.input (synAck 7) [] 1,.close,.poll 2,
      .input { bareAck 8 with flags := tcpAck ||| tcpFin } [] 3]).bind
      (fun c => (c.sock.timerStep 302).map (fun t =>
        (c.sock.state,c.sock.finMissing,c.sock.rtoDeadline,t.retries,t.out == c.sock.out))) =
    some (.closing,true,some 302,1,true) := by
  decide +kernel

end PaghOS.Tcp
