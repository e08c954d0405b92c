import PaghOS.Tcp.SendRules

namespace PaghOS.Tcp
open Loop Serial List Option TcpSock

variable {n m i : Nat} {c : Conn} {g : Segment} {ack : UInt32} {hdr : TcpHeader}

def seqAt (iss : UInt32) (n : Nat) : UInt32 := iss+1+UInt32.ofNat n

theorem ahead_seqAt (iss : UInt32) (hmn : m ≤ n) (hn : n-m < 4294967296) :
    ahead (seqAt iss m) (seqAt iss n) = n-m := by
  have h : seqAt iss n = seqAt iss m+UInt32.ofNat (n-m) := by
    rw [seqAt,seqAt,add_ofNat_add]
    congr 2
    omega
  rw [h,ahead_add_ofNat _ hn]

theorem seqAt_add (iss : UInt32) (m n : Nat) : seqAt iss m+UInt32.ofNat n = seqAt iss (m+n) :=
  add_ofNat_add _ _ _

theorem seqAt_succ (iss : UInt32) (n : Nat) : seqAt iss n+1 = seqAt iss (n+1) := seqAt_add iss n 1

/-- A segment carries the stream from byte `off` on, none of it below `acked`. -/
def Carries (iss : UInt32) (sent : List UInt8) (acked : Nat) (g : Segment) : Prop :=
  ∃ off, acked ≤ off ∧ off+g.payload.length ≤ sent.length ∧ g.seq = seqAt iss off ∧
    g.payload = (sent.drop off).take g.payload.length

/-- Stream bytes the peer has acknowledged: all but those still buffered. -/
def acked (s : TcpSock) (sent : List UInt8) : Nat := sent.length-s.tx.length

/-- The send side as a window over the stream: before the FIN, with the FIN on
the way, and after it was acknowledged. -/
inductive Window (s : TcpSock) (sent : List UInt8) : Prop where
  | streaming (k : Nat) (hfin : s.finSeq = none) (hk : k ≤ s.tx.length)
      (hreach : k ≤ 1073725440) (huna : s.sndUna = seqAt s.iss (acked s sent))
      (hnxt : s.sndNxt = seqAt s.iss (acked s sent+k))
  | finSent (hfin : s.finSeq = some (seqAt s.iss sent.length))
      (hreach : s.tx.length ≤ 1073725440) (huna : s.sndUna = seqAt s.iss (acked s sent))
      (hnxt : s.sndNxt = seqAt s.iss (sent.length+1))
  | finAcked (hfin : s.finSeq = some (seqAt s.iss sent.length)) (htx : s.tx = [])
      (huna : s.sndUna = seqAt s.iss (sent.length+1))
      (hnxt : s.sndNxt = seqAt s.iss (sent.length+1))

/-- Stream byte `i` went out in one of the segments. -/
def Transmitted (iss : UInt32) (sent : List UInt8) (log : List Segment) (i : Nat) : Prop :=
  ∃ g ∈ log, ∃ off, off ≤ i ∧ i < off+g.payload.length ∧ off+g.payload.length ≤ sent.length ∧
    g.seq = seqAt iss off ∧ g.payload = (sent.drop off).take g.payload.length

/-- Wherever a FIN stands in the log, all of the stream stands before it. -/
def FinLast (iss : UInt32) (sent : List UInt8) (log : List Segment) : Prop :=
  ∀ pre g post, log = pre ++ g :: post → g.flags &&& tcpFin ≠ 0 →
    ∀ i < sent.length, Transmitted iss sent pre i

section Log
variable {iss : UInt32} {sent : List UInt8} {log : List Segment}

theorem Transmitted.mono {log' : List Segment} (h : Transmitted iss sent log i)
    (hsub : ∀ g ∈ log, g ∈ log') : Transmitted iss sent log' i := by
  obtain ⟨g,hg,hoff⟩ := h
  exact ⟨g,hsub g hg,hoff⟩

theorem Transmitted.append_sent (h : Transmitted iss sent log i) (more : List UInt8) :
    Transmitted iss (sent ++ more) log i := by
  obtain ⟨g,hg,off,hle,hlt,hin,hseq,hpay⟩ := h
  refine ⟨g,hg,off,hle,hlt,by simp; omega,hseq,?_⟩
  rw [drop_append_of_le_length (by omega),take_append_of_le_length (by simp; omega)]
  exact hpay

theorem finLast_of_noFin (h : ∀ g ∈ log, g.flags &&& tcpFin = 0) : FinLast iss sent log := by
  intro pre g post hlog hfin
  exact absurd (h g (by simp [hlog])) hfin

theorem FinLast.concat (h : FinLast iss sent log)
    (hg : g.flags &&& tcpFin ≠ 0 → ∀ i < sent.length, Transmitted iss sent log i) :
    FinLast iss sent (log ++ [g]) := by
  intro pre g' post hlog hfin
  rcases eq_nil_or_concat post with rfl | ⟨post,last,rfl⟩
  · obtain ⟨rfl,hg'⟩ := append_inj' hlog rfl
    obtain rfl : g = g' := by simpa using hg'
    exact hg hfin
  · rw [concat_eq_append,← cons_append,← append_assoc] at hlog
    exact h pre g' post (append_inj' hlog rfl).1 hfin

theorem FinLast.append_bare (h : FinLast iss sent log) {bare : List Segment}
    (hbare : ∀ g ∈ bare, g.flags &&& tcpFin = 0) : FinLast iss sent (log ++ bare) := by
  induction bare generalizing log with
  | nil => simpa using h
  | cons g bare ih =>
    have hg : g.flags &&& tcpFin = 0 := hbare g (by simp)
    have hrest := ih (h.concat fun hfin => absurd hg hfin) fun k hk => hbare k (by simp [hk])
    simpa using hrest

end Log

/-- An established socket between two operations; `log` is what earlier events
emitted. -/
structure Live (cap : Nat) (log : List Segment) (sent : List UInt8) (s : TcpSock) : Prop where
  ever : s.everEstablished = true
  room : s.rx.length ≤ s.rxCap
  scaled : Scaled s
  txLe : s.tx.length ≤ cap
  capEq : s.txCap = cap
  synSent : s.state ≠ .synSent
  synRcvd : s.state ≠ .synRcvd
  lenLe : s.tx.length ≤ sent.length
  suffix : s.tx = sent.drop (acked s sent)
  window : Window s sent
  emitted : ∀ g ∈ s.out, g.payload ≠ [] → Carries s.iss sent (acked s sent) g
  covered : ∀ i < acked s sent+s.outstandingData, Transmitted s.iss sent (log ++ s.out) i
  noFin : s.finSeq = none → ∀ g ∈ log ++ s.out, g.flags &&& tcpFin = 0
  finLast : FinLast s.iss sent (log ++ s.out)

variable {s t : TcpSock} {cap : Nat} {log : List Segment} {sent : List UInt8}

theorem Quiet.acked_eq (h : Quiet s t) (sent : List UInt8) : acked t sent = acked s sent := by
  rw [acked,acked,h.tx]

theorem Window.congr (h : Window s sent) (htx : t.tx = s.tx) (hfin : t.finSeq = s.finSeq)
    (huna : t.sndUna = s.sndUna) (hnxt : t.sndNxt = s.sndNxt) (hiss : t.iss = s.iss) : Window t sent := by
  have hacked : acked t sent = acked s sent := by rw [acked,acked,htx]
  cases h with
  | streaming k hf hk hreach hu hn =>
    exact .streaming k (by rwa [hfin]) (by rwa [htx]) hreach (by rwa [huna,hiss,hacked])
      (by rwa [hnxt,hiss,hacked])
  | finSent hf hreach hu hn =>
    exact .finSent (by rwa [hfin,hiss]) (by rwa [htx]) (by rwa [huna,hiss,hacked]) (by rwa [hnxt,hiss])
  | finAcked hf hx hu hn =>
    exact .finAcked (by rwa [hfin,hiss]) (by rwa [htx]) (by rwa [huna,hiss]) (by rwa [hnxt,hiss])

section
variable (h : Live cap log sent s)
include h

theorem Live.acked_add : acked s sent+s.tx.length = sent.length := Nat.sub_add_cancel h.lenLe

theorem Live.quiet (k : Quiet s t) : Live cap log sent t where
  ever := k.ever.trans h.ever
  room := k.room h.room
  scaled := k.scaled h.scaled
  txLe := by rw [k.tx]; exact h.txLe
  capEq := k.txCap.trans h.capEq
  synSent := fun hs => h.synSent (k.synSent hs)
  synRcvd := fun hs => h.synRcvd (k.synRcvd hs)
  lenLe := by rw [k.tx]; exact h.lenLe
  suffix := by rw [acked,k.tx]; exact h.suffix
  window := h.window.congr k.tx k.fin k.una k.nxt k.iss
  emitted := by
    intro g hg hne
    obtain ⟨bare,hout,hbare⟩ := k.out
    rw [acked,k.tx,k.iss]
    rw [hout,mem_append] at hg
    rcases hg with hg | hg
    · exact h.emitted g hg hne
    · exact absurd (hbare g hg).1 hne
  covered := by
    intro i hi
    obtain ⟨bare,hout,-⟩ := k.out
    rw [k.acked_eq,k.outstanding] at hi
    rw [k.iss,hout,← append_assoc]
    exact (h.covered i hi).mono fun g hg => mem_append_left _ hg
  noFin := by
    intro hfin g hg
    obtain ⟨bare,hout,hbare⟩ := k.out
    rw [hout,← append_assoc,mem_append] at hg
    rcases hg with hg | hg
    · exact h.noFin (k.fin ▸ hfin) g hg
    · exact (hbare g hg).2
  finLast := by
    obtain ⟨bare,hout,hbare⟩ := k.out
    rw [k.iss,hout,← append_assoc]
    exact h.finLast.append_bare fun g hg => (hbare g hg).2

theorem Live.drop_tx (off : Nat) : s.tx.drop off = sent.drop (acked s sent+off) := by
  rw [← drop_drop,← h.suffix]

theorem Live.carries_tx (off n : Nat) (hoff : off ≤ s.tx.length)
    (ack : UInt32) (flags : UInt8) (wnd : UInt16) (opts : List UInt8) : Carries s.iss sent (acked s sent)
      ⟨seqAt s.iss (acked s sent+off),ack,flags,wnd,opts,(s.tx.drop off).take n⟩ := by
  have hlen := h.acked_add
  refine ⟨acked s sent+off,Nat.le_add_right _ _,?_,rfl,?_⟩
  · simp only [length_take,length_drop]
    omega
  · rw [h.drop_tx]
    simp

omit h in
theorem outstanding_streaming {k : Nat} (hk : k < 4294967296) (hfin : s.finSeq = none)
    (huna : s.sndUna = seqAt s.iss m) (hnxt : s.sndNxt = seqAt s.iss (m+k)) : s.outstandingData = k := by
  simp only [outstandingData,finPending,hfin,huna,hnxt]
  rw [← ahead,ahead_seqAt _ (Nat.le_add_right m k) (by omega)]
  simp

omit h in
theorem outstanding_finSent (hmn : m ≤ n) (hn : n-m < 1073741824)
    (hfin : s.finSeq = some (seqAt s.iss n)) (huna : s.sndUna = seqAt s.iss m)
    (hnxt : s.sndNxt = seqAt s.iss (n+1)) : s.outstandingData = n-m := by
  have hpend : seqLe (seqAt s.iss m) (seqAt s.iss n) = true := by
    rw [seqLe_iff,ahead_seqAt _ hmn (by omega)]
    omega
  simp only [outstandingData,finPending,hfin,huna,hnxt,hpend,if_true]
  rw [← ahead,ahead_seqAt _ (by omega) (by omega)]
  omega

omit h in
theorem outstanding_finAcked (h : s.sndUna = s.sndNxt) : s.outstandingData = 0 := by
  simp [outstandingData,h]

/-- Until the FIN is sent, `sndNxt` stands behind the outstanding bytes; from then on
they are all that is buffered. -/
theorem Live.outstanding_cases : s.finSeq = none ∧ s.outstandingData ≤ s.tx.length ∧
      s.outstandingData ≤ 1073725440 ∧ s.sndUna = seqAt s.iss (acked s sent) ∧
      s.sndNxt = seqAt s.iss (acked s sent+s.outstandingData) ∨
    s.finSeq ≠ none ∧ s.outstandingData = s.tx.length := by
  have hlen := h.acked_add
  cases h.window with
  | streaming k hfin hk hreach huna hnxt =>
    rw [outstanding_streaming (by omega) hfin huna hnxt]
    exact .inl ⟨hfin,hk,hreach,huna,hnxt⟩
  | finSent hfin hreach huna hnxt =>
    rw [outstanding_finSent (by omega) (by omega) hfin huna hnxt]
    exact .inr ⟨by simp [hfin],by omega⟩
  | finAcked hfin htx huna hnxt =>
    exact .inr ⟨by simp [hfin],by rw [outstanding_finAcked (huna.trans hnxt.symm),htx]; rfl⟩

theorem Live.outstanding_le : s.outstandingData ≤ s.tx.length := by
  obtain ⟨-,hle,-⟩ | ⟨-,hall⟩ := h.outstanding_cases
  · exact hle
  · exact le_of_eq hall

theorem Live.una_eq (htx : s.tx ≠ []) : s.sndUna = seqAt s.iss (acked s sent) := by
  cases h.window with
  | streaming k hfin hk hreach huna hnxt => exact huna
  | finSent hfin hreach huna hnxt => exact huna
  | finAcked hfin htx' huna hnxt => exact absurd htx' htx

theorem Live.nxt_eq (hlt : s.outstandingData < s.tx.length) :
    s.finSeq = none ∧ s.sndNxt = seqAt s.iss (acked s sent+s.outstandingData) := by
  obtain ⟨hfin,-,-,-,hnxt⟩ | ⟨-,hall⟩ := h.outstanding_cases
  · exact ⟨hfin,hnxt⟩
  · omega

omit h in
theorem ahead_le_of_valid {una nxt : UInt32} (hn : ahead una nxt = n)
    (hlt : seqLt una ack = true) (hle : seqLe ack nxt = true)
    (hwin : n ≤ 1073741824) (hhalf : ¬ (una = nxt ∧ ack = una+2147483648)) :
    1 ≤ ahead una ack ∧ ahead una ack ≤ n := by
  rw [seqLt_iff] at hlt
  rw [seqLe_iff,ahead_sub una,hn] at hle
  have hpos : n = 0 → ahead una ack ≠ 2147483648 := by
    intro h0 hd
    refine hhalf ⟨(ahead_eq_zero_iff _ _).mp (by omega),?_⟩
    have hadd := add_ahead una ack
    rw [hd] at hadd
    exact hadd.symm
  omega

theorem Live.slide (hbare : ∀ g ∈ s.out, g.payload = [])
    (hlt : seqLt s.sndUna ack = true) (hle : seqLe ack s.sndNxt = true)
    (hhalf : ¬ (s.sndUna = s.sndNxt ∧ ack = s.sndUna+2147483648)) : Live cap log sent (s.slide ack) := by
  have htx := h.txLe
  have hlen := h.acked_add
  have hadd := add_ahead s.sndUna ack
  have hadv : (ack-s.sndUna).toNat = ahead s.sndUna ack := rfl
  -- the acknowledged bytes leave the buffer
  have ha : acked (s.slide ack) sent = acked s sent+min (ahead s.sndUna ack) s.tx.length := by
    simp only [TcpSock.slide,acked,length_drop,hadv] at *
    omega
  have huna' : s.sndUna = seqAt s.iss (acked s sent) → ahead s.sndUna ack ≤ s.tx.length →
      (s.slide ack).sndUna = seqAt s.iss (acked (s.slide ack) sent) := by
    intro huna hle
    rw [ha,Nat.min_eq_left hle,← seqAt_add,← huna,hadd]
    rfl
  have hframe : Window (s.slide ack) sent →
      acked (s.slide ack) sent+(s.slide ack).outstandingData ≤ acked s sent+s.outstandingData →
      Live cap log sent (s.slide ack) := by
    intro hw hcov
    have hle : (s.slide ack).tx.length ≤ s.tx.length := by simp [TcpSock.slide]
    have hsuf : (s.slide ack).tx = sent.drop (acked (s.slide ack) sent) := by
      rw [ha,← drop_drop,← h.suffix]
      rfl
    exact ⟨h.ever,h.room,h.scaled,hle.trans htx,h.capEq,h.synSent,h.synRcvd,hle.trans h.lenLe,hsuf,hw,
      fun g hg hne => absurd (hbare g hg) hne,fun i hi => h.covered i (by omega),h.noFin,h.finLast⟩
  cases h.window with
  | streaming k hfin hk hreach huna hnxt =>
    have hwin : ahead s.sndUna s.sndNxt = k := by
      rw [huna,hnxt,ahead_seqAt _ (by omega) (by omega)]
      omega
    have hd := ahead_le_of_valid hwin hlt hle (by omega) hhalf
    replace huna' := huna' huna (by omega)
    have hk' : k-ahead s.sndUna ack ≤ (s.slide ack).tx.length := by
      simp only [TcpSock.slide,length_drop,hadv]
      omega
    have hnxt' : (s.slide ack).sndNxt =
        seqAt s.iss (acked (s.slide ack) sent+(k-ahead s.sndUna ack)) := by
      refine hnxt.trans (congrArg (seqAt s.iss) ?_)
      omega
    have hk₁ := outstanding_streaming (by omega) hfin huna hnxt
    have hk₂ := outstanding_streaming (s := s.slide ack) (by omega) hfin huna' hnxt'
    exact hframe (.streaming _ hfin hk' (by omega) huna' hnxt') (by omega)
  | finSent hfin hreach huna hnxt =>
    have hwin : ahead s.sndUna s.sndNxt = s.tx.length+1 := by
      rw [huna,hnxt,ahead_seqAt _ (by omega) (by omega)]
      omega
    have hd := ahead_le_of_valid hwin hlt hle (by omega) hhalf
    have hk₁ := outstanding_finSent (by omega) (by omega) hfin huna hnxt
    by_cases hall : ahead s.sndUna ack ≤ s.tx.length
    · replace huna' := huna' huna hall
      have hk₂ := outstanding_finSent (s := s.slide ack) (by omega) (by omega) hfin huna' hnxt
      exact hframe (.finSent hfin (by simp [TcpSock.slide]; omega) huna' hnxt) (by omega)
    · have huna' : (s.slide ack).sndUna = seqAt s.iss (sent.length+1) := by
        rw [show ahead s.sndUna ack = s.tx.length+1 by omega] at hadd
        rw [← hlen,Nat.add_assoc,← seqAt_add,← huna,hadd]
        rfl
      have hk₂ := outstanding_finAcked (s := s.slide ack) (huna'.trans hnxt.symm)
      refine hframe (.finAcked hfin ?_ huna' hnxt) (by omega)
      simp only [TcpSock.slide,hadv]
      rw [Nat.min_eq_right (by omega),drop_length]
  | finAcked hfin htx huna hnxt =>
    have hwin : ahead s.sndUna s.sndNxt = 0 := by rw [huna,hnxt,ahead_self]
    have hd := ahead_le_of_valid hwin hlt hle (by omega) hhalf
    omega

theorem Live.output (free : Nat) (hg : g.payload ≠ [] → Carries s.iss sent (acked s sent) g)
    (hfin : g.flags &&& tcpFin ≠ 0 → s.finSeq ≠ none ∧ s.outstandingData = s.tx.length) :
    Live cap log sent (s.output free g) := by
  have hlen := h.acked_add
  have hout : log ++ (s.output free g).out = log ++ s.out ++ [g] := by simp [TcpSock.output]
  refine ⟨h.ever,h.room,h.scaled,h.txLe,h.capEq,h.synSent,h.synRcvd,h.lenLe,h.suffix,
    h.window.congr rfl rfl rfl rfl rfl,?_,?_,?_,?_⟩
  · intro g' hg' hne
    simp only [TcpSock.output,mem_append,mem_singleton] at hg'
    rcases hg' with hg' | rfl
    · exact h.emitted g' hg' hne
    · exact hg hne
  · intro i hi
    rw [hout]
    exact (h.covered i hi).mono fun _ hk => mem_append_left _ hk
  · intro hnone g' hg'
    rw [hout,mem_append,mem_singleton] at hg'
    rcases hg' with hg' | rfl
    · exact h.noFin hnone g' hg'
    · exact Classical.not_not.mp fun hk => (hfin hk).1 hnone
  · rw [hout]
    exact h.finLast.concat fun hk i hi => h.covered i (by have := (hfin hk).2; omega)

omit h in
/-- The acknowledgement that every comparison takes for a new one although it
lies half the sequence space away: nothing is outstanding and `ack` is
`sndUna + 2^31`. -/
def HalfWrap (s : TcpSock) (hdr : TcpHeader) : Prop :=
  hdr.has tcpAck = true ∧ s.sndUna = s.sndNxt ∧ hdr.ack = s.sndUna+2147483648

theorem Live.ackKept (hbare : ∀ g ∈ s.out, g.payload = [])
    (hhalf : ¬ (s.sndUna = s.sndNxt ∧ hdr.ack = s.sndUna+2147483648)) :
    AckKept (Live cap log sent) s hdr where
  slides := fun hlt hle _ ht => (h.slide hbare hlt hle hhalf).quiet ht.toQuiet
  window := fun _ _ ht => h.quiet ht.toQuiet
  fast := by
    intro _ t wnd free d hq
    have ht : Live cap log sent { t with rtoDeadline := some d } :=
      (h.quiet hq.toQuiet).quiet (Quiet.timers t _ _ _ _ _ _ _ _ _ _ _)
    refine ht.output free (fun hne => ?_) (absurd psh_noFin)
    have hne' : s.tx ≠ [] := by
      intro hnil
      simp [hnil] at hne
    have hcar := ht.carries_tx 0 (min (min s.effectiveMss s.tx.length) 65535) (Nat.zero_le _) s.rcvNxt
      (tcpAck ||| tcpPsh) wnd []
    simp only [acked,hq.iss,hq.tx] at hcar ⊢
    rw [h.una_eq hne']
    simpa [acked] using hcar

omit h in
theorem holeWalk_le (una : UInt32) (total off : Nat) (ranges : List (UInt32 × UInt32))
    (h : holeWalk una total off ranges = some n) : n ≤ total := by
  induction ranges generalizing off with
  | nil =>
    simp only [holeWalk] at h
    split at h <;> simp_all
    omega
  | cons b rest ih =>
    obtain ⟨l,r⟩ := b
    simp only [holeWalk] at h
    split at h
    · simp at h
      omega
    · exact ih _ h

theorem Live.allSent_of_finSeq (hfin : s.finSeq ≠ none) : s.outstandingData = s.tx.length := by
  obtain ⟨hnone,-⟩ | ⟨-,hall⟩ := h.outstanding_cases
  · exact absurd hnone hfin
  · exact hall

theorem Live.resendKept : ResendKept False (Live cap log sent) s where
  fin := by
    intro f wnd free hf _
    refine h.output free (fun hne => absurd rfl hne) fun _ => ⟨by simp [hf],?_⟩
    exact h.allSent_of_finSeq (by simp [hf])
  hole := by
    intro off wnd free hpos hhole hoff
    have hout := h.outstanding_le
    have htx : s.tx ≠ [] := by
      intro hnil
      simp [hnil] at hout
      omega
    refine h.output free (fun _ => ?_) (absurd psh_noFin)
    rw [h.una_eq htx,seqAt_add]
    exact h.carries_tx off _ hoff _ _ _ _
  beyond := by
    intro off _ hhole hoff
    have hle := (holeWalk_le _ _ _ _ hhole).trans h.outstanding_le
    omega
  probe := by
    intro b rest wnd free _ _ _ htx
    refine h.output free (fun _ => ?_) (absurd (rfl : tcpAck &&& tcpFin = 0))
    rw [h.una_eq (by simp [htx])]
    have hcar := h.carries_tx 0 1 (Nat.zero_le _) s.rcvNxt tcpAck wnd []
    simpa [htx] using hcar

theorem Live.advance (hlt : s.outstandingData < s.tx.length)
    (hn : s.outstandingData+n ≤ s.tx.length) (hreach : s.outstandingData+n ≤ 1073725440)
    (hcov : ∀ i, acked s sent+s.outstandingData ≤ i → i < acked s sent+s.outstandingData+n →
      Transmitted s.iss sent (log ++ s.out) i) :
    Live cap log sent { s with sndNxt := s.sndNxt+UInt32.ofNat n } := by
  obtain ⟨hfin,hnxt⟩ := h.nxt_eq hlt
  have huna := h.una_eq (by intro hnil; simp [hnil] at hlt)
  have hnxt' : s.sndNxt+UInt32.ofNat n = seqAt s.iss (acked s sent+(s.outstandingData+n)) := by
    rw [hnxt,seqAt_add,Nat.add_assoc]
  have hout := outstanding_streaming (s := { s with sndNxt := s.sndNxt+UInt32.ofNat n })
    (by omega) hfin huna hnxt'
  refine ⟨h.ever,h.room,h.scaled,h.txLe,h.capEq,h.synSent,h.synRcvd,h.lenLe,h.suffix,
    .streaming (s.outstandingData+n) hfin hn hreach huna hnxt',h.emitted,?_,h.noFin,h.finLast⟩
  intro i hi
  rw [hout] at hi
  change i < acked s sent+(s.outstandingData+n) at hi
  by_cases hold : i < acked s sent+s.outstandingData
  · exact h.covered i hold
  · exact hcov i (by omega) (by omega)

theorem Live.data {wnd : UInt16} {free d : Nat} (hpos : n ≠ 0)
    (hn : n ≤ s.tx.length-s.outstandingData) (hwnd : s.outstandingData+n ≤ s.sndWnd.toNat) :
    Live cap log sent (s.dataOut n wnd free d) := by
  have hlt : s.outstandingData < s.tx.length := by omega
  have hlen := h.acked_add
  obtain ⟨-,hnxt⟩ := h.nxt_eq hlt
  have hcar := h.carries_tx s.outstandingData n (le_of_lt hlt) s.rcvNxt (tcpAck ||| tcpPsh)
    wnd []
  rw [← hnxt] at hcar
  have hout := h.output free (fun _ => hcar) (absurd psh_noFin)
  have hpay : ((s.tx.drop s.outstandingData).take n).length = n := by simp; omega
  have hmore := hout.advance (n := n) hlt (show s.outstandingData+n ≤ s.tx.length by omega)
    (hwnd.trans h.scaled.2) (by
      intro i hlo hhi
      refine ⟨_,mem_append_right _ (mem_append_right _ (mem_singleton_self _)),
        acked s sent+s.outstandingData,hlo,?_,?_,hnxt,?_⟩
      · rw [hpay]; exact hhi
      · rw [hpay]; omega
      · rw [hpay,h.drop_tx])
  exact hmore.quiet (Quiet.timers _ _ _ _ _ _ _ _ _ _ _ _)

theorem Live.finish (hstate : s.state.sending = true) (hnone : s.finSeq = none)
    (hall : s.outstandingData = s.tx.length) : Live cap log sent
      { s with finSeq := some s.sndNxt, sndNxt := s.sndNxt+1, state := s.state.afterFin } := by
  have hlen := h.acked_add
  have hsyn := State.afterFin_ne hstate
  obtain ⟨hfin,-,hreach,huna,hnxt⟩ | ⟨hsome,-⟩ := h.outstanding_cases
  · have hend : s.sndNxt = seqAt s.iss sent.length := by rw [hnxt,hall,hlen]
    have hnxt' : s.sndNxt+1 = seqAt s.iss (sent.length+1) := by rw [hend,seqAt_succ]
    have hout := outstanding_finSent
      (s := { s with finSeq := some s.sndNxt, sndNxt := s.sndNxt+1, state := s.state.afterFin })
      (m := acked s sent) (by omega) (by omega) (congrArg some hend) huna hnxt'
    refine ⟨h.ever,h.room,h.scaled,h.txLe,h.capEq,hsyn.1,hsyn.2,h.lenLe,h.suffix,
      .finSent (congrArg some hend) (by change s.tx.length ≤ _; omega) huna hnxt',h.emitted,?_,
      nofun,h.finLast⟩
    intro i hi
    rw [hout] at hi
    change i < acked s sent+_ at hi
    exact h.covered i (by omega)
  · exact absurd hnone hsome

theorem Live.fin {wnd : UInt16} {free d : Nat} (hstate : s.state.sending = true)
    (hnone : s.finSeq = none) (hall : s.outstandingData = s.tx.length) :
    Live cap log sent (s.finOut wnd free d) := by
  have hfinish := h.finish hstate hnone hall
  have hout := hfinish.output free (g := ⟨s.sndNxt,s.rcvNxt,tcpAck ||| tcpFin,wnd,[],[]⟩)
    (fun hne => absurd rfl hne) fun _ => ⟨nofun,hfinish.allSent_of_finSeq nofun⟩
  exact hout.quiet (Quiet.timers _ _ _ _ _ _ _ _ _ _ _ _)

theorem Live.write (hout : s.out = []) (hfin : s.finSeq = none) {data : List UInt8}
    (hroom : s.tx.length+data.length ≤ s.txCap) :
    Live cap log (sent ++ data) { s with tx := s.tx ++ data } := by
  have hcapEq := h.capEq
  have hlen := h.lenLe
  have hacked : acked { s with tx := s.tx ++ data } (sent ++ data) = acked s sent := by
    simp only [acked,length_append]
    omega
  have hsuf : s.tx ++ data = (sent ++ data).drop (acked s sent) := by
    have hle : acked s sent ≤ sent.length := Nat.sub_le _ _
    rw [drop_append_of_le_length hle,← h.suffix]
  refine ⟨h.ever,h.room,h.scaled,?_,h.capEq,h.synSent,h.synRcvd,?_,?_,?_,?_,?_,h.noFin,?_⟩
  · simp only [length_append]
    omega
  · simp only [length_append]
    omega
  · rw [hacked]
    exact hsuf
  · cases h.window with
    | streaming k _ hk hreach huna hnxt =>
      refine .streaming k hfin (by simp only [length_append]; omega) hreach ?_ ?_
      · rw [hacked]; exact huna
      · rw [hacked]; exact hnxt
    | finSent hfin' => simp [hfin] at hfin'
    | finAcked hfin' => simp [hfin] at hfin'
  · intro g hg
    simp [hout] at hg
  · intro i hi
    rw [hacked] at hi
    exact (h.covered i hi).append_sent _
  · exact finLast_of_noFin (h.noFin hfin)

end

/-- A segment of an established connection whose ACK is half the sequence space
away from an empty window. -/
def HalfWrapEvent (c : Conn) : Event → Prop
  | .input hdr _ _ => c.reaped = false ∧ c.sock.everEstablished = true ∧
      hdr.has tcpRst = false ∧ HalfWrap c.sock hdr
  | _ => False

def Unclosed (c : Conn) : Event → Prop
  | .send data => c.sock.finSeq = none ∨ ∀ d ∈ c.step (.send data), d.sent = c.sent
  | _ => True

instance (c : Conn) : (e : Event) → Decidable (Unclosed c e)
  | .send _ => inferInstanceAs (Decidable (_ ∨ _))
  | .recv _ | .close | .poll _ | .input _ _ _ => .isTrue trivial

theorem Live.clearOut (h : Live cap log sent s) : Live cap (log ++ s.out) sent { s with out := [] } := by
  refine ⟨h.ever,h.room,h.scaled,h.txLe,h.capEq,h.synSent,h.synRcvd,h.lenLe,h.suffix,
    h.window.congr rfl rfl rfl rfl rfl,by simp,?_,?_,?_⟩
  · intro i hi
    rw [append_nil]
    exact h.covered i hi
  · simpa using h.noFin
  · simpa using h.finLast

end PaghOS.Tcp
