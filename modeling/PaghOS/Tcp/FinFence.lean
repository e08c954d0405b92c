import PaghOS.Tcp.PassiveOpen

/-!
Nothing follows the FIN. The FIN takes the number after the last buffered byte,
and from then on the buffer and the unacknowledged numbers before the FIN shrink
together, so that nothing is left to send. Only a write that is still accepted
afterwards breaks this.
-/

namespace PaghOS.Tcp
open Loop Serial List TcpSock

/-- Every byte of the segment has a number below `f`. -/
def Below (f : UInt32) (g : Segment) : Prop :=
  ∀ i < g.payload.length, seqLt (g.seq+UInt32.ofNat i) f = true

/-- Wherever a FIN stands, the bytes that go out behind it have numbers below it. -/
def FinFenced (log : List Segment) : Prop :=
  ∀ pre g post, log = pre ++ g :: post → g.flags &&& tcpFin ≠ 0 → ∀ k ∈ post, Below g.seq k

/-- After any FIN no byte at or behind its number goes out, and while the FIN is
unacknowledged no more counts as outstanding than stands before it. -/
structure FinalOk (x : Traced) : Prop where
  fenced : FinFenced x.log
  outstanding : ∀ f, x.conn.sock.finSeq = some f → x.conn.sock.finPending = true →
    x.conn.sock.outstandingData ≤ ahead x.conn.sock.sndUna f

def LateSend (c : Conn) : Event → Prop
  | .send data => c.reaped = false ∧ c.sock.canSend = true ∧ data ≠ [] ∧ c.sock.finSeq ≠ none
  | _ => False

instance (c : Conn) : (e : Event) → Decidable (LateSend c e)
  | .send _ => inferInstanceAs (Decidable (_ ∧ _))
  | .recv _ | .close | .poll _ | .input _ _ _ => .isFalse id

section Log
variable {log : List Segment}

theorem finFenced_of_noFin (h : ∀ g ∈ log, g.flags &&& tcpFin = 0) : FinFenced log := by
  intro pre g post hlog hfin
  exact absurd (h g (by simp [hlog])) hfin

theorem FinFenced.concat (h : FinFenced log) {g : Segment}
    (hg : ∀ k ∈ log, k.flags &&& tcpFin ≠ 0 → Below k.seq g) : FinFenced (log ++ [g]) := by
  intro pre k post hlog hfin
  rcases eq_nil_or_concat post with rfl | ⟨post,last,rfl⟩
  · exact nofun
  rw [concat_eq_append,← cons_append,← append_assoc] at hlog
  obtain ⟨hfront,hlast⟩ := append_inj' hlog rfl
  obtain rfl : g = last := by simpa using hlast
  intro m hm
  rw [concat_eq_append,mem_append,mem_singleton] at hm
  rcases hm with hm | rfl
  · exact h pre k post hfront hfin m hm
  · exact hg k (by simp [hfront]) hfin

theorem FinFenced.append_bare (h : FinFenced log) {bare : List Segment}
    (hbare : ∀ g ∈ bare, g.payload = []) : FinFenced (log ++ bare) := by
  induction bare generalizing log with
  | nil => simpa using h
  | cons g bare ih =>
    have hg : g.payload = [] := hbare g (by simp)
    have hnone : ∀ k ∈ log, k.flags &&& tcpFin ≠ 0 → Below k.seq g := by
      intro k _ _ i hi
      simp [hg] at hi
    have hrest := ih (h.concat hnone) fun k hk => hbare k (by simp [hk])
    simpa using hrest

end Log

/-- Where the FIN stands: not sent yet, or with the buffer ending right before
it, or acknowledged so that nothing is buffered. -/
inductive FinPhase (log : List Segment) (s : TcpSock) : Prop where
  | unsent (hfin : s.finSeq = none) (hnone : ∀ g ∈ log ++ s.out, g.flags &&& tcpFin = 0)
      (hreach : ahead s.sndUna s.sndNxt ≤ 2147483648)
  | sent (f : UInt32) (hfin : s.finSeq = some f) (hnxt : s.sndNxt = f+1)
      (hseq : ∀ g ∈ log ++ s.out, g.flags &&& tcpFin ≠ 0 → g.seq = f)
      (hfenced : FinFenced (log ++ s.out))
      (htx : s.tx = [] ∨ ahead s.sndUna f ≤ 2147483648 ∧ s.tx.length = ahead s.sndUna f)

structure Fence (log : List Segment) (s : TcpSock) : Prop where
  room : s.rx.length ≤ s.rxCap
  scaled : Scaled s
  waiting : s.state = .synSent → s.finSeq = none
  phase : FinPhase log s

section Steps
variable {log : List Segment} {s t : TcpSock}
variable {f : UInt32}

theorem Fence.quiet (h : Fence log s) (k : Quiet s t) : Fence log t where
  room := k.room h.room
  scaled := k.scaled h.scaled
  waiting := fun hs => k.fin.trans (h.waiting (k.synSent hs))
  phase := by
    obtain ⟨bare,hout,hbare⟩ := k.out
    cases h.phase with
    | unsent hfin hnone hreach =>
      refine .unsent (k.fin.trans hfin) ?_ (by rw [k.una,k.nxt]; exact hreach)
      intro g hg
      rw [hout,← append_assoc,mem_append] at hg
      rcases hg with hg | hg
      · exact hnone g hg
      · exact (hbare g hg).2
    | sent f hfin hnxt hseq hfenced htx =>
      refine .sent f (k.fin.trans hfin) (k.nxt.trans hnxt) ?_ ?_ (by rw [k.tx,k.una]; exact htx)
      · intro g hg hflag
        rw [hout,← append_assoc,mem_append] at hg
        rcases hg with hg | hg
        · exact hseq g hg hflag
        · exact absurd (hbare g hg).2 hflag
      · rw [hout,← append_assoc]
        exact hfenced.append_bare fun g hg => (hbare g hg).1

theorem ahead_next {a : UInt32} (h : ahead a f ≤ 2147483648) : ahead a (f+1) = ahead a f+1 := by
  have hadd := add_ahead a f
  rw [← hadd,show (1 : UInt32) = UInt32.ofNat 1 from rfl,add_ofNat_add,ahead_add_ofNat _ (by omega),
    ahead_add_ofNat _ (by omega)]

theorem outstanding_of_pending (hfin : s.finSeq = some f) (hnxt : s.sndNxt = f+1)
    (hle : ahead s.sndUna f ≤ 2147483648) : s.outstandingData = ahead s.sndUna f := by
  have hpend : seqLe s.sndUna f = true := (seqLe_iff _ _).mpr hle
  have hraw : (s.sndNxt-s.sndUna).toNat = ahead s.sndUna f+1 := by
    rw [hnxt]
    exact ahead_next hle
  simp [outstandingData,finPending,hfin,hpend,hraw]

theorem outstanding_of_unsent (hfin : s.finSeq = none) :
    s.outstandingData = ahead s.sndUna s.sndNxt := by
  simp only [outstandingData,finPending,hfin]
  rfl

theorem FinPhase.allSent (h : FinPhase log s) (hfin : s.finSeq = some f) :
    s.tx.length ≤ s.outstandingData := by
  cases h with
  | unsent hnone => simp [hfin] at hnone
  | sent f' hfin' hnxt _ _ htx =>
    rcases htx with htx | ⟨hle,hlen⟩
    · simp [htx]
    · rw [outstanding_of_pending hfin' hnxt hle,hlen]

theorem FinPhase.below (h : FinPhase log s) (hfin : s.finSeq = some f) (off n : Nat)
    {g : Segment} (hseq : g.seq = s.sndUna+UInt32.ofNat off)
    (hpay : g.payload = (s.tx.drop off).take n) : Below f g := by
  intro i hi
  rw [hpay,length_take,length_drop] at hi
  cases h with
  | unsent hnone => simp [hfin] at hnone
  | sent f' hfin' hnxt _ _ htx =>
    obtain rfl : f' = f := by simpa [hfin'] using hfin
    rcases htx with htx | ⟨hle,hlen⟩
    · simp [htx] at hi
    have hfrom := ahead_sub s.sndUna (s.sndUna+UInt32.ofNat (off+i)) f'
    rw [ahead_add_ofNat _ (by omega)] at hfrom
    rw [hseq,add_ofNat_add,seqLt_iff,hfrom]
    omega

section
variable (h : Fence log s)
include h

theorem Fence.output (free off n : Nat) {g : Segment}
    (hseq : g.seq = s.sndUna+UInt32.ofNat off) (hpay : g.payload = (s.tx.drop off).take n)
    (hflag : g.flags &&& tcpFin = 0) : Fence log (s.output free g) where
  room := h.room
  scaled := h.scaled
  waiting := h.waiting
  phase := by
    have hout : log ++ (s.output free g).out = log ++ s.out ++ [g] := by simp [TcpSock.output]
    have hphase := h.phase
    cases h.phase with
    | unsent hfin hnone hreach =>
      refine .unsent hfin ?_ hreach
      intro k hk
      rw [hout,mem_append,mem_singleton] at hk
      rcases hk with hk | rfl
      · exact hnone k hk
      · exact hflag
    | sent f hfin hnxt hfins hfenced htx =>
      refine .sent f hfin hnxt ?_ ?_ htx
      · intro k hk hkfin
        rw [hout,mem_append,mem_singleton] at hk
        rcases hk with hk | rfl
        · exact hfins k hk hkfin
        · exact absurd hflag hkfin
      rw [hout]
      refine hfenced.concat fun k hk hkfin => ?_
      rw [hfins k hk hkfin]
      exact hphase.below hfin off n hseq hpay

theorem Fence.slide {ack : UInt32} (hlt : seqLt s.sndUna ack = true)
    (hle : seqLe ack s.sndNxt = true) : Fence log (s.slide ack) where
  room := h.room
  scaled := h.scaled
  waiting := h.waiting
  phase := by
    cases h.phase with
    | unsent hfin hnone hreach => exact .unsent hfin hnone ((seqLe_iff _ _).mp hle)
    | sent f hfin hnxt hseq hfenced htx =>
      refine .sent f hfin hnxt hseq hfenced ?_
      have hadv : (ack-s.sndUna).toNat = ahead s.sndUna ack := rfl
      rcases htx with htx | ⟨hreach,hlen⟩
      · exact .inl (by simp [TcpSock.slide,htx])
      rw [seqLt_iff] at hlt
      by_cases hall : ahead s.sndUna ack ≤ ahead s.sndUna f
      · have hrest := ahead_sub s.sndUna ack f
        have hend := ahead_next hreach
        refine .inr ?_
        simp only [TcpSock.slide,hadv,length_drop]
        omega
      · refine .inl ?_
        simp only [TcpSock.slide,hadv]
        rw [min_eq_right (by omega),drop_length]

theorem Fence.clearOut : Fence (log ++ s.out) { s with out := [] } where
  room := h.room
  scaled := h.scaled
  waiting := h.waiting
  phase := by
    cases h.phase with
    | unsent hfin hnone hreach => exact .unsent hfin (by simpa using hnone) hreach
    | sent f hfin hnxt hseq hfenced htx =>
      exact .sent f hfin hnxt (by simpa using hseq) (by simpa using hfenced) htx

theorem Fence.data {n wnd free d} (hpos : n ≠ 0)
    (hn : n ≤ s.tx.length-s.outstandingData) (hwnd : s.outstandingData+n ≤ s.sndWnd.toNat) :
    Fence log (s.dataOut n wnd free d) := by
  have hscaled := h.scaled.2
  cases hfin : s.finSeq with
  | some f =>
    have hall := h.phase.allSent hfin
    omega
  | none =>
    have hout := outstanding_of_unsent hfin
    have hseq : s.sndNxt = s.sndUna+UInt32.ofNat s.outstandingData := by
      rw [hout,add_ahead]
    have hsent := h.output free s.outstandingData n (g := ⟨s.sndNxt,s.rcvNxt,tcpAck ||| tcpPsh,wnd,
      [],(s.tx.drop s.outstandingData).take n⟩) hseq rfl psh_noFin
    refine ⟨hsent.room,hsent.scaled,hsent.waiting,?_⟩
    cases hsent.phase with
    | sent f hsome => simp [TcpSock.output,hfin] at hsome
    | unsent hnone hflags hreach =>
      refine .unsent hnone hflags ?_
      change ahead s.sndUna (s.sndNxt+UInt32.ofNat n) ≤ _
      rw [hseq,add_ofNat_add,ahead_add_ofNat _ (by omega)]
      omega

theorem Fence.fin {wnd free d} (hstate : s.state.sending = true) (hfin : s.finSeq = none)
    (hall : s.outstandingData = s.tx.length) : Fence log (s.finOut wnd free d) where
  room := h.room
  scaled := h.scaled
  waiting := fun hs => absurd hs (State.afterFin_ne hstate).1
  phase := by
    have hout := outstanding_of_unsent hfin
    cases h.phase with
    | sent f hsome => simp [hfin] at hsome
    | unsent _ hnone hreach =>
      refine .sent s.sndNxt rfl rfl ?_ ?_ (.inr ⟨hreach,hall.symm.trans hout⟩)
      · intro g hg hflag
        simp only [TcpSock.output,← append_assoc,mem_append,mem_singleton] at hg
        rcases hg with hg | rfl
        · exact absurd (hnone g (mem_append.mpr hg)) hflag
        · rfl
      · simp only [TcpSock.output,← append_assoc]
        exact (finFenced_of_noFin hnone).concat fun k hk hflag => absurd (hnone k hk) hflag

omit h in
theorem fence_upheld (log : List Segment) : Upheld (Fence log) where
  room := fun _ h => h.room
  rests := fun _ _ h k => h.quiet k.toQuiet
  data := fun _ _ _ _ _ h _ hpos hn hwnd => h.data hpos hn hwnd
  fin := fun _ _ _ _ h hstate hfin hall => h.fin hstate hfin hall

theorem Fence.ackKept (hdr : TcpHeader) : AckKept (Fence log) s hdr where
  slides := fun hlt hle _ ht => (h.slide hlt hle).quiet ht.toQuiet
  window := fun _ _ ht => h.quiet ht.toQuiet
  fast := by
    intro _ t wnd free d ht
    have hkeep : Fence log { t with rtoDeadline := some d } :=
      h.quiet (ht.toQuiet.trans (Quiet.timers t _ _ _ _ _ _ _ _ _ _ _))
    refine hkeep.output free 0 (min (min s.effectiveMss s.tx.length) 65535) ?_ ?_ psh_noFin
    · simp [ht.una]
    · simp [ht.tx]

theorem Fence.resendKept : ResendKept True (Fence log) s where
  beyond := fun _ _ _ _ => trivial
  hole := fun off _ free _ _ _ => h.output free off _ rfl rfl psh_noFin
  probe := by
    intro b rest wnd free _ _ _ htx
    exact h.output free 0 1 (by simp) (by simp [htx]) (rfl : tcpAck &&& tcpFin = 0)
  fin := by
    intro f wnd free hfin _
    refine ⟨h.room,h.scaled,h.waiting,?_⟩
    cases h.phase with
    | unsent hnone => simp [hfin] at hnone
    | sent f' hfin' hnxt hseq hfenced htx =>
      obtain rfl : f' = f := by simpa [hfin'] using hfin
      refine .sent f' hfin' hnxt ?_ ?_ htx
      · intro g hg hflag
        simp only [TcpSock.output,← append_assoc,mem_append,mem_singleton] at hg
        rcases hg with hg | rfl
        · exact hseq g (mem_append.mpr hg) hflag
        · rfl
      · simp only [TcpSock.output,← append_assoc]
        exact hfenced.append_bare (by simp)

theorem Fence.opened (hstate : s.state = .synSent) (hdr : TcpHeader)
    {snd : UInt8} (rcv : UInt8) (hsnd : snd ≤ 14) : Fence log (s.opened hdr snd rcv) where
  room := h.room
  scaled := ⟨hsnd,h.scaled.2⟩
  waiting := nofun
  phase := by
    cases h.phase with
    | sent f hfin => simp [h.waiting hstate] at hfin
    | unsent hfin hnone _ => exact .unsent hfin hnone (by simp [TcpSock.opened])

theorem Fence.relabel {irs rcvNxt : UInt32} {state : State} {ctrl ever : Bool}
    {rto : Option Nat} {retries : Nat} (hstate : state ≠ .synSent) : Fence log { s with
      irs := irs, rcvNxt := rcvNxt, state := state, ctrlNeedsSend := ctrl,
      everEstablished := ever, rtoDeadline := rto, retries := retries } where
  room := h.room
  scaled := h.scaled
  waiting := fun hs => absurd hs hstate
  phase := by
    cases h.phase with
    | unsent hfin hnone hreach => exact .unsent hfin hnone hreach
    | sent f hfin hnxt hseq hfenced htx => exact .sent f hfin hnxt hseq hfenced htx

theorem Fence.inputKept (hdr : TcpHeader) (body : List UInt8) : InputKept (Fence log) s hdr body where
  opens := by
    intro hstate _ _ _ rcv _
    have hopen := h.opened hstate hdr rcv (offeredScale_le hdr)
    exact ⟨hopen,fun _ u hu => (hopen.quiet hu.toQuiet).ackKept hdr⟩
  meets := fun _ _ _ => h.relabel nofun
  joins := by
    intro _ _ _ _
    have hjoined : Fence log s.joined := h.relabel nofun
    exact ⟨hjoined,fun _ => hjoined.ackKept hdr⟩
  acks := fun _ _ _ => h.ackKept hdr

theorem Fence.write (hfin : s.finSeq = none) (tx : List UInt8) : Fence log { s with tx := tx } := by
  refine ⟨h.room,h.scaled,h.waiting,?_⟩
  cases h.phase with
  | unsent _ hnone hreach => exact .unsent hfin hnone hreach
  | sent f hsome => simp [hfin] at hsome

end

theorem Fence.step {c : Conn} (h : Fence log c.sock) {e : Event} (hlate : ¬ LateSend c e) :
    Yields (c.step e) (fun d => Fence (log ++ c.sock.out) d.sock) := by
  have hc := h.clearOut
  refine ReturnsUnless.yields ((fence_upheld _).step (I := fun _ => Fence (log ++ c.sock.out)) hc ?_
    (fun _ _ _ _ t _ _ ht => ht.resendKept) fun hdr body _ _ _ _ => hc.inputKept hdr body)
  rintro data rfl hr hcan hdata
  exact Fence.write hc (Classical.not_not.mp fun hfin => hlate ⟨hr,hcan,hdata,hfin⟩) _

end Steps

/-- What earlier events emitted is all of the log but the last event's part. -/
def FenceInv (x : Traced) : Prop :=
  ∃ log, x.log = log ++ x.conn.sock.out ∧ Fence log x.conn.sock

theorem FenceInv.step {x : Traced} (h : FenceInv x) {e : Event} (hlate : ¬ LateSend x.conn e) :
    Yields (x.step e) FenceInv := by
  obtain ⟨log,hlog,hfence⟩ := h
  refine Yields.bind (hfence.step hlate) fun d hd => .pure ?_
  exact ⟨log ++ x.conn.sock.out,by rw [hlog],hd⟩

theorem FenceInv.finalOk {x : Traced} (h : FenceInv x) : FinalOk x := by
  obtain ⟨log,hlog,hfence⟩ := h
  cases hfence.phase with
  | unsent hfin hnone hreach =>
    refine ⟨?_,fun f hf => by simp [hfin] at hf⟩
    rw [hlog]
    exact finFenced_of_noFin hnone
  | sent f hfin hnxt hseq hfenced htx =>
    refine ⟨by rw [hlog]; exact hfenced,fun f' hf' hpend => ?_⟩
    obtain rfl : f = f' := by simpa [hfin] using hf'
    have hle : seqLe x.conn.sock.sndUna f = true := by
      simpa [finPending,hfin] using hpend
    exact le_of_eq (outstanding_of_pending hfin hnxt ((seqLe_iff _ _).mp hle))

theorem Knocking.fence {cap : Nat} {s : TcpSock} (h : Knocking cap s) (hbare : Bare s.out) :
    Fence [] s where
  room := h.room
  scaled := h.scaled
  waiting := fun _ => h.fin
  phase := by
    refine .unsent h.fin (fun g hg => (hbare g hg).2) ?_
    rw [h.una,h.nxt,ahead_succ]
    decide

theorem Starts.fence {c : Conn} (h : Starts c) : Fence [] c.sock := by
  cases h with
  | active rxCap txCap iss => exact (knocking_open rxCap txCap iss).fence nofun
  | passive h =>
    obtain ⟨hk,hbare⟩ := listenerInput_knocking h
    exact hk.fence hbare

/-- However a connection was opened: as long as no write is accepted after the
FIN went out, nothing follows it. -/
theorem fin_ends_stream {c : Conn} (hc : Starts c) (events : List Event)
    (hcond : ∀ p e x, p ++ [e] <+: events → run Traced.step (Traced.start c) p = some x →
      ¬ LateSend x.conn e) :
    ∀ p, p <+: events → Yields (run Traced.step (Traced.start c) p) FinalOk := by
  intro p hp
  have hinv : FenceInv (Traced.start c) := ⟨[],rfl,hc.fence⟩
  exact (run_yields (fun x e => ¬ LateSend x.conn e) (fun _ e h hlate => h.step hlate) hinv hcond p
    hp).mono fun _ h => h.finalOk

def briefExchange : List Event :=
  [.poll 0,.input (synAck 7) [] 1,.send [104,105],.close,.poll 2,.input (bareAck 11) [] 3]

theorem fin_ends_briefExchange :
    Returns (run Traced.step (Traced.start (Conn.open 4096 4096 7)) briefExchange) FinalOk :=
  (fin_ends_stream (.active 4096 4096 7) briefExchange
    (Along.at_prefix (by decide +kernel : Along Traced.step (fun x e => ¬ LateSend x.conn e) _ _))
    briefExchange prefix_rfl).returns (by decide +kernel)

/-- The FIN went out with number 8. A byte written afterwards goes out with
number 9 and counts as outstanding although nothing stands before the FIN. -/
theorem lateSend_follows_fin : (run Traced.step (Traced.start (Conn.open 4096 4096 7))
      [.poll 0,.input (synAck 7) [] 1,.close,.poll 2,.send [104],.poll 3]).map
      (fun x => ((x.log.drop 2).map (fun g => (g.seq,g.flags &&& tcpFin,g.payload)),
        x.conn.sock.finPending,x.conn.sock.outstandingData,ahead x.conn.sock.sndUna 8)) =
    some ([(8,1,[]),(9,0,[104])],true,1,0) := by
  decide +kernel

end PaghOS.Tcp
