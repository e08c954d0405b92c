import PaghOS.Tcp.FinFence

/-!
Sequence numbers and windows of what is sent. New data advances `snd_nxt` and
keeps to the window. A retransmission is cut from everything buffered, sent or
not; the window of the SYN-ACK is not read; and any ACK may set the window.
-/

namespace PaghOS.Tcp
open Loop Serial List TcpSock Bool

variable {adverts : List (UInt32 × Nat)} {una : UInt32} {n : Nat} {x : Watched}

def allows (adverts : List (UInt32 × Nat)) (una : UInt32) (n : Nat) : Bool :=
  adverts.any (fun a => a.1 == una && decide (n ≤ a.2))

theorem allows_of_le {m : Nat} (hle : m ≤ n)
    (h : allows adverts una n = true) : allows adverts una m = true := by
  obtain ⟨a,ha,hok⟩ := any_eq_true.mp h
  simp only [and_eq_true,decide_eq_true_eq] at hok
  refine any_eq_true.mpr ⟨a,ha,?_⟩
  simp only [and_eq_true,decide_eq_true_eq]
  exact ⟨hok.1,hle.trans hok.2⟩

theorem allows_append {more : List (UInt32 × Nat)}
    (h : allows adverts una n = true) : allows (adverts ++ more) una n = true := by
  rw [allows,any_append,or_eq_true]
  exact .inl h

/-- The window a segment announces; the one of a SYN is never scaled. -/
def announced (s : TcpSock) (hdr : TcpHeader) : Nat :=
  if hdr.has tcpSyn then hdr.window.toNat else (hdr.window.toUInt32 <<< s.sndScale.toUInt32).toNat

/-- A connection and what its peer has advertised, with the ACK numbers. -/
structure Watched where
  conn : Conn
  adverts : List (UInt32 × Nat)
  deriving DecidableEq

def Watched.heard (x : Watched) : Event → List (UInt32 × Nat)
  | .input hdr _ _ =>
    if hdr.has tcpAck && !hdr.has tcpRst then
      x.adverts ++ [(hdr.ack,announced x.conn.sock hdr)]
    else x.adverts
  | _ => x.adverts

def Watched.step (x : Watched) (e : Event) : Option Watched := do
  let d ← x.conn.step e
  some ⟨d,x.heard e⟩

/-- Every byte of the segment has a number below `snd_nxt`, so that its ACK passes
the test of `process_ack`; and the segment ends within a window the peer has
advertised for `snd_una`, or is a probe of a closed one. -/
structure InWindow (adverts : List (UInt32 × Nat)) (s : TcpSock) (g : Segment) : Prop where
  below : ∀ i < g.payload.length,
    ahead s.sndUna (g.seq+UInt32.ofNat i) < ahead s.sndUna s.sndNxt
  acceptable : ∀ i < g.payload.length, seqLt s.sndUna (g.seq+UInt32.ofNat (i+1)) = true ∧
    seqLe (g.seq+UInt32.ofNat (i+1)) s.sndNxt = true
  window : allows adverts s.sndUna (ahead s.sndUna g.seq+g.payload.length) = true ∨
    g.payload.length = 1 ∧ s.sndWnd = 0

def Disciplined (x : Watched) : Prop :=
  ∀ g ∈ x.conn.sock.out, g.payload ≠ [] → InWindow x.adverts x.conn.sock g

section Conditions
variable (adverts : List (UInt32 × Nat)) (s : TcpSock) (hdr : TcpHeader)

instance : Decidable (s.fastDue hdr) := inferInstanceAs (Decidable (_ ∧ _))

instance : Decidable (s.windowDue hdr) := inferInstanceAs (Decidable (_ ∧ _))

def TcpSock.fastTake (s : TcpSock) : Nat := min (min s.effectiveMss s.tx.length) 65535

/-- The ACK sets a window that no advertisement for its `snd_una` allows, or the
third duplicate sends again what was not sent or what no window allows. -/
def AckOverruns : Prop :=
  (seqLt s.sndUna hdr.ack = true ∧ seqLe hdr.ack s.sndNxt = true ∧
    allows adverts hdr.ack (hdr.window.toUInt32 <<< s.sndScale.toUInt32).toNat = false) ∨
  (s.windowDue hdr ∧
    allows adverts s.sndUna (hdr.window.toUInt32 <<< s.sndScale.toUInt32).toNat = false) ∨
  (s.fastDue hdr ∧ ¬ (s.fastTake ≤ s.outstandingData ∧ allows adverts s.sndUna s.fastTake = true))

instance : Decidable (AckOverruns adverts s hdr) := inferInstanceAs (Decidable (_ ∨ _))

/-- A segment of which the above holds when its ACK is looked at; or a SYN-ACK
whose window is smaller than the one assumed so far. -/
def InputOverruns (body : List UInt8) : Prop :=
  if s.state = .synSent then
    hdr.has tcpSyn = true ∧ hdr.ack = s.iss+1 ∧
      (allows adverts hdr.ack s.sndWnd.toNat = false ∨ body ≠ [] ∧
        allows adverts hdr.ack (hdr.window.toUInt32 <<< hdr.offeredScale.toUInt32).toNat = false)
  else if s.state = .synRcvd then
    body ≠ [] ∧ seqLe s.sndUna hdr.ack = true ∧ seqLe hdr.ack s.sndNxt = true ∧
      AckOverruns adverts s hdr
  else AckOverruns adverts s hdr

instance (body : List UInt8) : Decidable (InputOverruns adverts s hdr body) := by
  unfold InputOverruns
  infer_instance

def TcpSock.resendEnd (s : TcpSock) (off : Nat) : Nat := off+min s.effectiveMss (s.tx.length-off)

/-- The expired timer sends again what was not sent or what no window allows, or
it probes. -/
def ResendOverruns : Prop :=
  (0 < s.outstandingData ∧ s.firstHole.any (fun off => decide (off < s.resendEnd off) &&
    !(decide (s.resendEnd off ≤ s.outstandingData) && allows adverts s.sndUna (s.resendEnd off))) =
      true) ∨
  (s.outstandingData = 0 ∧ s.finPending = false ∧ s.sndWnd = 0 ∧ s.tx ≠ [])

instance : Decidable (ResendOverruns adverts s) := inferInstanceAs (Decidable (_ ∨ _))

end Conditions

def Overruns (x : Watched) : Event → Prop
  | .input hdr body now => x.conn.reaped = false ∧ hdr.has tcpRst = false ∧
      hdr.has tcpAck = true ∧
      InputOverruns (x.heard (.input hdr body now)) x.conn.sock hdr body
  | .poll now => x.conn.reaped = false ∧ x.conn.sock.resendDue now = true ∧
      ResendOverruns x.adverts x.conn.sock
  | _ => False

instance (x : Watched) : (e : Event) → Decidable (Overruns x e)
  | .input _ _ _ | .poll _ => inferInstanceAs (Decidable (_ ∧ _))
  | .send _ | .recv _ | .close => .isFalse id

/-- A data segment of the current step. -/
structure SentOk (adverts : List (UInt32 × Nat)) (s : TcpSock) (g : Segment) : Prop where
  below : ahead s.sndUna g.seq+g.payload.length ≤ ahead s.sndUna s.sndNxt
  half : ahead s.sndUna g.seq+g.payload.length ≤ 2147483648
  reach : ahead s.sndUna s.sndNxt ≤ 2147483649
  window : allows adverts s.sndUna (ahead s.sndUna g.seq+g.payload.length) = true

/-- The window is one the peer has advertised for `snd_una`, or nothing was ever
written and `snd_una` still stands before our SYN. -/
structure Heeds (log : List Segment) (adverts : List (UInt32 × Nat)) (sent : List UInt8)
    (s : TcpSock) : Prop where
  fence : Fence log s
  wnd : allows adverts s.sndUna s.sndWnd.toNat = true ∨ s.sndUna = s.iss ∧ s.tx = [] ∧ sent = []
  out : ∀ g ∈ s.out, g.payload ≠ [] → SentOk adverts s g

section Steps
variable {log : List Segment} {adverts : List (UInt32 × Nat)} {sent : List UInt8} {s t : TcpSock}
variable {g : Segment}

theorem SentOk.inWindow (h : SentOk adverts s g) : InWindow adverts s g := by
  have hbelow := h.below
  have hhalf := h.half
  have hreach := h.reach
  have hplace : ∀ i ≤ g.payload.length,
      ahead s.sndUna (g.seq+UInt32.ofNat i) = ahead s.sndUna g.seq+i := by
    exact fun i hi => ahead_advance _ _ (by omega)
  refine ⟨fun i hi => ?_,fun i hi => ?_,.inl h.window⟩
  · rw [hplace i (by omega)]
    omega
  have hnext := hplace (i+1) (by omega)
  have hrest := ahead_sub s.sndUna (g.seq+UInt32.ofNat (i+1)) s.sndNxt
  rw [seqLt_iff,seqLe_iff,hrest,hnext]
  omega

theorem SentOk.quiet (h : SentOk adverts s g) (k : Quiet s t) : SentOk adverts t g := by
  constructor
  · rw [k.una,k.nxt]; exact h.below
  · rw [k.una]; exact h.half
  · rw [k.una,k.nxt]; exact h.reach
  · rw [k.una]; exact h.window

section
variable (h : Heeds log adverts sent s)
include h

theorem Heeds.quiet (k : Quiet s t) (hw : t.sndWnd = s.sndWnd ∨
      allows adverts s.sndUna t.sndWnd.toNat = true) : Heeds log adverts sent t where
  fence := h.fence.quiet k
  wnd := by
    rw [k.una,k.iss,k.tx]
    rcases hw with hw | hw
    · rw [hw]; exact h.wnd
    · exact .inl hw
  out := by
    obtain ⟨bare,hout,hbare⟩ := k.out
    intro g hg hdata
    rw [hout,mem_append] at hg
    rcases hg with hg | hg
    · exact (h.out g hg hdata).quiet k
    · exact absurd (hbare g hg).1 hdata

omit h in
theorem Fence.spans (h : Fence log s) (htx : s.tx ≠ []) :
    s.outstandingData ≤ 2147483648 ∧ ahead s.sndUna s.sndNxt ≤ 2147483649 ∧
      s.outstandingData ≤ ahead s.sndUna s.sndNxt := by
  cases h.phase with
  | unsent hfin _ hreach =>
    have hout := outstanding_of_unsent hfin
    omega
  | sent f hfin hnxt _ _ hall =>
    obtain ⟨hle,-⟩ := hall.resolve_left htx
    have hout := outstanding_of_pending hfin hnxt hle
    have hnext := ahead_next hle
    rw [hnxt]
    omega

theorem Heeds.output (free off n : Nat)
    (hseq : g.seq = s.sndUna+UInt32.ofNat off) (hpay : g.payload = (s.tx.drop off).take n)
    (hflag : g.flags &&& tcpFin = 0) (hok : g.payload ≠ [] → off+g.payload.length ≤ s.outstandingData ∧
      allows adverts s.sndUna (off+g.payload.length) = true) :
    Heeds log adverts sent (s.output free g) where
  fence := h.fence.output free off n hseq hpay hflag
  wnd := h.wnd
  out := by
    intro k hk hdata
    rcases mem_append.mp hk with hk | hk
    · have hold := h.out k hk hdata
      exact ⟨hold.below,hold.half,hold.reach,hold.window⟩
    obtain rfl := mem_singleton.mp hk
    obtain ⟨hsent,hwindow⟩ := hok hdata
    have htx : s.tx ≠ [] := by
      rintro htx
      exact hdata (by simp [hpay,htx])
    obtain ⟨hhalf,hreach,hle⟩ := h.fence.spans htx
    have hplace : ahead s.sndUna k.seq = off := by
      rw [hseq,ahead_add_ofNat _ (by omega)]
    refine ⟨?_,?_,hreach,?_⟩
    · show ahead s.sndUna k.seq+_ ≤ ahead s.sndUna s.sndNxt
      omega
    · show ahead s.sndUna k.seq+_ ≤ _
      omega
    · show allows adverts s.sndUna (ahead s.sndUna k.seq+_) = true
      rw [hplace]
      exact hwindow

theorem Heeds.data {n wnd free d} (hpos : n ≠ 0)
    (hn : n ≤ s.tx.length-s.outstandingData) (hwnd : s.outstandingData+n ≤ s.sndWnd.toNat) :
    Heeds log adverts sent (s.dataOut n wnd free d) := by
  have hscaled := h.fence.scaled.2
  have hfin : s.finSeq = none := by
    cases hfin : s.finSeq with
    | none => rfl
    | some f =>
      have hall := h.fence.phase.allSent hfin
      omega
  have hout := outstanding_of_unsent hfin
  have hnxt : ahead s.sndUna (s.sndNxt+UInt32.ofNat n) = s.outstandingData+n := by
    rw [hout,ahead_advance _ _ (by omega)]
  have hlen : ((s.tx.drop s.outstandingData).take n).length = n := by
    rw [length_take,length_drop]
    omega
  have hbacked : allows adverts s.sndUna s.sndWnd.toNat = true := by
    rcases h.wnd with hw | ⟨-,htx,-⟩
    · exact hw
    · rw [htx] at hn
      simp at hn
      omega
  refine ⟨h.fence.data hpos hn hwnd,.inl hbacked,fun g hg hdata => ?_⟩
  rcases mem_append.mp hg with hg | hg
  · have hold := h.out g hg hdata
    have hbelow := hold.below
    refine ⟨?_,hold.half,?_,hold.window⟩
    · show ahead s.sndUna g.seq+_ ≤ ahead s.sndUna (s.sndNxt+UInt32.ofNat n)
      omega
    · show ahead s.sndUna (s.sndNxt+UInt32.ofNat n) ≤ _
      omega
  · obtain rfl := mem_singleton.mp hg
    have hplace : ahead s.sndUna s.sndNxt = s.outstandingData := hout.symm
    refine ⟨?_,?_,?_,?_⟩
    · show ahead s.sndUna s.sndNxt+((s.tx.drop s.outstandingData).take n).length ≤
        ahead s.sndUna (s.sndNxt+UInt32.ofNat n)
      omega
    · show ahead s.sndUna s.sndNxt+((s.tx.drop s.outstandingData).take n).length ≤ _
      omega
    · show ahead s.sndUna (s.sndNxt+UInt32.ofNat n) ≤ _
      omega
    · show allows adverts s.sndUna
        (ahead s.sndUna s.sndNxt+((s.tx.drop s.outstandingData).take n).length) = true
      rw [hplace,hlen]
      exact allows_of_le hwnd hbacked

theorem Heeds.fin {wnd free d} (hstate : s.state.sending = true) (hfin : s.finSeq = none)
    (hall : s.outstandingData = s.tx.length) : Heeds log adverts sent (s.finOut wnd free d) := by
  refine ⟨h.fence.fin hstate hfin hall,h.wnd,fun g hg hdata => ?_⟩
  have hreach : ahead s.sndUna s.sndNxt ≤ 2147483648 := by
    cases h.fence.phase with
    | unsent _ _ hreach => exact hreach
    | sent f hsome => simp [hfin] at hsome
  have hnext := ahead_next hreach
  rcases mem_append.mp hg with hg | hg
  · have hold := h.out g hg hdata
    have hbelow := hold.below
    refine ⟨?_,hold.half,?_,hold.window⟩
    · show ahead s.sndUna g.seq+_ ≤ ahead s.sndUna (s.sndNxt+1)
      omega
    · show ahead s.sndUna (s.sndNxt+1) ≤ _
      omega
  · obtain rfl := mem_singleton.mp hg
    exact absurd rfl hdata

omit h in
theorem heeds_upheld (log : List Segment) (adverts : List (UInt32 × Nat)) (sent : List UInt8) :
    Upheld (Heeds log adverts sent) where
  room := fun _ h => h.fence.room
  rests := fun _ _ h k => h.quiet k.toQuiet (.inl k.wnd)
  data := fun _ _ _ _ _ h _ hpos hn hwnd => h.data hpos hn hwnd
  fin := fun _ _ _ _ h hstate hfin hall => h.fin hstate hfin hall

theorem Heeds.ackKept (hbare : ∀ g ∈ s.out, g.payload = [])
    {hdr : TcpHeader} (hok : ¬ AckOverruns adverts s hdr) : AckKept (Heeds log adverts sent) s hdr where
  slides := by
    intro hlt hle t ht
    refine ⟨(h.fence.ackKept hdr).slides hlt hle t ht,.inl ?_,fun g hg hdata => ?_⟩
    · rw [ht.una,ht.wnd]
      by_contra hno
      exact hok (.inl ⟨hlt,hle,eq_false_of_not_eq_true hno⟩)
    obtain ⟨bare,hout,hnone⟩ := ht.out
    rw [hout,mem_append] at hg
    rcases hg with hg | hg
    · exact absurd (hbare g hg) hdata
    · exact absurd (hnone g hg).1 hdata
  window := by
    intro hdue t ht
    refine h.quiet ht.toQuiet (.inr ?_)
    rw [ht.wnd]
    by_contra hno
    exact hok (.inr (.inl ⟨hdue,eq_false_of_not_eq_true hno⟩))
  fast := by
    intro hdue t wnd free d ht
    have hfast : s.fastTake ≤ s.outstandingData ∧ allows adverts s.sndUna s.fastTake = true := by
      by_contra hno
      exact hok (.inr (.inr ⟨hdue,hno⟩))
    have hlen : (s.tx.take s.fastTake).length = s.fastTake := by
      rw [length_take]
      unfold fastTake
      omega
    have hkeep : Heeds log adverts sent { t with rtoDeadline := some d } :=
      h.quiet (ht.toQuiet.trans (Quiet.timers t _ _ _ _ _ _ _ _ _ _ _)) (.inl ht.wnd)
    refine hkeep.output free 0 s.fastTake ?_ ?_ psh_noFin ?_
    · simp [ht.una]
    · rw [ht.tx]; rfl
    · intro _
      show 0+(s.tx.take s.fastTake).length ≤ t.outstandingData ∧
        allows adverts t.sndUna (0+(s.tx.take s.fastTake).length) = _
      rw [ht.toQuiet.outstanding,ht.una,hlen,Nat.zero_add]
      exact hfast

omit h in
theorem Rests.resendOverruns (k : Rests s t) : ResendOverruns adverts t ↔ ResendOverruns adverts s := by
  have hpend : t.finPending = s.finPending := by simp [finPending,k.una,k.fin]
  have hend : t.resendEnd = s.resendEnd := by
    funext off
    simp [resendEnd,effectiveMss,k.mss,k.tx]
  have hhole : t.firstHole = s.firstHole := by
    simp [firstHole,k.toQuiet.outstanding,k.una,k.sacked]
  rw [ResendOverruns,ResendOverruns,hpend,hend,hhole,k.toQuiet.outstanding,k.una,k.tx,k.wnd]

theorem Heeds.resendKept (hok : ¬ ResendOverruns adverts s) : ResendKept True (Heeds log adverts sent) s where
  beyond := fun _ _ _ _ => trivial
  fin := by
    intro f wnd free hfin hnone
    refine ⟨h.fence.resendKept.fin f wnd free hfin hnone,h.wnd,fun g hg hdata => ?_⟩
    rcases mem_append.mp hg with hg | hg
    · have hold := h.out g hg hdata
      exact ⟨hold.below,hold.half,hold.reach,hold.window⟩
    · obtain rfl := mem_singleton.mp hg
      exact absurd rfl hdata
  hole := by
    intro off wnd free hpos hhole hoff
    have hlen : ((s.tx.drop off).take (min s.effectiveMss (s.tx.length-off))).length =
        min s.effectiveMss (s.tx.length-off) := by
      rw [length_take,length_drop]
      omega
    refine h.output free off _ rfl rfl psh_noFin fun hdata => ?_
    show off+((s.tx.drop off).take _).length ≤ _ ∧ allows _ _ (off+((s.tx.drop off).take _).length) = _
    rw [hlen]
    have hsome : off < s.resendEnd off := by
      have hlt := length_pos_iff.mpr hdata
      change 0 < ((s.tx.drop off).take _).length at hlt
      unfold resendEnd
      omega
    by_contra hno
    refine hok (.inl ⟨hpos,?_⟩)
    simp only [hhole,Option.any_some,hsome,decide_true,Bool.true_and,Bool.not_eq_true',
      Bool.and_eq_false_iff,decide_eq_false_iff_not]
    rw [Classical.not_and_iff_not_or_not,Bool.not_eq_true] at hno
    exact hno
  probe := by
    intro b rest wnd free hnone hfin hclosed htx
    exact absurd (.inr ⟨hnone,hfin,hclosed,by simp [htx]⟩) hok

theorem Heeds.hears (more : List (UInt32 × Nat)) : Heeds log (adverts ++ more) sent s where
  fence := h.fence
  wnd := h.wnd.imp_left allows_append
  out := by
    intro g hg hdata
    have hold := h.out g hg hdata
    exact ⟨hold.below,hold.half,hold.reach,allows_append hold.window⟩

theorem Heeds.clearOut : Heeds (log ++ s.out) adverts sent { s with out := [] } :=
  ⟨h.fence.clearOut,h.wnd,nofun⟩

omit h in
theorem noSyn_of_mask {flags : UInt8} (h : flags &&& (tcpSyn ||| tcpFin) = 0) :
    flags &&& tcpSyn = 0 := by
  have hmask : flags &&& tcpSyn = flags &&& (tcpSyn ||| tcpFin) &&& tcpSyn := by
    rw [UInt8.and_assoc]
    rfl
  rw [hmask,h]
  rfl

theorem Heeds.inputKept (hout : s.out = []) {hdr : TcpHeader}
    {body : List UInt8} (hok : hdr.has tcpAck = true → ¬ InputOverruns adverts s hdr body) :
    InputKept (Heeds log adverts sent) s hdr body where
  opens := by
    intro hstate hsyn hack hnumber rcv _
    have hcond := hok hack
    rw [InputOverruns,if_pos hstate] at hcond
    have hopen : Heeds log adverts sent (s.opened hdr hdr.offeredScale rcv) := by
      refine ⟨h.fence.opened hstate hdr rcv (offeredScale_le hdr),.inl ?_,?_⟩
      · by_contra hno
        exact hcond ⟨hsyn,hnumber,.inl (eq_false_of_not_eq_true hno)⟩
      · exact fun g hg => absurd hg (by simp [opened,hout])
    refine ⟨hopen,fun hbody u hu => ?_⟩
    have hrest := hu.rests
    have huna : u.sndUna = hdr.ack := hrest.una
    have hscale : u.sndScale = hdr.offeredScale := hrest.sndScale
    refine (hopen.quiet hu.toQuiet (.inl hrest.wnd)).ackKept ?_ ?_
    · obtain ⟨bare,houts,hnone⟩ := hrest.out
      intro g hg
      simp only [houts,opened,hout,nil_append] at hg
      exact (hnone g hg).1
    rintro (⟨hlt,-⟩ | ⟨-,hno⟩ | ⟨⟨-,-,hflags,-⟩,-⟩)
    · rw [huna,seqLt_iff,ahead_self] at hlt
      omega
    · rw [huna,hscale] at hno
      exact hcond ⟨hsyn,hnumber,.inr ⟨hbody,hno⟩⟩
    · exact absurd hsyn (by simp [TcpHeader.has,noSyn_of_mask hflags])
  meets := fun _ _ _ => ⟨h.fence.relabel (by simp),h.wnd,fun g hg => absurd hg (by simp [met,hout])⟩
  joins := by
    intro hstate hack hlo hhi
    have hcond := hok hack
    rw [InputOverruns,if_neg (by simp [hstate]),if_pos hstate] at hcond
    have hjoined : Heeds log adverts sent s.joined :=
      ⟨h.fence.relabel (by simp),h.wnd,fun g hg => absurd hg (by simp [joined,hout])⟩
    refine ⟨hjoined,fun hbody => hjoined.ackKept ?_ ?_⟩
    · exact fun g hg => absurd hg (by simp [joined,hout])
    · exact fun hbad => hcond ⟨hbody,hlo,hhi,hbad⟩
  acks := by
    intro hsent hrcvd hack
    have hcond := hok hack
    rw [InputOverruns,if_neg hsent,if_neg hrcvd] at hcond
    exact h.ackKept (fun g hg => absurd hg (by simp [hout])) hcond

end

end Steps

theorem Watched.heard_append (x : Watched) (e : Event) : ∃ more, x.heard e = x.adverts ++ more := by
  cases e with
  | input hdr body now =>
    unfold Watched.heard
    dsimp only
    split
    · exact ⟨_,rfl⟩
    · exact ⟨[],by simp⟩
  | _ => exact ⟨[],by simp [Watched.heard]⟩

def WatchInv (x : Watched) : Prop :=
  ∃ log, Heeds log x.adverts x.conn.sent x.conn.sock

theorem WatchInv.step (h : WatchInv x) {e : Event} (hearly : ¬ EarlySend x.conn e)
    (hlate : ¬ LateSend x.conn e) (hover : ¬ Overruns x e) : Yields (x.step e) WatchInv := by
  obtain ⟨log,hheeds⟩ := h
  obtain ⟨more,hmore⟩ := x.heard_append e
  have hc : Heeds (log ++ x.conn.sock.out) (x.heard e) x.conn.sent { x.conn.sock with out := [] } := by
    rw [hmore]
    exact hheeds.clearOut.hears more
  suffices hnext : Yields (x.conn.step e)
      (fun d => Heeds (log ++ x.conn.sock.out) (x.heard e) d.sent d.sock) from
    Yields.bind hnext fun d hd => .pure ⟨_,hd⟩
  refine ReturnsUnless.yields (q := True) ((heeds_upheld _ _ _).step
    (I := Heeds (log ++ x.conn.sock.out) (x.heard e)) hc ?_ ?_ ?_)
  · rintro data rfl hr hcan hdata
    have hfin : x.conn.sock.finSeq = none :=
      Classical.not_not.mp fun hfin => hlate ⟨hr,hcan,hdata,hfin⟩
    refine ⟨Fence.write hc.fence hfin _,.inl ?_,nofun⟩
    rcases hc.wnd with hw | ⟨huna,-,hsent⟩
    · exact hw
    · exact absurd ⟨hr,hcan,hdata,hsent,huna⟩ hearly
  · rintro now rfl hr hdue t hrest - ht
    exact ht.resendKept fun hbad => hover ⟨hr,hdue,hrest.resendOverruns.mp hbad⟩
  · rintro hdr body now rfl hr hrst
    exact hc.inputKept rfl fun hack hbad => hover ⟨hr,hrst,hack,hbad⟩

theorem WatchInv.disciplined (h : WatchInv x) : Disciplined x := by
  obtain ⟨log,hheeds⟩ := h
  exact fun g hg hdata => (hheeds.out g hg hdata).inWindow

theorem Starts.heeds {c : Conn} (h : Starts c) : Heeds [] [] c.sent c.sock := by
  have hfence := h.fence
  cases h with
  | active rxCap txCap iss => exact ⟨hfence,.inr ⟨rfl,rfl,rfl⟩,nofun⟩
  | passive h =>
    obtain ⟨hk,hbare⟩ := listenerInput_knocking h
    exact ⟨hfence,.inr ⟨hk.una,hk.tx,rfl⟩,fun g hg hdata => absurd (hbare g hg).1 hdata⟩

/-- However a connection was opened: as long as nothing is written before our SYN
is acknowledged or after the FIN, no ACK sets a window that was not advertised for
its number, and nothing is sent again beyond what was sent and allowed, every
emitted byte lies below `snd_nxt` and within an advertised window. -/
theorem sending_disciplined {c : Conn} (hc : Starts c) (events : List Event)
    (hcond : ∀ p e x, p ++ [e] <+: events → run Watched.step ⟨c,[]⟩ p = some x →
      ¬ EarlySend x.conn e ∧ ¬ LateSend x.conn e ∧ ¬ Overruns x e) :
    ∀ p, p <+: events → Yields (run Watched.step ⟨c,[]⟩ p) Disciplined := by
  intro p hp
  have hinv : WatchInv ⟨c,[]⟩ := ⟨[],hc.heeds⟩
  refine (run_yields (fun x e => ¬ EarlySend x.conn e ∧ ¬ LateSend x.conn e ∧ ¬ Overruns x e)
    (fun _ e h hok => h.step hok.1 hok.2.1 hok.2.2) hinv hcond p hp).mono ?_
  exact fun _ h => h.disciplined

/-- Five bytes through a window of two: the rest goes out when the window opens,
and after a loss the front is sent again. -/
def narrowExchange : List Event :=
  [.poll 0,.input (synAck 7) [] 1,.send [104],.poll 2,.input { bareAck 9 with window := 2 } [] 3,
    .send [101,108,108,111],.poll 4,.input (bareAck 11) [] 5,.poll 6,.poll 400]

theorem narrowExchange_disciplined :
    Returns (run Watched.step ⟨Conn.open 4096 4096 7,[]⟩ narrowExchange) Disciplined :=
  (sending_disciplined (.active 4096 4096 7) narrowExchange
    (Along.at_prefix (by decide +kernel : Along Watched.step
      (fun x e => ¬ EarlySend x.conn e ∧ ¬ LateSend x.conn e ∧ ¬ Overruns x e) _ _))
    narrowExchange prefix_rfl).returns (by decide +kernel)

/-- The peer's window is two bytes and two of five buffered bytes were sent. The
expired timer sends all five: three of them lie at and beyond `snd_nxt`, outside
every window advertised for 9. -/
theorem resend_passes_sndNxt : (run Watched.step ⟨Conn.open 4096 4096 7,[]⟩
      [.poll 0,.input (synAck 7) [] 1,.send [104],.poll 2,
        .input { bareAck 9 with window := 2 } [] 3,.send [104,101,108,108,111],.poll 4,.poll 400]).map
      (fun x => (x.conn.sock.out.map (fun g => (g.seq,g.payload)),x.conn.sock.sndUna,
        x.conn.sock.sndNxt,x.adverts)) = some ([(9,[104,101,108,108,111])],9,11,[(8,4096),(9,2)]) := by
  decide +kernel

end PaghOS.Tcp
