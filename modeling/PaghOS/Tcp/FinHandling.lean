import PaghOS.Tcp.RecvStream

/-!
The two ends of a connection: when `process_ack` takes our FIN for acknowledged,
and when `established_input` takes the peer's.
-/

namespace PaghOS.Tcp
open Loop Serial PaghOS.Stream Option List TcpSock

variable {body : List UInt8} {moved : State}

def State.afterFinAck : State → State
  | .finWait1 => .finWait2
  | .closing => .timeWait
  | .lastAck => .closed
  | s => s

section OurFin
variable {s t : TcpSock}

theorem finAcked_state (s : TcpSock) (ack : UInt32) (now : Nat) : (s.finAcked ack now).state =
    if s.finSeq.any (fun f => seqLt f ack) then s.state.afterFinAck else s.state := by
  cases hfin : s.finSeq with
  | none => simp [finAcked,hfin]
  | some f =>
    have hcovered : s.finAcked ack now = if seqLt f ack then
        match s.state with
        | .finWait1 => { s with state := .finWait2 }
        | .closing => { s with state := .timeWait, timewaitDeadline := some (now+timeWaitTicks) }
        | .lastAck => { s with state := .closed }
        | _ => s
      else s := by
      simp only [finAcked,hfin]
      rfl
    rw [hcovered,any_some]
    split
    · cases hs : s.state <;> first | rfl | exact hs
    · rfl

theorem processAck_state (s : TcpSock) (hdr : TcpHeader) (now : Nat) :
    Yields (s.processAck hdr now) (fun t => s.fastDue hdr ∧ t.state = s.state ∨ ¬ s.fastDue hdr ∧ t.state =
        if s.finSeq.any (fun f => seqLt f hdr.ack) then s.state.afterFinAck else s.state) := by
  by_cases hdue : s.fastDue hdr
  · rw [processAck_fast hdue]
    exact (emit_state _ _ _ _ _ _).mono fun t ht => .inl ⟨hdue,ht.1⟩
  have hkeep : (s.ackTaken hdr now).state = s.state ∧ (s.ackTaken hdr now).finSeq = s.finSeq := by
    unfold ackTaken
    split
    · obtain ⟨_,_,_,_,_,_,-,heq⟩ := ackAdvance_eq s hdr now
      rw [heq]
      exact ⟨rfl,rfl⟩
    repeat' split
    all_goals exact ⟨rfl,rfl⟩
  rw [processAck_slow hdue]
  refine .pure (.inr ⟨hdue,?_⟩)
  rw [finAcked_state,hkeep.1,hkeep.2]

theorem processAck_isSome {hdr : TcpHeader} (h : ¬ s.fastDue hdr) (now : Nat) :
    (s.processAck hdr now).isSome = true := by
  rw [processAck_slow h]
  rfl

end OurFin

def FinMove (s t : TcpSock) : Prop :=
  s.state = .finWait1 ∧ t.state = .finWait2 ∨ s.state = .closing ∧ t.state = .timeWait ∨
    s.state = .lastAck ∧ t.state = .closed

/-- The ACK number is past our FIN and not past what was sent. -/
def AcksFin (s : TcpSock) (ack : UInt32) : Prop :=
  ∃ f, s.finSeq = some f ∧ 0 < ahead f ack ∧ ahead f ack ≤ ahead f s.sndNxt

/-- With our FIN out, an ACK of what was never sent, up to half the sequence
space past the FIN, that is not the third duplicate. -/
def AcksUnsent (s : TcpSock) (hdr : TcpHeader) : Prop :=
  (s.state = .finWait1 ∨ s.state = .closing ∨ s.state = .lastAck) ∧ ¬ s.fastDue hdr ∧
    ∃ f, s.finSeq = some f ∧ ahead f s.sndNxt < ahead f hdr.ack ∧ ahead f hdr.ack ≤ 2147483648

theorem FinMove.moves {s t : TcpSock} (h : FinMove s t) :
    (s.state = .finWait1 ∨ s.state = .closing ∨ s.state = .lastAck) ∧ t.state ≠ s.state := by
  rcases h with ⟨hs,ht⟩ | ⟨hs,ht⟩ | ⟨hs,ht⟩
  · simp [hs,ht]
  · simp [hs,ht]
  · simp [hs,ht]

def FinJustified (s : TcpSock) (hdr : TcpHeader) (now : Nat) : Prop :=
  Yields (s.processAck hdr now) (fun t => FinMove s t → AcksFin s hdr.ack)

theorem finJustified_iff (s : TcpSock) (hdr : TcpHeader) (now : Nat) :
    FinJustified s hdr now ↔ ¬ AcksUnsent s hdr := by
  constructor
  · rintro h ⟨hstate,hslow,f,hfin,hunsent,hhalf⟩
    obtain ⟨t,ht⟩ := isSome_iff_exists.mp (processAck_isSome hslow now)
    have hpast : s.finSeq.any (fun f => seqLt f hdr.ack) = true := by
      rw [hfin,any_some,seqLt_iff]
      omega
    have hmoved : t.state = s.state.afterFinAck := by
      rcases processAck_state s hdr now t ht with hfast | hrest
      · exact absurd hfast.1 hslow
      · rw [hrest.2,if_pos hpast]
    have hmove : FinMove s t := by
      unfold FinMove
      rw [hmoved]
      rcases hstate with hs | hs | hs
      · simp [hs,State.afterFinAck]
      · simp [hs,State.afterFinAck]
      · simp [hs,State.afterFinAck]
    obtain ⟨f',hfin',-,hsent⟩ := h t ht hmove
    obtain rfl := Option.some.inj (hfin.symm.trans hfin')
    omega
  · intro h t ht hmove
    obtain ⟨hstate,hmoved⟩ := hmove.moves
    rcases processAck_state s hdr now t ht with hfast | ⟨hslow,hrest⟩
    · exact absurd hfast.2 hmoved
    split at hrest
    · rename_i hpast
      cases hfin : s.finSeq with
      | none => simp [hfin] at hpast
      | some f =>
        rw [hfin,any_some,seqLt_iff] at hpast
        refine ⟨f,hfin,by omega,not_lt.mp fun hunsent => ?_⟩
        exact h ⟨hstate,hslow,f,hfin,hunsent,by omega⟩
    · exact absurd hrest hmoved

/-- Every socket, every header: `process_ack` takes our FIN for acknowledged
without reason exactly on an ACK of what was never sent. So it is justified all
along a run exactly if no segment of it brings such an ACK. -/
theorem finMove_justified_iff (c : Conn) (events : List Event) :
    (∀ s hdr now, FinJustified s hdr now ↔ ¬ AcksUnsent s hdr) ∧
    (Along Conn.step (fun d e => ∀ hdr body now, e = .input hdr body now → FinJustified d.sock hdr now)
        c events ↔
      Along Conn.step (fun d e => ∀ hdr body now, e = .input hdr body now → ¬ AcksUnsent d.sock hdr)
        c events) :=
  ⟨finJustified_iff,by simp only [finJustified_iff]⟩

/-- Nine is the last number sent, the FIN before it; an ACK of a hundred passes
for its acknowledgement. -/
theorem wildAck_moves : (run Conn.step (Conn.open 4096 4096 7)
      [.poll 0,.input (synAck 7) [] 1,.close,.poll 2]).map
      (fun c => (c.sock.state,c.sock.finSeq,c.sock.sndNxt)) = some (.finWait1,some 8,9) ∧
    (run Conn.step (Conn.open 4096 4096 7)
      [.poll 0,.input (synAck 7) [] 1,.close,.poll 2,.input (bareAck 100) [] 3]).map
      (fun c => c.sock.state) = some .finWait2 := by
  decide +kernel

inductive TookFin : State → State → Prop where
  | established : TookFin .established .closeWait
  | crossing : TookFin .finWait1 .closing
  | acked : TookFin .finWait1 .timeWait
  | finWait2 : TookFin .finWait2 .timeWait

/-- The peer's stream ends at `fin`: no other FIN was recorded and no data put
aside stands behind it. -/
structure EndsAt (fin : UInt32) (s : TcpSock) : Prop where
  finSeq : ∀ f, s.peerFinSeq = some f → f = fin
  ooo : ∀ e ∈ s.ooo, e.1 = fin+1 → e.2 = []

/-- The FIN at `fin` is behind us and the state has moved on. -/
def AcceptedFin (fin : UInt32) (s t : TcpSock) : Prop :=
  t.rcvNxt = fin+1 ∧ TookFin s.state t.state

section PeerFin
variable {fin : UInt32} {s t : TcpSock}

/-- The bytes fit, so that the FIN stands at `rcv_nxt`. -/
structure AtFin (fin : UInt32) (s t : TcpSock) : Prop where
  rcvNxt : t.rcvNxt = fin
  finSeq : t.peerFinSeq = some fin
  ooo : t.ooo = s.ooo
  state : t.state = s.state
  room : t.rx.length ≤ t.rxCap

theorem AtFin.ack (h : AtFin fin s t) (opts : List UInt8) (owed : Bool) :
    Returns (do let u ← t.emitAck opts; some (u,owed)) (fun r => AtFin fin s r.1) := by
  obtain ⟨wnd,free,he⟩ := emit_eq h.room t.sndNxt t.rcvNxt tcpAck opts []
  rw [emitAck,he]
  exact .pure ⟨h.rcvNxt,h.finSeq,h.ooo,h.state,h.room⟩

theorem acceptInOrder_atFin (hroom : s.rx.length ≤ s.rxCap)
    (hfits : body.length ≤ s.rxCap-s.rx.length) (now : Nat) : Returns (s.acceptInOrder body true now)
      (fun r => AtFin (s.rcvNxt+UInt32.ofNat body.length) s r.1) := by
  unfold acceptInOrder
  simp only [usub_of_le hroom,bind_eq_bind,bind_some,min_eq_right hfits,take_length,if_true]
  have hlen : (s.rx ++ body).length ≤ s.rxCap := by simp; omega
  split
  · refine AtFin.ack ?_ _ _
    exact ⟨rfl,rfl,rfl,rfl,hlen⟩
  · exact .pure ⟨rfl,rfl,rfl,rfl,hlen⟩

/-- Behind the FIN, in the state `moved`. -/
structure PastFin (fin : UInt32) (moved : State) (s : TcpSock) : Prop where
  rcvNxt : s.rcvNxt = fin+1
  finSeq : s.peerFinSeq = some fin
  ooo : ∀ e ∈ s.ooo, e.1 = fin+1 → e.2 = []
  state : s.state = moved
  room : s.rx.length ≤ s.rxCap

theorem PastFin.promoteOoo (h : PastFin fin moved s) :
    Returns s.promoteOoo (fun r => PastFin fin moved r.1) := by
  refine (promoteOoo_returns h.room).mono fun r hr => ?_
  rcases hr with ⟨rfl,-⟩ | ⟨i,data,hi,rfl⟩
  · exact h
  -- only an empty segment can stand behind the FIN
  have hempty : data = [] := h.ooo _ (mem_of_getElem? hi) h.rcvNxt
  refine ⟨?_,h.finSeq,fun e he => h.ooo e (mem_of_mem_swapRemove he),h.state,?_⟩
  · simp [hempty,h.rcvNxt]
  · simpa [hempty] using h.room

theorem PastFin.consumeLoop (h : PastFin fin moved s) (now rounds : Nat) :
    Returns (TcpSock.consumeLoop now rounds s) (PastFin fin moved) := by
  refine consumeLoop_returns (fun t ht => ?_) (fun t ht => ht.promoteOoo) rounds h
  have hfin : t.consumeFin now = (t,false) := by simp [consumeFin,ht.finSeq,ht.rcvNxt]
  rw [hfin]
  exact ht

theorem AtFin.consumeFin (h : AtFin fin s t) (hends : EndsAt fin s)
    (hopen : s.state.side = .open) (now : Nat) :
    ∃ u moved, t.consumeFin now = (u,true) ∧ PastFin fin moved u ∧ TookFin s.state moved := by
  have hooo : ∀ e ∈ t.ooo, e.1 = fin+1 → e.2 = [] := by rw [h.ooo]; exact hends.ooo
  unfold TcpSock.consumeFin
  rw [h.finSeq]
  simp only [h.rcvNxt,if_true,h.state]
  cases hs : s.state <;> rw [hs] at hopen <;> try cases hopen
  · exact ⟨_,.closeWait,rfl,⟨rfl,rfl,hooo,rfl,h.room⟩,.established⟩
  · exact ⟨_,.closing,rfl,⟨rfl,rfl,hooo,rfl,h.room⟩,.crossing⟩
  · exact ⟨_,.timeWait,rfl,⟨rfl,rfl,hooo,rfl,h.room⟩,.finWait2⟩

theorem AtFin.consumeFinAndOoo (h : AtFin fin s t) (hends : EndsAt fin s)
    (hopen : s.state.side = .open) (now : Nat) :
    Returns (t.consumeFinAndOoo now) (fun u => ∃ moved, PastFin fin moved u ∧ TookFin s.state moved) := by
  obtain ⟨u,moved,hu,hpast,htook⟩ := h.consumeFin hends hopen now
  rw [TcpSock.consumeFinAndOoo,TcpSock.consumeLoop,hu]
  refine Returns.bind hpast.promoteOoo fun r hr => ?_
  exact (hr.consumeLoop now _).mono fun v hv => ⟨moved,hv,htook⟩

theorem consumeLoop_noFin (hfin : s.peerFinSeq = none) (hroom : s.rx.length ≤ s.rxCap) (now rounds : Nat) :
    Returns (TcpSock.consumeLoop now rounds s)
      (fun t => t.state = s.state ∧ t.peerFinSeq = none ∧ t.rx.length ≤ t.rxCap) := by
  refine consumeLoop_returns (fun t ht => ?_) (fun t ht => ?_) rounds ⟨rfl,hfin,hroom⟩
  · simpa [consumeFin,ht.2.1] using ht
  · refine (promoteOoo_returns ht.2.2).mono fun r hr => ?_
    rcases hr with ⟨rfl,-⟩ | ⟨i,data,-,rfl⟩
    · exact ht
    · refine ⟨ht.1,ht.2.1,?_⟩
      simp only [length_append,length_take]
      omega

theorem acceptStream_atFin (seq : UInt32) (body : List UInt8) (hroom : s.rx.length ≤ s.rxCap)
    (hopen : s.state.side = .open) (hrel : ahead seq s.rcvNxt ≤ body.length) (hlen : body.length < 2147483648)
    (hfits : body.length-ahead seq s.rcvNxt ≤ s.rxCap-s.rx.length)
    (hcase : seq = s.rcvNxt ∨ ahead seq s.rcvNxt < body.length ∨
      s.peerFinSeq = some (seq+UInt32.ofNat body.length)) (now : Nat) :
    Returns (s.acceptStream seq body true now) (fun r => AtFin (seq+UInt32.ofNat body.length) s r.1) := by
  have hdata : s.state.isDataState = true := by
    cases hs : s.state <;> rw [hs] at hopen <;> first | rfl | cases hopen
  have hend : s.rcvNxt+UInt32.ofNat (body.length-ahead seq s.rcvNxt) =
      seq+UInt32.ofNat body.length := by
    conv_lhs => rw [← add_ahead seq s.rcvNxt,add_ofNat_add]
    congr 2
    rw [add_ahead]
    omega
  unfold acceptStream
  rw [if_neg (by simp [hdata])]
  split
  · rename_i hseq
    subst hseq
    rw [ahead_self] at hfits
    exact acceptInOrder_atFin hroom hfits now
  rename_i hseq
  rw [if_neg (by simp [not_seqLt_of_ahead hseq (by omega)])]
  have hdrop : (body.drop (ahead seq s.rcvNxt)).length = body.length-ahead seq s.rcvNxt :=
    length_drop
  dsimp only
  split
  · have hin := acceptInOrder_atFin hroom (hdrop ▸ hfits) now
    rw [hdrop,hend] at hin
    exact hin
  rename_i hall
  have hall : body.length = ahead seq s.rcvNxt := le_antisymm (not_lt.mp hall) hrel
  rw [hall,add_ahead] at hcase ⊢
  have hfin : s.peerFinSeq = some s.rcvNxt := by
    rcases hcase with hcase | hcase | hcase
    · exact absurd hcase hseq
    · exact absurd hcase (lt_irrefl _)
    · exact hcase
  exact AtFin.ack ⟨rfl,hfin,rfl,rfl,hroom⟩ _ _

theorem ackPart_open (hopen : s.state.side = .open) (hdr : TcpHeader) (now : Nat) :
    Yields (if hdr.has tcpAck then s.processAck hdr now else some s) (fun t => Sends s t ∧
      t.state.side = .open ∧ ∀ moved, TookFin t.state moved → TookFin s.state moved) := by
  split
  · intro t ht
    have hstate : t.state = s.state ∨ s.state = .finWait1 ∧ t.state = .finWait2 := by
      rcases processAck_state s hdr now t ht with hfast | ⟨-,hrest⟩
      · exact .inl hfast.2
      split at hrest
      · rw [hrest]
        cases hs : s.state <;> rw [hs] at hopen <;> try cases hopen
        · exact .inl rfl
        · exact .inr ⟨rfl,rfl⟩
        · exact .inl rfl
      · exact .inl hrest
    refine ⟨processAck_sends s hdr now t ht,?_,?_⟩
    · rcases hstate with hsame | ⟨-,hmoved⟩
      · rw [hsame]; exact hopen
      · rw [hmoved]; rfl
    rcases hstate with hsame | ⟨hfrom,hmoved⟩
    · rw [hsame]; exact fun _ => id
    rw [hfrom,hmoved]
    intro moved htook
    cases htook
    exact .acked
  · exact .pure ⟨Sends.refl s,hopen,fun _ => id⟩

theorem TookFin.past {from_ to_ : State} (h : TookFin from_ to_) : to_.side = .past := by
  cases h <;> rfl

theorem AtFin.finish {u : TcpSock} (h : AtFin fin s u) (hends : EndsAt fin s)
    (hopen : s.state.side = .open) (owed : Bool) (now : Nat) : Yields (do
      let v ← u.consumeFinAndOoo now
      if v.state.isDataState && owed then v.emitAck v.ackOptionsWithSack else some v)
      (fun v => AcceptedFin fin s v) := by
  obtain ⟨v,hv,moved,hpast,htook⟩ := h.consumeFinAndOoo hends hopen now
  have hdone : AcceptedFin fin s v := ⟨hpast.rcvNxt,hpast.state ▸ htook⟩
  simp only [hv,bind_eq_bind,bind_some]
  split
  · intro w hw
    have hkeep := emit_sends _ _ _ _ _ _ w hw
    have hstate := emit_state _ _ _ _ _ _ w hw
    exact ⟨hkeep.rcvNxt.trans hdone.1,hstate.1 ▸ hdone.2⟩
  · exact .pure hdone

theorem duplicate_open {seq : UInt32} {fin : Bool} (hseq : seq ≠ s.rcvNxt)
    (hpast : seqLt s.rcvNxt seq = false) (hall : ¬ ahead seq s.rcvNxt < body.length) (now : Nat) :
    Yields (s.acceptStream seq body fin now) (fun r => Sends s r.1 ∧ r.1.state = s.state) := by
  unfold acceptStream
  split
  · exact .pure ⟨Sends.refl s,rfl⟩
  rw [if_neg (by simp [hpast])]
  dsimp only
  rw [if_neg (show ¬ (s.rcvNxt-seq).toNat < body.length from hall)]
  intro r hr
  rw [bind_eq_bind,bind_eq_some_iff] at hr
  obtain ⟨u,hu,hr⟩ := hr
  obtain rfl := Option.some.inj hr
  exact ⟨emit_sends _ _ _ _ _ _ u hu,(emit_state _ _ _ _ _ _ u hu).1⟩

theorem noFin_finish (hfin : s.peerFinSeq = none) (hroom : s.rx.length ≤ s.rxCap) (owed : Bool) (now : Nat) :
    Yields (do
      let v ← s.consumeFinAndOoo now
      if v.state.isDataState && owed then v.emitAck v.ackOptionsWithSack else some v)
      (fun v => v.state = s.state) := by
  refine Yields.bind (consumeLoop_noFin hfin hroom now _).yields fun v hv => ?_
  split
  · exact (emit_state _ _ _ _ _ _).mono fun w hw => hw.1.trans hv.1
  · exact .pure hv.1

end PeerFin

/-- A segment with FIN that reaches back to what was received, and whose new part
fits: the FIN is taken exactly if the segment brings something new, or starts at
`rcv_nxt`, or its FIN is on record. -/
theorem fin_accepted_iff {s : TcpSock} (hroom : s.rx.length ≤ s.rxCap)
    (hopen : s.state.side = .open) {hdr : TcpHeader} {body : List UInt8} {now : Nat}
    (hfin : hdr.has tcpFin = true) (hrel : ahead hdr.seq s.rcvNxt ≤ body.length)
    (hlen : body.length < 2147483648) (hfits : body.length-ahead hdr.seq s.rcvNxt ≤ s.rxCap-s.rx.length)
    (hends : EndsAt (hdr.seq+UInt32.ofNat body.length) s) : Returns (s.establishedInput hdr body now)
        (AcceptedFin (hdr.seq+UInt32.ofNat body.length) s) ↔
      hdr.seq = s.rcvNxt ∨ ahead hdr.seq s.rcvNxt < body.length ∨
        s.peerFinSeq = some (hdr.seq+UInt32.ofNat body.length) := by
  obtain ⟨v,hv,-⟩ := establishedInput_returns hroom (by intro h; simp [h,State.side] at hopen) hdr
    body now
  by_cases hcase : hdr.seq = s.rcvNxt ∨ ahead hdr.seq s.rcvNxt < body.length ∨
      s.peerFinSeq = some (hdr.seq+UInt32.ofNat body.length)
  · refine ⟨fun _ => hcase,fun _ => ⟨v,hv,?_⟩⟩
    have hall : Yields (s.establishedInput hdr body now)
        (AcceptedFin (hdr.seq+UInt32.ofNat body.length) s) := by
      unfold establishedInput
      refine Yields.bind (ackPart_open hopen hdr now) fun t ht => ?_
      obtain ⟨hsends,hopen',hmoves⟩ := ht
      have hin := acceptStream_atFin (s := t) hdr.seq body
        (by rw [hsends.rx,hsends.rxCap]; exact hroom) hopen' (by rw [hsends.rcvNxt]; exact hrel) hlen
        (by rw [hsends.rx,hsends.rxCap,hsends.rcvNxt]; exact hfits)
        (by rw [hsends.rcvNxt,hsends.finSeq]; exact hcase) now
      obtain ⟨r,hr,hat⟩ := hin
      simp only [hfin,Bool.or_true,if_true,hr,bind_eq_bind,bind_some]
      have hends' : EndsAt (hdr.seq+UInt32.ofNat body.length) t :=
        ⟨hsends.finSeq ▸ hends.finSeq,hsends.ooo ▸ hends.ooo⟩
      exact (hat.finish hends' hopen' r.2 now).mono fun w hw => ⟨hw.1,hmoves _ hw.2⟩
    exact hall v hv
  · refine ⟨fun h => ?_,fun h => absurd h hcase⟩
    simp only [not_or] at hcase
    have hnone : s.peerFinSeq = none := by
      cases hpeer : s.peerFinSeq with
      | none => rfl
      | some f => exact absurd (hends.finSeq f hpeer ▸ hpeer) hcase.2.2
    have hstays : Yields (s.establishedInput hdr body now) (fun t => t.state.side = .open) := by
      unfold establishedInput
      refine Yields.bind (ackPart_open hopen hdr now) fun t ht => ?_
      obtain ⟨hsends,hopen',-⟩ := ht
      simp only [hfin,Bool.or_true,if_true]
      refine Yields.bind (duplicate_open (by rw [hsends.rcvNxt]; exact hcase.1)
        (by rw [hsends.rcvNxt]; exact not_seqLt_of_ahead hcase.1 (by omega))
        (by rw [hsends.rcvNxt]; exact hcase.2.1) now) fun r hr => ?_
      have hkeep := hsends.trans hr.1
      refine (noFin_finish (hkeep.finSeq.trans hnone)
        (by rw [hkeep.rx,hkeep.rxCap]; exact hroom) r.2 now).mono fun w hw => ?_
      rw [hw,hr.2]
      exact hopen'
    obtain ⟨w,hw,-,htook⟩ := h
    have hside : w.state.side = .open := hstays w hw
    rw [htook.past] at hside
    cases hside

def halfHello : Conn :=
  (run Conn.step (Conn.open 4096 4096 7) [.poll 0,.input (synAck 7) [] 1,
    .input (dataAt 0 tcpAck) [104,101] 2]).get (by decide +kernel)

theorem fin_accepted_overlap :
    Returns (halfHello.sock.establishedInput (dataAt 0 (tcpAck ||| tcpFin)) [104,101,108,108,111] 3)
      (AcceptedFin 1006 halfHello.sock) := by
  have hfin : halfHello.sock.peerFinSeq = none := by decide +kernel
  have hooo : halfHello.sock.ooo = [] := by decide +kernel
  refine (fin_accepted_iff (by decide +kernel) (by decide +kernel) (by decide) (by decide +kernel)
    (by decide) (by decide +kernel) ⟨?_,?_⟩).mpr (.inr (.inl (by decide +kernel)))
  · simp [hfin]
  · simp [hooo]

/-- The segment with the FIN overtakes the first one, is put aside without its
FIN and used up. Sent again, it is a duplicate: its FIN is never taken. -/
theorem overtaking_fin_lost : (run Conn.step (Conn.open 4096 4096 7) [.poll 0,.input (synAck 7) [] 1,
      .input (dataAt 2 (tcpAck ||| tcpFin)) [108,108,111] 2,.input (dataAt 0 tcpAck) [104,101] 3,
      .input (dataAt 2 (tcpAck ||| tcpFin)) [108,108,111] 4]).map
      (fun c => (c.sock.state,c.sock.rcvNxt,c.sock.rx,c.sock.peerFinSeq)) =
    some (.established,1006,[104,101,108,108,111],none) := by
  decide +kernel

end PaghOS.Tcp
