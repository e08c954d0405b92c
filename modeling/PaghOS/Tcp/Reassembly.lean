import PaghOS.Tcp.RecvSide

/-!
The receive stream under arbitrary arrival order. The peer's stream and its
initial sequence number are fixed; what arrives are pieces of that stream.
-/

namespace PaghOS.Tcp
open Loop Serial PaghOS.Stream List Option

variable {body : List UInt8} {hdr : TcpHeader} {n off : Nat}
variable {m : Nat} {data : List UInt8} {fin : Bool} {seq : UInt32}

def TcpSock.finTaken (s : TcpSock) : Bool := s.peerFinSeq == some (s.rcvNxt-1)

/-- A segment of the peer's stream. The SYN takes `irs`, so that the payload of
a segment with SYN starts one further; the FIN stands behind the last byte. -/
def Genuine (irs : UInt32) (peer : List UInt8) (hdr : TcpHeader) (body : List UInt8) : Prop :=
  hdr.has tcpRst = true ∨
  (hdr.has tcpSyn = true → hdr.seq = irs) ∧
  (body ≠ [] ∨ hdr.has tcpFin = true → ∃ off, Piece peer off body ∧
      (if hdr.has tcpSyn then hdr.seq+1 else hdr.seq) = seqAt irs off ∧
      (hdr.has tcpFin = true → off+body.length = peer.length))

instance (irs : UInt32) (peer : List UInt8) (hdr : TcpHeader) (body : List UInt8) :
    Decidable (Genuine irs peer hdr body) :=
  inferInstanceAs (Decidable (_ ∨ _))

section Place
variable {irs : UInt32} {peer : List UInt8}

theorem ahead_irs (irs : UInt32) (hn : n+1 < 4294967296) : ahead irs (seqAt irs n) = n+1 := by
  have h := ahead_add_ofNat irs hn
  rw [Nat.add_comm,← add_ofNat_add] at h
  rw [Nat.add_comm n 1]
  exact h

theorem seqAt_inj (hm : m+1 < 4294967296) (hn : n+1 < 4294967296)
    (h : seqAt irs m = seqAt irs n) : m = n := by
  have hm' := ahead_irs irs hm
  rw [h,ahead_irs irs hn] at hm'
  omega

theorem seqAt_ne_irs (hn : n+1 < 4294967296) : seqAt irs n ≠ irs := by
  intro h
  have hn' := ahead_irs irs hn
  rw [h,ahead_self] at hn'
  omega

end Place

/-- How far the stream was followed: up to the delivered bytes, or past the FIN. -/
inductive Place (irs : UInt32) (peer received : List UInt8) (s : TcpSock) : Prop where
  | before (hnxt : s.rcvNxt = seqAt irs (received.length+s.rx.length))
      (hside : s.state.side ≠ .past)
  | after (hnxt : s.rcvNxt = seqAt irs (peer.length+1))
      (hfin : s.peerFinSeq = some (seqAt irs peer.length))
      (hall : received.length+s.rx.length = peer.length)
      (hside : s.state.side = .past ∨ s.state.side = .off)

/-- The receive side from the handshake on. Segments put aside are pieces of the
stream, or stale SYNs. `fits` asks that no FIN was recorded ahead of bytes that
did not fit. -/
structure Follows (irs : UInt32) (peer : List UInt8) (fits : Prop) (received : List UInt8)
    (s : TcpSock) : Prop where
  irsEq : s.irs = irs
  opened : s.state.side ≠ .waiting
  room : s.rx.length ≤ s.rxCap
  front : received ++ s.rx <+: peer
  fin : s.peerFinSeq = none ∨ s.peerFinSeq = some (seqAt irs peer.length)
  ooo : ∀ e ∈ s.ooo, e.1 = irs ∨ ∃ off, e.1 = seqAt irs off ∧ Piece peer off e.2
  seen : fits → s.peerFinSeen = true → received.length+s.rx.length = peer.length
  place : Place irs peer received s

variable {irs : UInt32} {peer received : List UInt8} {fits : Prop} {s t : TcpSock}

section
variable (h : Follows irs peer fits received s)
include h

theorem Follows.sends (k : Sends s t) : Follows irs peer fits received t where
  irsEq := k.irs.trans h.irsEq
  opened := by
    rcases k.side with hs | hs
    · simp [hs,State.side]
    · rw [hs]; exact h.opened
  room := by rw [k.rx,k.rxCap]; exact h.room
  front := by rw [k.rx]; exact h.front
  fin := by rw [k.finSeq]; exact h.fin
  ooo := by rw [k.ooo]; exact h.ooo
  seen := by rw [k.finSeen,k.rx]; exact h.seen
  place := by
    cases h.place with
    | before hnxt hside =>
      refine .before (by rw [k.rcvNxt,k.rx]; exact hnxt) ?_
      rcases k.side with hs | hs
      · simp [hs,State.side]
      · rw [hs]; exact hside
    | after hnxt hfin hall hside =>
      refine .after (k.rcvNxt.trans hnxt) (k.finSeq.trans hfin) (by rw [k.rx]; exact hall) ?_
      rcases k.side with hs | hs
      · simp [hs,State.side]
      · rw [hs]; exact hside

theorem Follows.length_le : received.length+s.rx.length ≤ peer.length := by
  simpa using h.front.length_le

theorem Follows.setFin {pos : UInt32} (hpos : pos = seqAt irs peer.length)
    (hall : fits → received.length+s.rx.length = peer.length) : Follows irs peer fits received
      { s with peerFinSeq := some pos, peerFinSeen := true } := by
  refine ⟨h.irsEq,h.opened,h.room,h.front,.inr (congrArg some hpos),h.ooo,fun hf _ => hall hf,?_⟩
  cases h.place with
  | before hnxt hside => exact .before hnxt hside
  | after hnxt hfin hall hside => exact .after hnxt (congrArg some hpos) hall hside

omit h in
theorem follows_receives : Receives (Follows irs peer fits received) :=
  .of_sends (fun _ h => h.room) fun _ _ h k => h.sends k

/-- What a segment may bring: a piece of the stream, or a SYN whose payload ends
no later than one byte past what was delivered. -/
def Brings (irs : UInt32) (peer received : List UInt8) (s : TcpSock) (seq : UInt32)
    (body : List UInt8) (fin : Bool) : Prop :=
  (∃ off, Piece peer off body ∧ seq = seqAt irs off ∧ (fin = true → off+body.length = peer.length)) ∨
  seq = irs ∧ body.length ≤ received.length+s.rx.length+1

theorem Follows.storeOoo (hseg : seq = irs ∨ ∃ off, seq = seqAt irs off ∧ Piece peer off body) :
    Follows irs peer fits received (s.storeOoo seq body) := by
  unfold TcpSock.storeOoo
  dsimp only
  split
  · refine ⟨h.irsEq,h.opened,h.room,h.front,h.fin,?_,h.seen,?_⟩
    · intro e he
      rcases mem_append.mp he with he | he
      · exact h.ooo e he
      · rw [mem_singleton.mp he]
        exact hseg
    · cases h.place with
      | before hnxt hside => exact .before hnxt hside
      | after hnxt hfin hall hside => exact .after hnxt hfin hall hside
  · exact h

theorem Follows.rcvNxt_eq :
    ∃ d, s.rcvNxt = seqAt irs d ∧ received.length+s.rx.length ≤ d ∧ d ≤ peer.length+1 := by
  have hlen := h.length_le
  cases h.place with
  | before hnxt hside => exact ⟨_,hnxt,le_rfl,by omega⟩
  | after hnxt hfin hall hside => exact ⟨_,hnxt,by omega,le_rfl⟩

omit h in
theorem ahead_seqAt_of_lt (irs : UInt32) (hm : m+1 < 4294967296) (hn : n+1 < 4294967296) (hlt : n < m) :
    ahead (seqAt irs m) (seqAt irs n) = 4294967296-(m-n) := by
  rw [ahead_sub irs,ahead_irs irs hm,ahead_irs irs hn]
  omega

omit h in
theorem mem_of_mem_swapRemove {α : Type} {xs : List α} {i : Nat} {x : α}
    (h : x ∈ swapRemove xs i) : x ∈ xs := by
  unfold swapRemove at h
  split at h
  · rename_i last hlast
    rcases mem_or_eq_of_mem_set (dropLast_subset _ h) with hx | rfl
    · exact hx
    · exact mem_of_getLast? hlast
  · simp at h

theorem Follows.forget {ooo : List (UInt32 × List UInt8)}
    (hsub : ∀ e ∈ ooo, e ∈ s.ooo) : Follows irs peer fits received { s with ooo := ooo } := by
  refine ⟨h.irsEq,h.opened,h.room,h.front,h.fin,fun e he => h.ooo e (hsub e he),h.seen,?_⟩
  cases h.place with
  | before hnxt hside => exact .before hnxt hside
  | after hnxt hfin hall hside => exact .after hnxt hfin hall hside

/-- What the stream part of `established_input` needs to know of a segment. -/
structure Bears (irs : UInt32) (peer : List UInt8) (fits : Prop) (received : List UInt8)
    (s : TcpSock) (hdr : TcpHeader) (body : List UInt8) : Prop where
  brings : body ≠ [] ∨ hdr.has tcpFin = true →
    Brings irs peer received s hdr.seq body (hdr.has tcpFin)
  whole : fits → hdr.has tcpFin = true → seqLt s.rcvNxt hdr.seq = false →
    body.length-(s.rcvNxt-hdr.seq).toNat ≤ s.rxCap-s.rx.length

omit h in
theorem Bears.sends (h : Bears irs peer fits received s hdr body) (k : Sends s t) :
    Bears irs peer fits received t hdr body where
  brings := by
    unfold Brings
    rw [k.rx]
    exact h.brings
  whole := by
    rw [k.rcvNxt,k.rx,k.rxCap]
    exact h.whole

variable (hsmall : peer.length+2 < 4294967296)
include hsmall

theorem Follows.off_eq (hat : s.rcvNxt = seqAt irs off) (hp : Piece peer off data) :
    off = received.length+s.rx.length ∧ s.state.side ≠ .past := by
  have hlen := h.length_le
  have hoff := hp.1
  cases h.place with
  | before hnxt hside =>
    exact ⟨(seqAt_inj (by omega) (by omega) (hnxt.symm.trans hat)).symm,hside⟩
  | after hnxt hfin hall hside =>
    have := seqAt_inj (by omega) (by omega) (hnxt.symm.trans hat)
    omega

theorem Follows.append (hat : s.rcvNxt = seqAt irs off) (hp : Piece peer off data)
    (hn : n = min (s.rxCap-s.rx.length) data.length) : Follows irs peer fits received
      { s with rx := s.rx ++ data.take n, rcvNxt := s.rcvNxt+UInt32.ofNat n } := by
  obtain ⟨rfl,hside⟩ := h.off_eq hsmall hat hp
  have hlen := h.length_le
  have htake : (data.take n).length = n := by simp; omega
  have hroom := h.room
  have hfront : received ++ (s.rx ++ data.take n) <+: peer := by
    rw [← append_assoc]
    refine Piece.extends ?_ h.front
    simpa using hp.take n
  refine ⟨h.irsEq,h.opened,?_,hfront,h.fin,h.ooo,?_,.before ?_ hside⟩
  · simp only [length_append,htake]
    omega
  · intro hf hseen
    have hall := h.seen hf hseen
    have hle := hfront.length_le
    simp only [length_append,htake] at hle ⊢
    omega
  · simp only [length_append,htake]
    rw [hat,seqAt_add]
    congr 1
    omega

theorem Follows.taken (hat : s.rcvNxt = seqAt irs off) (hp : Piece peer off body)
    (hend : fin = true → off+body.length = peer.length)
    (hfit : fits → fin = true → body.length ≤ s.rxCap-s.rx.length) :
    Follows irs peer fits received (s.taken body fin) := by
  obtain ⟨hoff,-⟩ := h.off_eq hsmall hat hp
  have happ := h.append hsmall hat hp rfl
  unfold TcpSock.taken
  dsimp only
  split
  · rename_i hflag
    refine happ.setFin ?_ fun hf => ?_
    · rw [hat,seqAt_add,hend hflag]
    have hspace := hfit hf hflag
    have hlast := hend hflag
    simp only [length_append,length_take]
    omega
  · exact happ

omit h in
theorem piece_beyond {d : Nat} (hp : Piece peer off body) (hd : d ≤ peer.length+1)
    (hrel : ahead (seqAt irs off) (seqAt irs d) ≤ body.length) :
    ahead (seqAt irs off) (seqAt irs d)+off = d ∧
      Piece peer d (body.drop (ahead (seqAt irs off) (seqAt irs d))) := by
  have hoff := hp.1
  by_cases hle : off ≤ d
  · have hrel' := ahead_seqAt irs hle (by omega)
    rw [hrel'] at hrel ⊢
    have hdrop := hp.drop hrel
    rw [show off+(d-off) = d by omega] at hdrop
    exact ⟨by omega,hdrop⟩
  · rw [ahead_seqAt_of_lt irs (by omega) (by omega) (by omega)] at hrel
    omega

theorem Follows.acceptStream (hseg : Brings irs peer received s seq body fin)
    (hfit : fits → fin = true → seqLt s.rcvNxt seq = false →
      body.length-(s.rcvNxt-seq).toNat ≤ s.rxCap-s.rx.length) (now : Nat) :
    Yields (s.acceptStream seq body fin now) (fun r => Follows irs peer fits received r.1) := by
  obtain ⟨d,hd,hlo,hhi⟩ := h.rcvNxt_eq
  refine follows_receives.acceptStream h (fun hold hnew => ?_) (fun _ => ?_) now
  · rcases hseg with ⟨off,hp,rfl,hend⟩ | ⟨rfl,hshort⟩
    · have hrel : ahead (seqAt irs off) s.rcvNxt ≤ body.length := by
        rcases hnew with hnew | hnew
        · simp [hnew]
        · exact le_of_lt hnew
      rw [hd] at hrel ⊢
      obtain ⟨hsum,hpiece⟩ := piece_beyond hsmall hp hhi hrel
      refine h.taken hsmall hd hpiece ?_ ?_
      · intro hflag
        have := hend hflag
        simp only [length_drop]
        omega
      · intro hf hflag
        rw [length_drop,← hd]
        exact hfit hf hflag hold
    · -- a SYN with payload: nothing of it lies beyond the boundary
      have hrel : ahead seq s.rcvNxt = d+1 := by
        rw [hd]
        exact ahead_irs seq (by omega)
      rcases hnew with hnew | hnew
      · rw [← hnew,ahead_self] at hrel
        cases hrel
      · omega
  · refine h.storeOoo ?_
    rcases hseg with ⟨off,hp,hat,-⟩ | ⟨hirs,-⟩
    · exact .inr ⟨off,hat,hp⟩
    · exact .inl hirs

theorem Follows.consumeFin (now : Nat) : Follows irs peer fits received (s.consumeFin now).1 := by
  have hlen := h.length_le
  unfold TcpSock.consumeFin
  split
  · rename_i fpos hfpos
    have hend : fpos = seqAt irs peer.length := by
      rcases h.fin with hn | hs
      · rw [hn] at hfpos; cases hfpos
      · exact some_inj.mp (hfpos.symm.trans hs)
    split
    · rename_i hat
      have hat' := hat.trans hend
      -- the FIN is taken only once, and only behind the last byte
      obtain ⟨hall,hside⟩ : received.length+s.rx.length = peer.length ∧ s.state.side ≠ .past := by
        cases h.place with
        | before hnxt hside =>
          exact ⟨seqAt_inj (by omega) (by omega) (hnxt.symm.trans hat'),hside⟩
        | after hnxt =>
          have := seqAt_inj (by omega) (by omega) (hnxt.symm.trans hat')
          omega
      have hnxt : fpos+1 = seqAt irs (peer.length+1) := by
        rw [hend,← seqAt_add]; rfl
      have hgone : ∀ st dl, (st.side = .past ∨ st.side = .off) → Follows irs peer fits received
          { s with rcvNxt := fpos+1, state := st, timewaitDeadline := dl } := by
        intro st dl hst
        refine ⟨h.irsEq,?_,h.room,h.front,h.fin,h.ooo,h.seen,.after hnxt (hend ▸ hfpos) hall hst⟩
        rcases hst with hst | hst <;> simp [hst]
      have hopened := h.opened
      dsimp only
      cases hs : s.state <;> rw [hs] at hside hopened <;> dsimp only
      case synSent => exact absurd rfl hopened
      case closeWait | lastAck | closing | timeWait => exact absurd rfl hside
      case closed | listen => simpa only [hs] using hgone s.state _ (.inr (by rw [hs]; rfl))
      all_goals exact hgone _ _ (.inl rfl)
    · exact h
  · exact h

theorem Follows.promoteOoo :
    Returns s.promoteOoo (fun r => Follows irs peer fits received r.1) := by
  refine (promoteOoo_returns h.room).mono fun r hr => ?_
  rcases hr with ⟨rfl,-⟩ | ⟨i,data,hi,rfl⟩
  · exact h
  obtain ⟨d,hd,-,hhi⟩ := h.rcvNxt_eq
  rcases h.ooo _ (mem_of_getElem? hi) with hirs | ⟨off,hoff,hp⟩
  · exact absurd (hd.symm.trans hirs) (seqAt_ne_irs (by omega))
  · have hsub := h.forget (fun e he => mem_of_mem_swapRemove (i := i) he)
    exact hsub.append hsmall hoff hp rfl

theorem Follows.establishedInput (hseg : Bears irs peer fits received s hdr body) (now : Nat) :
    Yields (s.establishedInput hdr body now) (Follows irs peer fits received) := by
  refine follows_receives.establishedInput follows_receives h (fun t ht hfol hsome => ?_) fun t ht => ?_
  · have hseg := hseg.sends ht.toSends
    exact hfol.acceptStream hsmall (hseg.brings hsome) hseg.whole now
  · exact (consumeLoop_returns (fun _ h => h.consumeFin hsmall now)
      (fun _ h => h.promoteOoo hsmall) _ ht).yields

end

/-- The receive side before the peer's SYN was heard, or of a socket that gave
up before. -/
structure Awaits (received : List UInt8) (s : TcpSock) : Prop where
  state : s.state = .synSent ∨ s.state = .closed
  ever : s.everEstablished = false
  rx : s.rx = []
  ooo : s.ooo = []
  finSeq : s.peerFinSeq = none
  finSeen : s.peerFinSeen = false
  nothing : received = []

theorem Sends.unheard (k : Sends s t) (h : s.state = .synSent ∨ s.state = .closed) :
    t.state = .synSent ∨ t.state = .closed := by
  rcases k.side with hs | hs
  · exact .inr hs
  rcases h with hst | hst
  · rw [hst] at hs
    refine .inl ?_
    cases ht : t.state <;> simp [ht,State.side] at hs ⊢
  · exact .inr (k.closed hst)

theorem Awaits.sends (h : Awaits received s) (k : Sends s t) : Awaits received t where
  state := k.unheard h.state
  ever := k.ever.trans h.ever
  rx := k.rx.trans h.rx
  ooo := k.ooo.trans h.ooo
  finSeq := k.finSeq.trans h.finSeq
  finSeen := k.finSeen.trans h.finSeen
  nothing := h.nothing

theorem Awaits.establishedInput (h : Awaits received s) (hclosed : s.state = .closed)
    (hdr : TcpHeader) (body : List UInt8) (now : Nat) :
    Yields (s.establishedInput hdr body now) (Awaits received) := by
  rw [establishedInput_eq]
  refine Yields.bind (takeAck_transmits s hdr now) fun t ht => ?_
  have ha := h.sends ht.toSends
  rw [streamInput_idle (ht.closed hclosed) ha.ooo ha.finSeq]
  exact .pure ha

theorem Awaits.opens (h : Awaits received s) (hirs : t.irs = irs) (hnxt : t.rcvNxt = irs+1)
    (hside : t.state.side = .half ∨ t.state.side = .open) (hrx : t.rx = s.rx)
    (hooo : t.ooo = s.ooo) (hseq : t.peerFinSeq = s.peerFinSeq)
    (hseen : t.peerFinSeen = s.peerFinSeen) : Follows irs peer fits received t := by
  obtain rfl := h.nothing
  rw [h.rx] at hrx
  rw [h.ooo] at hooo
  refine ⟨hirs,?_,by simp [hrx],by simp [hrx],.inl (hseq.trans h.finSeq),by simp [hooo],?_,
    .before ?_ ?_⟩
  · rcases hside with hs | hs <;> simp [hs]
  · intro _ hs
    rw [hseen,h.finSeen] at hs
    cases hs
  · simp [hnxt,hrx,seqAt]
  · rcases hside with hs | hs <;> simp [hs]

theorem Follows.establish (h : Follows irs peer fits received s) (hs : s.state = .synRcvd) :
    Follows irs peer fits received { s with
      everEstablished := true, state := .established, rtoDeadline := none, retries := 0 } := by
  refine ⟨h.irsEq,by simp [State.side],h.room,h.front,h.fin,h.ooo,h.seen,?_⟩
  cases h.place with
  | before hnxt hside => exact .before hnxt (by simp [State.side])
  | after hnxt hfin hall hside => rw [hs] at hside; simp [State.side] at hside

/-- The receive side of a connection, before and after the peer's SYN. -/
def Hears (irs : UInt32) (peer : List UInt8) (fits : Prop) (received : List UInt8) (s : TcpSock) :
    Prop :=
  Awaits received s ∨ Follows irs peer fits received s

theorem Hears.room (h : Hears irs peer fits received s) : s.rx.length ≤ s.rxCap :=
  h.elim (fun h => by simp [h.rx]) fun h => h.room

theorem Hears.sends (h : Hears irs peer fits received s) (k : Sends s t) :
    Hears irs peer fits received t :=
  h.imp (fun h => h.sends k) fun h => h.sends k

theorem Genuine.bears (h : Genuine irs peer hdr body) (hrst : hdr.has tcpRst = false)
    (hshort : hdr.has tcpSyn = true → body.length ≤ received.length+s.rx.length+1)
    (hwhole : fits → hdr.has tcpFin = true → seqLt s.rcvNxt hdr.seq = false →
      body.length-(s.rcvNxt-hdr.seq).toNat ≤ s.rxCap-s.rx.length) :
    Bears irs peer fits received s hdr body := by
  refine ⟨fun hsome => ?_,hwhole⟩
  rcases h with h | ⟨hsyn,hpiece⟩
  · rw [hrst] at h; cases h
  · cases hs : hdr.has tcpSyn with
    | true => exact .inr ⟨hsyn hs,hshort hs⟩
    | false => exact .inl (by simpa [hs] using hpiece hsome)

theorem Awaits.synsentInput (h : Awaits received s) (hsmall : peer.length+2 < 4294967296)
    (hgen : Genuine irs peer hdr body) (hrst : hdr.has tcpRst = false)
    (hshort : hdr.has tcpSyn = true → body.length ≤ received.length+s.rx.length+1) (now : Nat) :
    Yields (s.synsentInput hdr body now) (Hears irs peer fits received) := by
  have hsyn : hdr.has tcpSyn = true → hdr.seq = irs := by
    rcases hgen with hgen | hgen
    · rw [hrst] at hgen; cases hgen
    · exact hgen.1
  rw [synsentInput_eq]
  split
  · rename_i hflags
    simp only [Bool.and_eq_true] at hflags
    obtain rfl := hsyn hflags.1
    split
    · exact .pure (.inl h)
    have hopen : ∀ snd rcv, Follows hdr.seq peer fits received (s.opened hdr snd rcv) :=
      fun _ _ => h.opens rfl rfl (.inr rfl) rfl rfl rfl rfl
    refine Yields.bind (emit_sends _ _ _ _ _ _) fun v hv => ?_
    have hfol := (hopen _ _).sends hv
    split
    · refine (hfol.establishedInput hsmall (hgen.bears hrst ?_ ?_) now).mono (fun _ => .inr)
      · rw [hv.rx]
        exact hshort
      -- at most one byte, which `irs` itself stands for
      intro _ _ _
      have hone := hshort hflags.1
      rw [h.nothing,h.rx] at hone
      have hrel : (v.rcvNxt-hdr.seq).toNat = 1 := by
        rw [hv.rcvNxt]
        exact ahead_add_ofNat hdr.seq (n := 1) (by decide)
      simp only [length_nil] at hone
      omega
    · exact .pure (.inr hfol)
  split
  · rename_i hflag
    exact .pure (.inr (h.opens (hsyn hflag) (by rw [← hsyn hflag]; rfl) (.inl rfl) rfl rfl rfl rfl))
  · exact .pure (.inl h)

theorem Follows.synrcvdInput (h : Follows irs peer fits received s)
    (hsmall : peer.length+2 < 4294967296) (hs : s.state = .synRcvd)
    (hseg : Bears irs peer fits received s hdr body) (now : Nat) :
    Yields (s.synrcvdInput hdr body now) (Follows irs peer fits received) := by
  unfold TcpSock.synrcvdInput
  split
  · dsimp only
    split
    · exact (h.establish hs).establishedInput hsmall ⟨hseg.brings,hseg.whole⟩ now
    · exact .pure (h.establish hs)
  · exact .pure h

theorem rst_sends (s : TcpSock) (hdr : TcpHeader) : Yields (do
    if ← s.rstAcceptable hdr then
      some { s with refused := s.refused || !s.everEstablished, state := .closed }
    else some s) (Sends s) := by
  refine Yields.bind (Yields.any _) fun ok _ => ?_
  split
  · exact .pure (.of_recvPart rfl (.inl rfl) fun _ => rfl)
  · exact .pure (Sends.refl s)

theorem Hears.connectedInput (h : Hears irs peer fits received s) (hsmall : peer.length+2 < 4294967296)
    (hgen : Genuine irs peer hdr body) (hshort : hdr.has tcpRst = false → hdr.has tcpSyn = true →
      body.length ≤ received.length+s.rx.length+1)
    (hwhole : fits → hdr.has tcpRst = false → hdr.has tcpFin = true → seqLt s.rcvNxt hdr.seq = false →
      body.length-(s.rcvNxt-hdr.seq).toNat ≤ s.rxCap-s.rx.length) (now : Nat) :
    Yields (s.connectedInput hdr body now) (Hears irs peer fits received) := by
  unfold TcpSock.connectedInput
  split
  · exact (rst_sends s hdr).mono fun _ ht => h.sends ht
  rename_i hrst
  have hrst' : hdr.has tcpRst = false := by simpa using hrst
  rcases h with h | h
  · rcases h.state with hs | hs
    · rw [hs]
      exact h.synsentInput hsmall hgen hrst' (hshort hrst') now
    · rw [hs]
      exact (h.establishedInput hs hdr body now).mono fun _ => .inl
  have hseg := hgen.bears hrst' (hshort hrst') fun hf => hwhole hf hrst'
  split
  · rename_i hs
    exact absurd (by rw [hs]; rfl) h.opened
  · rename_i hs
    exact (h.synrcvdInput hsmall hs hseg now).mono fun _ => .inr
  · exact (h.establishedInput hsmall hseg now).mono fun _ => .inr

theorem Hears.recvSlice (h : Hears irs peer fits received s) (len : Nat) :
    Yields (s.recvSlice len) (fun r => Hears irs peer fits (received ++ r.2) r.1) := by
  have hroom := h.room
  obtain ⟨w,hw⟩ := recvSlice_eq hroom len
  rw [hw]
  refine .pure ?_
  generalize hn : min len s.rx.length = n
  have hsum : (received ++ s.rx.take n).length+(s.rx.drop n).length =
      received.length+s.rx.length := by simp; omega
  refine h.imp (fun h => ?_) fun h => ?_
  · exact ⟨h.state,h.ever,by simp [h.rx],h.ooo,h.finSeq,h.finSeen,by simp [h.rx,h.nothing]⟩
  refine ⟨h.irsEq,h.opened,?_,?_,h.fin,h.ooo,fun hf hs => hsum.trans (h.seen hf hs),?_⟩
  · simp only [length_drop]
    omega
  · simpa [append_assoc] using h.front
  · cases h.place with
    | before hnxt hside => exact .before (by rw [hsum]; exact hnxt) hside
    | after hnxt hfin hall hside => exact .after hnxt hfin (hsum.trans hall) hside

end PaghOS.Tcp
