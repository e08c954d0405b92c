import PaghOS.Tcp.SackPromise

/-!
The segments put aside and the delivery point. Promotion takes only what starts exactly at
`rcv_nxt`, so an entry whose start was passed stays where it is.
-/

namespace PaghOS.Tcp
open Loop Serial List TcpSock

def Clear (e g : UInt32 × List UInt8) : Prop := e.2.length ≤ ahead e.1 g.1 ∧ g.2.length ≤ ahead g.1 e.1

instance (e g : UInt32 × List UInt8) : Decidable (Clear e g) := inferInstanceAs (Decidable (_ ∧ _))

/-- Nothing put aside has been passed, and nothing will be by a promotion or the FIN. -/
structure Fronted (s : TcpSock) : Prop where
  room : s.rx.length ≤ s.rxCap
  near : ∀ e ∈ s.ooo, ahead s.rcvNxt e.1 ≤ 2147483648
  apart : s.ooo.Pairwise fun e g => e.1 ≠ g.1 ∧ Clear e g
  fin : ∀ f, s.peerFinSeq = some f → ∀ e ∈ s.ooo, e.1 ≠ f

/-- Nothing put aside starts at the delivery point. -/
def Settled (s : TcpSock) : Prop := ∀ e ∈ s.ooo, e.1 ≠ s.rcvNxt

theorem ahead_add_left {a b : UInt32} {n : Nat} (h : n ≤ ahead a b) :
    ahead (a+UInt32.ofNat n) b = ahead a b-n := by
  have hlt : ahead a b < 4294967296 := (b-a).toNat_lt
  have hn := ahead_add_ofNat a (n := n) (by omega)
  have hsub := ahead_sub a (a+UInt32.ofNat n) b
  omega

section Entries

variable {s t : TcpSock}
variable {body : List UInt8}

theorem Fronted.after (h : Fronted s) (hs : Settled s) {e : UInt32 × List UInt8} (he : e ∈ s.ooo) :
    seqLt s.rcvNxt e.1 = true := by
  have hzero : ahead s.rcvNxt e.1 ≠ 0 := fun hz => hs e he ((ahead_eq_zero_iff _ _).1 hz).symm
  exact (seqLt_iff _ _).2 ⟨by omega,h.near e he⟩

theorem Fronted.sends (h : Fronted s) (k : Sends s t) : Fronted t := by
  refine ⟨?_,?_,?_,?_⟩
  · rw [k.rx,k.rxCap]
    exact h.room
  · rw [k.rcvNxt,k.ooo]
    exact h.near
  · rw [k.ooo]
    exact h.apart
  · rw [k.finSeq,k.ooo]
    exact h.fin

theorem Fronted.advance (h : Fronted s) {n : Nat} (hn : ∀ e ∈ s.ooo, n ≤ ahead s.rcvNxt e.1)
    (hnxt : t.rcvNxt = s.rcvNxt+UInt32.ofNat n) (hooo : t.ooo = s.ooo) (hroom : t.rx.length ≤ t.rxCap)
    (hfin : ∀ f, t.peerFinSeq = some f → ∀ e ∈ s.ooo, e.1 ≠ f) : Fronted t := by
  refine ⟨hroom,fun e he => ?_,hooo ▸ h.apart,fun f hf e he => hfin f hf e (hooo ▸ he)⟩
  rw [hooo] at he
  have hnear := h.near e he
  rw [hnxt,ahead_add_left (hn e he)]
  omega

theorem fronted_receives : Receives Fronted := .of_sends (fun _ h => h.room) fun _ _ h k => h.sends k

theorem Fronted.taken (h : Fronted s) {fin : Bool}
    (hn : ∀ e ∈ s.ooo, min (s.rxCap-s.rx.length) body.length ≤ ahead s.rcvNxt e.1)
    (hfin : fin = true → ∀ e ∈ s.ooo, e.1 ≠ s.rcvNxt+UInt32.ofNat body.length) :
    Fronted (s.taken body fin) := by
  have hroom := h.room
  have hlen : (s.rx ++ body.take (min (s.rxCap-s.rx.length) body.length)).length ≤ s.rxCap := by
    rw [length_append,length_take]
    omega
  unfold TcpSock.taken
  dsimp only
  split
  · next hflag =>
    refine h.advance hn rfl rfl hlen fun f hf e he => ?_
    cases hf
    exact hfin hflag e he
  · exact h.advance hn rfl rfl hlen h.fin

theorem Fronted.storeOoo (h : Fronted s) {seq : UInt32} (hfuture : seqLt s.rcvNxt seq = true)
    (hok : s.takesAside seq → s.peerFinSeq ≠ some seq ∧ ∀ e ∈ s.ooo, Clear e (seq,body)) :
    Fronted (s.storeOoo seq body) := by
  rw [storeOoo_eq]
  split
  · next hkept =>
    obtain ⟨hnofin,hclear⟩ := hok hkept
    have hnew : ∀ e ∈ s.ooo, e.1 ≠ seq := by
      have := hkept.2.2
      simpa using this
    refine ⟨h.room,fun e he => ?_,?_,fun f hf e he => ?_⟩
    · rcases mem_append.mp he with he | he
      · exact h.near e he
      · rw [mem_singleton.mp he]
        exact ((seqLt_iff _ _).1 hfuture).2
    · refine pairwise_append.2 ⟨h.apart,pairwise_singleton _ _,fun e he g hg => ?_⟩
      rw [mem_singleton.mp hg]
      exact ⟨hnew e he,hclear e he⟩
    · rcases mem_append.mp he with he | he
      · exact h.fin f hf e he
      · rw [mem_singleton.mp he]
        rintro rfl
        exact hnofin hf
  · exact h

/-- A segment that passes an entry, or that will be passed itself or by the FIN. -/
def TcpSock.passes (s : TcpSock) (seq : UInt32) (body : List UInt8) (fin : Bool) : Prop :=
  if seqLt s.rcvNxt seq then
    s.takesAside seq ∧ (s.peerFinSeq = some seq ∨ ∃ e ∈ s.ooo, ¬Clear e (seq,body))
  else ∃ e ∈ s.ooo, ahead s.rcvNxt e.1 < min (s.rxCap-s.rx.length) (body.length-ahead seq s.rcvNxt) ∨
    fin = true ∧ e.1 = s.rcvNxt+UInt32.ofNat (body.length-ahead seq s.rcvNxt)

instance (s : TcpSock) (seq : UInt32) (body : List UInt8) (fin : Bool) :
    Decidable (s.passes seq body fin) := by
  unfold TcpSock.passes
  infer_instance

theorem Fronted.acceptStream (h : Fronted s) {seq : UInt32} {fin : Bool}
    (hok : ¬s.passes seq body fin) (now : Nat) :
    Yields (s.acceptStream seq body fin now) (fun r => Fronted r.1) := by
  unfold passes at hok
  refine fronted_receives.acceptStream h (fun hpast _ => ?_) (fun hfuture => ?_) now
  · rw [if_neg (by simp [hpast])] at hok
    simp only [not_exists,not_and,not_or,not_lt] at hok
    have hlen : (body.drop (ahead seq s.rcvNxt)).length = body.length-ahead seq s.rcvNxt := length_drop
    refine h.taken (fun e he => ?_) fun hf e he => ?_
    · rw [hlen]
      exact (hok e he).1
    · rw [hlen]
      exact (hok e he).2 hf
  · rw [if_pos hfuture] at hok
    refine h.storeOoo hfuture fun hkept => ?_
    simpa [hkept] using hok

theorem consumeFin_cases (s : TcpSock) (now : Nat) : s.consumeFin now = (s,false) ∨
    s.peerFinSeq = some s.rcvNxt ∧ ∃ st dl, s.consumeFin now =
      ({ s with rcvNxt := s.rcvNxt+1, state := st, timewaitDeadline := dl },true) := by
  unfold consumeFin
  split
  · next f hf =>
    split
    · next hat =>
      subst hat
      refine .inr ⟨hf,?_⟩
      dsimp only
      split <;> exact ⟨_,_,rfl⟩
    · exact .inl rfl
  · exact .inl rfl

theorem Fronted.consumeFin (h : Fronted s) (now : Nat) : Fronted (s.consumeFin now).1 := by
  rcases consumeFin_cases s now with hc | ⟨hf,st,dl,hc⟩
  · rw [hc]
    exact h
  rw [hc]
  refine h.advance (n := 1) (fun e he => ?_) rfl rfl h.room h.fin
  have hne : ahead s.rcvNxt e.1 ≠ 0 := fun hz => h.fin _ hf e he ((ahead_eq_zero_iff _ _).1 hz).symm
  omega

theorem Settled.promoteOoo (h : Settled s) : s.promoteOoo = some (s,false) := by
  have hnone : s.ooo.findIdx? (fun e => e.1 == s.rcvNxt) = none :=
    List.findIdx?_eq_none_iff.2 fun e he => by simpa using h e he
  simp [TcpSock.promoteOoo,hnone]

theorem promoteOoo_less (hroom : s.rx.length ≤ s.rxCap) : Returns s.promoteOoo (fun r =>
    r = (s,false) ∧ Settled s ∨
      r.2 = true ∧ r.1.ooo.length < s.ooo.length ∧ r.1.rx.length ≤ r.1.rxCap) := by
  refine (promoteOoo_returns hroom).mono fun r hr => ?_
  rcases hr with hr | ⟨i,data,hi,rfl⟩
  · exact .inl hr
  have hlen := (swapRemove_perm hi).length_eq
  refine .inr ⟨rfl,?_,?_⟩
  · simp only [length_cons] at hlen ⊢
    omega
  · simp only [length_append,length_take]
    omega

/-- The rounds of `consume_fin_and_ooo` are enough: it ends where a round makes no
progress. -/
theorem consumeLoop_settles (hroom : s.rx.length ≤ s.rxCap) (now rounds : Nat)
    (hrounds : s.ooo.length+2 ≤ rounds) :
    Returns (TcpSock.consumeLoop now rounds s) (fun t => t.consumeFin now = (t,false) ∧ Settled t) := by
  induction rounds generalizing s with
  | zero => omega
  | succ rounds ih =>
    rw [TcpSock.consumeLoop]
    rcases consumeFin_cases s now with hc | ⟨hf,st,dl,hc⟩
    · rw [hc]
      refine Returns.bind (promoteOoo_less hroom) fun r hr => ?_
      obtain ⟨rfl,hs⟩ | ⟨hmore,hless,hroom⟩ := hr
      · exact .pure ⟨hc,hs⟩
      · simp only [hmore,Bool.or_true,if_true]
        exact ih hroom (by omega)
    · rw [hc]
      refine Returns.bind (promoteOoo_less hroom) fun r hr => ?_
      simp only [Bool.true_or,if_true]
      obtain ⟨rfl,hs⟩ | ⟨-,hless,hroom⟩ := hr
      · -- with only the FIN taken, the next round stops
        obtain ⟨rounds,rfl⟩ : ∃ k, rounds = k+1 := ⟨rounds-1,by omega⟩
        have hstop := (consumeFin_cases { s with
          rcvNxt := s.rcvNxt+1, state := st, timewaitDeadline := dl } now).resolve_right
            (fun h => by simp [hf] at h)
        rw [TcpSock.consumeLoop,hstop]
        simp only [hs.promoteOoo,Option.bind_eq_bind,Option.bind_some]
        exact .pure ⟨hstop,hs⟩
      · exact ih hroom (by dsimp only at hless; omega)

theorem Fronted.promoteOoo (h : Fronted s) : Returns s.promoteOoo (fun r => Fronted r.1) := by
  refine (promoteOoo_returns h.room).mono fun r hr => ?_
  rcases hr with ⟨rfl,-⟩ | ⟨i,data,hi,rfl⟩
  · exact h
  have hperm := swapRemove_perm hi
  have hroom := h.room
  obtain ⟨hfirst,hrest⟩ := pairwise_cons.1
    (hperm.pairwise h.apart fun {_ _} hab => ⟨Ne.symm hab.1,hab.2.symm⟩)
  have hsub : Fronted { s with ooo := swapRemove s.ooo i } :=
    ⟨h.room,fun e he => h.near e (hperm.mem_iff.2 (mem_cons_of_mem _ he)),hrest,
      fun f hf e he => h.fin f hf e (hperm.mem_iff.2 (mem_cons_of_mem _ he))⟩
  refine hsub.advance (fun e he => ?_) rfl rfl ?_ hsub.fin
  · exact le_trans (min_le_right _ _) (hfirst e he).2.1
  · simp only [length_append,length_take]
    omega

theorem Fronted.establishedInput (h : Fronted s) {hdr : TcpHeader}
    (hok : body ≠ [] ∨ hdr.has tcpFin = true → ¬s.passes hdr.seq body (hdr.has tcpFin)) (now : Nat) :
    Yields (s.establishedInput hdr body now) (fun t => Fronted t ∧ Settled t) := by
  have hsettled : Receives fun t => Fronted t ∧ Settled t := by
    refine .of_sends (fun _ h => h.1.room) fun t u ht k => ⟨ht.1.sends k,?_⟩
    unfold Settled
    rw [k.ooo,k.rcvNxt]
    exact ht.2
  refine fronted_receives.establishedInput hsettled h (fun t hk ht hsome => ?_) fun t ht => ?_
  · refine ht.acceptStream (fun hpass => hok hsome ?_) now
    simpa only [passes,takesAside,hk.rcvNxt,hk.rx,hk.rxCap,hk.ooo,hk.finSeq] using hpass
  · refine ((consumeLoop_returns (fun _ h => h.consumeFin now) (fun _ h => h.promoteOoo) _ ht).and ?_).yields
    exact (consumeLoop_settles ht.room now _ le_rfl).yields.mono fun _ hu => hu.2

end Entries

/-! ### Runs -/

inductive RecvCall where
  | input (hdr : TcpHeader) (body : List UInt8) (now : Nat)
  | recv (len : Nat)

def TcpSock.recvCall (s : TcpSock) : RecvCall → Option TcpSock
  | .input hdr body now => s.establishedInput hdr body now
  | .recv len => (s.recvSlice len).map Prod.fst

def Keepable (s : TcpSock) : RecvCall → Prop
  | .input hdr body _ => body ≠ [] ∨ hdr.has tcpFin = true → ¬s.passes hdr.seq body (hdr.has tcpFin)
  | .recv _ => True

instance (s : TcpSock) : (c : RecvCall) → Decidable (Keepable s c)
  | .input hdr body _ =>
    inferInstanceAs (Decidable (body ≠ [] ∨ hdr.has tcpFin = true → ¬s.passes hdr.seq body (hdr.has tcpFin)))
  | .recv _ => .isTrue trivial

theorem Fronted.recvSlice {s : TcpSock} (h : Fronted s ∧ Settled s) (len : Nat) :
    Yields ((s.recvSlice len).map Prod.fst) (fun t => Fronted t ∧ Settled t) := by
  obtain ⟨w,hw⟩ := recvSlice_eq h.1.room len
  rw [hw]
  refine .pure ⟨⟨?_,h.1.near,h.1.apart,h.1.fin⟩,h.2⟩
  have := h.1.room
  simp only [length_drop]
  omega

/-- As long as no segment passes the start of one that is put aside, and none is put aside that
meets another, everything put aside stays beyond the delivery point. -/
theorem ooo_after_rcvNxt (s : TcpSock) (hroom : s.rx.length ≤ s.rxCap) (hooo : s.ooo = [])
    (calls : List RecvCall)
    (hcond : ∀ p c t, p ++ [c] <+: calls → run TcpSock.recvCall s p = some t → Keepable t c) :
    ∀ p, p <+: calls → Yields (run TcpSock.recvCall s p)
      (fun t => ∀ e ∈ t.ooo, seqLt t.rcvNxt e.1 = true) := by
  intro p hp
  have hstart : Fronted s ∧ Settled s :=
    ⟨⟨hroom,by simp [hooo],by simp [hooo],by simp [hooo]⟩,by simp [Settled,hooo]⟩
  have hstep : ∀ t c, Fronted t ∧ Settled t → Keepable t c →
      Yields (t.recvCall c) (fun u => Fronted u ∧ Settled u) := by
    intro t c ht hc
    cases c with
    | input hdr body now => exact ht.1.establishedInput hc now
    | recv len => exact Fronted.recvSlice ht len
  exact (run_yields Keepable hstep hstart hcond p hp).mono fun t ht e he => ht.1.after ht.2 he

def joinedSock : TcpSock :=
  ((run Conn.step (Conn.open 4096 4096 7) [.poll 0,.input (synAck 7) [] 1]).getD (Conn.open 4096 4096 7)).sock

theorem ooo_after_rcvNxt_shuffled : joinedSock.state = .established ∧ Returns (run TcpSock.recvCall joinedSock
      [.input (dataAt 3 tcpAck) [108,111] 2,.input (dataAt 0 tcpAck) [104,101] 3,.recv 1])
      (fun t => ∀ e ∈ t.ooo, seqLt t.rcvNxt e.1 = true) :=
  ⟨by decide +kernel,
    (ooo_after_rcvNxt joinedSock (by decide +kernel) (by decide +kernel) _
      (Along.at_prefix (by decide +kernel : Along recvCall Keepable _ _)) _ prefix_rfl).returns
        (by decide +kernel)⟩

/-- The peer has cut its five bytes anew: the end of them arrives, then all but the last. -/
theorem resegmented_dead : joinedSock.state = .established ∧ joinedSock.ooo = [] ∧
    Genuine 1000 [104,101,108,108,111] (dataAt 2 tcpAck) [108,108,111] ∧
    Genuine 1000 [104,101,108,108,111] (dataAt 0 tcpAck) [104,101,108,108] ∧ (run TcpSock.recvCall joinedSock
      [.input (dataAt 2 tcpAck) [108,108,111] 2,.input (dataAt 0 tcpAck) [104,101,108,108] 3]).map
        (fun t => (t.rcvNxt,t.ooo)) = some (1005,[(1003,[108,108,111])]) ∧ seqLt 1005 1003 = false := by
  decide +kernel

end PaghOS.Tcp
