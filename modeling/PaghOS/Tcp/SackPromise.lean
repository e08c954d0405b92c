import PaghOS.Tcp.FinHandling
import PaghOS.Tcp.Options

/-!
What a SACK option promises. The advertised ranges come from the segments put
aside; a promise is broken only where one of them is cut on its way into the
receive buffer.
-/

namespace PaghOS.Tcp
open Loop Serial PaghOS.Stream List Option TcpSock

variable {body : List UInt8} {hdr : TcpHeader}

/-- The sequence number `q` is below `rcv_nxt`, counted from the peer's first,
or its byte is still put aside. -/
def Held (irs : UInt32) (s : TcpSock) (q : UInt32) : Prop :=
  ahead irs q < ahead irs s.rcvNxt ∨ ∃ e ∈ s.ooo, ahead e.1 q < e.2.length

/-- Every range that one of the segments advertised is held. -/
def Promised (irs : UInt32) (log : List Segment) (s : TcpSock) : Prop :=
  ∀ g ∈ log, ∀ b ∈ g.header.sackBlocks, ∀ q, ahead b.1 q < ahead b.1 b.2 → Held irs s q

section Merge
variable {ooo : List (UInt32 × List UInt8)}

def Covers (ooo : List (UInt32 × List UInt8)) (b : UInt32 × UInt32) : Prop :=
  ∀ q, ahead b.1 q < ahead b.1 b.2 → ∃ e ∈ ooo, ahead e.1 q < e.2.length

theorem edge_covers {e : UInt32 × List UInt8} (he : e ∈ ooo) (hlen : e.2.length < 4294967296) :
    Covers ooo (e.1,e.1+UInt32.ofNat e.2.length) := by
  intro q hq
  rw [ahead_add_ofNat _ hlen] at hq
  exact ⟨e,he,hq⟩

theorem ahead_of_le {a b : UInt32} (h : a ≤ b) : ahead a b = b.toNat-a.toNat := by
  have hle : a.toNat ≤ b.toNat := h
  have hb := b.toNat_lt
  rw [ahead_eq]
  omega

theorem Covers.merge {l r : UInt32} {b : UInt32 × UInt32} (h : Covers ooo (l,r))
    (hb : Covers ooo b) (hleft : l ≤ b.1) (hmeet : b.1 ≤ r) : Covers ooo (l,max r b.2) := by
  intro q hq
  dsimp only at hq
  have hlr : l ≤ r := UInt32.le_trans hleft hmeet
  have hmax : r ≤ max r b.2 := UInt32.le_iff_toNat_le.mpr (by rw [UInt32.toNat_max]; omega)
  rw [ahead_of_le (UInt32.le_trans hlr hmax)] at hq
  have hmaxNat : (max r b.2).toNat = max r.toNat b.2.toNat := UInt32.toNat_max ..
  have hl' : l.toNat ≤ b.1.toNat := hleft
  have hm' : b.1.toNat ≤ r.toNat := hmeet
  have hqlt := q.toNat_lt
  have hrlt := (max r b.2).toNat_lt
  have hlq : l.toNat ≤ q.toNat := by
    rw [ahead_eq] at hq
    omega
  rw [ahead_of_le hlq] at hq
  by_cases hin : q.toNat < r.toNat
  · refine h q ?_
    rw [ahead_of_le hlq,ahead_of_le hlr]
    omega
  refine hb q ?_
  have hbq : b.1 ≤ q := UInt32.le_iff_toNat_le.mpr (by omega)
  have hbb : b.1 ≤ b.2 := UInt32.le_iff_toNat_le.mpr (by omega)
  rw [ahead_of_le hbq,ahead_of_le hbb]
  omega

theorem foldl_mergeEdge_covers (edges merged : List (UInt32 × UInt32))
    (hsorted : edges.Pairwise (fun a b => a.1 ≤ b.1))
    (hstart : ∀ m ∈ merged.head?, ∀ b ∈ edges, m.1 ≤ b.1) (hedges : ∀ b ∈ edges, Covers ooo b)
    (hmerged : ∀ b ∈ merged, Covers ooo b) : ∀ b ∈ edges.foldl mergeEdge merged, Covers ooo b := by
  induction edges generalizing merged with
  | nil => exact hmerged
  | cons b edges ih =>
    obtain ⟨hfirst,hrest⟩ := pairwise_cons.mp hsorted
    have hb := hedges b (mem_cons_self ..)
    have hedges' : ∀ b' ∈ edges, Covers ooo b' := fun b' hb' => hedges b' (mem_cons_of_mem _ hb')
    rw [foldl_cons]
    cases merged with
    | nil =>
      refine ih [b] hrest ?_ hedges' ?_
      · simpa using hfirst
      · simpa using hb
    | cons m rest =>
      have hm : m.1 ≤ b.1 := hstart m rfl b (mem_cons_self ..)
      unfold mergeEdge
      dsimp only
      split
      · rename_i hmeet
        refine ih _ hrest ?_ hedges' ?_
        · simpa using fun b' hb' => hstart m rfl b' (mem_cons_of_mem _ hb')
        intro b' hb'
        rcases mem_cons.mp hb' with rfl | hb'
        · exact (hmerged m (mem_cons_self ..)).merge hb hm hmeet
        · exact hmerged b' (mem_cons_of_mem _ hb')
      · refine ih _ hrest ?_ hedges' ?_
        · simpa using hfirst
        intro b' hb'
        rcases mem_cons.mp hb' with rfl | hb'
        · exact hb
        · exact hmerged b' hb'

theorem ackOptions_covers {s : TcpSock} (hlen : ∀ e ∈ s.ooo, e.2.length < 4294967296)
    (seq ack : UInt32) (flags : UInt8) (wnd : UInt16) (payload : List UInt8) :
    ∀ b ∈ (Segment.mk seq ack flags wnd s.ackOptionsWithSack payload).header.sackBlocks,
      Covers s.ooo b := by
  unfold ackOptionsWithSack
  split
  · exact nofun
  rw [sackBlocks_of_sackOption]
  intro b hb
  refine foldl_mergeEdge_covers _ [] (pairwise_insertionSort _ _) nofun ?_ nofun b
    (mem_reverse.mp (mem_of_mem_take hb))
  intro b hb
  rw [mem_insertionSort] at hb
  obtain ⟨e,he,rfl⟩ := mem_map.mp hb
  exact edge_covers he (hlen e he)

end Merge

section Plain
variable {s t : TcpSock}

/-- Only segments without SACK blocks went out. -/
def NoSack (s t : TcpSock) : Prop :=
  ∃ plain, t.out = s.out ++ plain ∧ ∀ g ∈ plain, g.header.sackBlocks = []

theorem ctrlOptions_noSack (seq ack : UInt32) (flags : UInt8) (wnd : UInt16) (scale : UInt8)
    (payload : List UInt8) :
    (Segment.mk seq ack flags wnd (ctrlOptions scale) payload).header.sackBlocks = [] := by
  unfold Segment.header ctrlOptions
  split
  · simp [readOptions,TcpHeader.withOption]
  · rfl

theorem Transmits.noSack (h : Transmits s t) : NoSack s t := by
  obtain ⟨new,hnew,hopts⟩ := h.out
  refine ⟨new,hnew,fun g hg => ?_⟩
  obtain ⟨seq,ack,flags,wnd,opts,payload⟩ := g
  obtain rfl | ⟨scale,rfl⟩ : opts = [] ∨ ∃ scale, opts = ctrlOptions scale := hopts _ hg
  · rfl
  · exact ctrlOptions_noSack _ _ _ _ _ _

end Plain

/-- The receive side of a peer whose stream has `size` bytes. What was put aside
lies in the stream and, from `rcv_nxt` on, fits into the buffer. -/
structure Keeps (irs : UInt32) (size : Nat) (log : List Segment) (s : TcpSock) : Prop where
  opened : s.state ≠ .synSent
  room : s.rx.length ≤ s.rxCap
  nxt : ahead irs s.rcvNxt ≤ size+2
  fin : ∀ f, s.peerFinSeq = some f → ahead irs f ≤ size+1
  ooo : ∀ e ∈ s.ooo, ahead irs e.1+e.2.length ≤ size+1
  fits : ∀ e ∈ s.ooo, e.2 ≠ [] →
    ahead irs e.1+e.2.length ≤ ahead irs s.rcvNxt+(s.rxCap-s.rx.length)
  promised : Promised irs (log ++ s.out) s

section Keeps
variable {irs : UInt32} {size : Nat} {log : List Segment} {s t : TcpSock}
variable {peer : List UInt8}

theorem Promised.mono {gs : List Segment} (h : Promised irs gs s)
    (hheld : ∀ q, Held irs s q → Held irs t q) : Promised irs gs t :=
  fun g hg b hb q hq => hheld q (h g hg b hb q hq)

theorem Promised.snoc {gs new : List Segment} (h : Promised irs gs s) (hnew : Promised irs new s) :
    Promised irs (gs ++ new) s := by
  intro g hg
  rcases mem_append.mp hg with hg | hg
  · exact h g hg
  · exact hnew g hg

section
variable (h : Keeps irs size log s)
include h

theorem Keeps.transmits (k : Transmits s t) : Keeps irs size log t where
  opened := by
    intro hs
    rcases k.side with hside | hside
    · rw [hs] at hside; cases hside
    rw [hs] at hside
    have hopened := h.opened
    revert hside hopened
    cases s.state <;> simp [State.side]
  room := by rw [k.rx,k.rxCap]; exact h.room
  nxt := by rw [k.rcvNxt]; exact h.nxt
  fin := by rw [k.finSeq]; exact h.fin
  ooo := by rw [k.ooo]; exact h.ooo
  fits := by rw [k.ooo,k.rcvNxt,k.rx,k.rxCap]; exact h.fits
  promised := by
    obtain ⟨plain,hplain,hnone⟩ := k.noSack
    rw [hplain,← append_assoc]
    refine Promised.snoc (h.promised.mono fun q hq => ?_) fun g hg b hb => ?_
    · unfold Held
      rw [k.rcvNxt,k.ooo]
      exact hq
    · rw [hnone g hg] at hb
      cases hb

theorem Keeps.setFin {f : UInt32} (hf : ahead irs f ≤ size+1) :
    Keeps irs size log { s with peerFinSeq := some f, peerFinSeen := true } :=
  ⟨h.opened,h.room,h.nxt,by simpa using hf,h.ooo,h.fits,h.promised⟩

/-- `accept_stream` keeps a segment beyond `rcv_nxt` that starts here. -/
def TcpSock.takesAside (s : TcpSock) (seq : UInt32) : Prop :=
  (seq-s.rcvNxt).toNat < max (s.rxCap-s.rx.length+s.ooo.foldr (fun e n => e.2.length+n) 0) 1 ∧
    s.ooo.length < oooCap ∧ !s.ooo.any (fun e => e.1 == seq)

instance (s : TcpSock) (seq : UInt32) : Decidable (s.takesAside seq) :=
  inferInstanceAs (Decidable (_ ∧ _))

omit h in
theorem storeOoo_eq (s : TcpSock) (seq : UInt32) (body : List UInt8) : s.storeOoo seq body =
    if s.takesAside seq then { s with ooo := s.ooo ++ [(seq,body)] } else s := rfl

theorem Keeps.storeOoo {seq : UInt32} (hend : ahead irs seq+body.length ≤ size+1)
    (hfits : s.takesAside seq → body ≠ [] → ahead s.rcvNxt seq+body.length ≤ s.rxCap-s.rx.length) :
    Keeps irs size log (s.storeOoo seq body) := by
  rw [storeOoo_eq]
  split
  · rename_i hkept
    refine ⟨h.opened,h.room,h.nxt,h.fin,fun e he => ?_,fun e he hne => ?_,
      h.promised.mono fun q hq => ?_⟩
    · rcases mem_append.mp he with he | he
      · exact h.ooo e he
      · rw [mem_singleton.mp he]
        exact hend
    · rcases mem_append.mp he with he | he
      · exact h.fits e he hne
      rw [mem_singleton.mp he] at hne ⊢
      have hspace := hfits hkept hne
      have hplace := ahead_le irs s.rcvNxt seq
      show ahead irs seq+body.length ≤ ahead irs s.rcvNxt+(s.rxCap-s.rx.length)
      omega
    · rcases hq with hbelow | ⟨e,he,hin⟩
      · exact .inl hbelow
      · exact .inr ⟨e,mem_append_left _ he,hin⟩
  · exact h

omit h in
theorem swapRemove_perm {α : Type} {xs : List α} {i : Nat} {y : α} (hi : xs[i]? = some y) :
    xs.Perm (y :: swapRemove xs i) := by
  obtain ⟨hlt,hget⟩ := List.getElem?_eq_some_iff.mp hi
  have hsplit : xs = xs.take i ++ y :: xs.drop (i+1) := by
    rw [← hget,← drop_eq_getElem_cons hlt,take_append_drop]
  have hlen : (xs.take i).length = i := length_take_of_le (Nat.le_of_lt hlt)
  generalize xs.take i = pre at hsplit hlen
  rcases eq_nil_or_concat (xs.drop (i+1)) with hpost | ⟨mid,last,hpost⟩
  · rw [hpost] at hsplit
    subst hsplit
    simp [swapRemove,← hlen]
  rw [hpost,concat_eq_append] at hsplit
  subst hsplit
  have hlast : (pre ++ y :: (mid ++ [last])).getLast? = some last := by
    rw [← cons_append,← append_assoc,List.getLast?_concat]
  have hremoved : swapRemove (pre ++ y :: (mid ++ [last])) i = pre ++ last :: mid := by
    rw [swapRemove,hlast]
    simp only [← hlen,set_append_right _ _ (Nat.le_refl _),Nat.sub_self,set_cons_zero]
    rw [← cons_append,← append_assoc,dropLast_concat]
  rw [hremoved]
  exact perm_middle.trans (.cons y (.append_left pre (perm_append_singleton last mid)))

variable (hsize : size+2 < 4294967296)
include hsize

theorem Keeps.append {n : Nat}
    {data : List UInt8} (hend : ahead irs s.rcvNxt+data.length ≤ size+1)
    (hn : n = min (s.rxCap-s.rx.length) data.length) : Keeps irs size log
      { s with rx := s.rx ++ data.take n, rcvNxt := s.rcvNxt+UInt32.ofNat n } := by
  have hroom := h.room
  have htake : (data.take n).length = n := by rw [length_take]; omega
  have hpos := ahead_advance irs s.rcvNxt (n := n) (by omega)
  refine ⟨h.opened,?_,?_,h.fin,h.ooo,?_,h.promised.mono fun q hq => ?_⟩
  · show (s.rx ++ data.take n).length ≤ s.rxCap
    rw [length_append,htake]
    omega
  · show ahead irs (s.rcvNxt+UInt32.ofNat n) ≤ size+2
    omega
  · intro e he hne
    have hfit := h.fits e he hne
    show _ ≤ ahead irs (s.rcvNxt+UInt32.ofNat n)+(s.rxCap-(s.rx ++ data.take n).length)
    rw [length_append,htake]
    omega
  · rcases hq with hbelow | haside
    · refine .inl ?_
      show ahead irs q < ahead irs (s.rcvNxt+UInt32.ofNat n)
      omega
    · exact .inr haside

theorem Keeps.ack : Yields (s.emitAck s.ackOptionsWithSack) (Keeps irs size log) := by
  refine emit_yields fun wnd free => ⟨h.opened,h.room,h.nxt,h.fin,h.ooo,h.fits,?_⟩
  show Promised irs (log ++ (s.out ++ [_])) _
  rw [← append_assoc]
  refine Promised.snoc h.promised (fun g hg b hb q hq => .inr ?_)
  rw [mem_singleton.mp hg] at hb
  refine ackOptions_covers (fun e he => ?_) _ _ _ _ _ b hb q hq
  have := h.ooo e he
  omega

omit h in
theorem keeps_receives : Receives (Keeps irs size log) :=
  ⟨fun _ h => h.room,fun _ _ h k => h.transmits k,fun _ h => h.ack hsize⟩

theorem Keeps.taken (hend : ahead irs s.rcvNxt+body.length ≤ size+1) (fin : Bool) :
    Keeps irs size log (s.taken body fin) := by
  have happ := h.append hsize hend rfl
  unfold TcpSock.taken
  dsimp only
  split
  · refine happ.setFin ?_
    rw [ahead_advance irs s.rcvNxt (by omega)]
    exact hend
  · exact happ

theorem Keeps.acceptStream {seq : UInt32} (hend : ahead irs seq+body.length ≤ size+1)
    (hfits : seqLt s.rcvNxt seq = true → s.takesAside seq → body ≠ [] →
      ahead s.rcvNxt seq+body.length ≤ s.rxCap-s.rx.length) (fin : Bool) (now : Nat) :
    Yields (s.acceptStream seq body fin now) (fun r => Keeps irs size log r.1) := by
  refine (keeps_receives hsize).acceptStream h (fun _ hnew => h.taken hsize ?_ fin)
    (fun hfuture => h.storeOoo hend (hfits hfuture)) now
  -- the part of the segment that is new starts at `rcv_nxt`
  rw [length_drop]
  rcases hnew with rfl | hrel
  · simpa using hend
  · have hpos := ahead_trans irs (a := seq) (b := s.rcvNxt) (by omega)
    omega

theorem Keeps.consumeFin (now : Nat) : Keeps irs size log (s.consumeFin now).1 := by
  unfold TcpSock.consumeFin
  split
  · rename_i f hf
    split
    · rename_i hat
      have hle := h.fin f hf
      have hnext : ahead irs (f+1) = ahead irs f+1 := ahead_advance irs f (n := 1) (by omega)
      have hgone : ∀ st dl, st ≠ .synSent → Keeps irs size log
          { s with rcvNxt := f+1, state := st, timewaitDeadline := dl } := by
        intro st dl hst
        refine ⟨hst,h.room,?_,h.fin,h.ooo,fun e he hne => ?_,h.promised.mono fun q hq => ?_⟩
        · show ahead irs (f+1) ≤ size+2
          omega
        · have hfit := h.fits e he hne
          rw [hat] at hfit
          show _ ≤ ahead irs (f+1)+(s.rxCap-s.rx.length)
          omega
        · rcases hq with hbelow | haside
          · rw [hat] at hbelow
            refine .inl ?_
            show ahead irs q < ahead irs (f+1)
            omega
          · exact .inr haside
      dsimp only
      split
      all_goals first | exact hgone _ _ h.opened | exact hgone _ _ (by simp)
    · exact h
  · exact h

theorem Keeps.promoteOoo : Returns s.promoteOoo (fun r => Keeps irs size log r.1) := by
  refine (promoteOoo_returns h.room).mono fun r hr => ?_
  rcases hr with ⟨rfl,-⟩ | ⟨i,data,hi,rfl⟩
  · exact h
  have hmem := mem_of_getElem? hi
  have hend : ahead irs s.rcvNxt+data.length ≤ size+1 := h.ooo _ hmem
  have hwhole : min (s.rxCap-s.rx.length) data.length = data.length := by
    rcases Nat.eq_zero_or_pos data.length with hzero | hpos
    · omega
    have hne : data ≠ [] := ne_nil_of_length_pos hpos
    have hfit : ahead irs s.rcvNxt+data.length ≤ ahead irs s.rcvNxt+(s.rxCap-s.rx.length) :=
      h.fits _ hmem hne
    omega
  have happ := h.append hsize hend rfl
  rw [hwhole] at happ ⊢
  have hpos := ahead_advance irs s.rcvNxt (n := data.length) (by omega)
  have hsub : ∀ e ∈ swapRemove s.ooo i, e ∈ s.ooo := fun e => mem_of_mem_swapRemove
  refine ⟨happ.opened,happ.room,happ.nxt,happ.fin,fun e he => happ.ooo e (hsub e he),
    fun e he => happ.fits e (hsub e he),happ.promised.mono fun q hq => ?_⟩
  rcases hq with hbelow | ⟨e,he,hin⟩
  · exact .inl hbelow
  rcases mem_cons.mp ((swapRemove_perm hi).mem_iff.mp he) with rfl | hrest
  · -- the promoted bytes are now below `rcv_nxt`
    dsimp only at hin
    have hq := ahead_trans irs (a := s.rcvNxt) (b := q) (by omega)
    refine .inl ?_
    show ahead irs q < ahead irs (s.rcvNxt+UInt32.ofNat data.length)
    omega
  · exact .inr ⟨e,hrest,hin⟩

theorem Keeps.establishedInput
    (hend : body ≠ [] ∨ hdr.has tcpFin = true → ahead irs hdr.seq+body.length ≤ size+1)
    (hfits : seqLt s.rcvNxt hdr.seq = true → s.takesAside hdr.seq → body ≠ [] →
      ahead s.rcvNxt hdr.seq+body.length ≤ s.rxCap-s.rx.length) (now : Nat) :
    Yields (s.establishedInput hdr body now) (Keeps irs size log) := by
  have hrecv := @keeps_receives irs size log hsize
  refine hrecv.establishedInput hrecv h (fun t hk hkeep hsome => ?_) fun t ht => ?_
  · refine hkeep.acceptStream hsize (hend hsome) (fun hfuture hkept hne => ?_) _ now
    rw [hk.rcvNxt,hk.rx,hk.rxCap]
    refine hfits (hk.rcvNxt ▸ hfuture) ?_ hne
    simpa only [takesAside,hk.rcvNxt,hk.rx,hk.rxCap,hk.ooo] using hkept
  · exact (consumeLoop_returns (fun _ h => h.consumeFin hsize now)
      (fun _ h => h.promoteOoo hsize) _ ht).yields

end

/-- Before the peer's SYN was heard, or given up before that: nothing is put aside
and nothing was promised. -/
structure Unheard (log : List Segment) (s : TcpSock) : Prop where
  state : s.state = .synSent ∨ s.state = .closed
  room : s.rx.length ≤ s.rxCap
  ooo : s.ooo = []
  fin : s.peerFinSeq = none
  nothing : ∀ g ∈ log ++ s.out, g.header.sackBlocks = []

theorem Unheard.transmits (h : Unheard log s) (k : Transmits s t) : Unheard log t where
  state := k.unheard h.state
  room := by rw [k.rx,k.rxCap]; exact h.room
  ooo := k.ooo.trans h.ooo
  fin := k.finSeq.trans h.fin
  nothing := by
    obtain ⟨plain,hplain,hnone⟩ := k.noSack
    rw [hplain,← append_assoc]
    intro g hg
    rcases mem_append.mp hg with hg | hg
    · exact h.nothing g hg
    · exact hnone g hg

theorem Unheard.hears (h : Unheard log s) (hstate : t.state ≠ .synSent) (hnxt : t.rcvNxt = irs+1)
    (hrx : t.rx = s.rx) (hcap : t.rxCap = s.rxCap) (hooo : t.ooo = s.ooo)
    (hfin : t.peerFinSeq = s.peerFinSeq) (hout : t.out = s.out) (hsize : size+2 < 4294967296) :
    Keeps irs size log t where
  opened := hstate
  room := by rw [hrx,hcap]; exact h.room
  nxt := by
    have hone : ahead irs (irs+1) = 1 := ahead_add_ofNat irs (n := 1) (by decide)
    rw [hnxt,hone]
    omega
  fin := by simp [hfin,h.fin]
  ooo := by simp [hooo,h.ooo]
  fits := by simp [hooo,h.ooo]
  promised := by
    intro g hg b hb
    rw [hout] at hg
    rw [h.nothing g hg] at hb
    cases hb

theorem Unheard.establishedInput (h : Unheard log s) (hclosed : s.state = .closed)
    (hdr : TcpHeader) (body : List UInt8) (now : Nat) :
    Yields (s.establishedInput hdr body now) (Unheard log) := by
  rw [establishedInput_eq]
  refine Yields.bind (takeAck_transmits s hdr now) fun t ht => ?_
  have hu := h.transmits ht
  rw [streamInput_idle (ht.closed hclosed) hu.ooo hu.fin]
  exact .pure hu

theorem Genuine.end_le (h : Genuine irs peer hdr body) (hrst : hdr.has tcpRst = false)
    (hsize : peer.length+2 < 4294967296) (hsome : body ≠ [] ∨ hdr.has tcpFin = true) :
    ahead irs hdr.seq+body.length ≤ peer.length+1 := by
  obtain ⟨hsyn,hpiece⟩ := h.resolve_left (by simp [hrst])
  obtain ⟨off,hp,hat,-⟩ := hpiece hsome
  have hlen := hp.1
  split at hat
  · rename_i hflag
    rw [hsyn hflag,ahead_self]
    omega
  · rw [hat,ahead_irs irs (by omega)]
    omega

def Stands (irs : UInt32) (size : Nat) (log : List Segment) (s : TcpSock) : Prop :=
  Unheard log s ∨ Keeps irs size log s

theorem Stands.room (h : Stands irs size log s) : s.rx.length ≤ s.rxCap :=
  h.elim (fun h => h.room) fun h => h.room

theorem Stands.transmits (h : Stands irs size log s) (k : Transmits s t) : Stands irs size log t :=
  h.imp (fun h => h.transmits k) fun h => h.transmits k

theorem Unheard.synsentInput (h : Unheard log s) (hsize : peer.length+2 < 4294967296)
    (hgen : Genuine irs peer hdr body) (hrst : hdr.has tcpRst = false) (now : Nat) :
    Yields (s.synsentInput hdr body now) (Stands irs peer.length log) := by
  have hseq : hdr.has tcpSyn = true → hdr.seq = irs := (hgen.resolve_left (by simp [hrst])).1
  rw [synsentInput_eq]
  split
  · rename_i hflags
    have hirs := hseq (Bool.and_eq_true_iff.mp hflags).1
    split
    · exact .pure (.inl h)
    have hopened : ∀ snd rcv, Keeps irs peer.length log (s.opened hdr snd rcv) := fun snd rcv =>
      h.hears (by simp [opened]) (by rw [← hirs]; rfl) rfl rfl rfl rfl rfl hsize
    refine Yields.bind (emit_transmits _ _ _ _ _ (.inl rfl)) fun u hu => ?_
    have hkeep := (hopened _ _).transmits hu
    split
    · refine (hkeep.establishedInput hsize (hgen.end_le hrst hsize) ?_ now).mono (fun _ => .inr)
      -- the SYN stands right before `rcv_nxt`
      intro hfuture
      have hback : ahead (hdr.seq+1) hdr.seq = 4294967295 := by
        have hsub := ahead_sub hdr.seq (hdr.seq+1) hdr.seq
        rw [ahead_self,ahead_succ] at hsub
        omega
      have hnxt : u.rcvNxt = hdr.seq+1 := hu.rcvNxt
      rw [hnxt,seqLt_iff,hback] at hfuture
      omega
    · exact .pure (.inr hkeep)
  split
  · rename_i hsyn
    refine .pure (.inr ?_)
    exact h.hears (t := s.met hdr) (by simp [met]) (by rw [← hseq hsyn]; rfl) rfl rfl rfl rfl rfl
      hsize
  · exact .pure (.inl h)

theorem Keeps.joined (h : Keeps irs size log s) : Keeps irs size log s.joined :=
  ⟨nofun,h.room,h.nxt,h.fin,h.ooo,h.fits,h.promised⟩

theorem Stands.connectedInput (h : Stands irs peer.length log s) (hsize : peer.length+2 < 4294967296)
    (hgen : Genuine irs peer hdr body)
    (hfits : s.state ≠ .synSent → hdr.has tcpRst = false → seqLt s.rcvNxt hdr.seq = true →
      s.takesAside hdr.seq → body ≠ [] →
      ahead s.rcvNxt hdr.seq+body.length ≤ s.rxCap-s.rx.length) (now : Nat) :
    Yields (s.connectedInput hdr body now) (Stands irs peer.length log) := by
  unfold TcpSock.connectedInput
  split
  · refine Yields.bind (Yields.any _) (fun ok _ => ?_)
    split
    · exact .pure (h.transmits (.silent (.of_recvPart rfl (.inl rfl) fun _ => rfl) rfl))
    · exact .pure h
  rename_i hrst
  have hrst : hdr.has tcpRst = false := by simpa using hrst
  rcases h with h | h
  · rcases h.state with hs | hs
    · rw [hs]
      exact h.synsentInput hsize hgen hrst now
    · rw [hs]
      exact (h.establishedInput hs hdr body now).mono fun _ => .inl
  have hend := hgen.end_le hrst hsize
  have hfits := hfits h.opened hrst
  split
  · rename_i hs
    exact absurd hs h.opened
  · unfold TcpSock.synrcvdInput
    split
    · dsimp only
      split
      · exact (h.joined.establishedInput hsize hend hfits now).mono fun _ => .inr
      · exact .pure (.inr h.joined)
    · exact .pure (.inr h)
  · exact (h.establishedInput hsize hend hfits now).mono fun _ => .inr

theorem Stands.recvSlice (h : Stands irs size log s) (len : Nat) :
    Yields (s.recvSlice len) (fun r => Stands irs size log r.1) := by
  have hroom := h.room
  obtain ⟨w,hw⟩ := recvSlice_eq hroom len
  rw [hw]
  have hlen : (s.rx.drop (min len s.rx.length)).length ≤ s.rxCap := by
    rw [length_drop]
    omega
  refine .pure (h.imp (fun h => ⟨h.state,hlen,h.ooo,h.fin,h.nothing⟩) fun h => ?_)
  refine ⟨h.opened,hlen,h.nxt,h.fin,h.ooo,fun e he hne => ?_,h.promised⟩
  have hfit := h.fits e he hne
  show _ ≤ ahead irs s.rcvNxt+(s.rxCap-(s.rx.drop _).length)
  rw [length_drop]
  omega

theorem Stands.clearOut (h : Stands irs size log s) :
    Stands irs size (log ++ s.out) { s with out := [] } := by
  refine h.imp (fun h => ?_) fun h => ?_
  · exact ⟨h.state,h.room,h.ooo,h.fin,by simpa using h.nothing⟩
  refine ⟨h.opened,h.room,h.nxt,h.fin,h.ooo,h.fits,?_⟩
  show Promised irs (log ++ s.out ++ []) _
  rw [append_nil]
  exact h.promised

theorem Stands.held (h : Stands irs size log s) : Promised irs (log ++ s.out) s := by
  rcases h with h | h
  · intro g hg b hb
    rw [h.nothing g hg] at hb
    cases hb
  · exact h.promised

end Keeps

/-- A segment beyond `rcv_nxt` is put aside although it does not fit into the
free part of the receive buffer. -/
def Overreach (c : Conn) : Event → Prop
  | .input hdr body _ => c.reaped = false ∧ c.sock.state ≠ .synSent ∧ hdr.has tcpRst = false ∧
      body ≠ [] ∧ seqLt c.sock.rcvNxt hdr.seq = true ∧
      c.sock.takesAside hdr.seq ∧
      c.sock.rxCap-c.sock.rx.length < ahead c.sock.rcvNxt hdr.seq+body.length
  | _ => False

instance (c : Conn) : (e : Event) → Decidable (Overreach c e)
  | .input _ _ _ => inferInstanceAs (Decidable (_ ∧ _))
  | .send _ | .recv _ | .close | .poll _ => .isFalse id

section Runs
variable {irs : UInt32} {peer : List UInt8}

theorem Stands.step {log : List Segment} {c : Conn} (h : Stands irs peer.length log c.sock)
    (hsize : peer.length+2 < 4294967296) {e : Event} (hgen : Brought irs peer e)
    (hfits : ¬ Overreach c e) :
    Yields (c.step e) (fun d => Stands irs peer.length (log ++ c.sock.out) d.sock) := by
  have hc := h.clearOut
  unfold Conn.step
  dsimp only
  split
  · exact .pure hc
  rename_i hreaped
  have hreaped : c.reaped = false := by simpa using hreaped
  cases e with
  | send data => exact Yields.bind (sendSlice_transmits _ data) fun r hr => .pure (hc.transmits hr)
  | recv len => exact Yields.bind (hc.recvSlice len) fun r hr => .pure hr
  | close => exact .pure (hc.transmits (close_transmits _))
  | poll now =>
    refine Yields.bind (stepSock_transmits hc.room now) fun t ht => .pure ?_
    exact hc.transmits (ht.trans (expireTimeWait_transmits t now))
  | input hdr body now =>
    refine Yields.bind (hc.connectedInput hsize hgen ?_ now) fun t ht => .pure ht
    intro hstate hrst hfuture hkept hne
    exact not_lt.mp fun hover => hfits ⟨hreaped,hstate,hrst,hne,hfuture,hkept,hover⟩

def SackInv (irs : UInt32) (size : Nat) (x : Traced) : Prop :=
  ∃ log, x.log = log ++ x.conn.sock.out ∧ Stands irs size log x.conn.sock

theorem listenerInput_keeps {iss : UInt32} {s : TcpSock}
    {size : Nat} (h : listenerInput hdr body iss = some (some s)) (hsize : size+2 < 4294967296) :
    Keeps s.irs size [] s ∧ s.state = .synRcvd := by
  have hs := listenerInput_emits h
  have hchild : Keeps hdr.seq size [] (answering hdr iss) := by
    refine ⟨nofun,Nat.zero_le _,?_,nofun,nofun,nofun,nofun⟩
    show ahead hdr.seq (hdr.seq+1) ≤ size+2
    rw [ahead_succ]
    omega
  have hk := emit_transmits _ _ _ _ _ (.inr ⟨_,rfl⟩) s hs
  have hirs : s.irs = hdr.seq := hk.irs
  rw [hirs]
  exact ⟨hchild.transmits hk,(emit_state _ _ _ _ _ _ s hs).1⟩

theorem Starts.stands {c : Conn} (h : Starts c) (hirs : c.sock.state = .synRcvd → c.sock.irs = irs)
    (hsize : peer.length+2 < 4294967296) : Stands irs peer.length [] c.sock := by
  cases h with
  | active rxCap txCap iss => exact .inl ⟨.inl rfl,Nat.zero_le _,rfl,rfl,nofun⟩
  | passive h =>
    obtain ⟨hkeeps,hstate⟩ := listenerInput_keeps h hsize
    exact .inr (hirs hstate ▸ hkeeps)

/-- However a connection was opened, whatever is called, and however segments of
a peer's stream arrive: as long as none is put aside that does not fit, every
range ever advertised stays received or put aside. -/
theorem sack_promises_kept {c : Conn} (hc : Starts c)
    (hirs : c.sock.state = .synRcvd → c.sock.irs = irs) (hsize : peer.length+2 < 4294967296)
    (events : List Event) (hgen : ∀ e ∈ events, Brought irs peer e)
    (hcond : ∀ p e x, p ++ [e] <+: events → run Traced.step (Traced.start c) p = some x →
      ¬ Overreach x.conn e) : ∀ p, p <+: events → Yields (run Traced.step (Traced.start c) p)
      (fun x => Promised irs x.log x.conn.sock) := by
  intro p hp
  have hstart : SackInv irs peer.length (Traced.start c) := ⟨[],rfl,hc.stands hirs hsize⟩
  have hstep : ∀ x e, SackInv irs peer.length x → Brought irs peer e ∧ ¬ Overreach x.conn e →
      Yields (x.step e) (SackInv irs peer.length) := by
    rintro x e ⟨log,hlog,hstands⟩ ⟨hbrought,hfits⟩
    refine Yields.bind (hstands.step hsize hbrought hfits) fun d hd => .pure ?_
    exact ⟨log ++ x.conn.sock.out,by rw [hlog],hd⟩
  refine (run_yields _ hstep hstart ?_ p hp).mono fun x hx => ?_
  · intro q e x hqe hx
    exact ⟨hgen e (hqe.subset (by simp)),hcond q e x hqe hx⟩
  · obtain ⟨log,hlog,hstands⟩ := hx
    rw [hlog]
    exact hstands.held

def shuffledSack : List Event :=
  [.poll 0,.input { synAck 7 with sackPermitted := true } [] 1,
    .input (dataAt 2 tcpAck) [108,108,111] 2,.input (dataAt 0 tcpAck) [104,101] 3,.recv 5]

theorem shuffledSack_kept : (run Traced.step (Traced.start (Conn.open 4096 4096 7)) shuffledSack).map
        (fun x => x.log.flatMap (fun g => g.header.sackBlocks)) = some [(1003,1006)] ∧
      Yields (run Traced.step (Traced.start (Conn.open 4096 4096 7)) shuffledSack)
        (fun x => Promised 1000 x.log x.conn.sock) :=
  ⟨by decide +kernel,
    sack_promises_kept (.active 4096 4096 7) nofun (by decide) shuffledSack
      (by decide +kernel : ∀ e ∈ shuffledSack, Brought 1000 [104,101,108,108,111] e)
      (Along.at_prefix (by decide +kernel : Along Traced.step (fun x e => ¬ Overreach x.conn e) _ _))
      shuffledSack prefix_rfl⟩

/-- The smallest buffer `connect` gives: 512 bytes that start at the second are put aside
and advertised, and with the first byte there, there is room for 511 of them. -/
def fullBuffer : List Event :=
  [.poll 0,.input { synAck 7 with sackPermitted := true } [] 1,
    .input (dataAt 1 tcpAck) (List.replicate 512 97) 2,.input (dataAt 0 tcpAck) [97] 3]

theorem fullBuffer_breaks : (∀ e ∈ fullBuffer, Brought 1000 (List.replicate 513 97) e) ∧
    (run Traced.step (Traced.start (Conn.open 512 4096 7)) fullBuffer).map
      (fun x => (x.log.flatMap (fun g => g.header.sackBlocks),x.conn.sock.rcvNxt,x.conn.sock.ooo)) =
      some ([(1002,1514)],1513,[]) := by
  decide +kernel

end Runs

end PaghOS.Tcp
