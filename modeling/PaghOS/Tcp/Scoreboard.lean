import PaghOS.Tcp.ExpiredTimer

/-!
The ranges a peer has selectively acknowledged. Merging compares in the order of the window
but goes through the ranges in the order of their numbers; it never adds a byte, and it loses
some only where the two orders differ.
-/

namespace PaghOS.Tcp
open Loop Serial List TcpSock

/-- Counted from `o`, the number is between the edges of the range. -/
def Between (o : UInt32) (b : UInt32 × UInt32) (x : UInt32) : Prop :=
  ahead o b.1 ≤ ahead o x ∧ ahead o x < ahead o b.2

/-- The range lies in the `w` numbers from `o` on, and `una`, somewhere among them, does not
take its left edge for an old one; the edges may be in the wrong order. -/
structure Inside (o una : UInt32) (w : Nat) (b : UInt32 × UInt32) : Prop where
  left : ahead o b.1 ≤ w
  front : ahead o b.1 < ahead o una+2147483648
  pos : min w 1 ≤ ahead o b.2
  right : ahead o b.2 ≤ w

/-- The number is inside one of the blocks, going around. -/
def Reported (blocks : List (UInt32 × UInt32)) (x : UInt32) : Prop :=
  ∃ b ∈ blocks, ahead b.1 x < ahead b.1 b.2

/-! ### Merging -/

section Merging

variable {o una a b : UInt32} {w : Nat} {x : UInt32}
variable {P : UInt32 → Prop} {c : UInt32 × UInt32}

theorem le_of_not_seqGt (ha : ahead o a ≤ 2147483648) (h : seqGt a b = false) : ahead o a ≤ ahead o b := by
  rw [seqGt,Bool.eq_false_iff,ne_eq,seqLt_iff] at h
  have hsub := ahead_sub o b a
  have hb : ahead o b < 4294967296 := (b-o).toNat_lt
  omega

theorem seqGt_iff (ha : ahead o a ≤ 2147483648) (hpos : 1 ≤ ahead o a) (hb : ahead o b ≤ 2147483648) :
    seqGt a b = true ↔ ahead o b < ahead o a := by
  rw [seqGt,seqLt_iff]
  have hsub := ahead_sub o b a
  omega

variable {merged ranges : List (UInt32 × UInt32)} {r : UInt32 × UInt32}

section
variable (hw : w ≤ 2147483648)
include hw

theorem mergeRange_sound
    (hm : ∀ m ∈ merged, Inside o una w m ∧ ∀ x, Between o m x → P x)
    (hr : Inside o una w r ∧ ∀ x, Between o r x → P x) :
    ∀ m ∈ mergeRange merged r, Inside o una w m ∧ ∀ x, Between o m x → P x := by
  cases merged with
  | nil => simpa [mergeRange] using hr
  | cons m rest =>
    obtain ⟨hfirst,hrest⟩ := forall_mem_cons.1 hm
    unfold mergeRange
    dsimp only
    split
    · next hmeet =>
      have hle := le_of_not_seqGt (le_trans hr.1.left hw) (by simpa using hmeet)
      refine forall_mem_cons.2 ⟨?_,hrest⟩
      split
      · refine ⟨⟨hfirst.1.left,hfirst.1.front,hr.1.pos,hr.1.right⟩,fun x hx => ?_⟩
        by_cases hin : ahead o x < ahead o m.2
        · exact hfirst.2 x ⟨hx.1,hin⟩
        · exact hr.2 x ⟨by omega,hx.2⟩
      · exact hfirst
    · exact forall_mem_cons.2 ⟨hr,hm⟩

theorem foldl_mergeRange_sound (hm : ∀ m ∈ merged, Inside o una w m ∧ ∀ x, Between o m x → P x)
    (hr : ∀ r ∈ ranges, Inside o una w r ∧ ∀ x, Between o r x → P x) :
    ∀ m ∈ ranges.foldl mergeRange merged, Inside o una w m ∧ ∀ x, Between o m x → P x := by
  induction ranges generalizing merged with
  | nil => exact hm
  | cons r ranges ih =>
    obtain ⟨hfirst,hrest⟩ := forall_mem_cons.1 hr
    exact ih (mergeRange_sound hw hm hfirst) hrest

theorem normalizeRanges_sound (hr : ∀ r ∈ ranges, Inside o una w r ∧ ∀ x, Between o r x → P x) :
    ∀ m ∈ normalizeRanges ranges, Inside o una w m ∧ ∀ x, Between o m x → P x := by
  intro m hm
  refine foldl_mergeRange_sound hw (by simp) (fun r h => ?_) m (mem_reverse.1 hm)
  exact hr r ((mem_insertionSort _).1 h)

theorem mergeRange_covers (hwpos : 0 < w) (hm : ∀ m ∈ merged, Inside o una w m) (hr : Inside o una w r)
    (hc : c ∈ merged ∨ c = r ∧ ∀ m ∈ merged.head?, ahead o m.1 ≤ ahead o r.1) (hx : Between o c x) :
    ∃ m ∈ mergeRange merged r, Between o m x := by
  cases merged with
  | nil =>
    obtain ⟨rfl,-⟩ := hc.resolve_left (by simp)
    exact ⟨c,by simp [mergeRange],hx⟩
  | cons m rest =>
    have hlater := seqGt_iff (o := o) (b := m.2) (le_trans hr.right hw)
      (by have := hr.pos; omega) (le_trans (hm m mem_cons_self).right hw)
    have hright : ∀ {k}, k < ahead o m.2 ∨ k < ahead o r.2 →
        k < ahead o (if seqGt r.2 m.2 then r.2 else m.2) := by
      intro k hk
      rw [apply_ite (ahead o)]
      simp only [hlater]
      split <;> omega
    unfold mergeRange
    dsimp only
    split <;> rcases hc with hc | ⟨rfl,hhead⟩
    · rcases mem_cons.1 hc with rfl | hc
      · exact ⟨_,mem_cons_self,hx.1,hright (.inl hx.2)⟩
      · exact ⟨c,mem_cons_of_mem _ hc,hx⟩
    · exact ⟨_,mem_cons_self,(hhead m rfl).trans hx.1,hright (.inr hx.2)⟩
    · exact ⟨c,mem_cons_of_mem _ hc,hx⟩
    · exact ⟨c,mem_cons_self,hx⟩

omit hw in
theorem head_mergeRange {l : UInt32} (h : ∃ m ∈ (mergeRange merged r).head?, m.1 = l) :
    (∃ m ∈ merged.head?, m.1 = l) ∨ r.1 = l := by
  obtain ⟨m,hm,rfl⟩ := h
  cases merged with
  | nil =>
    obtain rfl := Option.some.inj hm
    exact .inr rfl
  | cons a rest =>
    unfold mergeRange at hm
    dsimp only at hm
    split at hm <;> obtain rfl := Option.some.inj hm
    · exact .inl ⟨a,rfl,rfl⟩
    · exact .inr rfl

theorem foldl_mergeRange_complete {W : UInt32 × UInt32 → Prop} (hwpos : 0 < w)
    (hr : ∀ r ∈ ranges, Inside o una w r) (hm : ∀ m ∈ merged, Inside o una w m)
    (hsorted : ranges.Pairwise fun a b => W b → ahead o a.1 ≤ ahead o b.1)
    (hhead : ∀ m ∈ merged.head?, ∀ r ∈ ranges, W r → ahead o m.1 ≤ ahead o r.1)
    (hc : c ∈ merged ∨ c ∈ ranges ∧ W c) (hx : Between o c x) :
    ∃ m ∈ ranges.foldl mergeRange merged, Between o m x := by
  induction ranges generalizing merged c with
  | nil => exact ⟨c,hc.resolve_right (by simp),hx⟩
  | cons r ranges ih =>
    obtain ⟨hfirst,hrest⟩ := pairwise_cons.1 hsorted
    obtain ⟨hin,hins⟩ := forall_mem_cons.1 hr
    have hm' : ∀ m ∈ mergeRange merged r, Inside o una w m := fun m h =>
      (mergeRange_sound (P := fun _ => True) hw
        (fun m h => ⟨hm m h,fun _ _ => trivial⟩) ⟨hin,fun _ _ => trivial⟩ m h).1
    have hhead' : ∀ m ∈ (mergeRange merged r).head?, ∀ b ∈ ranges, W b → ahead o m.1 ≤ ahead o b.1 := by
      intro m h b hb hW
      rcases head_mergeRange ⟨m,h,rfl⟩ with ⟨a,ha,hl⟩ | hl
      · exact hl ▸ hhead a ha b (mem_cons_of_mem _ hb) hW
      · exact hl ▸ hfirst b hb hW
    have hstep : ∃ c', (c' ∈ mergeRange merged r ∨ c' ∈ ranges ∧ W c') ∧ Between o c' x := by
      rcases hc with hc | ⟨hc,hW⟩
      · obtain ⟨m,h,hxm⟩ := mergeRange_covers hw hwpos hm hin (.inl hc) hx
        exact ⟨m,.inl h,hxm⟩
      rcases mem_cons.1 hc with rfl | hc
      · obtain ⟨m,h,hxm⟩ := mergeRange_covers hw hwpos hm hin
          (.inr ⟨rfl,fun m h => hhead m h c mem_cons_self hW⟩) hx
        exact ⟨m,.inl h,hxm⟩
      · exact ⟨c,.inr ⟨hc,hW⟩,hx⟩
    obtain ⟨c',hc',hx'⟩ := hstep
    exact ih hins hm' hrest hhead' hc' hx'

theorem normalizeRanges_complete {W : UInt32 × UInt32 → Prop} (hwpos : 0 < w)
    (hr : ∀ r ∈ ranges, Inside o una w r)
    (horder : ∀ a ∈ ranges, ∀ b ∈ ranges, W b → a.1 ≤ b.1 → ahead o a.1 ≤ ahead o b.1)
    (hc : c ∈ ranges) (hW : W c) (hx : Between o c x) : ∃ m ∈ normalizeRanges ranges, Between o m x := by
  have hmem : ∀ r, r ∈ ranges.insertionSort (fun a b => a.1 ≤ b.1) ↔ r ∈ ranges :=
    fun r => mem_insertionSort _
  have hsorted : (ranges.insertionSort fun a b => a.1 ≤ b.1).Pairwise fun a b => W b →
      ahead o a.1 ≤ ahead o b.1 := by
    refine (pairwise_insertionSort (fun a b : UInt32 × UInt32 => a.1 ≤ b.1) ranges).imp_of_mem ?_
    exact fun ha hb hle hW => horder _ ((hmem _).1 ha) _ ((hmem _).1 hb) hW hle
  obtain ⟨m,hm,hxm⟩ := foldl_mergeRange_complete hw hwpos (fun r h => hr r ((hmem r).1 h))
    (by simp : ∀ m ∈ ([] : List _),Inside o una w m) hsorted (by simp) (.inr ⟨(hmem c).2 hc,hW⟩) hx
  exact ⟨m,mem_reverse.2 hm,hxm⟩

end

theorem foldl_mergeRange_wrapped {R : UInt32 → Prop} (hw : w < 2147483648) (hwpos : 0 < w)
    (hr : ∀ r ∈ ranges, Inside o una w r ∧ ahead o r.1 ≤ ahead o r.2 ∧ (r.1 < o → R r.1))
    (hm : ∀ m ∈ merged, Inside o una w m ∧ ahead o m.1 ≤ ahead o m.2 ∧ m.1 < o ∧ R m.1)
    (hsorted : ranges.Pairwise fun a b => a.1 ≤ b.1) (hone : merged ≠ [] ∨ ∃ a ∈ ranges, a.1 < o) :
    ∀ m ∈ ranges.foldl mergeRange merged, m.1 < o ∧ R m.1 := by
  induction ranges generalizing merged with
  | nil => exact fun m h => (hm m h).2.2
  | cons r ranges ih =>
    obtain ⟨hfirst,hrest⟩ := pairwise_cons.1 hsorted
    obtain ⟨⟨hin,hle,hR⟩,hins⟩ := forall_mem_cons.1 hr
    have hwrapped : merged = [] → r.1 < o := by
      intro hnil
      obtain ⟨a,ha,hlt⟩ := hone.resolve_left (not_not_intro hnil)
      rcases mem_cons.1 ha with rfl | ha
      · exact hlt
      · exact UInt32.lt_of_le_of_lt (hfirst a ha) hlt
    refine ih hins ?_ hrest (.inl ?_)
    · cases merged with
      | nil => simpa [mergeRange] using ⟨hin,hle,hwrapped rfl,hR (hwrapped rfl)⟩
      | cons m rest =>
        obtain ⟨⟨hin',hle',hlt',hR'⟩,hrest'⟩ := forall_mem_cons.1 hm
        have hlater := seqGt_iff (o := o) (b := m.2) (le_trans hin.right hw.le)
          (by have := hin.pos; omega) (le_trans hin'.right hw.le)
        unfold mergeRange
        dsimp only
        split
        · refine forall_mem_cons.2 ⟨?_,hrest'⟩
          split
          · next hgt =>
            have hmore := hlater.1 hgt
            exact ⟨⟨hin'.left,hin'.front,hin.pos,hin.right⟩,by dsimp only; omega,hlt',hR'⟩
          · exact ⟨hin',hle',hlt',hR'⟩
        next hmeet =>
        refine forall_mem_cons.2 ⟨?_,hm⟩
        have hbehind : r.1 < o := by
          by_contra hnot
          refine hmeet ?_
          have hpos : ahead o r.1 < ahead o m.1 := by
            rw [UInt32.lt_iff_toNat_lt] at hnot hlt'
            have := o.toNat_lt
            have := r.1.toNat_lt
            rw [ahead_eq,ahead_eq]
            omega
          rw [Bool.not_eq_true',Bool.eq_false_iff,ne_eq,seqGt,seqLt_iff]
          have hsub := ahead_sub o m.2 r.1
          have := hin'.right
          omega
        exact ⟨hin,hle,hbehind,hR hbehind⟩
    · cases merged with
      | nil => simp [mergeRange]
      | cons m rest =>
        unfold mergeRange
        dsimp only
        split <;> simp

end Merging

/-! ### Recording and pruning -/

section Recording

variable {o : UInt32} {s t : TcpSock} {b c : UInt32 × UInt32}
  {blocks : List (UInt32 × UInt32)} {P : UInt32 → Prop}

theorem clipBlock_sound (hw : ahead o s.sndNxt ≤ 2147483648) (hu : ahead o s.sndUna ≤ ahead o s.sndNxt)
    (hc : s.clipBlock b = some c) : Inside o s.sndUna (ahead o s.sndNxt) c ∧
      ∀ x, Between o c x → ahead b.1 x < ahead b.1 b.2 := by
  obtain ⟨l,r⟩ := b
  have hl := ahead_sub o l s.sndUna
  have hr := ahead_sub o r s.sndUna
  have hnl := ahead_sub o s.sndNxt l
  have hnr := ahead_sub o s.sndNxt r
  have hlr := ahead_sub o l r
  have hl' : ahead o l < 4294967296 := (l-o).toNat_lt
  have hr' : ahead o r < 4294967296 := (r-o).toNat_lt
  simp only [clipBlock,Option.ite_none_left_eq_some,Bool.or_eq_true,not_or,seqLe_iff,seqLt_iff,
    Option.some.injEq] at hc
  obtain ⟨⟨hlow,hhigh⟩,rfl⟩ := hc
  constructor
  · constructor <;> dsimp only <;> split_ifs <;> omega
  intro x hx
  have hlx := ahead_sub o l x
  have hx' : ahead o x < 4294967296 := (x-o).toNat_lt
  unfold Between at hx
  dsimp only at hx ⊢
  split_ifs at hx <;> omega

/-- The window is at most half of the numbers; every recorded range lies in it, and `P` holds between its
edges. -/
structure Scored (P : UInt32 → Prop) (s : TcpSock) : Prop where
  window : ahead s.sndUna s.sndNxt ≤ 2147483648
  inside : ∀ b ∈ s.sacked, 0 < ahead s.sndUna s.sndNxt ∧ Inside s.sndUna s.sndUna (ahead s.sndUna s.sndNxt) b
  sound : ∀ b ∈ s.sacked, ∀ x, Between s.sndUna b x → P x

theorem Inside.pruned {una nxt : UInt32} (hw : ahead o nxt ≤ 2147483648) (hu : ahead o una ≤ ahead o nxt)
    (hin : Inside o una (ahead o nxt) c) (hgt : seqGt c.2 una = true) :
    0 < ahead una nxt ∧ Inside una una (ahead una nxt) (if seqLt c.1 una then una else c.1,c.2) ∧
      ∀ x, Between una (if seqLt c.1 una then una else c.1,c.2) x ↔ Between o c x ∧
        ahead o una ≤ ahead o x := by
  obtain ⟨hleft,hfront,hpos,hright⟩ := hin
  rw [seqGt,seqLt_iff] at hgt
  have h2 := ahead_sub o una c.2
  have hwin := ahead_sub o una nxt
  have habove : ahead o una < ahead o c.2 := by omega
  have h1 := ahead_sub o c.1 una
  have h1' := ahead_sub o una c.1
  unfold Between
  -- an old left edge gives way to `una`, a later one stays
  split_ifs with hold
  all_goals
    rw [seqLt_iff] at hold
    refine ⟨by omega,?_,fun x => ?_⟩
    · constructor <;> simp only [ahead_self] <;> omega
    have h3 := ahead_sub o una x
    have hx' : ahead o x < 4294967296 := (x-o).toNat_lt
    simp only [ahead_self]
    omega

theorem mem_pruneSacked : b ∈ s.pruneSacked.sacked ↔ ∃ c ∈ s.sacked, seqGt c.2 s.sndUna = true ∧
    (if seqLt c.1 s.sndUna then s.sndUna else c.1,c.2) = b := by
  simp [pruneSacked,and_assoc]

theorem noteSacked_scored (hw : ahead o s.sndNxt ≤ 2147483648) (hu : ahead o s.sndUna ≤ ahead o s.sndNxt)
    (hold : ∀ b ∈ s.sacked, Inside o s.sndUna (ahead o s.sndNxt) b ∧ ∀ x, Between o b x → P x)
    (hnew : ∀ x, Reported blocks x → P x) : Scored P (s.noteSacked blocks) := by
  have hall : ∀ b ∈ s.sacked ++ blocks.filterMap s.clipBlock,
      Inside o s.sndUna (ahead o s.sndNxt) b ∧ ∀ x, Between o b x → P x := by
    intro b hb
    rcases mem_append.1 hb with hb | hb
    · exact hold b hb
    · obtain ⟨a,ha,hc⟩ := mem_filterMap.1 hb
      obtain ⟨hin,hsound⟩ := clipBlock_sound hw hu hc
      exact ⟨hin,fun x hx => hnew x ⟨a,ha,hsound x hx⟩⟩
  have hkept : ∀ b ∈ (s.noteSacked blocks).sacked, ∃ c, (Inside o s.sndUna (ahead o s.sndNxt) c ∧
      ∀ x, Between o c x → P x) ∧ seqGt c.2 s.sndUna = true ∧
      (if seqLt c.1 s.sndUna then s.sndUna else c.1,c.2) = b := by
    intro b hb
    obtain ⟨c,hc,hgt,heq⟩ := mem_pruneSacked.1 hb
    refine ⟨c,?_,hgt,heq⟩
    dsimp only at hc
    split at hc
    · exact hall c hc
    · exact normalizeRanges_sound hw hall c hc
  have hwin := ahead_sub o s.sndUna s.sndNxt
  refine ⟨show ahead s.sndUna s.sndNxt ≤ _ by omega,fun b hb => ?_,fun b hb x hx => ?_⟩
  · obtain ⟨c,⟨hin,-⟩,hgt,rfl⟩ := hkept b hb
    obtain ⟨hpos,hin',-⟩ := hin.pruned hw hu hgt
    exact ⟨hpos,hin'⟩
  · obtain ⟨c,⟨hin,hP⟩,hgt,rfl⟩ := hkept b hb
    obtain ⟨-,-,hbetween⟩ := hin.pruned hw hu hgt
    exact hP x ((hbetween x).1 hx).1

end Recording

/-! ### Calls of `process_ack` -/

section Calls

variable {s t : TcpSock} {hdr : TcpHeader} {now : Nat} {P : UInt32 → Prop}

def TcpSock.board (s : TcpSock) : UInt32 × UInt32 × List (UInt32 × UInt32) := (s.sndUna,s.sndNxt,s.sacked)

theorem noteSacked_board (h : s.board = t.board) (blocks : List (UInt32 × UInt32)) :
    (s.noteSacked blocks).board = (t.noteSacked blocks).board := by
  simp only [board,Prod.mk.injEq] at h
  obtain ⟨h1,h2,h3⟩ := h
  have hclip : s.clipBlock = t.clipBlock := by
    funext b
    simp only [clipBlock,h1,h2]
  simp only [board,noteSacked,pruneSacked,hclip,h1,h2,h3]

theorem finAcked_board (ack : UInt32) : (s.finAcked ack now).board = s.board := by
  unfold finAcked
  dsimp only
  repeat' split
  all_goals rfl

/-- The blocks of an ACK are noted where it has moved the window. -/
abbrev TcpSock.noted (s : TcpSock) (hdr : TcpHeader) : TcpSock :=
  TcpSock.noteSacked { s with sndUna := hdr.ack } hdr.sackBlocks

theorem ackAdvance_board : (s.ackAdvance hdr now).board =
    (s.noted hdr).board := by
  obtain ⟨_,_,_,_,_,_,-,heq⟩ := ackAdvance_eq s hdr now
  rw [heq]
  exact noteSacked_board rfl _

theorem processAck_board : Yields (s.processAck hdr now) fun t =>
    if seqLt s.sndUna hdr.ack && seqLe hdr.ack s.sndNxt then
      t.board = (s.noted hdr).board
    else if (hdr.ack = s.sndUna ∧ hdr.flags &&& (tcpSyn ||| tcpFin) = 0 ∧ s.outstandingData > 0) ∨
      hdr.sackBlocks = [] then t.board = s.board else t.board = (s.noteSacked hdr.sackBlocks).board := by
  unfold processAck
  by_cases hvalid : (seqLt s.sndUna hdr.ack && seqLe hdr.ack s.sndNxt) = true
  · simp only [if_pos hvalid]
    exact .pure ((finAcked_board _).trans ackAdvance_board)
  simp only [if_neg hvalid]
  by_cases hdup : hdr.ack = s.sndUna ∧ hdr.flags &&& (tcpSyn ||| tcpFin) = 0 ∧ s.outstandingData > 0
  · simp only [if_pos hdup,if_pos (Or.inl hdup)]
    split_ifs
    all_goals try exact .pure (finAcked_board _)
    all_goals
      refine Yields.bind (Yields.any _) fun wnd _ => Yields.bind (Yields.any _) fun free _ => .pure rfl
  simp only [hdup,false_or]
  by_cases hnone : hdr.sackBlocks = []
  · simp only [hnone,length_nil,if_true]
    exact .pure (finAcked_board _)
  · simp only [if_neg hnone,if_pos (length_pos_iff.2 hnone)]
    exact .pure ((finAcked_board _).trans (noteSacked_board rfl _))

theorem Scored.of_board (h : Scored P s) (hboard : t.board = s.board) : Scored P t := by
  simp only [board,Prod.mk.injEq] at hboard
  obtain ⟨hu,hn,hs⟩ := hboard
  exact ⟨by rw [hu,hn]; exact h.window,by rw [hu,hn,hs]; exact h.inside,by rw [hu,hs]; exact h.sound⟩

theorem Scored.processAck (h : Scored P s) : Yields (s.processAck hdr now)
    (Scored fun x => P x ∨ Reported hdr.sackBlocks x) := by
  refine processAck_board.mono fun t ht => ?_
  have hw := h.window
  have hgrown : Scored (fun x => P x ∨ Reported hdr.sackBlocks x) s :=
    ⟨hw,h.inside,fun b hb x hx => .inl (h.sound b hb x hx)⟩
  split_ifs at ht with hvalid hkeep
  · refine Scored.of_board ?_ ht
    simp only [Bool.and_eq_true,seqLt_iff,seqLe_iff] at hvalid
    have hsub := ahead_sub s.sndUna hdr.ack s.sndNxt
    by_cases hin : ahead s.sndUna hdr.ack ≤ ahead s.sndUna s.sndNxt
    · refine noteSacked_scored hw hin (fun b hb => ⟨?_,hgrown.sound b hb⟩) fun x => .inr
      have hinside := (h.inside b hb).2
      exact ⟨hinside.left,Nat.lt_add_left _ (by simpa using hinside.front),hinside.pos,hinside.right⟩
    -- half-way around with nothing outstanding: there is no range yet
    have hnone : s.sacked = [] := by
      refine eq_nil_iff_forall_not_mem.2 fun b hb => ?_
      have hpos := (h.inside b hb).1
      omega
    refine noteSacked_scored hvalid.2 (by simp) (fun b hb => ?_) fun x => .inr
    rw [hnone] at hb
    cases hb
  · exact hgrown.of_board ht
  · refine Scored.of_board ?_ ht
    exact noteSacked_scored hw (by simp) (fun b hb => ⟨(h.inside b hb).2,hgrown.sound b hb⟩) fun x => .inr

/-- What `first_hole` passes over has been reported. -/
structure SkipsReported (blocks : List (UInt32 × UInt32)) (s : TcpSock) : Prop where
  hole : ∀ off, s.firstHole = some off → off ≤ s.outstandingData ∧
    ∀ i < off, Reported blocks (s.sndUna+UInt32.ofNat i)
  whole : s.firstHole = none → ∀ i < s.outstandingData, Reported blocks (s.sndUna+UInt32.ofNat i)

theorem Scored.skips {blocks : List (UInt32 × UInt32)} (h : Scored (Reported blocks) s) :
    SkipsReported blocks s := by
  have hreach : ∀ i < s.outstandingData, i < reach s.sndUna 0 s.sacked →
      Reported blocks (s.sndUna+UInt32.ofNat i) := by
    intro i hout hi
    have hcovered := covered_of_lt_reach (Nat.zero_le i) hi
    simp only [covered,any_eq_true,Bool.and_eq_true,decide_eq_true_eq] at hcovered
    obtain ⟨b,hb,hbetween⟩ := hcovered
    have hi' := ahead_add_ofNat s.sndUna (Nat.lt_trans hout (outstanding_lt s))
    exact h.sound b hb _ (by rwa [Between,hi'])
  have hfirst : reach s.sndUna 0 s.sacked < s.outstandingData →
      s.firstHole = some (reach s.sndUna 0 s.sacked) := fun hfar => holeWalk_eq (by omega)
  constructor
  · intro off hoff
    have hle := holeWalk_le _ _ _ _ hoff
    refine ⟨hle,fun i hi => hreach i (by omega) ?_⟩
    by_contra hfar
    have heq := Option.some.inj (hoff.symm.trans (hfirst (by omega)))
    omega
  · intro hnone i hi
    refine hreach i hi ?_
    by_contra hfar
    cases hnone.symm.trans (hfirst (by omega))

/-- Over every sequence of calls, whatever the blocks. -/
theorem first_hole_skips_reported (s : TcpSock) (hnone : s.sacked = []) (hle : seqLe s.sndUna s.sndNxt = true)
    (calls : List (TcpHeader × Nat)) : Yields (run (fun s c => s.processAck c.1 c.2) s calls)
      (SkipsReported (calls.flatMap fun c => c.1.sackBlocks)) := by
  suffices hrun : Yields (run (fun s c => s.processAck c.1 c.2) s calls)
      (Scored (Reported (calls.flatMap fun c => c.1.sackBlocks))) from hrun.mono fun t ht => ht.skips
  induction calls using List.reverseRecOn with
  | nil => exact .pure ⟨(seqLe_iff _ _).1 hle,by simp [hnone],by simp [hnone]⟩
  | append_singleton calls c ih =>
    rw [run_append]
    refine ih.bind fun t ht => ?_
    have hstep : Yields (t.processAck c.1 c.2) _ := ht.processAck
    refine Yields.bind hstep fun u hu => .pure ⟨hu.window,hu.inside,fun b hb x hx => ?_⟩
    rw [flatMap_append,Reported]
    rcases hu.sound b hb x hx with ⟨d,hd,hin⟩ | ⟨d,hd,hin⟩
    · exact ⟨d,mem_append_left _ hd,hin⟩
    · exact ⟨d,mem_append_right _ (by simpa using hd),hin⟩

def threeOut : TcpSock :=
  ((run Conn.step (Conn.open 4096 4096 7) [.poll 0,.input (synAck 7) [] 1,.send [104,105,106],.poll 2]).get
    (by decide +kernel)).sock

theorem first_hole_skips_reported_three : Returns (run (fun s c => s.processAck c.1 c.2) threeOut
    [({ bareAck 9 with sackBlocks := [(10,11),(4,2)] },3)]) (SkipsReported [(10,11),(4,2)]) :=
  (first_hole_skips_reported threeOut (by decide +kernel) (by decide +kernel) _).returns (by decide +kernel)

end Calls

/-! ### What is recorded -/

section Recorded

variable {s t : TcpSock} {hdr : TcpHeader} {now : Nat}

/-- Data is out, the ACK number is in the window of less than half of the numbers and the blocks are
well formed behind it; the recorded ranges lie in the window. -/
structure SackAck (s : TcpSock) (hdr : TcpHeader) : Prop where
  window : ahead s.sndUna s.sndNxt < 2147483648
  outstanding : 0 < s.outstandingData
  inside : ∀ b ∈ s.sacked, Inside s.sndUna s.sndUna (ahead s.sndUna s.sndNxt) b
  ack : ahead s.sndUna hdr.ack ≤ ahead s.sndUna s.sndNxt
  blocks : ∀ b ∈ hdr.sackBlocks, 1 ≤ ahead hdr.ack b.1 ∧ ahead hdr.ack b.1 < ahead hdr.ack b.2 ∧
    ahead hdr.ack b.2 ≤ ahead hdr.ack s.sndNxt

/-- Every byte of the blocks, and of the ranges recorded before as far as it is not acknowledged, is
covered. -/
structure Records (s : TcpSock) (hdr : TcpHeader) (t : TcpSock) : Prop where
  fresh : ∀ b ∈ hdr.sackBlocks, ∀ x, Between s.sndUna b x → ∃ c ∈ t.sacked, Between t.sndUna c x
  kept : ∀ b ∈ s.sacked, ∀ x, Between s.sndUna b x → ahead s.sndUna t.sndUna ≤ ahead s.sndUna x →
    ∃ c ∈ t.sacked, Between t.sndUna c x

/-- The recorded ranges are as `note_sacked` means to keep them: in order and disjoint. -/
structure Tidy (s : TcpSock) : Prop where
  ordered : ∀ b ∈ s.sacked, ahead s.sndUna b.1 < ahead s.sndUna b.2
  disjoint : ∀ a ∈ s.sacked, ∀ b ∈ s.sacked, ∀ x, Between s.sndUna a x → Between s.sndUna b x → a = b

/-- On a pure duplicate the blocks say nothing new; elsewhere no left edge has wrapped while that of a
range that is still above the ACK number has not. -/
def Recordable (s : TcpSock) (hdr : TcpHeader) : Prop :=
  if hdr.ack = s.sndUna ∧ hdr.flags &&& (tcpSyn ||| tcpFin) = 0 then
    ∀ b ∈ hdr.sackBlocks, ∀ x, Between s.sndUna b x → ∃ c ∈ s.sacked, Between s.sndUna c x
  else hdr.sackBlocks = [] ∨ ∀ a ∈ s.sacked ++ hdr.sackBlocks, ∀ b ∈ s.sacked ++ hdr.sackBlocks,
    seqGt b.2 hdr.ack = true → a.1 ≤ b.1 → ahead s.sndUna a.1 ≤ ahead s.sndUna b.1

theorem SackAck.block (h : SackAck s hdr) {b : UInt32 × UInt32} (hb : b ∈ hdr.sackBlocks) :
    ahead s.sndUna hdr.ack < ahead s.sndUna b.1 ∧ ahead s.sndUna b.1 < ahead s.sndUna b.2 ∧
      ahead s.sndUna b.2 ≤ ahead s.sndUna s.sndNxt := by
  have hw := h.window
  have ha := h.ack
  obtain ⟨h1,h2,h3⟩ := h.blocks b hb
  have := ahead_sub s.sndUna hdr.ack s.sndNxt
  have hl := ahead_trans s.sndUna (a := hdr.ack) (b := b.1) (by omega)
  have hr := ahead_trans s.sndUna (a := hdr.ack) (b := b.2) (by omega)
  omega

theorem SackAck.mem (h : SackAck s hdr) {b : UInt32 × UInt32} (hb : b ∈ s.sacked ++ hdr.sackBlocks) :
    Inside s.sndUna hdr.ack (ahead s.sndUna s.sndNxt) b := by
  have hw := h.window
  have ha := h.ack
  rcases mem_append.1 hb with hb | hb
  · obtain ⟨hl,-,hp,hr⟩ := h.inside b hb
    exact ⟨hl,by omega,hp,hr⟩
  obtain ⟨h1,h2,h3⟩ := h.block hb
  exact ⟨by omega,by omega,by omega,h3⟩

theorem SackAck.clipped (h : SackAck s hdr) :
    hdr.sackBlocks.filterMap (TcpSock.clipBlock { s with sndUna := hdr.ack }) = hdr.sackBlocks := by
  have hclip : ∀ b ∈ hdr.sackBlocks, clipBlock { s with sndUna := hdr.ack } b = some b := by
    intro b hb
    obtain ⟨h1,h2,h3⟩ := h.blocks b hb
    have hw := h.window
    have := h.ack
    have hwin := ahead_sub s.sndUna hdr.ack s.sndNxt
    have hlu := ahead_sub hdr.ack b.1 hdr.ack
    have hru := ahead_sub hdr.ack b.2 hdr.ack
    have hnl := ahead_sub hdr.ack s.sndNxt b.1
    have hnr := ahead_sub hdr.ack s.sndNxt b.2
    simp only [ahead_self] at hlu hru
    simp only [clipBlock,Option.ite_none_left_eq_some,Bool.or_eq_true,not_or,seqLe_iff,seqLt_iff]
    refine ⟨⟨by omega,by omega⟩,?_⟩
    rw [if_neg (by omega),if_neg (by omega)]
  rw [filterMap_congr hclip,filterMap_some]

theorem SackAck.noted (h : SackAck s hdr)
    (ht : t.board = (s.noted hdr).board)
    {x : UInt32} (hx : ahead s.sndUna hdr.ack ≤ ahead s.sndUna x) :
    (∃ c ∈ t.sacked, Between t.sndUna c x) ↔ ∃ m ∈ (if hdr.sackBlocks = [] then s.sacked
      else normalizeRanges (s.sacked ++ hdr.sackBlocks)), Between s.sndUna m x := by
  simp only [board,Prod.mk.injEq] at ht
  obtain ⟨hu,-,hs⟩ := ht
  have hw := h.window
  have hin : ∀ m ∈ (if hdr.sackBlocks = [] then s.sacked else normalizeRanges (s.sacked ++ hdr.sackBlocks)),
      Inside s.sndUna hdr.ack (ahead s.sndUna s.sndNxt) m := by
    intro m hm
    split at hm
    · exact h.mem (mem_append_left _ hm)
    · exact (normalizeRanges_sound (P := fun _ => True) hw.le
        (fun r hr => ⟨h.mem hr,fun _ _ => trivial⟩) m hm).1
  have hmem : ∀ c, c ∈ t.sacked ↔ ∃ m ∈ (if hdr.sackBlocks = [] then s.sacked
      else normalizeRanges (s.sacked ++ hdr.sackBlocks)), seqGt m.2 hdr.ack = true ∧
        (if seqLt m.1 hdr.ack then hdr.ack else m.1,m.2) = c := by
    intro c
    rw [hs]
    refine mem_pruneSacked.trans ?_
    simp only [h.clipped]
    split
    · next hnone => simp [hnone]
    · rfl
  rw [show t.sndUna = hdr.ack from hu]
  constructor
  · rintro ⟨c,hc,hbetween⟩
    obtain ⟨m,hm,hgt,rfl⟩ := (hmem c).1 hc
    obtain ⟨-,-,hiff⟩ := (hin m hm).pruned hw.le h.ack hgt
    exact ⟨m,hm,((hiff x).1 hbetween).1⟩
  rintro ⟨m,hm,hbetween⟩
  have hgt : seqGt m.2 hdr.ack = true := by
    have := hbetween.2
    have := (hin m hm).right
    have := ahead_sub s.sndUna hdr.ack m.2
    rw [seqGt,seqLt_iff]
    omega
  obtain ⟨-,-,hiff⟩ := (hin m hm).pruned hw.le h.ack hgt
  exact ⟨_,(hmem _).2 ⟨m,hm,hgt,rfl⟩,(hiff x).2 ⟨hbetween,hx⟩⟩

theorem SackAck.records (h : SackAck s hdr)
    (ht : t.board = (s.noted hdr).board)
    (horder : hdr.sackBlocks = [] ∨ ∀ a ∈ s.sacked ++ hdr.sackBlocks, ∀ b ∈ s.sacked ++ hdr.sackBlocks,
      seqGt b.2 hdr.ack = true → a.1 ≤ b.1 → ahead s.sndUna a.1 ≤ ahead s.sndUna b.1) : Records s hdr t := by
  have hu : t.sndUna = hdr.ack := congrArg Prod.fst ht
  have hw := h.window
  have hcover : ∀ b ∈ s.sacked ++ hdr.sackBlocks, ∀ x, Between s.sndUna b x →
      ahead s.sndUna hdr.ack ≤ ahead s.sndUna x → ∃ c ∈ t.sacked, Between t.sndUna c x := by
    intro b hb x hx hlow
    refine (h.noted ht hlow).2 ?_
    by_cases hnone : hdr.sackBlocks = []
    · rw [hnone,append_nil] at hb
      exact ⟨b,by rwa [if_pos hnone],hx⟩
    rw [if_neg hnone]
    have hin := h.mem hb
    have hright := hin.right
    have hlt := hx.2
    refine normalizeRanges_complete hw.le (by omega)
      (fun r hr => h.mem hr) (horder.resolve_left hnone) hb ?_ hx
    have hsub := ahead_sub s.sndUna hdr.ack b.2
    rw [seqGt,seqLt_iff]
    omega
  refine ⟨fun b hb x hx => hcover b (mem_append_right _ hb) x hx ?_,
    fun b hb x hx hlow => hcover b (mem_append_left _ hb) x hx (hu ▸ hlow)⟩
  exact (h.block hb).1.le.trans hx.1

theorem SackAck.in_order (h : SackAck s hdr) (htidy : Tidy s)
    (ht : t.board = (s.noted hdr).board)
    (hrec : Records s hdr t) (hsome : hdr.sackBlocks ≠ []) {a b : UInt32 × UInt32}
    (ha : a ∈ s.sacked ++ hdr.sackBlocks) (hb : b ∈ s.sacked ++ hdr.sackBlocks)
    (hgt : seqGt b.2 hdr.ack = true) (hle : a.1 ≤ b.1) : ahead s.sndUna a.1 ≤ ahead s.sndUna b.1 := by
  by_contra hback
  have hw := h.window
  have hack := h.ack
  have hordered : ∀ r ∈ s.sacked ++ hdr.sackBlocks, ahead s.sndUna r.1 < ahead s.sndUna r.2 := by
    intro r hr
    rcases mem_append.1 hr with hr | hr
    · exact htidy.ordered r hr
    · exact (h.block hr).2.1
  have hbr := (h.mem hb).right
  have hbpos := hordered b hb
  have hsub := ahead_sub s.sndUna hdr.ack b.2
  rw [seqGt,seqLt_iff] at hgt
  rw [UInt32.le_iff_toNat_le] at hle
  have hwrap : a.1 < s.sndUna ∧ s.sndUna ≤ b.1 := by
    have := s.sndUna.toNat_lt
    have := a.1.toNat_lt
    have := b.1.toNat_lt
    rw [ahead_eq,ahead_eq] at hback
    rw [UInt32.lt_iff_toNat_lt,UInt32.le_iff_toNat_le]
    omega
  -- every range left starts behind the wrap
  have hlate : ∀ m ∈ normalizeRanges (s.sacked ++ hdr.sackBlocks),
      m.1 < s.sndUna ∧ ∃ r ∈ s.sacked ++ hdr.sackBlocks, r.1 = m.1 := by
    intro m hm
    refine foldl_mergeRange_wrapped (R := fun l => ∃ r ∈ s.sacked ++ hdr.sackBlocks, r.1 = l) hw (by omega)
      (fun r hr => ?_) (by simp : ∀ m ∈ ([] : List _), Inside s.sndUna hdr.ack _ m ∧ _)
      (pairwise_insertionSort _ _) (.inr ⟨a,(mem_insertionSort _).2 ha,hwrap.1⟩) m (mem_reverse.1 hm)
    have hr := (mem_insertionSort _).1 hr
    exact ⟨h.mem hr,(hordered r hr).le,fun _ => ⟨r,hr,rfl⟩⟩
  obtain ⟨x,hx⟩ : ∃ x, ahead s.sndUna x = max (ahead s.sndUna b.1) (ahead s.sndUna hdr.ack) :=
    ⟨_,ahead_add_ofNat s.sndUna (by omega)⟩
  have hxb : Between s.sndUna b x := ⟨by omega,by omega⟩
  have hcovered : ∃ c ∈ t.sacked, Between t.sndUna c x := by
    rcases mem_append.1 hb with hb | hb
    · refine hrec.kept b hb x hxb ?_
      rw [show t.sndUna = hdr.ack from congrArg Prod.fst ht]
      omega
    · exact hrec.fresh b hb x hxb
  obtain ⟨m,hm,hxm⟩ := (h.noted ht (by omega)).1 hcovered
  rw [if_neg hsome] at hm
  obtain ⟨hm1,r,hr,hrm⟩ := hlate m hm
  have hpos : ahead s.sndUna b.1 < ahead s.sndUna r.1 := by
    have := s.sndUna.toNat_lt
    have := b.1.toNat_lt
    obtain ⟨-,hb1⟩ := hwrap
    rw [← hrm,UInt32.lt_iff_toNat_lt] at hm1
    rw [UInt32.le_iff_toNat_le] at hb1
    rw [ahead_eq,ahead_eq]
    omega
  have hxm1 := hxm.1
  rw [← hrm] at hxm1
  -- so the ACK number has wrapped too, and both ranges were recorded
  have hnotblock : ∀ d ∈ s.sacked ++ hdr.sackBlocks,
      ahead s.sndUna d.1 ≤ ahead s.sndUna hdr.ack → d ∈ s.sacked := by
    intro d hd hlow
    exact (mem_append.1 hd).resolve_right fun hd => not_le.2 (h.block hd).1 hlow
  have hr' := hnotblock r hr (by omega)
  have hb' := hnotblock b hb (by omega)
  have hrpos := hordered r hr
  obtain rfl := htidy.disjoint r hr' b hb' r.1 ⟨le_rfl,hrpos⟩ ⟨by omega,by omega⟩
  omega

/-- Everything is recorded where the order of the numbers agrees with that of the window; with the ranges
tidy, only there. -/
theorem sack_recorded_iff (h : SackAck s hdr) (ht : s.processAck hdr now = some t) :
    (Recordable s hdr → Records s hdr t) ∧ (Tidy s → Records s hdr t → Recordable s hdr) := by
  have hboard := processAck_board t ht
  have hw := h.window
  have hack := h.ack
  have hwin := ahead_sub s.sndUna hdr.ack s.sndNxt
  have hout := h.outstanding
  have hkeep : t.board = s.board → ((∀ b ∈ hdr.sackBlocks, ∀ x, Between s.sndUna b x →
      ∃ c ∈ s.sacked, Between s.sndUna c x) ↔ Records s hdr t) := by
    intro hsame
    simp only [board,Prod.mk.injEq] at hsame
    obtain ⟨hu,-,hs⟩ := hsame
    constructor
    · exact fun hfresh => ⟨by rwa [hu,hs],by rw [hu,hs]; exact fun b hb x hx _ => ⟨b,hb,hx⟩⟩
    · intro hrec
      have hfresh := hrec.fresh
      rwa [hu,hs] at hfresh
  have hnote : t.board = (s.noted hdr).board →
      ¬ (hdr.ack = s.sndUna ∧ hdr.flags &&& (tcpSyn ||| tcpFin) = 0) →
      (Recordable s hdr → Records s hdr t) ∧ (Tidy s → Records s hdr t → Recordable s hdr) := by
    intro hnoted hpure
    rw [Recordable,if_neg hpure]
    refine ⟨h.records hnoted,fun htidy hrec => or_iff_not_imp_left.2 fun hsome a ha b hb hgt hle => ?_⟩
    exact h.in_order htidy hnoted hrec hsome ha hb hgt hle
  split_ifs at hboard with hvalid hsame
  · refine hnote hboard fun hpure => ?_
    simp [hpure.1,seqLt_iff] at hvalid
  all_goals
    obtain heq : s.sndUna = hdr.ack := by
      simp only [Bool.and_eq_true,seqLt_iff,seqLe_iff] at hvalid
      exact (ahead_eq_zero_iff _ _).1 (by omega)
  · by_cases hpure : hdr.ack = s.sndUna ∧ hdr.flags &&& (tcpSyn ||| tcpFin) = 0
    · rw [Recordable,if_pos hpure]
      exact ⟨(hkeep hboard).1,fun _ => (hkeep hboard).2⟩
    · have hnone : hdr.sackBlocks = [] := hsame.resolve_left fun hd => hpure ⟨hd.1,hd.2.1⟩
      rw [Recordable,if_neg hpure]
      exact ⟨fun _ => (hkeep hboard).1 (by simp [hnone]),fun _ _ => .inl hnone⟩
  · refine hnote (hboard.trans (noteSacked_board ?_ _)) fun hpure => hsame (.inl ⟨hpure.1,hpure.2,hout⟩)
    rw [board,heq]
    rfl

theorem threeOut_sackAck {n : UInt32} (hn : n = 8 ∨ n = 9) :
    SackAck threeOut { bareAck n with sackBlocks := [(10,11)] } := by
  have hboard : threeOut.board = (8,11,[]) := by decide +kernel
  simp only [board,Prod.mk.injEq] at hboard
  obtain ⟨hu,hx,hs⟩ := hboard
  have hout : 0 < threeOut.outstandingData := by decide +kernel
  constructor
  · rw [hu,hx]
    decide
  · exact hout
  · simp [hs]
  · rw [hu,hx]
    rcases hn with rfl | rfl <;> decide
  · intro b hb
    obtain rfl : b = (10,11) := by simpa using hb
    rw [hx]
    rcases hn with rfl | rfl <;> decide

theorem threeOut_recorded : ∃ t, threeOut.processAck { bareAck 9 with sackBlocks := [(10,11)] } 3 = some t ∧
    Records threeOut { bareAck 9 with sackBlocks := [(10,11)] } t := by
  obtain ⟨t,ht⟩ := Option.isSome_iff_exists.1
    (by decide +kernel : (threeOut.processAck { bareAck 9 with sackBlocks := [(10,11)] } 3).isSome = true)
  refine ⟨t,ht,(sack_recorded_iff (threeOut_sackAck (.inr rfl)) ht).1 ?_⟩
  have hs : threeOut.sacked = [] := by decide +kernel
  have hu : threeOut.sndUna = 8 := by decide +kernel
  rw [Recordable,if_neg (by rw [hu]; decide),hs]
  simp [bareAck]

/-- The block of a duplicate ACK is thrown away. -/
theorem duplicate_not_recorded : SackAck threeOut { bareAck 8 with sackBlocks := [(10,11)] } ∧
    ∃ t, threeOut.processAck { bareAck 8 with sackBlocks := [(10,11)] } 3 = some t ∧
      ¬ Records threeOut { bareAck 8 with sackBlocks := [(10,11)] } t := by
  refine ⟨threeOut_sackAck (.inl rfl),?_⟩
  obtain ⟨t,ht⟩ := Option.isSome_iff_exists.1
    (by decide +kernel : (threeOut.processAck { bareAck 8 with sackBlocks := [(10,11)] } 3).isSome = true)
  have hs : (threeOut.processAck { bareAck 8 with sackBlocks := [(10,11)] } 3).map (·.sacked) = some [] := by
    decide +kernel
  have hu : threeOut.sndUna = 8 := by decide +kernel
  rw [ht,Option.map_some,Option.some.injEq] at hs
  refine ⟨t,ht,fun hrec => ?_⟩
  obtain ⟨c,hc,-⟩ := hrec.fresh (10,11) (by simp) 10 (by rw [hu]; exact ⟨by decide,by decide⟩)
  rw [hs] at hc
  cases hc

end Recorded

end PaghOS.Tcp
