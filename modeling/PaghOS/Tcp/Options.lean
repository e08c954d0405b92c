import PaghOS.Tcp.Sock

/-!
What `tcp_parse` reads out of the options of a segment.
-/

namespace PaghOS.Tcp
open List

def ofBe (a b c d : UInt8) : UInt32 :=
  UInt32.ofNat (a.toNat*16777216+b.toNat*65536+c.toNat*256+d.toNat)

theorem ofBe_beBytes (v : UInt32) :
    ofBe (v >>> 24).toUInt8 (v >>> 16).toUInt8 (v >>> 8).toUInt8 v.toUInt8 = v := by
  have hv := v.toNat_lt
  have hsum : (v.toNat/16777216%256)*16777216+(v.toNat/65536%256)*65536+(v.toNat/256%256)*256+
      v.toNat%256 = v.toNat := by omega
  simp only [ofBe,UInt32.toNat_toUInt8,UInt32.toNat_shiftRight]
  simp only [Nat.shiftRight_eq_div_pow,UInt32.reduceToNat,Nat.reduceMod,Nat.reducePow]
  rw [hsum,UInt32.ofNat_toNat]

def readBlocks : (n : Nat) → List UInt8 → List (UInt32 × UInt32)
  | n+1, a :: b :: c :: d :: e :: f :: g :: h :: rest =>
    (ofBe a b c d,ofBe e f g h) :: readBlocks n rest
  | _, _ => []

theorem readBlocks_flatMap (n : Nat) (blocks : List (UInt32 × UInt32)) :
    readBlocks n (blocks.flatMap (fun b => beBytes b.1 ++ beBytes b.2)) = blocks.take n := by
  induction blocks generalizing n with
  | nil => cases n <;> rfl
  | cons b blocks ih =>
    cases n with
    | zero => rfl
    | succ n =>
      have hstep : readBlocks (n+1)
          ((b :: blocks).flatMap fun b => beBytes b.1 ++ beBytes b.2) =
          b :: readBlocks n (blocks.flatMap fun b => beBytes b.1 ++ beBytes b.2) := by
        simp [beBytes,readBlocks,ofBe_beBytes]
      rw [hstep,ih,take_succ_cons]

def TcpHeader.withOption (hdr : TcpHeader) (opt : List UInt8) : TcpHeader :=
  match opt with
  | [2,_,hi,lo] => { hdr with mss := some (UInt16.ofNat (hi.toNat*256+lo.toNat)) }
  | [3,_,scale] => { hdr with wscale := some scale }
  | [4,_] => { hdr with sackPermitted := true }
  | 5 :: _ :: edges =>
    if edges.length ≥ 8 then
      { hdr with
        sackBlocks := hdr.sackBlocks ++ readBlocks (4-hdr.sackBlocks.length) edges }
    else hdr
  | _ => hdr

/-- The walk over the options. Every round takes at least a byte, so that their
length is enough fuel. -/
def readOptions : (fuel : Nat) → List UInt8 → TcpHeader → TcpHeader
  | fuel+1, kind :: rest, hdr =>
    if kind = 0 then hdr
    else if kind = 1 then readOptions fuel rest hdr
    else
      match rest with
      | len :: _ =>
        if len.toNat < 2 ∨ len.toNat > rest.length+1 then hdr
        else readOptions fuel ((kind :: rest).drop len.toNat)
          (hdr.withOption ((kind :: rest).take len.toNat))
      | [] => hdr
  | _, _, hdr => hdr

def Segment.header (g : Segment) : TcpHeader :=
  readOptions g.opts.length g.opts ⟨g.seq,g.ack,g.flags,g.wnd,none,none,false,[]⟩

def TcpHeader.fixedPart (hdr : TcpHeader) : UInt32 × UInt32 × UInt8 := (hdr.seq,hdr.ack,hdr.flags)

theorem withOption_fixedPart (hdr : TcpHeader) (opt : List UInt8) :
    (hdr.withOption opt).fixedPart = hdr.fixedPart := by
  unfold TcpHeader.withOption
  repeat' split
  all_goals rfl

theorem readOptions_fixedPart (fuel : Nat) (opts : List UInt8) (hdr : TcpHeader) :
    (readOptions fuel opts hdr).fixedPart = hdr.fixedPart := by
  fun_induction readOptions fuel opts hdr with
  | case1 => rfl
  | case2 _ _ _ _ ih => exact ih
  | case3 =>
    rename_i hshort
    rw [if_pos hshort]
  | case4 =>
    rename_i hshort ih
    rw [if_neg hshort]
    exact ih.trans (withOption_fixedPart _ _)
  | case5 => rfl
  | case6 => rfl

theorem Segment.header_fixedPart (g : Segment) : g.header.fixedPart = (g.seq,g.ack,g.flags) :=
  readOptions_fixedPart _ _ _

@[simp] theorem Segment.header_seq (g : Segment) : g.header.seq = g.seq :=
  congrArg Prod.fst g.header_fixedPart

@[simp] theorem Segment.header_ack (g : Segment) : g.header.ack = g.ack :=
  congrArg (fun p => p.2.1) g.header_fixedPart

theorem Segment.header_has (g : Segment) (flag : UInt8) : g.header.has flag = (g.flags &&& flag != 0) := by
  have hflags : g.header.flags = g.flags := congrArg (fun p => p.2.2) g.header_fixedPart
  rw [TcpHeader.has,hflags]

theorem edges_length (blocks : List (UInt32 × UInt32)) :
    (blocks.flatMap (fun b => beBytes b.1 ++ beBytes b.2)).length = 8*blocks.length := by
  induction blocks with
  | nil => rfl
  | cons b blocks ih =>
    have hone : (beBytes b.1 ++ beBytes b.2).length = 8 := rfl
    rw [flatMap_cons,length_append,hone,ih,length_cons]
    omega

theorem readOptions_nil (fuel : Nat) (hdr : TcpHeader) : readOptions fuel [] hdr = hdr := by
  cases fuel <;> rfl

theorem readOptions_sack {n : Nat} (hpos : 0 < n) (hn : n ≤ 4) {edges : List UInt8}
    (hlen : edges.length = 8*n) (fuel : Nat) (hdr : TcpHeader) :
    readOptions (fuel+3) ([1,1,5,UInt8.ofNat (2+8*n)] ++ edges) hdr =
      { hdr with sackBlocks := hdr.sackBlocks ++ readBlocks (4-hdr.sackBlocks.length) edges } := by
  have hbyte : (UInt8.ofNat (2+8*n)).toNat = 2+8*n := by
    rw [UInt8.toNat_ofNat',Nat.mod_eq_of_lt (by omega)]
  have hwhole : (5 :: UInt8.ofNat (2+8*n) :: edges).length = 2+8*n := by simp; omega
  have hedges : edges.length ≥ 8 := by omega
  simp only [cons_append,nil_append,readOptions,hbyte]
  rw [if_neg (by decide),if_pos trivial,if_neg (by decide),if_pos trivial,if_neg (by decide),
    if_neg (by decide),if_neg (by simp; omega),take_of_length_le (by omega),
    drop_of_length_le (by omega),readOptions_nil]
  simp [TcpHeader.withOption,if_pos hedges]

theorem sackBlocks_of_sackOption (blocks : List (UInt32 × UInt32)) (seq ack : UInt32) (flags : UInt8)
    (wnd : UInt16) (payload : List UInt8) :
    (Segment.mk seq ack flags wnd (sackOption blocks) payload).header.sackBlocks = blocks.take 4 := by
  unfold Segment.header sackOption
  dsimp only
  split
  · rename_i hzero
    have hnil : blocks = [] := length_eq_zero_iff.mp (by omega)
    subst hnil
    rfl
  rename_i hpos
  have htake : blocks.take (min blocks.length 4) = blocks.take 4 := by
    rw [take_eq_take_iff]
    omega
  have hlen := edges_length (blocks.take 4)
  rw [length_take,Nat.min_comm] at hlen
  have hfuel : ([1,1,5,UInt8.ofNat (2+8*min blocks.length 4)] ++
      (blocks.take 4).flatMap fun b => beBytes b.1 ++ beBytes b.2).length =
      8*min blocks.length 4+1+3 := by
    rw [length_append,hlen]
    exact Nat.add_comm _ _
  rw [htake,hfuel,readOptions_sack (Nat.pos_of_ne_zero hpos) (Nat.min_le_right _ _) hlen,readBlocks_flatMap]
  simp [take_take]

end PaghOS.Tcp
