import PaghOS.Net.Wire

/-!
DHCP replies (`net/udp.rs`): `parse_reply` walks the options after the fixed header and
turns the subnet mask into a prefix length; `Ipv4Cidr` makes a mask of it again.
-/

namespace PaghOS.Net
open List

structure Ipv4Cidr where
  addr : Ipv4Addr
  prefixLen : Nat

def Ipv4Cidr.maskOctets (cidr : Ipv4Cidr) : List UInt8 :=
  (range 4).map fun i =>
    let base := i*8
    let n := if cidr.prefixLen ≥ base+8 then 8 else cidr.prefixLen-base
    if n = 0 then 0 else 0xFF <<< UInt8.ofNat (8-n)

def Ipv4Addr.inSubnet (addr : Ipv4Addr) (cidr : Ipv4Cidr) : Bool :=
  let mask := cidr.maskOctets
  (range 4).all fun i =>
    addr.octets.getD i 0 &&& mask.getD i 0 == cidr.addr.octets.getD i 0 &&& mask.getD i 0

def addrAt (v : List UInt8) (i : Nat) : Ipv4Addr :=
  ⟨v.getD i 0,v.getD (i+1) 0,v.getD (i+2) 0,v.getD (i+3) 0⟩

def be32Of (v : List UInt8) (i : Nat) : Nat :=
  65536*ofBe16 (v.getD i 0) (v.getD (i+1) 0)+ofBe16 (v.getD (i+2) 0) (v.getD (i+3) 0)

def dhcpCookie : List UInt8 := [0x63,0x82,0x53,0x63]

structure ParsedReply where
  yiaddr : Ipv4Addr
  prefixLen : Nat
  serverId : Ipv4Addr
  router : Option Ipv4Addr
  dns : List Ipv4Addr
  leaseSecs : Nat
  deriving DecidableEq

def leadingOnes : Nat → UInt8 → Nat
  | 0, _ => 0
  | rounds+1, b => if b &&& 0x80 ≠ 0 then leadingOnes rounds (b <<< 1)+1 else 0

/-- The prefix length of a mask. A partial octet is looked at only when no full one
stands before it. -/
def maskPrefix (v : List UInt8) : Nat :=
  let full := 8*(v.takeWhile (· == 0xFF)).length
  let n := if full = 0 ∧ v.headD 0 ≠ 0 then leadingOnes 8 (v.headD 0) else full
  max 1 (min n 32)

def dnsServers : List UInt8 → List Ipv4Addr
  | a :: b :: c :: d :: rest => ⟨a,b,c,d⟩ :: dnsServers rest
  | _ => []

/-- One option taken into the reply and the message type found so far. -/
def takeOption (s : ParsedReply × Option UInt8) (o : UInt8 × List UInt8) :
    ParsedReply × Option UInt8 :=
  let (out,msgType) := s
  let (kind,v) := o
  if kind = 53 ∧ v.length ≥ 1 then (out,v.head?)
  else if kind = 1 ∧ v.length = 4 then ({out with prefixLen := maskPrefix v},msgType)
  else if kind = 3 ∧ v.length ≥ 4 then ({out with router := some (addrAt v 0)},msgType)
  else if kind = 6 then ({out with dns := out.dns ++ dnsServers v},msgType)
  else if kind = 51 ∧ v.length = 4 then ({out with leaseSecs := be32Of v 0},msgType)
  else if kind = 54 ∧ v.length = 4 then ({out with serverId := addrAt v 0},msgType)
  else s

def replyLoop : Nat → List UInt8 → ParsedReply × Option UInt8 → ParsedReply × Option UInt8
  | rounds+1, opt :: rest, s =>
    if opt = 255 then s
    else if opt = 0 then replyLoop rounds rest s
    else
      match rest with
      | [] => s
      | len :: rest =>
        if len.toNat > rest.length then s
        else replyLoop rounds (rest.drop len.toNat) (takeOption s (opt,rest.take len.toNat))
  | _, _, s => s

def parseReply (pkt : List UInt8) (xid : Nat) (wantType : UInt8) : Option ParsedReply :=
  if pkt.length < 240 ∨ pkt.getD 0 0 ≠ 2 then none
  else if be32Of pkt 4 ≠ xid then none
  else if (pkt.drop 236).take 4 ≠ dhcpCookie then none
  else
    let s := replyLoop pkt.length (pkt.drop 240) (⟨addrAt pkt 16,24,⟨0,0,0,0⟩,none,[],3600⟩,none)
    if s.2 ≠ some wantType then none else some s.1

/-- A reply as a server writes it: the fixed header with the cookie, the options with
padding (`none`) between them, the end mark, and whatever follows it. -/
structure DhcpReply where
  head : List UInt8
  options : List (Option (UInt8 × List UInt8))
  tail : List UInt8
  length_head : head.length = 240
  op : head.getD 0 0 = 2
  cookie : head.drop 236 = dhcpCookie
  legal : ∀ kind v, some (kind,v) ∈ options → kind ≠ 0 ∧ kind ≠ 255 ∧ v.length < 256

def optionBytes : Option (UInt8 × List UInt8) → List UInt8
  | none => [0]
  | some (kind,v) => kind :: UInt8.ofNat v.length :: v

def DhcpReply.bytes (r : DhcpReply) : List UInt8 :=
  r.head ++ (r.options.flatMap optionBytes ++ 255 :: r.tail)

/-- The reply has an option of this kind, with one value only. -/
def DhcpReply.Carries (r : DhcpReply) (kind : UInt8) (v : List UInt8) : Prop :=
  some (kind,v) ∈ r.options ∧ ∀ w, some (kind,w) ∈ r.options → w = v

/-- The mask whose first `n` bits are set and no others. -/
def prefixMask (n : Nat) : List UInt8 :=
  (range 4).map fun i => UInt8.ofNat (256-(1 <<< (8-min 8 (n-8*i))))

def Ipv4Addr.masked (addr : Ipv4Addr) (mask : List UInt8) : List UInt8 :=
  zipWith (· &&& ·) addr.octets mask

theorem inSubnet_iff (x : Ipv4Addr) (cidr : Ipv4Cidr) :
    x.inSubnet cidr ↔ x.masked cidr.maskOctets = cidr.addr.masked cidr.maskOctets := by
  simp [Ipv4Addr.inSubnet,Ipv4Addr.masked,Ipv4Addr.octets,Ipv4Cidr.maskOctets,range_succ]

theorem flip_outside (b m : UInt8) : (b ^^^ ~~~m) &&& m = b &&& m := by
  apply UInt8.toBitVec_inj.mp
  apply BitVec.eq_of_getLsbD_eq
  intro i hi
  simp only [UInt8.toBitVec_and,UInt8.toBitVec_xor,UInt8.toBitVec_not,BitVec.getLsbD_and,
    BitVec.getLsbD_xor,BitVec.getLsbD_not,hi,decide_true,Bool.true_and]
  cases m.toBitVec.getLsbD i <;> simp

/-- An octet changed exactly outside one mask tells apart the masks that differ from it. -/
theorem octet_mask_eq {b m w : UInt8} (hm : (b ^^^ ~~~m) &&& w = b &&& w)
    (hw : (b ^^^ ~~~w) &&& m = b &&& m) : w = m := by
  apply UInt8.toBitVec_inj.mp
  apply BitVec.eq_of_getLsbD_eq
  intro i hi
  have hbit := congrArg (fun u => u.toBitVec.getLsbD i) hm
  have hbit' := congrArg (fun u => u.toBitVec.getLsbD i) hw
  simp only [UInt8.toBitVec_and,UInt8.toBitVec_xor,UInt8.toBitVec_not,BitVec.getLsbD_and,
    BitVec.getLsbD_xor,BitVec.getLsbD_not,hi,decide_true,Bool.true_and] at hbit hbit'
  revert hbit hbit'
  cases m.toBitVec.getLsbD i <;> cases w.toBitVec.getLsbD i <;> cases b.toBitVec.getLsbD i <;> simp

theorem same_subnet_iff (y : Ipv4Addr) (m0 m1 m2 m3 w0 w1 w2 w3 : UInt8) :
    (∀ x : Ipv4Addr, x.masked [w0,w1,w2,w3] = y.masked [w0,w1,w2,w3] ↔
      x.masked [m0,m1,m2,m3] = y.masked [m0,m1,m2,m3]) ↔ [w0,w1,w2,w3] = [m0,m1,m2,m3] := by
  refine ⟨fun h => ?_,fun h => by simp [h]⟩
  have hm := h ⟨y.a ^^^ ~~~m0,y.b ^^^ ~~~m1,y.c ^^^ ~~~m2,y.d ^^^ ~~~m3⟩
  have hw := h ⟨y.a ^^^ ~~~w0,y.b ^^^ ~~~w1,y.c ^^^ ~~~w2,y.d ^^^ ~~~w3⟩
  simp only [Ipv4Addr.masked,Ipv4Addr.octets,zipWith_cons_cons,zipWith_nil_left,flip_outside,
    cons.injEq,and_true,true_iff,iff_true] at hm hw
  rw [octet_mask_eq hm.1 hw.1,octet_mask_eq hm.2.1 hw.2.1,octet_mask_eq hm.2.2.1 hw.2.2.1,
    octet_mask_eq hm.2.2.2 hw.2.2.2]

theorem maskOctets_eq_iff (y : Ipv4Addr) : ∀ n ≤ 32,
    Ipv4Cidr.maskOctets ⟨y,maskPrefix (prefixMask n)⟩ = prefixMask n ↔
      n ∈ [1,2,3,4,5,6,7,8,16,24,32] := by
  simp only [Ipv4Cidr.maskOctets]
  decide +kernel

theorem replyLoop_options {options : List (Option (UInt8 × List UInt8))} (tail : List UInt8)
    (hlegal : ∀ kind v, some (kind,v) ∈ options → kind ≠ 0 ∧ kind ≠ 255 ∧ v.length < 256)
    {rounds : Nat} (s : ParsedReply × Option UInt8)
    (hrounds : (options.flatMap optionBytes).length < rounds) :
    replyLoop rounds (options.flatMap optionBytes ++ 255 :: tail) s =
      (options.filterMap id).foldl takeOption s := by
  induction options generalizing rounds s with
  | nil =>
    obtain ⟨rounds,rfl⟩ : ∃ k, rounds = k+1 := ⟨rounds-1,by omega⟩
    simp [replyLoop]
  | cons o options ih =>
    obtain ⟨rounds,rfl⟩ : ∃ k, rounds = k+1 := ⟨rounds-1,by omega⟩
    have hnext := fun s hrounds => @ih (fun kind v hv => hlegal kind v (mem_cons_of_mem _ hv))
      rounds s hrounds
    simp only [flatMap_cons,length_append] at hrounds
    cases o with
    | none =>
      simpa [replyLoop,optionBytes] using hnext s (by simp only [optionBytes,length_cons] at hrounds; omega)
    | some o =>
      obtain ⟨kind,v⟩ := o
      obtain ⟨hpad,hend,hlen⟩ := hlegal kind v mem_cons_self
      have hcount : (UInt8.ofNat v.length).toNat = v.length := by
        simpa using hlen
      simp only [optionBytes,length_cons] at hrounds
      simp only [flatMap_cons,optionBytes,cons_append,append_assoc,replyLoop,hpad,hend,if_false,
        hcount,length_append]
      rw [if_neg (by omega),drop_left,take_left,hnext _ (by omega)]
      rfl

/-- What every option leaves or sets to one value, and some option sets, has this value
in the end. -/
theorem foldl_settles {σ α π : Type} {f : σ → α → σ} (read : σ → π) {value : π} {items : List α}
    {s : σ} (hkeep : ∀ o ∈ items, ∀ s, read (f s o) = value ∨ read (f s o) = read s)
    (hset : read s = value ∨ ∃ o ∈ items, ∀ s, read (f s o) = value) :
    read (items.foldl f s) = value := by
  induction items generalizing s with
  | nil => simpa using hset
  | cons o items ih =>
    apply ih fun o ho => hkeep o (mem_cons_of_mem _ ho)
    obtain hs | ⟨o',ho',hvalue⟩ := hset
    · obtain h | h := hkeep o mem_cons_self s
      · exact .inl h
      · exact .inl (h.trans hs)
    · obtain rfl | ho' := mem_cons.mp ho'
      · exact .inl (hvalue s)
      · exact .inr ⟨o',ho',hvalue⟩

theorem takeOption_yiaddr (s : ParsedReply × Option UInt8) (o : UInt8 × List UInt8) :
    (takeOption s o).1.yiaddr = s.1.yiaddr := by
  unfold takeOption
  repeat' split
  all_goals rfl

theorem takeOption_type (s : ParsedReply × Option UInt8) (o : UInt8 × List UInt8) :
    (takeOption s o).2 = if o.1 = 53 ∧ o.2.length ≥ 1 then o.2.head? else s.2 := by
  unfold takeOption
  repeat' split
  all_goals simp_all

theorem takeOption_prefixLen (s : ParsedReply × Option UInt8) (o : UInt8 × List UInt8) :
    (takeOption s o).1.prefixLen =
      if o.1 = 1 ∧ o.2.length = 4 then maskPrefix o.2 else s.1.prefixLen := by
  unfold takeOption
  repeat' split
  all_goals simp_all

namespace DhcpReply

variable (r : DhcpReply)

def xid : Nat := be32Of r.head 4

theorem settles {π : Type} (read : ParsedReply × Option UInt8 → π) {kind : UInt8}
    {v : List UInt8} (hv : r.Carries kind v) {value : π}
    (hset : ∀ s, read (takeOption s (kind,v)) = value)
    (hkeep : ∀ s o, o.1 ≠ kind → read (takeOption s o) = read s) (s : ParsedReply × Option UInt8) :
    read ((r.options.filterMap id).foldl takeOption s) = value := by
  apply foldl_settles
  · rintro ⟨k,w⟩ ho s
    by_cases hk : k = kind
    · subst hk
      exact .inl (hv.2 w (by simpa using ho) ▸ hset s)
    · exact .inr (hkeep s _ hk)
  · exact .inr ⟨_,by simpa using hv.1,hset⟩

theorem parseReply_bytes {want : UInt8} {mask : List UInt8} (htype : r.Carries 53 [want])
    (hmask : r.Carries 1 mask) (hlen : mask.length = 4) :
    ∃ out, parseReply r.bytes r.xid want = some out ∧ out.yiaddr = addrAt r.head 16 ∧
      out.prefixLen = maskPrefix mask := by
  have hlength := r.length_head
  have hbyte : ∀ i < 240, r.bytes.getD i 0 = r.head.getD i 0 := by
    intro i hi
    simp only [bytes,getD_eq_getElem?_getD]
    rw [getElem?_append_left (by omega)]
  have hcookie : (r.bytes.drop 236).take 4 = dhcpCookie := by
    rw [bytes,drop_append_of_le_length (by omega),r.cookie]
    rfl
  have hopts : r.bytes.drop 240 = r.options.flatMap optionBytes ++ 255 :: r.tail := by
    rw [bytes,← hlength,drop_left]
  have hrounds : (r.options.flatMap optionBytes).length < r.bytes.length := by
    simp only [bytes,length_append,length_cons]
    omega
  let s := (r.options.filterMap id).foldl takeOption
    (⟨addrAt r.head 16,24,⟨0,0,0,0⟩,none,[],3600⟩,none)
  have hfound : s.2 = some want :=
    r.settles Prod.snd htype (fun s => by simp [takeOption_type])
      (fun s o ho => by simp [takeOption_type,ho]) _
  have hbits : s.1.prefixLen = maskPrefix mask :=
    r.settles (·.1.prefixLen) hmask (fun s => by simp [takeOption_prefixLen,hlen])
      (fun s o ho => by simp [takeOption_prefixLen,ho]) _
  have haddr : s.1.yiaddr = addrAt r.head 16 :=
    foldl_settles (·.1.yiaddr) (fun o _ s => .inr (takeOption_yiaddr s o)) (.inl rfl)
  have hshort : ¬ (r.bytes.length < 240 ∨ r.bytes.getD 0 0 ≠ 2) := by
    rw [hbyte 0 (by decide),r.op,bytes,length_append]
    simp [hlength]
  have hyiaddr : addrAt r.bytes 16 = addrAt r.head 16 := by
    simp only [addrAt,hbyte,Nat.reduceAdd,Nat.reduceLT]
  have hxid : be32Of r.bytes 4 = r.xid := by
    simp only [be32Of,xid,hbyte,Nat.reduceAdd,Nat.reduceLT]
  refine ⟨s.1,?_,haddr,hbits⟩
  simp only [parseReply,hshort,hxid,hcookie,hopts,hyiaddr,replyLoop_options r.tail r.legal _ hrounds,
    ne_eq,not_true_eq_false,if_false]
  exact if_neg fun h => h hfound

/-- Mask lengths that end inside an octet after the first are rounded down to the
octet, and the empty mask is taken as one bit long. -/
theorem subnet_honoured_iff {want : UInt8} {n : Nat} (hn : n ≤ 32)
    (htype : r.Carries 53 [want]) (hmask : r.Carries 1 (prefixMask n)) :
    ∃ out, parseReply r.bytes r.xid want = some out ∧ out.yiaddr = addrAt r.head 16 ∧
      ((∀ x : Ipv4Addr, x.inSubnet ⟨out.yiaddr,out.prefixLen⟩ ↔
        x.masked (prefixMask n) = (addrAt r.head 16).masked (prefixMask n)) ↔
      n ∈ [1,2,3,4,5,6,7,8,16,24,32]) := by
  obtain ⟨out,hout,haddr,hbits⟩ := r.parseReply_bytes htype hmask (by simp [prefixMask])
  refine ⟨out,hout,haddr,?_⟩
  rw [haddr,hbits,← maskOctets_eq_iff (addrAt r.head 16) n hn]
  simp only [inSubnet_iff]
  exact same_subnet_iff _ _ _ _ _ _ _ _ _

end DhcpReply

/-- An acknowledgement of 10.0.2.15 with a mask of `n` bits, transaction 42. -/
def ack (n : Nat) : DhcpReply where
  head := [2,1,6,0,0,0,0,42] ++ replicate 8 0 ++ [10,0,2,15] ++ replicate 216 0 ++ dhcpCookie
  options := [some (53,[5]),none,some (1,prefixMask n)]
  tail := []
  length_head := by decide +kernel
  op := by decide +kernel
  cookie := by decide +kernel
  legal := by
    rintro kind v hv
    simp only [mem_cons,Option.some.injEq,Prod.mk.injEq,not_mem_nil,or_false,reduceCtorEq,false_or] at hv
    obtain ⟨rfl,rfl⟩ | ⟨rfl,rfl⟩ := hv
    · decide
    · simp [prefixMask]

theorem ack_carries (n : Nat) : (ack n).Carries 53 [5] ∧ (ack n).Carries 1 (prefixMask n) := by
  have h : (ack n).options = [some (53,[5]),none,some (1,prefixMask n)] := rfl
  simp [DhcpReply.Carries,h]

theorem subnet_honoured_ack : ∃ out, parseReply (ack 24).bytes 42 5 = some out ∧
    out.yiaddr = ⟨10,0,2,15⟩ ∧ ∀ x : Ipv4Addr, x.inSubnet ⟨out.yiaddr,out.prefixLen⟩ ↔
      x.masked (prefixMask 24) = Ipv4Addr.masked ⟨10,0,2,15⟩ (prefixMask 24) := by
  obtain ⟨out,hout,haddr,hiff⟩ := (ack 24).subnet_honoured_iff (n := 24) (by decide)
    (ack_carries 24).1 (ack_carries 24).2
  exact ⟨out,hout,haddr,hiff.mpr (by decide)⟩

/-- 255.255.240.0 comes out as 255.255.0.0, so 10.0.99.1 counts as on the link. -/
theorem subnet_not_honoured : ∃ out, parseReply (ack 20).bytes 42 5 = some out ∧
    Ipv4Addr.inSubnet ⟨10,0,99,1⟩ ⟨out.yiaddr,out.prefixLen⟩ ∧
    Ipv4Addr.masked ⟨10,0,99,1⟩ (prefixMask 20) ≠ Ipv4Addr.masked ⟨10,0,2,15⟩ (prefixMask 20) := by
  refine ⟨⟨⟨10,0,2,15⟩,16,⟨0,0,0,0⟩,none,[],3600⟩,?_⟩
  decide +kernel

end PaghOS.Net
