import Mathlib.Data.Nat.Notation

/-!
IPv4 packets on the wire (`net/wire.rs`): the header as `ipv4_build` writes it,
the checksum, and `ipv4_parse`.
-/

namespace PaghOS.Net
open List

structure Ipv4Addr where
  a : UInt8
  b : UInt8
  c : UInt8
  d : UInt8
  deriving DecidableEq

def Ipv4Addr.octets (addr : Ipv4Addr) : List UInt8 := [addr.a,addr.b,addr.c,addr.d]

structure Ipv6Addr where
  octets : List UInt8
  size : octets.length = 16
  deriving DecidableEq

inductive IpAddr where
  | v4 (addr : Ipv4Addr)
  | v6 (addr : Ipv6Addr)
  deriving DecidableEq

def IpAddr.isV6 : IpAddr → Bool
  | .v4 _ => false
  | .v6 _ => true

def ipv4HdrMin : Nat := 20

def be16 (n : Nat) : List UInt8 := [UInt8.ofNat (n/256),UInt8.ofNat n]

def ofBe16 (hi lo : UInt8) : Nat := 256*hi.toNat+lo.toNat

theorem ofBe16_be16 {n : Nat} (h : n < 65536) : ofBe16 (UInt8.ofNat (n/256)) (UInt8.ofNat n) = n := by
  simp only [ofBe16,UInt8.toNat_ofNat']
  omega

/-- The sum so far and an odd byte that waits for its partner, across parts. -/
def checksumByte (s : Nat × Option UInt8) (b : UInt8) : Nat × Option UInt8 :=
  match s.2 with
  | none => (s.1,some b)
  | some hi => (s.1+ofBe16 hi b,none)

def foldCarries : Nat → Nat → Nat
  | 0, sum => sum
  | rounds+1, sum =>
    if sum/65536 = 0 then sum else foldCarries rounds (sum%65536+sum/65536)

def checksum (parts : List (List UInt8)) : Nat :=
  let s := parts.foldl (fun s part => part.foldl checksumByte s) (0,none)
  65535-foldCarries 2 (s.1+s.2.elim 0 (fun b => 256*b.toNat))

theorem checksum_lt (parts : List (List UInt8)) : checksum parts < 65536 := by
  simp only [checksum]
  omega

def checksumValid (header : List UInt8) (cksumOff : Nat) : Bool :=
  if cksumOff+2 > header.length then false
  else checksum [header.take cksumOff,header.drop (cksumOff+2)] =
    ofBe16 (header.getD cksumOff 0) (header.getD (cksumOff+1) 0)

structure Ipv4Header where
  src : Ipv4Addr
  dst : Ipv4Addr
  proto : UInt8
  ttl : UInt8
  ident : Nat
  flagsFrag : Nat
  hdrLen : Nat
  totalLen : Nat
  deriving DecidableEq

def ipv4Build (src dst : Ipv4Addr) (proto : UInt8) (id flagsFrag : Nat) (ttl : UInt8)
    (payload : List UInt8) : List UInt8 :=
  let head := [0x45,0x00] ++ be16 (ipv4HdrMin+payload.length) ++ be16 id ++ be16 flagsFrag ++
    [ttl,proto]
  let addrs := src.octets ++ dst.octets
  head ++ be16 (checksum [head ++ [0,0] ++ addrs]) ++ addrs ++ payload

def ipv4Parse (p : List UInt8) : Option (Ipv4Header × List UInt8) :=
  let byte := fun i => p.getD i 0
  if p.length < ipv4HdrMin then none
  else if (byte 0).toNat/16 ≠ 4 then none
  else
    let ihl := (byte 0).toNat%16*4
    if ihl < ipv4HdrMin ∨ p.length < ihl then none
    else if ¬ checksumValid (p.take ihl) 10 then none
    else
      let totalLen := ofBe16 (byte 2) (byte 3)
      if totalLen < ihl ∨ totalLen > p.length then none
      else some (⟨⟨byte 12,byte 13,byte 14,byte 15⟩,⟨byte 16,byte 17,byte 18,byte 19⟩,byte 9,byte 8,
        ofBe16 (byte 4) (byte 5),ofBe16 (byte 6) (byte 7),ihl,totalLen⟩,(p.drop ihl).take (totalLen-ihl))

theorem checksum_zero_field (x y : List UInt8) (sum : Nat) (hx : x.foldl checksumByte (0,none) = (sum,none)) :
    checksum [x ++ [0,0] ++ y] = checksum [x,y] := by
  have hzero : ([0,0] : List UInt8).foldl checksumByte (sum,none) = (sum,none) := by
    simp [checksumByte,ofBe16]
  simp only [checksum,foldl_cons,foldl_nil,foldl_append,hx]
  simp only [foldl_cons,foldl_nil] at hzero
  rw [hzero]

theorem length_ipv4Build (src dst : Ipv4Addr) (proto : UInt8) (id flagsFrag : Nat) (ttl : UInt8)
    (payload : List UInt8) :
    (ipv4Build src dst proto id flagsFrag ttl payload).length = ipv4HdrMin+payload.length := by
  simp only [ipv4Build,be16,Ipv4Addr.octets,length_append,length_cons,length_nil,ipv4HdrMin]

theorem ipv4Parse_build (src dst : Ipv4Addr) (proto : UInt8) {id flagsFrag : Nat} (ttl : UInt8)
    {payload : List UInt8} (hid : id < 65536) (hflags : flagsFrag < 65536)
    (hlen : ipv4HdrMin+payload.length < 65536) :
    ipv4Parse (ipv4Build src dst proto id flagsFrag ttl payload) =
      some (⟨src,dst,proto,ttl,id,flagsFrag,ipv4HdrMin,ipv4HdrMin+payload.length⟩,payload) := by
  let head : List UInt8 := [0x45,0x00] ++ be16 (ipv4HdrMin+payload.length) ++ be16 id ++
    be16 flagsFrag ++ [ttl,proto]
  let addrs := src.octets ++ dst.octets
  have hsum := checksum_zero_field head addrs _ (by
    simp only [head,be16,cons_append,nil_append,foldl_cons,foldl_nil,checksumByte]
    rfl)
  have hcsum := ofBe16_be16 (checksum_lt [head,addrs])
  have hvalid : checksumValid (head ++ be16 (checksum [head ++ [0,0] ++ addrs]) ++ addrs) 10 =
      true := by
    rw [hsum]
    simpa [checksumValid,head,addrs,be16,Ipv4Addr.octets] using hcsum.symm
  have htake : (ipv4Build src dst proto id flagsFrag ttl payload).take ipv4HdrMin =
      head ++ be16 (checksum [head ++ [0,0] ++ addrs]) ++ addrs := by
    simp [ipv4Build,ipv4HdrMin,head,addrs,be16,Ipv4Addr.octets]
  have hdrop : (ipv4Build src dst proto id flagsFrag ttl payload).drop ipv4HdrMin = payload := by
    simp [ipv4Build,ipv4HdrMin,be16,Ipv4Addr.octets]
  have hlength := length_ipv4Build src dst proto id flagsFrag ttl payload
  have htotal := ofBe16_be16 hlen
  have hident := ofBe16_be16 hid
  have hfrag := ofBe16_be16 hflags
  have hbyte : ∀ i, i < 20 → (ipv4Build src dst proto id flagsFrag ttl payload).getD i 0 =
      (head ++ be16 (checksum [head ++ [0,0] ++ addrs]) ++ addrs).getD i 0 := by
    intro i hi
    have hi : i < ipv4HdrMin := hi
    rw [← htake,getD_eq_getElem?_getD,getD_eq_getElem?_getD,List.getElem?_take_of_lt hi]
  have hihl : (0x45 : UInt8).toNat%16*4 = ipv4HdrMin := rfl
  have hversion : (0x45 : UInt8).toNat/16 = 4 := rfl
  unfold ipv4Parse
  simp only [hlength,hbyte,Nat.reduceLT]
  simp only [head,addrs,be16,Ipv4Addr.octets,cons_append,nil_append,getD_cons_zero,
    getD_cons_succ] at htake hvalid ⊢
  simp only [hihl,hversion,htake,hvalid,htotal,hident,hfrag,hdrop]
  have hshort : ¬ (ipv4HdrMin < ipv4HdrMin ∨ ipv4HdrMin+payload.length < ipv4HdrMin) := by omega
  have hfits : ¬ (ipv4HdrMin+payload.length < ipv4HdrMin ∨
      ipv4HdrMin+payload.length > ipv4HdrMin+payload.length) := by omega
  rw [if_neg (by omega),if_neg (by simp),if_neg hshort,if_neg (by simp),if_neg hfits,
    Nat.add_sub_cancel_left,take_length]

end PaghOS.Net
