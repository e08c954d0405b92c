import PaghOS.Net.Wire

/-!
IPv6 packets on the wire (`net/wire.rs`): the fixed header, the extension
headers `ipv6_parse` skips, and the fragment header.
-/

namespace PaghOS.Net
open List

namespace Ipv6Addr

def ofSlice (octets : List UInt8) : Option Ipv6Addr :=
  if h : octets.length = 16 then some ⟨octets,h⟩ else none

theorem ofSlice_octets (a : Ipv6Addr) : ofSlice a.octets = some a := by
  unfold ofSlice
  rw [dif_pos a.size]

def byte (a : Ipv6Addr) (i : Nat) : UInt8 := a.octets.getD i 0

def allNodes : Ipv6Addr := ⟨[0xFF,0x02,0,0,0,0,0,0,0,0,0,0,0,0,0,1],rfl⟩

def isUnspecified (a : Ipv6Addr) : Bool := a.octets.all (· == 0)

def solicitedNode (a : Ipv6Addr) : Ipv6Addr :=
  ⟨[0xFF,0x02,0,0,0,0,0,0,0,0,0,0x01,0xFF,a.byte 13,a.byte 14,a.byte 15],rfl⟩

end Ipv6Addr

def ipv6HdrLen : Nat := 40
def protoIcmpv6 : UInt8 := 58
def ipv6ExtHopbyhop : UInt8 := 0
def ipv6ExtRouting : UInt8 := 43
def ipv6ExtFragment : UInt8 := 44
def ipv6NoNext : UInt8 := 59
def ipv6ExtDestopt : UInt8 := 60

def ipv6Build (src dst : Ipv6Addr) (nextHeader hopLimit : UInt8) (payload : List UInt8) :
    List UInt8 :=
  [0x60,0,0,0] ++ be16 payload.length ++ [nextHeader,hopLimit] ++ src.octets ++ dst.octets ++ payload

structure Ipv6Header where
  src : Ipv6Addr
  dst : Ipv6Addr
  proto : UInt8
  hopLimit : UInt8
  payloadOff : Nat
  deriving DecidableEq

def isExtension (nh : UInt8) : Bool :=
  nh == ipv6ExtHopbyhop || nh == ipv6ExtRouting || nh == ipv6ExtDestopt

/-- Skip at most `left` extension headers; the protocol behind them and where it starts. -/
def skipExtensions (pkt : List UInt8) (stop : Nat) : Nat → UInt8 → Nat → Option (UInt8 × Nat)
  | 0, nh, off => if isExtension nh then none else some (nh,off)
  | left+1, nh, off =>
    if isExtension nh then
      if off+2 > stop ∨ off+2 > pkt.length then none
      else
        let extLen := ((pkt.getD (off+1) 0).toNat+1)*8
        if off+extLen > stop then none
        else skipExtensions pkt stop left (pkt.getD off 0) (off+extLen)
    else some (nh,off)

def ipv6Parse (pkt : List UInt8) : Option (Ipv6Header × List UInt8) :=
  let byte := fun i => pkt.getD i 0
  if pkt.length < ipv6HdrLen ∨ (byte 0).toNat/16 ≠ 6 then none
  else
    let stop := ipv6HdrLen+ofBe16 (byte 4) (byte 5)
    if pkt.length < stop then none
    else do
      let src ← Ipv6Addr.ofSlice ((pkt.drop 8).take 16)
      let dst ← Ipv6Addr.ofSlice ((pkt.drop 24).take 16)
      let (nh,off) ← skipExtensions pkt stop 8 (byte 6) ipv6HdrLen
      some (⟨src,dst,nh,byte 7,off⟩,(pkt.drop off).take (stop-off))

/-- The identification, the offset in bytes, whether more follow, and the data. -/
def ipv6FragmentParse (payload : List UInt8) : Option (Nat × Nat × Bool × List UInt8) :=
  let byte := fun i => payload.getD i 0
  if payload.length < 8 then none
  else
    let ident := 65536*ofBe16 (byte 0) (byte 1)+ofBe16 (byte 2) (byte 3)
    let word := ofBe16 (byte 4) (byte 5)
    let more : Bool := word%2 ≠ 0
    some (ident,word/8*8,more,payload.drop 8)

structure Extension where
  kind : UInt8
  body : List UInt8
  skipped : isExtension kind = true
  whole : body.length%8 = 6
  short : body.length < 2048
  deriving DecidableEq

def firstKind : List Extension → UInt8 → UInt8
  | [], last => last
  | e :: _, _ => e.kind

def extensionBytes : List Extension → UInt8 → List UInt8
  | [], _ => []
  | e :: es, last =>
    [firstKind es last,UInt8.ofNat (e.body.length/8)] ++ e.body ++ extensionBytes es last

structure Envelope where
  first : UInt8
  flow : UInt8 × UInt8 × UInt8
  hopLimit : UInt8
  extensions : List Extension
  version : first.toNat/16 = 6
  few : extensions.length ≤ 8
  deriving DecidableEq

def Envelope.packet (env : Envelope) (src dst : Ipv6Addr) (last : UInt8) (payload : List UInt8) :
    List UInt8 :=
  let behind := extensionBytes env.extensions last ++ payload
  [env.first,env.flow.1,env.flow.2.1,env.flow.2.2] ++ be16 behind.length ++
    [firstKind env.extensions last,env.hopLimit] ++ src.octets ++ dst.octets ++ behind

def Envelope.plain (hopLimit : UInt8) : Envelope where
  first := 0x60
  flow := (0,0,0)
  hopLimit := hopLimit
  extensions := []
  version := rfl
  few := by simp

theorem getD_behind (front rest : List UInt8) (i : Nat) :
    (front ++ rest).getD (front.length+i) 0 = rest.getD i 0 := by
  rw [getD_eq_getElem?_getD,List.getElem?_append_right (Nat.le_add_right _ _),
    Nat.add_sub_cancel_left,getD_eq_getElem?_getD]

theorem skipExtensions_bytes {last : UInt8} (hlast : isExtension last = false) (payload : List UInt8)
    {es : List Extension} {left : Nat} (hleft : es.length ≤ left) (front : List UInt8) :
    skipExtensions (front ++ (extensionBytes es last ++ payload))
      (front.length+(extensionBytes es last ++ payload).length) left (firstKind es last)
      front.length = some (last,front.length+(extensionBytes es last).length) := by
  induction es generalizing left front with
  | nil => cases left <;> simp [skipExtensions,firstKind,extensionBytes,hlast]
  | cons e es ih =>
    cases left with
    | zero => simp at hleft
    | succ left =>
      have hwhole := e.whole
      have hshort := e.short
      have hunits : ((UInt8.ofNat (e.body.length/8)).toNat+1)*8 = e.body.length+2 := by
        rw [UInt8.toNat_ofNat']
        omega
      -- the header becomes part of the front for the rest of the chain
      let past := front ++ ([firstKind es last,UInt8.ofNat (e.body.length/8)] ++ e.body)
      have hsplit : front ++ (extensionBytes (e :: es) last ++ payload) =
          past ++ (extensionBytes es last ++ payload) := by
        simp [past,extensionBytes]
      have hlen : (extensionBytes (e :: es) last).length =
          e.body.length+2+(extensionBytes es last).length := by
        simp only [extensionBytes,length_append,length_cons,length_nil]
        omega
      have hnext := ih (Nat.le_of_succ_le_succ hleft) past
      rw [← hsplit] at hnext
      have hkind := getD_behind front (extensionBytes (e :: es) last ++ payload) 0
      have hsize := getD_behind front (extensionBytes (e :: es) last ++ payload) 1
      have hfront : past.length = front.length+(e.body.length+2) := by
        simp only [past,length_append,length_cons,length_nil]
        omega
      rw [hfront] at hnext
      rw [skipExtensions,if_pos (show isExtension (firstKind (e :: es) last) = true from e.skipped),
        if_neg (by simp only [length_append,hlen]; omega)]
      simp only [hsize,Nat.add_zero] at hkind ⊢
      have hbytes : (extensionBytes (e :: es) last ++ payload).getD 1 0 =
          UInt8.ofNat (e.body.length/8) := rfl
      have hfirst : (extensionBytes (e :: es) last ++ payload).getD 0 0 = firstKind es last := rfl
      rw [hkind,hbytes,hfirst,hunits,if_neg (by simp only [length_append,hlen]; omega)]
      have hstop : front.length+(extensionBytes (e :: es) last ++ payload).length =
          front.length+(e.body.length+2)+(extensionBytes es last ++ payload).length := by
        simp only [length_append,hlen]
        omega
      rw [hstop,hnext,hlen,Nat.add_assoc]

theorem ipv6Parse_packet (env : Envelope) (src dst : Ipv6Addr) {last : UInt8} {payload : List UInt8}
    (hlast : isExtension last = false)
    (hlen : (extensionBytes env.extensions last ++ payload).length < 65536) :
    ipv6Parse (env.packet src dst last payload) =
      some (⟨src,dst,last,env.hopLimit,ipv6HdrLen+(extensionBytes env.extensions last).length⟩,payload) := by
  have hsrc := src.size
  have hdst := dst.size
  let behind := extensionBytes env.extensions last ++ payload
  let head : List UInt8 := [env.first,env.flow.1,env.flow.2.1,env.flow.2.2] ++ be16 behind.length ++
    [firstKind env.extensions last,env.hopLimit]
  let pkt := env.packet src dst last payload
  have hhead : head.length = 8 := rfl
  have hpkt : pkt = (head ++ (src.octets ++ dst.octets)) ++ behind := by
    simp [pkt,Envelope.packet,head,behind]
  have hfront : (head ++ (src.octets ++ dst.octets)).length = ipv6HdrLen := by
    simp [hhead,hsrc,hdst,ipv6HdrLen]
  have hsize : pkt.length = ipv6HdrLen+behind.length := by rw [hpkt,length_append,hfront]
  have hread : ofBe16 (pkt.getD 4 0) (pkt.getD 5 0) = behind.length := ofBe16_be16 hlen
  have htakeSrc : (pkt.drop 8).take 16 = src.octets := by
    rw [hpkt,append_assoc,drop_append_of_le_length (by omega),drop_of_length_le (by omega),
      nil_append,append_assoc,take_append_of_le_length (by omega),take_of_length_le (by omega)]
  have htakeDst : (pkt.drop 24).take 16 = dst.octets := by
    have hlen24 : (head ++ src.octets).length = 24 := by rw [length_append,hhead,hsrc]
    have hassoc : pkt = (head ++ src.octets) ++ (dst.octets ++ behind) := by
      rw [hpkt]
      simp
    rw [hassoc,← hlen24,drop_left,take_append_of_le_length (by omega),take_of_length_le (by omega)]
  have hskip := skipExtensions_bytes hlast payload env.few (head ++ (src.octets ++ dst.octets))
  rw [← hpkt,hfront] at hskip
  have hrest : pkt.drop (ipv6HdrLen+(extensionBytes env.extensions last).length) = payload := by
    rw [hpkt,← hfront,← drop_drop,drop_left]
    exact drop_left
  have hfirst : (pkt.getD 0 0).toNat/16 = 6 := env.version
  have hkind : pkt.getD 6 0 = firstKind env.extensions last := rfl
  have hhop : pkt.getD 7 0 = env.hopLimit := rfl
  change ipv6Parse pkt = _
  unfold ipv6Parse
  simp only [hread,hkind,hhop,htakeSrc,htakeDst,Ipv6Addr.ofSlice_octets,Option.bind_eq_bind,Option.bind_some]
  rw [if_neg (by rw [hsize,not_or,Decidable.not_not]; exact ⟨by omega,hfirst⟩),
    if_neg (by omega),hskip,Option.bind_some,hrest]
  have hall : ipv6HdrLen+behind.length-(ipv6HdrLen+(extensionBytes env.extensions last).length) =
      payload.length := by
    simp only [behind,length_append]
    omega
  rw [hall,take_length]

end PaghOS.Net
