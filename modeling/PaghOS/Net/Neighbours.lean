import PaghOS.Net.Wire6
import PaghOS.Lib.Resolver

/-!
The link layer (`net/arp.rs`): the ARP table and the neighbour table of IPv6,
with `send_v4` and `send_v6` of `net/ip.rs` that park frames in them.
-/

namespace PaghOS.Net
open Resolver Option List

structure Mac where
  octets : List UInt8
  size : octets.length = 6
  deriving DecidableEq

def Mac.broadcast : Mac := ⟨[0xFF,0xFF,0xFF,0xFF,0xFF,0xFF],rfl⟩
def Mac.zero : Mac := ⟨[0,0,0,0,0,0],rfl⟩

def Ipv4Addr.unspecified : Ipv4Addr := ⟨0,0,0,0⟩
def Ipv4Addr.isUnspecified (a : Ipv4Addr) : Bool := a == ⟨0,0,0,0⟩
def Ipv4Addr.isBroadcast (a : Ipv4Addr) : Bool := a == ⟨255,255,255,255⟩

def dstIsMulticast (a : Ipv6Addr) : Bool := a.byte 0 == 0xFF

def ipv6MulticastMac (a : Ipv6Addr) : Mac :=
  ⟨[0x33,0x33,a.byte 12,a.byte 13,a.byte 14,a.byte 15],rfl⟩

def ethertypeIpv4 : Nat := 0x0800
def ethertypeArp : Nat := 0x0806
def ethertypeIpv6 : Nat := 0x86DD

def ethFrame (dst src : Mac) (ethertype : Nat) (payload : List UInt8) : List UInt8 :=
  dst.octets ++ src.octets ++ be16 ethertype ++ payload

def arpHtypeEthernet : Nat := 1
def arpPtypeIpv4 : Nat := 0x0800
def arpRequest : Nat := 1
def arpReply : Nat := 2
def arpPktLen : Nat := 28

def arpBuild (operation : Nat) (senderMac : Mac) (senderIp : Ipv4Addr) (targetMac : Mac)
    (targetIp : Ipv4Addr) : List UInt8 :=
  be16 arpHtypeEthernet ++ be16 arpPtypeIpv4 ++ [6,4] ++ be16 operation ++ senderMac.octets ++
    senderIp.octets ++ targetMac.octets ++ targetIp.octets

structure ArpPacket where
  operation : Nat
  senderMac : Mac
  senderIp : Ipv4Addr
  targetIp : Ipv4Addr
  deriving DecidableEq

def arpParse (p : List UInt8) : Option ArpPacket :=
  let byte := fun i => p.getD i 0
  if p.length < arpPktLen then none
  else if ofBe16 (byte 0) (byte 1) ≠ arpHtypeEthernet ∨ ofBe16 (byte 2) (byte 3) ≠ arpPtypeIpv4 ∨
      byte 4 ≠ 6 ∨ byte 5 ≠ 4 then none
  else some ⟨ofBe16 (byte 6) (byte 7),⟨[byte 8,byte 9,byte 10,byte 11,byte 12,byte 13],rfl⟩,
    ⟨byte 14,byte 15,byte 16,byte 17⟩,⟨byte 24,byte 25,byte 26,byte 27⟩⟩

def icmpv6NeighborSolicit : UInt8 := 135
def icmpv6NeighborAdvert : UInt8 := 136
def ndOptSourceLl : UInt8 := 1
def ndOptTargetLl : UInt8 := 2
def ndHopLimit : UInt8 := 255

/-- The checksum covers a pseudo header with the addresses and the length. -/
def icmpv6Build (src dst : Ipv6Addr) (kind code : UInt8) (body : List UInt8) : List UInt8 :=
  let len := 4+body.length
  let csum := checksum [src.octets ++ dst.octets ++ be16 (len/65536) ++ be16 len ++
    [0,0,0,protoIcmpv6] ++ [kind,code,0,0] ++ body]
  [kind,code] ++ be16 csum ++ body

def neighborSolicit (srcIp : Ipv6Addr) (srcMac : Mac) (target : Ipv6Addr) : List UInt8 :=
  icmpv6Build srcIp target.solicitedNode icmpv6NeighborSolicit 0
    ([0,0,0,0] ++ target.octets ++ [ndOptSourceLl,1] ++ srcMac.octets)

def neighborAdvert (srcIp dstIp : Ipv6Addr) (srcMac : Mac) (target : Ipv6Addr) (solicited : Bool) :
    List UInt8 :=
  icmpv6Build srcIp dstIp icmpv6NeighborAdvert 0
    ([if solicited then 0xA0 else 0x80,0,0,0] ++ target.octets ++ [ndOptTargetLl,1] ++ srcMac.octets)

structure NdpPacket where
  isSolicit : Bool
  naFlags : UInt8
  target : Ipv6Addr
  llAddr : Option Mac
  deriving DecidableEq

def cacheSize : Nat := 16
def pendingCap : Nat := 32
def entryTtlTicks : Nat := 60000
def pendingTtlTicks : Nat := 5000
def requestRetryTicks : Nat := 1000
def maxRequests : Nat := 3

/-- A frame handed to the card, and the entry of the queue it was made from. -/
structure Tx (φ : Type) where
  frame : List UInt8
  waited : Option φ
  deriving DecidableEq

section Tables
variable {α : Type} [DecidableEq α]

def countRequest (ip : α) (now : Nat) : List (α × Nat × Nat) → List (α × Nat × Nat)
  | [] => []
  | r :: rest =>
    if r.1 = ip then (r.1,now,r.2.2+1) :: rest else r :: countRequest ip now rest

/-- The outstanding requests when `ip` is asked for; `none` within a second of the
last time. -/
def noteRequest (ip : α) (now : Nat) (inflight : List (α × Nat × Nat)) :
    Option (List (α × Nat × Nat)) :=
  match inflight.find? (fun r => r.1 = ip) with
  | some r => if now < r.2.1+requestRetryTicks then none else some (countRequest ip now inflight)
  | none => some (inflight ++ [(ip,now,1)])

def liveRequests (now : Nat) (inflight : List (α × Nat × Nat)) : List (α × Nat × Nat) :=
  inflight.filter (fun r => now < r.2.1+pendingTtlTicks ∧ r.2.2 ≤ maxRequests)

end Tables

def firstMin : List Nat → Option Nat
  | [] => none
  | k :: ks =>
    match firstMin ks with
    | none => some 0
    | some i => if ks.getD i 0 < k then some (i+1) else some 0

structure Entry where
  ip : Ipv4Addr
  mac : Mac
  expires : Nat
  updated : Nat
  deriving DecidableEq

structure Pending where
  dstIp : Ipv4Addr
  ethertype : Nat
  payload : List UInt8
  enqueued : Nat
  deriving DecidableEq

structure ArpTable where
  entries : List (Option Entry)
  full : entries.length = cacheSize
  inflight : List (Ipv4Addr × Nat × Nat)
  pending : List Pending
  deriving DecidableEq

namespace ArpTable

def new : ArpTable := ⟨List.replicate cacheSize none,rfl,[],[]⟩

def lookup (t : ArpTable) (ip : Ipv4Addr) : Option Mac :=
  (Resolver.find (·.ip) ip t.entries).map (·.mac)

def victim (t : ArpTable) (now : Nat) : Nat :=
  (((t.entries.findIdx? (fun s => s.isNone)).or
    (t.entries.findIdx? (fun s => s.any (fun e => e.expires ≤ now)))).or
    (firstMin (t.entries.map (fun s => s.elim 0 (·.updated))))).getD 0

def insert (t : ArpTable) (ip : Ipv4Addr) (mac : Mac) (now : Nat) : ArpTable :=
  { t with
    entries := Resolver.put (·.ip) (t.victim now) ⟨ip,mac,now+entryTtlTicks,now⟩ t.entries
    full := (length_put _ _ _).trans t.full }

def enqueuePending (t : ArpTable) (dstIp : Ipv4Addr) (ethertype : Nat) (payload : List UInt8)
    (now : Nat) : ArpTable × Bool :=
  if t.pending.length ≥ pendingCap then (t,false)
  else ({ t with pending := t.pending ++ [⟨dstIp,ethertype,payload,now⟩] },true)

def request (t : ArpTable) (myMac : Mac) (myIp ip : Ipv4Addr) (now : Nat) :
    ArpTable × List (Tx Pending) :=
  match noteRequest ip now t.inflight with
  | none => (t,[])
  | some inflight =>
    let pkt := arpBuild arpRequest myMac myIp Mac.zero ip
    ({ t with inflight := inflight },[⟨ethFrame Mac.broadcast myMac ethertypeArp pkt,none⟩])

def input (t : ArpTable) (myMac : Mac) (myIp : Option Ipv4Addr) (pkt : List UInt8) (now : Nat) :
    ArpTable × List (Tx Pending) :=
  match arpParse pkt with
  | none => (t,[])
  | some p =>
    if p.operation = arpRequest then
      if myIp = some p.targetIp then
        let t := if p.senderIp.isUnspecified then t else t.insert p.senderIp p.senderMac now
        let reply := arpBuild arpReply myMac p.targetIp p.senderMac p.senderIp
        (t,[⟨ethFrame p.senderMac myMac ethertypeArp reply,none⟩])
      else (t,[])
    else if p.operation = arpReply then
      if t.inflight.any (fun r => r.1 = p.senderIp && !p.senderIp.isUnspecified) then
        let t := t.insert p.senderIp p.senderMac now
        ({ t with
            inflight := t.inflight.filter (fun r => r.1 ≠ p.senderIp)
            pending := t.pending.filter (fun fr => fr.dstIp ≠ p.senderIp) },
          (t.pending.filter (fun fr => fr.dstIp = p.senderIp)).map
            (fun fr => ⟨ethFrame p.senderMac myMac fr.ethertype fr.payload,some fr⟩))
      else (t,[])
    else (t,[])

def onTick (t : ArpTable) (now : Nat) : ArpTable where
  entries := t.entries.map (fun s => s.filter (fun e => !decide (e.expires ≤ now)))
  full := (List.length_map _).trans t.full
  inflight := liveRequests now t.inflight
  pending := t.pending.filter (fun fr => now < fr.enqueued+pendingTtlTicks)

end ArpTable

structure NdpEntry where
  ip : Ipv6Addr
  mac : Mac
  expires : Nat
  deriving DecidableEq

structure NdpPending where
  dst : Ipv6Addr
  payload : List UInt8
  enqueued : Nat
  deriving DecidableEq

structure NdpTable where
  entries : List (Option NdpEntry)
  full : entries.length = cacheSize
  inflight : List (Ipv6Addr × Nat × Nat)
  pending : List NdpPending
  deriving DecidableEq

namespace NdpTable

def new : NdpTable := ⟨List.replicate cacheSize none,rfl,[],[]⟩

def lookup (t : NdpTable) (ip : Ipv6Addr) : Option Mac :=
  (Resolver.find (·.ip) ip t.entries).map (·.mac)

def victim (t : NdpTable) (now : Nat) : Nat :=
  ((t.entries.findIdx? (fun s => s.isNone)).or
    (t.entries.findIdx? (fun s => s.any (fun e => e.expires ≤ now)))).getD 0

def insert (t : NdpTable) (ip : Ipv6Addr) (mac : Mac) (now : Nat) : NdpTable :=
  { t with
    entries := Resolver.put (·.ip) (t.victim now) ⟨ip,mac,now+entryTtlTicks⟩ t.entries
    full := (length_put _ _ _).trans t.full }

def enqueuePending (t : NdpTable) (dst : Ipv6Addr) (payload : List UInt8) (now : Nat) :
    NdpTable × Bool :=
  if t.pending.length ≥ pendingCap then (t,false)
  else ({ t with pending := t.pending ++ [⟨dst,payload,now⟩] },true)

def solicit (t : NdpTable) (myMac : Mac) (myIp ip : Ipv6Addr) (now : Nat) :
    NdpTable × List (Tx NdpPending) :=
  match noteRequest ip now t.inflight with
  | none => (t,[])
  | some inflight =>
    let icmp := neighborSolicit myIp myMac ip
    let mcastIp := ip.solicitedNode
    let pkt := ipv6Build myIp mcastIp protoIcmpv6 ndHopLimit icmp
    ({ t with inflight := inflight },[⟨ethFrame (ipv6MulticastMac mcastIp) myMac ethertypeIpv6 pkt,none⟩])

def input (t : NdpTable) (myMac : Mac) (ours : Ipv6Addr → Bool) (p : NdpPacket) (srcIp : Ipv6Addr)
    (ethSrc : Mac) (now : Nat) : NdpTable × List (Tx NdpPending) :=
  if p.isSolicit then
    let t := if srcIp.isUnspecified then t else
      match p.llAddr with
      | some mac => t.insert srcIp mac now
      | none => t
    if ours p.target then
      let adv := neighborAdvert p.target srcIp myMac p.target true
      let pkt := ipv6Build p.target srcIp protoIcmpv6 ndHopLimit adv
      (t,[⟨ethFrame ethSrc myMac ethertypeIpv6 pkt,none⟩])
    else (t,[])
  else
    let learned := p.llAddr.getD ethSrc
    let t := t.insert p.target learned now
    ({ t with
        inflight := t.inflight.filter (fun r => r.1 ≠ p.target)
        pending := t.pending.filter (fun fr => fr.dst ≠ p.target) },
      (t.pending.filter (fun fr => fr.dst = p.target)).map
        (fun fr => ⟨ethFrame learned myMac ethertypeIpv6 fr.payload,some fr⟩))

def onTick (t : NdpTable) (now : Nat) : NdpTable where
  entries := t.entries.map (fun s => s.filter (fun e => !decide (e.expires ≤ now)))
  full := (List.length_map _).trans t.full
  inflight := liveRequests now t.inflight
  pending := t.pending.filter (fun fr => now < fr.enqueued+pendingTtlTicks)

end NdpTable

/-- The part of the stack the link layer reads; of a subnet only our address. -/
structure Link where
  mac : Mac
  cidr : Option Ipv4Addr
  llAddr6 : Ipv6Addr
  cidr6 : Option Ipv6Addr
  arp : ArpTable
  nd : NdpTable
  deriving DecidableEq

namespace Link

def sendV4 (st : Link) (nextHop : Ipv4Addr) (packet : List UInt8) (now : Nat) :
    Link × List (Tx Pending) :=
  if nextHop.isBroadcast then (st,[⟨ethFrame Mac.broadcast st.mac ethertypeIpv4 packet,none⟩])
  else
    match st.arp.lookup nextHop with
    | some mac => (st,[⟨ethFrame mac st.mac ethertypeIpv4 packet,none⟩])
    | none =>
      let parked := st.arp.enqueuePending nextHop ethertypeIpv4 packet now
      let asked := parked.1.request st.mac (st.cidr.getD Ipv4Addr.unspecified) nextHop now
      ({ st with arp := asked.1 },asked.2)

def sendV6 (st : Link) (nextHop : Ipv6Addr) (packet : List UInt8) (now : Nat) :
    Link × List (Tx NdpPending) :=
  if dstIsMulticast nextHop then
    (st,[⟨ethFrame (ipv6MulticastMac nextHop) st.mac ethertypeIpv6 packet,none⟩])
  else
    match st.nd.lookup nextHop with
    | some mac => (st,[⟨ethFrame mac st.mac ethertypeIpv6 packet,none⟩])
    | none =>
      let parked := st.nd.enqueuePending nextHop packet now
      let asked := parked.1.solicit st.mac st.llAddr6 nextHop now
      ({ st with nd := asked.1 },asked.2)

def ours (st : Link) (a : Ipv6Addr) : Bool := st.cidr6 == some a || st.llAddr6 == a

end Link

/-- A packet to send, a received message, a tick, or new addresses of our own. -/
inductive LinkOp where
  | sendV4 (nextHop : Ipv4Addr) (packet : List UInt8) (now : Nat)
  | sendV6 (nextHop : Ipv6Addr) (packet : List UInt8) (now : Nat)
  | arp (pkt : List UInt8) (now : Nat)
  | ndp (p : NdpPacket) (srcIp : Ipv6Addr) (ethSrc : Mac) (now : Nat)
  | tick (now : Nat)
  | configure (cidr : Option Ipv4Addr) (cidr6 : Option Ipv6Addr)
  deriving DecidableEq

def Link.step (st : Link) : LinkOp → Link × List (Tx Pending) × List (Tx NdpPending)
  | .sendV4 nextHop packet now =>
    let r := st.sendV4 nextHop packet now
    (r.1,r.2,[])
  | .sendV6 nextHop packet now =>
    let r := st.sendV6 nextHop packet now
    (r.1,[],r.2)
  | .arp pkt now =>
    let r := st.arp.input st.mac st.cidr pkt now
    ({ st with arp := r.1 },r.2,[])
  | .ndp p srcIp ethSrc now =>
    let r := st.nd.input st.mac st.ours p srcIp ethSrc now
    ({ st with nd := r.1 },[],r.2)
  | .tick now => ({ st with arp := st.arp.onTick now, nd := st.nd.onTick now },[],[])
  | .configure cidr cidr6 => ({ st with cidr := cidr, cidr6 := cidr6 },[],[])

section Lookup

theorem firstMin_lt {ks : List Nat} {i : Nat} (h : firstMin ks = some i) : i < ks.length := by
  induction ks generalizing i with
  | nil => simp [firstMin] at h
  | cons k ks ih =>
    simp only [firstMin] at h
    split at h
    · obtain rfl := some.inj h
      simp
    rename_i j hj
    have hlt := ih hj
    split at h
    · obtain rfl := some.inj h
      simpa using hlt
    · obtain rfl := some.inj h
      simp

theorem getD_lt {o : Option Nat} {n : Nat} (hpos : 0 < n) (h : ∀ i, o = some i → i < n) : o.getD 0 < n := by
  cases o with
  | none => exact hpos
  | some i => exact h i rfl

theorem ArpTable.victim_lt (t : ArpTable) (now : Nat) : t.victim now < t.entries.length := by
  refine getD_lt (by rw [t.full]; decide) fun i hi => ?_
  rcases or_eq_some_iff.mp hi with hi | ⟨-,hi⟩
  · rcases or_eq_some_iff.mp hi with hi | ⟨-,hi⟩
    · exact (findIdx?_eq_some_iff_findIdx_eq.mp hi).1
    · exact (findIdx?_eq_some_iff_findIdx_eq.mp hi).1
  · simpa using firstMin_lt hi

theorem NdpTable.victim_lt (t : NdpTable) (now : Nat) : t.victim now < t.entries.length := by
  refine getD_lt (by rw [t.full]; decide) fun i hi => ?_
  rcases or_eq_some_iff.mp hi with hi | ⟨-,hi⟩
  · exact (findIdx?_eq_some_iff_findIdx_eq.mp hi).1
  · exact (findIdx?_eq_some_iff_findIdx_eq.mp hi).1

theorem ArpTable.lookup_insert (t : ArpTable) (ip : Ipv4Addr) (mac : Mac) (now : Nat) :
    (t.insert ip mac now).lookup ip = some mac ∧
      ∀ b, b ≠ ip → ((t.insert ip mac now).lookup b).isSome → (t.lookup b).isSome := by
  obtain ⟨hself,hother⟩ := find_put (·.ip)
    (⟨ip,mac,now+entryTtlTicks,now⟩ : Entry) (t.victim_lt now)
  refine ⟨congrArg (Option.map Entry.mac) hself,fun b hb hsome => ?_⟩
  rw [ArpTable.lookup,isSome_map] at hsome ⊢
  exact hother b hb hsome

theorem NdpTable.lookup_insert (t : NdpTable) (ip : Ipv6Addr) (mac : Mac) (now : Nat) :
    (t.insert ip mac now).lookup ip = some mac ∧
      ∀ b, b ≠ ip → ((t.insert ip mac now).lookup b).isSome → (t.lookup b).isSome := by
  obtain ⟨hself,hother⟩ := find_put (·.ip)
    (⟨ip,mac,now+entryTtlTicks⟩ : NdpEntry) (t.victim_lt now)
  refine ⟨congrArg (Option.map NdpEntry.mac) hself,fun b hb hsome => ?_⟩
  rw [NdpTable.lookup,isSome_map] at hsome ⊢
  exact hother b hb hsome

theorem ArpTable.lookup_onTick (t : ArpTable) (now : Nat) {ip : Ipv4Addr}
    (h : ((t.onTick now).lookup ip).isSome) : (t.lookup ip).isSome := by
  rw [ArpTable.lookup,isSome_map] at h ⊢
  exact find_sweep _ h

theorem NdpTable.lookup_onTick (t : NdpTable) (now : Nat) {ip : Ipv6Addr}
    (h : ((t.onTick now).lookup ip).isSome) : (t.lookup ip).isSome := by
  rw [NdpTable.lookup,isSome_map] at h ⊢
  exact find_sweep _ h

theorem ArpTable.request_keeps (t : ArpTable) (myMac : Mac) (myIp ip : Ipv4Addr) (now : Nat) :
    (t.request myMac myIp ip now).1.entries = t.entries ∧
      (t.request myMac myIp ip now).1.pending = t.pending ∧
      ∀ tx ∈ (t.request myMac myIp ip now).2, tx.waited = none := by
  unfold ArpTable.request
  split
  · exact ⟨rfl,rfl,nofun⟩
  · exact ⟨rfl,rfl,by simp⟩

theorem NdpTable.solicit_keeps (t : NdpTable) (myMac : Mac) (myIp ip : Ipv6Addr) (now : Nat) :
    (t.solicit myMac myIp ip now).1.entries = t.entries ∧
      (t.solicit myMac myIp ip now).1.pending = t.pending ∧
      ∀ tx ∈ (t.solicit myMac myIp ip now).2, tx.waited = none := by
  unfold NdpTable.solicit
  split
  · exact ⟨rfl,rfl,nofun⟩
  · exact ⟨rfl,rfl,by simp⟩

end Lookup

end PaghOS.Net
