import PaghOS.Net.Wire6
import PaghOS.Net.ReassemblyRuns

/-!
IPv6 reassembly (`input_v6` of `net/ip.rs`, behind its neighbour discovery).
The fragment header is read four bytes off: the first word, with the next header
and the offset, counts as the identification, and the upper half of the
identification as offset and M flag; the upper protocol is taken from the data.
-/

namespace PaghOS.Net
open List

variable {f : Fragment6} {r : Reassembler} {events : List Event}

structure Delivery6 where
  src : Ipv6Addr
  dst : Ipv6Addr
  proto : UInt8
  payload : List UInt8
  deriving DecidableEq

/-- The part of the stack `input_v6` reads: our addresses and the reassembler. -/
structure Host6 where
  llAddr6 : Ipv6Addr
  cidr6 : Option Ipv6Addr
  reasm6 : Reassembler
  deriving DecidableEq

def Host6.accepts (st : Host6) (dst : Ipv6Addr) : Bool :=
  st.cidr6 == some dst || dst == st.llAddr6 || dst == Ipv6Addr.allNodes ||
    st.cidr6.any (fun g => dst == g.solicitedNode) || dst == st.llAddr6.solicitedNode

/-- Neighbour discovery and router advertisements are not upper-layer data. -/
def isDiscovery (proto : UInt8) (payload : List UInt8) : Bool :=
  proto == protoIcmpv6 && payload.head?.any (fun kind => kind == 134 || kind == 135 || kind == 136)

def restFirst (rest : List UInt8) : UInt8 := rest.headD ipv6NoNext

def Host6.inputV6 (st : Host6) (pkt : List UInt8) (now : Nat) : Host6 × Option Delivery6 :=
  match ipv6Parse pkt with
  | none => (st,none)
  | some (h,payload) =>
    if st.accepts h.dst = false ∨ isDiscovery h.proto payload = true then (st,none)
    else if h.proto = ipv6ExtFragment then
      match ipv6FragmentParse payload with
      | none => (st,none)
      | some (ident,fragOff,more,rest) =>
        let upperProto := restFirst rest
        let fed := st.reasm6.feed now ⟨.v6 h.src,.v6 h.dst,ident,upperProto⟩ fragOff more
          rest
        ({ st with reasm6 := fed.1 },fed.2.map (fun full => ⟨h.src,h.dst,upperProto,full⟩))
    else (st,some ⟨h.src,h.dst,h.proto,payload⟩)

def Host6.step (st : Host6) : Event → Host6 × Option Delivery6
  | .recv now pkt => st.inputV6 pkt now
  | .tick now => ({ st with reasm6 := st.reasm6.onTick now },none)

def Host6.deliveries (st : Host6) : List Event → List Delivery6
  | [] => []
  | e :: es => (st.step e).2.toList ++ (st.step e).1.deliveries es

/-- A packet before it was fragmented; `payload` is its fragmentable part. -/
structure Datagram6 where
  src : Ipv6Addr
  dst : Ipv6Addr
  nextHeader : UInt8
  ident : UInt32
  payload : List UInt8
  deriving DecidableEq

def Datagram6.delivery (d : Datagram6) : Delivery6 := ⟨d.src,d.dst,d.nextHeader,d.payload⟩

structure Fragment6 where
  nextHeader : UInt8
  offset : Nat
  more : Bool
  data : List UInt8
  deriving DecidableEq

/-- Next header, a reserved byte, thirteen bits of offset, two reserved bits and
the M flag, the identification; then the data. -/
def Fragment6.bytes (ident : UInt32) (f : Fragment6) : List UInt8 :=
  [f.nextHeader,0] ++ be16 (f.offset/8*8+(if f.more then 1 else 0)) ++ be16 (ident.toNat/65536) ++
    be16 ident.toNat ++ f.data

def Fragment6.chunk (f : Fragment6) : Chunk := ⟨f.offset,f.data⟩

/-- Fragments as RFC 8200 has them: they cut the payload, all but the last in
multiples of eight bytes, the M flag says whether more follow, and the fragment
at offset zero has the next header of the datagram. -/
structure Fragmentation (d : Datagram6) (frags : List Fragment6) : Prop where
  cuts : Cuts d.payload 0 (frags.map (·.chunk)) ∨ d.payload = [] ∧ frags.map (·.chunk) = [⟨0,[]⟩]
  some : frags ≠ []
  more : ∀ f ∈ frags, f.more = decide (f.offset+f.data.length < d.payload.length)
  unit : ∀ f ∈ frags, f.more = true → f.data.length%8 = 0
  first : ∀ f ∈ frags, f.offset = 0 → f.nextHeader = d.nextHeader
  size : d.payload.length ≤ 65535

def Event.Carries (d : Datagram6) (f : Fragment6) (e : Event) : Prop :=
  ∃ (env : Envelope) (now : Nat),
    (extensionBytes env.extensions ipv6ExtFragment ++ f.bytes d.ident).length < 65536 ∧
    e = .recv now (env.packet d.src d.dst ipv6ExtFragment (f.bytes d.ident))

def Event.isRecv : Event → Bool
  | .recv _ _ => true
  | .tick _ => false

/-- Nothing of the pair is held, and there is room for the whole payload. -/
structure Host6.Room (st : Host6) (d : Datagram6) : Prop where
  foreign : ∀ b ∈ st.reasm6.bufs, b.key.src = .v6 d.src → b.key.dst ≠ .v6 d.dst
  bytes : st.reasm6.heldTotal+d.payload.length ≤ reasmTotalCap
  bufs : st.reasm6.bufs.length < reasmCap

def readOffset (ident : UInt32) : Nat := ident.toNat/65536/8*8

def readMore (ident : UInt32) : Bool := decide (ident.toNat/65536%2 ≠ 0)

section Reading

theorem fragmentParse_bytes (ident : UInt32) (f : Fragment6) :
    ∃ id, ipv6FragmentParse (f.bytes ident) = some (id,readOffset ident,readMore ident,f.data) := by
  have hlt : ident.toNat < 4294967296 := ident.toNat_lt
  have hword : ofBe16 (UInt8.ofNat (ident.toNat/65536/256)) (UInt8.ofNat (ident.toNat/65536)) =
      ident.toNat/65536 := ofBe16_be16 (by omega)
  have hlen : ¬ (f.bytes ident).length < 8 := by
    simp only [Fragment6.bytes,be16,length_append,length_cons,length_nil]
    omega
  have hread : ofBe16 ((f.bytes ident).getD 4 0) ((f.bytes ident).getD 5 0) =
      ident.toNat/65536 := hword
  have hrest : (f.bytes ident).drop 8 = f.data := rfl
  unfold ipv6FragmentParse
  simp only [if_neg hlen,hread,hrest]
  exact ⟨_,rfl⟩

theorem step_carries {st : Host6} {d : Datagram6} {e : Event} (he : e.Carries d f)
    (hours : st.accepts d.dst = true) : ∃ id now,
    let fed := st.reasm6.feed now ⟨.v6 d.src,.v6 d.dst,id,restFirst f.data⟩
      (readOffset d.ident) (readMore d.ident) f.data
    st.step e = ({ st with reasm6 := fed.1 },
      fed.2.map (fun full => ⟨d.src,d.dst,restFirst f.data,full⟩)) := by
  obtain ⟨env,now,hlen,rfl⟩ := he
  obtain ⟨id,hparse⟩ := fragmentParse_bytes d.ident f
  refine ⟨id,now,?_⟩
  have hdisc : isDiscovery ipv6ExtFragment (f.bytes d.ident) = false := rfl
  simp [Host6.step,Host6.inputV6,ipv6Parse_packet env d.src d.dst rfl hlen,hours,hdisc,hparse]

end Reading

section Held

theorem heldTotal_filter (p : FragBuf → Bool) (bufs : List FragBuf) :
    (Reassembler.mk (bufs.filter p)).heldTotal ≤ (Reassembler.mk bufs).heldTotal := by
  induction bufs with
  | nil => exact le_rfl
  | cons b bufs ih =>
    simp only [Reassembler.heldTotal,filter_cons,foldr_cons] at ih ⊢
    split
    · simp only [foldr_cons]
      omega
    · omega

theorem Host6.Room.onTick {st : Host6} {d : Datagram6} (h : st.Room d) (now : Nat) :
    Host6.Room { st with reasm6 := st.reasm6.onTick now } d where
  foreign := fun b hb => h.foreign b (mem_of_mem_filter hb)
  bytes := le_trans (Nat.add_le_add_right (heldTotal_filter _ _) _) h.bytes
  bufs := lt_of_le_of_lt (length_filter_le _ _) h.bufs

end Held

section Whole
variable {st : Host6} {d : Datagram6} {frags : List Fragment6}

theorem feed_whole (key : FragKey) (data : List UInt8)
    (hkey : ∀ b ∈ r.bufs, b.key ≠ key) (hbytes : r.heldTotal+data.length ≤ reasmTotalCap)
    (hbufs : r.bufs.length < reasmCap) (now : Nat) : r.feed now key 0 false data = (r,some data) := by
  have hnone : r.bufFor key = none := by
    apply List.find?_eq_none.mpr
    simpa using hkey
  have hopened : r.opened now key = some (r.bufs ++ [⟨key,[],none,now⟩]) := by
    unfold Reassembler.opened
    rw [hnone,if_neg (by simp),if_neg (by omega)]
  have hadmits : r.Admits key data.length := ⟨hbytes,.inr hbufs⟩
  have haround : Reassembler.Around r now key r.bufs ⟨key,[],none,now⟩ [] :=
    ⟨rfl,hkey,by simp,hopened,.inr ⟨rfl,rfl,rfl⟩⟩
  rw [Reassembler.feed_admitted hadmits haround]
  simp [FragBuf.add,FragBuf.tryComplete,FragBuf.sorted,contiguous]

theorem Fragmentation.data_le (h : Fragmentation d frags) (hf : f ∈ frags) :
    f.data.length ≤ d.payload.length := by
  have hchunk : f.chunk ∈ frags.map (·.chunk) := mem_map_of_mem hf
  rcases h.cuts with hcuts | ⟨-,honly⟩
  · have hpiece := (hcuts.piece hchunk).2.2.1
    change f.offset+f.data.length ≤ _ at hpiece
    omega
  · rw [honly,mem_singleton] at hchunk
    have hdata : f.data = [] := congrArg Chunk.data hchunk
    simp [hdata]

def Fragment6.delivery (d : Datagram6) (f : Fragment6) : Delivery6 :=
  ⟨d.src,d.dst,restFirst f.data,f.data⟩

theorem deliveries_whole (hcut : Fragmentation d frags) (hours : st.accepts d.dst = true)
    (hroom : st.Room d) (hoff : readOffset d.ident = 0) (hmore : readMore d.ident = false)
    (hfrom : ∀ e ∈ events, e.isRecv = false ∨ ∃ f ∈ frags, e.Carries d f) :
    ∃ fs : List Fragment6, st.deliveries events = fs.map (·.delivery d) ∧
      fs.length = (events.filter (·.isRecv)).length ∧ ∀ f ∈ fs, f ∈ frags := by
  induction events generalizing st with
  | nil => exact ⟨[],rfl,rfl,nofun⟩
  | cons e events ih =>
    have hrest := fun e' he' => hfrom e' (mem_cons_of_mem e he')
    cases e with
    | tick now =>
      obtain ⟨fs,hfs,hall⟩ := ih (by exact hours) (hroom.onTick now) hrest
      exact ⟨fs,by simpa [Host6.deliveries,Host6.step] using hfs,by simpa [Event.isRecv] using hall⟩
    | recv now pkt =>
      obtain ⟨f,hf,hcarries⟩ := (hfrom _ mem_cons_self).resolve_left nofun
      obtain ⟨id,now',hstep⟩ := step_carries hcarries hours
      have hle := hcut.data_le hf
      have hbytes := hroom.bytes
      have hfed := feed_whole ⟨.v6 d.src,.v6 d.dst,id,restFirst f.data⟩ f.data
        (fun b hb hkey => hroom.foreign b hb (by rw [hkey]) (by rw [hkey])) (by omega)
        hroom.bufs now'
      simp only [hoff,hmore,hfed] at hstep
      obtain ⟨fs,hfs,hlen,hall⟩ := ih hours hroom hrest
      refine ⟨f :: fs,?_,by simp [Event.isRecv,hlen],?_⟩
      · rw [Host6.deliveries,hstep,map_cons]
        exact congrArg _ hfs
      · exact fun f' hf' => (mem_cons.mp hf').elim (fun heq => heq ▸ hf) (hall f')

end Whole

section Stuck
variable {off : Nat} {more : Bool} {d : Datagram6}
variable {b : FragBuf}

/-- A buffer that got nothing but fragments read with this offset and M flag. -/
structure Stuck (off : Nat) (more : Bool) (b : FragBuf) : Prop where
  unended : more = true → b.total = none
  offsets : ∀ f ∈ b.frags, f.1 = off
  empty : b.frags = [] → b.total = none

theorem Stuck.fresh (key : FragKey) (now : Nat) : Stuck off more ⟨key,[],none,now⟩ :=
  ⟨fun _ => rfl,nofun,fun _ => rfl⟩

theorem Stuck.add (h : Stuck off more b) (now : Nat) (data : List UInt8) :
    Stuck off more (b.add now off more data) where
  unended := by
    intro hmore
    simp only [FragBuf.add,hmore,if_true]
    exact h.unended hmore
  offsets := by
    intro f hf
    simp only [FragBuf.add] at hf
    split at hf
    · exact h.offsets f hf
    · rcases mem_append.mp hf with hf | hf
      · exact h.offsets f hf
      · rw [mem_singleton.mp hf]
  empty := by
    intro hnil
    simp only [FragBuf.add] at hnil
    split at hnil
    · rename_i hany
      simp [hnil] at hany
    · simp at hnil

theorem Stuck.incomplete (h : Stuck off more b) (hbad : more = true ∨ off ≠ 0) :
    b.tryComplete = none := by
  unfold FragBuf.tryComplete
  split
  · rfl
  rename_i total htotal
  have hoff : off ≠ 0 := by
    rcases hbad with hmore | hoff
    · simp [h.unended hmore] at htotal
    · exact hoff
  cases hsorted : b.sorted with
  | nil =>
    have hnil : b.frags = [] := by
      apply eq_nil_iff_forall_not_mem.mpr
      intro f hf
      simpa [hsorted] using mem_sorted.mpr hf
    simp [h.empty hnil] at htotal
  | cons f rest =>
    have hf : f.1 = off := h.offsets f (mem_sorted.mp (by simp [hsorted]))
    have hbroken : contiguous 0 (f :: rest) = none := by
      rw [contiguous,if_pos (by rw [hf]; exact hoff)]
    rw [hbroken,if_neg (by simp)]

theorem mem_alterFirst {key : FragKey} {g : FragBuf → FragBuf} {bufs : List FragBuf}
    (hb : b ∈ Reassembler.alterFirst key g bufs) : b ∈ bufs ∨ ∃ b' ∈ bufs, b'.key = key ∧ b = g b' := by
  induction bufs with
  | nil => exact absurd hb (by simp [Reassembler.alterFirst])
  | cons b' bufs ih =>
    simp only [Reassembler.alterFirst] at hb
    split at hb
    · rename_i hkey
      rcases mem_cons.mp hb with rfl | hb
      · exact .inr ⟨b',by simp,hkey,rfl⟩
      · exact .inl (mem_cons_of_mem _ hb)
    rcases mem_cons.mp hb with rfl | hb
    · exact .inl (by simp)
    · rcases ih hb with hb | ⟨b'',hb'',h⟩
      · exact .inl (mem_cons_of_mem _ hb)
      · exact .inr ⟨b'',mem_cons_of_mem _ hb'',h⟩

def Host6.Stuck (st : Host6) (d : Datagram6) : Prop :=
  ∀ b ∈ st.reasm6.bufs, b.key.src = .v6 d.src → b.key.dst = .v6 d.dst →
    Net.Stuck (readOffset d.ident) (readMore d.ident) b

theorem feed_stuck (key : FragKey) (data : List UInt8) {P : FragBuf → Prop}
    (hbufs : ∀ b ∈ r.bufs, P b) (now : Nat) (hfresh : P ⟨key,[],none,now⟩)
    (hadd : ∀ b, P b → b.key = key → P (b.add now off more data))
    (hnone : ∀ b, P b → b.key = key → b.tryComplete = none) :
    (r.feed now key off more data).2 = none ∧ ∀ b ∈ (r.feed now key off more data).1.bufs, P b := by
  unfold Reassembler.feed
  split
  · exact ⟨rfl,hbufs⟩
  split
  · exact ⟨rfl,hbufs⟩
  rename_i bufs hopened
  have hold : ∀ b ∈ bufs, P b := by
    unfold Reassembler.opened at hopened
    split at hopened
    · exact Option.some.inj hopened ▸ hbufs
    split at hopened
    · simp at hopened
    intro b hb
    rw [← Option.some.inj hopened,mem_append,mem_singleton] at hb
    rcases hb with hb | rfl
    · exact hbufs b hb
    · exact hfresh
  have hnew : ∀ b ∈ Reassembler.alterFirst key (FragBuf.add now off more data) bufs, P b := by
    intro b hb
    rcases mem_alterFirst hb with hb | ⟨b',hb',hkey,rfl⟩
    · exact hold b hb
    · exact hadd b' (hold b' hb') hkey
  have hstuck : (Reassembler.bufFor
      ⟨Reassembler.alterFirst key (FragBuf.add now off more data) bufs⟩ key).bind
      FragBuf.tryComplete = none := by
    cases hfor : Reassembler.bufFor
        ⟨Reassembler.alterFirst key (FragBuf.add now off more data) bufs⟩ key with
    | none => rfl
    | some b =>
      have hkey : b.key = key := by simpa using List.find?_some hfor
      exact hnone b (hnew b (mem_of_find?_eq_some hfor)) hkey
  simp only [hstuck]
  exact ⟨trivial,hnew⟩

theorem deliveries_stuck {st : Host6} {frags : List Fragment6} (hours : st.accepts d.dst = true)
    (hstuck : st.Stuck d) (hbad : readMore d.ident = true ∨ readOffset d.ident ≠ 0)
    (hfrom : ∀ e ∈ events, e.isRecv = false ∨ ∃ f ∈ frags, e.Carries d f) :
    st.deliveries events = [] := by
  induction events generalizing st with
  | nil => rfl
  | cons e events ih =>
    have hrest := fun e' he' => hfrom e' (mem_cons_of_mem e he')
    cases e with
    | tick now =>
      have hnext : Host6.deliveries { st with reasm6 := st.reasm6.onTick now } events = [] :=
        ih (by exact hours) (fun b hb => hstuck b (mem_of_mem_filter hb)) hrest
      simpa [Host6.deliveries,Host6.step] using hnext
    | recv now pkt =>
      obtain ⟨f,-,hcarries⟩ := (hfrom _ mem_cons_self).resolve_left nofun
      obtain ⟨id,now',hstep⟩ := step_carries hcarries hours
      obtain ⟨hout,hnext⟩ := feed_stuck
        ⟨.v6 d.src,.v6 d.dst,id,restFirst f.data⟩ f.data hstuck now' (fun _ _ => Stuck.fresh _ _)
        (fun b h hkey _ _ => (h (by rw [hkey]) (by rw [hkey])).add now' f.data)
        (fun b h hkey => (h (by rw [hkey]) (by rw [hkey])).incomplete hbad)
      rw [Host6.deliveries,hstep]
      simp only [hout,Option.map_none,Option.toList_none,nil_append]
      exact ih (by exact hours) hnext hrest

end Stuck

section Single
variable {d : Datagram6} {frags : List Fragment6}

theorem Fragmentation.alone (h : Fragmentation d frags) (hf : f ∈ frags)
    (hdata : f.data = d.payload) : frags.length = 1 := by
  rw [← length_map Fragment6.chunk]
  rcases h.cuts with hcuts | ⟨-,honly⟩
  · rw [hcuts.alone (mem_map_of_mem hf) hdata]
    rfl
  · rw [honly]
    rfl

theorem Fragmentation.data_eq (h : Fragmentation d frags) (hone : frags.length = 1)
    (hf : f ∈ frags) : f.data = d.payload := by
  obtain ⟨f',rfl⟩ := length_eq_one_iff.mp hone
  obtain rfl := mem_singleton.mp hf
  rcases h.cuts with hcuts | ⟨hnil,honly⟩
  · simpa [Fragment6.chunk] using hcuts.flatten
  · rw [hnil]
    exact congrArg Chunk.data (singleton_inj.mp honly)

end Single

/-- Whatever the fragments, their order and repetition: the datagram is delivered,
once and with its protocol, exactly if a single fragment brings all of it, arrives
once, has a first byte that happens to be the next header, and an identification
whose upper half reads as offset zero without M flag. -/
theorem datagram6_delivered_iff {st : Host6} {d : Datagram6} {frags : List Fragment6}
    (hcut : Fragmentation d frags) (hours : st.accepts d.dst = true) (hroom : st.Room d)
    {events : List Event} (hfrom : ∀ e ∈ events, e.isRecv = false ∨ ∃ f ∈ frags, e.Carries d f) :
    st.deliveries events = [d.delivery] ↔ frags.length = 1 ∧ (events.filter (·.isRecv)).length = 1 ∧
        d.payload.headD 59 = d.nextHeader ∧ d.ident.toNat/65536/8 = 0 ∧ d.ident.toNat/65536%2 = 0 := by
  by_cases hbad : readMore d.ident = true ∨ readOffset d.ident ≠ 0
  · rw [deliveries_stuck hours (fun b hb hsrc hdst => absurd hdst (hroom.foreign b hb hsrc)) hbad hfrom]
    simp only [readMore,readOffset,decide_eq_true_eq] at hbad
    constructor
    · nofun
    · rintro ⟨-,-,-,hoff,hmore⟩
      omega
  · rw [not_or,Bool.not_eq_true,Decidable.not_not] at hbad
    obtain ⟨hmore,hoff⟩ := hbad
    obtain ⟨fs,hfs,hlen,hmem⟩ := deliveries_whole hcut hours hroom hoff hmore hfrom
    simp only [readMore,readOffset,decide_eq_false_iff_not] at hmore hoff
    rw [hfs,← hlen]
    constructor
    · intro hsingle
      obtain ⟨f,rfl⟩ := length_eq_one_iff.mp (by simpa using congrArg List.length hsingle)
      have hf := hmem f mem_cons_self
      simp only [map_cons,map_nil,List.cons.injEq,and_true,Fragment6.delivery,
        Datagram6.delivery,Delivery6.mk.injEq,true_and] at hsingle
      obtain ⟨hproto,hdata⟩ := hsingle
      rw [hdata] at hproto
      exact ⟨hcut.alone hf hdata,rfl,hproto,by omega,by omega⟩
    · rintro ⟨hone,honce,hproto,-,-⟩
      obtain ⟨f,rfl⟩ := length_eq_one_iff.mp honce
      have hf := hmem f mem_cons_self
      have hdata := hcut.data_eq hone hf
      simp only [map_cons,map_nil,Fragment6.delivery,Datagram6.delivery,hdata]
      rw [restFirst,ipv6NoNext,hproto]

def ourLinkLocal : Ipv6Addr := ⟨[0xFE,0x80,0,0,0,0,0,0,0,0,0,0,0,0,0,1],rfl⟩

def peerLinkLocal : Ipv6Addr := ⟨[0xFE,0x80,0,0,0,0,0,0,0,0,0,0,0,0,0,2],rfl⟩

def freshHost6 : Host6 := ⟨ourLinkLocal,none,.new⟩

def luckyDatagram : Datagram6 := ⟨peerLinkLocal,ourLinkLocal,17,7,[17,0,0,53,0,9,0,0,42]⟩

def luckyArrival : List Event :=
  [.tick 1,.recv 5 ((Envelope.plain 64).packet peerLinkLocal ourLinkLocal ipv6ExtFragment
    (Fragment6.bytes 7 ⟨17,0,false,[17,0,0,53,0,9,0,0,42]⟩))]

theorem luckyDatagram_delivered : freshHost6.deliveries luckyArrival = [luckyDatagram.delivery] := by
  have hcut : Fragmentation luckyDatagram [⟨17,0,false,[17,0,0,53,0,9,0,0,42]⟩] := by
    refine ⟨.inl (.cut (by decide) (by decide) .done),by decide,?_,?_,?_,by decide⟩
    all_goals
      intro f hf
      obtain rfl := mem_singleton.mp hf
      decide
  have hroom : freshHost6.Room luckyDatagram :=
    ⟨fun b hb => absurd hb (by simp [freshHost6,Reassembler.new]),by decide,by decide⟩
  refine (datagram6_delivered_iff hcut (by decide) hroom ?_).mpr (by decide)
  intro e he
  simp only [luckyArrival,mem_cons,not_mem_nil,or_false] at he
  rcases he with rfl | rfl
  · exact .inl rfl
  · exact .inr ⟨_,mem_singleton.mpr rfl,Envelope.plain 64,5,by decide,rfl⟩

/-- Ten bytes for UDP in two fragments with the identification 7. Each fragment is
delivered as a datagram of its own, for the protocols 0 and 8. -/
theorem splitDatagram_misread : freshHost6.deliveries
      [.recv 5 ((Envelope.plain 64).packet peerLinkLocal ourLinkLocal ipv6ExtFragment
        (Fragment6.bytes 7 ⟨17,0,true,[0,1,2,3,4,5,6,7]⟩)),
       .recv 6 ((Envelope.plain 64).packet peerLinkLocal ourLinkLocal ipv6ExtFragment
        (Fragment6.bytes 7 ⟨17,8,false,[8,9]⟩))] =
    [⟨peerLinkLocal,ourLinkLocal,0,[0,1,2,3,4,5,6,7]⟩,⟨peerLinkLocal,ourLinkLocal,8,[8,9]⟩] := by
  decide +kernel

end PaghOS.Net
