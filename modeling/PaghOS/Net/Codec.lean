import PaghOS.Net.Ingress

/-!
UDP datagrams as `net/wire.rs` builds them, read back by its own parser.
-/

namespace PaghOS.Net.Ingress
open List Loop Window Option

/-- The sum of the big-endian words; an odd last byte is a high one. -/
def wordSum : List UInt8 → Nat
  | hi :: lo :: rest => ofBe16 hi lo+wordSum rest
  | [b] => 256*b.toNat
  | [] => 0

theorem sumOf_foldl_eq (bytes : List UInt8) (n : Nat) :
    sumOf (bytes.foldl checksumByte (n,none)) = n+wordSum bytes := by
  fun_induction wordSum bytes generalizing n with
  | case1 hi lo rest ih =>
    have hstep := ih (n+ofBe16 hi lo)
    simp only [foldl_cons,checksumByte] at hstep ⊢
    omega
  | case2 b => simp [sumOf,checksumByte]
  | case3 => simp [sumOf]

theorem wordSum_pos {bytes : List UInt8} {b : UInt8} (h : b ∈ bytes) (hb : b ≠ 0) : 0 < wordSum bytes := by
  have hb : b.toNat ≠ 0 := fun hz => hb (UInt8.toNat_inj.mp hz)
  fun_induction wordSum bytes with
  | case1 hi lo rest ih =>
    simp only [mem_cons] at h
    rcases h with rfl | rfl | h
    · simp only [ofBe16]; omega
    · simp only [ofBe16]; omega
    · have := ih h; omega
  | case2 c =>
    rw [← mem_singleton.mp h]
    omega
  | case3 => cases h

/-- Folding keeps the sum modulo 65535, with 65535 for zero. -/
theorem foldCarries_eq {s : Nat} (h : s < 4294967296) :
    foldCarries 2 s = if s = 0 then 0 else (s-1)%65535+1 := by
  simp only [foldCarries]
  repeat' split
  all_goals omega

theorem checksum_bytes {bytes : List UInt8} (h : bytes.length < 65792) (hpos : 0 < wordSum bytes) :
    checksum [bytes] = some (65534-(wordSum bytes-1)%65535) := by
  have hsum := sumOf_foldl_eq bytes 0
  have hle := sumOf_foldl bytes (0,none)
  rw [hsum] at hle
  simp only [sumOf,elim_none] at hsum hle
  rw [checksum_eq (by simpa using h)]
  simp only [Net.checksum,foldl_cons,foldl_nil,hsum]
  rw [foldCarries_eq (by omega),if_neg (by omega)]
  congr 1
  omega

theorem zeroedChecksum_append (pseudo front : List UInt8) (x y : UInt8) (rest : List UInt8) :
    zeroedChecksum pseudo (front ++ x :: y :: rest) front.length =
      checksum [pseudo ++ (front ++ 0 :: 0 :: rest)] := by
  unfold zeroedChecksum
  rw [poke_eq (by simp),set_append_right _ _ (by omega),Nat.add_sub_cancel_left,
    set_append_right _ _ (Nat.le_refl _),Nat.sub_self,set_cons_zero]
  simp only [bind_eq_bind,bind_some]
  rw [poke_eq (by simp; omega),Nat.add_assoc,set_append_right _ _ (by omega),Nat.add_sub_cancel_left,
    set_append_right _ _ (by omega),Nat.add_sub_cancel_left,set_cons_succ,set_cons_zero]
  rfl

theorem pseudoHeader_some {src dst : IpAddr} (hfamily : src.isV6 = dst.isV6) (proto : UInt8) (len : Nat) :
    ∃ pseudo, pseudoHeader src dst proto len = some pseudo ∧ proto ∈ pseudo ∧ pseudo.length ≤ 40 := by
  cases src with
  | v4 s =>
    cases dst with
    | v4 d => exact ⟨_,rfl,by simp,by simp [Ipv4Addr.octets,be16]⟩
    | v6 d => cases hfamily
  | v6 s =>
    cases dst with
    | v4 d => cases hfamily
    | v6 d => exact ⟨_,rfl,by simp,by simp [s.size,d.size,be16,be32]⟩

def udpBuild (src dst : IpAddr) (srcPort dstPort : UInt16) (payload : List UInt8) : Option (List UInt8) := do
  let udpLen := (udpHdrLen+payload.length)%65536
  let p := be16 srcPort.toNat ++ be16 dstPort.toNat ++ be16 udpLen ++ [0,0] ++ payload
  let csum ← checksum [(pseudoHeader src dst protoUdp udpLen).getD [] ++ p]
  let csum := if csum = 0 then 0xFFFF else csum
  let p ← poke p 6 (UInt8.ofNat (csum/256))
  poke p 7 (UInt8.ofNat csum)

/-- What the checksum covers: the pseudo-header and the datagram, its own field zero. -/
def udpCovered (src dst : IpAddr) (srcPort dstPort : UInt16) (payload : List UInt8) : List UInt8 :=
  (pseudoHeader src dst protoUdp (udpHdrLen+payload.length)).getD [] ++
    (be16 srcPort.toNat ++ be16 dstPort.toNat ++ be16 (udpHdrLen+payload.length) ++ [0,0] ++ payload)

theorem udpParse_dgram {src dst : IpAddr} {pseudo payload : List UInt8}
    (hlen : udpHdrLen+payload.length < 65536)
    (hpseudo : pseudoHeader src dst protoUdp (udpHdrLen+payload.length) = some pseudo) {sp dp : Nat}
    (hsp : sp < 65536) (hdp : dp < 65536) {stored : Nat} (hpos : stored ≠ 0) (hstored : stored < 65536) :
    udpParse src dst (be16 sp ++ be16 dp ++ be16 (udpHdrLen+payload.length) ++ be16 stored ++ payload) =
      checksum [pseudo ++ (be16 sp ++ be16 dp ++ be16 (udpHdrLen+payload.length) ++ [0,0] ++ payload)] >>=
        fun sum => if sum ≠ stored then some none else some (some (sp,dp,payload)) := by
  let front := be16 sp ++ be16 dp ++ be16 (udpHdrLen+payload.length)
  have hzero := zeroedChecksum_append pseudo front (UInt8.ofNat (stored/256)) (UInt8.ofNat stored) payload
  generalize hd : front ++ be16 stored ++ payload = dgram
  have hsize : dgram.length = udpHdrLen+payload.length := by simp [← hd,front,be16,udpHdrLen]; omega
  have hread : be16At dgram 0 = some sp ∧ be16At dgram 2 = some dp ∧
      be16At dgram 4 = some (udpHdrLen+payload.length) ∧ be16At dgram 6 = some stored := by
    subst hd
    exact ⟨congrArg some (ofBe16_be16 hsp),congrArg some (ofBe16_be16 hdp),congrArg some (ofBe16_be16 hlen),
      congrArg some (ofBe16_be16 hstored)⟩
  have hcut : cut dgram udpHdrLen (udpHdrLen+payload.length) = some payload := by
    rw [cut_eq (Nat.le_add_right _ _) (Nat.le_of_eq hsize.symm)]
    simp [← hd,front,be16,udpHdrLen]
  have hall : cut dgram 0 (udpHdrLen+payload.length) = some dgram := by
    rw [cut_eq (Nat.zero_le _) (Nat.le_of_eq hsize.symm)]
    simp [← hsize]
  have hsum : zeroedChecksum pseudo dgram 6 = checksum [pseudo ++ (front ++ [0,0] ++ payload)] := by
    subst hd
    simpa [front,be16] using hzero
  obtain ⟨h₀,h₂,h₄,h₆⟩ := hread
  unfold udpParse
  rw [if_neg (by omega)]
  simp only [h₀,h₂,h₄,h₆,hcut,hall,hsum,hpseudo,bind_eq_bind,bind_some]
  rw [if_neg (by omega),if_pos (.inl hpos)]

theorem udp_round_trip_iff {src dst : IpAddr} (hfamily : src.isV6 = dst.isV6) (srcPort dstPort : UInt16)
    {payload : List UInt8} (hlen : payload.length ≤ 65527) :
    (udpBuild src dst srcPort dstPort payload >>= udpParse src dst) =
        some (some (srcPort.toNat,dstPort.toNat,payload)) ↔
      ¬ 65535 ∣ wordSum (udpCovered src dst srcPort dstPort payload) := by
  obtain ⟨pseudo,hpseudo,hin,hshort⟩ := pseudoHeader_some hfamily protoUdp (udpHdrLen+payload.length)
  have hsize : udpHdrLen+payload.length < 65536 := by simp only [udpHdrLen]; omega
  unfold udpBuild udpCovered
  simp only [Nat.mod_eq_of_lt hsize,hpseudo,getD_some]
  have hpos := wordSum_pos (mem_append_left (be16 srcPort.toNat ++ be16 dstPort.toNat ++
    be16 (udpHdrLen+payload.length) ++ [0,0] ++ payload) hin) (by decide)
  have hsum := checksum_bytes (by simp [be16]; omega) hpos
  have hparse := @udpParse_dgram _ _ _ _ hsize hpseudo _ _ srcPort.toNat_lt dstPort.toNat_lt
  generalize hf : be16 srcPort.toNat ++ be16 dstPort.toNat ++ be16 (udpHdrLen+payload.length) = front
    at hpos hsum hparse ⊢
  generalize pseudo ++ (front ++ [0,0] ++ payload) = bytes at hpos hsum hparse ⊢
  have hwrite : ∀ csum : Nat, (do
      let p ← poke (front ++ [0,0] ++ payload) 6 (UInt8.ofNat (csum/256))
      poke p 7 (UInt8.ofNat csum)) = some (front ++ be16 csum ++ payload) := by
    intro csum
    simp [← hf,poke,be16]
  simp only [hsum,bind_eq_bind,bind_some] at hwrite hparse ⊢
  rw [hwrite,bind_some]
  by_cases hzero : 65534-(wordSum bytes-1)%65535 = 0
  · rw [if_pos hzero,hparse (by decide) (by decide),if_pos (by omega)]
    refine iff_of_false (by simp) (not_not.mpr ?_)
    omega
  · rw [if_neg hzero,hparse hzero (by omega),if_neg (by simp)]
    refine iff_of_true rfl ?_
    omega

def queryClient : IpAddr := .v4 ⟨10,0,2,15⟩
def queryServer : IpAddr := .v4 ⟨10,0,2,2⟩

theorem udp_round_trip_query :
    (udpBuild queryClient queryServer 1024 53 [1,2,3] >>= udpParse queryClient queryServer) =
      some (some (UInt16.toNat 1024,UInt16.toNat 53,[1,2,3])) :=
  (@udp_round_trip_iff queryClient queryServer rfl 1024 53 [1,2,3] (by decide)).mpr (by decide +kernel)

theorem udp_refuses_own :
    (udpBuild queryClient queryServer 1024 53 [227,148] >>= udpParse queryClient queryServer) =
      some none := by
  decide +kernel

end PaghOS.Net.Ingress
