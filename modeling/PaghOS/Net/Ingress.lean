import PaghOS.Lib.Window
import PaghOS.Net.Neighbours

/-!
The parsers of packets from the network (`net/wire.rs`), with every index and
every slice as the code takes it. `none` is a panic, or a loop that has not
ended after as many rounds as it is given; `some none` is a packet refused.
-/

namespace PaghOS.Net.Ingress
open Loop Window Option
open List hiding iterate

/-! ### Reads -/

variable {seg p : List UInt8} {i off : Nat}

def be16At (p : List UInt8) (i : Nat) : Option Nat := do
  some (ofBe16 (← p[i]?) (← p[i+1]?))

def be32At (p : List UInt8) (i : Nat) : Option Nat := do
  let hi ← be16At p i
  let lo ← be16At p (i+2)
  some (65536*hi+lo)

def be32 (n : Nat) : List UInt8 := be16 (n/65536) ++ be16 n

def foldCarry (sum : Nat) : Nat ⊕ Nat :=
  if sum/65536 ≠ 0 then .inl (sum%65536+sum/65536) else .inr sum

def checksum (parts : List (List UInt8)) : Option Nat := do
  let s := parts.foldl (fun s part => part.foldl checksumByte s) (0,none)
  let sum ← iterate foldCarry 3 ((s.1+s.2.elim 0 (fun b => 256*b.toNat))%4294967296)
  some (65535-sum)

def checksumValid (header : List UInt8) (cksumOff : Nat) : Option Bool :=
  if cksumOff+2 > header.length then some false
  else do
    let a ← cut header 0 cksumOff
    let b ← cut header (cksumOff+2) header.length
    let sum ← checksum [a,b]
    let stored ← be16At header cksumOff
    some (sum = stored)

theorem be16At_eq (h : i+1 < p.length) : be16At p i = some (ofBe16 (p.getD i 0) (p.getD (i+1) 0)) := by
  rw [be16At,at_eq (show i < p.length by omega),at_eq h]
  rfl

theorem be32At_eq (h : i+3 < p.length) : be32At p i = some (65536*ofBe16 (p.getD i 0) (p.getD (i+1) 0)+
      ofBe16 (p.getD (i+2) 0) (p.getD (i+2+1) 0)) := by
  rw [be32At,be16At_eq (by omega),be16At_eq (by omega)]
  rfl

theorem iterate_foldCarry {sum : Nat} (h : sum < 4294967296) :
    iterate foldCarry 3 sum = some (foldCarries 2 sum) := by
  have hround : ∀ s, s/65536 ≠ 0 → foldCarry s = .inl (s%65536+s/65536) := fun s h => if_pos h
  have hstop : ∀ s, s/65536 = 0 → foldCarry s = .inr s := fun s h => if_neg (not_not.mpr h)
  by_cases h₁ : sum/65536 = 0
  · simp only [iterate,hstop _ h₁,foldCarries,if_pos h₁]
  by_cases h₂ : (sum%65536+sum/65536)/65536 = 0
  · simp only [iterate,hround _ h₁,hstop _ h₂,foldCarries,if_neg h₁,if_pos h₂]
  · have h₃ : ((sum%65536+sum/65536)%65536+(sum%65536+sum/65536)/65536)/65536 = 0 := by omega
    simp only [iterate,hround _ h₁,hround _ h₂,hstop _ h₃,foldCarries,if_neg h₁,if_neg h₂]

def sumOf (s : Nat × Option UInt8) : Nat := s.1+s.2.elim 0 (fun b => 256*b.toNat)

theorem sumOf_checksumByte (s : Nat × Option UInt8) (b : UInt8) :
    sumOf (checksumByte s b) ≤ sumOf s+65280 := by
  have hb := b.toNat_lt
  obtain ⟨n,o⟩ := s
  cases o <;> simp only [sumOf,checksumByte,ofBe16,elim_none,elim_some] <;> omega

theorem sumOf_foldl (part : List UInt8) (s : Nat × Option UInt8) :
    sumOf (part.foldl checksumByte s) ≤ sumOf s+65280*part.length := by
  induction part generalizing s with
  | nil => simp
  | cons b part ih =>
    have h₁ := sumOf_checksumByte s b
    have h₂ := ih (checksumByte s b)
    simp only [foldl_cons,length_cons]
    omega

theorem sumOf_parts (parts : List (List UInt8)) (s : Nat × Option UInt8) :
    sumOf (parts.foldl (fun s part => part.foldl checksumByte s) s) ≤ sumOf s+65280*parts.flatten.length := by
  induction parts generalizing s with
  | nil => simp
  | cons part parts ih =>
    have h₁ := sumOf_foldl part s
    have h₂ := ih (part.foldl checksumByte s)
    simp only [foldl_cons,flatten_cons,length_append]
    omega

theorem checksum_returns (parts : List (List UInt8)) : Returns (checksum parts) (· < 65536) := by
  unfold checksum
  dsimp only
  rw [iterate_foldCarry (Nat.mod_lt _ (by decide))]
  exact .pure (by omega)

theorem checksum_eq {parts : List (List UInt8)} (h : parts.flatten.length < 65792) :
    checksum parts = some (Net.checksum parts) := by
  have hsum := sumOf_parts parts (0,none)
  unfold checksum Net.checksum
  dsimp only
  rw [iterate_foldCarry (Nat.mod_lt _ (by decide)),Nat.mod_eq_of_lt (by
    simp only [sumOf,elim_none] at hsum
    omega)]
  rfl

theorem checksumValid_eq {header : List UInt8} (h : header.length < 65792) :
    checksumValid header off = some (Net.checksumValid header off) := by
  unfold checksumValid Net.checksumValid
  by_cases hoff : off+2 > header.length
  · rw [if_pos hoff,if_pos hoff]
  rw [if_neg hoff,if_neg hoff,cut_eq (by omega) (by omega),cut_eq (by omega) (by omega)]
  simp only [bind_eq_bind,bind_some,drop_zero,Nat.sub_zero]
  rw [checksum_eq (by simp; omega),be16At_eq (by omega),
    take_of_length_le (show (header.drop (off+2)).length ≤ header.length-(off+2) by simp)]
  rfl

/-! ### IP -/

def ipv4Parse (p : List UInt8) : Option (Option (Ipv4Header × List UInt8)) :=
  if p.length < ipv4HdrMin then some none
  else do
    let first ← p[0]?
    if first.toNat/16 ≠ 4 then some none
    else
      let ihl := first.toNat%16*4
      if ihl < ipv4HdrMin ∨ p.length < ihl then some none
      else
        let ok ← checksumValid (← cut p 0 ihl) 10
        if ¬ ok then some none
        else
          let totalLen ← be16At p 2
          if totalLen < ihl ∨ totalLen > p.length then some none
          else
            let src := ⟨← p[12]?,← p[13]?,← p[14]?,← p[15]?⟩
            let dst := ⟨← p[16]?,← p[17]?,← p[18]?,← p[19]?⟩
            let proto ← p[9]?
            let ttl ← p[8]?
            let ident ← be16At p 4
            let flagsFrag ← be16At p 6
            let payload ← cut p ihl totalLen
            some (some (⟨src,dst,proto,ttl,ident,flagsFrag,ihl,totalLen⟩,payload))

/-- One round of the loop over extension headers, at most nine of which begin.
The state is the next header, its offset and the headers skipped. -/
def skipRound (pkt : List UInt8) (stop : Nat) (s : UInt8 × Nat × Nat) :
    (UInt8 × Nat × Nat) ⊕ Option (Option (UInt8 × Nat)) :=
  let (nh,off,hops) := s
  if isExtension nh then
    if off+2 > stop ∨ off+2 > pkt.length then .inr (some none)
    else
      match pkt[off+1]?, pkt[off]? with
      | some units, some next =>
        let extLen := (units.toNat+1)*8
        if off+extLen > stop then .inr (some none)
        else if hops+1 > 8 then .inr (some none)
        else .inl (next,off+extLen,hops+1)
      | _, _ => .inr none
  else .inr (some (some (nh,off)))

def ipv6Parse (pkt : List UInt8) : Option (Option (Ipv6Header × List UInt8)) :=
  if pkt.length < ipv6HdrLen then some none
  else do
    let first ← pkt[0]?
    if first.toNat/16 ≠ 6 then some none
    else
      let payloadLen ← be16At pkt 4
      if pkt.length < ipv6HdrLen+payloadLen then some none
      else
        let stop := ipv6HdrLen+payloadLen
        let nh ← pkt[6]?
        let hopLimit ← pkt[7]?
        match Ipv6Addr.ofSlice (← cut pkt 8 24), Ipv6Addr.ofSlice (← cut pkt 24 40) with
        | some src, some dst =>
          let skipped ← (← iterate (skipRound pkt stop) 10 (nh,ipv6HdrLen,0))
          match skipped with
          | none => some none
          | some (proto,off) =>
            let payload ← cut pkt off stop
            some (some (⟨src,dst,proto,hopLimit,off⟩,payload))
        | _, _ => some none

theorem some_bind {α β : Type} (a : α) (f : α → Option β) : (some a >>= f) = f a := rfl

theorem ipv4Parse_eq (p : List UInt8) : ipv4Parse p = some (Net.ipv4Parse p) := by
  unfold ipv4Parse Net.ipv4Parse
  by_cases hlen : p.length < ipv4HdrMin
  · rw [if_pos hlen]
    simp [if_pos hlen]
  have hmin : 20 ≤ p.length := Nat.not_lt.mp hlen
  have hat : ∀ i, i < 20 → p[i]? = some (p.getD i 0) := fun i hi => at_eq (by omega)
  rw [if_neg hlen,hat 0 (by decide),some_bind]
  dsimp only
  rw [if_neg hlen]
  by_cases hversion : (p.getD 0 0).toNat/16 ≠ 4
  · rw [if_pos hversion,if_pos hversion]
  rw [if_neg hversion,if_neg hversion]
  by_cases hihl : (p.getD 0 0).toNat%16*4 < ipv4HdrMin ∨ p.length < (p.getD 0 0).toNat%16*4
  · rw [if_pos hihl,if_pos hihl]
  rw [if_neg hihl,if_neg hihl]
  simp only [not_or,Nat.not_lt] at hihl
  rw [cut_eq (Nat.zero_le _) hihl.2,some_bind,checksumValid_eq (by
    rw [length_take]
    omega),some_bind,drop_zero,Nat.sub_zero]
  split
  · rfl
  rw [be16At_eq (by omega),some_bind]
  split
  · rfl
  rename_i htotal
  simp only [not_or,Nat.not_lt] at htotal
  rw [cut_eq htotal.1 htotal.2]
  simp (disch := omega) only [hat,be16At_eq,some_bind]

theorem ipv4Parse_inside (p : List UInt8) :
    Returns (ipv4Parse p) (fun r => ∀ hdr payload, r = some (hdr,payload) →
      Inside p hdr.hdrLen (ofBe16 (p.getD 2 0) (p.getD 3 0)) payload) := by
  rw [ipv4Parse_eq]
  refine .pure ?_
  intro hdr payload h
  unfold Net.ipv4Parse at h
  simp only at h
  repeat' split at h
  all_goals cases h
  rename_i htotal
  simp only [not_or,Nat.not_lt] at htotal
  exact ⟨htotal.1,htotal.2,rfl⟩

theorem skipRound_eq (pkt : List UInt8) (stop : Nat) (nh : UInt8) (off hops : Nat) :
    skipRound pkt stop (nh,off,hops) = if isExtension nh then
        if off+2 > stop ∨ off+2 > pkt.length then .inr (some none)
        else if off+((pkt.getD (off+1) 0).toNat+1)*8 > stop then .inr (some none)
        else if hops+1 > 8 then .inr (some none)
        else .inl (pkt.getD off 0,off+((pkt.getD (off+1) 0).toNat+1)*8,hops+1)
      else .inr (some (some (nh,off))) := by
  simp only [skipRound]
  split
  · split
    · rfl
    · rw [at_eq (show off+1 < pkt.length by omega),at_eq (show off < pkt.length by omega)]
  · rfl

theorem iterate_skipRound (pkt : List UInt8) (stop : Nat) {left : Nat} (hleft : left ≤ 8)
    (nh : UInt8) (off : Nat) : iterate (skipRound pkt stop) (left+2) (nh,off,8-left) =
      some (some (skipExtensions pkt stop left nh off)) := by
  induction left generalizing nh off with
  | zero =>
    simp only [iterate,skipRound_eq,skipExtensions]
    repeat' split
    all_goals simp_all
  | succ left ih =>
    rw [iterate,skipRound_eq,skipExtensions,if_neg (show ¬ 8-(left+1)+1 > 8 by omega),
      show 8-(left+1)+1 = 8-left by omega]
    by_cases hext : isExtension nh = true
    · by_cases hoff : off+2 > stop ∨ off+2 > pkt.length
      · simp [hext,if_pos hoff]
      by_cases hend : off+((pkt.getD (off+1) 0).toNat+1)*8 > stop
      · simp only [hext,if_true,if_neg hoff,if_pos hend]
      · simp only [hext,if_true,if_neg hoff,if_neg hend]
        exact ih (by omega) _ _
    · simp only [hext]
      rfl

theorem skipExtensions_le {pkt : List UInt8} {stop left off' : Nat} {nh nh' : UInt8}
    (hoff : off ≤ stop) (h : skipExtensions pkt stop left nh off = some (nh',off')) : off' ≤ stop := by
  induction left generalizing nh off with
  | zero =>
    simp only [skipExtensions] at h
    split at h
    · cases h
    · cases h
      exact hoff
  | succ left ih =>
    simp only [skipExtensions] at h
    split at h
    · split at h
      · cases h
      · split at h
        · cases h
        · exact ih (by omega) h
    · cases h
      exact hoff

theorem ipv6Parse_eq (pkt : List UInt8) : ipv6Parse pkt = some (Net.ipv6Parse pkt) := by
  unfold ipv6Parse Net.ipv6Parse
  by_cases hlen : pkt.length < ipv6HdrLen
  · simp [hlen]
  have hmin : 40 ≤ pkt.length := Nat.not_lt.mp hlen
  have hat : ∀ i, i < 40 → pkt[i]? = some (pkt.getD i 0) := fun i hi => at_eq (by omega)
  rw [if_neg hlen]
  simp only [hlen,false_or,hat 0 (by decide),bind_eq_bind,bind_some]
  split
  · rfl
  rw [be16At_eq (by omega),bind_some]
  split
  · rfl
  rename_i hend
  simp (disch := omega) only [hat,cut_eq,bind_some]
  cases Ipv6Addr.ofSlice ((pkt.drop 8).take (24-8)) with
  | none => rfl
  | some src =>
    cases Ipv6Addr.ofSlice ((pkt.drop 24).take (40-24)) with
    | none => rfl
    | some dst =>
      have hskip := iterate_skipRound pkt
        (ipv6HdrLen+ofBe16 (pkt.getD 4 0) (pkt.getD (4+1) 0)) (Nat.le_refl 8) (pkt.getD 6 0)
        ipv6HdrLen
      simp only [Nat.sub_self] at hskip
      simp only [hskip,bind_some]
      cases hs : skipExtensions pkt (ipv6HdrLen+ofBe16 (pkt.getD 4 0) (pkt.getD (4+1) 0)) 8
          (pkt.getD 6 0) ipv6HdrLen with
      | none => rfl
      | some r =>
        have hle := skipExtensions_le (by omega) hs
        simp only [bind_some]
        rw [cut_eq hle (by omega)]
        rfl

theorem ipv6Parse_inside (pkt : List UInt8) :
    Returns (ipv6Parse pkt) (fun r => ∀ hdr payload, r = some (hdr,payload) →
      Inside pkt hdr.payloadOff (ipv6HdrLen+ofBe16 (pkt.getD 4 0) (pkt.getD 5 0)) payload) := by
  rw [ipv6Parse_eq]
  refine .pure ?_
  intro hdr payload h
  unfold Net.ipv6Parse at h
  simp only at h
  split at h
  · cases h
  split at h
  · cases h
  rename_i hend
  simp only [bind_eq_bind,bind_eq_some_iff] at h
  obtain ⟨src,-,dst,-,⟨nh,off⟩,hs,h⟩ := h
  cases h
  exact ⟨skipExtensions_le (by omega) hs,Nat.not_lt.mp hend,rfl⟩

def ipv6FragmentParse (payload : List UInt8) : Option (Option (Nat × Nat × Bool × List UInt8)) :=
  if payload.length < 8 then some none
  else do
    let ident ← be32At payload 0
    let word ← be16At payload 4
    let data ← cut payload 8 payload.length
    some (some (ident,word/8*8,decide (word%2 ≠ 0),data))

theorem ipv6FragmentParse_eq (payload : List UInt8) :
    ipv6FragmentParse payload = some (Net.ipv6FragmentParse payload) := by
  unfold ipv6FragmentParse Net.ipv6FragmentParse
  dsimp only
  split
  · rfl
  rw [be32At_eq (by omega),be16At_eq (by omega),cut_eq (by omega) (by omega),
    take_of_length_le (show (payload.drop 8).length ≤ payload.length-8 by simp)]
  rfl

theorem ipv6FragmentParse_inside (payload : List UInt8) :
    Returns (ipv6FragmentParse payload) (fun r => ∀ ident off more data,
      r = some (ident,off,more,data) → Inside payload 8 payload.length data) := by
  rw [ipv6FragmentParse_eq]
  refine .pure ?_
  intro ident off more data h
  unfold Net.ipv6FragmentParse at h
  dsimp only at h
  split at h
  · cases h
  · cases h
    exact ⟨by omega,Nat.le_refl _,(take_of_length_le (by simp)).symm⟩

/-! ### UDP and TCP -/

/-- The pseudo-header of a datagram; there is none between the two families. -/
def pseudoHeader (src dst : IpAddr) (proto : UInt8) (len : Nat) : Option (List UInt8) :=
  match src, dst with
  | .v4 s, .v4 d => some (s.octets ++ d.octets ++ [0,proto] ++ be16 len)
  | .v6 s, .v6 d => some (s.octets ++ d.octets ++ be32 len ++ [0,0,0,proto])
  | _, _ => none

/-- The checksum behind a pseudo-header, with the field at `off` as zero. -/
def zeroedChecksum (pseudo body : List UInt8) (off : Nat) : Option Nat := do
  let buf ← poke (pseudo ++ body) (pseudo.length+off) 0
  let buf ← poke buf (pseudo.length+off+1) 0
  checksum [buf]

def protoTcp : UInt8 := 6
def protoUdp : UInt8 := 17
def udpHdrLen : Nat := 8
def tcpHdrMin : Nat := 20

def udpParse (srcIp dstIp : IpAddr) (dgram : List UInt8) : Option (Option (Nat × Nat × List UInt8)) :=
  if dgram.length < udpHdrLen then some none
  else do
    let sp ← be16At dgram 0
    let dp ← be16At dgram 2
    let len ← be16At dgram 4
    if len < udpHdrLen ∨ len > dgram.length then some none
    else
      let stored ← be16At dgram 6
      let payload := do
        let payload ← cut dgram udpHdrLen len
        some (some (sp,dp,payload))
      if stored ≠ 0 ∨ srcIp.isV6 then
        match pseudoHeader srcIp dstIp protoUdp len with
        | none => some none
        | some pseudo =>
          let sum ← zeroedChecksum pseudo (← cut dgram 0 len) 6
          if sum ≠ stored then some none else payload
      else payload

structure TcpHeader where
  srcPort : Nat
  dstPort : Nat
  seq : Nat
  ack : Nat
  flags : UInt8
  window : Nat
  hdrLen : Nat
  mss : Option Nat
  wscale : Option UInt8
  sackPermitted : Bool
  sackBlocks : List (Nat × Nat)
  deriving DecidableEq

/-- `while j + 8 <= stop` of the SACK option, while there are fewer than four blocks. -/
def sackRound (seg : List UInt8) (stop : Nat) (s : Nat × List (Nat × Nat)) :
    (Nat × List (Nat × Nat)) ⊕ Option (List (Nat × Nat)) :=
  let (j,blocks) := s
  if j+8 ≤ stop ∧ blocks.length < 4 then
    match be32At seg j, be32At seg (j+4) with
    | some left, some right => .inl (j+8,blocks ++ [(left,right)])
    | _, _ => .inr none
  else .inr (some blocks)

def tcpOption (seg : List UInt8) (i : Nat) (n : UInt8) (len : Nat) (hdr : TcpHeader) :
    Option TcpHeader :=
  if n = 2 ∧ len = 4 then do
    let mss ← be16At seg (i+2)
    some { hdr with mss := some mss }
  else if n = 3 ∧ len = 3 then do
    let scale ← seg[i+2]?
    some { hdr with wscale := some scale }
  else if n = 4 ∧ len = 2 then some { hdr with sackPermitted := true }
  else if n = 5 ∧ len ≥ 10 then do
    let blocks ← (← iterate (sackRound seg (i+len)) 5 (i+2,hdr.sackBlocks))
    some { hdr with sackBlocks := blocks }
  else some hdr

def tcpRound (seg : List UInt8) (dataOff : Nat) (s : Nat × TcpHeader) :
    (Nat × TcpHeader) ⊕ Option TcpHeader :=
  let (i,hdr) := s
  if i < dataOff then
    match seg[i]? with
    | none => .inr none
    | some kind =>
      if kind = 0 then .inr (some hdr)
      else if kind = 1 then .inl (i+1,hdr)
      else if i+1 ≥ dataOff then .inr (some hdr)
      else
        match seg[i+1]? with
        | none => .inr none
        | some units =>
          let len := units.toNat
          if len < 2 ∨ i+len > dataOff then .inr (some hdr)
          else
            match tcpOption seg i kind len hdr with
            | none => .inr none
            | some hdr => .inl (i+len,hdr)
  else .inr (some hdr)

def tcpParse (srcIp dstIp : IpAddr) (seg : List UInt8) : Option (Option (TcpHeader × List UInt8)) :=
  if seg.length < tcpHdrMin then some none
  else do
    let dataOff := (← seg[12]?).toNat/16*4
    if dataOff < tcpHdrMin ∨ seg.length < dataOff then some none
    else
      let hdr : TcpHeader := ⟨← be16At seg 0,← be16At seg 2,← be32At seg 4,← be32At seg 8,← seg[13]?,
        ← be16At seg 14,dataOff,none,none,false,[]⟩
      let hdr ← (← iterate (tcpRound seg dataOff) (dataOff+1) (tcpHdrMin,hdr))
      let stored ← be16At seg 16
      match pseudoHeader srcIp dstIp protoTcp seg.length with
      | none => some none
      | some pseudo =>
        let sum ← zeroedChecksum pseudo seg 16
        if sum ≠ stored then some none
        else
          let payload ← cut seg dataOff seg.length
          some (some (hdr,payload))

theorem zeroedChecksum_returns {pseudo body : List UInt8} (h : off+1 < body.length) :
    Returns (zeroedChecksum pseudo body off) (fun _ => True) := by
  unfold zeroedChecksum
  rw [poke_eq (by rw [length_append]; omega)]
  simp only [bind_eq_bind,bind_some]
  rw [poke_eq (by rw [length_set,length_append]; omega)]
  exact (checksum_returns _).mono fun _ _ => trivial

theorem udpParse_inside (srcIp dstIp : IpAddr) (dgram : List UInt8) :
    Returns (udpParse srcIp dstIp dgram) (fun r => ∀ sp dp body, r = some (sp,dp,body) →
      Inside dgram udpHdrLen (ofBe16 (dgram.getD 4 0) (dgram.getD 5 0)) body) := by
  unfold udpParse
  by_cases hlen : dgram.length < udpHdrLen
  · rw [if_pos hlen]
    exact .pure (by simp)
  have hmin : 8 ≤ dgram.length := Nat.not_lt.mp hlen
  rw [if_neg hlen]
  simp (disch := omega) only [be16At_eq,bind_eq_bind,bind_some]
  split
  · exact .pure (by simp)
  rename_i hin
  simp only [not_or,Nat.not_lt] at hin
  rw [cut_eq hin.1 hin.2,cut_eq (Nat.zero_le _) hin.2]
  simp only [bind_some]
  have hbody : Returns (some (some (ofBe16 (dgram.getD 0 0) (dgram.getD (0+1) 0),
      ofBe16 (dgram.getD 2 0) (dgram.getD (2+1) 0),
      (dgram.drop udpHdrLen).take (ofBe16 (dgram.getD 4 0) (dgram.getD (4+1) 0)-udpHdrLen))))
      (fun r => ∀ sp dp body, r = some (sp,dp,body) →
        Inside dgram udpHdrLen (ofBe16 (dgram.getD 4 0) (dgram.getD 5 0)) body) := by
    refine .pure ?_
    intro sp dp body h
    cases h
    exact ⟨hin.1,hin.2,rfl⟩
  split
  · split
    · exact .pure (by simp)
    refine Returns.bind (zeroedChecksum_returns ?_) ?_
    · have : udpHdrLen = 8 := rfl
      simp only [drop_zero,Nat.sub_zero,length_take]
      omega
    intro sum _
    split
    · exact .pure (by simp)
    · exact hbody
  · exact hbody

theorem sackBlocks_return {stop : Nat} (hstop : stop ≤ seg.length) (j : Nat)
    (blocks : List (Nat × Nat)) :
    Returns (iterate (sackRound seg stop) 5 (j,blocks)) (fun b => b.isSome = true) := by
  refine iterate_returns (I := fun _ => True) (fun s => 4-s.2.length) ?_ trivial (by omega)
  rintro ⟨j,blocks⟩ -
  by_cases h : j+8 ≤ stop ∧ blocks.length < 4
  · rw [sackRound,if_pos h,be32At_eq (by omega),be32At_eq (by omega)]
    refine .inl ⟨_,rfl,trivial,?_⟩
    simp only [length_append,length_cons,length_nil]
    omega
  · exact .inr ⟨_,if_neg h,rfl⟩

theorem tcpOption_returns {len : Nat} (n : UInt8) (hdr : TcpHeader)
    (hend : i+len ≤ seg.length) : Returns (tcpOption seg i n len hdr) (fun h => h.hdrLen = hdr.hdrLen) := by
  unfold tcpOption
  split
  · rw [be16At_eq (by omega)]
    exact .pure rfl
  split
  · rw [at_eq (by omega)]
    exact .pure rfl
  split
  · exact .pure rfl
  split
  · refine Returns.bind (sackBlocks_return hend (i+2) hdr.sackBlocks) ?_
    intro blocks hblocks
    obtain ⟨bs,rfl⟩ := isSome_iff_exists.mp hblocks
    exact .pure rfl
  · exact .pure rfl

theorem tcpRound_cases {dataOff : Nat} (hoff : dataOff ≤ seg.length) (i : Nat)
    (hdr : TcpHeader) : (∃ i' hdr', tcpRound seg dataOff (i,hdr) = .inl (i',hdr') ∧ i < dataOff ∧ i < i' ∧
        hdr'.hdrLen = hdr.hdrLen) ∨ tcpRound seg dataOff (i,hdr) = .inr (some hdr) := by
  unfold tcpRound
  by_cases hi : i < dataOff
  · simp only [if_pos hi]
    rw [at_eq (show i < seg.length by omega)]
    dsimp only
    split
    · exact .inr rfl
    split
    · exact .inl ⟨i+1,hdr,rfl,hi,by omega,rfl⟩
    split
    · exact .inr rfl
    rw [at_eq (show i+1 < seg.length by omega)]
    dsimp only
    split
    · exact .inr rfl
    rename_i hlen
    obtain ⟨hdr',ho,hsame⟩ := @tcpOption_returns seg i
      (seg.getD (i+1) 0).toNat (seg.getD i 0) hdr (by omega)
    rw [ho]
    exact .inl ⟨_,hdr',rfl,hi,by omega,hsame⟩
  · exact .inr (if_neg hi)

theorem tcpOptions_return {dataOff : Nat} (hoff : dataOff ≤ seg.length) (hdr : TcpHeader) :
    Returns (iterate (tcpRound seg dataOff) (dataOff+1) (tcpHdrMin,hdr))
      (fun b => Returns b (fun h => h.hdrLen = hdr.hdrLen)) := by
  refine iterate_returns (I := fun s => s.2.hdrLen = hdr.hdrLen) (fun s => dataOff-s.1) ?_ rfl
    (by simp only; omega)
  rintro ⟨i,h⟩ hsame
  rcases tcpRound_cases hoff i h with ⟨i',h',hr,hi,hlt,hsame'⟩ | hr
  · exact .inl ⟨_,hr,hsame'.trans hsame,by simp only; omega⟩
  · exact .inr ⟨_,hr,.pure hsame⟩

theorem tcpParse_inside (srcIp dstIp : IpAddr) (seg : List UInt8) :
    Returns (tcpParse srcIp dstIp seg) (fun r => ∀ hdr body, r = some (hdr,body) →
      hdr.hdrLen = (seg.getD 12 0).toNat/16*4 ∧ Inside seg hdr.hdrLen seg.length body) := by
  unfold tcpParse
  by_cases hlen : seg.length < tcpHdrMin
  · rw [if_pos hlen]
    exact .pure (by simp)
  have hmin : 20 ≤ seg.length := Nat.not_lt.mp hlen
  rw [if_neg hlen,at_eq (show 12 < seg.length by omega)]
  simp only [bind_eq_bind,bind_some]
  by_cases hoff : (seg.getD 12 0).toNat/16*4 < tcpHdrMin ∨ seg.length < (seg.getD 12 0).toNat/16*4
  · rw [if_pos hoff]
    exact .pure (by simp)
  rw [if_neg hoff]
  simp only [not_or,Nat.not_lt] at hoff
  simp (disch := omega) only [be16At_eq,be32At_eq,at_eq,bind_some]
  refine Returns.bind (tcpOptions_return hoff.2 _) ?_
  rintro b ⟨hdr,rfl,hsame⟩
  simp only [bind_some]
  split
  · exact .pure (by simp)
  refine Returns.bind (zeroedChecksum_returns (by omega)) ?_
  intro sum _
  split
  · exact .pure (by simp)
  rw [cut_eq hoff.2 (Nat.le_refl _)]
  refine .pure ?_
  intro hdr' body h
  cases h
  simp only at hsame
  exact ⟨hsame,by rw [hsame]; exact hoff.2,Nat.le_refl _,by rw [hsame]⟩

/-! ### Neighbour discovery -/

def icmpv6RouterAdvert : UInt8 := 134
def ndOptPrefixInfo : UInt8 := 3

/-- The pseudo-header checksum of an ICMPv6 message matches the stored one. -/
def icmpv6Valid (src dst : Ipv6Addr) (msg : List UInt8) : Option Bool := do
  let stored ← be16At msg 2
  let sum ← zeroedChecksum (src.octets ++ dst.octets ++ be32 msg.length ++ [0,0,0,protoIcmpv6]) msg 2
  some (sum = stored)

/-- One round of a walk over options: `take i opt len` looks at the option of `len`
bytes at `i` and goes on or leaves. Such a walk ends quietly at padding, at
a length of zero and at an option that is cut off. -/
def optionRound {σ : Type} (msg : List UInt8) (take : Nat → UInt8 → Nat → σ → Option (σ × Bool))
    (s : Nat × σ) : (Nat × σ) ⊕ Option σ :=
  let (i,acc) := s
  if i < msg.length then
    match msg[i]? with
    | none => .inr none
    | some opt =>
      if opt = 0 ∨ i+1 ≥ msg.length then .inr (some acc)
      else
        match msg[i+1]? with
        | none => .inr none
        | some units =>
          if units.toNat = 0 then .inr (some acc)
          else
            let len := units.toNat*8
            if i+len > msg.length then .inr (some acc)
            else
              match take i opt len acc with
              | none => .inr none
              | some (acc,leave) => if leave then .inr (some acc) else .inl (i+len,acc)
  else .inr (some acc)

def walkOptions {σ : Type} (msg : List UInt8) (take : Nat → UInt8 → Nat → σ → Option (σ × Bool))
    (start : Nat) (acc : σ) : Option σ := do
  (← iterate (optionRound msg take) (msg.length+1) (start,acc))

/-- The link-layer address in an option of eight bytes; the last one counts. -/
def takeLlAddr (msg : List UInt8) (i : Nat) (opt : UInt8) (len : Nat) (ll : Option Mac) :
    Option (Option Mac × Bool) :=
  if (opt = ndOptSourceLl ∨ opt = ndOptTargetLl) ∧ len = 8 then do
    let a ← msg[i+2]?
    let b ← msg[i+3]?
    let c ← msg[i+4]?
    let d ← msg[i+5]?
    let e ← msg[i+6]?
    let f ← msg[i+7]?
    some (some ⟨[a,b,c,d,e,f],rfl⟩,false)
  else some (ll,false)

def ndpParse (src dst : Ipv6Addr) (msg : List UInt8) : Option (Option NdpPacket) :=
  if msg.length < 24 then some none
  else do
    let kind ← msg[0]?
    if ¬ (kind = icmpv6NeighborSolicit ∨ kind = icmpv6NeighborAdvert) then some none
    else if ¬ (← icmpv6Valid src dst msg) then some none
    else
      match Ipv6Addr.ofSlice (← cut msg 8 24) with
      | none => some none
      | some target =>
        let llAddr ← walkOptions msg (takeLlAddr msg) 24 none
        let naFlags ← msg[4]?
        some (some ⟨kind = icmpv6NeighborSolicit,naFlags,target,llAddr⟩)

structure PrefixInfo where
  onLink : Bool
  autonomous : Bool
  validLifetimeSecs : Nat
  preferredLifetimeSecs : Nat
  prefix6 : Ipv6Addr
  prefixLen : UInt8
  deriving DecidableEq

/-- A Prefix Information option of at least 32 bytes ends the walk; so does a prefix
that is no address. -/
def takePrefixInfo (msg : List UInt8) (i : Nat) (opt : UInt8) (len : Nat) (acc : Option PrefixInfo) :
    Option (Option PrefixInfo × Bool) :=
  if opt = ndOptPrefixInfo ∧ len ≥ 32 then do
    let prefixLen ← msg[i+2]?
    let flags ← msg[i+3]?
    let valid ← be32At msg (i+4)
    let preferred ← be32At msg (i+8)
    match Ipv6Addr.ofSlice (← cut msg (i+16) (i+32)) with
    | none => some (none,true)
    | some prefix6 =>
      some (some ⟨flags.toNat/128%2 = 1,flags.toNat/64%2 = 1,valid,preferred,prefix6,prefixLen⟩,true)
  else some (acc,false)

def raParsePrefix (src dst : Ipv6Addr) (msg : List UInt8) : Option (Option PrefixInfo) :=
  if msg.length < 16 then some none
  else do
    let kind ← msg[0]?
    if kind ≠ icmpv6RouterAdvert then some none
    else if ¬ (← icmpv6Valid src dst msg) then some none
    else walkOptions msg (takePrefixInfo msg) 16 none

/-- An option of `len` bytes, as its length octet says, is at `i` and ends inside. -/
def OptionAt (msg : List UInt8) (i len : Nat) : Prop :=
  8 ≤ len ∧ len = (msg.getD (i+1) 0).toNat*8 ∧ i+len ≤ msg.length

section Options

variable {σ : Type} {msg : List UInt8} {take : Nat → UInt8 → Nat → σ → Option (σ × Bool)}
  {I : σ → Prop} (htake : ∀ i opt len acc, I acc → OptionAt msg i len →
    Returns (take i opt len acc) (fun r => I r.1))
include htake

theorem optionRound_cases (i : Nat) {acc : σ} (hI : I acc) :
    (∃ i' acc', optionRound msg take (i,acc) = .inl (i',acc') ∧ i < msg.length ∧ i < i' ∧ I acc') ∨
      ∃ acc', optionRound msg take (i,acc) = .inr (some acc') ∧ I acc' := by
  unfold optionRound
  by_cases hi : i < msg.length
  · simp only [if_pos hi]
    rw [at_eq hi]
    dsimp only
    split
    · exact .inr ⟨acc,rfl,hI⟩
    rename_i hopt
    simp only [not_or,Nat.not_le] at hopt
    rw [at_eq hopt.2]
    dsimp only
    split
    · exact .inr ⟨acc,rfl,hI⟩
    rename_i hzero
    split
    · exact .inr ⟨acc,rfl,hI⟩
    rename_i hend
    obtain ⟨⟨acc',leave⟩,ht,hI'⟩ := htake i (msg.getD i 0) ((msg.getD (i+1) 0).toNat*8) acc hI
      ⟨by omega,rfl,by omega⟩
    rw [ht]
    cases leave with
    | true => exact .inr ⟨acc',rfl,hI'⟩
    | false => exact .inl ⟨_,acc',rfl,hi,by omega,hI'⟩
  · exact .inr ⟨acc,if_neg hi,hI⟩

theorem walkOptions_returns (start : Nat) {acc : σ} (hI : I acc) :
    Returns (walkOptions msg take start acc) I := by
  refine Returns.bind (P := fun b => Returns b I) ?_ fun b hb => hb
  refine iterate_returns (I := fun s => I s.2) (fun s => msg.length-s.1) ?_ hI (by simp only; omega)
  rintro ⟨i,acc⟩ hI
  rcases optionRound_cases htake i hI with ⟨i',acc',hr,hi,hlt,hI'⟩ | ⟨acc',hr,hI'⟩
  · exact .inl ⟨_,hr,hI',by simp only; omega⟩
  · exact .inr ⟨_,hr,.pure hI'⟩

end Options

theorem icmpv6Valid_returns (src dst : Ipv6Addr) {msg : List UInt8} (h : 3 < msg.length) :
    Returns (icmpv6Valid src dst msg) (fun _ => True) := by
  unfold icmpv6Valid
  rw [be16At_eq (by omega)]
  simp only [bind_eq_bind,bind_some]
  exact Returns.bind (zeroedChecksum_returns h) fun _ _ => .pure trivial

/-- The address is that of an option inside the message. -/
def LlInside (msg : List UInt8) (ll : Option Mac) : Prop :=
  ∀ mac, ll = some mac → ∃ i, OptionAt msg i 8 ∧ Inside msg (i+2) (i+8) mac.octets

theorem takeLlAddr_inside (msg : List UInt8) (i : Nat) (opt : UInt8) (len : Nat) (ll : Option Mac)
    (hll : LlInside msg ll) (ho : OptionAt msg i len) :
    Returns (takeLlAddr msg i opt len ll) (fun r => LlInside msg r.1) := by
  unfold takeLlAddr
  split
  · rename_i hlen
    obtain rfl := hlen.2
    have hend := ho.2.2
    simp (disch := omega) only [at_eq]
    refine .pure ?_
    intro mac hmac
    cases hmac
    refine ⟨i,ho,by omega,hend,?_⟩
    rw [show i+8-(i+2) = 6 by omega]
    simp (disch := omega) only [take_drop_succ]
    rfl
  · exact .pure hll

theorem ofSlice_inside {octets : List UInt8} {lo hi : Nat} {a : Ipv6Addr} (h : Inside p lo hi octets)
    (ha : Ipv6Addr.ofSlice octets = some a) : Inside p lo hi a.octets := by
  unfold Ipv6Addr.ofSlice at ha
  split at ha
  · cases ha
    exact h
  · cases ha

theorem ndpParse_inside (src dst : Ipv6Addr) (msg : List UInt8) :
    Returns (ndpParse src dst msg) (fun r => ∀ pkt, r = some pkt →
      Inside msg 8 24 pkt.target.octets ∧ LlInside msg pkt.llAddr) := by
  unfold ndpParse
  by_cases hlen : msg.length < 24
  · rw [if_pos hlen]
    exact .pure (by simp)
  rw [if_neg hlen]
  simp (disch := omega) only [at_eq,cut_eq,bind_eq_bind,bind_some]
  split
  · exact .pure (by simp)
  refine Returns.bind (icmpv6Valid_returns src dst (by omega)) ?_
  intro ok _
  split
  · exact .pure (by simp)
  split
  · exact .pure (by simp)
  rename_i target htarget
  refine Returns.bind (walkOptions_returns (takeLlAddr_inside msg) 24 fun _ h => by cases h) ?_
  intro ll hll
  refine .pure ?_
  intro pkt h
  cases h
  exact ⟨ofSlice_inside ⟨by omega,by omega,rfl⟩ htarget,hll⟩

/-- The prefix is that of an option inside the message. -/
def PrefixInside (msg : List UInt8) (info : Option PrefixInfo) : Prop :=
  ∀ i, info = some i → ∃ at_ len, OptionAt msg at_ len ∧ 32 ≤ len ∧
    Inside msg (at_+16) (at_+32) i.prefix6.octets

theorem takePrefixInfo_inside (msg : List UInt8) (i : Nat) (opt : UInt8) (len : Nat)
    (acc : Option PrefixInfo) (hacc : PrefixInside msg acc) (ho : OptionAt msg i len) :
    Returns (takePrefixInfo msg i opt len acc) (fun r => PrefixInside msg r.1) := by
  unfold takePrefixInfo
  split
  · rename_i hlen
    have hend := ho.2.2
    simp (disch := omega) only [at_eq,be32At_eq,cut_eq,bind_eq_bind,bind_some]
    split
    · exact .pure fun _ h => by cases h
    rename_i prefix6 hprefix
    refine .pure ?_
    intro info h
    cases h
    exact ⟨i,len,ho,hlen.2,ofSlice_inside ⟨by omega,by omega,rfl⟩ hprefix⟩
  · exact .pure hacc

theorem raParsePrefix_inside (src dst : Ipv6Addr) (msg : List UInt8) :
    Returns (raParsePrefix src dst msg) (PrefixInside msg) := by
  have hnone : PrefixInside msg none := fun _ h => by cases h
  unfold raParsePrefix
  by_cases hlen : msg.length < 16
  · rw [if_pos hlen]
    exact .pure hnone
  rw [if_neg hlen,at_eq (show 0 < msg.length by omega)]
  simp only [bind_eq_bind,bind_some]
  split
  · exact .pure hnone
  refine Returns.bind (icmpv6Valid_returns src dst (by omega)) ?_
  intro ok _
  split
  · exact .pure hnone
  · exact walkOptions_returns (takePrefixInfo_inside msg) 16 hnone

end PaghOS.Net.Ingress
