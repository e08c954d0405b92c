import PaghOS.Lib.Utf8
import PaghOS.Net.Ingress

/-!
The parser of DNS responses (`net/dns.rs`), read for read. A name is skipped and
never followed, so that the position only goes forward.
-/

namespace PaghOS.Net.Ingress
open Loop Window Text Option

def qtypeA : Nat := 1
def qtypeAaaa : Nat := 28
def qclassIn : Nat := 1
def maxNameSteps : Nat := 128

def verifyLabels (buf : List UInt8) : List (List UInt8) → Nat → Option Nat
  | [], pos => some pos
  | bytes :: labels, pos =>
    if bytes = [] ∨ bytes.length > 63 then none
    else
      match buf[pos]? with
      | none => none
      | some len =>
        if len.toNat ≥ 64 ∨ len.toNat ≠ bytes.length then none
        else
          match cut buf (pos+1) (pos+1+bytes.length) with
          | none => none
          | some label => if label ≠ bytes then none else verifyLabels buf labels (pos+1+bytes.length)

def verifyQuestion (buf : List UInt8) (pos : Nat) (hostname : List Char) (qtype : Nat) :
    Option (Option Nat) :=
  match verifyLabels buf ((hostname.splitOn '.').map utf8Encode) pos with
  | none => some none
  | some pos =>
    match buf[pos]? with
    | none => some none
    | some root =>
      if root ≠ 0 then some none
      else if buf.length < pos+1+4 then some none
      else do
        let qt ← be16At buf (pos+1)
        let qc ← be16At buf (pos+1+2)
        if qt ≠ qtype ∨ qc ≠ qclassIn then some none else some (some (pos+1+4))

def skipName (buf : List UInt8) : (steps pos : Nat) → Option Nat
  | 0, _ => none
  | steps+1, pos =>
    match buf[pos]? with
    | none => none
    | some len =>
      if len.toNat/64 = 0 then
        if len = 0 then some (pos+1)
        else if pos+1+len.toNat > buf.length then none
        else skipName buf steps (pos+1+len.toNat)
      else if len.toNat/64 = 3 then (buf[pos+1]?).map (fun _ => pos+2)
      else none

/-- The walk over the answers: the data of the first one with the type and the
length asked for. -/
def findAnswer (buf : List UInt8) (qtype rdlen : Nat) : (ancount pos : Nat) → Option (Option (List UInt8))
  | 0, _ => some none
  | ancount+1, pos =>
    match skipName buf maxNameSteps pos with
    | none => some none
    | some pos =>
      let rdata := pos+10
      if rdata > buf.length then some none
      else do
        let rtype ← be16At buf pos
        let rdlength ← be16At buf (pos+8)
        if rdata+rdlength > buf.length then some none
        else if rtype = qtype ∧ rdlength = rdlen then do
          let octets ← cut buf rdata (rdata+rdlength)
          some (some octets)
        else findAnswer buf qtype rdlen ancount (rdata+rdlength)

def parseDnsResponse (qtype rdlen : Nat) (buf : List UInt8) (expectedId : Nat) (expectedName : List Char) :
    Option (Option (List UInt8)) :=
  if buf.length < 12 then some none
  else do
    let id ← be16At buf 0
    let flags ← be16At buf 2
    let qdcount ← be16At buf 4
    let ancount ← be16At buf 6
    if id ≠ expectedId then some none
    else if flags/32768 = 0 ∨ flags%16 ≠ 0 then some none
    else if qdcount ≠ 1 then some none
    else
      match ← verifyQuestion buf 12 expectedName qtype with
      | none => some none
      | some pos => findAnswer buf qtype rdlen ancount pos

def parseDnsAResponse : List UInt8 → Nat → List Char → Option (Option (List UInt8)) :=
  parseDnsResponse qtypeA 4

def parseDnsAaaaResponse : List UInt8 → Nat → List Char → Option (Option (List UInt8)) :=
  parseDnsResponse qtypeAaaa 16

theorem verifyQuestion_returns (buf : List UInt8) (pos : Nat) (hostname : List Char) (qtype : Nat) :
    Returns (verifyQuestion buf pos hostname qtype) (fun _ => True) := by
  unfold verifyQuestion
  split
  · exact .pure trivial
  split
  · exact .pure trivial
  split
  · exact .pure trivial
  split
  · exact .pure trivial
  rw [be16At_eq (by omega),be16At_eq (by omega)]
  simp only [bind_eq_bind,bind_some]
  split
  · exact .pure trivial
  · exact .pure trivial

/-- The octets are the data of a record inside the message, all of the length
the record declares. -/
def RdataInside (buf : List UInt8) (rdlen : Nat) (r : Option (List UInt8)) : Prop :=
  ∀ octets, r = some octets → ∃ pos, ofBe16 (buf.getD (pos+8) 0) (buf.getD (pos+8+1) 0) = rdlen ∧
    Inside buf (pos+10) (pos+10+rdlen) octets

theorem findAnswer_inside (buf : List UInt8) (qtype rdlen ancount pos : Nat) :
    Returns (findAnswer buf qtype rdlen ancount pos) (RdataInside buf rdlen) := by
  have hnone : RdataInside buf rdlen none := fun _ h => by cases h
  induction ancount generalizing pos with
  | zero => exact .pure hnone
  | succ ancount ih =>
    rw [findAnswer]
    split
    · exact .pure hnone
    rename_i pos' _
    dsimp only
    split
    · exact .pure hnone
    rw [be16At_eq (by omega),be16At_eq (by omega)]
    simp only [bind_eq_bind,bind_some]
    split
    · exact .pure hnone
    rename_i hend
    split
    · rename_i hmatch
      rw [cut_eq (by omega) (by omega)]
      refine .pure ?_
      intro octets h
      cases h
      exact ⟨pos',hmatch.2,hmatch.2 ▸ ⟨by omega,by omega,rfl⟩⟩
    · exact ih _

theorem parseDnsResponse_inside (qtype rdlen : Nat) (buf : List UInt8) (expectedId : Nat)
    (expectedName : List Char) :
    Returns (parseDnsResponse qtype rdlen buf expectedId expectedName) (RdataInside buf rdlen) := by
  have hnone : RdataInside buf rdlen none := fun _ h => by cases h
  unfold parseDnsResponse
  by_cases hlen : buf.length < 12
  · rw [if_pos hlen]
    exact .pure hnone
  rw [if_neg hlen,be16At_eq (by omega),be16At_eq (by omega),be16At_eq (by omega),be16At_eq (by omega)]
  simp only [bind_eq_bind,bind_some]
  split
  · exact .pure hnone
  split
  · exact .pure hnone
  split
  · exact .pure hnone
  refine Returns.bind (verifyQuestion_returns buf 12 expectedName qtype) ?_
  intro r _
  cases r with
  | none => exact .pure hnone
  | some pos => exact findAnswer_inside buf qtype rdlen _ pos

/-- Every parser of packets returns, whatever the bytes and the addresses, and
what it takes out of them lies inside what the header declares. -/
theorem ingress_stays_inside (bytes : List UInt8) (src dst : IpAddr) (src6 dst6 : Ipv6Addr)
    (expectedId : Nat) (expectedName : List Char) :
    Returns (ipv4Parse bytes) (fun r => ∀ hdr payload, r = some (hdr,payload) →
        Inside bytes hdr.hdrLen (ofBe16 (bytes.getD 2 0) (bytes.getD 3 0)) payload) ∧
      Returns (ipv6Parse bytes) (fun r => ∀ hdr payload, r = some (hdr,payload) →
        Inside bytes hdr.payloadOff (ipv6HdrLen+ofBe16 (bytes.getD 4 0) (bytes.getD 5 0)) payload) ∧
      Returns (ipv6FragmentParse bytes) (fun r => ∀ ident off more data,
        r = some (ident,off,more,data) → Inside bytes 8 bytes.length data) ∧
      Returns (ndpParse src6 dst6 bytes) (fun r => ∀ pkt, r = some pkt →
        Inside bytes 8 24 pkt.target.octets ∧ LlInside bytes pkt.llAddr) ∧
      Returns (raParsePrefix src6 dst6 bytes) (PrefixInside bytes) ∧
      Returns (udpParse src dst bytes) (fun r => ∀ sp dp body, r = some (sp,dp,body) →
        Inside bytes udpHdrLen (ofBe16 (bytes.getD 4 0) (bytes.getD 5 0)) body) ∧
      Returns (tcpParse src dst bytes) (fun r => ∀ hdr body, r = some (hdr,body) →
        hdr.hdrLen = (bytes.getD 12 0).toNat/16*4 ∧ Inside bytes hdr.hdrLen bytes.length body) ∧
      Returns (parseDnsAResponse bytes expectedId expectedName) (RdataInside bytes 4) ∧
      Returns (parseDnsAaaaResponse bytes expectedId expectedName) (RdataInside bytes 16) :=
  ⟨ipv4Parse_inside bytes,ipv6Parse_inside bytes,ipv6FragmentParse_inside bytes,
    ndpParse_inside src6 dst6 bytes,raParsePrefix_inside src6 dst6 bytes,
    udpParse_inside src dst bytes,tcpParse_inside src dst bytes,
    parseDnsResponse_inside qtypeA 4 bytes expectedId expectedName,
    parseDnsResponse_inside qtypeAaaa 16 bytes expectedId expectedName⟩

end PaghOS.Net.Ingress
