import PaghOS.Lib.Bytes
import Mathlib.Data.Nat.Digits.Lemmas

/-!
The DER subset and the certificate parser of `net/x509.rs`. Slices of the input
buffer are byte lists; an element is always cut off the front of its buffer, so
the rest of the buffer is what a caller goes on with.
-/

namespace PaghOS.Tls
open List

open Bytes

variable {tag : UInt8} {content : List UInt8} {n : Nat}
    {item : Except DerError (UInt8 × List UInt8)}

inductive DerError where
  | truncated
  | badLength
  | unexpectedTag (expected got : UInt8)
  | badTime
  | badCert
deriving DecidableEq

def tagBoolean : UInt8 := 0x01
def tagInteger : UInt8 := 0x02
def tagBitString : UInt8 := 0x03
def tagOctetString : UInt8 := 0x04
def tagOid : UInt8 := 0x06
def tagUtcTime : UInt8 := 0x17
def tagGeneralizedTime : UInt8 := 0x18
def tagSequence : UInt8 := 0x30

def readLen (buf : List UInt8) (pos : Nat) : Except DerError (Nat × Nat) :=
  match buf[pos]? with
  | none => .error .truncated
  | some first =>
    if first < 0x80 then .ok (first.toNat,pos+1)
    else if first = 0x80 then .error .badLength
    else
      let n := (first &&& 0x7f).toNat
      if 4 < n then .error .badLength
      else if buf.length < pos+1+n then .error .truncated
      else
        let bytes := slice buf (pos+1) n
        let len := bytes.foldl (fun len b => (len <<< 8) ||| b.toNat) 0
        if bytes.head? = some 0 ∨ len < 0x80 then .error .badLength
        else .ok (len,pos+1+n)

def derTlv (buf : List UInt8) : Except DerError (UInt8 × List UInt8 × List UInt8) :=
  match buf.head? with
  | none => .error .truncated
  | some tag =>
    if tag &&& 0x1f = 0x1f then .error .badLength
    else
      match readLen buf 1 with
      | .error e => .error e
      | .ok (len,pos) =>
        if pos+len ≤ buf.length then .ok (tag,slice buf pos len,buf.drop (pos+len))
        else .error .truncated

variable {buf rest : List UInt8}

/-- The one length encoding DER allows: short below 128, else the fewest big-endian bytes. -/
def derLength (n : Nat) : List UInt8 :=
  if n < 0x80 then [UInt8.ofNat n]
  else
    let bytes := (Nat.digits 256 n).reverse.map UInt8.ofNat
    UInt8.ofNat (0x80+bytes.length) :: bytes

def derEncode (tag : UInt8) (content : List UInt8) : List UInt8 :=
  tag :: derLength content.length ++ content

/-- A low-number tag, and a length of at most four bytes. -/
def DerEncodable (tag : UInt8) (content : List UInt8) : Prop :=
  tag &&& 0x1f ≠ 0x1f ∧ content.length < 4294967296

def ofBe (bytes : List UInt8) : Nat := bytes.foldl (fun len b => (len <<< 8) ||| b.toNat) 0

theorem ofBe_eq (bytes : List UInt8) : ofBe bytes = Nat.ofDigits 256 (bytes.reverse.map UInt8.toNat) := by
  have hfold (n : Nat) : bytes.foldl (fun len b => (len <<< 8) ||| b.toNat) n =
      Nat.ofDigits 256 (bytes.reverse.map UInt8.toNat ++ [n]) := by
    induction bytes generalizing n with
    | nil => simp
    | cons b bytes ih =>
      rw [foldl_cons,ih,← Nat.shiftLeft_add_eq_or_of_lt b.toNat_lt,Nat.shiftLeft_eq]
      simp [Nat.ofDigits_append,Nat.ofDigits_cons]
      ring
  rw [ofBe,hfold,Nat.ofDigits_append]
  simp

theorem ofBe_digits (n : Nat) : ofBe ((Nat.digits 256 n).reverse.map UInt8.ofNat) = n := by
  have hdigits : (Nat.digits 256 n).map (UInt8.toNat ∘ UInt8.ofNat) = Nat.digits 256 n := by
    refine (map_congr_left fun d hd => ?_).trans (map_id _)
    have := Nat.digits_lt_base (by decide) hd
    simp
    omega
  rw [ofBe_eq,← map_reverse,reverse_reverse,map_map,hdigits,Nat.ofDigits_digits]

theorem digits_ofBe {bytes : List UInt8} (h : bytes.head? ≠ some 0) :
    (Nat.digits 256 (ofBe bytes)).reverse.map UInt8.ofNat = bytes := by
  have hlt : ∀ d ∈ bytes.reverse.map UInt8.toNat, d < 256 := by
    intro d hd
    obtain ⟨b,-,rfl⟩ := mem_map.mp hd
    exact b.toNat_lt
  have hlast : ∀ hne : bytes.reverse.map UInt8.toNat ≠ [],
      (bytes.reverse.map UInt8.toNat).getLast hne ≠ 0 := by
    intro hne
    cases bytes with
    | nil => simp at hne
    | cons b bytes => simpa [← UInt8.toNat_inj] using h
  rw [ofBe_eq,Nat.digits_ofDigits 256 (by decide) _ hlt hlast,← map_reverse,reverse_reverse,map_map]
  exact (map_congr_left fun b _ => UInt8.ofNat_toNat).trans (map_id _)

theorem readLen_cons (tag first : UInt8) (buf : List UInt8) : readLen (tag :: first :: buf) 1 =
      if first.toNat < 128 then .ok (first.toNat,2)
      else if first.toNat = 128 ∨ 132 < first.toNat then .error .badLength
      else if buf.length < first.toNat-128 then .error .truncated
      else if (buf.take (first.toNat-128)).head? = some 0 ∨ ofBe (buf.take (first.toNat-128)) < 128 then
        .error .badLength else .ok (ofBe (buf.take (first.toNat-128)),1+1+(first.toNat-128)) := by
  have hlt := first.toNat_lt
  have h₁ : first < 0x80 ↔ first.toNat < 128 := UInt8.lt_iff_toNat_lt
  have h₂ : first = 0x80 ↔ first.toNat = 128 := UInt8.toNat_inj.symm
  have hand : (first &&& 0x7f).toNat = first.toNat%128 := by
    rw [UInt8.toNat_and]
    exact Nat.and_two_pow_sub_one_eq_mod first.toNat 7
  simp only [readLen,getElem?_cons_succ,getElem?_cons_zero,h₁,h₂,hand,slice,drop_succ_cons,drop_zero,
    length_cons]
  by_cases hshort : first.toNat < 128
  · rw [if_pos hshort,if_pos hshort]
  rw [if_neg hshort,if_neg hshort,show first.toNat%128 = first.toNat-128 by omega]
  by_cases h128 : first.toNat = 128
  · rw [if_pos h128,if_pos (.inl h128)]
  have hfour : 4 < first.toNat-128 ↔ 132 < first.toNat := by omega
  have hroom : buf.length+1+1 < 1+1+(first.toNat-128) ↔ buf.length < first.toNat-128 := by omega
  simp only [h128,false_or,if_false,hfour,hroom]
  rfl

theorem readLen_derLength (hn : n < 4294967296) (tag : UInt8) (more : List UInt8) :
    readLen (tag :: (derLength n ++ more)) 1 = .ok (n,1+(derLength n).length) := by
  by_cases hshort : n < 0x80
  · have htoNat : (UInt8.ofNat n).toNat = n := by simp; omega
    rw [derLength,if_pos hshort,singleton_append,readLen_cons,htoNat,if_pos hshort]
    rfl
  have hne : n ≠ 0 := by omega
  have hdigits : Nat.digits 256 n ≠ [] := Nat.digits_ne_nil_iff_ne_zero.mpr hne
  have hle : (Nat.digits 256 n).length ≤ 4 := (Nat.digits_length_le_iff (by decide) n).mpr (by simpa using hn)
  have hpos := length_pos_iff.mpr hdigits
  have hbe := ofBe_digits n
  have hhead : ((Nat.digits 256 n).reverse.map UInt8.ofNat).head? ≠ some 0 := by
    have hlast := Nat.getLast_digit_ne_zero 256 hne
    have hlt := Nat.digits_lt_base (by decide : 1 < 256) (getLast_mem hdigits)
    rw [head?_map,head?_reverse,getLast?_eq_getLast_of_ne_nil hdigits]
    simp [← UInt8.toNat_inj]
    omega
  have hlen : ((Nat.digits 256 n).reverse.map UInt8.ofNat).length = (Nat.digits 256 n).length := by simp
  simp only [derLength,if_neg hshort]
  generalize (Nat.digits 256 n).reverse.map UInt8.ofNat = bytes at hbe hhead hlen ⊢
  have hfirst : (UInt8.ofNat (0x80+bytes.length)).toNat = 0x80+bytes.length := by simp; omega
  rw [cons_append,readLen_cons,hfirst,if_neg (by omega),if_neg (by omega),Nat.add_sub_cancel_left,
    if_neg (by simp),take_left,hbe,if_neg (not_or.mpr ⟨hhead,hshort⟩),length_cons]
  congr 2
  omega

theorem derLength_readLen {len pos : Nat} (h : readLen (tag :: buf) 1 = .ok (len,pos)) :
    len < 4294967296 ∧ pos = 1+(derLength len).length ∧ ∃ more, buf = derLength len ++ more := by
  cases buf with
  | nil => simp [readLen] at h
  | cons first buf =>
    rw [readLen_cons] at h
    split at h
    · rename_i hshort
      cases h
      simp only [derLength,if_pos hshort,UInt8.ofNat_toNat]
      exact ⟨by omega,rfl,buf,rfl⟩
    split at h
    · cases h
    split at h
    · cases h
    rename_i hshort hlong hroom
    have hcount : (buf.take (first.toNat-128)).length = first.toNat-128 := by simp; omega
    generalize hb : buf.take (first.toNat-128) = bytes at h hcount
    split at h
    · cases h
    rename_i hmin
    cases h
    obtain ⟨hhead,hlen⟩ := not_or.mp hmin
    have hdigits := digits_ofBe hhead
    have hlt : ofBe bytes < 256^4 := by
      rw [← Nat.digits_length_le_iff (by decide)]
      have := congrArg List.length hdigits
      simp only [length_map,length_reverse] at this
      omega
    simp only [derLength,if_neg hlen,hdigits,hcount,show 0x80+(first.toNat-128) = first.toNat by omega,
      UInt8.ofNat_toNat,length_cons]
    exact ⟨hlt,by omega,buf.drop (first.toNat-128),by simp [← hb]⟩

theorem cut_derLength (tag : UInt8) (n k : Nat) (more : List UInt8) :
    slice (tag :: (derLength n ++ more)) (1+(derLength n).length) k = more.take k ∧
      (tag :: (derLength n ++ more)).drop (1+(derLength n).length+k) = more.drop k := by
  have h : (tag :: (derLength n ++ more)).drop (1+(derLength n).length) = more := by
    rw [add_comm,drop_succ_cons,drop_left]
  exact ⟨by rw [slice,h],by rw [← drop_drop,h]⟩

/-- The reader takes an element off the front exactly when the element's encoding is there. -/
theorem derTlv_eq_ok :
    derTlv buf = .ok (tag,content,rest) ↔ DerEncodable tag content ∧ buf = derEncode tag content ++ rest := by
  cases buf with
  | nil => simp [derTlv,derEncode]
  | cons b buf =>
    simp only [derTlv,head?_cons]
    constructor
    · intro h
      split at h
      · cases h
      rename_i htag
      split at h
      · cases h
      rename_i len pos hr
      split at h
      · rename_i hend
        obtain ⟨hlen,rfl,more,rfl⟩ := derLength_readLen hr
        rw [(cut_derLength b len len more).1,(cut_derLength b len len more).2,Except.ok.injEq,Prod.mk.injEq,
          Prod.mk.injEq] at h
        obtain ⟨rfl,rfl,rfl⟩ := h
        have hcut : (more.take len).length = len := by
          simp only [length_cons,length_append] at hend
          simp
          omega
        exact ⟨⟨htag,by omega⟩,by simp [derEncode,hcut]⟩
      · cases h
    · rintro ⟨⟨htag,hlen⟩,hbuf⟩
      rw [derEncode,cons_append,cons_append,cons.injEq,append_assoc] at hbuf
      obtain ⟨rfl,rfl⟩ := hbuf
      rw [if_neg htag,readLen_derLength hlen]
      simp only [cut_derLength,take_left,drop_left]
      rw [if_pos (by simp; omega)]

theorem derTlv_append (h : derTlv buf = .ok (tag,content,rest)) (more : List UInt8) :
    rest.length < buf.length ∧ derTlv (buf ++ more) = .ok (tag,content,rest ++ more) := by
  obtain ⟨henc,rfl⟩ := derTlv_eq_ok.mp h
  exact ⟨by simp [derEncode]; omega,derTlv_eq_ok.mpr ⟨henc,append_assoc _ _ _⟩⟩

theorem derTlv_shorter
    (h : derTlv buf = .ok (tag,content,rest)) : rest.length < buf.length := (derTlv_append h []).1

def derExpect (buf : List UInt8) (tag : UInt8) : Except DerError (List UInt8 × List UInt8) := do
  let (got,content,rest) ← derTlv buf
  if got ≠ tag then throw (.unexpectedTag tag got)
  return (content,rest)

def derElement (buf : List UInt8) : Except DerError (List UInt8 × List UInt8) := do
  let (_,_,rest) ← derTlv buf
  return (buf.take (buf.length-rest.length),rest)

/-- `DerChildren::next`: a malformed element is reported once and ends the walk. -/
def derNext (buf : List UInt8) : Option (Except DerError (UInt8 × List UInt8) × List UInt8) :=
  if buf = [] then none
  else
    match derTlv buf with
    | .ok (tag,content,rest) => some (.ok (tag,content),rest)
    | .error e => some (.error e,[])

def derItems : Nat → List UInt8 → List (Except DerError (UInt8 × List UInt8))
  | 0, _ => []
  | n+1, buf =>
    match derNext buf with
    | none => []
    | some (item,rest) => item :: derItems n rest

/-- The children of a constructed element. Every item takes at least one byte,
so the length of the content bounds their number (`derChildren_eq`). -/
def derChildren (content : List UInt8) : List (Except DerError (UInt8 × List UInt8)) :=
  derItems content.length content

theorem derNext_shorter (h : derNext buf = some (item,rest)) : rest.length < buf.length := by
  unfold derNext at h
  split at h
  · cases h
  rename_i hne
  split at h
  · rename_i htlv
    cases h
    exact derTlv_shorter htlv
  · cases h
    exact length_pos_iff.mpr hne

theorem derItems_eq {m : Nat} (hn : buf.length ≤ n) (hm : buf.length ≤ m) :
    derItems n buf = derItems m buf := by
  induction n generalizing m buf with
  | zero =>
    obtain rfl : buf = [] := eq_nil_of_length_eq_zero (by omega)
    cases m <;> simp [derItems,derNext]
  | succ n ih =>
    cases m with
    | zero =>
      obtain rfl : buf = [] := eq_nil_of_length_eq_zero (by omega)
      simp [derItems,derNext]
    | succ m =>
      cases hnext : derNext buf with
      | none => simp [derItems,hnext]
      | some r =>
        obtain ⟨item,rest⟩ := r
        have hlt := derNext_shorter hnext
        simp only [derItems,hnext]
        rw [ih (by omega) (by omega : rest.length ≤ m)]

theorem derChildren_eq
    (h : derNext buf = some (item,rest)) : derChildren buf = item :: derChildren rest := by
  have hlt := derNext_shorter h
  obtain ⟨k,hk⟩ : ∃ k, buf.length = k+1 := ⟨buf.length-1,by omega⟩
  unfold derChildren
  rw [hk]
  simp only [derItems,h]
  rw [derItems_eq (by omega : rest.length ≤ k) le_rfl]

theorem derNext_derEncode (h : DerEncodable tag content) (rest : List UInt8) :
    derNext (derEncode tag content ++ rest) = some (.ok (tag,content),rest) := by
  rw [derNext,if_neg (by simp [derEncode]),derTlv_eq_ok.mpr ⟨h,rfl⟩]

theorem derChildren_derEncode {els : List (UInt8 × List UInt8)} (h : ∀ e ∈ els, DerEncodable e.1 e.2) :
    derChildren (els.flatMap (fun e => derEncode e.1 e.2)) = els.map .ok := by
  induction els with
  | nil => rfl
  | cons e els ih =>
    rw [flatMap_cons,derChildren_eq (derNext_derEncode (h e mem_cons_self) _),
      ih fun e he => h e (mem_cons_of_mem _ he),map_cons]

theorem der_exact : (∀ buf tag content rest, derTlv buf = .ok (tag,content,rest) ↔
      DerEncodable tag content ∧ buf = derEncode tag content ++ rest) ∧
    ∀ els : List (UInt8 × List UInt8), (∀ e ∈ els, DerEncodable e.1 e.2) →
      derChildren (els.flatMap (fun e => derEncode e.1 e.2)) = els.map .ok :=
  ⟨fun _ _ _ _ => derTlv_eq_ok,fun _ => derChildren_derEncode⟩

theorem der_exact_octets : derChildren ([(0x04,[0x2a]),(0x05,[])].flatMap (fun e => derEncode e.1 e.2)) =
      [.ok (0x04,[0x2a]),.ok (0x05,[])] :=
  der_exact.2 [(0x04,[0x2a]),(0x05,[])] (by simp [DerEncodable]; decide)

def daysFromCivil (y : Int) (m d : Nat) : Int :=
  let y := if m ≤ 2 then y-1 else y
  let era := (if 0 ≤ y then y else y-399).tdiv 400
  let yoe := y-era*400
  let doy := (153*(if (m : Int) > 2 then (m : Int)-3 else m+9)+2)/5+d-1
  let doe := yoe*365+yoe/4-yoe/100+doy
  era*146097+doe-719468

def daysInMonth (year : Nat) (month : Nat) : Nat :=
  if month ∈ [1,3,5,7,8,10,12] then 31
  else if month ∈ [4,6,9,11] then 30
  else if month = 2 then
    if (year%4 = 0 ∧ year%100 ≠ 0) ∨ year%400 = 0 then 29 else 28
  else 0

def civilToUnix (year month day hour minute second : Nat) : Int :=
  daysFromCivil year month day*86400+hour*3600+minute*60+second

def digit (b : UInt8) : Option Nat :=
  if 0x30 ≤ b ∧ b ≤ 0x39 then some (b.toNat-0x30) else none

def two (s : List UInt8) (off : Nat) : Except DerError Nat :=
  match s[off]?.bind digit, s[off+1]?.bind digit with
  | some a, some b => .ok (a*10+b)
  | _, _ => .error .badTime

def decodeYear (tag : UInt8) (s : List UInt8) : Except DerError (Nat × List UInt8) :=
  if tag = tagUtcTime then
    if s.length ≠ 13 then .error .badTime
    else do
      let yy ← two s 0
      return (if 50 ≤ yy then 1900+yy else 2000+yy,s.drop 2)
  else if tag = tagGeneralizedTime then
    if s.length ≠ 15 then .error .badTime
    else do
      let hi ← two s 0
      let lo ← two s 2
      return (hi*100+lo,s.drop 4)
  else .error .badTime

def decodeAsn1Time (tag : UInt8) (s : List UInt8) : Except DerError Int := do
  let (year,rest) ← decodeYear tag s
  if rest.length ≠ 11 ∨ rest[10]? ≠ some 0x5a then throw .badTime
  let month ← two rest 0
  let day ← two rest 2
  let hour ← two rest 4
  let minute ← two rest 6
  let second ← two rest 8
  if month = 0 ∨ day = 0 ∨ daysInMonth year month < day then throw .badTime
  if 23 < hour ∨ 59 < minute ∨ 60 < second then throw .badTime
  return civilToUnix year month day hour minute second

def oidRsaEncryption : List UInt8 := [0x2a,0x86,0x48,0x86,0xf7,0x0d,0x01,0x01,0x01]
def oidEcPublicKey : List UInt8 := [0x2a,0x86,0x48,0xce,0x3d,0x02,0x01]
def oidPrime256v1 : List UInt8 := [0x2a,0x86,0x48,0xce,0x3d,0x03,0x01,0x07]
def oidSecp384r1 : List UInt8 := [0x2b,0x81,0x04,0x00,0x22]
def oidEd25519 : List UInt8 := [0x2b,0x65,0x70]
def oidExtBasicConstraints : List UInt8 := [0x55,0x1d,0x13]

def bitStringBytes (content : List UInt8) : Except DerError (List UInt8) :=
  match content with
  | [] => .error .truncated
  | first :: rest => if first ≠ 0 then .error .badCert else .ok rest

def integerBytes (content : List UInt8) : Except DerError (List UInt8) :=
  match content with
  | [] => .error .truncated
  | 0 :: b :: rest => .ok (b :: rest)
  | content => .ok content

structure Validity where
  notBefore : Int
  notAfter : Int
deriving DecidableEq

inductive SpkiKey where
  | rsa (n e : List UInt8)
  | ecP256 (point : List UInt8)
  | ecP384 (point : List UInt8)
  | ed25519 (key : List UInt8)
  | unsupported
deriving DecidableEq

structure Spki where
  alg : List UInt8
  key : SpkiKey
deriving DecidableEq

structure Certificate where
  tbs : List UInt8
  serial : List UInt8
  sigAlgDer : List UInt8
  sigAlg : List UInt8
  issuer : List UInt8
  subject : List UInt8
  validity : Validity
  spki : Spki
  version : Nat
  signature : List UInt8
deriving DecidableEq

def expectTag (buf : List UInt8) (tag : UInt8) : Except DerError Unit := do
  let (got,_,_) ← derTlv buf
  if got ≠ tag then throw (.unexpectedTag tag got)

def versionFromDer (content : List UInt8) : Except DerError Nat := do
  match ← integerBytes content with
  | [0x00] => return 1
  | [0x01] => return 2
  | [0x02] => return 3
  | _ => throw .badCert

/-- The next child, whatever its tag; running out of children is a bad certificate. -/
def takeChild (buf : List UInt8) : Except DerError ((UInt8 × List UInt8) × List UInt8) :=
  match derNext buf with
  | none => .error .badCert
  | some (.error e,_) => .error e
  | some (.ok item,rest) => .ok (item,rest)

def takeInteger (buf : List UInt8) : Except DerError (List UInt8 × List UInt8) := do
  let ((t,c),rest) ← takeChild buf
  if t ≠ tagInteger then throw (.unexpectedTag tagInteger t)
  let n ← integerBytes c
  return (n,rest)

def parseKey (algOid params raw : List UInt8) : Except DerError SpkiKey :=
  if algOid = oidRsaEncryption then do
    let (pkContent,_) ← derExpect raw tagSequence
    let (n,rest) ← takeInteger pkContent
    let (e,_) ← takeInteger rest
    if n = [] ∨ e = [] then throw .badCert
    return .rsa n e
  else if algOid = oidEcPublicKey then do
    let (curve,_) ← derExpect params tagOid
    if curve = oidPrime256v1 then
      if raw.length ≠ 65 ∨ raw.head? ≠ some 0x04 then .error .badCert else .ok (.ecP256 raw)
    else if curve = oidSecp384r1 then
      if raw.length ≠ 97 ∨ raw.head? ≠ some 0x04 then .error .badCert else .ok (.ecP384 raw)
    else .ok .unsupported
  else if algOid = oidEd25519 then
    if raw.length ≠ 32 then .error .badCert else .ok (.ed25519 raw)
  else .ok .unsupported

def parseSpki (spkiEl : List UInt8) : Except DerError Spki := do
  let (content,_) ← derExpect spkiEl tagSequence
  let (algEl,keyEl) ← derElement content
  let (algContent,_) ← derExpect algEl tagSequence
  let (algOid,params) ← derExpect algContent tagOid
  let (bitsContent,_) ← derExpect keyEl tagBitString
  let raw ← bitStringBytes bitsContent
  let key ← parseKey algOid params raw
  return { alg := algOid, key }

/-- The version field and what follows it: absent means version 1, and a first
field that is no element at all is left for the serial number to report. -/
def parseVersion (cur : List UInt8) : Except DerError (Nat × List UInt8) :=
  match derTlv cur with
  | .ok (tag,inner,rest) =>
    if tag = 0xa0 then do
      let (v,_) ← derExpect inner tagInteger
      let version ← versionFromDer v
      return (version,rest)
    else .ok (1,cur)
  | .error _ => .ok (1,cur)

def parseTbs (tbs signature : List UInt8) : Except DerError Certificate := do
  let (content,tail) ← derExpect tbs tagSequence
  if tail ≠ [] then throw .badCert
  let (version,cur) ← parseVersion content
  let (serialEl,cur) ← derElement cur
  let (serial,_) ← derExpect serialEl tagInteger
  let serial ← integerBytes serial
  let (sigAlgDer,cur) ← derElement cur
  let (sigContent,_) ← derExpect sigAlgDer tagSequence
  let (sigAlg,_) ← derExpect sigContent tagOid
  let (issuer,cur) ← derElement cur
  expectTag issuer tagSequence
  let (validityEl,cur) ← derElement cur
  let (vContent,_) ← derExpect validityEl tagSequence
  let ((t₁,c₁),v) ← takeChild vContent
  let ((t₂,c₂),_) ← takeChild v
  let notBefore ← decodeAsn1Time t₁ c₁
  let notAfter ← decodeAsn1Time t₂ c₂
  let (subject,cur) ← derElement cur
  expectTag subject tagSequence
  let (spkiEl,_) ← derElement cur
  let spki ← parseSpki spkiEl
  return { tbs, serial, sigAlgDer, sigAlg, issuer, subject, validity := { notBefore, notAfter },
           spki, version, signature }

def parseContent (certContent : List UInt8) : Except DerError Certificate := do
  let (tbsEl,tail) ← derElement certContent
  let (outerAlgEl,tail) ← derElement tail
  let (sigEl,tail) ← derElement tail
  let (sigBits,_) ← derExpect sigEl tagBitString
  let signature ← bitStringBytes sigBits
  let cert ← parseTbs tbsEl signature
  if tail ≠ [] then throw .badCert
  if outerAlgEl ≠ cert.sigAlgDer then throw .badCert
  return cert

def parseCertificate (der : List UInt8) : Except DerError (Certificate × List UInt8) := do
  let (certContent,rest) ← derExpect der tagSequence
  let cert ← parseContent certContent
  return (cert,rest)

variable {der : List UInt8} {cert : Certificate}

theorem parseCertificate_eq_ok (h : parseCertificate der = .ok (cert,rest)) :
    ∃ content, derTlv der = .ok (tagSequence,content,rest) ∧ parseContent content = .ok cert := by
  unfold parseCertificate derExpect at h
  cases htlv : derTlv der with
  | error e => simp [htlv,bind,Except.bind] at h
  | ok r =>
    obtain ⟨got,content,rest'⟩ := r
    by_cases hgot : got = tagSequence
    · cases hc : parseContent content with
      | error e => simp [htlv,hgot,hc,bind,Except.bind,pure,Except.pure] at h
      | ok c =>
        simp [htlv,hgot,hc,bind,Except.bind,pure,Except.pure] at h
        obtain ⟨rfl,rfl⟩ := h
        exact ⟨content,by rw [hgot],hc⟩
    · simp [htlv,hgot,bind,Except.bind,throw,throwThe,MonadExceptOf.throw] at h

theorem parseCertificate_shorter (h : parseCertificate der = .ok (cert,rest)) : rest.length < der.length := by
  obtain ⟨content,htlv,-⟩ := parseCertificate_eq_ok h
  exact derTlv_shorter htlv

theorem parseCertificate_append (h : parseCertificate der = .ok (cert,rest)) (more : List UInt8) :
    parseCertificate (der ++ more) = .ok (cert,rest ++ more) := by
  obtain ⟨content,htlv,hc⟩ := parseCertificate_eq_ok h
  simp [parseCertificate,derExpect,(derTlv_append htlv more).2,hc,bind,Except.bind,pure,Except.pure]

def skipElements : Nat → List UInt8 → Except DerError (List UInt8)
  | 0, cur => .ok cur
  | n+1, cur => do
    let (_,rest) ← derElement cur
    skipElements n rest

/-- Drop the optional unique identifiers `[1]` and `[2]`; every one takes at
least one byte, so `n` is the length of the buffer. -/
def skipUniqueIds : Nat → List UInt8 → Except DerError (List UInt8)
  | 0, cur => .ok cur
  | n+1, cur =>
    if cur = [] then .ok cur
    else do
      let (tag,_,rest) ← derTlv cur
      if tag = 0x81 ∨ tag = 0x82 then skipUniqueIds n rest else return cur

def findInExtensions (oid : List UInt8) :
    List (Except DerError (UInt8 × List UInt8)) → Except DerError (Option (List UInt8))
  | [] => .ok none
  | .error e :: _ => .error e
  | .ok (tag,extContent) :: exts => do
    if tag ≠ tagSequence then throw (.unexpectedTag tagSequence tag)
    let (extOid,rest) ← derExpect extContent tagOid
    if extOid = oid then
      -- The critical flag is optional.
      let r := match derTlv rest with
        | .ok (t,_,rest₂) => if t = tagBoolean then rest₂ else rest
        | .error _ => rest
      let (octet,_) ← derExpect r tagOctetString
      return some octet
    else findInExtensions oid exts

def findExtension (cert : Certificate) (oid : List UInt8) : Except DerError (Option (List UInt8)) := do
  let (tbsContent,_) ← derExpect cert.tbs tagSequence
  let cur := match derTlv tbsContent with
    | .ok (t,_,rest) => if t = 0xa0 then rest else tbsContent
    | .error _ => tbsContent
  let cur ← skipElements 6 cur
  let cur ← skipUniqueIds cur.length cur
  if cur = [] then return none
  let (tag,inner,_) ← derTlv cur
  if tag ≠ 0xa3 then return none
  let (extSeq,_) ← derExpect inner tagSequence
  findInExtensions oid (derChildren extSeq)

def parseBasicConstraints (der : List UInt8) : Except DerError Bool := do
  let (content,_) ← derExpect der tagSequence
  if content = [] then return false
  let (tag,c,_) ← derTlv content
  if tag ≠ tagBoolean then throw (.unexpectedTag tagBoolean tag)
  match c with
  | [0x00] => return false
  | [0xff] => return true
  | _ => throw .badCert

end PaghOS.Tls
