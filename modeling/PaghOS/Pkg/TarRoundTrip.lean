import Mathlib.Order.Lattice
import PaghOS.Pkg.Tar

/-!
What `read_tar` makes of an archive of `write_tar_members`: the numbers and fields of a
header, one header, one member, the whole list.
-/

namespace PaghOS.Pkg
open List hiding utf8Encode
open Option

open Bytes
open Check
open Text
open Vfs

section Numbers

def octalLim : Nat → Nat
  | 0 => 1
  | n+1 => 8*octalLim n

@[simp] theorem length_octalDigits (n value : Nat) : (octalDigits n value).length = n := by
  induction n generalizing value with
  | zero => rfl
  | succ n ih => simp [octalDigits,ih]

theorem parseOctalGo_digit {acc d : Nat} {started : Bool} (hd : d < 8)
    (hfit : acc*8+d < 18446744073709551616) (field : List UInt8) :
    parseOctalGo acc started false (UInt8.ofNat (48+d) :: field) =
      parseOctalGo (acc*8+d) true false field := by
  have hb : (UInt8.ofNat (48+d)).toNat = 48+d := toNat_byte (by omega)
  have hne : ∀ k : UInt8, k.toNat < 48 → UInt8.ofNat (48+d) ≠ k := by
    intro k hk h
    rw [← h,hb] at hk
    omega
  have hdigit : 48 ≤ UInt8.ofNat (48+d) ∧ UInt8.ofNat (48+d) ≤ 55 := by
    rw [UInt8.le_iff_toNat_le,UInt8.le_iff_toNat_le,hb]
    exact ⟨by simp,by simp; omega⟩
  have hval : (UInt8.ofNat (48+d)-48).toNat = d := by
    rw [UInt8.toNat_sub_of_le _ _ hdigit.1,hb]
    simp
  rw [parseOctalGo,if_neg (hne 32 (by decide)),if_neg (hne 0 (by decide)),if_pos hdigit,hval]
  simp [hfit]

theorem parseOctalGo_octalDigits (n acc : Nat) {value : Nat} (started : Bool)
    (hvalue : value < octalLim n) (hfit : acc*octalLim n+value < 18446744073709551616) (field : List UInt8) :
    ∃ started', parseOctalGo acc started false (octalDigits n value ++ field) =
      parseOctalGo (acc*octalLim n+value) started' false field := by
  induction n generalizing value field with
  | zero =>
    simp only [octalLim] at hvalue ⊢
    exact ⟨started,by simp [octalDigits,show value = 0 by omega]⟩
  | succ n ih =>
    simp only [octalLim] at hvalue hfit ⊢
    rw [octalDigits,append_assoc]
    have hsplit : acc*(8*octalLim n) = acc*octalLim n*8 := by
      rw [Nat.mul_comm 8,Nat.mul_assoc]
    have hhigh : value/8 < octalLim n := by omega
    obtain ⟨started',h⟩ := ih hhigh (by omega) ([UInt8.ofNat (48+value%8)] ++ field)
    refine ⟨true,?_⟩
    rw [h,singleton_append,parseOctalGo_digit (by omega) (by omega)]
    congr 1
    omega

theorem parseOctal_octalDigits {n value : Nat} (hvalue : value < octalLim n)
    (hfit : value < 18446744073709551616) {tail : List UInt8}
    (htail : tail = [0] ∨ tail = [0,32]) : parseOctal (octalDigits n value ++ tail) = some value := by
  obtain ⟨started,h⟩ := parseOctalGo_octalDigits n 0 false hvalue (by omega) tail
  rw [parseOctal,h,Nat.zero_mul,Nat.zero_add]
  rcases htail with rfl | rfl <;> cases started <;> rfl

theorem headerChecksum_congr {a b : List UInt8} (h : ∀ i, (i < 148 ∨ 156 ≤ i) → a.getD i 0 = b.getD i 0) :
    headerChecksum a = headerChecksum b := by
  unfold headerChecksum
  congr 1
  funext sum i
  split
  · rfl
  · rw [h i (by omega)]

theorem headerChecksum_lt (block : List UInt8) : headerChecksum block < octalLim 6 := by
  have hstep : ∀ (is : List Nat) (sum : Nat),
      is.foldl (fun sum i => if 148 ≤ i ∧ i < 156 then sum+32
        else sum+(block.getD i 0).toNat) sum ≤ sum+is.length*255 := by
    intro is
    induction is with
    | nil => simp
    | cons i is ih =>
      intro sum
      have hb := (block.getD i 0).toNat_lt
      rw [foldl_cons,length_cons]
      refine (ih _).trans ?_
      split <;> omega
  have h := hstep (List.range tarBlock) 0
  rw [length_range] at h
  simp only [headerChecksum,octalLim,tarBlock] at h ⊢
  omega

end Numbers

section Header

variable (name : Path) (mode : Nat) (typeflag : UInt8) (link front : Path) (size : Nat)

def headerWrites : List (Nat × List UInt8) :=
  [(0,(utf8Encode name).take 100),(100,octalDigits 7 mode ++ [0]),(156,[typeflag]),
    (157,(utf8Encode link).take 100),(257,[117,115,116,97,114,0]),(263,[48,48]),
    (345,(utf8Encode front).take 155),(124,octalDigits 11 size ++ [0]),(148,List.replicate 8 32)]

def unsigned : List UInt8 :=
  patchAll (List.replicate tarBlock 0) (headerWrites name mode typeflag link front size)

def storedSum : List UInt8 :=
  octalDigits 6 (headerChecksum (unsigned name mode typeflag link front size)) ++ [0,32]

theorem tarHeader_eq : tarHeader name mode typeflag link front size =
    patchAll (List.replicate tarBlock 0) (headerWrites name mode typeflag link front size ++
      [(148,storedSum name mode typeflag link front size)]) := rfl

variable {name mode typeflag link front size}

theorem headerWrites_fit : ∀ w ∈ headerWrites name mode typeflag link front size ++
    [(148,storedSum name mode typeflag link front size)],
      w.1+w.2.length ≤ (List.replicate tarBlock (0 : UInt8)).length := by
  rw [length_replicate,tarBlock]
  simp only [headerWrites,storedSum,cons_append,nil_append,forall_mem_cons,
    length_append,length_take,length_cons,length_nil,length_octalDigits,length_replicate]
  refine ⟨by omega,by omega,by omega,by omega,by omega,by omega,by omega,by omega,by omega,
    by omega,?_⟩
  simp

@[simp] theorem length_tarHeader : (tarHeader name mode typeflag link front size).length = 512 := by
  rw [tarHeader_eq,length_patchAll headerWrites_fit,length_replicate,tarBlock]

theorem slice_tarHeader {off : Nat} (n : Nat) (new : List UInt8) (before after : List (Nat × List UInt8))
    (hwrites : headerWrites name mode typeflag link front size ++
      [(148,storedSum name mode typeflag link front size)] = before ++ (off,new) :: after)
    (hfield : new.length ≤ n ∧ off+n ≤ 512)
    (hbefore : ∀ w ∈ before, off+n ≤ w.1 ∨ w.1+w.2.length ≤ off+new.length)
    (hafter : ∀ w ∈ after, off+n ≤ w.1 ∨ w.1+w.2.length ≤ off) :
    slice (tarHeader name mode typeflag link front size) off n = new ++ List.replicate (n-new.length) 0 := by
  rw [tarHeader_eq,hwrites,slice_patchAll before after (hwrites ▸ headerWrites_fit) hfield.1 hbefore hafter]
  simp only [slice,drop_replicate,take_replicate,tarBlock]
  rw [Nat.min_eq_left (by omega)]

theorem slice_name : slice (tarHeader name mode typeflag link front size) 0 100 =
    (utf8Encode name).take 100 ++ List.replicate (100-((utf8Encode name).take 100).length) 0 :=
  slice_tarHeader 100 _ [] _ rfl (by simp) (by simp) (by simp)

theorem slice_linkname : slice (tarHeader name mode typeflag link front size) 157 100 =
    (utf8Encode link).take 100 ++ List.replicate (100-((utf8Encode link).take 100).length) 0 :=
  slice_tarHeader 100 _ [_,_,_] _ rfl (by simp) (by simp; omega) (by simp [storedSum])

theorem slice_front : slice (tarHeader name mode typeflag link front size) 345 155 =
    (utf8Encode front).take 155 ++ List.replicate (155-((utf8Encode front).take 155).length) 0 :=
  slice_tarHeader 155 _ [_,_,_,_,_,_] _ rfl (by simp) (by simp; omega) (by simp [storedSum])

theorem slice_mode : slice (tarHeader name mode typeflag link front size) 100 8 =
    octalDigits 7 mode ++ [0] := by
  rw [slice_tarHeader 8 (octalDigits 7 mode ++ [0]) [_] _ rfl (by simp) (by simp) (by simp [storedSum])]
  simp

theorem slice_size : slice (tarHeader name mode typeflag link front size) 124 12 =
    octalDigits 11 size ++ [0] := by
  rw [slice_tarHeader 12 (octalDigits 11 size ++ [0]) [_,_,_,_,_,_,_] _ rfl (by simp)
    (by simp) (by simp [storedSum])]
  simp

theorem slice_chksum : slice (tarHeader name mode typeflag link front size) 148 8 =
    storedSum name mode typeflag link front size := by
  have hlen : (storedSum name mode typeflag link front size).length = 8 := by simp [storedSum]
  rw [slice_tarHeader 8 (storedSum name mode typeflag link front size) [_,_,_,_,_,_,_,_,_] [] rfl
    (by omega) (by simp [hlen]) (by simp),hlen]
  simp

theorem head?_slice {n : Nat} (hn : n ≠ 0) (bs : List UInt8) (off : Nat) :
    (slice bs off n).head? = bs[off]? := by
  rw [slice,head?_take,if_neg hn,head?_drop]

theorem getD_typeflag : (tarHeader name mode typeflag link front size).getD 156 0 = typeflag := by
  rw [getD_eq_getElem?_getD,← head?_slice Nat.one_ne_zero,
    slice_tarHeader 1 [typeflag] [_,_] _ rfl (by simp) (by simp) (by simp [storedSum])]
  rfl

theorem headerChecksum_tarHeader : headerChecksum (tarHeader name mode typeflag link front size) =
      headerChecksum (unsigned name mode typeflag link front size) := by
  have hlen : (unsigned name mode typeflag link front size).length = 512 := by
    rw [unsigned,length_patchAll,length_replicate,tarBlock]
    intro w hw
    exact headerWrites_fit w (mem_append_left _ hw)
  have hpatch : tarHeader name mode typeflag link front size =
      patch (unsigned name mode typeflag link front size) 148
        (storedSum name mode typeflag link front size) := by
    rw [tarHeader_eq,patchAll,foldl_append]
    rfl
  rw [hpatch]
  apply headerChecksum_congr
  intro i hi
  have hsum : (storedSum name mode typeflag link front size).length = 8 := by simp [storedSum]
  exact getD_patch_of_outside (by omega) (by omega)

end Header

section Content

theorem nulTrim_append_zeros {bs : List UInt8} (h : 0 ∉ bs) (k : Nat) :
    nulTrim (bs ++ List.replicate k 0) = bs := by
  have hzeros : ∀ c ∈ List.replicate k (0 : UInt8), decide (c = 0) = true := by simp
  rw [nulTrim,rdropWhile_append_of_all _ hzeros,rdropWhile_eq_self_iff]
  intro hne
  have hlast : bs.getLast hne ≠ 0 := fun h0 => h (h0 ▸ getLast_mem hne)
  simpa using hlast

theorem padded_eq (data : List UInt8) :
    padded data = data ++ List.replicate ((padded data).length-data.length) 0 := by
  unfold padded
  split <;> simp

theorem length_padded (data : List UInt8) : (padded data).length = (data.length+511)/512*512 := by
  unfold padded
  split
  · rename_i h
    rw [tarBlock] at h
    omega
  rename_i h
  rw [tarBlock] at h
  rw [length_append,length_replicate,tarBlock]
  omega

variable {name : Path} {mode : Nat} {typeflag : UInt8} {link front : Path} {content : List UInt8}

/-- The header of a member as it is read back. -/
def rawOf (name : Path) (mode : Nat) (typeflag : UInt8) (link front : Path) (content next : List UInt8) :
    RawHeader :=
  let header := tarHeader name mode typeflag link front content.length
  ⟨slice header 0 100,slice header 345 155,mode,typeflag,slice header 157 100,content,next⟩

theorem readFields_tarHeader (hmode : mode < octalLim 7) (hsize : content.length < octalLim 11)
    (rest : List UInt8) :
    readFields (tarHeader name mode typeflag link front content.length ++ (padded content ++ rest)) =
      .ok (rawOf name mode typeflag link front content rest) := by
  have hlim7 : octalLim 7 = 2097152 := rfl
  have hlim11 : octalLim 11 = 8589934592 := rfl
  have hsum : headerChecksum (unsigned name mode typeflag link front content.length) <
      octalLim 6 := headerChecksum_lt _
  have hlim6 : octalLim 6 = 262144 := rfl
  have hpadded := length_padded content
  have hround : roundToBlock content.length = some (padded content).length := by
    rw [roundToBlock,if_pos (by omega),hpadded,tarBlock]
  have hlen : (tarHeader name mode typeflag link front content.length).length = tarBlock := length_tarHeader
  rw [readFields]
  set header := tarHeader name mode typeflag link front content.length with hheader
  have hblock : (header ++ (padded content ++ rest)).take tarBlock = header := take_left' hlen
  have hcontent : slice (header ++ (padded content ++ rest)) tarBlock content.length = content := by
    rw [slice,drop_left' hlen,padded_eq,append_assoc,take_left]
  have hnext : (header ++ (padded content ++ rest)).drop (tarBlock+(padded content).length) = rest := by
    rw [← append_assoc]
    exact drop_left' (by rw [length_append,hlen])
  have hfits : tarBlock+(padded content).length ≤ (header ++ (padded content ++ rest)).length := by
    rw [length_append,length_append,hlen]
    omega
  have hfits' : tarBlock+content.length ≤ (header ++ (padded content ++ rest)).length := by omega
  rw [hheader] at hblock hcontent hnext hfits hfits' ⊢
  simp only [hblock,slice_chksum,slice_size,slice_mode,getD_typeflag,
    storedSum,headerChecksum_tarHeader,parseOctal_octalDigits hsum (by omega) (.inr rfl),
    parseOctal_octalDigits hsize (by omega) (.inl rfl),parseOctal_octalDigits hmode (by omega) (.inl rfl),
    demand_some,ok_bind,ensure_of,hfits,hfits',hcontent,hround,hnext,getD_some,rawOf]

end Content

section Loop

variable {rest : List UInt8}

def readFrom (pending : Pending) (rest : List UInt8) : Except TarError (List TarEntry) :=
  readLoop rest.length pending rest

theorem length_of_readFields {raw : RawHeader} (h : readFields rest = .ok raw) :
    tarBlock ≤ rest.length ∧ raw.next.length < rest.length := by
  simp only [readFields,bind_eq_ok,ensure_eq_ok] at h
  obtain ⟨_,-,_,-,_,-,_,-,padded,-,_,hfits,h⟩ := h
  cases h
  simp only [length_drop,tarBlock] at hfits ⊢
  omega

theorem length_next_lt {raw : RawEntry} (h : readHeader rest = .ok raw) :
    raw.next.length < rest.length := by
  simp only [readHeader,RawHeader.decode,bind_eq_ok] at h
  obtain ⟨fields,hfields,_,-,_,-,h⟩ := h
  cases h
  exact (length_of_readFields hfields).2

theorem readLoop_eq (n m : Nat) {pending : Pending} (hn : rest.length ≤ n)
    (hm : rest.length ≤ m) : readLoop n pending rest = readLoop m pending rest := by
  induction n generalizing m pending rest with
  | zero =>
    obtain rfl := length_eq_zero_iff.mp (by omega : rest.length = 0)
    cases m <;> simp [readLoop]
  | succ n ih =>
    cases m with
    | zero =>
      obtain rfl := length_eq_zero_iff.mp (by omega : rest.length = 0)
      simp [readLoop]
    | succ m =>
      by_cases hne : rest = []
      · simp [readLoop,hne]
      simp only [readLoop,hne]
      cases hraw : readHeader rest with
      | error e => rfl
      | ok raw =>
        have hlt := length_next_lt hraw
        have hnext : ∀ p, readLoop n p raw.next = readLoop m p raw.next :=
          fun p => ih m (by omega) (by omega)
        simp [ok_bind,hnext]

theorem readFrom_of_header (hlen : tarBlock ≤ rest.length)
    (hfirst : rest.getD 0 0 ≠ 0) (pending : Pending) :
    readFrom pending rest = readHeader rest >>= fun raw => takeEntry pending raw >>= fun r =>
      readFrom r.1 raw.next >>= fun entries => .ok (r.2.toList ++ entries) := by
  have hne : rest ≠ [] := by
    rintro rfl
    simp [tarBlock] at hlen
  obtain ⟨n,hn⟩ := Nat.exists_eq_succ_of_ne_zero (Nat.pos_iff_ne_zero.mp (length_pos_iff.mpr hne))
  rw [readFrom,hn,readLoop,if_neg hne,if_neg (by omega),if_neg hfirst]
  cases hraw : readHeader rest with
  | error e => rfl
  | ok raw =>
    have hlt := length_next_lt hraw
    simp only [ok_bind]
    congr 1
    funext r
    rw [readFrom,readLoop_eq n raw.next.length (by omega) le_rfl]

end Loop

section Members

variable {name : Path} {mode : Nat} {typeflag : UInt8} {link front : Path} {size : Nat}
  {content : List UInt8}

theorem first_tarHeader (hne : name ≠ []) (hname : '\x00' ∉ name) (rest : List UInt8) :
    (tarHeader name mode typeflag link front size ++ rest).getD 0 0 ≠ 0 := by
  obtain ⟨b,bs,hb⟩ := exists_cons_of_ne_nil (mt utf8Encode_eq_nil.mp hne)
  rw [getD_eq_getElem?_getD,getElem?_append_left (by simp),← head?_slice (n := 100) (by decide),
    slice_name,hb,take_succ_cons,cons_append,head?_cons]
  intro h0
  apply zero_not_mem_utf8Encode hname
  rw [hb,← h0]
  simp

theorem readFrom_tarHeader (hne : name ≠ []) (hname : '\x00' ∉ name) (hfront : '\x00' ∉ front)
    (hmode : mode < octalLim 7) (hsize : content.length < octalLim 11) (pending : Pending)
    (rest : List UInt8) : readFrom pending (tarHeader name mode typeflag link front content.length ++
        (padded content ++ rest)) =
      (demand (utf8Decode ((utf8Encode name).take 100)) .lengthInconsistent >>= fun n =>
        demand (utf8Decode ((utf8Encode front).take 155)) .lengthInconsistent >>= fun p =>
          takeEntry pending ⟨n,p,mode,typeflag,
              slice (tarHeader name mode typeflag link front content.length) 157 100,content,rest⟩ >>=
            fun r => readFrom r.1 rest >>= fun entries => .ok (r.2.toList ++ entries)) := by
  have hname0 : 0 ∉ (utf8Encode name).take 100 :=
    fun h => zero_not_mem_utf8Encode hname (mem_of_mem_take h)
  have hfront0 : 0 ∉ (utf8Encode front).take 155 :=
    fun h => zero_not_mem_utf8Encode hfront (mem_of_mem_take h)
  rw [readFrom_of_header (by simp [tarBlock]) (first_tarHeader hne hname _),readHeader,
    readFields_tarHeader hmode hsize,ok_bind,RawHeader.decode,rawOf,slice_name,slice_front,
    nulTrim_append_zeros hname0,nulTrim_append_zeros hfront0]
  cases utf8Decode ((utf8Encode name).take 100) with
  | none => rfl
  | some n =>
    cases utf8Decode ((utf8Encode front).take 155) with
    | none => rfl
    | some p => simp only [demand_some,ok_bind]

theorem readFrom_longLink {value : Path} (hvalue : '\x00' ∉ value)
    (hfits : (utf8Encode value).length+1 < octalLim 11) (pending : Pending) (rest : List UInt8) :
    readFrom pending (longLink 76 value ++ rest) = readFrom { pending with nextPath := some value } rest ∧
      readFrom pending (longLink 75 value ++ rest) =
        readFrom { pending with nextLink := some value } rest := by
  have hdecode : strFromNulPadded (utf8Encode value ++ [0]) = .ok value := by
    rw [strFromNulPadded,show ([0] : List UInt8) = List.replicate 1 0 from rfl,
      nulTrim_append_zeros (zero_not_mem_utf8Encode hvalue),utf8Decode_utf8Encode,demand_some]
  have hlong : '\x00' ∉ "././@LongLink".toList := by decide +kernel
  have hname : utf8Decode ((utf8Encode "././@LongLink".toList).take 100) =
      some "././@LongLink".toList := by decide +kernel
  have hsize : (utf8Encode value ++ [0]).length < octalLim 11 := by simpa using hfits
  have hread : ∀ flag, ∃ linkname, readFrom pending (longLink flag value ++ rest) =
      takeEntry pending ⟨"././@LongLink".toList,[],0,flag,linkname,utf8Encode value ++ [0],rest⟩ >>=
        fun r => readFrom r.1 rest >>= fun entries => .ok (r.2.toList ++ entries) := by
    intro flag
    have hlen : (utf8Encode value).length+1 = (utf8Encode value ++ [0]).length := by simp
    rw [longLink,append_assoc,hlen,readFrom_tarHeader (by decide +kernel) hlong
      not_mem_nil (by decide) hsize,hname,demand_some,ok_bind,Text.utf8Encode_nil,take_nil]
    exact ⟨_,rfl⟩
  have hskip : ∀ p, (readFrom p rest >>= fun entries =>
      .ok ((none : Option TarEntry).toList ++ entries)) = readFrom p rest := by
    intro p
    cases readFrom p rest <;> rfl
  constructor
  · obtain ⟨linkname,h⟩ := hread 76
    rw [h,takeEntry,if_pos rfl,hdecode,ok_bind,ok_bind,hskip]
  · obtain ⟨linkname,h⟩ := hread 75
    have hK : ¬ (75 : UInt8) = 76 := by decide
    rw [h,takeEntry,if_neg hK,if_pos rfl,hdecode,ok_bind,ok_bind,hskip]

def TarMember.kind : TarMember → TarType
  | .file .. => .regular
  | .directory .. => .directory
  | .symlink .. => .symlink
  | .hardlink .. => .hardlink

theorem takeEntry_member (m : TarMember) (pending : Pending) (n p : Path) (linkname next : List UInt8) :
    takeEntry pending ⟨n,p,420,m.typeflag,linkname,m.content,next⟩ =
      (linkTarget pending m.kind linkname >>= fun l =>
        .ok ({ pending with nextPath := none, nextLink := none },
          some ⟨(pending.nextPath.or pending.globalPath).getD n,p,m.kind,420,m.content,l⟩)) := by
  cases m <;> rfl

end Members

section Names

variable {path : Path} {format : TarFormat}

theorem longPathSplit_eq {front name : Path} (h : longPathSplit path format = some (front,name)) :
    path = front ++ '/' :: name ∧ name ≠ [] ∧ (utf8Encode name).length ≤ 100 ∧
      (utf8Encode front).length ≤ 155 := by
  unfold longPathSplit at h
  split at h
  · cases h
  split at h
  · cases h
  rename_i hslash
  simp only [ite_none_right_eq_some,some.injEq,Prod.mk.injEq] at h
  obtain ⟨hfields,rfl,rfl⟩ := h
  refine ⟨?_,hfields⟩
  have hne : path.rdropWhile (· ≠ '/') ≠ [] := by
    intro hnil
    rw [rdropWhile_eq_nil_iff] at hnil
    exact absurd (hnil '/' (by simpa using hslash)) (by decide)
  have hlast := rdropWhile_last_not (· ≠ '/') path hne
  have hslash' : (path.rdropWhile (· ≠ '/')).getLast hne = '/' := by simpa using hlast
  have hfull : path = path.rdropWhile (· ≠ '/') ++ path.rtakeWhile (· ≠ '/') := by
    have := congrArg List.reverse (takeWhile_append_dropWhile (l := path.reverse)
      (p := fun c => decide (c ≠ '/')))
    rw [reverse_append,reverse_reverse] at this
    exact this.symm
  conv_lhs => rw [hfull,← dropLast_append_getLast hne,hslash']
  simp

def sentPath (path : Path) (format : TarFormat) : Option Path :=
  if 100 < (utf8Encode path).length ∧ longPathSplit path format = none then some path else none

def sentLink (link : Path) : Option Path :=
  if 100 < (utf8Encode link).length then some link else none

/-- When the way a path goes keeps it: a split leaves a prefix, a cut a whole text. -/
structure PathWhole (path : Path) (format : TarFormat) : Prop where
  split : ∀ front name, 100 < (utf8Encode path).length →
    longPathSplit path format = some (front,name) → front ≠ []
  cut : 100 < (utf8Encode path).length → longPathSplit path format = none → CharBoundary path 100

def joined (front name : Path) : Path := if front = [] then name else front ++ '/' :: name

/-- The name field is read and the entry has its path back. -/
def PathReturns (path : Path) (format : TarFormat) : Prop :=
  ∃ n, utf8Decode ((utf8Encode (pathParts path format).2.2).take 100) = some n ∧
    joined (pathParts path format).2.1 ((sentPath path format).getD n) = path

theorem pathReturns_iff : PathReturns path format ↔ PathWhole path format := by
  by_cases hlong : 100 < (utf8Encode path).length
  · cases hsplit : longPathSplit path format with
    | none =>
      have hparts : pathParts path format = (longLink 76 path,[],path) := by
        rw [pathParts,if_pos hlong,hsplit]
      have hsent : sentPath path format = some path := if_pos ⟨hlong,hsplit⟩
      have hcut := utf8Decode_take_isSome_iff (s := path) (n := 100) (by omega)
      rw [PathReturns,hparts,hsent]
      constructor
      · rintro ⟨n,hn,-⟩
        constructor
        · intro front name _ h
          cases hsplit.symm.trans h
        · intro _ _
          exact hcut.mp (isSome_of_eq_some hn)
      · intro h
        obtain ⟨n,hn⟩ := isSome_iff_exists.mp (hcut.mpr (h.cut hlong hsplit))
        exact ⟨n,hn,rfl⟩
    | some parts =>
      obtain ⟨front,name⟩ := parts
      obtain ⟨hpath,-,hname,-⟩ := longPathSplit_eq hsplit
      have hparts : pathParts path format = ([],front,name) := by
        rw [pathParts,if_pos hlong,hsplit]
      have hsent : sentPath path format = none := by simp [sentPath,hsplit]
      have hdecode : utf8Decode ((utf8Encode name).take 100) = some name := by
        rw [take_of_length_le hname,utf8Decode_utf8Encode]
      rw [PathReturns,hparts,hsent]
      constructor
      · rintro ⟨n,hn,hjoin⟩
        constructor
        · rintro front' name' - h
          cases hsplit.symm.trans h
          rintro rfl
          cases hdecode.symm.trans hn
          -- Without a prefix the slash is gone.
          have := congrArg List.length (hjoin.trans hpath)
          simp [joined] at this
        · intro _ h
          cases hsplit.symm.trans h
      · intro h
        refine ⟨name,hdecode,?_⟩
        rw [getD_none,joined,if_neg (h.split front name hlong hsplit),← hpath]
  · have hparts : pathParts path format = ([],[],path) := by rw [pathParts,if_neg hlong]
    have hsent : sentPath path format = none := if_neg fun h => hlong h.1
    have hdecode : utf8Decode ((utf8Encode path).take 100) = some path := by
      rw [take_of_length_le (by omega),utf8Decode_utf8Encode]
    rw [PathReturns,hparts,hsent]
    constructor
    · intro
      exact ⟨fun _ _ h => absurd h hlong,fun h => absurd h hlong⟩
    · intro
      exact ⟨path,hdecode,rfl⟩

def LinkWhole (link : Path) : Prop := 100 < (utf8Encode link).length → CharBoundary link 100

def LinkReturns (link : Path) : Prop :=
  ∃ n, utf8Decode ((utf8Encode link).take 100) = some n ∧ (sentLink link).getD n = link

theorem linkReturns_iff {link : Path} : LinkReturns link ↔ LinkWhole link := by
  by_cases hlong : 100 < (utf8Encode link).length
  · have hcut := utf8Decode_take_isSome_iff (s := link) (n := 100) (by omega)
    have hsent : sentLink link = some link := if_pos hlong
    rw [LinkReturns,hsent]
    constructor
    · rintro ⟨n,hn,-⟩ -
      exact hcut.mp (isSome_of_eq_some hn)
    · intro h
      obtain ⟨n,hn⟩ := isSome_iff_exists.mp (hcut.mpr (h hlong))
      exact ⟨n,hn,rfl⟩
  · have hdecode : utf8Decode ((utf8Encode link).take 100) = some link := by
      rw [take_of_length_le (by omega),utf8Decode_utf8Encode]
    have hsent : sentLink link = none := if_neg hlong
    exact ⟨fun _ h => absurd h hlong,fun _ => ⟨link,hdecode,by rw [hsent]; rfl⟩⟩

end Names

structure Shown where
  path : Path
  kind : TarType
  link : Path
  mode : Nat
  content : List UInt8
  deriving DecidableEq

def TarEntry.shown (e : TarEntry) : Shown :=
  ⟨effectivePath e,e.kind,e.linkTarget,e.mode,e.content⟩

def TarMember.shown (m : TarMember) : Shown := ⟨m.path,m.kind,m.link,420,m.content⟩

structure TarMember.Valid (m : TarMember) : Prop where
  path_ne : m.path ≠ []
  path_nul : '\x00' ∉ m.path
  link_nul : '\x00' ∉ m.link
  content_lt : m.content.length < 8589934592

/-- What goes through an extension header has a length its size field can hold. -/
structure TarMember.Fits (format : TarFormat) (m : TarMember) : Prop where
  path : 100 < (utf8Encode m.path).length → longPathSplit m.path format = none →
    (utf8Encode m.path).length+1 < 8589934592
  link : 100 < (utf8Encode m.link).length → (utf8Encode m.link).length+1 < 8589934592

def TarMember.Whole (format : TarFormat) (m : TarMember) : Prop :=
  PathWhole m.path format ∧ LinkWhole m.link

section Members

variable {format : TarFormat} {m : TarMember}

theorem readFrom_pathParts (hv : m.Valid) (hf : m.Fits format) (rest : List UInt8) :
    readFrom {} ((pathParts m.path format).1 ++ rest) =
      readFrom { nextPath := sentPath m.path format } rest := by
  unfold pathParts sentPath
  by_cases hlong : 100 < (utf8Encode m.path).length
  · cases hsplit : longPathSplit m.path format with
    | none =>
      rw [if_pos hlong,if_pos ⟨hlong,rfl⟩]
      exact (readFrom_longLink hv.path_nul (hf.path hlong hsplit) _ rest).1
    | some parts =>
      rw [if_pos hlong,if_neg (by simp)]
      rfl
  · rw [if_neg hlong,if_neg fun h => hlong h.1]
    rfl

theorem readFrom_linkExt (hv : m.Valid) (hf : m.Fits format) (pending : Pending)
    (hpending : pending.nextLink = none) (rest : List UInt8) :
    readFrom pending ((if m.link ≠ [] ∧ 100 < (utf8Encode m.link).length then longLink 75 m.link
      else []) ++ rest) = readFrom { pending with nextLink := sentLink m.link } rest := by
  unfold sentLink
  by_cases hlong : 100 < (utf8Encode m.link).length
  · have hne : m.link ≠ [] := by
      intro h
      simp [h] at hlong
    rw [if_pos ⟨hne,hlong⟩,if_pos hlong]
    exact (readFrom_longLink hv.link_nul (hf.link hlong) _ rest).2
  · rw [if_neg fun h => hlong h.2,if_neg hlong,← hpending]
    rfl

theorem pathParts_fields (hv : m.Valid) (format : TarFormat) :
    (pathParts m.path format).2.2 ≠ [] ∧ '\x00' ∉ (pathParts m.path format).2.2 ∧
    '\x00' ∉ (pathParts m.path format).2.1 ∧
    utf8Decode ((utf8Encode (pathParts m.path format).2.1).take 155) =
      some (pathParts m.path format).2.1 := by
  unfold pathParts
  split
  · cases hsplit : longPathSplit m.path format with
    | none => exact ⟨hv.path_ne,hv.path_nul,by simp,rfl⟩
    | some parts =>
      obtain ⟨front,name⟩ := parts
      obtain ⟨hpath,hname,-,hfront⟩ := longPathSplit_eq hsplit
      have hnul := hv.path_nul
      rw [hpath] at hnul
      simp only [mem_append,mem_cons,not_or] at hnul
      refine ⟨hname,hnul.2.2,hnul.1,?_⟩
      rw [take_of_length_le hfront,utf8Decode_utf8Encode]
  · exact ⟨hv.path_ne,hv.path_nul,by simp,rfl⟩

theorem linkTarget_member (hv : m.Valid) (path : Option Path) (k : Nat) (target : Path) :
    linkTarget { nextPath := path, nextLink := sentLink m.link } m.kind
        ((utf8Encode m.link).take 100 ++ List.replicate k 0) = .ok target ↔
      ∃ h, utf8Decode ((utf8Encode m.link).take 100) = some h ∧ (sentLink m.link).getD h = target := by
  have hnul : 0 ∉ (utf8Encode m.link).take 100 :=
    fun h => zero_not_mem_utf8Encode hv.link_nul (mem_of_mem_take h)
  have hlink : (m.kind = .symlink ∨ m.kind = .hardlink) ∨
      ¬ (m.kind = .symlink ∨ m.kind = .hardlink) ∧ m.link = [] := by
    cases m <;> simp [TarMember.kind,TarMember.link]
  rw [linkTarget,nulTrim_append_zeros hnul]
  rcases hlink with hkind | ⟨hkind,hnil⟩
  · rw [if_pos hkind]
    simp
  · rw [if_neg hkind,hnil]
    simp [sentLink,show utf8Decode [] = some [] from rfl]

theorem readFrom_writeMember (hv : m.Valid) (hf : m.Fits format) (rest : List UInt8)
    (entries : List TarEntry) : readFrom {} (writeMember format m ++ rest) = .ok entries ↔
      ∃ n h tail, utf8Decode ((utf8Encode (pathParts m.path format).2.2).take 100) = some n ∧
        utf8Decode ((utf8Encode m.link).take 100) = some h ∧ readFrom {} rest = .ok tail ∧
        entries = ⟨(sentPath m.path format).getD n,(pathParts m.path format).2.1,m.kind,420,
          m.content,(sentLink m.link).getD h⟩ :: tail := by
  obtain ⟨hne,hname,hfront,hfrontRead⟩ := pathParts_fields hv format
  have hshape : writeMember format m ++ rest = (pathParts m.path format).1 ++
      ((if m.link ≠ [] ∧ 100 < (utf8Encode m.link).length then longLink 75 m.link else []) ++
      (tarHeader (pathParts m.path format).2.2 420 m.typeflag m.link (pathParts m.path format).2.1
        m.content.length ++ (padded m.content ++ rest))) := by
    simp [writeMember]
  rw [hshape,readFrom_pathParts hv hf,readFrom_linkExt hv hf _ rfl,
    readFrom_tarHeader hne hname hfront (by decide) hv.content_lt,hfrontRead,slice_linkname]
  simp only [takeEntry_member,demand_some,ok_bind,bind_eq_ok,demand_eq_ok]
  constructor
  · rintro ⟨n,hn,r,⟨l,hl,hr⟩,tail,htail,heq⟩
    obtain ⟨h,hdecode,rfl⟩ := (linkTarget_member hv _ _ _).mp hl
    cases hr
    cases heq
    exact ⟨n,h,tail,hn,hdecode,htail,by simp⟩
  · rintro ⟨n,h,tail,hn,hdecode,htail,rfl⟩
    exact ⟨n,hn,_,⟨_,(linkTarget_member hv _ _ _).mpr ⟨h,hdecode,rfl⟩,rfl⟩,tail,htail,by simp⟩

end Members

/-- The archive of the members is read as their list. -/
def RoundTrip (members : List TarMember) (format : TarFormat) : Prop :=
  ∃ entries, readTar (writeTarMembers members format) = .ok entries ∧
    entries.map TarEntry.shown = members.map TarMember.shown

theorem roundTrip_nil (format : TarFormat) : RoundTrip [] format :=
  ⟨[],by cases format <;> decide +kernel,rfl⟩

theorem roundTrip_cons {m : TarMember} {members : List TarMember} {format : TarFormat}
    (hv : m.Valid) (hf : m.Fits format) :
    RoundTrip (m :: members) format ↔ m.Whole format ∧ RoundTrip members format := by
  have hbuf : writeTarMembers (m :: members) format =
      writeMember format m ++ writeTarMembers members format := by
    simp [writeTarMembers]
  have hread : ∀ entries, readTar (writeTarMembers (m :: members) format) = .ok entries ↔ _ :=
    fun entries => hbuf ▸ readFrom_writeMember hv hf (writeTarMembers members format) entries
  rw [TarMember.Whole,← pathReturns_iff,← linkReturns_iff]
  constructor
  · rintro ⟨entries,hentries,hshown⟩
    obtain ⟨n,h,tail,hn,hh,htail,rfl⟩ := (hread entries).mp hentries
    rw [map_cons,map_cons] at hshown
    obtain ⟨hfirst,hrest⟩ := List.cons.inj hshown
    exact ⟨⟨⟨n,hn,congrArg Shown.path hfirst⟩,h,hh,congrArg Shown.link hfirst⟩,tail,htail,hrest⟩
  rintro ⟨⟨⟨n,hn,hpath⟩,h,hh,hlink⟩,tail,htail,hrest⟩
  refine ⟨_,(hread _).mpr ⟨n,h,tail,hn,hh,htail,rfl⟩,?_⟩
  rw [map_cons,map_cons,hrest]
  congr 1
  rw [TarEntry.shown,TarMember.shown,hlink]
  congr 1

/-- Where extension headers can hold their values, an archive comes back exactly if no
path loses its leading slash to an empty prefix and no field cuts a character. -/
theorem roundTrip_iff (members : List TarMember) (format : TarFormat)
    (hvalid : ∀ m ∈ members, m.Valid) (hfits : ∀ m ∈ members, m.Fits format) :
    RoundTrip members format ↔ ∀ m ∈ members, m.Whole format := by
  induction members with
  | nil => simp [roundTrip_nil]
  | cons m members ih =>
    rw [roundTrip_cons (hvalid m (by simp)) (hfits m (by simp)),
      ih (fun m' hm' => hvalid m' (by simp [hm'])) (fun m' hm' => hfits m' (by simp [hm'])),
      forall_mem_cons]

/-- A path the prefix splits, and a target of two-byte characters that is carried. -/
def longMembers : List TarMember :=
  [.file (List.replicate 60 'd' ++ '/' :: List.replicate 60 'a') [1,2,3],
    .symlink ['s'] (List.replicate 60 'é')]

theorem longMembers_roundTrip : RoundTrip longMembers .ustarPrefix := by
  have hvalid : ∀ m ∈ longMembers, m.Valid := by
    simp only [longMembers,forall_mem_cons]
    exact ⟨by constructor <;> decide +kernel,by constructor <;> decide +kernel,nofun⟩
  have hfits : ∀ m ∈ longMembers, m.Fits .ustarPrefix := by
    simp only [longMembers,forall_mem_cons]
    exact ⟨⟨by decide +kernel,by decide +kernel⟩,⟨by decide +kernel,by decide +kernel⟩,nofun⟩
  have hcut : CharBoundary (List.replicate 60 'é') 100 :=
    ⟨List.replicate 50 'é',List.replicate 10 'é',by decide +kernel,by decide +kernel⟩
  have hsplit : longPathSplit (List.replicate 60 'd' ++ '/' :: List.replicate 60 'a')
      .ustarPrefix = some (List.replicate 60 'd',List.replicate 60 'a') := by
    decide +kernel
  have hshort : ¬ 100 < (utf8Encode ['s']).length := by decide +kernel
  have hwhole : ∀ m ∈ longMembers, m.Whole .ustarPrefix := by
    simp only [longMembers,forall_mem_cons]
    refine ⟨⟨⟨?_,?_⟩,?_⟩,⟨⟨?_,?_⟩,fun _ => hcut⟩,nofun⟩
    · intro front name _ h
      have hfront : List.replicate 60 'd' = front :=
        congrArg Prod.fst (some.inj (hsplit.symm.trans h))
      rw [← hfront]
      decide
    · intro _ h
      exact absurd (hsplit.symm.trans h) (some_ne_none _)
    · intro h
      exact absurd h (by decide)
    · intro _ _ h
      exact absurd h hshort
    · intro h
      exact absurd h hshort
  exact (roundTrip_iff longMembers .ustarPrefix hvalid hfits).mpr hwhole

/-- The slash of a path whose last component fills the name field is lost, and a name cut
inside a character is refused. -/
theorem split_and_cut_lose : ¬ RoundTrip [.file ('/' :: List.replicate 100 'a') []] .ustarPrefix ∧
    ¬ RoundTrip [.file (List.replicate 99 'a' ++ ['é','a']) []] .gnuLongName := by
  have hsplit : longPathSplit ('/' :: List.replicate 100 'a') .ustarPrefix =
      some ([],List.replicate 100 'a') := by
    decide +kernel
  have hcut : ¬ CharBoundary (List.replicate 99 'a' ++ ['é','a']) 100 := by
    rw [← utf8Decode_take_isSome_iff (by decide +kernel)]
    decide +kernel
  constructor
  · rw [roundTrip_cons (by constructor <;> decide +kernel) (by constructor <;> decide +kernel)]
    rintro ⟨⟨hpath,-⟩,-⟩
    exact hpath.split [] (List.replicate 100 'a') (by decide +kernel) hsplit rfl
  rw [roundTrip_cons (by constructor <;> decide +kernel) (by constructor <;> decide +kernel)]
  rintro ⟨⟨hpath,-⟩,-⟩
  exact hcut (hpath.cut (by decide +kernel) (by decide +kernel))

end PaghOS.Pkg
