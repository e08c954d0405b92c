import Mathlib.Data.List.Forall2
import PaghOS.Pkg.TarRoundTrip

/-!
Names and link targets carried by extension headers: what the headers before a member
give it, and when `read_tar` makes an entry of every member that shows what was given.
-/

namespace PaghOS.Pkg
open Check Text Vfs
open List hiding utf8Encode utf8Encode_nil

/-- The archive cut into headers, whatever their texts are, up to its end or a block of zeros.
An archive with a false checksum or size is not cut. -/
def headers : Nat → List UInt8 → Option (List RawHeader)
  | 0, _ => some []
  | fuel+1, rest =>
    match readFields rest with
    | .ok raw => (headers fuel raw.next).map (raw :: ·)
    | .error _ =>
      if rest = [] ∨ rest.take tarBlock = List.replicate tarBlock 0 then some [] else none

namespace RawHeader

def isMember (raw : RawHeader) : Bool := raw.typeflag ∉ [76,75,103,120]

def IsLink (raw : RawHeader) : Prop :=
  TarType.ofFlag raw.typeflag = .symlink ∨ TarType.ofFlag raw.typeflag = .hardlink

/-- What a header gives the next member: its whole content (`flag`) or a pax record. -/
def own (flag : UInt8) (field : PaxValues → Option Path) (raw : RawHeader) : Option Path :=
  if raw.typeflag = flag then (strFromNulPadded raw.content).toOption
  else if raw.typeflag = 120 then (parsePaxRecords raw.content).toOption.bind field
  else none

def lasting (field : PaxValues → Option Path) (raw : RawHeader) : Option Path :=
  if raw.typeflag = 103 then (parsePaxRecords raw.content).toOption.bind field else none

/-- The header is not taken for the end of the archive, and its own texts are UTF-8. -/
def Named (raw : RawHeader) : Prop :=
  raw.nameField.getD 0 0 ≠ 0 ∧ (utf8Decode (nulTrim raw.nameField)).isSome ∧
    (utf8Decode (nulTrim raw.prefixField)).isSome

/-- An extension header whose content can be read. -/
def Carries (raw : RawHeader) : Prop :=
  raw.Named ∧ if raw.typeflag = 76 ∨ raw.typeflag = 75 then Passes (strFromNulPadded raw.content)
    else Passes (parsePaxRecords raw.content)

end RawHeader

def ownGiven (flag : UInt8) (field : PaxValues → Option Path) (past : List RawHeader) : Option Path :=
  (past.takeWhile (!·.isMember)).findSome? (RawHeader.own flag field)

/-- What the headers before a member give it, the nearest first: one for this member, else one
for all that follow. -/
def given (flag : UInt8) (field : PaxValues → Option Path) (past : List RawHeader) : Option Path :=
  (ownGiven flag field past).or (past.findSome? (RawHeader.lasting field))

def pathGiven : List RawHeader → Option Path := given 76 PaxValues.path
def linkGiven : List RawHeader → Option Path := given 75 PaxValues.link

/-- The members among the headers, each with the headers before it, nearest first. -/
def withPast : List RawHeader → List RawHeader → List (RawHeader × List RawHeader)
  | _, [] => []
  | past, raw :: raws => (if raw.isMember then [(raw,past)] else []) ++ withPast (raw :: past) raws

def pendingAfter (past : List RawHeader) : Pending :=
  ⟨ownGiven 76 PaxValues.path past,ownGiven 75 PaxValues.link past,
    past.findSome? (RawHeader.lasting PaxValues.path),past.findSome? (RawHeader.lasting PaxValues.link)⟩

/-- The entry is this member's and shows the path and, for a link, the target it was given. -/
structure Shows (m : RawHeader × List RawHeader) (e : TarEntry) : Prop where
  same : e.kind = TarType.ofFlag m.1.typeflag ∧ e.mode = m.1.mode ∧ e.content = m.1.content
  path : ∀ path, pathGiven m.2 = some path → effectivePath e = path
  link : ∀ link, linkGiven m.2 = some link → m.1.IsLink → e.linkTarget = link

/-- What a member's own header must have: fields that can be read even where a given value
replaces them, and no prefix where a path is given. -/
structure Legible (m : RawHeader × List RawHeader) : Prop where
  named : m.1.Named
  link : m.1.IsLink → (utf8Decode (nulTrim m.1.linkname)).isSome
  bare : (pathGiven m.2).isSome → nulTrim m.1.prefixField = []

section Round

variable {past : List RawHeader} {raw : RawHeader} {m : RawHeader × List RawHeader}

theorem ownGiven_cons (flag : UInt8) (field : PaxValues → Option Path) (raw : RawHeader)
    (past : List RawHeader) : ownGiven flag field (raw :: past) =
      if raw.isMember then none else (raw.own flag field).or (ownGiven flag field past) := by
  cases hm : raw.isMember <;> simp [ownGiven,hm,findSome?_cons_or]

theorem RawHeader.Named.decode (h : raw.Named) : ∃ name ustarPrefix,
    utf8Decode (nulTrim raw.prefixField) = some ustarPrefix ∧ raw.decode =
      .ok ⟨name,ustarPrefix,raw.mode,raw.typeflag,raw.linkname,raw.content,raw.next⟩ := by
  obtain ⟨name,hname⟩ := Option.isSome_iff_exists.mp h.2.1
  obtain ⟨ustarPrefix,hpre⟩ := Option.isSome_iff_exists.mp h.2.2
  exact ⟨name,ustarPrefix,hpre,by rw [RawHeader.decode,hname,hpre]; rfl⟩

theorem takeEntry_extension (hm : raw.isMember = false) (hc : raw.Carries) (name ustarPrefix : Path) :
    takeEntry (pendingAfter past)
        ⟨name,ustarPrefix,raw.mode,raw.typeflag,raw.linkname,raw.content,raw.next⟩ =
      .ok (pendingAfter (raw :: past),none) := by
  have hflag : raw.typeflag = 76 ∨ raw.typeflag = 75 ∨ raw.typeflag = 103 ∨ raw.typeflag = 120 := by
    simpa only [RawHeader.isMember,decide_eq_false_iff_not,not_not,mem_cons,not_mem_nil,
      or_false] using hm
  have hread := hc.2
  simp only [pendingAfter,ownGiven_cons,findSome?_cons_or,RawHeader.own,RawHeader.lasting,hm]
  obtain h | h | h | h := hflag <;> simp only [h,takeEntry] at hread ⊢
  all_goals
    obtain ⟨value,hvalue⟩ := hread
    simp [hvalue,Except.toOption,ok_bind]

/-- The entry of a member after the headers before it. -/
def memberEntry (m : RawHeader × List RawHeader) : Except TarError TarEntry := do
  let raw ← m.1.decode
  let link ← linkTarget (pendingAfter m.2) (.ofFlag raw.typeflag) raw.linkname
  .ok ⟨(pathGiven m.2).getD raw.name,raw.ustarPrefix,.ofFlag raw.typeflag,raw.mode,raw.content,link⟩

theorem takeEntry_of_member (hm : raw.isMember = true) {r : RawEntry} (hr : raw.decode = .ok r) :
    takeEntry (pendingAfter past) r =
      memberEntry (raw,past) >>= fun e => .ok (pendingAfter (raw :: past),some e) := by
  simp only [RawHeader.decode,bind_eq_ok] at hr
  obtain ⟨name,hname,ustarPrefix,hpre,hr⟩ := hr
  cases hr
  obtain ⟨hL,hK,hg,hx⟩ : raw.typeflag ≠ 76 ∧ raw.typeflag ≠ 75 ∧ raw.typeflag ≠ 103 ∧
      raw.typeflag ≠ 120 := by simpa [RawHeader.isMember] using hm
  simp only [takeEntry,if_neg hL,if_neg hK,if_neg hg,if_neg hx,memberEntry,RawHeader.decode,hname,hpre]
  simp only [ok_bind]
  cases linkTarget (pendingAfter past) (.ofFlag raw.typeflag) raw.linkname with
  | error e => rfl
  | ok link => simp [ok_bind,pendingAfter,ownGiven_cons,hm,RawHeader.lasting,hg,pathGiven,given]

theorem linkTarget_passes_iff {pending : Pending} :
    Passes (linkTarget pending (.ofFlag raw.typeflag) raw.linkname) ↔
      (raw.IsLink → (utf8Decode (nulTrim raw.linkname)).isSome) := by
  unfold linkTarget RawHeader.IsLink
  by_cases h : TarType.ofFlag raw.typeflag = .symlink ∨ TarType.ofFlag raw.typeflag = .hardlink
  · rw [if_pos h]
    cases utf8Decode (nulTrim raw.linkname) with
    | none => simp [Passes,demand,h,bind,Except.bind]
    | some own => simp [Passes,ok_bind,demand_some]
  · rw [if_neg h]
    simp [Passes,h]

theorem linkTarget_given {pending : Pending} {link own : Path} (hlink : raw.IsLink)
    (h : linkTarget pending (.ofFlag raw.typeflag) raw.linkname = .ok own)
    (hgiven : pending.nextLink.or pending.globalLink = some link) : own = link := by
  unfold RawHeader.IsLink at hlink
  rw [linkTarget,if_pos hlink,hgiven] at h
  obtain ⟨_,-,h⟩ := bind_eq_ok.mp h
  cases h
  rfl

theorem memberEntry_passes_iff : (m.1.nameField.getD 0 0 ≠ 0 ∧ Passes (memberEntry m)) ↔
    m.1.Named ∧ (m.1.IsLink → (utf8Decode (nulTrim m.1.linkname)).isSome) := by
  rw [← @linkTarget_passes_iff m.1 (pendingAfter m.2),RawHeader.Named]
  simp only [memberEntry,Passes,RawHeader.decode,bind_eq_ok,demand_eq_ok,Option.isSome_iff_exists]
  grind

theorem memberEntry_shows_iff {e : TarEntry} (h : memberEntry m = .ok e) :
    Shows m e ↔ ((pathGiven m.2).isSome → nulTrim m.1.prefixField = []) := by
  simp only [memberEntry,RawHeader.decode,bind_eq_ok,demand_eq_ok] at h
  obtain ⟨_,⟨name,hname,ustarPrefix,hpre,hraw⟩,link,hlink,h⟩ := h
  cases hraw
  cases h
  have hbare : nulTrim m.1.prefixField = [] ↔ ustarPrefix = [] := by
    rw [← utf8Decode_eq_nil_iff,hpre,Option.some_inj]
  rw [hbare]
  constructor
  · intro hshows hgiven
    obtain ⟨path,hpath⟩ := Option.isSome_iff_exists.mp hgiven
    have heq := congrArg List.length (hshows.path path hpath)
    by_contra hne
    simp only [effectivePath,if_neg hne,hpath,Option.getD_some,length_append,length_cons] at heq
    omega
  · intro hempty
    refine ⟨⟨rfl,rfl,rfl⟩,fun path hpath => ?_,fun target htarget hkind => ?_⟩
    · simp [effectivePath,hempty (by simp [hpath]),hpath]
    · exact linkTarget_given hkind hlink htarget

theorem legible_iff : Legible m ↔
    m.1.nameField.getD 0 0 ≠ 0 ∧ ∃ e, memberEntry m = .ok e ∧ Shows m e := by
  constructor
  · intro h
    obtain ⟨hfirst,e,he⟩ := memberEntry_passes_iff.mpr ⟨h.named,h.link⟩
    exact ⟨hfirst,e,he,(memberEntry_shows_iff he).mpr h.bare⟩
  · rintro ⟨hfirst,e,he,hshows⟩
    obtain ⟨hnamed,hlink⟩ := memberEntry_passes_iff.mp ⟨hfirst,e,he⟩
    exact ⟨hnamed,hlink,(memberEntry_shows_iff he).mp hshows⟩

theorem first_of_readFields {rest : List UInt8} (h : readFields rest = .ok raw) :
    raw.nameField.getD 0 0 = rest.getD 0 0 := by
  simp only [readFields,bind_eq_ok] at h
  obtain ⟨_,-,_,-,_,-,_,-,_,-,_,-,h⟩ := h
  cases h
  simp [Bytes.slice,tarBlock]

theorem readLoop_of_fields {rest : List UInt8} (h : readFields rest = .ok raw) (fuel : Nat)
    (pending : Pending) : readLoop (fuel+1) pending rest =
      if raw.nameField.getD 0 0 = 0 then .ok []
      else raw.decode >>= fun r => takeEntry pending r >>= fun t =>
        readLoop fuel t.1 r.next >>= fun entries => .ok (t.2.toList ++ entries) := by
  obtain ⟨hlen,-⟩ := length_of_readFields h
  have hne : rest ≠ [] := by
    rintro rfl
    simp [tarBlock] at hlen
  rw [readLoop,if_neg hne,if_neg (by omega),first_of_readFields h,readHeader,h,ok_bind]

theorem readLoop_of_member {rest : List UInt8} (hm : raw.isMember = true)
    (h : readFields rest = .ok raw) (hfirst : raw.nameField.getD 0 0 ≠ 0) (fuel : Nat) :
    readLoop (fuel+1) (pendingAfter past) rest = memberEntry (raw,past) >>= fun e =>
      readLoop fuel (pendingAfter (raw :: past)) raw.next >>= fun entries => .ok (e :: entries) := by
  rw [readLoop_of_fields h,if_neg hfirst]
  cases hr : raw.decode with
  | error e => simp [memberEntry,hr,bind,Except.bind]
  | ok r =>
    have hnext : r.next = raw.next := by
      simp only [RawHeader.decode,bind_eq_ok] at hr
      obtain ⟨_,-,_,-,hr⟩ := hr
      cases hr
      rfl
    rw [ok_bind,takeEntry_of_member hm hr,hnext]
    cases memberEntry (raw,past) with
    | error e => rfl
    | ok e => rfl

end Round

theorem readLoop_of_zero {rest : List UInt8} (hlen : tarBlock ≤ rest.length) (hfirst : rest.getD 0 0 = 0)
    (fuel : Nat) (pending : Pending) : readLoop (fuel+1) pending rest = .ok [] := by
  have hne : rest ≠ [] := by
    rintro rfl
    simp [tarBlock] at hlen
  rw [readLoop,if_neg hne,if_neg (by omega),if_pos hfirst]

theorem readLoop_of_end {rest : List UInt8} {fuel : Nat} {pending : Pending}
    (h : rest = [] ∨ rest.take tarBlock = List.replicate tarBlock 0) :
    readLoop (fuel+1) pending rest = .ok [] := by
  obtain rfl | hzero := h
  · rfl
  have hlen : tarBlock ≤ rest.length := by
    have hcount := congrArg List.length hzero
    rw [length_take,length_replicate] at hcount
    omega
  have hfirst : rest.getD 0 0 = 0 := by
    have hhead := congrArg List.head? hzero
    rw [head?_take,if_neg (by decide),tarBlock,replicate_succ,head?_cons] at hhead
    rw [getD_eq_getElem?_getD,← head?_eq_getElem?,hhead,Option.getD_some]
  exact readLoop_of_zero hlen hfirst fuel pending

/-- One round per header: an extension header changes what is pending, a member has its entry
or ends the loop. -/
theorem readLoop_shows_iff {fuel : Nat} {past raws : List RawHeader} {rest : List UInt8}
    (hcut : headers fuel rest = some raws) (hext : ∀ raw ∈ raws, raw.isMember = false → raw.Carries) :
    (∃ entries, readLoop fuel (pendingAfter past) rest = .ok entries ∧
        List.Forall₂ Shows (withPast past raws) entries) ↔
      ∀ m ∈ withPast past raws, Legible m := by
  induction fuel generalizing past raws rest with
  | zero =>
    cases hcut
    exact ⟨fun _ => by simp [withPast],fun _ => ⟨[],rfl,.nil⟩⟩
  | succ fuel ih =>
    rw [headers] at hcut
    cases hfields : readFields rest with
    | error e =>
      simp only [hfields,Option.ite_none_right_eq_some,Option.some.injEq] at hcut
      obtain ⟨hend,rfl⟩ := hcut
      exact ⟨fun _ => by simp [withPast],fun _ => ⟨[],readLoop_of_end hend,.nil⟩⟩
    | ok raw =>
      simp only [hfields] at hcut
      obtain ⟨later,hlater,rfl⟩ := Option.map_eq_some_iff.mp hcut
      have hrest := @ih (raw :: past) _ _ hlater fun r hr => hext r (.tail _ hr)
      cases hm : raw.isMember with
      | false =>
        have hcarries := hext raw (.head _) hm
        obtain ⟨name,ustarPrefix,-,hdecode⟩ := hcarries.1.decode
        rw [readLoop_of_fields hfields,if_neg hcarries.1.1,hdecode,ok_bind,
          takeEntry_extension hm hcarries,ok_bind]
        simpa [withPast,hm] using hrest
      | true =>
        simp only [withPast,hm,if_true,singleton_append]
        rw [forall_mem_cons,legible_iff,← hrest]
        constructor
        · rintro ⟨entries,hread,hall⟩
          obtain ⟨e,es,he,hes,rfl⟩ := List.forall₂_cons_left_iff.mp hall
          have hfirst : raw.nameField.getD 0 0 ≠ 0 := by
            intro hzero
            rw [readLoop_of_fields hfields,if_pos hzero] at hread
            cases hread
          simp only [readLoop_of_member hm hfields hfirst,bind_eq_ok] at hread
          obtain ⟨_,hentry,_,hlater,hread⟩ := hread
          cases hread
          exact ⟨⟨hfirst,e,hentry,he⟩,es,hlater,hes⟩
        · rintro ⟨⟨hfirst,e,hentry,he⟩,later,hlater,hall⟩
          refine ⟨e :: later,?_,.cons he hall⟩
          rw [readLoop_of_member hm hfields hfirst,hentry,ok_bind,hlater,ok_bind]

/-- In an archive cut into headers whose extension headers can be read, every member has an
entry that shows what it was given exactly when the fields of its own header can be read and
its prefix field is empty where a path is given. -/
theorem given_shown_iff {buf : List UInt8} {raws : List RawHeader}
    (hcut : headers buf.length buf = some raws) (hext : ∀ raw ∈ raws, raw.isMember = false → raw.Carries) :
    (∃ entries, readTar buf = .ok entries ∧ List.Forall₂ Shows (withPast [] raws) entries) ↔
      ∀ m ∈ withPast [] raws, Legible m :=
  @readLoop_shows_iff _ [] _ _ hcut hext

section Carried

variable {name front : Path}

theorem headers_of_fields {rest : List UInt8} {raw : RawHeader} {raws : List RawHeader} {fuel : Nat}
    (h : readFields rest = .ok raw) (hlater : headers fuel raw.next = some raws) :
    headers (fuel+1) rest = some (raw :: raws) := by
  rw [headers,h]
  simp only [hlater,Option.map_some]

theorem headers_nil (fuel : Nat) : headers fuel [] = some [] := by
  cases fuel with
  | zero => rfl
  | succ fuel =>
    cases h : readFields [] with
    | error e => rw [headers,h,if_pos (.inl rfl)]
    | ok raw => exact absurd (length_of_readFields h).2 (by simp)

theorem named_rawOf (hne : name ≠ []) (hname : '\x00' ∉ name) (hlen : (utf8Encode name).length ≤ 100)
    (typeflag : UInt8) (link : Path) (content next : List UInt8) :
    (rawOf name 0 typeflag link [] content next).Named := by
  have hfirst : (tarHeader name 0 typeflag link [] content.length ++ []).getD 0 0 ≠ 0 :=
    first_tarHeader hne hname []
  refine ⟨?_,?_,?_⟩
  · rw [append_nil,getD_eq_getElem?_getD,← head?_slice (by decide : 100 ≠ 0)] at hfirst
    simp only [rawOf]
    rwa [getD_eq_getElem?_getD,← head?_eq_getElem?]
  · rw [rawOf,slice_name,take_of_length_le hlen,
      nulTrim_append_zeros (zero_not_mem_utf8Encode hname),utf8Decode_utf8Encode]
    rfl
  · rw [rawOf,slice_front,utf8Encode_nil,take_nil,nulTrim_append_zeros not_mem_nil]
    rfl

/-- The header `longLink` writes for a value. -/
def longRaw (flag : UInt8) (value : Path) (next : List UInt8) : RawHeader :=
  rawOf "././@LongLink".toList 0 flag [] [] (utf8Encode value ++ [0]) next

theorem readFields_longLink {value : Path} (flag : UInt8) (hfits : (utf8Encode value).length+1 < octalLim 11)
    (rest : List UInt8) : readFields (longLink flag value ++ rest) = .ok (longRaw flag value rest) := by
  have hsize : (utf8Encode value).length+1 = (utf8Encode value ++ [0]).length := by simp
  rw [longLink,append_assoc,hsize]
  exact readFields_tarHeader (by decide) (by rwa [← hsize]) rest

theorem typeflag_longRaw (flag : UInt8) (value : Path) (next : List UInt8) :
    (longRaw flag value next).typeflag = flag := rfl

theorem strFromNulPadded_longRaw {flag : UInt8} {value : Path} (h : '\x00' ∉ value) (next : List UInt8) :
    strFromNulPadded (longRaw flag value next).content = .ok value := by
  have hzero : ([0] : List UInt8) = List.replicate 1 0 := rfl
  simp only [longRaw,rawOf]
  rw [strFromNulPadded,hzero,nulTrim_append_zeros (zero_not_mem_utf8Encode h),
    utf8Decode_utf8Encode,demand_some]

def ownSymlink (name front : Path) : List UInt8 := tarHeader name 0 50 ['l'] front 0 ++ (padded [] ++ [])

/-- A long name and a long target for a symlink with its own name and prefix field. -/
def carried (name front : Path) : List UInt8 :=
  longLink 76 ['p'] ++ (longLink 75 ['t'] ++ ownSymlink name front)

theorem readTar_carried (name front : Path) : readTar (carried name front) =
    readFrom { nextPath := some ['p'], nextLink := some ['t'] } (ownSymlink name front) := by
  have hname : readFrom {} (carried name front) = readFrom { nextPath := some ['p'] } _ :=
    (readFrom_longLink (by decide) (by decide) {} _).1
  exact hname.trans (readFrom_longLink (by decide) (by decide) _ _).2

def carriedHeaders : List RawHeader :=
  [longRaw 76 ['p'] (longLink 75 ['t'] ++ ownSymlink ['n'] []),longRaw 75 ['t'] (ownSymlink ['n'] []),
    rawOf ['n'] 0 50 ['l'] [] [] []]

theorem headers_carried : headers (carried ['n'] []).length (carried ['n'] []) = some carriedHeaders := by
  have hlen : (carried ['n'] []).length = 2557+1+1+1 := by
    simp only [carried,ownSymlink,longLink,length_append,length_tarHeader,length_padded]
    decide
  have hname : readFields (carried ['n'] []) = .ok (longRaw 76 ['p'] _) :=
    readFields_longLink 76 (by decide) (longLink 75 ['t'] ++ ownSymlink ['n'] [])
  have hlink : readFields (longLink 75 ['t'] ++ ownSymlink ['n'] []) = .ok (longRaw 75 ['t'] _) :=
    readFields_longLink 75 (by decide) (ownSymlink ['n'] [])
  have hmember : readFields (ownSymlink ['n'] []) = .ok (rawOf ['n'] 0 50 ['l'] [] [] []) :=
    @readFields_tarHeader ['n'] 0 50 ['l'] [] [] (by decide) (by decide) []
  rw [hlen]
  exact headers_of_fields hname (headers_of_fields hlink (headers_of_fields hmember (headers_nil _)))

theorem carries_longRaw {value : Path} (h : '\x00' ∉ value) {flag : UInt8} (hflag : flag = 76 ∨ flag = 75)
    (next : List UInt8) : (longRaw flag value next).Carries := by
  refine ⟨named_rawOf (by decide) (by decide +kernel) (by decide +kernel) _ _ _ _,?_⟩
  rw [typeflag_longRaw,if_pos hflag]
  exact ⟨value,strFromNulPadded_longRaw h next⟩

theorem carried_carries : ∀ raw ∈ carriedHeaders, raw.isMember = false → raw.Carries := by
  intro raw hraw hext
  obtain rfl | rfl | rfl : raw = _ ∨ raw = _ ∨ raw = _ := by
    simpa only [carriedHeaders,mem_cons,not_mem_nil,or_false] using hraw
  · exact carries_longRaw (by decide) (.inl rfl) _
  · exact carries_longRaw (by decide) (.inr rfl) _
  · exact absurd hext (by decide)

theorem withPast_carried : withPast [] carriedHeaders = [(rawOf ['n'] 0 50 ['l'] [] [] [],
    [longRaw 75 ['t'] (ownSymlink ['n'] []),
      longRaw 76 ['p'] (longLink 75 ['t'] ++ ownSymlink ['n'] [])])] := by
  rfl

theorem carried_legible : ∀ m ∈ withPast [] carriedHeaders, Legible m := by
  rw [withPast_carried]
  intro m hm
  obtain rfl := mem_singleton.mp hm
  refine ⟨named_rawOf (by decide) (by decide) (by decide) _ _ _ _,fun _ => ?_,fun _ => ?_⟩
  · simp only [rawOf]
    rw [slice_linkname]
    decide +kernel
  · simp only [rawOf]
    rw [slice_front]
    decide +kernel

/-- Both values of the symlink are carried, and its own prefix field is empty. -/
theorem carried_shown : ∃ e, readTar (carried ['n'] []) = .ok [e] ∧ effectivePath e = ['p'] ∧
    e.linkTarget = ['t'] := by
  obtain ⟨entries,hread,hall⟩ := (given_shown_iff headers_carried carried_carries).mpr carried_legible
  rw [withPast_carried] at hall
  obtain ⟨e,later,he,hlater,rfl⟩ := List.forall₂_cons_left_iff.mp hall
  cases hlater
  have hp : '\x00' ∉ ['p'] := by decide
  have ht : '\x00' ∉ ['t'] := by decide
  refine ⟨e,hread,he.path _ ?_,he.link _ ?_ (.inl rfl)⟩
  · simp [pathGiven,given,ownGiven,RawHeader.isMember,RawHeader.own,typeflag_longRaw,
      strFromNulPadded_longRaw hp,Except.toOption]
  · simp [linkGiven,given,ownGiven,RawHeader.isMember,RawHeader.own,typeflag_longRaw,
      strFromNulPadded_longRaw ht,Except.toOption]

/-- The hundredth byte falls inside the two of a character. -/
def cutName : Path := List.replicate 99 'a' ++ ['é','a']

/-- The prefix field is put before a given path, a member with an empty name field is dropped,
and the archive the repository writes for a name cut inside a character is refused. -/
theorem carried_lost : (∃ e, readTar (carried ['n'] ['d']) = .ok [e] ∧ effectivePath e ≠ ['p']) ∧
    readTar (carried [] []) = .ok [] ∧
    readTar (writeTarMembers [.file cutName []] .gnuLongName) = .error .lengthInconsistent := by
  refine ⟨?_,?_,?_⟩
  · have hd : utf8Decode ((utf8Encode ['d']).take 155) = some ['d'] := by decide
    have hn : utf8Decode ((utf8Encode ['n']).take 100) = some ['n'] := by decide
    have hmember : readFrom { nextPath := some ['p'], nextLink := some ['t'] } (ownSymlink ['n'] ['d']) = _ :=
      @readFrom_tarHeader ['n'] 0 50 ['l'] ['d'] [] (by decide) (by decide) (by decide) (by decide)
        (by decide) _ []
    rw [hn,hd,demand_some,demand_some,ok_bind,ok_bind,slice_linkname] at hmember
    exact ⟨_,(readTar_carried ['n'] ['d']).trans hmember,by decide⟩
  · have hlen : (ownSymlink [] []).length = 511+1 := by
      simp only [ownSymlink,length_append,length_tarHeader,length_padded]
      decide
    have hfirst : (ownSymlink [] []).getD 0 0 = 0 := by
      rw [ownSymlink,getD_eq_getElem?_getD,List.getElem?_append_left (by simp),
        ← head?_slice (by decide : 100 ≠ 0),slice_name]
      rfl
    rw [readTar_carried,readFrom,hlen,readLoop_of_zero (by rw [hlen,tarBlock]) hfirst]
  · have hzero : '\x00' ∉ cutName := by decide +kernel
    have hbytes : writeTarMembers [.file cutName []] .gnuLongName = longLink 76 cutName ++
        (tarHeader cutName 420 48 [] [] 0 ++ (padded [] ++ List.replicate (2*tarBlock) 0)) := by
      have hlong : 100 < (utf8Encode cutName).length := by decide +kernel
      simp [writeTarMembers,writeMember,TarMember.path,TarMember.link,TarMember.content,
        TarMember.typeflag,pathParts,hlong,longPathSplit]
    have hcut : utf8Decode ((utf8Encode cutName).take 100) = none := by decide +kernel
    have hname (rest : List UInt8) : readFrom {} (longLink 76 cutName ++ rest) =
        readFrom { nextPath := some cutName } rest :=
      (readFrom_longLink hzero (by decide +kernel) {} rest).1
    have hmember : readFrom { nextPath := some cutName } (tarHeader cutName 420 48 [] [] 0 ++ _) = _ :=
      @readFrom_tarHeader cutName 420 48 [] [] [] (by decide +kernel) hzero (by decide) (by decide)
        (by decide) _ (List.replicate (2*tarBlock) 0)
    rw [hcut] at hmember
    rw [readTar,← readFrom,hbytes,hname]
    exact hmember

end Carried

end PaghOS.Pkg
