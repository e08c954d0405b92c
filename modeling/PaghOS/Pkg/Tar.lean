import PaghOS.Lib.Bytes
import PaghOS.Lib.Check
import PaghOS.Lib.Utf8
import PaghOS.Pkg.Plan

/-!
The archive format (`pkg/tar.rs`): `read_tar` over 512-byte headers with the GNU, ustar
and pax carriers of long names, and `write_tar_members`.
-/

namespace PaghOS.Pkg

open Bytes
open Check
open Text
open Vfs

def tarBlock : Nat := 512

inductive TarError where
  | badHeaderChecksum
  | badSizeField
  | lengthInconsistent
  | truncated
  | badExtension
  | badLinkTarget
  deriving DecidableEq

/-- Leading blanks are skipped; a blank after digits or a NUL ends the number. -/
def parseOctalGo (value : Nat) (started ended : Bool) : List UInt8 → Option Nat
  | [] => some value
  | b :: field =>
    if b = 32 then parseOctalGo value started (started || ended) field
    else if b = 0 then parseOctalGo value started true field
    else if 48 ≤ b ∧ b ≤ 55 then
      if ended then none
      else if value*8+(b-48).toNat < 18446744073709551616 then
        parseOctalGo (value*8+(b-48).toNat) true ended field
      else none
    else none

def parseOctal (field : List UInt8) : Option Nat := parseOctalGo 0 false false field

/-- The sum of the header's bytes, its own checksum field read as blanks. -/
def headerChecksum (block : List UInt8) : Nat :=
  (List.range tarBlock).foldl
    (fun sum i => if 148 ≤ i ∧ i < 156 then sum+32 else sum+(block.getD i 0).toNat) 0

def nulTrim (field : List UInt8) : List UInt8 := field.rdropWhile (· = 0)

def roundToBlock (n : Nat) : Option Nat :=
  if n+511 < 18446744073709551616 then some ((n+511)/tarBlock*tarBlock) else none

structure PaxValues where
  path : Option Path := none
  link : Option Path := none
  deriving DecidableEq

def PaxValues.set (values : PaxValues) (key value : List Char) : PaxValues :=
  if key = "path".toList then { values with path := some value }
  else if key = "linkpath".toList then { values with link := some value }
  else values

def paxRecord (content : List UInt8) : Except TarError (Nat × List Char × List Char) := do
  let space ← demand (content.findIdx? (· = 32)) .badExtension
  let lenStr ← demand (utf8Decode (content.take space)) .badExtension
  let recLen ← demand (parseUnsigned 18446744073709551616 (trim lenStr)) .badExtension
  ensure (¬ (recLen < space+2 ∨ content.length < recLen)) .badExtension
  ensure (content.getD (recLen-1) 0 = 10) .badExtension
  let body := slice content (space+1) (recLen-1-(space+1))
  let eq ← demand (body.findIdx? (· = 61)) .badExtension
  let key ← demand (utf8Decode (body.take eq)) .badExtension
  let value ← demand (utf8Decode (body.drop (eq+1))) .badExtension
  .ok (recLen,key,value)

/-- The records one after the other; each takes at least two bytes, so the number of
bytes bounds the rounds. -/
def paxLoop : Nat → PaxValues → List UInt8 → Except TarError PaxValues
  | 0, values, _ => .ok values
  | _, values, [] => .ok values
  | fuel+1, values, b :: rest =>
    if b = 0 then paxLoop fuel values rest
    else do
      let (recLen,key,value) ← paxRecord (b :: rest)
      paxLoop fuel (values.set key value) ((b :: rest).drop recLen)

def parsePaxRecords (content : List UInt8) : Except TarError PaxValues :=
  paxLoop content.length {} content

structure Pending where
  nextPath : Option Path := none
  nextLink : Option Path := none
  globalPath : Option Path := none
  globalLink : Option Path := none
  deriving DecidableEq

/-- A header's fields as they stand in the block, with its content; `next` is the archive
after the padding. -/
structure RawHeader where
  nameField : List UInt8
  prefixField : List UInt8
  mode : Nat
  typeflag : UInt8
  linkname : List UInt8
  content : List UInt8
  next : List UInt8
  deriving DecidableEq

def readFields (rest : List UInt8) : Except TarError RawHeader := do
  let block := rest.take tarBlock
  let stored ← demand (parseOctal (slice block 148 8)) .badHeaderChecksum
  ensure (stored = headerChecksum block) .badHeaderChecksum
  let size ← demand (parseOctal (slice block 124 12)) .badSizeField
  let mode := (parseOctal (slice block 100 8)).getD 0
  ensure (tarBlock+size ≤ rest.length) .truncated
  let content := slice rest tarBlock size
  let padded ← demand (roundToBlock size) .lengthInconsistent
  ensure (tarBlock+padded ≤ rest.length) .truncated
  .ok ⟨slice block 0 100,slice block 345 155,mode,block.getD 156 0,slice block 157 100,content,
    rest.drop (tarBlock+padded)⟩

/-- A header whose name and prefix are text. -/
structure RawEntry where
  name : Path
  ustarPrefix : Path
  mode : Nat
  typeflag : UInt8
  linkname : List UInt8
  content : List UInt8
  next : List UInt8
  deriving DecidableEq

def RawHeader.decode (raw : RawHeader) : Except TarError RawEntry := do
  let name ← demand (utf8Decode (nulTrim raw.nameField)) .lengthInconsistent
  let ustarPrefix ← demand (utf8Decode (nulTrim raw.prefixField)) .lengthInconsistent
  .ok ⟨name,ustarPrefix,raw.mode,raw.typeflag,raw.linkname,raw.content,raw.next⟩

def readHeader (rest : List UInt8) : Except TarError RawEntry := readFields rest >>= RawHeader.decode

def strFromNulPadded (content : List UInt8) : Except TarError Path :=
  demand (utf8Decode (nulTrim content)) .lengthInconsistent

def TarType.ofFlag (typeflag : UInt8) : TarType :=
  if typeflag = 48 ∨ typeflag = 0 then .regular
  else if typeflag = 53 then .directory
  else if typeflag = 49 then .hardlink
  else if typeflag = 50 then .symlink
  else .other

/-- Only links have a target. The header field must be readable even where a carried
value replaces it. -/
def linkTarget (pending : Pending) (kind : TarType) (linkname : List UInt8) :
    Except TarError Path :=
  if kind = .symlink ∨ kind = .hardlink then do
    let headerLink ← demand (utf8Decode (nulTrim linkname)) .lengthInconsistent
    .ok ((pending.nextLink.or pending.globalLink).getD headerLink)
  else .ok []

/-- An extension header changes what is pending, any other header is an entry. -/
def takeEntry (pending : Pending) (raw : RawEntry) :
    Except TarError (Pending × Option TarEntry) :=
  if raw.typeflag = 76 then do
    let path ← strFromNulPadded raw.content
    .ok ({ pending with nextPath := some path },none)
  else if raw.typeflag = 75 then do
    let link ← strFromNulPadded raw.content
    .ok ({ pending with nextLink := some link },none)
  else if raw.typeflag = 103 then do
    let values ← parsePaxRecords raw.content
    .ok ({ pending with
      globalPath := values.path.or pending.globalPath
      globalLink := values.link.or pending.globalLink },none)
  else if raw.typeflag = 120 then do
    let values ← parsePaxRecords raw.content
    .ok ({ pending with
      nextPath := values.path.or pending.nextPath
      nextLink := values.link.or pending.nextLink },none)
  else do
    let kind := TarType.ofFlag raw.typeflag
    let path := (pending.nextPath.or pending.globalPath).getD raw.name
    let link ← linkTarget pending kind raw.linkname
    .ok ({ pending with nextPath := none, nextLink := none },
      some ⟨path,raw.ustarPrefix,kind,raw.mode,raw.content,link⟩)

/-- The loop of `read_tar`, on what is left of the archive. A header takes 512 bytes, so
the number of bytes left bounds the rounds. -/
def readLoop : Nat → Pending → List UInt8 → Except TarError (List TarEntry)
  | 0, _, _ => .ok []
  | fuel+1, pending, rest =>
    if rest = [] then .ok []
    else if rest.length < tarBlock then .error .truncated
    else if rest.getD 0 0 = 0 then .ok []
    else do
      let raw ← readHeader rest
      let (pending,entry) ← takeEntry pending raw
      let entries ← readLoop fuel pending raw.next
      .ok (entry.toList ++ entries)

def readTar (buf : List UInt8) : Except TarError (List TarEntry) := readLoop buf.length {} buf

section Writer

def octalDigits : Nat → Nat → List UInt8
  | 0, _ => []
  | n+1, value => octalDigits n (value/8) ++ [UInt8.ofNat (48+value%8)]

def writeOctal (header : List UInt8) (off width value : Nat) : List UInt8 :=
  patch header off (octalDigits (width-1) value ++ [0])

def writeChksum (header : List UInt8) (value : Nat) : List UInt8 :=
  patch header 148 (octalDigits 6 value ++ [0,32])

inductive TarFormat where
  | ustarPrefix
  | gnuLongName
  deriving DecidableEq

inductive TarMember where
  | file (path : Path) (content : List UInt8)
  | directory (path : Path)
  | symlink (path target : Path)
  | hardlink (path target : Path)
  deriving DecidableEq

namespace TarMember

def path : TarMember → Path
  | file path _ | directory path | symlink path _ | hardlink path _ => path

def typeflag : TarMember → UInt8
  | file .. => 48
  | directory .. => 53
  | symlink .. => 50
  | hardlink .. => 49

def content : TarMember → List UInt8
  | file _ content => content
  | _ => []

def link : TarMember → Path
  | symlink _ target | hardlink _ target => target
  | _ => []

end TarMember

/-- The path before and after its last slash, where the ustar fields can hold them. -/
def longPathSplit (path : Path) (format : TarFormat) : Option (Path × Path) :=
  if format = .gnuLongName then none
  else if '/' ∉ path then none
  else
    let name := path.rtakeWhile (· ≠ '/')
    let front := (path.rdropWhile (· ≠ '/')).dropLast
    if name ≠ [] ∧ (utf8Encode name).length ≤ 100 ∧ (utf8Encode front).length ≤ 155 then
      some (front,name)
    else none

/-- The fields but size and checksum; a name, target or prefix is cut to its field. -/
def writeCommon (header : List UInt8) (name : Path) (mode : Nat) (typeflag : UInt8)
    (link ustarPrefix : Path) : List UInt8 :=
  let header := patch header 0 ((utf8Encode name).take 100)
  let header := writeOctal header 100 8 mode
  let header := patch header 156 [typeflag]
  let header := patch header 157 ((utf8Encode link).take 100)
  let header := patch header 257 [117,115,116,97,114,0]
  let header := patch header 263 [48,48]
  patch header 345 ((utf8Encode ustarPrefix).take 155)

def signHeader (header : List UInt8) : List UInt8 :=
  let header := patch header 148 (List.replicate 8 32)
  writeChksum header (headerChecksum header)

def tarHeader (name : Path) (mode : Nat) (typeflag : UInt8) (link ustarPrefix : Path)
    (size : Nat) : List UInt8 :=
  signHeader (writeOctal
    (writeCommon (List.replicate tarBlock 0) name mode typeflag link ustarPrefix) 124 12 size)

def padded (data : List UInt8) : List UInt8 :=
  if data.length%tarBlock = 0 then data
  else data ++ List.replicate (tarBlock-data.length%tarBlock) 0

def longLink (typeflag : UInt8) (value : Path) : List UInt8 :=
  tarHeader "././@LongLink".toList 0 typeflag [] [] ((utf8Encode value).length+1) ++
    padded (utf8Encode value ++ [0])

/-- How a path goes into the archive: the extension entry, prefix and name. -/
def pathParts (path : Path) (format : TarFormat) : List UInt8 × Path × Path :=
  if 100 < (utf8Encode path).length then
    match longPathSplit path format with
    | some (front,name) => ([],front,name)
    | none => (longLink 76 path,[],path)
  else ([],[],path)

def writeMember (format : TarFormat) (member : TarMember) : List UInt8 :=
  let (ext,front,name) := pathParts member.path format
  let linkExt :=
    if member.link ≠ [] ∧ 100 < (utf8Encode member.link).length then longLink 75 member.link
    else []
  ext ++ linkExt ++
    tarHeader name 420 member.typeflag member.link front member.content.length ++
    padded member.content

def writeTarMembers (members : List TarMember) (format : TarFormat) : List UInt8 :=
  members.flatMap (writeMember format) ++ List.replicate (2*tarBlock) 0

end Writer

end PaghOS.Pkg
