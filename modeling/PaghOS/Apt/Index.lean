import PaghOS.Apt.StanzaStream
import PaghOS.Lib.Search

/-!
The compact package index (`pkg/apt_index.rs`): every string in one arena, records and
lookup tables made of ranges and indices. A range out of bounds, a panic of the source,
reads as the part that exists; the representation lemmas show that none is.
-/

namespace PaghOS.Apt

open Text
open Search

def cmpBytes : List UInt8 → List UInt8 → Ordering :=
  List.compareLex fun x y : UInt8 => compare x y

def cmpStr (a b : List Char) : Ordering := cmpBytes (utf8Encode a) (utf8Encode b)

def asU32 (n : Nat) : Nat := n%4294967296

structure StrRef where
  off : Nat
  len : Nat
  deriving DecidableEq

def StrRef.empty : StrRef := ⟨0,0⟩

/-- `arena.get(start..end)` decoded; the empty text for a range that is not there. -/
def resolve (arena : List UInt8) (r : StrRef) : List Char :=
  if r.off+r.len ≤ arena.length then (utf8Decode ((arena.drop r.off).take r.len)).getD [] else []

structure PkgRecordC where
  package : StrRef
  version : StrRef
  arch : StrRef
  filename : StrRef
  size : Nat
  sha256 : Option (List UInt8)
  depGroupStart : Nat
  depGroupLen : Nat
  provStart : Nat
  provLen : Nat
  deriving DecidableEq

structure DepGroupC where
  altStart : Nat
  altLen : Nat
  deriving DecidableEq

structure ProvEntry where
  name : StrRef
  record : Nat
  deriving DecidableEq

def slice {α : Type} (l : List α) (start len : Nat) : List α := (l.drop start).take len

def recordName (arena : List UInt8) (records : List PkgRecordC) (ri : Nat) : List Char :=
  ((records[ri]?).map fun rec => resolve arena rec.package).getD []

structure PackageIndex where
  arena : List UInt8
  records : List PkgRecordC
  depGroups : List DepGroupC
  depAlts : List StrRef
  provRefs : List StrRef
  nameSorted : List Nat
  provSorted : List ProvEntry
  deriving DecidableEq

structure PackageIndexBuilder where
  arena : List UInt8 := []
  records : List PkgRecordC := []
  depGroups : List DepGroupC := []
  depAlts : List StrRef := []
  provRefs : List StrRef := []
  deriving DecidableEq

namespace PackageIndexBuilder

variable (b : PackageIndexBuilder)

def intern (s : List Char) : StrRef × PackageIndexBuilder :=
  if s = [] then (.empty,b)
  else
    (⟨asU32 b.arena.length,asU32 (utf8Encode s).length⟩,{ b with arena := b.arena ++ utf8Encode s })

def internAlt (alt : List Char) : PackageIndexBuilder :=
  let out := b.intern alt
  { out.2 with depAlts := out.2.depAlts ++ [out.1] }

def internGroup (group : DepGroup) : PackageIndexBuilder :=
  let altStart := asU32 b.depAlts.length
  let b := group.alts.foldl internAlt b
  { b with depGroups := b.depGroups ++ [⟨altStart,asU32 group.alts.length⟩] }

def internProv (prov : List Char) : PackageIndexBuilder :=
  let out := b.intern prov
  { out.2 with provRefs := out.2.provRefs ++ [out.1] }

/-- The fields, the groups and the provided names in turn, then the record. -/
def internRecord (rec : PkgRecord) : PackageIndexBuilder :=
  let package := b.intern rec.package
  let version := package.2.intern rec.version
  let arch := version.2.intern rec.arch
  let filename := arch.2.intern rec.filename
  let depGroupStart := asU32 filename.2.depGroups.length
  let grouped := rec.depends.foldl internGroup filename.2
  let provStart := asU32 grouped.provRefs.length
  let provided := rec.provides.foldl internProv grouped
  { provided with
    records := provided.records ++ [{
      package := package.1
      version := version.1
      arch := arch.1
      filename := filename.1
      size := rec.size
      sha256 := rec.sha256
      depGroupStart
      depGroupLen := asU32 rec.depends.length
      provStart
      provLen := asU32 rec.provides.length }] }

def pushStanza (view : StanzaView) : PackageIndexBuilder := b.internRecord view.record

def nameSorted : List Nat :=
  sortTable cmpStr (recordName b.arena b.records) id (List.range (asU32 b.records.length))

def isReal (name : List Char) : Bool :=
  (binarySearchBy (fun ri => cmpStr (recordName b.arena b.records ri) name) b.nameSorted).isOk

def provEntries : List ProvEntry :=
  b.records.zipIdx.flatMap fun out =>
    ((slice b.provRefs out.1.provStart out.1.provLen).filter fun pr =>
      !(resolve b.arena pr = [] || b.isReal (resolve b.arena pr))).map (⟨·,asU32 out.2⟩)

def finish : PackageIndex where
  arena := b.arena
  records := b.records
  depGroups := b.depGroups
  depAlts := b.depAlts
  provRefs := b.provRefs
  nameSorted := b.nameSorted
  provSorted :=
    collapse (fun e => resolve b.arena e.name) none
      (sortTable cmpStr (fun e => resolve b.arena e.name) ProvEntry.record b.provEntries)

end PackageIndexBuilder

structure PkgRef where
  index : PackageIndex
  record : PkgRecordC
  deriving DecidableEq

namespace PkgRef

variable (r : PkgRef)

def package : List Char := resolve r.index.arena r.record.package
def version : List Char := resolve r.index.arena r.record.version
def arch : List Char := resolve r.index.arena r.record.arch
def filename : List Char := resolve r.index.arena r.record.filename
def size : Nat := r.record.size
def sha256 : Option (List UInt8) := r.record.sha256

def depends : List (List (List Char)) :=
  (slice r.index.depGroups r.record.depGroupStart r.record.depGroupLen).map fun group =>
    (slice r.index.depAlts group.altStart group.altLen).map (resolve r.index.arena)

end PkgRef

namespace PackageIndex

variable (index : PackageIndex)

/-- The owned records interned one by one; their digests are not taken over. -/
def fromRecords (records : List PkgRecord) : PackageIndex :=
  (records.foldl (fun b rec => b.internRecord { rec with sha256 := none }) ({} : PackageIndexBuilder)).finish

def pkgRef (ri : Nat) : Option PkgRef := (index.records[ri]?).map (⟨index,·⟩)

def get (name : List Char) : Option PkgRef :=
  (lookup cmpStr (recordName index.arena index.records) name index.nameSorted).bind index.pkgRef

def names : List (List Char) :=
  (collapse (recordName index.arena index.records) none index.nameSorted).map
    (recordName index.arena index.records)

def getProvider (name : List Char) : Option PkgRef :=
  match index.get name with
  | some r => some r
  | none =>
    (lookup cmpStr (fun e => resolve index.arena e.name) name index.provSorted).bind
      fun e => index.pkgRef e.record

def contains (name : List Char) : Bool := (index.getProvider name).isSome

end PackageIndex

structure PkgFields where
  package : List Char
  version : List Char
  arch : List Char
  filename : List Char
  size : Nat
  sha256 : Option (List UInt8)
  depends : List (List (List Char))
  deriving DecidableEq

def PkgRef.fields (r : PkgRef) : PkgFields :=
  ⟨r.package,r.version,r.arch,r.filename,r.size,r.sha256,r.depends⟩

def PkgRecord.fields (rec : PkgRecord) : PkgFields :=
  ⟨rec.package,rec.version,rec.arch,rec.filename,rec.size,rec.sha256,rec.depends.map (·.alts)⟩

def pushAll (stanzas : List StanzaView) : PackageIndexBuilder :=
  stanzas.foldl PackageIndexBuilder.pushStanza {}

/-- The index `apt update` builds: the chunks streamed as views into the builder. -/
def streamIndex (chunks : List (List UInt8)) : PackageIndex :=
  (StanzaParser.streamViews PackageIndexBuilder.pushStanza chunks {}).finish

end PaghOS.Apt
