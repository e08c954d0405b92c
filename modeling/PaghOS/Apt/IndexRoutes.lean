import PaghOS.Apt.IndexSpec

/-!
The two ways to an index: owned records interned by `from_records`, and views streamed
into the builder. They differ in the digests, which only the second keeps.
-/

namespace PaghOS.Apt
open List Option PackageIndexBuilder

open Text
open Search

def PkgRecordC.undigested (c : PkgRecordC) : PkgRecordC := { c with sha256 := none }

def PkgRecord.undigested (rec : PkgRecord) : PkgRecord := { rec with sha256 := none }

def PkgFields.undigested (f : PkgFields) : PkgFields := { f with sha256 := none }

namespace PackageIndexBuilder

def undigested (b : PackageIndexBuilder) : PackageIndexBuilder :=
  { b with records := b.records.map PkgRecordC.undigested }

variable (b : PackageIndexBuilder)

theorem undigested_internGroup (group : DepGroup) :
    b.undigested.internGroup group = (b.internGroup group).undigested := by
  rw [internGroup_eq,internGroup_eq]
  rfl

theorem undigested_foldl_internGroup (groups : List DepGroup) :
    groups.foldl internGroup b.undigested = (groups.foldl internGroup b).undigested := by
  induction groups generalizing b with
  | nil => rfl
  | cons group groups ih => rw [foldl_cons,foldl_cons,undigested_internGroup,ih]

theorem undigested_grouped (rec : PkgRecord) :
    b.undigested.grouped rec.undigested = (b.grouped rec).undigested :=
  undigested_foldl_internGroup (b.headed rec) rec.depends

theorem undigested_internRecord (rec : PkgRecord) :
    b.undigested.internRecord rec.undigested = (b.internRecord rec).undigested := by
  rw [internRecord_eq,internRecord_eq]
  simp only [provided,compact,undigested_grouped]
  simp [undigested,PkgRecordC.undigested,PkgRecord.undigested]

theorem undigested_foldl (records : List PkgRecord) :
    records.foldl (fun b rec => b.internRecord rec.undigested) b.undigested =
      (records.foldl internRecord b).undigested := by
  induction records generalizing b with
  | nil => rfl
  | cons rec records ih => rw [foldl_cons,foldl_cons,undigested_internRecord,ih]

end PackageIndexBuilder

theorem recordName_undigested (arena : List UInt8) (records : List PkgRecordC) :
    recordName arena (records.map PkgRecordC.undigested) = recordName arena records := by
  funext ri
  rw [recordName,recordName,getElem?_map,Option.map_map]
  rfl

namespace PackageIndex

def undigested (index : PackageIndex) : PackageIndex :=
  { index with records := index.records.map PkgRecordC.undigested }

theorem finish_undigested (b : PackageIndexBuilder) : b.undigested.finish = b.finish.undigested := by
  have hsorted : b.undigested.nameSorted = b.nameSorted := by
    simp [PackageIndexBuilder.nameSorted,PackageIndexBuilder.undigested,recordName_undigested]
  have hreal : b.undigested.isReal = b.isReal := by
    funext name
    rw [PackageIndexBuilder.isReal,PackageIndexBuilder.isReal,hsorted]
    simp [PackageIndexBuilder.undigested,recordName_undigested]
  have hentries : b.undigested.provEntries = b.provEntries := by
    rw [PackageIndexBuilder.provEntries,PackageIndexBuilder.provEntries,hreal]
    simp only [PackageIndexBuilder.undigested,zipIdx_map,flatMap_map]
    rfl
  rw [PackageIndexBuilder.finish,PackageIndexBuilder.finish,hsorted,hentries]
  rfl

variable (index : PackageIndex)

theorem pkgRef_undigested (ri : Nat) : (index.undigested.pkgRef ri).map PkgRef.fields =
      (index.pkgRef ri).map fun r => r.fields.undigested := by
  simp only [pkgRef,undigested,getElem?_map,Option.map_map]
  rfl

theorem get_undigested (name : List Char) : (index.undigested.get name).map PkgRef.fields =
      (index.get name).map fun r => r.fields.undigested := by
  have hlookup : lookup cmpStr (recordName index.undigested.arena index.undigested.records) name
      index.undigested.nameSorted =
        lookup cmpStr (recordName index.arena index.records) name index.nameSorted := by
    simp [undigested,recordName_undigested]
  rw [get,get,hlookup,map_bind,map_bind]
  congr 1
  funext ri
  exact index.pkgRef_undigested ri

theorem names_undigested : index.undigested.names = index.names := by
  simp [names,undigested,recordName_undigested]

theorem getProvider_undigested (name : List Char) : (index.undigested.getProvider name).map PkgRef.fields =
      (index.getProvider name).map fun r => r.fields.undigested := by
  have hget := index.get_undigested name
  rw [getProvider,getProvider]
  cases hr : index.get name with
  | some r =>
    rw [hr] at hget
    obtain ⟨r',hr',hfields⟩ := map_eq_some_iff.mp hget
    rw [hr',map_some,hfields,map_some]
  | none =>
    rw [hr] at hget
    rw [map_eq_none_iff.mp hget,map_bind,map_bind]
    congr 1
    funext e
    exact index.pkgRef_undigested e.record

/-- Every query has the same answer in both. -/
structure SameAnswers (i j : PackageIndex) : Prop where
  get : ∀ name, (i.get name).map PkgRef.fields = (j.get name).map PkgRef.fields
  getProvider : ∀ name,
    (i.getProvider name).map PkgRef.fields = (j.getProvider name).map PkgRef.fields
  names : i.names = j.names

theorem sameAnswers_undigested_iff : SameAnswers index.undigested index ↔
      ∀ name r, index.getProvider name = some r → r.sha256 = none := by
  have hfields : ∀ r : PkgRef, r.fields.undigested = r.fields ↔ r.sha256 = none := by
    intro r
    simp [PkgFields.undigested,PkgRef.fields,eq_comm]
  constructor
  · intro h name r hr
    have hsame := h.getProvider name
    rw [getProvider_undigested,hr] at hsame
    exact (hfields r).mp (Option.some.inj hsame)
  intro h
  refine ⟨?_,?_,index.names_undigested⟩
  · intro name
    rw [get_undigested]
    cases hr : index.get name with
    | none => rfl
    | some r =>
      have hprov : index.getProvider name = some r := by rw [getProvider,hr]
      rw [map_some,map_some,(hfields r).mpr (h name r hprov)]
  · intro name
    rw [getProvider_undigested]
    cases hr : index.getProvider name with
    | none => rfl
    | some r => rw [map_some,map_some,(hfields r).mpr (h name r hr)]

end PackageIndex

open StanzaParser PackageIndex

theorem streamIndex_eq (chunks : List (List UInt8)) :
    streamIndex chunks = (pushAll (views chunks)).finish := by
  rw [streamIndex,streamViews_eq,pushAll]

theorem pushAll_eq (stanzas : List StanzaView) : pushAll stanzas =
      (stanzas.map StanzaView.record).foldl PackageIndexBuilder.internRecord {} := by
  rw [pushAll,foldl_map]
  rfl

theorem fromRecords_parsePackages (chunks : List (List UInt8)) :
    fromRecords (parsePackages chunks.flatten) = (streamIndex chunks).undigested := by
  rw [streamIndex_eq,← finish_undigested,pushAll_eq,← undigested_foldl,parsePackages_flatten]
  rfl

theorem records_foldl_internRecord (records : List PkgRecord) (b : PackageIndexBuilder) :
    (records.foldl PackageIndexBuilder.internRecord b).records.map PkgRecordC.sha256 =
      b.records.map PkgRecordC.sha256 ++ records.map PkgRecord.sha256 := by
  induction records generalizing b with
  | nil => simp
  | cons rec records ih =>
    rw [foldl_cons,ih,records_internRecord]
    simp [PackageIndexBuilder.compact]

theorem sha256_of_getProvider {chunks : List (List UInt8)} {name : List Char} {r : PkgRef}
    (h : (streamIndex chunks).getProvider name = some r) :
    ∃ rec ∈ parsePackages chunks.flatten, r.sha256 = rec.sha256 := by
  have hmem := mem_map_of_mem (f := PkgRecordC.sha256) (of_getProvider h).2
  have hrecords : (streamIndex chunks).records.map PkgRecordC.sha256 =
      (parsePackages chunks.flatten).map PkgRecord.sha256 := by
    rw [streamIndex_eq,pushAll_eq,parsePackages_flatten]
    exact records_foldl_internRecord _ _
  rw [hrecords] at hmem
  obtain ⟨rec,hrec,hsha⟩ := mem_map.mp hmem
  exact ⟨rec,hrec,hsha.symm⟩

/-- No record that answers a name carries a digest: neither the last record of a package
name nor the first to provide a name no package has. -/
def NoDigestShown (records : List PkgRecord) : Prop :=
  ∀ name rec, provider records name = some rec → rec.sha256 = none

/-- The two routes agree on a text none of whose stanzas has a digest, and below 4 GiB of
interned text exactly on those in which none that can be asked for has one. -/
theorem routes_agree_iff (chunks : List (List UInt8)) :
    ((∀ rec ∈ parsePackages chunks.flatten, rec.sha256 = none) →
      SameAnswers (fromRecords (parsePackages chunks.flatten)) (streamIndex chunks)) ∧
    ((streamIndex chunks).arena.length < 4294967296 →
      (SameAnswers (fromRecords (parsePackages chunks.flatten)) (streamIndex chunks) ↔
        NoDigestShown (parsePackages chunks.flatten))) := by
  rw [fromRecords_parsePackages,sameAnswers_undigested_iff]
  constructor
  · intro hnone name r hr
    obtain ⟨rec,hrec,hsha⟩ := sha256_of_getProvider hr
    rw [hsha]
    exact hnone rec hrec
  intro hbytes
  have hfit : (pushAll (views chunks)).arena.length < 4294967296 := by
    rw [streamIndex_eq] at hbytes
    exact hbytes
  have hprov := (holds_pushAll hfit).getProvider_eq
  rw [← parsePackages_flatten,← streamIndex_eq] at hprov
  constructor
  · intro h name rec hrec
    have hsame := hprov name
    rw [hrec] at hsame
    obtain ⟨r,hr,hfields⟩ := map_eq_some_iff.mp hsame
    have hsha : rec.sha256 = r.sha256 := (congrArg PkgFields.sha256 hfields).symm
    rw [hsha]
    exact h name r hr
  · intro h name r hr
    have hsame := hprov name
    rw [hr] at hsame
    obtain ⟨rec,hrec,hfields⟩ := map_eq_some_iff.mp hsame.symm
    have hsha : r.sha256 = rec.sha256 := (congrArg PkgFields.sha256 hfields).symm
    rw [hsha]
    exact h name rec hrec

def plainText : List UInt8 := utf8Encode "Package: a\nVersion: 1\n\nPackage: b\n".toList

theorem plainText_routes_agree : (∀ rec ∈ parsePackages [plainText].flatten, rec.sha256 = none) ∧
      SameAnswers (fromRecords (parsePackages [plainText].flatten)) (streamIndex [plainText]) :=
  ⟨by decide +kernel,(routes_agree_iff [plainText]).1 (by decide +kernel)⟩

def digestText : List UInt8 := utf8Encode ("Package: a\nSHA256: ".toList ++ List.replicate 64 '0')

theorem fromRecords_drops_digest :
    ((fromRecords (parsePackages digestText)).get "a".toList).map PkgRef.fields ≠
      ((streamIndex [digestText]).get "a".toList).map PkgRef.fields := by
  decide +kernel

end PaghOS.Apt
