import PaghOS.Apt.Index

/-!
The compact index against the list of its records: the last record of a name, the
distinct names in order, the first record that provides a name no package has.
-/

namespace PaghOS.Apt
open List hiding utf8Encode
open Option PackageIndexBuilder

open Text
open Search

/-! ### The reference: queries over the records themselves -/

variable {rec : PkgRecord} {arena : List UInt8} {s q : List Char} {group : DepGroup} {n : Nat}
    {b' : PackageIndexBuilder} {c : PkgRecordC}
variable {ss : List (List Char)} {g : DepGroupC} {groups : List DepGroup}
    {stanzas : List StanzaView} {β : Type} {i : Nat}

def lastNamed (records : List PkgRecord) (name : List Char) : Option PkgRecord :=
  (records.filter (·.package = name)).getLast?

def PkgRecord.offers (name : List Char) (rec : PkgRecord) : Bool :=
  name ≠ [] && rec.provides.contains name

def firstProviding (records : List PkgRecord) (name : List Char) : Option PkgRecord :=
  records.find? (·.offers name)

def provider (records : List PkgRecord) (name : List Char) : Option PkgRecord :=
  (lastNamed records name).or (firstProviding records name)

/-! ### Ranges that stay where they are while the buffers grow -/

section Range

variable {α : Type} {l m part : List α} {start len : Nat}

def Stands (l : List α) (start len : Nat) (part : List α) : Prop :=
  start+len ≤ l.length ∧ slice l start len = part

theorem Stands.mono (h : Stands l start len part) (hlm : l <+: m) : Stands m start len part := by
  obtain ⟨rest,rfl⟩ := hlm
  have hle := h.1
  refine ⟨by rw [length_append]; omega,?_⟩
  rw [← h.2,slice,slice,drop_append_of_le_length (by omega),
    take_append_of_le_length (by rw [length_drop]; omega)]

theorem asU32_eq {n : Nat} (h : n < 4294967296) : asU32 n = n := Nat.mod_eq_of_lt h

/-- What is put at the end of a buffer stands there under its 32-bit offset and length. -/
theorem stands_end (hpart : part.length = len) (hfit : (l ++ part).length < 4294967296) :
    Stands (l ++ part) (asU32 l.length) (asU32 len) part := by
  subst hpart
  rw [length_append] at hfit
  rw [asU32_eq (by omega),asU32_eq (by omega)]
  exact ⟨by simp,by simp [slice]⟩

end Range

def Names (arena : List UInt8) (r : StrRef) (s : List Char) : Prop :=
  Stands arena r.off r.len (utf8Encode s)

theorem Names.resolve {r : StrRef} (h : Names arena r s) : resolve arena r = s := by
  have hslice : (arena.drop r.off).take r.len = utf8Encode s := h.2
  rw [Apt.resolve,if_pos h.1,hslice,utf8Decode_utf8Encode,getD_some]

theorem Names.mono {arena' : List UInt8} {r : StrRef} (h : Names arena r s)
    (ha : arena <+: arena') : Names arena' r s := Stands.mono h ha

namespace PackageIndexBuilder

variable (b : PackageIndexBuilder)

def internRef (arena : List UInt8) (s : List Char) : StrRef :=
  if s = [] then .empty else ⟨asU32 arena.length,asU32 (utf8Encode s).length⟩

theorem intern_eq (s : List Char) :
    b.intern s = (internRef b.arena s,{ b with arena := b.arena ++ utf8Encode s }) := by
  by_cases hs : s = []
  · simp [intern,internRef,hs]
  · simp [intern,internRef,hs]

theorem names_internRef (hfit : (arena ++ utf8Encode s).length < 4294967296) :
    Names (arena ++ utf8Encode s) (internRef arena s) s := by
  by_cases hs : s = []
  · subst hs
    simp [Names,Stands,internRef,StrRef.empty,slice]
  · rw [internRef,if_neg hs]
    exact stands_end rfl hfit

def internRefs : List UInt8 → List (List Char) → List StrRef
  | _, [] => []
  | arena, s :: ss => internRef arena s :: internRefs (arena ++ utf8Encode s) ss

def bytesOf (ss : List (List Char)) : List UInt8 := ss.flatMap utf8Encode

@[simp] theorem length_internRefs (arena : List UInt8) (ss : List (List Char)) :
    (internRefs arena ss).length = ss.length := by
  induction ss generalizing arena with
  | nil => rfl
  | cons s ss ih => simp [internRefs,ih]

theorem names_internRefs (hfit : (arena ++ bytesOf ss).length < 4294967296) :
    List.Forall₂ (Names (arena ++ bytesOf ss)) (internRefs arena ss) ss := by
  induction ss generalizing arena with
  | nil => exact .nil
  | cons s ss ih =>
    have hbytes : arena ++ bytesOf (s :: ss) = arena ++ utf8Encode s ++ bytesOf ss := by
      simp [bytesOf]
    rw [hbytes] at hfit ⊢
    have hhead : (arena ++ utf8Encode s).length < 4294967296 := by
      rw [length_append] at hfit
      omega
    exact .cons ((names_internRef hhead).mono (prefix_append _ _)) (ih hfit)

theorem length_le_bytesOf (h : ∀ s ∈ ss, s ≠ []) : ss.length ≤ (bytesOf ss).length := by
  induction ss with
  | nil => simp
  | cons s ss ih =>
    have hs : 0 < (utf8Encode s).length := by
      rw [length_pos_iff]
      exact fun he => h s (by simp) (utf8Encode_eq_nil.mp he)
    have hrest := ih fun t ht => h t (by simp [ht])
    simp only [bytesOf,flatMap_cons,length_cons,length_append] at hrest ⊢
    omega

theorem foldl_internAlt (alts : List (List Char)) : alts.foldl internAlt b =
      { b with arena := b.arena ++ bytesOf alts, depAlts := b.depAlts ++ internRefs b.arena alts } := by
  induction alts generalizing b with
  | nil => simp [bytesOf,internRefs]
  | cons alt alts ih => simp [ih,internAlt,intern_eq,bytesOf,internRefs]

theorem foldl_internProv (provs : List (List Char)) : provs.foldl internProv b =
      { b with arena := b.arena ++ bytesOf provs
               provRefs := b.provRefs ++ internRefs b.arena provs } := by
  induction provs generalizing b with
  | nil => simp [bytesOf,internRefs]
  | cons prov provs ih => simp [ih,internProv,intern_eq,bytesOf,internRefs]

/-- Every buffer of `b` is the start of the one of `b'`. -/
structure Grows (b b' : PackageIndexBuilder) : Prop where
  arena : b.arena <+: b'.arena
  depGroups : b.depGroups <+: b'.depGroups
  depAlts : b.depAlts <+: b'.depAlts
  provRefs : b.provRefs <+: b'.provRefs

theorem Grows.trans {a b c : PackageIndexBuilder} (hab : Grows a b) (hbc : Grows b c) : Grows a c :=
  ⟨hab.arena.trans hbc.arena,hab.depGroups.trans hbc.depGroups,hab.depAlts.trans hbc.depAlts,
    hab.provRefs.trans hbc.provRefs⟩

/-- No offset into a buffer is cut to 32 bits. -/
structure Fits (b : PackageIndexBuilder) : Prop where
  arena : b.arena.length < 4294967296
  depGroups : b.depGroups.length < 4294967296
  depAlts : b.depAlts.length < 4294967296
  provRefs : b.provRefs.length < 4294967296

theorem Grows.fits {b : PackageIndexBuilder} (h : Grows b b') (hfit : b'.Fits) : b.Fits := by
  have harena := h.arena.length_le
  have hgroups := h.depGroups.length_le
  have halts := h.depAlts.length_le
  have hprovs := h.provRefs.length_le
  exact ⟨harena.trans_lt hfit.arena,hgroups.trans_lt hfit.depGroups,halts.trans_lt hfit.depAlts,
    hprovs.trans_lt hfit.provRefs⟩

def GroupHolds (b : PackageIndexBuilder) (g : DepGroupC) (group : DepGroup) : Prop :=
  ∃ refs, Stands b.depAlts g.altStart g.altLen refs ∧ List.Forall₂ (Names b.arena) refs group.alts

theorem GroupHolds.mono {b : PackageIndexBuilder}
    (h : GroupHolds b g group) (hgrow : Grows b b') : GroupHolds b' g group := by
  obtain ⟨refs,hrefs,hnames⟩ := h
  exact ⟨refs,hrefs.mono hgrow.depAlts,hnames.imp fun _ _ hn => hn.mono hgrow.arena⟩

/-- The compact record stands for `rec`. -/
structure RecordHolds (b : PackageIndexBuilder) (c : PkgRecordC) (rec : PkgRecord) : Prop where
  package : Names b.arena c.package rec.package
  version : Names b.arena c.version rec.version
  arch : Names b.arena c.arch rec.arch
  filename : Names b.arena c.filename rec.filename
  size : c.size = rec.size
  sha256 : c.sha256 = rec.sha256
  depends : ∃ groups, Stands b.depGroups c.depGroupStart c.depGroupLen groups ∧
    List.Forall₂ (GroupHolds b) groups rec.depends
  provides : ∃ refs, Stands b.provRefs c.provStart c.provLen refs ∧
    List.Forall₂ (Names b.arena) refs rec.provides

theorem RecordHolds.mono {b : PackageIndexBuilder}
    (h : RecordHolds b c rec) (hgrow : Grows b b') : RecordHolds b' c rec where
  package := h.package.mono hgrow.arena
  version := h.version.mono hgrow.arena
  arch := h.arch.mono hgrow.arena
  filename := h.filename.mono hgrow.arena
  size := h.size
  sha256 := h.sha256
  depends := by
    obtain ⟨groups,hstands,hgroups⟩ := h.depends
    exact ⟨groups,hstands.mono hgrow.depGroups,hgroups.imp fun _ _ hg => hg.mono hgrow⟩
  provides := by
    obtain ⟨refs,hstands,hnames⟩ := h.provides
    exact ⟨refs,hstands.mono hgrow.provRefs,hnames.imp fun _ _ hn => hn.mono hgrow.arena⟩

theorem internGroup_eq (group : DepGroup) : b.internGroup group = { b with
        arena := b.arena ++ bytesOf group.alts
        depAlts := b.depAlts ++ internRefs b.arena group.alts
        depGroups := b.depGroups ++ [⟨asU32 b.depAlts.length,asU32 group.alts.length⟩] } := by
  simp [internGroup,foldl_internAlt]

theorem grows_internGroup (group : DepGroup) : Grows b (b.internGroup group) := by
  rw [internGroup_eq]
  exact ⟨prefix_append _ _,prefix_append _ _,prefix_append _ _,prefix_rfl⟩

theorem internGroup_holds (hfit : (b.internGroup group).Fits) :
    GroupHolds (b.internGroup group) ⟨asU32 b.depAlts.length,asU32 group.alts.length⟩ group := by
  rw [internGroup_eq] at hfit ⊢
  exact ⟨_,stands_end (length_internRefs _ _) hfit.depAlts,names_internRefs hfit.arena⟩

theorem grows_foldl_internGroup (groups : List DepGroup) : Grows b (groups.foldl internGroup b) := by
  induction groups generalizing b with
  | nil => exact ⟨prefix_rfl,prefix_rfl,prefix_rfl,prefix_rfl⟩
  | cons group groups ih => exact (grows_internGroup b group).trans (ih _)

theorem foldl_internGroup_holds (hfit : (groups.foldl internGroup b).Fits) :
    ∃ gs, (groups.foldl internGroup b).depGroups = b.depGroups ++ gs ∧
      List.Forall₂ (GroupHolds (groups.foldl internGroup b)) gs groups := by
  induction groups generalizing b with
  | nil => exact ⟨[],by simp,.nil⟩
  | cons group groups ih =>
    rw [foldl_cons] at hfit ⊢
    have hgrow := grows_foldl_internGroup (b.internGroup group) groups
    obtain ⟨gs,hgs,hholds⟩ := ih _ hfit
    refine ⟨⟨asU32 b.depAlts.length,asU32 group.alts.length⟩ :: gs,?_,?_⟩
    · rw [hgs,internGroup_eq]
      simp
    · exact .cons ((internGroup_holds b (hgrow.fits hfit)).mono hgrow) hholds

def heading (rec : PkgRecord) : List (List Char) :=
  [rec.package,rec.version,rec.arch,rec.filename]

def headed (rec : PkgRecord) : PackageIndexBuilder :=
  { b with arena := b.arena ++ bytesOf (heading rec) }

def grouped (rec : PkgRecord) : PackageIndexBuilder := rec.depends.foldl internGroup (b.headed rec)

def provided (rec : PkgRecord) : PackageIndexBuilder :=
  { b.grouped rec with
    arena := (b.grouped rec).arena ++ bytesOf rec.provides
    provRefs := (b.grouped rec).provRefs ++ internRefs (b.grouped rec).arena rec.provides }

def compact (rec : PkgRecord) : PkgRecordC where
  package := internRef b.arena rec.package
  version := internRef (b.arena ++ utf8Encode rec.package) rec.version
  arch := internRef (b.arena ++ utf8Encode rec.package ++ utf8Encode rec.version) rec.arch
  filename :=
    internRef (b.arena ++ utf8Encode rec.package ++ utf8Encode rec.version ++ utf8Encode rec.arch)
      rec.filename
  size := rec.size
  sha256 := rec.sha256
  depGroupStart := asU32 b.depGroups.length
  depGroupLen := asU32 rec.depends.length
  provStart := asU32 (b.grouped rec).provRefs.length
  provLen := asU32 rec.provides.length

theorem internRecord_eq (rec : PkgRecord) : b.internRecord rec =
      { b.provided rec with records := (b.provided rec).records ++ [b.compact rec] } := by
  have hhead : b.headed rec =
      ((((b.intern rec.package).2.intern rec.version).2.intern rec.arch).2.intern rec.filename).2 := by
    simp [headed,heading,bytesOf,intern_eq]
  simp only [internRecord,← hhead,foldl_internProv]
  simp only [intern_eq]
  rfl

theorem grows_headed (rec : PkgRecord) : Grows b (b.headed rec) :=
  ⟨prefix_append _ _,prefix_rfl,prefix_rfl,prefix_rfl⟩

theorem grows_grouped (rec : PkgRecord) : Grows (b.headed rec) (b.grouped rec) :=
  grows_foldl_internGroup _ _

theorem grows_provided (rec : PkgRecord) : Grows (b.grouped rec) (b.provided rec) :=
  ⟨prefix_append _ _,prefix_rfl,prefix_rfl,prefix_append _ _⟩

theorem grows_internRecord (rec : PkgRecord) : Grows b (b.internRecord rec) := by
  have h := ((grows_headed b rec).trans (grows_grouped b rec)).trans (grows_provided b rec)
  rw [internRecord_eq]
  exact ⟨h.arena,h.depGroups,h.depAlts,h.provRefs⟩

@[simp] theorem records_internGroup (group : DepGroup) : (b.internGroup group).records = b.records := by
  rw [internGroup_eq]

theorem records_grouped (rec : PkgRecord) : (b.grouped rec).records = b.records := by
  have h : ∀ (groups : List DepGroup) (b : PackageIndexBuilder),
      (groups.foldl internGroup b).records = b.records := by
    intro groups
    induction groups with
    | nil => simp
    | cons group groups ih => simp [ih]
  rw [grouped,h,headed]

theorem records_internRecord (rec : PkgRecord) :
    (b.internRecord rec).records = b.records ++ [b.compact rec] := by
  rw [internRecord_eq]
  simp [provided,records_grouped]

theorem internRecord_holds (hfit : (b.internRecord rec).Fits) :
    RecordHolds (b.internRecord rec) (b.compact rec) rec := by
  have hprov : (b.provided rec).Fits := by
    rw [internRecord_eq] at hfit
    exact ⟨hfit.arena,hfit.depGroups,hfit.depAlts,hfit.provRefs⟩
  have hgroup := (grows_provided b rec).fits hprov
  have hhead := (grows_grouped b rec).fits hgroup
  suffices h : RecordHolds (b.provided rec) (b.compact rec) rec by
    rw [internRecord_eq]
    exact ⟨h.package,h.version,h.arch,h.filename,h.size,h.sha256,h.depends,h.provides⟩
  have hgrow := (grows_grouped b rec).trans (grows_provided b rec)
  have hnames := names_internRefs hhead.arena
  simp only [heading,internRefs,List.forall₂_cons,List.forall₂_nil_left_iff] at hnames
  obtain ⟨hpackage,hversion,harch,hfilename,-⟩ := hnames
  refine ⟨Names.mono hpackage hgrow.arena,Names.mono hversion hgrow.arena,
    Names.mono harch hgrow.arena,Names.mono hfilename hgrow.arena,rfl,rfl,?_,?_⟩
  · obtain ⟨gs,hgs,hholds⟩ := foldl_internGroup_holds (b.headed rec) hgroup
    refine ⟨gs,?_,hholds.imp fun _ _ hg => hg.mono (grows_provided b rec)⟩
    have hfits := hgroup.depGroups
    simp only [provided,grouped,hgs] at hfits ⊢
    exact stands_end hholds.length_eq hfits
  · exact ⟨_,stands_end (length_internRefs _ _) hprov.provRefs,names_internRefs hprov.arena⟩

/-- Each entry of a table and `n` records to come have a byte of their own. -/
structure Counted (n : Nat) (b : PackageIndexBuilder) : Prop where
  bytes : b.depAlts.length+b.provRefs.length+b.records.length+n ≤ b.arena.length
  groups : b.depGroups.length ≤ b.depAlts.length

theorem Counted.fits {b : PackageIndexBuilder} (h : Counted 0 b)
    (harena : b.arena.length < 4294967296) : b.Fits := by
  have hbytes := h.bytes
  have hgroups := h.groups
  exact ⟨harena,by omega,by omega,by omega⟩

end PackageIndexBuilder

/-- No name of the record is empty, and no group is. -/
structure PkgRecord.WellNamed (rec : PkgRecord) : Prop where
  package : rec.package ≠ []
  depends : ∀ group ∈ rec.depends, group.alts ≠ [] ∧ ∀ alt ∈ group.alts, alt ≠ []
  provides : ∀ prov ∈ rec.provides, prov ≠ []

theorem ne_nil_of_mem_bareNames {sep : Char} {value : List Char} (h : s ∈ bareNames sep value) :
    s ≠ [] := by
  have := (mem_filter.mp h).2
  simpa using this

theorem StanzaView.wellNamed (v : StanzaView) : v.record.WellNamed where
  package := by
    have h := v.named
    simp only [StanzaBuilder.hasPackage,decide_eq_true_eq] at h
    exact h
  depends := by
    intro group hgroup
    simp only [record,List.mem_map] at hgroup
    obtain ⟨g,hg,rfl⟩ := hgroup
    refine ⟨?_,fun alt halt => ne_nil_of_mem_bareNames halt⟩
    have hne := (mem_filter.mp hg).2
    intro hnil
    simp only [] at hnil
    simp [DepGroupView.isEmpty,hnil] at hne
  provides := fun _ h => ne_nil_of_mem_bareNames h

namespace PackageIndexBuilder

variable {b : PackageIndexBuilder}

theorem counted_internGroup (h : Counted n b) (hne : group.alts ≠ [])
    (halts : ∀ alt ∈ group.alts, alt ≠ []) : Counted n (b.internGroup group) := by
  have hbytes := h.bytes
  have hgroups := h.groups
  have hlen := length_le_bytesOf halts
  have hpos := length_pos_iff.mpr hne
  rw [internGroup_eq]
  constructor
  · simp only [length_append,length_internRefs]
    omega
  · simp only [length_append,length_internRefs,length_singleton]
    omega

theorem counted_foldl_internGroup
    (hgroups : ∀ group ∈ groups, group.alts ≠ [] ∧ ∀ alt ∈ group.alts, alt ≠ []) :
    Counted n b → Counted n (groups.foldl internGroup b) := by
  induction groups generalizing b with
  | nil => exact id
  | cons group groups ih =>
    intro h
    have hgroup := hgroups group (by simp)
    exact ih (fun g hg => hgroups g (by simp [hg])) (counted_internGroup h hgroup.1 hgroup.2)

theorem counted_internRecord (h : Counted 0 b) (hrec : rec.WellNamed) :
    Counted 0 (b.internRecord rec) := by
  have hhead : Counted 1 (b.headed rec) := by
    have hbytes := h.bytes
    have hpkg : 0 < (utf8Encode rec.package).length := by
      rw [length_pos_iff]
      exact fun he => hrec.package (utf8Encode_eq_nil.mp he)
    refine ⟨?_,h.groups⟩
    simp only [headed,heading,bytesOf,flatMap_cons,length_append]
    omega
  have hgrouped : Counted 1 (b.grouped rec) := counted_foldl_internGroup hrec.depends hhead
  have hbytes := hgrouped.bytes
  have hlen := length_le_bytesOf hrec.provides
  rw [internRecord_eq]
  constructor
  · simp only [provided,length_append,length_internRefs,length_singleton]
    omega
  · exact hgrouped.groups

/-- The compact records stand for `records`, and nothing is cut to 32 bits. -/
structure Holds (b : PackageIndexBuilder) (records : List PkgRecord) : Prop where
  counted : Counted 0 b
  fits : b.Fits
  records : List.Forall₂ (RecordHolds b) b.records records

theorem holds_new : Holds {} [] where
  counted := ⟨le_rfl,le_rfl⟩
  fits := by
    constructor <;> decide
  records := .nil

theorem Holds.internRecord {records : List PkgRecord} (h : Holds b records)
    (hrec : rec.WellNamed) (hfit : (b.internRecord rec).arena.length < 4294967296) :
    Holds (b.internRecord rec) (records ++ [rec]) := by
  have hcounted := counted_internRecord h.counted hrec
  have hfits := hcounted.fits hfit
  refine ⟨hcounted,hfits,?_⟩
  rw [records_internRecord]
  apply rel_append
  · exact h.records.imp fun _ _ hc => hc.mono (grows_internRecord b rec)
  · exact .cons (internRecord_holds b hfits) .nil

theorem grows_foldl_pushStanza (stanzas : List StanzaView) (b : PackageIndexBuilder) :
    Grows b (stanzas.foldl pushStanza b) := by
  induction stanzas generalizing b with
  | nil => exact ⟨prefix_rfl,prefix_rfl,prefix_rfl,prefix_rfl⟩
  | cons v stanzas ih => exact (grows_internRecord b v.record).trans (ih _)

theorem Holds.foldl_pushStanza {records : List PkgRecord} :
    Holds b records → (stanzas.foldl pushStanza b).arena.length < 4294967296 →
      Holds (stanzas.foldl pushStanza b) (records ++ stanzas.map StanzaView.record) := by
  induction stanzas generalizing b records with
  | nil =>
    intro h _
    simpa using h
  | cons v stanzas ih =>
    intro h hfit
    rw [foldl_cons] at hfit ⊢
    have hgrow := grows_foldl_pushStanza stanzas (b.pushStanza v)
    have hnext := h.internRecord v.wellNamed (hgrow.arena.length_le.trans_lt hfit)
    have hrest := ih hnext hfit
    rw [append_assoc] at hrest
    exact hrest

theorem holds_pushAll (hfit : (pushAll stanzas).arena.length < 4294967296) :
    Holds (pushAll stanzas) (stanzas.map StanzaView.record) := by
  have h := holds_new.foldl_pushStanza hfit
  rw [nil_append] at h
  exact h

end PackageIndexBuilder

/-! ### The queries -/

instance : Std.TransCmp cmpBytes := inferInstanceAs (Std.TransCmp (List.compareLex _))

instance : Std.LawfulEqCmp cmpBytes := inferInstanceAs (Std.LawfulEqCmp (List.compareLex _))

instance : Std.TransCmp cmpStr where
  eq_swap := (inferInstance : Std.OrientedCmp cmpBytes).eq_swap
  isLE_trans := (inferInstance : Std.TransCmp cmpBytes).isLE_trans

instance : Std.LawfulEqCmp cmpStr where
  compare_self := (inferInstance : Std.ReflCmp cmpBytes).compare_self
  eq_of_compare h := utf8Encode_injective (Std.LawfulEqCmp.eq_of_compare h)

theorem map_eq_of_forall₂ {α γ : Type} {R : α → β → Prop} {f : α → γ} {g : β → γ}
    (hR : ∀ a b, R a b → f a = g b) {l : List α} {m : List β} (h : List.Forall₂ R l m) :
    l.map f = m.map g := by
  induction h with
  | nil => rfl
  | cons hab _ ih => rw [map_cons,map_cons,hR _ _ hab,ih]

section Positions

variable {α : Type}

theorem filterMap_range (p : α → Bool) (l : List α) :
    ((List.range l.length).filter (fun i => (l[i]?).any p)).filterMap (l[·]?) = l.filter p := by
  have hall : (List.range l.length).filterMap (l[·]?) = l := by
    have hget : (List.range l.length).map (l[·]?) = l.map some := ext_getElem (by simp) (by simp)
    simpa [filterMap_map] using congrArg (List.filterMap id) hget
  conv_rhs => rw [← hall,filter_filterMap]
  rw [filterMap_filter]
  refine filterMap_congr fun i _ => ?_
  cases l[i]? <;> simp [Option.filter]

theorem getLast?_filterMap {f : α → Option β} {l : List α}
    (h : ∀ a ∈ l, (f a).isSome = true) : (l.filterMap f).getLast? = l.getLast?.bind f := by
  rcases eq_nil_or_concat l with rfl | ⟨init,a,rfl⟩
  · rfl
  · obtain ⟨x,hx⟩ := isSome_iff_exists.mp (h a (by simp))
    simp [hx]

end Positions

namespace PackageIndexBuilder

variable {b : PackageIndexBuilder} {records : List PkgRecord}

theorem GroupHolds.alts_eq (h : GroupHolds b g group) :
    (slice b.depAlts g.altStart g.altLen).map (resolve b.arena) = group.alts := by
  obtain ⟨refs,hrefs,hnames⟩ := h
  rw [hrefs.2,map_eq_of_forall₂ (g := id) (fun _ _ hn => hn.resolve) hnames,List.map_id]

theorem RecordHolds.fields_eq (h : RecordHolds b c rec) : PkgRef.fields ⟨b.finish,c⟩ = rec.fields := by
  have hdepends : PkgRef.depends ⟨b.finish,c⟩ = rec.depends.map (·.alts) := by
    obtain ⟨groups,hstands,hgroups⟩ := h.depends
    have hslice : slice b.finish.depGroups c.depGroupStart c.depGroupLen = groups := hstands.2
    rw [PkgRef.depends,hslice]
    exact map_eq_of_forall₂ (fun _ _ hg => hg.alts_eq) hgroups
  rw [PkgRef.fields,hdepends,PkgRecord.fields,← h.package.resolve,← h.version.resolve,
    ← h.arch.resolve,← h.filename.resolve,← h.size,← h.sha256]
  rfl

theorem Holds.length_lt (h : Holds b records) : records.length < 4294967296 := by
  have hbytes := h.counted.bytes
  have harena := h.fits.arena
  have hlen := h.records.length_eq
  omega

theorem Holds.count_eq (h : Holds b records) : asU32 b.records.length = records.length := by
  rw [h.records.length_eq,asU32_eq h.length_lt]

theorem Holds.pkgRef_fields (h : Holds b records) (i : Nat) :
    (b.finish.pkgRef i).map PkgRef.fields = (records[i]?).map PkgRecord.fields := by
  have hmap := map_eq_of_forall₂ (fun _ _ hc => hc.fields_eq) h.records
  rw [← getElem?_map,← hmap,getElem?_map,PackageIndex.pkgRef,Option.map_map]
  rfl

theorem Holds.recordName_eq (h : Holds b records) (i : Nat) :
    recordName b.arena b.records i = ((records[i]?).map (·.package)).getD [] := by
  have hmap := map_eq_of_forall₂ (fun _ _ hc => hc.package.resolve) h.records
  rw [recordName,← getElem?_map,← getElem?_map,hmap]

theorem Holds.filter_range (h : Holds b records) (name : List Char) :
    (List.range (asU32 b.records.length)).filter (fun i => recordName b.arena b.records i = name) =
      (List.range records.length).filter (fun i => (records[i]?).any (·.package = name)) := by
  rw [h.count_eq]
  apply filter_congr
  intro i hi
  have hlt : i < records.length := mem_range.mp hi
  rw [h.recordName_eq,getElem?_eq_getElem hlt]
  simp

theorem sorted_nameSorted (b : PackageIndexBuilder) :
    Sorted cmpStr (recordName b.arena b.records) b.nameSorted := sorted_sortTable _

theorem filter_nameSorted (b : PackageIndexBuilder) (name : List Char) :
    b.nameSorted.filter (fun i => recordName b.arena b.records i = name) =
      (List.range (asU32 b.records.length)).filter (fun i => recordName b.arena b.records i = name) := by
  apply filter_sortTable
  exact pairwise_lt_range.imp fun h => le_of_lt h

theorem lookup_nameSorted (b : PackageIndexBuilder) (name : List Char) :
    lookup cmpStr (recordName b.arena b.records) name b.nameSorted =
      ((List.range (asU32 b.records.length)).filter
        (fun i => recordName b.arena b.records i = name)).getLast? := by
  rw [lookup_eq (sorted_nameSorted b) name,filter_nameSorted]

theorem Holds.get_eq (h : Holds b records) (name : List Char) :
    (b.finish.get name).map PkgRef.fields = (lastNamed records name).map PkgRecord.fields := by
  have hsome : ∀ i ∈ (List.range records.length).filter
      (fun i => (records[i]?).any (·.package = name)), (records[i]?).isSome = true := by
    intro i hi
    have hlt := mem_range.mp (mem_filter.mp hi).1
    simp [hlt]
  have hlast := getLast?_filterMap hsome
  rw [filterMap_range] at hlast
  have hlookup : lookup cmpStr (recordName b.finish.arena b.finish.records) name
      b.finish.nameSorted = ((List.range records.length).filter
        (fun i => (records[i]?).any (·.package = name))).getLast? := by
    rw [← h.filter_range]
    exact lookup_nameSorted b name
  rw [PackageIndex.get,hlookup,lastNamed,hlast,map_bind,map_bind]
  congr 1
  funext i
  exact h.pkgRef_fields i

theorem get_isSome (hn : b.records.length < 4294967296) (hi : i < b.records.length) :
    (b.finish.get (recordName b.arena b.records i)).isSome = true := by
  have hmem : i ∈ (List.range (asU32 b.records.length)).filter
      (fun j => recordName b.arena b.records j = recordName b.arena b.records i) := by
    rw [asU32_eq hn]
    simp [hi]
  obtain ⟨j,hj⟩ := isSome_iff_exists.mp
    (getLast?_isSome.mpr (ne_nil_of_mem hmem))
  have hlt : j < b.records.length := by
    have hin := (mem_filter.mp (mem_of_getLast? hj)).1
    rw [asU32_eq hn] at hin
    exact mem_range.mp hin
  have hlookup : lookup cmpStr (recordName b.finish.arena b.finish.records)
      (recordName b.arena b.records i) b.finish.nameSorted = some j :=
    (lookup_nameSorted b _).trans hj
  have href : b.finish.pkgRef j = some ⟨b.finish,b.records[j]⟩ := by
    rw [PackageIndex.pkgRef,show b.finish.records = b.records from rfl,
      getElem?_eq_getElem hlt]
    rfl
  rw [PackageIndex.get,hlookup,bind_some,href]
  rfl

theorem mem_nameSorted : i ∈ b.nameSorted ↔ i < asU32 b.records.length := by
  have hperm : b.nameSorted.Perm (List.range (asU32 b.records.length)) := perm_sortTable _
  rw [hperm.mem_iff,mem_range]

theorem Holds.exists_named (h : Holds b records) (name : List Char) :
    (∃ i ∈ b.nameSorted, recordName b.arena b.records i = name) ↔
      ∃ rec ∈ records, rec.package = name := by
  simp only [mem_nameSorted,h.count_eq]
  constructor
  · rintro ⟨i,hi,hname⟩
    rw [h.recordName_eq,getElem?_eq_getElem hi] at hname
    exact ⟨records[i],getElem_mem hi,hname⟩
  rintro ⟨rec,hrec,rfl⟩
  obtain ⟨i,hi,rfl⟩ := getElem_of_mem hrec
  refine ⟨i,hi,?_⟩
  rw [h.recordName_eq,getElem?_eq_getElem hi]
  rfl

theorem Holds.mem_names_iff (h : Holds b records) (name : List Char) :
    name ∈ b.finish.names ↔ ∃ rec ∈ records, rec.package = name := by
  rw [← h.exists_named,← exists_mem_collapse (sorted_nameSorted b) name]
  exact mem_map

theorem names_increasing (b : PackageIndexBuilder) :
    b.finish.names.Pairwise (fun m n => cmpStr m n = .lt) := by
  rw [PackageIndex.names,pairwise_map]
  exact (pairwise_collapse (sorted_nameSorted b) (by simp)).1

theorem Holds.isReal_iff (h : Holds b records) (name : List Char) :
    b.isReal name = true ↔ ∃ rec ∈ records, rec.package = name := by
  rw [← h.exists_named,isReal]
  exact binarySearchBy_isOk_iff (sorted_nameSorted b) name

def entriesFor (b : PackageIndexBuilder) (q : List Char) (out : PkgRecordC × Nat) : List ProvEntry :=
  (((slice b.provRefs out.1.provStart out.1.provLen).filter fun pr =>
    !(resolve b.arena pr = [] || b.isReal (resolve b.arena pr))).map
      (ProvEntry.mk · (asU32 out.2))).filter fun e => resolve b.arena e.name = q

theorem filter_provEntries (b : PackageIndexBuilder) (q : List Char) :
    b.provEntries.filter (fun e => resolve b.arena e.name = q) =
      b.records.zipIdx.flatMap (b.entriesFor q) := by
  rw [provEntries,filter_flatMap]
  rfl

theorem record_of_mem_entriesFor {out : PkgRecordC × Nat} {e : ProvEntry}
    (he : e ∈ b.entriesFor q out) : e.record = asU32 out.2 := by
  simp only [entriesFor,mem_filter,List.mem_map] at he
  obtain ⟨⟨pr,-,rfl⟩,-⟩ := he
  rfl

theorem RecordHolds.entriesFor_eq_nil (h : RecordHolds b c rec) (hreal : b.isReal q = false) (i : Nat) :
    b.entriesFor q (c,i) = [] ↔ rec.offers q = false := by
  obtain ⟨refs,hstands,hnames⟩ := h.provides
  have hmap := map_eq_of_forall₂ (g := id) (fun _ _ hn => hn.resolve) hnames
  rw [List.map_id] at hmap
  rw [entriesFor,show slice b.provRefs (c,i).1.provStart (c,i).1.provLen = refs from hstands.2,
    PkgRecord.offers,← hmap,filter_eq_nil_iff,← Bool.not_eq_true,Bool.and_eq_true,
    contains_iff_mem]
  simp only [List.mem_map,mem_filter,Bool.not_eq_true',Bool.or_eq_false_iff,
    decide_eq_false_iff_not,decide_eq_true_eq]
  constructor
  · rintro hnone ⟨hq,pr,hpr,rfl⟩
    exact hnone ⟨pr,_⟩ ⟨pr,⟨hpr,hq,hreal⟩,rfl⟩ rfl
  · rintro hnot e ⟨pr,⟨hpr,hne,-⟩,rfl⟩ rfl
    exact hnot ⟨hne,pr,hpr,rfl⟩

theorem findSome?_entriesFor (hreal : b.isReal q = false) {cs : List PkgRecordC}
    {rs : List PkgRecord} (hholds : List.Forall₂ (RecordHolds b) cs rs) {k : Nat}
    (hk : k+cs.length ≤ 4294967296) :
    ((cs.zipIdx k).findSome? fun out => (b.entriesFor q out).head?).map ProvEntry.record =
      (rs.findIdx? fun rec => rec.offers q).map (k+·) := by
  induction hholds generalizing k with
  | nil => rfl
  | cons hc _ ih =>
    rename_i c rec cs rs _
    rw [length_cons] at hk
    rw [zipIdx_cons,findSome?_cons,findIdx?_cons]
    cases hq : rec.offers q with
    | true =>
      have hne : b.entriesFor q (c,k) ≠ [] := fun hnil =>
        absurd ((hc.entriesFor_eq_nil hreal k).mp hnil) (by simp [hq])
      obtain ⟨e,rest,he⟩ := exists_cons_of_ne_nil hne
      have hrec : e.record = k := by
        rw [record_of_mem_entriesFor (he ▸ mem_cons_self),asU32_eq (by omega)]
      simp [he,hrec]
    | false =>
      have hnil := (hc.entriesFor_eq_nil hreal k).mpr hq
      have hrest := ih (k := k+1) (by omega)
      have hshift : ((k+·) ∘ (·+1)) = (k+1+·) := by
        funext j
        simp only [Function.comp_apply]
        omega
      rw [hnil,head?_nil,if_neg (by simp),Option.map_map,hshift]
      exact hrest

theorem Holds.pairwise_provEntries (h : Holds b records) :
    b.provEntries.Pairwise (fun d e => d.record ≤ e.record) := by
  have hrecord : ∀ (out : PkgRecordC × Nat), out ∈ b.records.zipIdx → ∀ e,
      e ∈ ((slice b.provRefs out.1.provStart out.1.provLen).filter fun pr =>
        !(resolve b.arena pr = [] || b.isReal (resolve b.arena pr))).map
          (ProvEntry.mk · (asU32 out.2)) → e.record = out.2 := by
    intro out hout e he
    have hlt := snd_lt_of_mem_zipIdx hout
    have hlen := h.records.length_eq
    have hbound := h.length_lt
    obtain ⟨pr,-,rfl⟩ := mem_map.mp he
    exact asU32_eq (by omega)
  have hindex : b.records.zipIdx.Pairwise (fun d e => d.2 < e.2) := by
    rw [← pairwise_map (f := Prod.snd),zipIdx_map_snd]
    exact pairwise_lt_range'
  rw [provEntries,pairwise_flatMap]
  constructor
  · intro out hout
    apply pairwise_of_forall_mem_list
    intro d hd e he
    rw [hrecord out hout d hd,hrecord out hout e he]
  refine (List.Pairwise.and_mem.mp hindex).imp ?_
  intro out out' hlt d hd e he
  rw [hrecord out hlt.1 d hd,hrecord out' hlt.2.1 e he]
  exact le_of_lt hlt.2.2

theorem sorted_provSorted (b : PackageIndexBuilder) :
    Sorted cmpStr (fun e => resolve b.arena e.name) b.finish.provSorted :=
  (pairwise_collapse (sorted_sortTable _) (by simp)).1.imp fun h => by rw [h]; rfl

theorem Holds.lookup_provSorted (h : Holds b records) (hreal : b.isReal q = false) :
    (lookup cmpStr (fun e => resolve b.finish.arena e.name) q b.finish.provSorted).map ProvEntry.record =
      records.findIdx? fun rec => rec.offers q := by
  have hfilter : b.finish.provSorted.filter (fun e => resolve b.arena e.name = q) =
      (b.provEntries.filter fun e => resolve b.arena e.name = q).take 1 := by
    have hsort : (sortTable cmpStr (fun e => resolve b.arena e.name) ProvEntry.record
        b.provEntries).filter (fun e => resolve b.arena e.name = q) =
        b.provEntries.filter (fun e => resolve b.arena e.name = q) :=
      filter_sortTable h.pairwise_provEntries q
    rw [← hsort]
    exact filter_collapse_none (sorted_sortTable _) q
  have hlookup : lookup cmpStr (fun e => resolve b.finish.arena e.name) q b.finish.provSorted =
      (b.provEntries.filter fun e => resolve b.arena e.name = q).head? := by
    refine (lookup_eq (sorted_provSorted b) q).trans ?_
    rw [hfilter]
    cases b.provEntries.filter (fun e => resolve b.arena e.name = q) <;> rfl
  have hbound := h.length_lt
  have hlen := h.records.length_eq
  have hfirst := findSome?_entriesFor hreal h.records (k := 0) (by omega)
  rw [hlookup,filter_provEntries,head?_flatMap,hfirst]
  simp

theorem Holds.getProvider_eq (h : Holds b records) (name : List Char) :
    (b.finish.getProvider name).map PkgRef.fields = (provider records name).map PkgRecord.fields := by
  have hget := h.get_eq name
  rw [PackageIndex.getProvider,provider]
  cases hr : b.finish.get name with
  | some r =>
    rw [hr] at hget
    obtain ⟨rec,hrec,hfields⟩ := map_eq_some_iff.mp hget.symm
    rw [hrec,some_or,map_some,map_some,hfields]
  | none =>
    rw [hr] at hget
    have hlast : lastNamed records name = none := by
      simpa using hget.symm
    have hreal : b.isReal name = false := by
      rw [Bool.eq_false_iff]
      intro hreal
      obtain ⟨rec,hrec,hname⟩ := (h.isReal_iff name).mp hreal
      rw [lastNamed,getLast?_eq_none_iff,filter_eq_nil_iff] at hlast
      exact hlast rec hrec (by simpa using hname)
    have hindex := h.lookup_provSorted hreal
    rw [hlast,none_or,firstProviding,find?_eq_bind_findIdx?_getElem?,← hindex,map_bind,map_bind,bind_map]
    congr 1
    funext e
    exact h.pkgRef_fields e.record

end PackageIndexBuilder

namespace PackageIndex

variable {index : PackageIndex} {name : List Char} {r : PkgRef}

theorem of_pkgRef {ri : Nat} (h : index.pkgRef ri = some r) :
    r.index = index ∧ r.record ∈ index.records ∧
      r.package = recordName index.arena index.records ri := by
  obtain ⟨c,hc,rfl⟩ := map_eq_some_iff.mp h
  refine ⟨rfl,mem_of_getElem? hc,?_⟩
  rw [recordName,hc]
  rfl

theorem of_getProvider (h : index.getProvider name = some r) :
    r.index = index ∧ r.record ∈ index.records := by
  have href : ∃ ri, index.pkgRef ri = some r := by
    rw [getProvider] at h
    cases hget : index.get name with
    | some r' =>
      rw [hget] at h
      obtain ⟨ri,-,hri⟩ := bind_eq_some_iff.mp hget
      exact ⟨ri,hri.trans h⟩
    | none =>
      rw [hget] at h
      obtain ⟨e,-,he⟩ := bind_eq_some_iff.mp h
      exact ⟨e.record,he⟩
  obtain ⟨ri,hri⟩ := href
  obtain ⟨hindex,hmem,-⟩ := of_pkgRef hri
  exact ⟨hindex,hmem⟩

end PackageIndex

/-- The compact index answers as the list of the stanzas' records does. -/
theorem index_eq_reference (stanzas : List StanzaView)
    (hbytes : (pushAll stanzas).arena.length < 4294967296) :
    (∀ name, ((pushAll stanzas).finish.get name).map PkgRef.fields =
      (lastNamed (stanzas.map StanzaView.record) name).map PkgRecord.fields) ∧
    (pushAll stanzas).finish.names.Pairwise (fun m n => cmpStr m n = .lt) ∧
    (∀ name, name ∈ (pushAll stanzas).finish.names ↔ ∃ v ∈ stanzas, v.package = name) ∧
    (∀ name, ((pushAll stanzas).finish.getProvider name).map PkgRef.fields =
      (provider (stanzas.map StanzaView.record) name).map PkgRecord.fields) := by
  have h := holds_pushAll hbytes
  refine ⟨h.get_eq,names_increasing _,?_,h.getProvider_eq⟩
  intro name
  rw [h.mem_names_iff]
  simp only [List.mem_map,exists_exists_and_eq_and]
  rfl

def twoVersions : List StanzaView :=
  [⟨{ package := "p".toList, version := "1".toList, provides := "v".toList, any := true },by decide⟩,
    ⟨{ package := "p".toList, version := "2".toList, depends := "a | b, c".toList, any := true },
      by decide⟩]

theorem twoVersions_answers : (pushAll twoVersions).arena.length < 4294967296 ∧
      ((pushAll twoVersions).finish.getProvider "v".toList).map PkgRef.fields =
        (provider (twoVersions.map StanzaView.record) "v".toList).map PkgRecord.fields :=
  ⟨by decide +kernel,(index_eq_reference twoVersions (by decide +kernel)).2.2.2 _⟩

end PaghOS.Apt
