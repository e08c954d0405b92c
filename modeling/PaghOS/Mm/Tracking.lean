import Mathlib.Data.List.Pairwise
import PaghOS.Mm.Pages

/-!
Which region answers for an address, and what a page reads: its frame, or the
zeros that the fault handler would put there.
-/

namespace PaghOS.Mm
open List
open Elf (userAddrMax)

structure Attrs where
  writable : Bool
  nx : Bool
  prot : UInt32
  anon : Bool
  deriving DecidableEq

def MmapRegion.attrs (r : MmapRegion) : Attrs := ⟨r.writable,r.nx,r.prot,r.anon⟩

def MmapRegion.holds (r : MmapRegion) (page : Nat) : Bool := r.base ≤ page && page < r.stop

def track (regions : List MmapRegion) (page : Nat) : Option Attrs :=
  (regions.find? (·.holds page)).map MmapRegion.attrs

/-- `handle_user_page_fault` on a page that is not present: the heap first, then
the regions. -/
def lazyRead (vm : VmRegionSet) (page : Nat) : Option (List UInt8) :=
  if vm.brkLazyFrom ≤ page ∧ page < pageUp vm.currentBrk then some zeroPage
  else
    match track vm.mmaps page with
    | none => none
    | some a => if a.prot = 0 ∨ a.anon = false then none else some zeroPage

/-- What the process reads from a page; `none` is a fault it does not survive. -/
def Space.read (s : Space) (page : Nat) : Option (List UInt8) :=
  match s.pt page with
  | some leaf => some leaf.data
  | none => lazyRead s.vm page

variable {lo hi : Nat} {regions : List MmapRegion} {r : MmapRegion} {page : Nat} {a : Attrs}

/-- Some region answers for the page with these attributes. -/
def Tracks (regions : List MmapRegion) (page : Nat) (a : Attrs) : Prop :=
  ∃ r ∈ regions, r.holds page = true ∧ r.attrs = a

theorem holds_iff : r.holds page = true ↔ r.base ≤ page ∧ page < r.stop := by
  simp [MmapRegion.holds]

section
variable (h : Layout lo hi regions)
include h

theorem Layout.holds_unique {q : MmapRegion} (hr : r ∈ regions)
    (hq : q ∈ regions) (hrp : r.holds page = true) (hqp : q.holds page = true) : r = q := by
  by_contra hne
  have hsymm : Std.Symm Apart := ⟨fun _ _ => Apart.symm⟩
  have hapart : Apart r q := h.apart.forall hr hq hne
  rw [holds_iff] at hrp hqp
  simp only [Apart] at hapart
  omega

theorem track_eq_some : track regions page = some a ↔ Tracks regions page a := by
  constructor
  · intro ht
    simp only [track,Option.map_eq_some_iff] at ht
    obtain ⟨r,hfind,rfl⟩ := ht
    exact ⟨r,mem_of_find?_eq_some hfind,by simpa using List.find?_some hfind,rfl⟩
  rintro ⟨r,hr,hp,rfl⟩
  simp only [track,Option.map_eq_some_iff]
  cases hfind : regions.find? (·.holds page) with
  | none => simp [List.find?_eq_none.mp hfind r hr] at hp
  | some q =>
    have hq := mem_of_find?_eq_some hfind
    have hqp : q.holds page = true := by simpa using List.find?_some hfind
    exact ⟨q,rfl,by rw [h.holds_unique hr hq hp hqp]⟩

theorem track_congr {lo' hi' page' : Nat} {regions' : List MmapRegion}
    (h' : Layout lo' hi' regions') (heq : ∀ a, Tracks regions page a ↔ Tracks regions' page' a) :
    track regions page = track regions' page' := by
  ext a
  rw [track_eq_some h,track_eq_some h',heq a]

theorem track_of_mem (hr : r ∈ regions) (hbase : r.base ≤ page)
    (hstop : page < r.stop) : track regions page = some r.attrs :=
  (track_eq_some h).mpr ⟨r,hr,holds_iff.mpr ⟨hbase,hstop⟩,rfl⟩

omit h in
theorem tracks_middle {pre post : List MmapRegion} : Tracks (pre ++ r :: post) page a ↔
    r.holds page = true ∧ r.attrs = a ∨ Tracks (pre ++ post) page a := by
  simp only [Tracks,mem_append,mem_cons]
  constructor
  · rintro ⟨q,hq | rfl | hq,hp⟩
    · exact .inr ⟨q,.inl hq,hp⟩
    · exact .inl hp
    · exact .inr ⟨q,.inr hq,hp⟩
  rintro (hp | ⟨q,hq | hq,hp⟩)
  · exact ⟨r,.inr (.inl rfl),hp⟩
  · exact ⟨q,.inl hq,hp⟩
  · exact ⟨q,.inr (.inr hq),hp⟩

omit h in
theorem tracks_insertIdx {i : Nat} (hi : i ≤ regions.length) : Tracks (regions.insertIdx i r) page a ↔
      r.holds page = true ∧ r.attrs = a ∨ Tracks regions page a := by
  simp only [Tracks,(perm_insertIdx r regions hi).mem_iff,mem_cons]
  constructor
  · rintro ⟨q,rfl | hq,hp⟩
    · exact .inl hp
    · exact .inr ⟨q,hq,hp⟩
  · rintro (hp | ⟨q,hq,hp⟩)
    · exact ⟨r,.inl rfl,hp⟩
    · exact ⟨q,.inr hq,hp⟩

omit h in
theorem exists_cut_iff {x y : Nat} (hr : r.base%pageSize = 0) (hx : x%pageSize = 0) (hy : y%pageSize = 0) :
    (∃ q ∈ r.cut x y, q.holds page = true ∧ q.attrs = a) ↔
      (r.holds page = true ∧ r.attrs = a) ∧ ¬ (x ≤ page ∧ page < y) := by
  have hs := stop_aligned hr
  have hleft : r.base < x → r.base+(x-r.base)/pageSize*pageSize = x := by
    simp only [pageSize] at *
    omega
  have hright : y < r.stop → y+(r.stop-y)/pageSize*pageSize = r.stop := by
    simp only [pageSize] at *
    omega
  simp only [holds_iff]
  unfold MmapRegion.cut
  split
  · rename_i hout
    simp only [mem_singleton,exists_eq_left]
    constructor
    · rintro ⟨hp,ha⟩
      exact ⟨⟨hp,ha⟩,by omega⟩
    · exact And.left
  · rename_i hout
    simp only [mem_append,mem_ite_nil_right,mem_singleton]
    constructor
    · rintro ⟨q,⟨hlt,rfl⟩ | ⟨hlt,rfl⟩,hp,ha⟩
      · have := hleft hlt
        simp only [MmapRegion.stop] at hp this ⊢
        simp only [MmapRegion.stop] at hout
        exact ⟨⟨by omega,ha⟩,by omega⟩
      have := hright hlt
      simp only [MmapRegion.stop] at hp this ⊢
      simp only [MmapRegion.stop] at hlt
      exact ⟨⟨by omega,ha⟩,by omega⟩
    · rintro ⟨⟨hp,ha⟩,hnot⟩
      by_cases hlt : page < x
      · have hb : r.base < x := by omega
        refine ⟨_,.inl ⟨hb,rfl⟩,⟨hp.1,?_⟩,ha⟩
        simp only [MmapRegion.stop]
        rw [hleft hb]
        exact hlt
      have hb : y < r.stop := by omega
      refine ⟨_,.inr ⟨hb,rfl⟩,⟨by dsimp only; omega,?_⟩,ha⟩
      simp only [MmapRegion.stop] at hright hb hp ⊢
      rw [hright hb]
      exact hp.2

theorem tracks_cut {base : Nat} (hbase : base%pageSize = 0)
    (pages : Nat) : Tracks (cutRegions regions base pages) page a ↔
      Tracks regions page a ∧ ¬ (base ≤ page ∧ page < base+pages*pageSize) := by
  have hend : (base+pages*pageSize)%pageSize = 0 := by simp [Nat.add_mod,hbase]
  simp only [Tracks,cutRegions,mem_flatMap]
  constructor
  · rintro ⟨q,⟨r,hr,hq⟩,hp⟩
    have := (exists_cut_iff (h.aligned r hr) hbase hend).mp ⟨q,hq,hp⟩
    exact ⟨⟨r,hr,this.1⟩,this.2⟩
  · rintro ⟨⟨r,hr,hp⟩,hnot⟩
    obtain ⟨q,hq,hqp⟩ := (exists_cut_iff (h.aligned r hr) hbase hend).mpr ⟨hp,hnot⟩
    exact ⟨q,⟨r,hr,hq⟩,hqp⟩

theorem track_cut {base : Nat} (hbase : base%pageSize = 0)
    (pages : Nat) : track (cutRegions regions base pages) page =
      if base ≤ page ∧ page < base+pages*pageSize then none else track regions page := by
  split
  · rename_i hin
    refine Option.eq_none_iff_forall_ne_some.mpr fun a ha => ?_
    rw [track_eq_some (h.cut hbase pages),tracks_cut h hbase] at ha
    exact ha.2 hin
  rename_i hout
  refine track_congr (h.cut hbase pages) h fun a => ?_
  rw [tracks_cut h hbase]
  exact and_iff_left hout

theorem track_insertIdx {i : Nat} (hi' : i ≤ regions.length)
    (h' : Layout lo hi (regions.insertIdx i r)) : track (regions.insertIdx i r) page =
      if r.base ≤ page ∧ page < r.stop then some r.attrs else track regions page := by
  split
  · rename_i hin
    have hmem : r ∈ regions.insertIdx i r :=
      (perm_insertIdx r regions hi').mem_iff.mpr (by simp)
    exact track_of_mem h' hmem hin.1 hin.2
  rename_i hout
  refine track_congr h' h fun a => ?_
  rw [tracks_insertIdx hi',holds_iff]
  simp [hout]

end

theorem track_widened {pre post : List MmapRegion} {newPages : Nat} (h : Layout lo hi (pre ++ r :: post))
    (h' : Layout lo hi (pre ++ { r with pages := newPages } :: post)) (hle : r.pages ≤ newPages) :
    track (pre ++ { r with pages := newPages } :: post) page =
      if r.base ≤ page ∧ page < r.base+newPages*pageSize then some r.attrs
      else track (pre ++ r :: post) page := by
  split
  · rename_i hin
    exact track_of_mem (r := { r with pages := newPages }) h' (by simp) hin.1 hin.2
  rename_i hout
  refine track_congr h' h fun a => ?_
  have hspan := Nat.mul_le_mul_right pageSize hle
  have hold : ¬ (r.base ≤ page ∧ page < r.stop) := by
    simp only [MmapRegion.stop]
    omega
  have hnew : ¬ (r.base ≤ page ∧ page < MmapRegion.stop { r with pages := newPages }) := hout
  rw [tracks_middle,tracks_middle,holds_iff,holds_iff]
  simp only [hold,false_and,false_or]
  simp [hnew]

end PaghOS.Mm
