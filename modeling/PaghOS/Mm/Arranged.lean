import PaghOS.Lib.Loop
import PaghOS.Mm.Pages

/-!
The memory calls of one process, and what each of them keeps of its address
space: regions that are aligned, nonempty, apart and between two bounds, as long
as there is room between the bounds for what the call places.
-/

namespace PaghOS.Mm
open Loop
open Elf (userAddrMax checkedAdd)

variable {regions : List MmapRegion} {r : MmapRegion} {ceiling : Nat}

/-- The memory calls, with what the machine has to answer to them: the node of
the descriptor and how many allocations succeed. -/
inductive Call where
  | brk (addr : UInt64)
  | mmap (addr len prot flags fd off : UInt64) (node : Option FileNode) (grants : Nat)
  | munmap (addr len : UInt64)
  | mremap (oldAddr oldSize newSize flags : UInt64) (grants : Nat)
  | mprotect (addr len prot : UInt64)

def Space.step (s : Space) : Call → Option Space
  | .brk addr => some { s with vm := brkImpl s.vm addr.toNat }
  | .mmap addr len prot flags fd off node grants =>
    some (sysMmap s addr len prot flags fd off node grants).2
  | .munmap addr len => some (munmapImpl s addr.toNat len.toNat).2
  | .mremap oldAddr oldSize newSize flags grants =>
    (sysMremap s oldAddr oldSize newSize flags grants).map (·.2)
  | .mprotect addr len prot => some (mprotectImpl s addr.toNat len.toNat prot.toUInt32).2

/-- After `exec`: no region is tracked yet, whatever the page table holds. -/
def Space.exec (initialBrk : Nat) (pt : PageTable) : Space :=
  ⟨VmRegionSet.new initialBrk userMmapBase,pt⟩

/-- The regions between `lo` and `hi`, the break at or below `top`. -/
structure Arranged (lo hi top : Nat) (s : Space) : Prop where
  floor : s.vm.mmapFloor = userMmapBase
  layout : Layout lo hi s.vm.mmaps
  heap : s.vm.currentBrk ≤ top

variable {lo hi top : Nat} {s : Space}

theorem arranged_exec {initialBrk : Nat} (h : initialBrk ≤ top) (pt : PageTable) :
    Arranged lo hi top (Space.exec initialBrk pt) :=
  ⟨rfl,Layout.nil _ _,h⟩

theorem Arranged.remap (h : Arranged lo hi top s)
    (hl : Layout lo hi regions) (pt : PageTable) (hint : Nat) : Arranged lo hi top
      { s with pt := pt, vm := { s.vm with mmaps := regions, mmapNextHint := hint } } :=
  ⟨h.floor,hl,h.heap⟩

theorem munmap_arranged (h : Arranged lo hi top s) (base len : Nat) :
    Arranged lo hi top (munmapImpl s base len).2 := by
  unfold munmapImpl
  split
  · exact h
  · rename_i pages hplan
    exact h.remap (h.layout.cut (planMunmap_ok hplan) pages) _ _

theorem mprotect_arranged (h : Arranged lo hi top s) (addr len : Nat) (prot : UInt32) :
    Arranged lo hi top (mprotectImpl s addr len prot).2 := by
  unfold mprotectImpl
  split
  · exact h
  split
  · exact h
  split
  · exact h
  dsimp only
  split
  · exact h
  · refine h.remap (h.layout.map ?_) _ _
    intro r
    split <;> simp

/-- Where `plan_mmap_base` puts `pages` pages is between the bounds. -/
def Roomy (lo hi : Nat) (s : Space) (pages : Nat) : Prop :=
  ∀ b, planMmapBase s.vm.mmaps s.vm.mmapFloor pages userAddrMax = some b →
    lo ≤ b ∧ Free s.vm.mmaps b pages hi

theorem free_region
    (hlo : lo ≤ r.base) (hpos : 0 < r.pages) (hfree : Free regions r.base r.pages ceiling) :
    r.base%pageSize = 0 ∧ 0 < r.pages ∧ lo ≤ r.base ∧ r.stop ≤ ceiling ∧ ∀ q ∈ regions, Apart r q :=
  ⟨hfree.1,hpos,hlo,hfree.2.1,hfree.apart rfl rfl⟩

theorem free_of_cut (h : Layout lo hi regions) {base pages : Nat}
    (hbase : base%pageSize = 0) (hle : base+pages*pageSize ≤ ceiling) :
    Free (cutRegions regions base pages) base pages ceiling := by
  have hend : (base+pages*pageSize)%pageSize = 0 := by simp [Nat.add_mod,hbase]
  refine ⟨hbase,hle,fun q hq => ?_⟩
  simp only [cutRegions,List.mem_flatMap] at hq
  obtain ⟨r,hr,hq⟩ := hq
  have hout := (mem_cut (h.aligned r hr) (h.nonempty r hr) hbase hend hq).2.2.2.2
  omega

section Mmap
variable {addr pages span grants : Nat} {prot : UInt64} {anon fixed : Bool}

theorem arranged_placed (h : Arranged lo hi top s) (hpos : 0 < pages)
    (hpages : r.pages = pages) (hlo : lo ≤ r.base) (hfree : Free s.vm.mmaps r.base pages hi)
    (pt : PageTable) (hint : Nat) : Arranged lo hi top { s with
      pt := pt, vm := { s.vm with mmaps := s.vm.mmaps ++ [r], mmapNextHint := hint } } := by
  subst hpages
  refine h.remap ?_ pt hint
  exact (layout_cons_iff.mpr ⟨free_region hlo hpos hfree,h.layout⟩).perm
    (List.perm_append_singleton _ _).symm

theorem placeRegion_arranged (h : Arranged lo hi top s) (hpos : 0 < pages)
    (hspan : span = pages*pageSize) (hroom : Roomy lo hi s pages)
    (hfix : fixed = true → lo = 0 ∧ hi = userAddrMax) :
    Arranged lo hi top (placeRegion s addr pages span prot anon fixed grants).2 := by
  have hsame : ∀ {t : Space}, Arranged lo hi top t → ∀ pt, Arranged lo hi top { t with pt := pt } :=
    fun ht pt => ⟨ht.floor,ht.layout,ht.heap⟩
  unfold placeRegion chooseBase
  cases fixed with
  | false =>
    simp only [Bool.false_eq_true,if_false]
    cases hb : planMmapBase s.vm.mmaps s.vm.mmapFloor pages userAddrMax with
    | none => exact h
    | some b =>
      obtain ⟨hlo,hfree⟩ := hroom b hb
      dsimp only
      split
      · exact h
      split
      · exact h
      split
      · split
        · exact hsame h _
        · exact arranged_placed h hpos rfl hlo hfree _ _
      · exact arranged_placed h hpos rfl hlo hfree _ _
  | true =>
    obtain ⟨rfl,rfl⟩ := hfix rfl
    simp only [if_true]
    split
    · exact h
    rename_i base hbase
    split at hbase
    · cases hbase
    rename_i halign
    cases hbase
    split
    · exact h
    rename_i stop hstop
    split
    · exact h
    rename_i hle
    obtain rfl := checkedAdd_some hstop
    have hcut : Arranged 0 userAddrMax top { s with
        vm := { s.vm with mmaps := cutRegions s.vm.mmaps addr pages }
        pt := unmapPages s.pt addr pages } :=
      h.remap (h.layout.cut (by omega) pages) _ _
    have hfree : Free (cutRegions s.vm.mmaps addr pages) addr pages userAddrMax :=
      free_of_cut h.layout (by omega) (by omega)
    split
    · split
      · exact hsame hcut _
      · exact arranged_placed hcut hpos rfl (Nat.zero_le _) hfree _ _
    · exact arranged_placed hcut hpos rfl (Nat.zero_le _) hfree _ _

theorem mmap_arranged (h : Arranged lo hi top s) {addr len prot flags fd off : UInt64}
    {node : Option FileNode} {grants : Nat} (hroom : Roomy lo hi s (pagesOf len))
    (hfix : flags.toUInt32 &&& mapFixed ≠ 0 → lo = 0 ∧ hi = userAddrMax) :
    Arranged lo hi top (sysMmap s addr len prot flags fd off node grants).2 := by
  unfold sysMmap
  dsimp only
  split
  · exact h
  rename_i hargs
  split
  · exact h
  split
  · exact h
  split
  · exact h
  rename_i pages hpages
  split
  · exact h
  rename_i span hspan
  obtain rfl : pages = pagesOf len := pagesForLen_some hpages
  have hplace : ∀ anon, Arranged lo hi top (placeRegion s addr.toNat (pagesOf len) span prot anon
      (decide (flags.toUInt32 &&& mapFixed ≠ 0)) grants).2 :=
    fun anon => placeRegion_arranged h (pagesOf_pos (by simp_all)) (checkedMul_some hspan).symm
      hroom (fun hf => hfix (by simpa using hf))
  split
  · rename_i e s' hs'
    have hk := hplace (decide (flags.toUInt32 &&& mapAnonymous ≠ 0))
    rw [hs'] at hk
    exact hk
  rename_i base s' hs'
  have hk := hplace (decide (flags.toUInt32 &&& mapAnonymous ≠ 0))
  rw [hs'] at hk
  split
  · exact hk
  · exact ⟨hk.floor,hk.layout,hk.heap⟩

end Mmap

section Resize
variable {pre post : List MmapRegion} {old : MmapRegion} {addr oldPages newPages : Nat}
  (h : Arranged lo hi top s) (hregions : s.vm.mmaps = pre ++ old :: post)
include h hregions

theorem growInPlace_arranged (hbase : old.base ≤ addr) (hend : addr+oldPages*pageSize ≤ old.stop)
    (hgrow : oldPages < newPages)
    (hfree : Free s.vm.mmaps (addr+oldPages*pageSize) (newPages-oldPages) userAddrMax)
    (hroom : addr+newPages*pageSize ≤ hi) (grants : Nat) :
    Arranged lo hi top (growInPlace s pre.length old addr oldPages newPages grants).2 := by
  have hwide : Layout lo hi
      (pre ++ { old with pages := newPages } :: post) := by
    rw [hregions] at hfree
    exact Layout.widen (hregions ▸ h.layout) hbase hend hgrow hfree hroom
  have hset : s.vm.mmaps.set pre.length { old with pages := newPages } =
      pre ++ { old with pages := newPages } :: post := by
    simp [hregions]
  unfold growInPlace
  simp only [hset]
  generalize (if (!old.anon) = true then _ else _ : Bool × PageTable) = back
  split
  · exact ⟨h.floor,h.layout,h.heap⟩
  · exact h.remap hwide _ _

theorem moveRegion_arranged (hle : oldPages ≤ newPages) (hpos : 0 < newPages) (hroom : Roomy lo hi s newPages)
    (grants : Nat) :
    Returns (moveRegion s pre.length old addr oldPages newPages grants)
      (fun r => Arranged lo hi top r.2) := by
  unfold moveRegion
  split
  · exact .pure h
  rename_i span hspan
  split
  · exact .pure h
  rename_i b hb
  split
  · exact .pure h
  rename_i stop hstop
  split
  · exact .pure h
  obtain rfl := checkedMul_some hspan
  obtain rfl := checkedAdd_some hstop
  obtain ⟨hlo,hfree⟩ := hroom b hb
  rw [mapZeroedRange_eq]
  cases hback : (if (!old.anon) = true then
      mapLoop old.writable old.nx newPages b [] s.pt grants else (true,s.pt)) with
  | mk ok pt =>
    dsimp only
    split
    · exact .pure ⟨h.floor,h.layout,h.heap⟩
    rename_i hok
    have hdst : old.anon = false → ∀ j, 0 ≤ j → j < 0+oldPages →
        (pt (b+j*pageSize)).isSome = true := by
      intro hanon j _ hj
      simp only [hanon,Bool.not_false,if_true] at hback
      have hok' : ok = true := by simpa using hok
      rw [hok'] at hback
      exact (mapLoop_true hback _).1 ⟨j,by omega,rfl⟩
    obtain ⟨ok',pt',hrun,-⟩ := copyPages_ends old.writable old.nx addr grants [] hdst
    simp only [hrun,Option.bind_eq_bind,Option.bind_some]
    split
    · exact .pure ⟨h.floor,h.layout,h.heap⟩
    · have hlen : pre.length ≤ s.vm.mmaps.length := by simp [hregions]
      refine .pure (munmap_arranged (h.remap (h.layout.insertIdx hlen ?_) _ _) _ _)
      exact free_region hlo hpos hfree

end Resize

theorem resizeRegion_arranged (h : Arranged lo hi top s) (hhi : hi ≤ userAddrMax)
    {pre post : List MmapRegion} {old : MmapRegion} {addr oldPages newPages : Nat}
    (hregions : s.vm.mmaps = pre ++ old :: post) (hbase : old.base ≤ addr)
    (hend : addr+oldPages*pageSize ≤ old.stop) (hpos : 0 < newPages)
    (htail : rangeIsFree s.vm.mmaps (addr+oldPages*pageSize) (newPages-oldPages) userAddrMax = true →
      oldPages < newPages → addr+newPages*pageSize ≤ hi)
    (hroom : Roomy lo hi s newPages) (maymove : Bool) (grants : Nat) :
    Returns (resizeRegion s pre.length old addr oldPages newPages maymove grants)
      (fun r => Arranged lo hi top r.2) := by
  unfold resizeRegion
  split
  · split
    · exact .pure (munmap_arranged h _ _)
    · exact .pure h
  rename_i hgrow
  split
  · rename_i hfree
    have hfree' := (rangeIsFree_iff h.layout hhi (Nat.le_refl _)).mp hfree
    exact .pure (growInPlace_arranged h hregions hbase hend (by omega) hfree' (htail hfree (by omega)) grants)
  split
  · exact .pure h
  · exact moveRegion_arranged h hregions (by omega) hpos hroom grants

end PaghOS.Mm
