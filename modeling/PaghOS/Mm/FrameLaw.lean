import PaghOS.Mm.Arranged
import PaghOS.Mm.Remap

/-!
A block that moves, and the frame law of `mremap` as a whole.
-/

namespace PaghOS.Mm
open Loop List Option
open Elf (userAddrMax checkedAdd)

def moved (s : Space) (i : Nat) (old : MmapRegion) (addr oldPages newPages b hint : Nat)
    (pt : PageTable) : Space :=
  ⟨{ s.vm with
    mmaps := cutRegions (s.vm.mmaps.insertIdx i { old with base := b, pages := newPages })
      addr oldPages
    mmapNextHint := hint },unmapPages pt addr oldPages⟩

variable {s : Space}

/-- The block of `oldPages` pages at `addr` inside `old` goes to the free place `b`, and the
region for it to the `i`th place. -/
structure Move (s : Space) (i : Nat) (old : MmapRegion) (addr oldPages newPages b : Nat) : Prop where
  layout : Layout 0 userAddrMax s.vm.mmaps
  mem : old ∈ s.vm.mmaps
  base : old.base ≤ addr
  stop : addr+oldPages*pageSize ≤ old.stop
  align : addr%pageSize = 0
  pos : 0 < oldPages
  grow : oldPages ≤ newPages
  index : i ≤ s.vm.mmaps.length
  free : Free s.vm.mmaps b newPages userAddrMax

namespace Move
variable {old : MmapRegion} {addr oldPages newPages b i k : Nat}
  (h : Move s i old addr oldPages newPages b)
include h

theorem apart : b+newPages*pageSize ≤ addr ∨ addr+oldPages*pageSize ≤ b := by
  have hspan : 0 < oldPages*pageSize := Nat.mul_pos h.pos (by decide)
  have := h.free.2.2 old h.mem
  have := h.base
  have := h.stop
  omega

theorem ne {j : Nat} (hj : j < oldPages) (hk : k < newPages) : addr+j*pageSize ≠ b+k*pageSize := by
  have hjlt : j*pageSize < oldPages*pageSize := Nat.mul_lt_mul_of_pos_right hj (by decide)
  have hklt : k*pageSize < newPages*pageSize := Nat.mul_lt_mul_of_pos_right hk (by decide)
  have := h.apart
  omega

theorem separate (j l : Nat) (hj : j < oldPages) (hl : l < oldPages) : addr+j*pageSize ≠ b+l*pageSize :=
  h.ne hj (Nat.lt_of_lt_of_le hl h.grow)

theorem inserted : Layout 0 userAddrMax (s.vm.mmaps.insertIdx i { old with base := b, pages := newPages }) :=
  h.layout.insertIdx h.index
    ⟨h.free.1,Nat.lt_of_lt_of_le h.pos h.grow,Nat.zero_le _,h.free.2.1,h.free.apart rfl rfl⟩

theorem track_moved (page hint : Nat) (pt : PageTable) :
    track (moved s i old addr oldPages newPages b hint pt).vm.mmaps page =
      if addr ≤ page ∧ page < addr+oldPages*pageSize then none
      else if b ≤ page ∧ page < b+newPages*pageSize then some old.attrs else track s.vm.mmaps page := by
  simp only [moved]
  rw [track_cut h.inserted h.align,track_insertIdx h.layout h.index h.inserted]
  rfl

theorem munmap_moved (hint : Nat) (pt : PageTable) : (munmapImpl ⟨{ s.vm with
      mmaps := s.vm.mmaps.insertIdx i { old with base := b, pages := newPages }
      mmapNextHint := hint },pt⟩ addr (oldPages*pageSize)).2 =
      moved s i old addr oldPages newPages b hint pt := by
  have hold : old ∈ s.vm.mmaps.insertIdx i { old with base := b, pages := newPages } :=
    (perm_insertIdx _ _ h.index).mem_iff.mpr (mem_cons_of_mem _ h.mem)
  have hcut := munmap_covered (s := ⟨{ s.vm with
      mmaps := s.vm.mmaps.insertIdx i { old with base := b, pages := newPages }
      mmapNextHint := hint },pt⟩) (k := 0) ⟨h.inserted,hold,h.base,h.stop⟩ h.align h.pos (by omega)
  simpa [moved] using hcut

section Copied
variable {grants hint : Nat} {pt pt' : PageTable}
  (hback : backed s old b newPages grants = (true,pt))
  (hcopy : copyPages old.writable old.nx old.anon addr b oldPages 0 [] pt grants = some (true,pt'))

theorem leaf (hk : k < newPages) :
    (moved s i old addr oldPages newPages b hint pt').pt (b+k*pageSize) = pt' (b+k*pageSize) := by
  have hklt : k*pageSize < newPages*pageSize := Nat.mul_lt_mul_of_pos_right hk (by decide)
  have := h.apart
  simp only [moved]
  rw [unmapPages_apply _ h.align,if_neg (by omega)]

include hback

theorem source (hk : k < oldPages) : pt (addr+k*pageSize) = s.pt (addr+k*pageSize) := by
  refine (backed_true hback _).2.1 ?_
  rintro ⟨j,hj,heq⟩
  exact h.ne hk hj heq

include hcopy

theorem read_resident (hk : k < oldPages) {leaf : Leaf} (hleaf : s.pt (addr+k*pageSize) = some leaf) :
    (moved s i old addr oldPages newPages b hint pt').read (b+k*pageSize) = some leaf.data := by
  rw [← h.source hback hk] at hleaf
  have hdata := (copyPages_true h.separate (by omega) hcopy).1 k leaf (Nat.zero_le k) (by omega) hleaf
  obtain ⟨new,hnew,hbytes⟩ := map_eq_some_iff.mp hdata
  unfold Space.read
  rw [h.leaf (Nat.lt_of_lt_of_le hk h.grow),hnew]
  exact congrArg some hbytes

theorem read_absent (hk : k < oldPages) (hnone : s.pt (addr+k*pageSize) = none) :
    (moved s i old addr oldPages newPages b hint pt').read (b+k*pageSize) =
      unbacked s old (b+k*pageSize) := by
  have hk' := Nat.lt_of_lt_of_le hk h.grow
  have hklt : k*pageSize < newPages*pageSize := Nat.mul_lt_mul_of_pos_right hk' (by decide)
  have hapart := h.apart
  have hleaf : (moved s i old addr oldPages newPages b hint pt').pt (b+k*pageSize) =
      pt (b+k*pageSize) := by
    rw [h.leaf hk']
    refine (copyPages_true h.separate (by omega) hcopy).2 _ ?_
    rintro ⟨j,-,-,hsome,heq⟩
    obtain rfl := page_inj heq
    simp [h.source hback hk,hnone] at hsome
  have htrack := h.track_moved (b+k*pageSize) hint pt'
  rw [if_neg (by omega),if_pos (by omega)] at htrack
  obtain ⟨hkept,-,hnew⟩ := backed_true hback (b+k*pageSize)
  unfold Space.read unbacked
  rw [hleaf]
  cases hdst : s.pt (b+k*pageSize) with
  | some leaf => rw [hkept (by simp [hdst]),hdst]
  | none =>
    rw [hnew ⟨k,hk',rfl⟩ hdst]
    cases hanon : old.anon with
    | false => simp
    | true =>
      simp only [if_true,lazyRead,htrack,MmapRegion.attrs,hanon]
      simp [moved]

theorem remapped_iff :
    Remapped s (moved s i old addr oldPages newPages b hint pt') addr oldPages newPages b ↔
      ∀ k, k < oldPages → s.pt (addr+k*pageSize) = none →
        unbacked s old (b+k*pageSize) = s.read (addr+k*pageSize) := by
  have hmin : min oldPages newPages = oldPages := Nat.min_eq_left h.grow
  constructor
  · intro hr k hk hnone
    rw [← hr.reads k (by omega)]
    exact (h.read_absent hback hcopy hk hnone).symm
  intro hreads
  have hapart := h.apart
  have hstart := Covers.track_start ⟨h.layout,h.mem,h.base,h.stop⟩ h.pos
  constructor
  · simp [hstart]
  · rintro page ⟨k,hk,rfl⟩
    have hklt : k*pageSize < newPages*pageSize := Nat.mul_lt_mul_of_pos_right hk (by decide)
    rw [hstart,h.track_moved,if_neg (by omega),if_pos (by omega)]
  · intro k hk
    cases hleaf : s.pt (addr+k*pageSize) with
    | none =>
      rw [h.read_absent hback hcopy (by omega) hleaf]
      exact hreads k (by omega) hleaf
    | some leaf =>
      rw [h.read_resident hback hcopy (by omega) hleaf]
      simp [Space.read,hleaf]
  · intro page hp hold hnew
    rw [inPages_iff h.align] at hold
    have hout : ¬ (b ≤ page ∧ page < b+newPages*pageSize) :=
      fun hin => hnew ((inPages_iff h.free.1).mpr ⟨hp,hin⟩)
    apply unchanged_of
    · have htrack := h.track_moved page hint pt'
      rw [if_neg fun hin => hold ⟨hp,hin⟩,if_neg hout] at htrack
      exact htrack
    rw [unmapPages_apply _ h.align,if_neg hold,(copyPages_true h.separate (by omega) hcopy).2 page]
    · exact (backed_true hback page).2.1 hnew
    · rintro ⟨j,-,hj,-,heq⟩
      exact hnew ⟨j,by omega,heq⟩

end Copied

variable (hplan : planMmapBase s.vm.mmaps s.vm.mmapFloor newPages userAddrMax = some b)
  {grants : Nat} {pt : PageTable}
include hplan

theorem unbacked (hback : backed s old b newPages grants = (false,pt)) :
    moveRegion s i old addr oldPages newPages grants = some (.error .enomem,s) := by
  have hmax := userAddrMax_lt
  have hle := h.free.2.1
  obtain rfl := backed_false hback
  unfold backed at hback
  unfold moveRegion
  rw [checkedMul_eq (by omega)]
  simp only [hplan]
  rw [checkedAdd_eq (by omega)]
  simp only [if_neg (Nat.not_lt.mpr hle),mapZeroedRange_eq,hback]
  rfl

theorem copied (hback : backed s old b newPages grants = (true,pt)) {ok : Bool} {pt' : PageTable}
    (hcopy : copyPages old.writable old.nx old.anon addr b oldPages 0 [] pt grants = some (ok,pt')) :
    ∃ hint, moveRegion s i old addr oldPages newPages grants =
      some (if ok then (.ok b,moved s i old addr oldPages newPages b hint pt')
        else (.error .enomem,{ s with pt := pt' })) := by
  have hmax := userAddrMax_lt
  have hle := h.free.2.1
  unfold backed at hback
  unfold moveRegion
  rw [checkedMul_eq (by omega)]
  simp only [hplan]
  rw [checkedAdd_eq (by omega)]
  simp only [if_neg (Nat.not_lt.mpr hle),mapZeroedRange_eq,hback,hcopy,h.munmap_moved]
  cases ok with
  | false => exact ⟨0,rfl⟩
  | true => exact ⟨_,rfl⟩

theorem enough : ∃ hint pt pt', backed s old b newPages newPages = (true,pt) ∧
      copyPages old.writable old.nx old.anon addr b oldPages 0 [] pt newPages = some (true,pt') ∧
      moveRegion s i old addr oldPages newPages newPages =
        some (.ok b,moved s i old addr oldPages newPages b hint pt') := by
  have hok : (backed s old b newPages newPages).1 = true := backed_enough (Nat.le_refl _)
  have hback : backed s old b newPages newPages = (true,(backed s old b newPages newPages).2) :=
    Prod.ext hok rfl
  have hgrow := h.grow
  obtain ⟨ok,pt',hcopy,hgood⟩ := copyPages_ends old.writable old.nx addr newPages []
    (n := oldPages) (i := 0) fun hanon j _ hj => backed_dest hback hanon (by omega)
  obtain rfl : ok = true := hgood fun _ => hgrow
  obtain ⟨hint,hrun⟩ := h.copied hplan hback hcopy
  exact ⟨hint,_,pt',hback,hcopy,hrun⟩

theorem clean_of_law (hlaw : ∀ grants, Returns (moveRegion s i old addr oldPages newPages grants)
      (FrameLaw s addr oldPages newPages)) : MoveClean s old addr oldPages b := by
  constructor
  · obtain ⟨hint,pt,pt',hback,hcopy,hrun⟩ := h.enough hplan
    obtain ⟨r,hr,hframe⟩ := hlaw newPages
    rw [hrun,some.injEq] at hr
    subst hr
    exact (h.remapped_iff hback hcopy).mp hframe
  · intro hanon k j hkj hj hk hres
    -- one frame too few for page j
    obtain ⟨grants,pt',hcopy,-,hgone⟩ := copyPages_fails old.writable old.nx
      (n := oldPages) (i := 0) h.separate [] (by omega) (Nat.zero_le j) (by omega) hres
    rw [← hanon] at hcopy
    have hback : backed s old b newPages grants = (true,s.pt) := by simp [backed,hanon]
    obtain ⟨hint,hrun⟩ := h.copied hplan hback hcopy
    obtain ⟨r,hr,hframe⟩ := hlaw grants
    rw [hrun,some.injEq] at hr
    subst hr
    have hpage : (b+k*pageSize)%pageSize = 0 := by simp [Nat.add_mod,h.free.1]
    have hleaf := (hframe (b+k*pageSize) hpage).leaf
    rw [← hleaf]
    exact hgone _ ⟨k,Nat.zero_le k,hkj,hk,rfl⟩

theorem law_of_clean (hclean : MoveClean s old addr oldPages b) (grants : Nat) :
    Returns (moveRegion s i old addr oldPages newPages grants) (FrameLaw s addr oldPages newPages) := by
  have hgrow := h.grow
  cases hback : backed s old b newPages grants with
  | mk enough pt =>
    cases enough with
    | false =>
      rw [h.unbacked hplan hback]
      exact .pure fun page _ => unchanged_refl s page
    | true =>
      obtain ⟨ok,pt',hcopy,-⟩ := copyPages_ends old.writable old.nx addr grants []
        (n := oldPages) (i := 0) fun hanon j _ hj => backed_dest hback hanon (by omega)
      obtain ⟨hint,hrun⟩ := h.copied hplan hback hcopy
      rw [hrun]
      refine .pure ?_
      cases ok with
      | true => exact (h.remapped_iff hback hcopy).mpr hclean.reads
      | false =>
        intro page _
        obtain ⟨j,-,hj,hanon,hres,hgone,hkept⟩ := copyPages_false h.separate (by omega) hcopy
        obtain rfl : s.pt = pt := by
          simp only [backed,hanon,Bool.not_true,Bool.false_eq_true,if_false,Prod.mk.injEq,true_and] at hback
          exact hback
        refine @unchanged_of s s.vm.mmaps s.vm.mmapNextHint page pt' rfl ?_
        by_cases hmapped : Mapped s.pt addr b 0 j page
        · rw [hgone page (.inr hmapped)]
          obtain ⟨k,-,hkj,hk,rfl⟩ := hmapped
          exact (hclean.unwinds hanon k j hkj (by omega) hk hres).symm
        · exact hkept page (by simpa using hmapped)

end Move

theorem planMmapBase_iff (h : Sound s) (pages b : Nat) :
    planMmapBase s.vm.mmaps s.vm.mmapFloor pages userAddrMax = some b ↔ LowestFree s pages b := by
  have hfloor : s.vm.mmapFloor ≤ userAddrMax := by
    rw [h.floor]
    decide
  constructor
  · intro hplan
    have hsome := planMmapBase_some h.layout (Nat.le_refl _) hfloor (Nat.le_refl _) hplan
    rw [h.floor] at hsome
    exact hsome
  rintro ⟨hlo,hfree,hleast⟩
  rw [← h.floor] at hlo hleast
  cases hplan : planMmapBase s.vm.mmaps s.vm.mmapFloor pages userAddrMax with
  | none =>
    exact absurd hfree
      (planMmapBase_none h.layout (Nat.le_refl _) (Nat.le_refl _) hplan b hlo)
  | some c =>
    obtain ⟨hlo',hfree',hleast'⟩ :=
      planMmapBase_some h.layout (Nat.le_refl _) hfloor (Nat.le_refl _) hplan
    have h₁ : ¬ c < b := fun hlt => hleast c hlo' hlt hfree'
    have h₂ : ¬ b < c := fun hlt => hleast' b hlo hlt hfree
    congr 1
    omega

section Law
variable {old : MmapRegion} {addr oldPages newPages : Nat} (h : Sound s)
  (hbase : old.base ≤ addr) (hend : addr+oldPages*pageSize ≤ old.stop) (halign : addr%pageSize = 0)
  (hold : 0 < oldPages)
include h hbase hend halign hold

theorem moveRegion_law {i : Nat} (hmem : old ∈ s.vm.mmaps) (hgrow : oldPages ≤ newPages)
    (hi : i ≤ s.vm.mmaps.length) : (∀ grants, Returns (moveRegion s i old addr oldPages newPages grants)
      (FrameLaw s addr oldPages newPages)) ↔
    ∀ b, LowestFree s newPages b → MoveClean s old addr oldPages b := by
  have hmove : ∀ {b}, LowestFree s newPages b → Move s i old addr oldPages newPages b :=
    fun hb => ⟨h.layout,hmem,hbase,hend,halign,hold,hgrow,hi,hb.2.1⟩
  constructor
  · intro hlaw b hb
    exact (hmove hb).clean_of_law ((planMmapBase_iff h newPages b).mpr hb) hlaw
  intro hclean grants
  cases hplan : planMmapBase s.vm.mmaps s.vm.mmapFloor newPages userAddrMax with
  | none =>
    have hrun : moveRegion s i old addr oldPages newPages grants = some (.error .enomem,s) := by
      unfold moveRegion
      simp only [hplan]
      split <;> rfl
    rw [hrun]
    exact .pure fun page _ => unchanged_refl s page
  | some b =>
    have hb := (planMmapBase_iff h newPages b).mp hplan
    exact (hmove hb).law_of_clean hplan (hclean b hb) grants

theorem resizeRegion_law {pre post : List MmapRegion} (hregions : s.vm.mmaps = pre ++ old :: post)
    (hnew : 0 < newPages) (maymove : Bool) :
    (∀ grants, Returns (resizeRegion s pre.length old addr oldPages newPages maymove grants)
      (FrameLaw s addr oldPages newPages)) ↔ (oldPages < newPages →
      if rangeIsFree s.vm.mmaps (addr+oldPages*pageSize) (newPages-oldPages) userAddrMax then
        old.base = addr
      else maymove = true → ∀ b, LowestFree s newPages b → MoveClean s old addr oldPages b) := by
  have hcovers : Covers s old addr oldPages := ⟨h.layout,by simp [hregions],hbase,hend⟩
  unfold resizeRegion
  by_cases hle : newPages ≤ oldPages
  · refine iff_of_true (fun grants => ?_) (fun hlt => by omega)
    rw [if_pos hle]
    split
    · rename_i hlt
      exact .pure (hcovers.shrink_remapped halign hnew hlt)
    · obtain rfl : newPages = oldPages := by omega
      exact .pure (hcovers.same_remapped hold)
  have hgrow : oldPages < newPages := by omega
  simp only [if_neg hle,hgrow,forall_const]
  split
  · rename_i hfree
    rw [rangeIsFree_iff h.layout (Nat.le_refl _) (Nat.le_refl _)] at hfree
    rw [← Grows.growInPlace_law ⟨hcovers,hregions,halign,hold,hgrow,hfree⟩]
    constructor
    · intro hlaw grants
      obtain ⟨r,hr,hframe⟩ := hlaw grants
      rw [some.injEq] at hr
      exact hr ▸ hframe
    · exact fun hlaw grants => .pure (hlaw grants)
  · cases maymove with
    | false =>
      refine iff_of_true (fun grants => ?_) (by simp)
      exact .pure fun page _ => unchanged_refl s page
    | true =>
      simp only [Bool.not_true,Bool.false_eq_true,if_false,forall_const]
      exact moveRegion_law h hbase hend halign hold hcovers.mem (by omega) (by simp [hregions])

end Law

/-- `mremap` resizes the block and nothing else, however many frames there are,
exactly when the old range ends inside the address space, a block that grows in
place starts its region, and a block that moves moves cleanly. -/
theorem frameLaw_iff (h : Sound s) (oldAddr oldSize newSize flags : UInt64) :
    (∀ grants, Returns (sysMremap s oldAddr oldSize newSize flags grants)
      (FrameLaw s oldAddr.toNat (pagesOf oldSize) (pagesOf newSize))) ↔
    Clean s oldAddr oldSize newSize flags := by
  obtain ⟨⟨e,he⟩,hnone⟩ | ⟨hacc,⟨hpanic,hover⟩ | ⟨pre,old,post,hregions,hbase,hend,heq⟩⟩ :=
    sysMremap_cases s oldAddr oldSize newSize flags
  · refine iff_of_true (fun grants => ?_) (fun hacc => ⟨?_,?_⟩)
    · rw [he]
      exact .pure fun page _ => unchanged_refl s page
    · rintro ⟨hover,r,hr,hle⟩
      have := (hnone hacc r hr hle).2
      omega
    · intro old hmem hbase hend
      have := (hnone hacc old hmem hbase).1
      omega
  · refine iff_of_false (fun hlaw => ?_) (fun hclean => (hclean hacc).1 hover)
    have := hlaw 0
    rw [hpanic] at this
    exact not_returns_none this
  have hold := pagesOf_pos hacc.2.1
  have hspan : 0 < pagesOf oldSize*pageSize := Nat.mul_pos hold (by decide)
  have hmem : old ∈ s.vm.mmaps := by simp [hregions]
  have hstop := h.layout.below old hmem
  have hmax := userAddrMax_lt
  -- no other region holds the block
  have hunique : ∀ r ∈ s.vm.mmaps, r.base ≤ oldAddr.toNat →
      oldAddr.toNat+pagesOf oldSize*pageSize ≤ r.stop → r = old := by
    intro r hr hrb hre
    exact h.layout.holds_unique hr hmem (holds_iff.mpr ⟨hrb,by omega⟩)
      (holds_iff.mpr ⟨hbase,by omega⟩)
  simp only [heq]
  rw [resizeRegion_law h hbase hend hacc.1 hold hregions (pagesOf_pos hacc.2.2.1)]
  simp only [decide_eq_true_eq]
  constructor
  · intro hone _
    refine ⟨fun hover => by omega,fun r hr hrb hre => ?_⟩
    rw [hunique r hr hrb hre]
    exact hone
  · intro hclean
    exact (hclean hacc).2 old hmem hbase hend

def spaceOf (regions : List MmapRegion) (pt : PageTable) : Space :=
  ⟨{ VmRegionSet.new 0x500000 userMmapBase with mmaps := regions },pt⟩

/-- A block of two pages, the first one written, with a region right behind it. -/
def hemmedIn : Space :=
  spaceOf [⟨0x200000000000,2,true,true,3,true⟩,⟨0x200000002000,1,true,true,3,true⟩]
    (fun page => if page = 0x200000000000 then some ⟨true,true,[42]⟩ else none)

theorem frameLaw_hemmedIn : Sound hemmedIn ∧ Returns (sysMremap hemmedIn 0x200000000000 0x2000 0x3000 1 8)
      (FrameLaw hemmedIn 0x200000000000 2 3) := by
  have hsound : Sound hemmedIn := by
    refine ⟨⟨?_,?_,?_,?_,?_⟩,rfl⟩ <;> simp [hemmedIn,spaceOf,Apart,MmapRegion.stop] <;> decide
  refine ⟨hsound,(frameLaw_iff hsound 0x200000000000 0x2000 0x3000 1).mpr ?_ 8⟩
  intro _
  refine ⟨by decide,?_⟩
  intro old hmem hbase hend _
  rw [if_neg (by decide)]
  intro _ b hb
  rw [← planMmapBase_iff hsound] at hb
  have hplace : planMmapBase hemmedIn.vm.mmaps hemmedIn.vm.mmapFloor 3 userAddrMax =
      some 0x200000003000 := by decide +kernel
  obtain rfl : 0x200000003000 = b := some.inj (hplace.symm.trans hb)
  obtain rfl : old = ⟨0x200000000000,2,true,true,3,true⟩ := by
    simp only [hemmedIn,spaceOf,mem_cons,not_mem_nil,or_false] at hmem
    rcases hmem with rfl | rfl
    · rfl
    · exact absurd hbase (by decide)
  have hpages : pagesOf 0x2000 = 2 := by decide
  constructor
  · intro k hk hnone
    obtain rfl | rfl : k = 0 ∨ k = 1 := by omega
    · cases hnone
    · rfl
  · intro _ k j hkj hj _ hres
    obtain rfl : j = 1 := by omega
    exact absurd hres (by decide)

def fourPages : Space := spaceOf [⟨0x200000000000,4,true,true,3,true⟩] (fun _ => none)

/-- Its upper half grows by one page in place, and the region ends up shorter: the
last page of the grown block is not tracked. -/
theorem upperHalf_untracked : (sysMremap fourPages 0x200000002000 0x2000 0x3000 0 8).map (fun r =>
      (r.1.toOption,r.2.vm.mmaps.map (fun q => (q.base,q.pages)))) =
      some (some 0x200000002000,[(0x200000000000,3)]) ∧
    ¬ Returns (sysMremap fourPages 0x200000002000 0x2000 0x3000 0 8)
      (FrameLaw fourPages 0x200000002000 2 3) := by
  have hrun : (sysMremap fourPages 0x200000002000 0x2000 0x3000 0 8).map (fun r =>
      (r.1.toOption,r.2.vm.mmaps)) =
      some (some 0x200000002000,[⟨0x200000000000,3,true,true,3,true⟩]) := by
    decide +kernel
  refine ⟨by decide +kernel,?_⟩
  rintro ⟨⟨res,t⟩,hr,hlaw⟩
  rw [hr] at hrun
  cases res with
  | error e => simp [Except.toOption] at hrun
  | ok a =>
    simp only [map_some,Except.toOption,some.injEq,Prod.mk.injEq] at hrun
    obtain ⟨rfl,hmmaps⟩ := hrun
    have htrack := hlaw.tracked 0x200000004000 ⟨2,by decide,by decide⟩
    rw [hmmaps] at htrack
    revert htrack
    decide

end PaghOS.Mm
