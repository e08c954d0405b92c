import PaghOS.Lib.Loop
import PaghOS.Mm.Tracking

/-!
The frame law of `mremap`: the resized block keeps its bytes and its record, and
nothing else changes. Growth in place records the new size from the start of the
region and not from the start of the block, and a move looks at the tracked
regions alone, not at what is mapped where it goes.
-/

namespace PaghOS.Mm
open Loop Option
open Elf (userAddrMax checkedAdd)

/-- A page as it was: its record, its leaf and what it reads. -/
structure Unchanged (s t : Space) (page : Nat) : Prop where
  track : track t.vm.mmaps page = track s.vm.mmaps page
  leaf : t.pt page = s.pt page
  read : t.read page = s.read page

/-- A block of `oldPages` pages at `addr` became one of `newPages` pages at `a`. -/
structure Remapped (s t : Space) (addr oldPages newPages a : Nat) : Prop where
  known : (track s.vm.mmaps addr).isSome = true
  tracked : ∀ page, InPages a newPages page → track t.vm.mmaps page = track s.vm.mmaps addr
  reads : ∀ i, i < min oldPages newPages → t.read (a+i*pageSize) = s.read (addr+i*pageSize)
  frame : ∀ page, page%pageSize = 0 → ¬ InPages addr oldPages page → ¬ InPages a newPages page →
    Unchanged s t page

def FrameLaw (s : Space) (addr oldPages newPages : Nat) : Except Errno Nat × Space → Prop
  | (.ok a,t) => Remapped s t addr oldPages newPages a
  | (.error _,t) => ∀ page, page%pageSize = 0 → Unchanged s t page

/-- Regions page aligned and apart below `USER_ADDR_MAX`, with the floor that
`exec` sets. -/
structure Sound (s : Space) : Prop where
  layout : Layout 0 userAddrMax s.vm.mmaps
  floor : s.vm.mmapFloor = userMmapBase

/-- The lowest free place for `pages` pages from the mmap base on. -/
def LowestFree (s : Space) (pages b : Nat) : Prop :=
  userMmapBase ≤ b ∧ Free s.vm.mmaps b pages userAddrMax ∧
    ∀ c, userMmapBase ≤ c → c < b → ¬ Free s.vm.mmaps c pages userAddrMax

/-- What a page reads once a region with the attributes of `old` is tracked over
it and nothing is copied there. -/
def unbacked (s : Space) (old : MmapRegion) (page : Nat) : Option (List UInt8) :=
  match s.pt page with
  | some leaf => some leaf.data
  | none =>
    if old.anon = false then some zeroPage
    else if s.vm.brkLazyFrom ≤ page ∧ page < pageUp s.vm.currentBrk then some zeroPage
    else if old.prot = 0 then none else some zeroPage

/-- A move to `b` goes well: pages that are not resident read there what they
read before, and of an anonymous block no page but the last resident one lands on
a page that is mapped already. -/
structure MoveClean (s : Space) (old : MmapRegion) (addr oldPages b : Nat) : Prop where
  reads : ∀ i, i < oldPages → s.pt (addr+i*pageSize) = none →
    unbacked s old (b+i*pageSize) = s.read (addr+i*pageSize)
  unwinds : old.anon = true → ∀ i j, i < j → j < oldPages →
    (s.pt (addr+i*pageSize)).isSome = true → (s.pt (addr+j*pageSize)).isSome = true →
    s.pt (b+i*pageSize) = none

/-- The old range ends inside the address space; a block that grows in place
starts its region; a block that moves moves cleanly. -/
def Clean (s : Space) (oldAddr oldSize newSize flags : UInt64) : Prop :=
  Accepted oldAddr oldSize newSize flags →
    ¬ (u64Max < oldAddr.toNat+pagesOf oldSize*pageSize ∧ ∃ r ∈ s.vm.mmaps, r.base ≤ oldAddr.toNat) ∧
    ∀ old ∈ s.vm.mmaps, old.base ≤ oldAddr.toNat →
      oldAddr.toNat+pagesOf oldSize*pageSize ≤ old.stop → pagesOf oldSize < pagesOf newSize →
      if rangeIsFree s.vm.mmaps (oldAddr.toNat+pagesOf oldSize*pageSize)
          (pagesOf newSize-pagesOf oldSize) userAddrMax then old.base = oldAddr.toNat
      else flags &&& mremapMaymove ≠ 0 → ∀ b, LowestFree s (pagesOf newSize) b →
        MoveClean s old oldAddr.toNat (pagesOf oldSize) b

variable {s : Space}

theorem unchanged_refl (s : Space) (page : Nat) : Unchanged s s page := ⟨rfl,rfl,rfl⟩

theorem lazyRead_congr {vm : VmRegionSet} {regions : List MmapRegion} {hint page : Nat}
    (h : track regions page = track vm.mmaps page) :
    lazyRead { vm with mmaps := regions, mmapNextHint := hint } page = lazyRead vm page := by
  simp [lazyRead,h]

theorem unchanged_of {regions : List MmapRegion} {hint page : Nat} {pt : PageTable}
    (htrack : track regions page = track s.vm.mmaps page) (hleaf : pt page = s.pt page) :
    Unchanged s ⟨{ s.vm with mmaps := regions, mmapNextHint := hint },pt⟩ page := by
  refine ⟨htrack,hleaf,?_⟩
  simp [Space.read,hleaf,lazyRead_congr htrack]

/-- The region holds the block of `oldPages` pages at `addr`. -/
structure Covers (s : Space) (old : MmapRegion) (addr oldPages : Nat) : Prop where
  layout : Layout 0 userAddrMax s.vm.mmaps
  mem : old ∈ s.vm.mmaps
  base : old.base ≤ addr
  stop : addr+oldPages*pageSize ≤ old.stop

section Covered
variable {old : MmapRegion} {addr oldPages : Nat} (h : Covers s old addr oldPages)
include h

theorem Covers.tracked {page : Nat} (hlo : addr ≤ page) (hhi : page < addr+oldPages*pageSize) :
    track s.vm.mmaps page = some old.attrs :=
  track_of_mem h.layout h.mem (Nat.le_trans h.base hlo) (Nat.lt_of_lt_of_le hhi h.stop)

theorem planMunmap_covered {k n : Nat} (halign : addr%pageSize = 0) (hn : 0 < n) (hkn : k+n ≤ oldPages) :
    planMunmap (addr+k*pageSize) (n*pageSize) s.vm.mmaps = .ok n := by
  have hmax := h.layout.below old h.mem
  have hbase := h.base
  have hend := h.stop
  have hbound := userAddrMax_lt
  have hps : 0 < pageSize := by decide
  have hspan : k*pageSize+n*pageSize ≤ oldPages*pageSize := by
    rw [← Nat.add_mul]
    exact Nat.mul_le_mul_right _ hkn
  have hlen : pagesForLen (n*pageSize) = some n := by
    rw [pagesForLen,checkedAdd_eq (by omega),map_some]
    simp only [pageSize,some.injEq]
    omega
  have hpage : ∀ i, i < n → (checkedMul i pageSize >>= checkedAdd (addr+k*pageSize)) =
      some (addr+k*pageSize+i*pageSize) ∧ addr+k*pageSize+i*pageSize < old.stop := by
    intro i hi
    have hlt : i*pageSize+pageSize ≤ n*pageSize := by
      rw [← Nat.succ_mul]
      exact Nat.mul_le_mul_right _ hi
    refine ⟨?_,by omega⟩
    rw [checkedMul_eq (by omega),bind_eq_bind,bind_some,checkedAdd_eq (by omega)]
  have hcontains : ∀ page, old.base ≤ page → page < old.stop →
      regionContainsPage old page = true := by
    intro page h₁ h₂
    have hstop : old.base+old.pages*pageSize = old.stop := rfl
    rw [regionContainsPage,checkedMul_eq (by omega)]
    dsimp only
    rw [checkedAdd_eq (by omega),hstop]
    simp [h₁,h₂]
  unfold planMunmap
  have halign' : (addr+k*pageSize)%pageSize = 0 := by simp [Nat.add_mod,halign]
  have hne : n*pageSize ≠ 0 := by simp only [pageSize]; omega
  rw [if_neg (by simp [halign',hne]),hlen]
  dsimp only
  rw [if_pos]
  simp only [List.all_eq_true,List.mem_range]
  intro i hi
  obtain ⟨hsum,hlt⟩ := hpage i hi
  rw [hsum]
  simp only [List.any_eq_true]
  exact ⟨old,h.mem,hcontains _ (by omega) hlt⟩

theorem munmap_covered {k n : Nat} (halign : addr%pageSize = 0) (hn : 0 < n)
    (hkn : k+n ≤ oldPages) : (munmapImpl s (addr+k*pageSize) (n*pageSize)).2 =
      ⟨{ s.vm with mmaps := cutRegions s.vm.mmaps (addr+k*pageSize) n },
        unmapPages s.pt (addr+k*pageSize) n⟩ := by
  unfold munmapImpl
  rw [planMunmap_covered h halign hn hkn]

theorem Covers.track_start (hpos : 0 < oldPages) : track s.vm.mmaps addr = some old.attrs := by
  have hspan : 0 < oldPages*pageSize := Nat.mul_pos hpos (by decide)
  exact h.tracked (Nat.le_refl _) (by omega)

theorem Covers.same_remapped (hpos : 0 < oldPages) : Remapped s s addr oldPages oldPages addr where
  known := by simp [h.track_start hpos]
  tracked := by
    rintro page ⟨i,hi,rfl⟩
    have hlt : i*pageSize < oldPages*pageSize := Nat.mul_lt_mul_of_pos_right hi (by decide)
    rw [h.track_start hpos]
    exact h.tracked (by omega) (by omega)
  reads := fun _ _ => rfl
  frame := fun page _ _ _ => unchanged_refl s page

theorem Covers.shrink_remapped {newPages : Nat} (halign : addr%pageSize = 0) (hpos : 0 < newPages)
    (hlt : newPages < oldPages) :
    Remapped s (munmapImpl s (addr+newPages*pageSize) ((oldPages-newPages)*pageSize)).2 addr
      oldPages newPages addr := by
  have htail : (addr+newPages*pageSize)%pageSize = 0 := by simp [Nat.add_mod,halign]
  have hsum : newPages*pageSize+(oldPages-newPages)*pageSize = oldPages*pageSize := by
    rw [← Nat.add_mul]
    congr 1
    omega
  -- everything outside the dropped tail stays
  have hkeep : ∀ page, page < addr+newPages*pageSize ∨ addr+oldPages*pageSize ≤ page →
      Unchanged s (munmapImpl s (addr+newPages*pageSize) ((oldPages-newPages)*pageSize)).2 page := by
    intro page hpage
    rw [munmap_covered h halign (by omega) (by omega)]
    have hout : ¬ (addr+newPages*pageSize ≤ page ∧
        page < addr+newPages*pageSize+(oldPages-newPages)*pageSize) := by omega
    apply unchanged_of
    · rw [track_cut h.layout htail,if_neg hout]
    · rw [unmapPages_apply _ htail,if_neg fun hin => hout hin.2]
  have hstart := h.track_start (by omega)
  have hin : ∀ i, i < newPages → i*pageSize < newPages*pageSize :=
    fun i hi => Nat.mul_lt_mul_of_pos_right hi (by decide)
  constructor
  · simp [hstart]
  · rintro page ⟨i,hi,rfl⟩
    have := hin i hi
    rw [(hkeep _ (.inl (by omega))).track,hstart]
    exact h.tracked (by omega) (by omega)
  · intro i hi
    have := hin i (by omega)
    exact (hkeep _ (.inl (by omega))).read
  · intro page hp hold _
    rw [inPages_iff halign] at hold
    exact hkeep page (by omega)

end Covered

def backed (s : Space) (old : MmapRegion) (start pages grants : Nat) : Bool × PageTable :=
  if !old.anon then mapLoop old.writable old.nx pages start [] s.pt grants else (true,s.pt)

section Backed
variable {old : MmapRegion} {start pages grants : Nat} {pt : PageTable}

theorem backed_false (h : backed s old start pages grants = (false,pt)) : pt = s.pt := by
  unfold backed at h
  split at h
  · exact mapLoop_false h
  · cases h

theorem backed_true (h : backed s old start pages grants = (true,pt)) (p : Nat) :
    ((s.pt p).isSome = true → pt p = s.pt p) ∧ (¬ InPages start pages p → pt p = s.pt p) ∧
      (InPages start pages p → s.pt p = none →
        pt p = if old.anon then none else some ⟨old.writable,old.nx,zeroPage⟩) := by
  unfold backed at h
  split at h
  · rename_i hanon
    obtain ⟨-,hkept,hout,hnew⟩ := mapLoop_true h p
    refine ⟨hkept,hout,fun hin hnone => ?_⟩
    rw [hnew hin hnone,if_neg (by simpa using hanon)]
  · rename_i hanon
    obtain rfl : s.pt = pt := (Prod.mk.inj h).2
    simp_all

theorem backed_enough (h : pages ≤ grants) : (backed s old start pages grants).1 = true := by
  unfold backed
  split
  · exact mapLoop_enough h
  · rfl

theorem backed_dest (h : backed s old start pages grants = (true,pt)) (hanon : old.anon = false)
    {k : Nat} (hk : k < pages) : (pt (start+k*pageSize)).isSome = true := by
  obtain ⟨hkept,-,hnew⟩ := backed_true h (start+k*pageSize)
  cases hdst : s.pt (start+k*pageSize) with
  | none => simp [hnew ⟨k,hk,rfl⟩ hdst,hanon]
  | some leaf => simp [hkept (by simp [hdst]),hdst]

end Backed

/-- The covered block grows in place: what follows it is free. -/
structure Grows (s : Space) (pre : List MmapRegion) (old : MmapRegion) (post : List MmapRegion)
    (addr oldPages newPages : Nat) : Prop extends Covers s old addr oldPages where
  regions : s.vm.mmaps = pre ++ old :: post
  align : addr%pageSize = 0
  pos : 0 < oldPages
  grow : oldPages < newPages
  free : Free s.vm.mmaps (addr+oldPages*pageSize) (newPages-oldPages) userAddrMax

namespace Grows
variable {pre post : List MmapRegion} {old : MmapRegion} {addr oldPages newPages : Nat} {pt : PageTable}
  (h : Grows s pre old post addr oldPages newPages)
include h

theorem stop_eq : addr+oldPages*pageSize = old.stop := by
  have hspan : 0 < (newPages-oldPages)*pageSize := Nat.mul_pos (Nat.sub_pos_of_lt h.grow) (by decide)
  have hold := h.free.2.2 old h.mem
  have := h.base
  have := h.stop
  omega

theorem layout_grown : Layout 0 userAddrMax (pre ++ { old with pages := newPages } :: post) := by
  have hhi := h.free.2.1
  refine Layout.widen (h.regions ▸ h.layout) h.base h.stop h.grow (h.regions ▸ h.free) ?_
  rw [Nat.sub_mul] at hhi
  have := Nat.mul_le_mul_right pageSize (Nat.le_of_lt h.grow)
  omega

theorem grown_remapped (hstart : old.base = addr) (hint : Nat)
    (hpt : ∀ page, ¬ InPages (addr+oldPages*pageSize) (newPages-oldPages) page → pt page = s.pt page) :
    Remapped s ⟨{ s.vm with
      mmaps := pre ++ { old with pages := newPages } :: post, mmapNextHint := hint },pt⟩
      addr oldPages newPages addr := by
  have htail : (addr+oldPages*pageSize)%pageSize = 0 := by simp [Nat.add_mod,h.align]
  have hstop := h.stop_eq
  have hgrow := h.grow
  have hspan := Nat.mul_le_mul_right pageSize (Nat.le_of_lt hgrow)
  have hpages : old.pages ≤ newPages := by
    simp only [MmapRegion.stop,hstart] at hstop
    have := Nat.eq_of_mul_eq_mul_right (by decide : 0 < pageSize) (Nat.add_left_cancel hstop)
    omega
  have htrack : ∀ page, track (pre ++ { old with pages := newPages } :: post) page =
      if addr ≤ page ∧ page < addr+newPages*pageSize then some old.attrs
      else track s.vm.mmaps page := by
    intro page
    rw [track_widened (h.regions ▸ h.layout) h.layout_grown hpages,hstart,← h.regions]
  have hknown := h.track_start h.pos
  -- the block itself and everything outside the grown range stay
  have hkeep : ∀ page, page < addr+oldPages*pageSize ∨ addr+newPages*pageSize ≤ page →
      Unchanged s ⟨{ s.vm with
        mmaps := pre ++ { old with pages := newPages } :: post, mmapNextHint := hint },pt⟩ page := by
    intro page hpage
    apply unchanged_of
    · rw [htrack]
      split
      · exact (h.tracked (by omega) (by omega)).symm
      · rfl
    · apply hpt
      rw [inPages_iff htail,Nat.sub_mul]
      omega
  constructor
  · simp [hknown]
  · rintro page ⟨i,hi,rfl⟩
    have hlt : i*pageSize < newPages*pageSize := Nat.mul_lt_mul_of_pos_right hi (by decide)
    rw [hknown,htrack,if_pos (by omega)]
  · intro i hi
    have hlt : i*pageSize < oldPages*pageSize := Nat.mul_lt_mul_of_pos_right (by omega) (by decide)
    exact (hkeep _ (.inl (by omega))).read
  · intro page hp hold hnew
    rw [inPages_iff h.align] at hold hnew
    exact hkeep page (by omega)

theorem grown_untracked (hstart : old.base ≠ addr) :
    track (pre ++ { old with pages := newPages } :: post) (addr+(newPages-1)*pageSize) ≠ some old.attrs := by
  intro htrack
  have hbase := h.base
  have hgrow := h.grow
  have hpos := h.pos
  have halign := h.align
  rw [track_eq_some h.layout_grown] at htrack
  obtain ⟨r,hr,hp,-⟩ := htrack
  rw [holds_iff] at hp
  have hlast : (newPages-1)*pageSize+pageSize = newPages*pageSize := by
    rw [← Nat.succ_mul]
    congr 1
    omega
  have hspan : oldPages*pageSize ≤ (newPages-1)*pageSize := Nat.mul_le_mul_right _ (by omega)
  have hps : 0 < pageSize := by decide
  have hbelow : old.base+pageSize ≤ addr := by
    have := h.layout.aligned old h.mem
    simp only [pageSize] at *
    omega
  by_cases hsame : r = { old with pages := newPages }
  · have hlt : addr+(newPages-1)*pageSize < old.base+newPages*pageSize := by
      subst hsame
      exact hp.2
    omega
  have hmem : r ∈ s.vm.mmaps := by
    simp only [List.mem_append,List.mem_cons,hsame,false_or] at hr
    simpa [h.regions] using hr.imp_right Or.inr
  have := h.free.2.2 r hmem
  rw [Nat.sub_mul] at this
  omega

theorem growInPlace_ok {grants : Nat}
    (hback : backed s old (addr+oldPages*pageSize) (newPages-oldPages) grants = (true,pt)) :
    ∃ hint, growInPlace s pre.length old addr oldPages newPages grants = (.ok addr,⟨{ s.vm with
        mmaps := pre ++ { old with pages := newPages } :: post, mmapNextHint := hint },pt⟩) := by
  have hset : s.vm.mmaps.set pre.length { old with pages := newPages } =
      pre ++ { old with pages := newPages } :: post := by
    simp [h.regions]
  unfold backed at hback
  unfold growInPlace
  simp only [mapZeroedRange_eq,hback,hset]
  exact ⟨_,rfl⟩

omit h in
theorem growInPlace_error {grants : Nat}
    (hback : backed s old (addr+oldPages*pageSize) (newPages-oldPages) grants = (false,pt)) :
    growInPlace s pre.length old addr oldPages newPages grants = (.error .enomem,s) := by
  obtain rfl := backed_false hback
  unfold backed at hback
  unfold growInPlace
  simp only [mapZeroedRange_eq,hback]
  rfl

theorem growInPlace_law : (∀ grants, FrameLaw s addr oldPages newPages
    (growInPlace s pre.length old addr oldPages newPages grants)) ↔ old.base = addr := by
  constructor
  · intro hlaw
    by_contra hstart
    have hok : (backed s old (addr+oldPages*pageSize) (newPages-oldPages)
        (newPages-oldPages)).1 = true := backed_enough (Nat.le_refl _)
    obtain ⟨hint,hrun⟩ := h.growInPlace_ok (Prod.ext hok rfl)
    have hlast := hlaw (newPages-oldPages)
    rw [hrun] at hlast
    have htrack := hlast.tracked (addr+(newPages-1)*pageSize) 
      ⟨newPages-1,Nat.sub_one_lt_of_lt h.grow,rfl⟩
    rw [h.track_start h.pos] at htrack
    exact h.grown_untracked hstart htrack
  · intro hstart grants
    cases hback : backed s old (addr+oldPages*pageSize) (newPages-oldPages) grants with
    | mk ok pt =>
      cases ok with
      | false =>
        rw [growInPlace_error hback]
        exact fun page _ => unchanged_refl s page
      | true =>
        obtain ⟨hint,hrun⟩ := h.growInPlace_ok hback
        rw [hrun]
        exact h.grown_remapped hstart hint fun page hout => (backed_true hback page).2.1 hout

end Grows

end PaghOS.Mm
