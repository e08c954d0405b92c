import Mathlib.Order.Interval.Set.Disjoint
import Mathlib.Order.CompletePartialOrder
import PaghOS.Mm.Arranged

/-!
Heap, mapped regions and stack over every sequence of memory calls of one
process. First fit looks at the tracked regions alone: the heap and the stack
are clear of them only as long as the break stays below the place where regions
begin, and the regions find room below the stack.
-/

namespace PaghOS.Mm
open Loop
open Elf (userAddrMax checkedAdd userStackTop userStackPages)

def Unfixed : Call → Prop
  | .mmap _ _ _ flags _ _ _ _ => flags.toUInt32 &&& mapFixed = 0
  | _ => True

/-- The tracked regions against each other, the heap and the stack. -/
structure Separated (vm : VmRegionSet) : Prop where
  aligned : ∀ r ∈ vm.mmaps, r.base%pageSize = 0
  nonempty : ∀ r ∈ vm.mmaps, 0 < r.pages
  below : ∀ r ∈ vm.mmaps, r.stop ≤ userAddrMax
  apart : vm.mmaps.Pairwise (fun r q => Disjoint (Set.Ico r.base r.stop) (Set.Ico q.base q.stop))
  heap : ∀ r ∈ vm.mmaps, Disjoint (Set.Ico r.base r.stop) (Set.Ico vm.initialBrk vm.currentBrk)
  stack : ∀ r ∈ vm.mmaps, Disjoint (Set.Ico r.base r.stop) (Set.Ico userStackLow userStackTop)

/-- `plan_mmap_base` finds a place for `pages` pages below `ceiling`. -/
def Placeable (vm : VmRegionSet) (pages ceiling : Nat) : Prop :=
  (planMmapBase vm.mmaps vm.mmapFloor pages ceiling).isSome = true

instance (vm : VmRegionSet) (pages ceiling : Nat) : Decidable (Placeable vm pages ceiling) :=
  inferInstanceAs (Decidable (_ = _))

/-- The break is not moved past the place where regions begin, what is mapped or
grown has room below the stack, and the old range of a resize ends inside the
address space. -/
def Bounded (s : Space) : Call → Prop
  | .brk addr => addr.toNat ≤ s.vm.mmapFloor ∨ userAddrMax ≤ addr.toNat ∨
      ∃ r ∈ s.vm.mmaps, s.vm.currentBrk < r.base ∧ r.base ≤ addr.toNat
  | .mmap _ len _ _ _ _ _ _ =>
    Placeable s.vm (pagesOf len) userAddrMax → Placeable s.vm (pagesOf len) userStackLow
  | .mremap oldAddr oldSize newSize _ _ =>
    ((∃ r ∈ s.vm.mmaps, r.base ≤ oldAddr.toNat) → oldAddr.toNat+pagesOf oldSize*pageSize ≤ u64Max) ∧
    (rangeIsFree s.vm.mmaps (oldAddr.toNat+pagesOf oldSize*pageSize)
        (pagesOf newSize-pagesOf oldSize) userAddrMax = true →
      oldAddr.toNat+pagesOf newSize*pageSize ≤ userStackLow) ∧
    (Placeable s.vm (pagesOf newSize) userAddrMax → Placeable s.vm (pagesOf newSize) userStackLow)
  | _ => True

/-- What the conditions keep: the heap below the floor, the regions between the
floor and the stack. -/
abbrev Kept (s : Space) : Prop := Arranged userMmapBase userStackLow userMmapBase s

variable {s : Space}

theorem userStackLow_le : userStackLow ≤ userAddrMax := by decide

theorem ico_disjoint {a b c d : Nat} (h : b ≤ c ∨ d ≤ a) : Disjoint (Set.Ico a b) (Set.Ico c d) := by
  rw [Set.Ico_disjoint_Ico]
  omega

theorem separated_of_kept (h : Kept s) : Separated s.vm where
  aligned := h.layout.aligned
  nonempty := h.layout.nonempty
  below := fun r hr => le_trans (h.layout.below r hr) userStackLow_le
  apart := h.layout.apart.imp ico_disjoint
  heap := fun r hr => ico_disjoint (.inr (le_trans h.heap (h.layout.above r hr)))
  stack := fun r hr => ico_disjoint (.inl (h.layout.below r hr))

theorem brk_kept (h : Kept s) {addr : UInt64} (hb : Bounded s (.brk addr)) :
    Kept { s with vm := brkImpl s.vm addr.toNat } := by
  unfold brkImpl
  dsimp only
  split
  · exact h
  rename_i hceil
  unfold planBrk
  have hheap := h.heap
  split
  · exact h
  · rename_i v hplan
    split at hplan
    · cases hplan
    split at hplan
    · cases hplan
      exact ⟨h.floor,h.layout,by dsimp only; omega⟩
    · cases hplan
  · rename_i newBrk mapFrom mapTo hplan
    split at hplan
    · cases hplan
    split at hplan
    · cases hplan
    rename_i hrange hgrow
    cases hplan
    refine ⟨h.floor,h.layout,?_⟩
    dsimp only
    rcases hb with hb | hb | ⟨r,hr,hcur,hreq⟩
    · exact h.floor ▸ hb
    · omega
    · -- a region in the way is at or above the ceiling
      refine absurd ⟨by omega,?_⟩ hceil
      have hmem : r.base ∈ (s.vm.mmaps.map (·.base)).filter (· > s.vm.currentBrk) := by
        simpa using ⟨⟨r,hr,rfl⟩,hcur⟩
      cases hmin : ((s.vm.mmaps.map (·.base)).filter (· > s.vm.currentBrk)).min? with
      | none => simp [List.min?_eq_none_iff.mp hmin] at hmem
      | some m =>
        have := (List.le_min?_iff hmin (x := m)).mp (le_refl m) _ hmem
        simp only [Option.getD_some]
        omega

theorem roomy_of_placeable (h : Kept s) {pages : Nat}
    (hroom : Placeable s.vm pages userAddrMax → Placeable s.vm pages userStackLow) :
    Roomy userMmapBase userStackLow s pages := by
  intro b hb
  have hfloor : s.vm.mmapFloor ≤ userAddrMax := by rw [h.floor]; decide
  obtain ⟨c,hc⟩ := Option.isSome_iff_exists.mp (hroom (by simp [Placeable,hb]))
  obtain ⟨hlec,hfreec,-⟩ := planMmapBase_some h.layout userStackLow_le hfloor userStackLow_le hc
  have hend := planMmapBase_below h.layout userStackLow_le hfloor le_rfl hb
    ⟨c,hlec,hfreec⟩ userStackLow_le
  obtain ⟨hle,hfree,-⟩ := planMmapBase_some h.layout userStackLow_le hfloor le_rfl hb
  exact ⟨h.floor ▸ hle,hfree.1,hend,hfree.2.2⟩

theorem mremap_kept (h : Kept s) {oldAddr oldSize newSize flags : UInt64} {grants : Nat}
    (hb : Bounded s (.mremap oldAddr oldSize newSize flags grants)) :
    Returns (sysMremap s oldAddr oldSize newSize flags grants) (fun r => Kept r.2) := by
  obtain ⟨hwrap,hplace,hroom⟩ := hb
  obtain ⟨⟨e,he⟩,-⟩ | ⟨hacc,⟨-,hover,hex⟩ | ⟨pre,old,post,hregions,hbase,hend,heq⟩⟩ :=
    sysMremap_cases s oldAddr oldSize newSize flags
  · rw [he]
    exact .pure h
  · have := hwrap hex
    omega
  · rw [heq]
    exact resizeRegion_arranged h userStackLow_le hregions hbase hend (pagesOf_pos hacc.2.2.1)
      (fun hfree _ => hplace hfree) (roomy_of_placeable h hroom) _ grants

theorem step_kept (h : Kept s) (c : Call) (hu : Unfixed c) (hb : Bounded s c) :
    Returns (s.step c) Kept := by
  cases c with
  | brk addr => exact .pure (brk_kept h hb)
  | mmap addr len prot flags fd off node grants =>
    exact .pure (mmap_arranged h (roomy_of_placeable h hb) (fun hf => absurd hu hf))
  | munmap addr len => exact .pure (munmap_arranged h _ _)
  | mremap oldAddr oldSize newSize flags grants =>
    obtain ⟨r,hr,hk⟩ := mremap_kept h hb
    exact ⟨r.2,by simp [Space.step,hr],hk⟩
  | mprotect addr len prot => exact .pure (mprotect_arranged h _ _ _)

/-- Heap, regions and stack stay separate over every sequence of calls that keeps
the break below the regions and the regions below the stack. -/
theorem separated_of_bounded {initialBrk : Nat} (hstart : initialBrk ≤ userMmapBase)
    (pt : PageTable) (calls : List Call) (hfix : ∀ c ∈ calls, Unfixed c)
    (hcond : ∀ p c t, p ++ [c] <+: calls → run Space.step (Space.exec initialBrk pt) p = some t →
      Bounded t c) : ∀ p, p <+: calls → Returns (run Space.step (Space.exec initialBrk pt) p)
      (fun s => Separated s.vm) := by
  refine run_safe (fun t c => Unfixed c ∧ Bounded t c) (fun _ h => separated_of_kept h)
    (fun t c h hc => step_kept h c hc.1 hc.2) (arranged_exec hstart pt) ?_
  intro p c t hp ht
  exact ⟨hfix c (hp.subset (by simp)),hcond p c t hp ht⟩

instance (s : Space) : (c : Call) → Decidable (Bounded s c)
  | .brk _ => inferInstanceAs (Decidable (_ ∨ _))
  | .mmap .. => inferInstanceAs (Decidable (_ → _))
  | .mremap .. => inferInstanceAs (Decidable (_ ∧ _))
  | .munmap .. | .mprotect .. => .isTrue trivial

def anonymous (len : UInt64) : Call := .mmap 0 len 3 0x22 0xffffffffffffffff 0 none 8

/-- A heap, two regions, one cut in half and the other grown over the gap. -/
def smallProcess : List Call :=
  [.brk 0x502800,anonymous 0x3000,anonymous 0x1000,.munmap 0x200000001000 0x2000,
    .mremap 0x200000000000 0x1000 0x2800 1 8,.mprotect 0x200000003000 0x1000 1,.brk 0x501000]

theorem separated_of_smallProcess :
    Returns (run Space.step (Space.exec 0x500000 (fun _ => none)) smallProcess)
      (fun s => Separated s.vm) :=
  separated_of_bounded (by decide) _ smallProcess (by simp [smallProcess,anonymous,Unfixed]; decide)
    (Along.at_prefix (by decide +kernel : Along Space.step Bounded _ _)) smallProcess
    List.prefix_rfl

/-- The break is moved past the place where regions begin, and the next region is
put into the heap. -/
theorem brk_then_mmap_overlaps :
    (run Space.step (Space.exec 0x500000 (fun _ => none)) [.brk 0x200000002000,anonymous 0x1000]).map
      (fun s => (s.vm.initialBrk,s.vm.currentBrk,s.vm.mmaps.map (fun r => (r.base,r.stop)))) =
      some (0x500000,0x200000002000,[(0x200000000000,0x200000001000)]) ∧
    ¬ Disjoint (Set.Ico 0x200000000000 0x200000001000) (Set.Ico 0x500000 0x200000002000) := by
  refine ⟨by decide +kernel,?_⟩
  rw [Set.Ico_disjoint_Ico]
  decide

end PaghOS.Mm
