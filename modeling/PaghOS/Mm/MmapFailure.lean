import Mathlib.Data.List.Nodup
import PaghOS.Mm.Refine

/-!
What a failed `sys_mmap` leaves behind. A call that fails its checks changes nothing.
One that runs out of frames has already given up the old mapping of a `MAP_FIXED`
range and keeps the page tables it has taken; one whose file cannot be read keeps the
whole new mapping.
-/

namespace PaghOS.Mm
open List MmapPlan Machine
open Elf (checkedAdd)

/-- The bytes the copy reads for page `i`; nothing at the end of the file. -/
def FileNode.pageRead (f : FileNode) (off i : Nat) : Option (List UInt8) :=
  match checkedAdd off (i*pageSize) with
  | none => some []
  | some fileOff =>
    if fileOff ≥ f.size then some [] else f.read fileOff (min pageSize (f.size-fileOff))

/-- Some read fails before the copy comes to an empty one. -/
def FileNode.Breaks (f : FileNode) (off n : Nat) : Prop :=
  ∃ i, i < n ∧ f.pageRead off i = none ∧ ∀ j, j < i → f.pageRead off j ≠ some []

def FileNode.supplies (f : FileNode) (off i : Nat) : Bool :=
  match f.pageRead off i with
  | some buf => buf ≠ []
  | none => false

def overwrite (buf : List UInt8) (leaf : Leaf) : Leaf :=
  { leaf with data := buf ++ leaf.data.drop buf.length }

def FileNode.fill (f : FileNode) (off i : Nat) (leaf : Leaf) : Leaf :=
  if (List.range (i+1)).all (f.supplies off) then overwrite ((f.pageRead off i).getD []) leaf
  else leaf

section Copy

variable {f : FileNode} {off base n i : Nat} {pt : PageTable} {buf : List UInt8}
variable {k : Nat}

theorem copyFile_succ : copyFile f off base (n+1) i pt = (f.pageRead off i).elim (false,pt) fun buf =>
    if buf = [] then (true,pt) else copyFile f off base n (i+1)
      (pt.set (base+i*pageSize) ((pt (base+i*pageSize)).map (overwrite buf))) := by
  unfold FileNode.pageRead
  rw [copyFile]
  cases checkedAdd off (i*pageSize) with
  | none => rfl
  | some fileOff =>
    dsimp only
    split
    · rfl
    cases f.read fileOff (min pageSize (f.size-fileOff)) with
    | none => rfl
    | some buf =>
      refine if_congr Iff.rfl rfl (congrArg (copyFile f off base n (i+1)) ?_)
      cases hleaf : pt (base+i*pageSize) with
      | none =>
        funext q
        simp only [set_apply,Option.map_none]
        split
        · rename_i heq
          rw [heq,hleaf]
        · rfl
      | some leaf => rfl

theorem copyFile_none (h : f.pageRead off i = none) : copyFile f off base (n+1) i pt = (false,pt) := by
  rw [copyFile_succ,h,Option.elim_none]

theorem copyFile_empty (h : f.pageRead off i = some []) : copyFile f off base (n+1) i pt = (true,pt) := by
  rw [copyFile_succ,h,Option.elim_some,if_pos rfl]

theorem copyFile_some (h : f.pageRead off i = some buf) (hbuf : buf ≠ []) :
    copyFile f off base (n+1) i pt = copyFile f off base n (i+1)
      (pt.set (base+i*pageSize) ((pt (base+i*pageSize)).map (overwrite buf))) := by
  rw [copyFile_succ,h,Option.elim_some,if_neg hbuf]

theorem supplies_of_some (h : f.pageRead off i = some buf) (hbuf : buf ≠ []) : f.supplies off i = true := by
  simp [FileNode.supplies,h,hbuf]

theorem copyFile_breaks_from : (copyFile f off base n i pt).1 = false ↔
    ∃ k, i ≤ k ∧ k < i+n ∧ f.pageRead off k = none ∧ ∀ j, i ≤ j → j < k → f.pageRead off j ≠ some [] := by
  induction n generalizing i pt with
  | zero =>
    refine iff_of_false (by simp [copyFile]) ?_
    rintro ⟨k,hik,hkn,-⟩
    omega
  | succ n ih =>
    cases hread : f.pageRead off i with
    | none =>
      rw [copyFile_none hread]
      exact iff_of_true rfl ⟨i,Nat.le_refl i,by omega,hread,by omega⟩
    | some buf =>
      by_cases hbuf : buf = []
      · subst hbuf
        rw [copyFile_empty hread]
        refine iff_of_false (by simp) ?_
        rintro ⟨k,hik,-,hnone,hbefore⟩
        rcases Nat.eq_or_lt_of_le hik with rfl | hlt
        · simp [hread] at hnone
        · exact hbefore i (Nat.le_refl i) hlt hread
      rw [copyFile_some hread hbuf,ih]
      constructor
      · rintro ⟨k,hik,hkn,hnone,hbefore⟩
        refine ⟨k,by omega,by omega,hnone,fun j hij hjk => ?_⟩
        rcases Nat.eq_or_lt_of_le hij with rfl | hlt
        · simp [hread,hbuf]
        · exact hbefore j hlt hjk
      rintro ⟨k,hik,hkn,hnone,hbefore⟩
      have hne : k ≠ i := by
        rintro rfl
        simp [hread] at hnone
      exact ⟨k,by omega,by omega,hnone,fun j hij hjk => hbefore j (by omega) hjk⟩

theorem copyFile_breaks : (copyFile f off base n 0 pt).1 = false ↔ f.Breaks off n := by
  simp [copyFile_breaks_from,FileNode.Breaks]

/-- The copy leaves alone whatever is not a page that it comes to and that the file supplies. -/
theorem copyFile_keeps {q : Nat} (h : ∀ k, i ≤ k → k < i+n →
      (∀ j, i ≤ j → j ≤ k → f.supplies off j = true) → q ≠ base+k*pageSize) :
    (copyFile f off base n i pt).2 q = pt q := by
  induction n generalizing i pt with
  | zero => rfl
  | succ n ih =>
    cases hread : f.pageRead off i with
    | none => rw [copyFile_none hread]
    | some buf =>
      by_cases hbuf : buf = []
      · subst hbuf
        rw [copyFile_empty hread]
      have hi := supplies_of_some hread hbuf
      rw [copyFile_some hread hbuf,ih,set_apply,if_neg (h i (Nat.le_refl i) (by omega) ?_)]
      · intro j hij hji
        rwa [Nat.le_antisymm hji hij]
      · intro k hik hkn hall
        refine h k (by omega) (by omega) fun j hij hjk => ?_
        rcases Nat.eq_or_lt_of_le hij with rfl | hlt
        · exact hi
        · exact hall j hlt hjk

theorem copyFile_supplied (hik : i ≤ k) (hkn : k < i+n)
    (h : ∀ j, i ≤ j → j ≤ k → f.supplies off j = true) : (copyFile f off base n i pt).2 (base+k*pageSize) =
      (pt (base+k*pageSize)).map (overwrite ((f.pageRead off k).getD [])) := by
  induction n generalizing i pt with
  | zero => omega
  | succ n ih =>
    have hi := h i (Nat.le_refl i) hik
    cases hread : f.pageRead off i with
    | none => simp [FileNode.supplies,hread] at hi
    | some buf =>
      have hbuf : buf ≠ [] := by simpa [FileNode.supplies,hread] using hi
      rw [copyFile_some hread hbuf]
      rcases Nat.eq_or_lt_of_le hik with rfl | hlt
      · -- this page was just written and is not visited again
        rw [copyFile_keeps fun k hik hkn _ => by simp only [pageSize]; omega,set_apply,
          if_pos rfl,hread,Option.getD_some]
      · rw [ih hlt (by omega) fun j hij hjk => h j (by omega) hjk,set_apply,
          if_neg (by simp only [pageSize]; omega)]

theorem copyFile_page (hk : k < n) : (copyFile f off base n 0 pt).2 (base+k*pageSize) =
      (pt (base+k*pageSize)).map (f.fill off k) := by
  by_cases hall : (List.range (k+1)).all (f.supplies off) = true
  · have hfill : f.fill off k = overwrite ((f.pageRead off k).getD []) := by
      funext leaf
      rw [FileNode.fill,if_pos hall]
    simp only [all_eq_true,mem_range] at hall
    rw [hfill,copyFile_supplied (Nat.zero_le k) (by omega) fun j _ hj => hall j (by omega)]
  have hfill : f.fill off k = id := by
    funext leaf
    rw [FileNode.fill,if_neg hall,id]
  simp only [all_eq_true,mem_range,not_forall,Bool.not_eq_true] at hall
  obtain ⟨j,hj,hnot⟩ := hall
  rw [hfill,Option.map_id,id,copyFile_keeps]
  intro i _ _ hsupplied heq
  simp only [pageSize] at heq
  simp [hsupplied j (Nat.zero_le j) (by omega)] at hnot

end Copy

def weight : List MmapRegion → Nat
  | [] => 0
  | r :: regions => 2*r.pages+1+weight regions

section Cut

variable {r : MmapRegion} {regions : List MmapRegion} {base pages : Nat}

theorem weight_append (l₁ l₂ : List MmapRegion) : weight (l₁ ++ l₂) = weight l₁+weight l₂ := by
  induction l₁ with
  | nil => simp [weight]
  | cons r l₁ ih =>
    simp only [cons_append,weight,ih]
    omega

theorem weight_cut_lt (hpages : 0 < pages) (hmeet : ¬(r.stop ≤ base ∨ base+pages*pageSize ≤ r.base)) :
    weight (r.cut base (base+pages*pageSize)) < 2*r.pages+1 := by
  unfold MmapRegion.cut
  rw [if_neg hmeet,weight_append]
  simp only [MmapRegion.stop,pageSize] at *
  by_cases hleft : r.base < base <;> by_cases hright : base+pages*4096 < r.base+r.pages*4096 <;>
    simp only [hleft,hright,if_true,if_false,weight] <;> omega

theorem weight_cut_le (hpages : 0 < pages) : weight (r.cut base (base+pages*pageSize)) ≤ 2*r.pages+1 := by
  by_cases hmeet : r.stop ≤ base ∨ base+pages*pageSize ≤ r.base
  · rw [MmapRegion.cut,if_pos hmeet]
    exact Nat.le_refl _
  · exact Nat.le_of_lt (weight_cut_lt hpages hmeet)

theorem cutRegions_cons : cutRegions (r :: regions) base pages =
    r.cut base (base+pages*pageSize) ++ cutRegions regions base pages := rfl

theorem weight_cutRegions_le (hpages : 0 < pages) :
    weight (cutRegions regions base pages) ≤ weight regions := by
  induction regions with
  | nil => exact Nat.le_refl _
  | cons r regions ih =>
    have hcut : weight (r.cut base (base+pages*pageSize)) ≤ 2*r.pages+1 := weight_cut_le hpages
    rw [cutRegions_cons,weight_append,weight]
    omega

theorem cutRegions_eq_self_iff (hpages : 0 < pages) : cutRegions regions base pages = regions ↔
    ∀ r ∈ regions, r.stop ≤ base ∨ base+pages*pageSize ≤ r.base := by
  induction regions with
  | nil => simp [cutRegions]
  | cons r regions ih =>
    rw [forall_mem_cons,cutRegions_cons]
    constructor
    · intro heq
      by_cases hmeet : r.stop ≤ base ∨ base+pages*pageSize ≤ r.base
      · rw [MmapRegion.cut,if_pos hmeet,singleton_append,List.cons.injEq] at heq
        exact ⟨hmeet,ih.mp heq.2⟩
      have hlt := weight_cut_lt hpages hmeet
      have hle : weight (cutRegions regions base pages) ≤ weight regions :=
        weight_cutRegions_le hpages
      have hweight := congrArg weight heq
      rw [weight_append,weight] at hweight
      omega
    · rintro ⟨hmeet,hrest⟩
      rw [MmapRegion.cut,if_pos hmeet,singleton_append,ih.mpr hrest]

end Cut

/-- The same tracked regions, page mappings, contents and number of free frames. -/
structure Machine.Unchanged (m m' : Machine) : Prop where
  vm : m'.vm = m.vm
  leaf : ∀ q, q%pageSize = 0 → m'.leaf q = m.leaf q
  free : m'.free = m.free

namespace MmapPlan

/-- Nothing is tracked or resident in the range. -/
def Vacant (p : MmapPlan) (m : Machine) : Prop :=
  (∀ r ∈ m.vm.mmaps, r.stop ≤ p.base ∨ p.stop ≤ r.base) ∧
    ∀ i, i < p.pages → m.leaf (p.base+i*pageSize) = none

/-- The range is to be backed and lacks frames or tables for it. -/
def Scarce (p : MmapPlan) (m : Machine) : Prop :=
  p.eager = true ∧ (m.free < m.gaps p.base p.pages ∨ ∃ i, i < p.pages ∧ m.leaf (p.base+i*pageSize) = none ∧
      m.tablesMissing (p.base+i*pageSize) ≠ 0)

def ReadFails (p : MmapPlan) : Prop := ∃ f, p.file = some f ∧ f.Breaks p.off p.pages

def newLeaf (p : MmapPlan) (f : FileNode) (i : Nat) : Option Leaf :=
  if p.eager then some (f.fill p.off i ⟨p.writable,p.nx,zeroPage⟩) else none

/-- The range already holds, page for page, what the call puts there. -/
def Refills (p : MmapPlan) (m : Machine) : Prop :=
  p.fixed = true ∧ cutRegions m.vm.mmaps p.base p.pages ++ [p.region] = m.vm.mmaps ∧
    ∃ f, p.file = some f ∧ ∀ i, i < p.pages → m.leaf (p.base+i*pageSize) = p.newLeaf f i

def Harmless (p : MmapPlan) (m : Machine) : Prop :=
  ((p.fixed = true → p.Vacant m) ∧ m.TablesReady p.base p.pages ∧ (p.ReadFails → p.Scarce m)) ∨
    p.Refills m

end MmapPlan

section Failure

variable {m m' : Machine} {p : MmapPlan}

theorem MmapPlan.page_aligned (hp : p.base%pageSize = 0) (i : Nat) : (p.base+i*pageSize)%pageSize = 0 := by
  simp only [pageSize] at *
  omega

theorem MmapPlan.rangePages_nodup (p : MmapPlan) : p.rangePages.Nodup := by
  refine List.Nodup.map (fun i j hij => ?_) nodup_range
  simp only [pageSize] at hij
  omega

theorem MmapPlan.rangePages_length (p : MmapPlan) : p.rangePages.length = p.pages := by
  simp [MmapPlan.rangePages]

theorem Machine.clear_free (m : Machine) (hfixed : p.fixed = true) :
    (m.clear p).free = (m.unwind p.rangePages).free := by
  rw [Machine.clear,if_pos hfixed]

theorem Machine.clear_vm (m : Machine) (hfixed : p.fixed = true) :
    (m.clear p).vm = { m.vm with mmaps := cutRegions m.vm.mmaps p.base p.pages } := by
  rw [Machine.clear,if_pos hfixed]

theorem Machine.clear_tables (m : Machine) (p : MmapPlan) (q : Nat) :
    (m.clear p).tablesMissing q = m.tablesMissing q := by
  unfold Machine.clear
  split
  · exact m.tablesMissing_unwind p.rangePages q
  · rfl

theorem Machine.leaf_clear (hp : p.base%pageSize = 0) (hfixed : p.fixed = true) {q : Nat}
    (hq : q%pageSize = 0) : (m.clear p).leaf q = if q ∈ p.rangePages then none else m.leaf q := by
  rw [Machine.clear,if_pos hfixed]
  exact leaf_unwind (rangePages_aligned hp) hq

theorem Machine.leaf_clear_in (hp : p.base%pageSize = 0) (hfixed : p.fixed = true) {i : Nat}
    (hi : i < p.pages) : (m.clear p).leaf (p.base+i*pageSize) = none := by
  have hmem : p.base+i*pageSize ∈ p.rangePages := mem_rangePages.mpr ⟨i,hi,rfl⟩
  rw [leaf_clear hp hfixed (rangePages_aligned hp _ hmem),if_pos hmem]

theorem Machine.clear_vacant (hc : p.Checked) (h : p.fixed = true → p.Vacant m) : m.clear p = m := by
  unfold Machine.clear
  split
  · rename_i hfixed
    obtain ⟨hregions,hpages⟩ := h hfixed
    have habsent : ∀ q ∈ p.rangePages, m.leaf q = none := by
      intro q hq
      obtain ⟨i,hi,rfl⟩ := mem_rangePages.mp hq
      exact hpages i hi
    rw [unwind_absent habsent,(cutRegions_eq_self_iff hc.pages).mpr hregions]
  · rfl

theorem MmapPlan.vacant_of_clear (hc : p.Checked) (hfixed : p.fixed = true) (hvm : (m.clear p).vm = m.vm)
    (hleaf : ∀ q, q%pageSize = 0 → (m.clear p).leaf q = m.leaf q) : p.Vacant m := by
  rw [clear_vm m hfixed] at hvm
  refine ⟨(cutRegions_eq_self_iff hc.pages).mp (congrArg VmRegionSet.mmaps hvm),fun i hi => ?_⟩
  rw [← hleaf _ (page_aligned hc.aligned i),leaf_clear_in hc.aligned hfixed hi]

theorem Machine.back_eager (h : p.eager = true) : m.back p = m.mapLoop p.writable p.nx p.pages p.base [] := by
  rw [Machine.back,if_pos h,MmapPlan.stop,mapZeroedRange_eq]

theorem Machine.back_failed_eager (h : m.back p = (false,m')) : p.eager = true := by
  by_contra hlazy
  simp [Machine.back,hlazy] at h

theorem MmapPlan.scarce_of_back (hc : p.Checked) (h : m.back p = (false,m')) : p.Scarce m := by
  have heager := back_failed_eager h
  refine ⟨heager,?_⟩
  by_contra hnot
  rw [not_or] at hnot
  have htables : ∀ i, i < p.pages → m.leaf (p.base+i*pageSize) = none →
      m.tablesMissing (p.base+i*pageSize) = 0 := by
    intro i hi hnone
    by_contra hmissing
    exact hnot.2 ⟨i,hi,hnone,hmissing⟩
  have hok : (m.mapLoop p.writable p.nx p.pages p.base []).1 = true :=
    mapLoop_suffices hc.aligned (Nat.le_of_not_lt hnot.1) htables
  rw [← back_eager heager,h] at hok
  cases hok

theorem Machine.unchanged_of_exhausted (hc : p.Checked) (h : (m.clear p).back p = (false,m')) :
    m.Unchanged m' ↔ (p.fixed = true → p.Vacant m) ∧ m.TablesReady p.base p.pages := by
  rw [back_eager (back_failed_eager h)] at h
  obtain ⟨hvm,hleaf,-,hfree⟩ := mapLoop_failed h hc.aligned (.nil _ _)
  simp only [not_mem_nil,if_false,length_nil,Nat.add_zero] at hleaf hfree
  constructor
  · intro hsame
    have hvacant : p.fixed = true → p.Vacant m := fun hfixed =>
      vacant_of_clear hc hfixed (hvm.symm.trans hsame.vm)
        (fun q hq => (hleaf q hq).symm.trans (hsame.leaf q hq))
    rw [clear_vacant hc hvacant] at hfree
    exact ⟨hvacant,hfree.mp hsame.free⟩
  · rintro ⟨hvacant,hready⟩
    rw [clear_vacant hc hvacant] at hvm hleaf hfree
    exact ⟨hvm,hleaf,hfree.mpr hready⟩

theorem Machine.back_done (hp : p.base%pageSize = 0) (h : m.back p = (true,m')) :
    m'.vm = m.vm ∧ ∀ q, q%pageSize = 0 → m'.leaf q =
      if p.eager = true ∧ m.leaf q = none ∧ p.base ≤ q ∧ q < p.stop then some ⟨p.writable,p.nx,zeroPage⟩
      else m.leaf q := by
  by_cases heager : p.eager = true
  · rw [back_eager heager] at h
    obtain ⟨hvm,hleaf,-⟩ := mapLoop_done h hp
    refine ⟨hvm,fun q hq => ?_⟩
    rw [hleaf q hq]
    exact if_congr (by simp [heager,MmapPlan.stop]) rfl rfl
  · rw [Machine.back,if_neg heager,Prod.mk.injEq] at h
    obtain ⟨-,rfl⟩ := h
    exact ⟨rfl,fun q hq => by rw [if_neg fun hcond => heager hcond.1]⟩

theorem Machine.copied (f : FileNode) (hp : p.base%pageSize = 0) (m : Machine) :
    (((m.record p).copyFile f p.off p.base p.pages 0).1 = false ↔ f.Breaks p.off p.pages) ∧
      ((m.record p).copyFile f p.off p.base p.pages 0).2.vm = (m.record p).vm ∧
      ((m.record p).copyFile f p.off p.base p.pages 0).2.free = m.free ∧
      ∀ q, q%pageSize = 0 → ((m.record p).copyFile f p.off p.base p.pages 0).2.leaf q =
        (Mm.copyFile f p.off p.base p.pages 0 m.leaf).2 q := by
  have hrecord : ∀ q, q%pageSize = 0 → (m.record p).leaf q = m.leaf q := fun _ _ => rfl
  obtain ⟨hok,hrest⟩ := copyFile_refines f p.off hp p.pages 0 hrecord
  rw [hok,copyFile_breaks]
  exact ⟨Iff.rfl,hrest⟩

theorem Machine.gaps_cleared (hp : p.base%pageSize = 0) (hfixed : p.fixed = true) :
    (m.clear p).gaps p.base p.pages = p.pages := by
  rw [Machine.gaps]
  refine Eq.trans (countP_eq_length.mpr fun i hi => ?_) length_range
  rw [leaf_clear_in hp hfixed (mem_range.mp hi)]
  rfl

theorem Machine.clear_free_resident (hp : p.base%pageSize = 0) (hfixed : p.fixed = true)
    (h : ∀ i, i < p.pages → (m.leaf (p.base+i*pageSize)).isSome = true) :
    (m.clear p).free = m.free+p.pages := by
  rw [clear_free m hfixed,unwind_free (rangePages_aligned hp) p.rangePages_nodup,p.rangePages_length]
  intro q hq
  obtain ⟨i,hi,rfl⟩ := mem_rangePages.mp hq
  exact h i hi

theorem Machine.clear_tables_resident
    (h : ∀ i, i < p.pages → (m.leaf (p.base+i*pageSize)).isSome = true) (i : Nat)
    (hi : i < p.pages) : (m.clear p).tablesMissing (p.base+i*pageSize) = 0 := by
  obtain ⟨leaf,hleaf⟩ := Option.isSome_iff_exists.mp (h i hi)
  rw [clear_tables,tablesMissing_of_leaf hleaf]

theorem MmapPlan.newLeaf_eager {f : FileNode} (heager : p.eager = true)
    (h : ∀ i, i < p.pages → m.leaf (p.base+i*pageSize) = p.newLeaf f i) (i : Nat)
    (hi : i < p.pages) : (m.leaf (p.base+i*pageSize)).isSome = true := by
  rw [h i hi,MmapPlan.newLeaf,if_pos heager]
  rfl

section Unread

variable {f : FileNode} (hc : p.Checked) (hback : (m.clear p).back p = (true,m'))
include hc hback

theorem Machine.unread_leaf (hfixed : p.fixed = true) {q : Nat} (hq : q%pageSize = 0) :
    (∀ i, i < p.pages → q = p.base+i*pageSize →
      ((m'.record p).copyFile f p.off p.base p.pages 0).2.leaf q = p.newLeaf f i) ∧ (q ∉ p.rangePages →
      ((m'.record p).copyFile f p.off p.base p.pages 0).2.leaf q = m.leaf q) := by
  obtain ⟨-,hleaf⟩ := back_done hc.aligned hback
  obtain ⟨-,-,-,hcopy⟩ := Machine.copied f hc.aligned m'
  rw [hcopy q hq]
  constructor
  · rintro i hi rfl
    rw [copyFile_page hi,hleaf _ hq,leaf_clear_in hc.aligned hfixed hi]
    have hin : p.base ≤ p.base+i*pageSize ∧ p.base+i*pageSize < p.stop := by
      simp only [MmapPlan.stop,pageSize]
      omega
    simp only [hin,and_true,MmapPlan.newLeaf]
    split <;> rfl
  · intro hout
    have hkeep : (m.clear p).leaf q = m.leaf q := by
      rw [leaf_clear hc.aligned hfixed hq,if_neg hout]
    rw [mem_rangePages] at hout
    rw [copyFile_keeps fun k _ hk _ heq => hout ⟨k,by omega,heq⟩,hleaf q hq,hkeep,if_neg]
    exact fun hcond => hout ((inPages_iff hc.aligned).mpr ⟨hq,hcond.2.2⟩)

theorem Machine.unread_vm : ((m'.record p).copyFile f p.off p.base p.pages 0).2.vm =
    Space.record (m.clear p).vm p := by
  obtain ⟨hvm,-⟩ := back_done hc.aligned hback
  obtain ⟨-,hvm',-⟩ := Machine.copied f hc.aligned m'
  rw [hvm',Machine.record,hvm,Space.record]

theorem Machine.unread_free (hfixed : p.fixed = true)
    (hpages : ∀ i, i < p.pages → m.leaf (p.base+i*pageSize) = p.newLeaf f i) :
    ((m'.record p).copyFile f p.off p.base p.pages 0).2.free = m.free := by
  obtain ⟨-,-,hfree,-⟩ := Machine.copied f hc.aligned m'
  rw [hfree]
  by_cases heager : p.eager = true
  · have hres := newLeaf_eager heager hpages
    rw [back_eager heager] at hback
    obtain ⟨-,-,-,-,hcount⟩ := mapLoop_done hback hc.aligned
    have := hcount (clear_tables_resident hres)
    rw [gaps_cleared hc.aligned hfixed,clear_free_resident hc.aligned hfixed hres] at this
    omega
  · rw [Machine.back,if_neg heager,Prod.mk.injEq] at hback
    obtain ⟨-,rfl⟩ := hback
    have habsent : ∀ q ∈ p.rangePages, m.leaf q = none := by
      intro q hq
      obtain ⟨i,hi,rfl⟩ := mem_rangePages.mp hq
      rw [hpages i hi,MmapPlan.newLeaf,if_neg heager]
    rw [clear_free m hfixed,unwind_absent habsent]

theorem Machine.unchanged_of_unread (hfile : p.file = some f) :
    m.Unchanged ((m'.record p).copyFile f p.off p.base p.pages 0).2 ↔ p.Refills m := by
  have hvm := unread_vm (f := f) hc hback
  constructor
  · intro hsame
    have hregions := congrArg VmRegionSet.mmaps (hvm.symm.trans hsame.vm)
    simp only [Space.record] at hregions
    by_cases hfixed : p.fixed = true
    · rw [clear_vm m hfixed] at hregions
      refine ⟨hfixed,hregions,f,hfile,fun i hi => ?_⟩
      have hal := page_aligned hc.aligned i
      rw [← hsame.leaf _ hal]
      exact (unread_leaf hc hback hfixed hal).1 i hi rfl
    · rw [Machine.clear,if_neg hfixed] at hregions
      simp at hregions
  · rintro ⟨hfixed,hregions,f',hfile',hpages⟩
    obtain rfl : f = f' := by simpa [hfile] using hfile'
    refine ⟨?_,fun q hq => ?_,unread_free hc hback hfixed hpages⟩
    · rw [hvm,clear_vm m hfixed]
      simp only [Space.record,hregions,hfixed]
      rfl
    obtain ⟨hin,hout⟩ := unread_leaf (f := f) hc hback hfixed hq
    by_cases hmem : q ∈ p.rangePages
    · obtain ⟨i,hi,rfl⟩ := mem_rangePages.mp hmem
      rw [hin i hi rfl,hpages i hi]
    · exact hout hmem

end Unread

theorem MmapPlan.Refills.backs (h : p.Refills m) (hc : p.Checked) : ((m.clear p).back p).1 = true := by
  obtain ⟨hfixed,-,f,-,hpages⟩ := h
  by_cases heager : p.eager = true
  · have hres := newLeaf_eager heager hpages
    rw [back_eager heager]
    refine mapLoop_suffices hc.aligned ?_
      (fun i hi _ => clear_tables_resident hres i hi)
    rw [gaps_cleared hc.aligned hfixed,clear_free_resident hc.aligned hfixed hres]
    omega
  · rw [Machine.back,if_neg heager]

theorem MmapPlan.not_scarce_of_back (hc : p.Checked) (h : m.back p = (true,m'))
    (hready : m.TablesReady p.base p.pages) : ¬ p.Scarce m := by
  rintro ⟨heager,hscarce⟩
  rw [back_eager heager] at h
  obtain ⟨-,-,hgaps,hmissing,-⟩ := mapLoop_done h hc.aligned
  rcases hscarce with hfew | ⟨i,hi,hnone,hlack⟩
  · omega
  have hlt := hmissing i hi hnone hlack
  have hle := hready i hi hnone hlack
  have hmono : m.gaps p.base (i+1) ≤ m.gaps p.base p.pages := m.gaps_mono p.base hi
  omega

theorem Machine.commit_failure_iff (hc : p.Checked) {e : Errno}
    (h : (m.commit p).1 = .error e) : m.Unchanged (m.commit p).2 ↔ p.Harmless m := by
  cases hback : (m.clear p).back p with
  | mk ok m' =>
    simp only [Machine.commit,hback] at h ⊢
    cases ok with
    | false =>
      simp only
      rw [unchanged_of_exhausted hc hback]
      constructor
      · rintro ⟨hvacant,hready⟩
        rw [clear_vacant hc hvacant] at hback
        exact .inl ⟨hvacant,hready,fun _ => scarce_of_back hc hback⟩
      rintro (⟨hvacant,hready,-⟩ | hrefills)
      · exact ⟨hvacant,hready⟩
      · have hok := hrefills.backs hc
        simp [hback] at hok
    | true =>
      cases hfile : p.file with
      | none => simp [hfile] at h
      | some f =>
        simp only [hfile] at h ⊢
        rw [unchanged_of_unread hc hback hfile]
        have hread : p.ReadFails := by
          refine ⟨f,hfile,(Machine.copied f hc.aligned m').1.mp ?_⟩
          by_contra hdone
          rw [Bool.not_eq_false] at hdone
          simp [hdone] at h
        refine ⟨.inr,?_⟩
        rintro (⟨hvacant,hready,hscarce⟩ | hrefills)
        · rw [clear_vacant hc hvacant] at hback
          exact absurd (hscarce hread) (not_scarce_of_back hc hback hready)
        · exact hrefills

/-- When a failed call has changed nothing. -/
theorem mmap_failure_iff (m : Machine) (addr len prot flags fd off : UInt64)
    (node : Option FileNode) (e : Errno) (h : (m.sysMmap addr len prot flags fd off node).1 = .error e) :
    m.Unchanged (m.sysMmap addr len prot flags fd off node).2 ↔
      ∀ p, planMmap m.vm addr len prot flags fd off node = .ok p → p.Harmless m := by
  unfold Machine.sysMmap at h ⊢
  cases hplan : planMmap m.vm addr len prot flags fd off node with
  | error e => exact iff_of_true ⟨rfl,fun _ _ => rfl,rfl⟩ (by simp)
  | ok p =>
    simp only [hplan] at h
    rw [commit_failure_iff (planMmap_checked hplan) h]
    exact ⟨fun hharm p' heq => Except.ok.inj heq ▸ hharm,fun hall => hall p rfl⟩

end Failure

def bare (free : Nat) : Machine :=
  ⟨VmRegionSet.new 0x600000 userMmapBase,fun _ => Radix.Entry.empty 3,free⟩

def twoPageFile : FileNode := ⟨8192,fun _ _ => some [0x7f]⟩

def badFile : FileNode := ⟨8192,fun _ _ => none⟩

def onePage : Machine := ((bare 4).sysMmap 0 4096 1 2 3 0 (some twoPageFile)).2

theorem mmap_failure_iff_outOfTables :
    ((bare 3).sysMmap 0 8192 1 2 3 0 (some twoPageFile)).1 = .error .enomem ∧
      ((bare 3).Unchanged ((bare 3).sysMmap 0 8192 1 2 3 0 (some twoPageFile)).2 ↔
        ∀ p, planMmap (bare 3).vm 0 8192 1 2 3 0 (some twoPageFile) = .ok p → p.Harmless (bare 3)) :=
  ⟨by decide +kernel,mmap_failure_iff (bare 3) 0 8192 1 2 3 0 (some twoPageFile) .enomem
    (by decide +kernel)⟩

/-- Two pages need five frames with their tables: with four, three are lost. A fixed
mapping of two pages over one fails after the one is gone. An unreadable file stays
mapped. -/
theorem failed_mmap_leaves_traces : ((bare 4).sysMmap 0 8192 1 2 3 0 (some twoPageFile)).1 = .error .enomem ∧
      ((bare 4).sysMmap 0 8192 1 2 3 0 (some twoPageFile)).2.free = 1 ∧
      ¬ (bare 4).Unchanged ((bare 4).sysMmap 0 8192 1 2 3 0 (some twoPageFile)).2 ∧
    (onePage.sysMmap 0x200000000000 8192 1 0x12 3 0 (some twoPageFile)).1 = .error .enomem ∧
      onePage.vm.mmaps.length = 1 ∧
      (onePage.sysMmap 0x200000000000 8192 1 0x12 3 0 (some twoPageFile)).2.vm.mmaps = [] ∧
      (onePage.leaf 0x200000000000).isSome = true ∧
      (onePage.sysMmap 0x200000000000 8192 1 0x12 3 0 (some twoPageFile)).2.leaf 0x200000000000 = none ∧
    ((bare 9).sysMmap 0 8192 1 2 3 0 (some badFile)).1 = .error .einval ∧
      ((bare 9).sysMmap 0 8192 1 2 3 0 (some badFile)).2.vm.mmaps.length = 1 ∧
      ((bare 9).sysMmap 0 8192 1 2 3 0 (some badFile)).2.free = 4 := by
  refine ⟨?_,?_,fun hsame => absurd hsame.free ?_,?_,?_,?_,?_,?_,?_,?_,?_⟩ <;> decide +kernel

end PaghOS.Mm
