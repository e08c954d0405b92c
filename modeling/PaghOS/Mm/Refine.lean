import PaghOS.Mm.Machine

/-!
The machine with counted frames does what the address space without them does: its
`sys_mmap` is one that runs out of memory at some point, or does not.
-/

namespace PaghOS.Mm
open Option Machine
open Elf (userAddrMax checkedAdd)
open Spans (firstFit_mem)

namespace Space

def clear (s : Space) (p : MmapPlan) : Space :=
  if p.fixed then
    { vm := { s.vm with mmaps := cutRegions s.vm.mmaps p.base p.pages }
      pt := unmapPages s.pt p.base p.pages }
  else s

def back (s : Space) (p : MmapPlan) (grants : Nat) : Bool × PageTable :=
  if p.eager then mapZeroedRange s.pt p.base p.stop p.writable p.nx grants else (true,s.pt)

def record (vm : VmRegionSet) (p : MmapPlan) : VmRegionSet :=
  { vm with
    mmaps := vm.mmaps ++ [p.region]
    mmapNextHint := if !p.fixed && p.stop > vm.mmapNextHint then p.stop else vm.mmapNextHint }

def commit (s : Space) (p : MmapPlan) (grants : Nat) : Except Errno Nat × Space :=
  match (s.clear p).back p grants with
  | (false,pt) => (.error .enomem,⟨(s.clear p).vm,pt⟩)
  | (true,pt) =>
    match p.file with
    | none => (.ok p.base,⟨record (s.clear p).vm p,pt⟩)
    | some f =>
      let (ok,pt) := copyFile f p.off p.base p.pages 0 pt
      (if ok then .ok p.base else .error .einval,⟨record (s.clear p).vm p,pt⟩)

def checkedMmap (s : Space) (addr len prot flags fd off : UInt64) (node : Option FileNode)
    (grants : Nat) : Except Errno Nat × Space :=
  match planMmap s.vm addr len prot flags fd off node with
  | .error e => (.error e,s)
  | .ok p => s.commit p grants

end Space

/-- What the checks have established. -/
structure MmapPlan.Checked (p : MmapPlan) : Prop where
  aligned : p.base%pageSize = 0
  pages : 0 < p.pages
  file : p.anon = p.file.isNone

section Plan

variable {vm : VmRegionSet} {addr len prot flags fd off : UInt64} {node : Option FileNode}
  {p : MmapPlan} {e : Errno}

theorem chooseBase_aligned {addr pages base : Nat} {fixed : Bool}
    (h : chooseBase vm addr pages fixed = .ok base) : base%pageSize = 0 := by
  unfold chooseBase at h
  split at h
  · split at h
    · cases h
    · rename_i hnot
      cases h
      omega
  split at h
  · rename_i b hb
    cases h
    unfold planMmapBase at hb
    rw [bind_eq_bind,bind_eq_some_iff] at hb
    obtain ⟨span,-,hb⟩ := hb
    rcases firstFit_mem _ _ _ hb with rfl | ⟨r,-,rfl⟩
    · exact pageUp_aligned _
    · exact pageUp_aligned _
  · cases h

theorem backing_file {anon : Bool} {file : Option FileNode} (h : backing anon fd off node = .ok file) :
    anon = file.isNone := by
  unfold backing at h
  cases anon with
  | true =>
    simp only [if_true,Except.ok.injEq] at h
    subst h
    rfl
  | false =>
    simp only [Bool.false_eq_true,if_false] at h
    split at h
    · cases h
    split at h
    · cases h
    cases node with
    | none => cases h
    | some f =>
      simp only [Except.ok.injEq] at h
      subst h
      rfl

theorem planMmap_checked (h : planMmap vm addr len prot flags fd off node = .ok p) : p.Checked := by
  unfold planMmap at h
  extract_lets flags' anon fixed at h
  split at h
  · cases h
  rename_i hargs
  split at h
  · cases h
  cases hfile : backing anon fd off node with
  | error e => simp [hfile] at h
  | ok file =>
    cases hpages : pagesForLen len.toNat with
    | none => simp [hfile,hpages] at h
    | some pages =>
      cases hspan : checkedMul pages pageSize with
      | none => simp [hfile,hpages,hspan] at h
      | some span =>
        cases hbase : chooseBase vm addr.toNat pages fixed with
        | error e => simp [hfile,hpages,hspan,hbase] at h
        | ok base =>
          cases hstop : checkedAdd base span with
          | none => simp [hfile,hpages,hspan,hbase,hstop] at h
          | some stop =>
            simp only [hfile,hpages,hspan,hbase,hstop] at h
            split at h
            · cases h
            cases h
            have hlen : len.toNat ≠ 0 := fun hz => hargs (.inl (UInt64.toNat_inj.mp hz))
            refine ⟨chooseBase_aligned hbase,?_,backing_file hfile⟩
            have := pagesForLen_some hpages
            simp only [pageSize] at *
            omega

theorem sysMmap_eq_checked (s : Space) (addr len prot flags fd off : UInt64)
    (node : Option FileNode) (grants : Nat) : sysMmap s addr len prot flags fd off node grants =
      s.checkedMmap addr len prot flags fd off node grants := by
  unfold sysMmap Space.checkedMmap planMmap
  extract_lets flags' anon fixed
  by_cases hargs : len = 0 ∨ flags' &&& mapShared ≠ 0 ∨ flags' &&& mapPrivate = 0
  · simp [if_pos hargs]
  by_cases hflags :
      flags' &&& ~~~(mapPrivate ||| mapAnonymous ||| mapFixed ||| mapIgnored) ≠ 0
  · simp [if_pos hflags]
  simp only [if_neg hargs,if_neg hflags]
  cases hfile : backing anon fd off node with
  | error e => rfl
  | ok file =>
    cases hpages : pagesForLen len.toNat with
    | none => rfl
    | some pages =>
      cases hspan : checkedMul pages pageSize with
      | none => simp only [hspan]
      | some span =>
        simp only [hspan,placeRegion]
        obtain rfl := checkedMul_some hspan
        cases hbase : chooseBase s.vm addr.toNat pages fixed with
        | error e => rfl
        | ok base =>
          cases hstop : checkedAdd base (pages*pageSize) with
          | none => simp only [hstop]
          | some stop =>
            simp only [hstop]
            obtain rfl := checkedAdd_some hstop
            by_cases hmax : base+pages*pageSize > userAddrMax
            · simp [if_pos hmax]
            simp only [if_neg hmax,Space.commit,Space.clear,Space.back,MmapPlan.eager,
              MmapPlan.stop,MmapPlan.writable,MmapPlan.nx,decide_eq_true_eq]
            generalize (if fixed then _ else s : Space) = cleared
            generalize (if (!decide anon && decide (prot ≠ 0)) = true then
              mapZeroedRange cleared.pt _ _ _ _ _ else _) = backed
            obtain ⟨ok,pt⟩ := backed
            cases ok with
            | false => rfl
            | true => cases file <;> rfl

end Plan

/-- The same regions and, page by page, the same leaves. -/
structure Machine.Refines (m : Machine) (s : Space) : Prop where
  vm : m.vm = s.vm
  leaf : ∀ q, q%pageSize = 0 → m.leaf q = s.pt q

section Refinement

variable {m : Machine} {s : Space} {p : MmapPlan}

theorem MmapPlan.mem_rangePages {q : Nat} : q ∈ p.rangePages ↔ InPages p.base p.pages q := by
  simp [MmapPlan.rangePages,InPages,eq_comm]

theorem MmapPlan.rangePages_aligned (hp : p.base%pageSize = 0) : ∀ q ∈ p.rangePages, q%pageSize = 0 := by
  intro q hq
  rw [MmapPlan.mem_rangePages,inPages_iff hp] at hq
  exact hq.1

theorem Machine.mapZeroedRange_eq (m : Machine) (start n : Nat) (writable nx : Bool) :
    m.mapZeroedRange start (start+n*pageSize) writable nx = m.mapLoop writable nx n start [] := by
  have hn : (start+n*pageSize-start+(pageSize-1))/pageSize = n := by
    simp only [pageSize]
    omega
  rw [Machine.mapZeroedRange,hn]

theorem mapLoop_starved {pt : PageTable} {writable nx : Bool} {n page : Nat} {mapped : List Nat}
    (h : ∃ i, i < n ∧ pt (page+i*pageSize) = none) :
    mapLoop writable nx n page mapped pt 0 = (false,Mm.unwind pt mapped) := by
  induction n generalizing page with
  | zero =>
    obtain ⟨i,hi,-⟩ := h
    omega
  | succ n ih =>
    unfold mapLoop
    split
    · rename_i hres
      obtain ⟨i,hi,hnone⟩ := h
      cases i with
      | zero => simp_all
      | succ i =>
        rw [page_succ] at hnone
        exact ih ⟨i,by omega,hnone⟩
    · rfl

theorem Machine.mapLoop_failed_absent {writable nx : Bool} {n page : Nat} {mapped : List Nat}
    (hp : page%pageSize = 0) (h : (m.mapLoop writable nx n page mapped).1 = false) :
    ∃ i, i < n ∧ m.leaf (page+i*pageSize) = none := by
  by_contra hnot
  have hres : ∀ i, i < n → m.leaf (page+i*pageSize) ≠ none := fun i hi hnone => hnot ⟨i,hi,hnone⟩
  have hgaps : m.gaps page n = 0 := by
    rw [Machine.gaps,List.countP_eq_zero]
    intro i hi
    simpa using hres i (List.mem_range.mp hi)
  have hok : (m.mapLoop writable nx n page mapped).1 = true :=
    mapLoop_suffices hp (by omega) fun i hi hnone => absurd hnone (hres i hi)
  simp [hok] at h

theorem Machine.clear_refines (h : m.Refines s) (hp : p.base%pageSize = 0) :
    (m.clear p).Refines (s.clear p) := by
  unfold Machine.clear Space.clear
  split
  · refine ⟨by simp [h.vm],fun q hq => ?_⟩
    have hleaf : (m.unwind p.rangePages).leaf q =
        if q ∈ p.rangePages then none else m.leaf q :=
      leaf_unwind (MmapPlan.rangePages_aligned hp) hq
    refine Eq.trans hleaf ?_
    simp [unmapPages_apply _ hp,MmapPlan.mem_rangePages,inPages_iff hp,h.leaf q hq]
  · exact h

theorem Machine.back_refines (h : m.Refines s) (hp : p.base%pageSize = 0) :
    ∃ grants, (m.back p).1 = (s.back p grants).1 ∧ (m.back p).2.vm = m.vm ∧
      ∀ q, q%pageSize = 0 → (m.back p).2.leaf q = (s.back p grants).2 q := by
  unfold Machine.back Space.back
  split
  · simp only [MmapPlan.stop,mapZeroedRange_eq,Mm.mapZeroedRange_eq]
    cases hloop : m.mapLoop p.writable p.nx p.pages p.base [] with
    | mk ok m' =>
      cases ok with
      | false =>
        obtain ⟨i,hi,hnone⟩ := mapLoop_failed_absent hp (by rw [hloop])
        have hal : (p.base+i*pageSize)%pageSize = 0 := by simp only [pageSize] at *; omega
        rw [h.leaf _ hal] at hnone
        obtain ⟨hvm,hleaf,-,-⟩ := mapLoop_failed hloop hp (.nil m p.base)
        refine ⟨0,?_⟩
        rw [mapLoop_starved ⟨i,hi,hnone⟩]
        exact ⟨rfl,hvm,fun q hq => by simp [hleaf q hq,h.leaf q hq]⟩
      | true =>
        obtain ⟨hvm,hleaf,-,-,-⟩ := mapLoop_done hloop hp
        have hok : (Mm.mapLoop p.writable p.nx p.pages p.base [] s.pt p.pages).1 = true :=
          mapLoop_enough (Nat.le_refl p.pages)
        refine ⟨p.pages,hok.symm,hvm,fun q hq => ?_⟩
        obtain ⟨-,hkept,hout,hin⟩ := mapLoop_true (Prod.ext hok rfl) q
        rw [hleaf q hq,h.leaf q hq]
        split
        · rename_i hcond
          exact (hin ((inPages_iff hp).mpr ⟨hq,hcond.2⟩) hcond.1).symm
        rename_i hcond
        by_cases hnone : s.pt q = none
        · refine (hout fun hmem => hcond ⟨hnone,?_⟩).symm
          exact ((inPages_iff hp).mp hmem).2
        · exact (hkept (isSome_iff_ne_none.mpr hnone)).symm
  · exact ⟨0,rfl,rfl,h.leaf⟩

theorem Machine.copyFile_refines (f : FileNode) (off : Nat) {base : Nat} (hp : base%pageSize = 0)
    (n i : Nat) {m : Machine} {pt : PageTable} (h : ∀ q, q%pageSize = 0 → m.leaf q = pt q) :
    (m.copyFile f off base n i).1 = (Mm.copyFile f off base n i pt).1 ∧
      (m.copyFile f off base n i).2.vm = m.vm ∧ (m.copyFile f off base n i).2.free = m.free ∧
      ∀ q, q%pageSize = 0 → (m.copyFile f off base n i).2.leaf q = (Mm.copyFile f off base n i pt).2 q := by
  induction n generalizing i m pt with
  | zero => exact ⟨rfl,rfl,rfl,h⟩
  | succ n ih =>
    unfold Machine.copyFile Mm.copyFile
    cases checkedAdd off (i*pageSize) with
    | none => exact ⟨rfl,rfl,rfl,h⟩
    | some fileOff =>
      simp only
      split
      · exact ⟨rfl,rfl,rfl,h⟩
      cases f.read fileOff (min pageSize (f.size-fileOff)) with
      | none => exact ⟨rfl,rfl,rfl,h⟩
      | some buf =>
        simp only
        split
        · exact ⟨rfl,rfl,rfl,h⟩
        have hal : (base+i*pageSize)%pageSize = 0 := by simp only [pageSize] at *; omega
        refine ih (i+1) fun q hq => ?_
        rw [leaf_update rfl hal hq,h _ hal,h q hq]
        cases hleaf : pt (base+i*pageSize) with
        | none =>
          simp only [map_none]
          split
          · rename_i heq
            rw [heq,hleaf]
          · rfl
        | some leaf => simp only [map_some,set_apply]

theorem Machine.commit_refines (h : m.Refines s) (hp : p.base%pageSize = 0) :
    ∃ grants, (m.commit p).1 = (s.commit p grants).1 ∧ (m.commit p).2.Refines (s.commit p grants).2 := by
  have hclear := clear_refines h hp
  obtain ⟨grants,hok,hvm,hleaf⟩ := back_refines hclear hp
  refine ⟨grants,?_⟩
  unfold Machine.commit Space.commit
  revert hok hvm hleaf
  generalize (m.clear p).back p = backed
  generalize (s.clear p).back p grants = backed'
  obtain ⟨ok,m'⟩ := backed
  obtain ⟨ok',pt'⟩ := backed'
  rintro rfl hvm hleaf
  simp only at hvm hleaf
  rw [hclear.vm] at hvm
  cases ok with
  | false => exact ⟨rfl,hvm,hleaf⟩
  | true =>
    have hrecord : (m'.record p).vm = Space.record (s.clear p).vm p := by
      simp [Machine.record,Space.record,hvm]
    cases p.file with
    | none => exact ⟨rfl,hrecord,hleaf⟩
    | some f =>
      have hrecorded : ∀ q, q%pageSize = 0 → (m'.record p).leaf q = pt' q := hleaf
      obtain ⟨hdone,hvm',-,hleaf'⟩ := copyFile_refines f p.off hp p.pages 0 hrecorded
      exact ⟨by simp [hdone],hvm'.trans hrecord,hleaf'⟩

theorem Machine.sysMmap_refines (h : m.Refines s) (addr len prot flags fd off : UInt64)
    (node : Option FileNode) : ∃ grants, (m.sysMmap addr len prot flags fd off node).1 =
        (Mm.sysMmap s addr len prot flags fd off node grants).1 ∧
      (m.sysMmap addr len prot flags fd off node).2.Refines
        (Mm.sysMmap s addr len prot flags fd off node grants).2 := by
  simp only [sysMmap_eq_checked,Machine.sysMmap,Space.checkedMmap,h.vm]
  cases hplan : planMmap s.vm addr len prot flags fd off node with
  | error e => exact ⟨0,rfl,h⟩
  | ok p => exact commit_refines h (planMmap_checked hplan).aligned

end Refinement

section Runs

structure MmapCall where
  (addr len prot flags fd off : UInt64)
  node : Option FileNode

/-- Call by call, with some number of frames granted to each, the space gives the answers of the
machine and shows its pages. -/
def Simulated (m : Machine) (s : Space) : List MmapCall → Prop
  | [] => m.Refines s
  | c :: cs =>
    m.Refines s ∧ ∃ grants,
      let r := m.sysMmap c.addr c.len c.prot c.flags c.fd c.off c.node
      let r' := Mm.sysMmap s c.addr c.len c.prot c.flags c.fd c.off c.node grants
      r.1 = r'.1 ∧ Simulated r.2 r'.2 cs

theorem Machine.Refines.simulated {m : Machine} {s : Space} (h : m.Refines s) (calls : List MmapCall) :
    Simulated m s calls := by
  induction calls generalizing m s with
  | nil => exact h
  | cons c cs ih =>
    obtain ⟨grants,hr,hnext⟩ := sysMmap_refines h c.addr c.len c.prot c.flags c.fd c.off c.node
    exact ⟨h,grants,hr,ih hnext⟩

theorem mmapCalls_simulated (m : Machine) (calls : List MmapCall) : Simulated m ⟨m.vm,m.leaf⟩ calls :=
  Refines.simulated ⟨rfl,fun _ _ => rfl⟩ calls

end Runs

end PaghOS.Mm
