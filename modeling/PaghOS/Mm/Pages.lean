import PaghOS.Mm.Layout

/-!
What the loops over the page table do, page by page, and what a resize comes
down to.
-/

namespace PaghOS.Mm
open Elf (checkedAdd)

variable {pt : PageTable} {writable nx : Bool}
variable {i j : Nat} {pt' : PageTable}

@[simp] theorem set_apply (pt : PageTable) (page p : Nat) (leaf : Option Leaf) :
    pt.set page leaf p = if p = page then leaf else pt p := rfl

@[simp] theorem unwind_apply (pt : PageTable) (pages : List Nat) (p : Nat) :
    unwind pt pages p = if p ∈ pages then none else pt p := by
  induction pages generalizing pt with
  | nil => simp [unwind]
  | cons page pages ih =>
    have hstep : unwind pt (page :: pages) = unwind (pt.set page none) pages := rfl
    rw [hstep,ih]
    by_cases hmem : p ∈ pages <;> by_cases heq : p = page <;> simp [hmem,heq]

/-- `p` is one of the `n` pages from `start` on. -/
def InPages (start n p : Nat) : Prop := ∃ i, i < n ∧ p = start+i*pageSize

variable {start p : Nat}

theorem inPages_zero : ¬ InPages start 0 p := by
  rintro ⟨i,hi,-⟩
  omega

variable {n : Nat}

theorem inPages_succ : InPages start (n+1) p ↔ p = start ∨ InPages (start+pageSize) n p := by
  constructor
  · rintro ⟨i,hi,rfl⟩
    cases i with
    | zero => simp
    | succ i => exact .inr ⟨i,by omega,by simp only [Nat.succ_mul]; omega⟩
  · rintro (rfl | ⟨i,hi,rfl⟩)
    · exact ⟨0,by omega,by simp⟩
    · exact ⟨i+1,by omega,by simp only [Nat.succ_mul]; omega⟩

theorem inPages_iff (hstart : start%pageSize = 0) :
    InPages start n p ↔ p%pageSize = 0 ∧ start ≤ p ∧ p < start+n*pageSize := by
  constructor
  · rintro ⟨i,hi,rfl⟩
    simp only [pageSize] at *
    omega
  · rintro ⟨hp,hlo,hhi⟩
    refine ⟨(p-start)/pageSize,?_,?_⟩ <;> simp only [pageSize] at * <;> omega

theorem unmapPages_apply (pt : PageTable) {base : Nat} (hbase : base%pageSize = 0) (pages p : Nat) :
    unmapPages pt base pages p =
      if p%pageSize = 0 ∧ base ≤ p ∧ p < base+pages*pageSize then none else pt p := by
  have hmem : p ∈ (List.range pages).map (fun i => base+i*pageSize) ↔ InPages base pages p := by
    simp [InPages,eq_comm]
  simp [unmapPages,unwind_apply,hmem,inPages_iff hbase]

variable {page grants : Nat} {mapped : List Nat}

theorem mapLoop_false
    (h : mapLoop writable nx n page mapped pt grants = (false,pt')) : pt' = unwind pt mapped := by
  induction n generalizing page mapped pt grants with
  | zero => simp [mapLoop] at h
  | succ n ih =>
    unfold mapLoop at h
    split at h
    · exact ih h
    rename_i habsent
    cases grants with
    | zero =>
      simp only [Prod.mk.injEq,true_and] at h
      exact h.symm
    | succ grants =>
      rw [ih h]
      funext p
      have hp : pt page = none := by simpa using habsent
      by_cases hmem : p ∈ mapped <;> by_cases heq : p = page <;> simp [hmem,heq,hp]

theorem mapLoop_true (h : mapLoop writable nx n page mapped pt grants = (true,pt')) (p : Nat) :
    (InPages page n p → (pt' p).isSome = true) ∧ ((pt p).isSome = true → pt' p = pt p) ∧
      (¬ InPages page n p → pt' p = pt p) ∧
      (InPages page n p → pt p = none → pt' p = some ⟨writable,nx,zeroPage⟩) := by
  induction n generalizing page mapped pt grants with
  | zero =>
    simp only [mapLoop,Prod.mk.injEq,true_and] at h
    subst h
    simp [inPages_zero]
  | succ n ih =>
    unfold mapLoop at h
    simp only [inPages_succ,not_or]
    split at h
    · rename_i hsome
      obtain ⟨h₁,h₂,h₃,h₄⟩ := ih h
      refine ⟨?_,h₂,fun hp => h₃ hp.2,?_⟩
      · rintro (rfl | hp)
        · rw [h₂ hsome]
          exact hsome
        · exact h₁ hp
      · rintro (rfl | hp) hnone
        · simp [hnone] at hsome
        · exact h₄ hp hnone
    rename_i habsent
    cases grants with
    | zero => simp at h
    | succ grants =>
      obtain ⟨h₁,h₂,h₃,h₄⟩ := ih h
      simp only [set_apply] at h₂ h₃ h₄
      by_cases heq : p = page
      · subst heq
        have hset := h₂ (by simp)
        simp only [if_true] at hset
        refine ⟨fun _ => by rw [hset]; rfl,fun hsome => absurd hsome habsent,?_,fun _ _ => hset⟩
        exact fun hout => absurd rfl hout.1
      · simp only [heq,if_false,false_or,not_false_iff,true_and] at h₂ h₃ h₄ ⊢
        exact ⟨h₁,h₂,h₃,h₄⟩

theorem mapLoop_enough (h : n ≤ grants) : (mapLoop writable nx n page mapped pt grants).1 = true := by
  induction n generalizing page mapped pt grants with
  | zero => rfl
  | succ n ih =>
    unfold mapLoop
    split
    · exact ih (by omega)
    · cases grants with
      | zero => omega
      | succ grants => exact ih (by omega)

theorem page_inj {dst : Nat} (h : dst+i*pageSize = dst+j*pageSize) : i = j := by
  simp only [pageSize] at h
  omega

section Copy
variable {anon : Bool} {src dst m : Nat}
  (hsep : ∀ a b, a < m → b < m → src+a*pageSize ≠ dst+b*pageSize)
include hsep

theorem set_src (hi : i < m) (hj : j < m) (leaf : Option Leaf) :
    pt.set (dst+j*pageSize) leaf (src+i*pageSize) = pt (src+i*pageSize) := by
  simp [hsep i j hi hj]

/-- The pages mapped by a copy that stops at page `j`. -/
def Mapped (pt : PageTable) (src dst i j p : Nat) : Prop :=
  ∃ k, i ≤ k ∧ k < j ∧ (pt (src+k*pageSize)).isSome = true ∧ p = dst+k*pageSize

omit hsep in
theorem mapped_skip {p : Nat} (hnone : pt (src+i*pageSize) = none) :
    Mapped pt src dst (i+1) j p ↔ Mapped pt src dst i j p := by
  constructor
  · rintro ⟨k,h₁,h₂⟩
    exact ⟨k,by omega,h₂⟩
  rintro ⟨k,h₁,h₂,h₃,h₄⟩
  have hk : k ≠ i := by
    rintro rfl
    simp [hnone] at h₃
  exact ⟨k,by omega,h₂,h₃,h₄⟩

theorem mapped_take {p : Nat} (leaf : Option Leaf) (hj : j ≤ m) (hij : i < j)
    (hsome : (pt (src+i*pageSize)).isSome = true) :
    (p = dst+i*pageSize ∨ Mapped (pt.set (dst+i*pageSize) leaf) src dst (i+1) j p) ↔
      Mapped pt src dst i j p := by
  constructor
  · rintro (rfl | ⟨k,h₁,h₂,h₃,h₄⟩)
    · exact ⟨i,Nat.le_refl i,hij,hsome,rfl⟩
    · rw [set_src hsep (by omega) (by omega)] at h₃
      exact ⟨k,by omega,h₂,h₃,h₄⟩
  rintro ⟨k,h₁,h₂,h₃,h₄⟩
  by_cases hk : k = i
  · exact .inl (hk ▸ h₄)
  · refine .inr ⟨k,by omega,h₂,?_,h₄⟩
    rw [set_src hsep (by omega) (by omega)]
    exact h₃

theorem copyPages_true {n grants : Nat} {copied : List Nat} (hm : i+n ≤ m)
    (h : copyPages writable nx anon src dst n i copied pt grants = some (true,pt')) :
    (∀ j leaf, i ≤ j → j < i+n → pt (src+j*pageSize) = some leaf →
      (pt' (dst+j*pageSize)).map Leaf.data = some leaf.data) ∧
    ∀ p, ¬ Mapped pt src dst i (i+n) p → pt' p = pt p := by
  induction n generalizing i copied pt grants with
  | zero =>
    simp only [copyPages,Option.some.injEq,Prod.mk.injEq,true_and] at h
    subst h
    exact ⟨by omega,fun p _ => rfl⟩
  | succ n ih =>
    unfold copyPages at h
    rw [show i+(n+1) = i+1+n by omega]
    split at h
    · rename_i hnone
      obtain ⟨hcopy,hkeep⟩ := ih (by omega) h
      simp only [mapped_skip hnone] at hkeep
      refine ⟨fun j leaf hij hj hleaf => hcopy j leaf ?_ hj hleaf,hkeep⟩
      have hne : j ≠ i := by
        rintro rfl
        simp [hnone] at hleaf
      omega
    rename_i leaf hleaf
    obtain ⟨new,copied,grants,h,hdata⟩ : ∃ (new : Leaf) (copied : List Nat) (grants : Nat),
        copyPages writable nx anon src dst n (i+1) copied (pt.set (dst+i*pageSize) (some new)) grants =
          some (true,pt') ∧ new.data = leaf.data := by
      dsimp only at h
      split at h
      · cases grants with
        | zero => simp at h
        | succ grants => exact ⟨_,_,_,h,rfl⟩
      · split at h
        · cases h
        · exact ⟨_,_,_,h,rfl⟩
    obtain ⟨hcopy,hkeep⟩ := ih (by omega) h
    constructor
    · intro j leaf' hij hj hleaf'
      by_cases heq : j = i
      · subst heq
        have hsame := hkeep (dst+j*pageSize) (by
          rintro ⟨k,hk,-,-,heq⟩
          have := page_inj heq
          omega)
        obtain rfl : leaf = leaf' := Option.some.inj (hleaf.symm.trans hleaf')
        rw [hsame,set_apply,if_pos rfl,Option.map_some,hdata]
      · refine hcopy j leaf' (by omega) hj ?_
        rwa [set_src hsep (by omega) (by omega)]
    · intro p hp
      obtain ⟨hne,hrest⟩ := not_or.mp
        (mt (mapped_take hsep (some new) (by omega) (by omega) (by simp [hleaf])).mp hp)
      rw [hkeep p hrest,set_apply,if_neg hne]

theorem copyPages_false {n grants : Nat} {copied : List Nat} (hm : i+n ≤ m)
    (h : copyPages writable nx anon src dst n i copied pt grants = some (false,pt')) :
    ∃ j, i ≤ j ∧ j < i+n ∧ anon = true ∧ (pt (src+j*pageSize)).isSome = true ∧
      (∀ p, p ∈ copied ∨ Mapped pt src dst i j p → pt' p = none) ∧
      ∀ p, ¬ (p ∈ copied ∨ Mapped pt src dst i j p) → pt' p = pt p := by
  induction n generalizing i copied pt grants with
  | zero => simp [copyPages] at h
  | succ n ih =>
    unfold copyPages at h
    split at h
    · rename_i hnone
      obtain ⟨j,hij,hj,hanon,hsome,hp⟩ := ih (by omega) h
      simp only [mapped_skip hnone] at hp
      exact ⟨j,by omega,by omega,hanon,hsome,hp⟩
    rename_i leaf hleaf
    have hsrc : (pt (src+i*pageSize)).isSome = true := by simp [hleaf]
    dsimp only at h
    split at h
    · rename_i hanon
      cases grants with
      | zero =>
        simp only [Option.some.injEq,Prod.mk.injEq,true_and] at h
        subst h
        have hno : ∀ p, ¬ Mapped pt src dst i i p := by
          rintro p ⟨k,h₁,h₂,-⟩
          omega
        refine ⟨i,Nat.le_refl i,by omega,hanon,hsrc,?_,?_⟩ <;> simp +contextual [hno]
      | succ grants =>
        obtain ⟨j,hij,hj,-,hsome,hgone,hkept⟩ := ih (by omega) h
        rw [set_src hsep (by omega) (by omega)] at hsome
        simp only [List.mem_append,List.mem_singleton,or_assoc,
          mapped_take hsep _ (show j ≤ m by omega) (show i < j by omega) hsrc] at hgone hkept
        refine ⟨j,by omega,by omega,hanon,hsome,hgone,fun p hp => ?_⟩
        have hne : p ≠ dst+i*pageSize := by
          rintro rfl
          exact hp (.inr ⟨i,Nat.le_refl i,by omega,hsrc,rfl⟩)
        simp [hkept p hp,hne]
    · split at h
      · cases h
      · rename_i hanon _ old hold
        obtain ⟨j,-,-,htrue,-⟩ := ih (by omega) h
        exact absurd htrue hanon

variable (writable nx) in
theorem copyPages_fails {n : Nat} (copied : List Nat) (hm : i+n ≤ m) (hij : i ≤ j)
    (hj : j < i+n) (hsome : (pt (src+j*pageSize)).isSome = true) :
    ∃ grants pt', copyPages writable nx true src dst n i copied pt grants = some (false,pt') ∧
      (∀ p ∈ copied, pt' p = none) ∧ ∀ p, Mapped pt src dst i j p → pt' p = none := by
  induction n generalizing i copied pt with
  | zero => omega
  | succ n ih =>
    cases hleaf : pt (src+i*pageSize) with
    | none =>
      have hne : j ≠ i := by
        rintro rfl
        simp [hleaf] at hsome
      obtain ⟨grants,pt',hrun,hgone,hp⟩ := ih (i := i+1) copied (by omega) (by omega) (by omega) hsome
      refine ⟨grants,pt',?_,hgone,fun p hpm => hp p ((mapped_skip hleaf).mpr hpm)⟩
      unfold copyPages
      simp [hleaf,hrun]
    | some leaf =>
      have hsrc : (pt (src+i*pageSize)).isSome = true := by simp [hleaf]
      by_cases heq : j = i
      · subst heq
        refine ⟨0,unwind pt copied,?_,by simp +contextual,?_⟩
        · unfold copyPages
          simp [hleaf]
        · rintro p ⟨k,h₁,h₂,-⟩
          omega
      · have hsome' : ((pt.set (dst+i*pageSize) (some ⟨writable,nx,leaf.data⟩))
            (src+j*pageSize)).isSome = true := by
          rw [set_src hsep (by omega) (by omega)]
          exact hsome
        obtain ⟨grants,pt',hrun,hgone,hp⟩ := ih (i := i+1) (copied ++ [dst+i*pageSize]) (by omega)
          (by omega) (by omega) hsome'
        refine ⟨grants+1,pt',?_,fun p hpc => hgone p (List.mem_append_left _ hpc),fun p hpm => ?_⟩
        · unfold copyPages
          simp [hleaf,hrun]
        · rcases (mapped_take hsep _ (by omega) (by omega) hsrc).mpr hpm with rfl | hpm
          · exact hgone _ (by simp)
          · exact hp p hpm

end Copy

theorem copyPages_ends (writable nx : Bool) {anon : Bool} (src : Nat) {dst n : Nat}
    (grants : Nat) (copied : List Nat)
    (hdst : anon = false → ∀ j, i ≤ j → j < i+n → (pt (dst+j*pageSize)).isSome = true) :
    ∃ ok pt', copyPages writable nx anon src dst n i copied pt grants = some (ok,pt') ∧
      ((anon = true → n ≤ grants) → ok = true) := by
  induction n generalizing i copied pt grants with
  | zero => exact ⟨true,pt,rfl,fun _ => rfl⟩
  | succ n ih =>
    unfold copyPages
    split
    · obtain ⟨ok,pt',hrun,hok⟩ := ih (i := i+1) grants copied
        (fun h j h₁ h₂ => hdst h j (by omega) (by omega))
      exact ⟨ok,pt',hrun,fun hg => hok fun h => by have := hg h; omega⟩
    dsimp only
    split
    · rename_i hanon
      cases grants with
      | zero => exact ⟨false,_,rfl,fun hg => by have := hg hanon; omega⟩
      | succ grants =>
        obtain ⟨ok,pt',hrun,hok⟩ := ih _ _ (by simp [hanon])
        exact ⟨ok,pt',hrun,fun hg => hok fun h => by have := hg h; omega⟩
    · rename_i hanon
      have hall := hdst (by simpa using hanon)
      have hi := hall i (Nat.le_refl i) (by omega)
      split
      · rename_i hnone
        simp [hnone] at hi
      have hnext : ∀ new, anon = false → ∀ j, i+1 ≤ j → j < i+1+n →
          ((pt.set (dst+i*pageSize) (some new)) (dst+j*pageSize)).isSome = true := by
        intro new _ j h₁ h₂
        simp only [set_apply]
        split
        · rfl
        · exact hall j (by omega) (by omega)
      obtain ⟨ok,pt',hrun,hok⟩ := ih _ _ (hnext _)
      exact ⟨ok,pt',hrun,fun _ => hok (by simp [hanon])⟩

theorem mapZeroedRange_eq (pt : PageTable) (start n : Nat) (writable nx : Bool) (grants : Nat) :
    mapZeroedRange pt start (start+n*pageSize) writable nx grants =
      mapLoop writable nx n start [] pt grants := by
  have hn : (start+n*pageSize-start+(pageSize-1))/pageSize = n := by
    simp only [pageSize]
    omega
  rw [mapZeroedRange,hn]

def pagesOf (len : UInt64) : Nat := (len.toNat+(pageSize-1))/pageSize

theorem pagesForLen_some {len pages : Nat} (h : pagesForLen len = some pages) :
    pages = (len+(pageSize-1))/pageSize := by
  simp only [pagesForLen,Option.map_eq_some_iff] at h
  obtain ⟨_,hadd,rfl⟩ := h
  rw [checkedAdd_some hadd]

theorem pagesOf_pos {len : UInt64} (h : len ≠ 0) : 0 < pagesOf len := by
  have hne : len.toNat ≠ 0 := fun h0 => h (UInt64.toNat_inj.mp h0)
  simp only [pagesOf,pageSize]
  omega

theorem planMunmap_ok {base len pages : Nat} {regions : List MmapRegion}
    (h : planMunmap base len regions = .ok pages) : base%pageSize = 0 := by
  unfold planMunmap at h
  split at h
  · cases h
  · omega

def Accepted (oldAddr oldSize newSize flags : UInt64) : Prop :=
  oldAddr.toNat%pageSize = 0 ∧ oldSize ≠ 0 ∧ newSize ≠ 0 ∧ flags &&& ~~~mremapMaymove = 0 ∧
    oldSize.toNat+(pageSize-1) ≤ u64Max ∧ newSize.toNat+(pageSize-1) ≤ u64Max

instance (oldAddr oldSize newSize flags : UInt64) :
    Decidable (Accepted oldAddr oldSize newSize flags) :=
  inferInstanceAs (Decidable (_ ∧ _))

theorem pagesForLen_eq (len : UInt64) :
    pagesForLen len.toNat = if len.toNat+(pageSize-1) ≤ u64Max then some (pagesOf len) else none := by
  unfold pagesForLen
  split
  · rename_i h
    rw [checkedAdd_eq h]
    rfl
  · rename_i h
    rw [checkedAdd_none (Nat.not_le.mp h)]
    rfl

theorem sysMremap_cases (s : Space) (oldAddr oldSize newSize flags : UInt64) :
    (∃ e, ∀ grants, sysMremap s oldAddr oldSize newSize flags grants = some (.error e,s)) ∧
      (Accepted oldAddr oldSize newSize flags → ∀ r ∈ s.vm.mmaps, r.base ≤ oldAddr.toNat →
        r.stop < oldAddr.toNat+pagesOf oldSize*pageSize ∧ oldAddr.toNat+pagesOf oldSize*pageSize ≤ u64Max) ∨
    Accepted oldAddr oldSize newSize flags ∧
      ((∀ grants, sysMremap s oldAddr oldSize newSize flags grants = none) ∧
        u64Max < oldAddr.toNat+pagesOf oldSize*pageSize ∧ (∃ r ∈ s.vm.mmaps, r.base ≤ oldAddr.toNat) ∨
      ∃ pre old post, s.vm.mmaps = pre ++ old :: post ∧ old.base ≤ oldAddr.toNat ∧
        oldAddr.toNat+pagesOf oldSize*pageSize ≤ old.stop ∧
        ∀ grants, sysMremap s oldAddr oldSize newSize flags grants =
          resizeRegion s pre.length old oldAddr.toNat (pagesOf oldSize) (pagesOf newSize)
            (flags &&& mremapMaymove ≠ 0) grants) := by
  by_cases hacc : Accepted oldAddr oldSize newSize flags
  · obtain ⟨halign,hold,hnew,hflags,holdLen,hnewLen⟩ := id hacc
    have hspan : checkedMul (pagesOf oldSize) pageSize = some (pagesOf oldSize*pageSize) := by
      refine checkedMul_eq ?_
      have := Nat.div_mul_le_self (oldSize.toNat+(pageSize-1)) pageSize
      simp only [pagesOf]
      omega
    have hgo : ∀ grants, sysMremap s oldAddr oldSize newSize flags grants =
        (findCovering oldAddr.toNat (pagesOf oldSize*pageSize) s.vm.mmaps 0).bind (fun found =>
          resizeFound s found oldAddr.toNat (pagesOf oldSize) (pagesOf newSize)
            (flags &&& mremapMaymove ≠ 0) grants) := by
      intro grants
      unfold sysMremap
      simp [halign,hold,hnew,hflags,pagesForLen_eq,holdLen,hnewLen,hspan]
    cases hfind : findCovering oldAddr.toNat (pagesOf oldSize*pageSize) s.vm.mmaps 0 with
    | none =>
      refine .inr ⟨hacc,.inl ⟨fun grants => ?_,findCovering_panics.mp hfind⟩⟩
      simp [hgo,hfind]
    | some found =>
      cases found with
      | none =>
        refine .inl ⟨⟨.efault,fun grants => by simp [hgo,hfind,resizeFound]⟩,fun _ r hr hle => ?_⟩
        refine ⟨findCovering_none hfind r hr hle,?_⟩
        by_contra hover
        have hnone : findCovering oldAddr.toNat (pagesOf oldSize*pageSize) s.vm.mmaps 0 = none :=
          findCovering_panics.mpr ⟨by omega,r,hr,hle⟩
        rw [hnone] at hfind
        cases hfind
      | some found =>
        obtain ⟨i,old⟩ := found
        obtain ⟨hbase,hend,pre,post,hregions,hi⟩ := findCovering_some hfind
        rw [Nat.zero_add] at hi
        subst hi
        exact .inr ⟨hacc,.inr ⟨pre,old,post,hregions,hbase,hend,
          fun grants => by simp [hgo,hfind,resizeFound]⟩⟩
  · refine .inl ⟨?_,fun h => absurd h hacc⟩
    unfold sysMremap
    by_cases hargs : oldAddr.toNat%pageSize ≠ 0 ∨ oldSize = 0 ∨ newSize = 0
    · exact ⟨.einval,fun _ => by rw [if_pos hargs]⟩
    by_cases hflags : flags &&& ~~~mremapMaymove ≠ 0
    · exact ⟨.einval,fun _ => by rw [if_neg hargs,if_pos hflags]⟩
    refine ⟨.enomem,fun _ => ?_⟩
    rw [if_neg hargs,if_neg hflags,pagesForLen_eq,pagesForLen_eq]
    by_cases hlen : oldSize.toNat+(pageSize-1) ≤ u64Max ∧ newSize.toNat+(pageSize-1) ≤ u64Max
    · simp only [not_or,ne_eq,not_not] at hargs hflags
      exact absurd ⟨hargs.1,hargs.2.1,hargs.2.2,hflags,hlen⟩ hacc
    by_cases hold : oldSize.toNat+(pageSize-1) ≤ u64Max
    · have hnew : ¬ newSize.toNat+(pageSize-1) ≤ u64Max := fun h => hlen ⟨hold,h⟩
      simp [hold,hnew]
    · simp [hold]

end PaghOS.Mm
