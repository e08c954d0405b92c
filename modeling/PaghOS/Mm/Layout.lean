import Mathlib.Order.Interval.Set.Disjoint
import PaghOS.Mm.Syscalls

/-!
Lists of tracked regions that lie page aligned between two bounds, apart from
each other: what each kind of edit keeps, and where first fit puts a new one.
-/

namespace PaghOS.Mm
open List
open Elf (userAddrMax checkedAdd)
open Spans

variable {a : Nat}
variable {c oldPages newPages : Nat} {pre post : List MmapRegion} {old : MmapRegion}

theorem checkedMul_eq {b : Nat} (h : a*b ≤ u64Max) : checkedMul a b = some (a*b) := by
  rw [checkedMul,if_pos h]

theorem checkedMul_some {b : Nat} (h : checkedMul a b = some c) : a*b = c := by
  simp only [checkedMul,Option.ite_none_right_eq_some,Option.some.injEq] at h
  exact h.2

theorem checkedAdd_eq {b : Nat} (h : a+b ≤ u64Max) : checkedAdd a b = some (a+b) := by
  rw [checkedAdd,if_pos (by simp only [u64Max] at h; omega)]

theorem checkedAdd_some {b : Nat} (h : checkedAdd a b = some c) : a+b = c := by
  simp only [checkedAdd,Option.ite_none_right_eq_some,Option.some.injEq] at h
  exact h.2

theorem checkedAdd_none {b : Nat} (h : u64Max < a+b) : checkedAdd a b = none := by
  rw [checkedAdd,if_neg (by simp only [u64Max] at h; omega)]

theorem userAddrMax_lt : userAddrMax+pageSize ≤ u64Max := by decide

def Apart (r q : MmapRegion) : Prop := r.stop ≤ q.base ∨ q.stop ≤ r.base

theorem Apart.symm {r q : MmapRegion} (h : Apart r q) : Apart q r := Or.symm h

structure Layout (lo hi : Nat) (regions : List MmapRegion) : Prop where
  aligned : ∀ r ∈ regions, r.base%pageSize = 0
  nonempty : ∀ r ∈ regions, 0 < r.pages
  above : ∀ r ∈ regions, lo ≤ r.base
  below : ∀ r ∈ regions, r.stop ≤ hi
  apart : regions.Pairwise Apart

variable {lo hi : Nat} {regions : List MmapRegion} {r q : MmapRegion}

theorem Layout.nil (lo hi : Nat) : Layout lo hi [] := by
  constructor <;> simp

theorem layout_cons_iff : Layout lo hi (r :: regions) ↔
    (r.base%pageSize = 0 ∧ 0 < r.pages ∧ lo ≤ r.base ∧ r.stop ≤ hi ∧ ∀ q ∈ regions, Apart r q) ∧
      Layout lo hi regions := by
  constructor
  · rintro ⟨h₁,h₂,h₃,h₄,h₅⟩
    simp only [forall_mem_cons,pairwise_cons] at h₁ h₂ h₃ h₄ h₅
    exact ⟨⟨h₁.1,h₂.1,h₃.1,h₄.1,h₅.1⟩,h₁.2,h₂.2,h₃.2,h₄.2,h₅.2⟩
  rintro ⟨⟨h₁,h₂,h₃,h₄,h₅⟩,h⟩
  constructor
  · simpa using ⟨h₁,h.aligned⟩
  · simpa using ⟨h₂,h.nonempty⟩
  · simpa using ⟨h₃,h.above⟩
  · simpa using ⟨h₄,h.below⟩
  · simpa using ⟨h₅,h.apart⟩

theorem Layout.perm {regions' : List MmapRegion} (h : Layout lo hi regions)
    (hp : regions.Perm regions') : Layout lo hi regions' where
  aligned := fun r hr => h.aligned r (hp.mem_iff.mpr hr)
  nonempty := fun r hr => h.nonempty r (hp.mem_iff.mpr hr)
  above := fun r hr => h.above r (hp.mem_iff.mpr hr)
  below := fun r hr => h.below r (hp.mem_iff.mpr hr)
  apart := h.apart.perm hp Apart.symm

theorem Layout.map (h : Layout lo hi regions) {f : MmapRegion → MmapRegion}
    (hf : ∀ r, (f r).base = r.base ∧ (f r).pages = r.pages) : Layout lo hi (regions.map f) := by
  have hstop : ∀ r, (f r).stop = r.stop := fun r => by simp [MmapRegion.stop,hf r]
  constructor
  · simpa [hf] using h.aligned
  · simpa [hf] using h.nonempty
  · simpa [hf] using h.above
  · simpa [hstop] using h.below
  · refine pairwise_map.mpr (h.apart.imp ?_)
    intro a b hab
    simpa [Apart,hf,hstop] using hab

theorem stop_aligned (h : r.base%pageSize = 0) : r.stop%pageSize = 0 := by
  simp [MmapRegion.stop,Nat.add_mod,h]

theorem mem_cut {b : Nat} (hr : r.base%pageSize = 0) (hpos : 0 < r.pages)
    (ha : a%pageSize = 0) (hb : b%pageSize = 0) (h : q ∈ r.cut a b) :
    q.base%pageSize = 0 ∧ 0 < q.pages ∧ r.base ≤ q.base ∧ q.stop ≤ r.stop ∧ (q.stop ≤ a ∨ b ≤ q.base) := by
  have hs := stop_aligned hr
  unfold MmapRegion.cut at h
  split at h
  · rename_i hout
    rw [mem_singleton] at h
    subst h
    exact ⟨hr,hpos,Nat.le_refl _,Nat.le_refl _,hout⟩
  rename_i hout
  rw [mem_append,mem_ite_nil_right,mem_ite_nil_right,mem_singleton,mem_singleton] at h
  simp only [MmapRegion.stop,pageSize] at *
  rcases h with ⟨hlt,rfl⟩ | ⟨hlt,rfl⟩
  · dsimp only
    omega
  · dsimp only
    omega

theorem cut_apart {b : Nat} (hr : r.base%pageSize = 0) (ha : a%pageSize = 0)
    (hab : a ≤ b) : (r.cut a b).Pairwise Apart := by
  unfold MmapRegion.cut
  split
  · simp
  · split <;> split <;> simp [Apart,MmapRegion.stop,pageSize] at *
    omega

theorem Layout.cut (h : Layout lo hi regions) {base : Nat} (hbase : base%pageSize = 0)
    (pages : Nat) : Layout lo hi (cutRegions regions base pages) := by
  have hend : (base+pages*pageSize)%pageSize = 0 := by simp [Nat.add_mod,hbase]
  have hle : base ≤ base+pages*pageSize := by omega
  unfold cutRegions
  have hpiece : ∀ q r, r ∈ regions → q ∈ r.cut base (base+pages*pageSize) →
      q.base%pageSize = 0 ∧ 0 < q.pages ∧ r.base ≤ q.base ∧ q.stop ≤ r.stop := by
    intro q r hr hq
    obtain ⟨h₁,h₂,h₃,h₄,-⟩ := mem_cut (h.aligned r hr) (h.nonempty r hr) hbase hend hq
    exact ⟨h₁,h₂,h₃,h₄⟩
  have hmem : ∀ q ∈ regions.flatMap fun r => r.cut base (base+pages*pageSize), ∃ r ∈ regions,
      q.base%pageSize = 0 ∧ 0 < q.pages ∧ r.base ≤ q.base ∧ q.stop ≤ r.stop := by
    intro q hq
    obtain ⟨r,hr,hq⟩ := mem_flatMap.mp hq
    exact ⟨r,hr,hpiece q r hr hq⟩
  constructor
  · intro q hq
    obtain ⟨r,hr,hk⟩ := hmem q hq
    exact hk.1
  · intro q hq
    obtain ⟨r,hr,hk⟩ := hmem q hq
    exact hk.2.1
  · intro q hq
    obtain ⟨r,hr,hk⟩ := hmem q hq
    exact Nat.le_trans (h.above r hr) hk.2.2.1
  · intro q hq
    obtain ⟨r,hr,hk⟩ := hmem q hq
    exact Nat.le_trans hk.2.2.2 (h.below r hr)
  · refine pairwise_flatMap.mpr ⟨fun r hr => cut_apart (h.aligned r hr) hbase hle,?_⟩
    refine h.apart.imp_of_mem ?_
    intro r r' hr hr' hrr q hq q' hq'
    have hk := hpiece q r hr hq
    have hk' := hpiece q' r' hr' hq'
    simp only [Apart] at hrr ⊢
    omega

section Planners

theorem pageUp_mono {b : Nat} (h : a ≤ b) : pageUp a ≤ pageUp b := by
  simp only [pageUp,pageDown,pageSize,u64Max]
  omega

theorem le_pageUp (h : a ≤ userAddrMax) : a ≤ pageUp a := by
  simp only [pageUp,pageDown,pageSize,u64Max,userAddrMax] at *
  omega

theorem pageUp_aligned (a : Nat) : pageUp a%pageSize = 0 := by
  simp [pageUp,pageDown]

theorem pageUp_of_aligned (h : a%pageSize = 0) (hle : a ≤ u64Max) : pageUp a = a := by
  simp only [pageUp,pageDown,pageSize,u64Max] at *
  omega

theorem rend_eq (h : r.stop ≤ u64Max) : r.rend = r.stop := by
  simp only [MmapRegion.rend,MmapRegion.stop,pageSize,u64Max] at *
  omega

/-- Regions of whole pages, in any order and place. -/
def Tracked (regions : List MmapRegion) : Prop := ∀ r ∈ regions, r.base%pageSize = 0 ∧ r.stop ≤ u64Max

theorem userAddrMax_le : userAddrMax ≤ u64Max := by decide

theorem Layout.tracked (h : Layout lo hi regions) (hhi : hi ≤ userAddrMax) : Tracked regions := fun r hr =>
  ⟨h.aligned r hr,Nat.le_trans (Nat.le_trans (h.below r hr) hhi) userAddrMax_le⟩

/-- The span of `pages` pages at `a` keeps clear of the regions and ends by `ceiling`. -/
def Free (regions : List MmapRegion) (a pages ceiling : Nat) : Prop :=
  a%pageSize = 0 ∧ a+pages*pageSize ≤ ceiling ∧
    ∀ r ∈ regions, a+pages*pageSize ≤ r.base ∨ r.stop ≤ a

theorem free_iff_fits (h : Tracked regions) {pages ceiling : Nat} :
    Free regions a pages ceiling ↔ a%pageSize = 0 ∧
      Fits MmapRegion.base MmapRegion.rend regions (pages*pageSize) ceiling a := by
  refine and_congr_right (fun _ => and_congr_right (fun _ => forall₂_congr (fun r hmem => ?_)))
  rw [rend_eq (h r hmem).2]
  omega

theorem rangeIsFree_iff (h : Layout lo hi regions) (hhi : hi ≤ userAddrMax)
    {pages ceiling : Nat} (hc : ceiling ≤ userAddrMax) :
    rangeIsFree regions a pages ceiling = true ↔ Free regions a pages ceiling := by
  have hr : ∀ r ∈ regions, r.rend = r.stop := fun r hr => rend_eq (h.tracked hhi r hr).2
  have hmax := userAddrMax_lt
  unfold rangeIsFree Free
  simp only [Bool.and_eq_true,decide_eq_true_eq]
  refine and_congr_right fun _ => ?_
  by_cases hfit : a+pages*pageSize ≤ ceiling
  · rw [checkedMul_eq (by omega)]
    dsimp only
    rw [checkedAdd_eq (by omega)]
    simp only [hfit,decide_true,Bool.true_and,true_and,all_eq_true]
    refine forall₂_congr fun r hmem => ?_
    rw [hr r hmem]
    simp only [Bool.not_eq_true',Bool.and_eq_false_iff,decide_eq_false_iff_not]
    omega
  · simp only [hfit,false_and,iff_false]
    split
    · simp
    split
    · simp
    · rename_i hspan _ stop hstop
      rw [← checkedAdd_some hstop,← checkedMul_some hspan]
      simp [hfit]

section FirstFit

variable {floor pages ceiling b : Nat}

theorem rend_le_pageUp (h : Tracked regions) : ∀ r ∈ regions, r.rend ≤ pageUp r.rend := by
  intro r hr
  obtain ⟨hbase,hstop⟩ := h r hr
  have haligned : r.stop%pageSize = 0 := by simp [MmapRegion.stop,Nat.add_mod,hbase]
  rw [rend_eq hstop]
  exact Nat.le_of_eq (pageUp_of_aligned haligned hstop).symm

theorem pageUp_rend_le : ∀ r ∈ regions, ∀ c, pageUp c = c → r.rend ≤ c → pageUp r.rend ≤ c :=
  fun _ _ _ hc hle => hc ▸ pageUp_mono hle

theorem place_none (h : Tracked regions) (hc : ceiling ≤ u64Max)
    (hb : planMmapBase regions floor pages ceiling = none) (c : Nat) (hfc : floor ≤ c) :
    ¬ Free regions c pages ceiling := by
  intro hfree
  obtain ⟨hca,hfits⟩ := (free_iff_fits h).mp hfree
  have hend := hfits.1
  have hcup : pageUp c = c := pageUp_of_aligned hca (by omega)
  unfold planMmapBase at hb
  rw [checkedMul_eq (by omega),Option.bind_eq_bind,Option.bind_some] at hb
  have hrounds : regions.countP (fun r => pageUp floor < r.rend) < regions.length+1 :=
    Nat.lt_succ_of_le countP_le_length
  exact firstFit_none (rend_le_pageUp h) pageUp_rend_le _ _ hrounds hb c (hcup ▸ pageUp_mono hfc) hcup
    hfits

theorem place_some (h : Tracked regions) (hc : ceiling ≤ u64Max)
    (hb : planMmapBase regions floor pages ceiling = some b) :
    pageUp floor ≤ b ∧ Free regions b pages ceiling ∧
      ∀ c, floor ≤ c → c < b → ¬ Free regions c pages ceiling := by
  unfold planMmapBase at hb
  rw [Option.bind_eq_bind,Option.bind_eq_some_iff] at hb
  obtain ⟨span,hspan,hb⟩ := hb
  obtain rfl := checkedMul_some hspan
  have hlow := firstFit_lowest (rend_le_pageUp h) pageUp_rend_le _ _ _ hb
  have haligned : b%pageSize = 0 := by
    rcases firstFit_mem _ _ _ hb with rfl | ⟨r,-,rfl⟩
    · exact pageUp_aligned floor
    · exact pageUp_aligned r.rend
  refine ⟨hlow.start,(free_iff_fits h).mpr ⟨haligned,hlow.fits⟩,?_⟩
  intro c hfc hcb hfree
  obtain ⟨hca,hfits⟩ := (free_iff_fits h).mp hfree
  have hcup : pageUp c = c := pageUp_of_aligned hca (by have := hfits.1; omega)
  exact hlow.least c (hcup ▸ pageUp_mono hfc) hcb hcup hfits

/-- First fit over every list of regions. The number of rounds is no bound: any larger one
gives the same. A region without pages is an obstacle too. -/
theorem planMmapBase_first_fit (regions : List MmapRegion) (floor pages ceiling : Nat)
    (h : ∀ r ∈ regions, r.base%pageSize = 0 ∧ r.stop ≤ u64Max) (hc : ceiling ≤ u64Max) (hpages : 1 ≤ pages) :
    (∀ rounds, regions.length < rounds → (checkedMul pages pageSize).bind (fun span =>
        firstFit MmapRegion.base MmapRegion.rend pageUp regions span ceiling rounds (pageUp floor)) =
          planMmapBase regions floor pages ceiling) ∧
    (∀ b, planMmapBase regions floor pages ceiling = some b ↔ floor ≤ b ∧ Free regions b pages ceiling ∧
      ∀ c, floor ≤ c → Free regions c pages ceiling → b ≤ c) ∧
    (planMmapBase regions floor pages ceiling = none ↔ ∀ c, floor ≤ c → ¬ Free regions c pages ceiling) ∧
    ((∀ r ∈ regions, 0 < r.pages) → ∀ a, Free regions a pages ceiling ↔ a%pageSize = 0 ∧
      a+pages*pageSize ≤ ceiling ∧
      ∀ r ∈ regions, Set.Ico a (a+pages*pageSize) ∩ Set.Ico r.base r.stop = ∅) := by
  have hsome : ∀ b, planMmapBase regions floor pages ceiling = some b → floor ≤ b ∧
      Free regions b pages ceiling ∧
      ∀ c, floor ≤ c → Free regions c pages ceiling → b ≤ c := by
    intro b hb
    obtain ⟨hup,hfree,hleast⟩ := place_some h hc hb
    have hend := hfree.2.1
    -- Rounding a floor in the last page goes down, but nothing fits there.
    have hfloor : floor ≤ b := by
      simp only [pageUp,pageDown,pageSize,u64Max] at *
      omega
    exact ⟨hfloor,hfree,fun c hfc hcfree => Nat.le_of_not_lt fun hlt => hleast c hfc hlt hcfree⟩
  refine ⟨fun rounds hrounds => ?_,fun b => ⟨hsome b,fun hb => ?_⟩,
    ⟨fun hb => place_none h hc hb,fun hnone => ?_⟩,fun hfull a => ?_⟩
  · have hcount := countP_le_length (p := fun r => decide (pageUp floor < MmapRegion.rend r)) (l := regions)
    refine congrArg _ (funext fun span => ?_)
    exact firstFit_rounds (rend_le_pageUp h) _ _ _ (by omega) (by omega)
  · cases hplan : planMmapBase regions floor pages ceiling with
    | none => exact absurd hb.2.1 (place_none h hc hplan b hb.1)
    | some b' =>
      obtain ⟨hle,hfree,hleast⟩ := hsome b' hplan
      rw [Nat.le_antisymm (hleast b hb.1 hb.2.1) (hb.2.2 b' hle hfree)]
  · cases hplan : planMmapBase regions floor pages ceiling with
    | none => rfl
    | some b => exact absurd (hsome b hplan).2.1 (hnone b (hsome b hplan).1)
  · refine and_congr_right fun _ => and_congr_right fun _ => forall₂_congr fun r hr => ?_
    have hpos := hfull r hr
    rw [← Set.disjoint_iff_inter_eq_empty,Set.Ico_disjoint_Ico,MmapRegion.stop,pageSize]
    omega

/-- The gap between two regions given upper one first. -/
theorem planMmapBase_first_fit_gap :
    planMmapBase [⟨0x5000,2,true,true,0,true⟩,⟨0x1000,2,true,true,0,true⟩] 0x1800 2 0x9000 = some 0x3000 :=
  ((planMmapBase_first_fit [⟨0x5000,2,true,true,0,true⟩,⟨0x1000,2,true,true,0,true⟩] 0x1800 2 0x9000
    (by decide) (by decide) (by decide)).2.1 0x3000).2 (by
      refine ⟨by decide,⟨by decide,by decide,by decide⟩,fun c hc hfree => ?_⟩
      have hlow := hfree.2.2 ⟨0x1000,2,true,true,0,true⟩ (by simp)
      simp only [MmapRegion.stop,pageSize] at hlow
      omega)

variable (h : Layout lo hi regions) (hhi : hi ≤ userAddrMax) (hfloor : floor ≤ userAddrMax)
  (hc : ceiling ≤ userAddrMax)
include h hhi hc

theorem planMmapBase_none (hb : planMmapBase regions floor pages ceiling = none) (c : Nat)
    (hfc : floor ≤ c) : ¬ Free regions c pages ceiling :=
  place_none (h.tracked hhi) (Nat.le_trans hc userAddrMax_le) hb c hfc

include hfloor

theorem planMmapBase_some (hb : planMmapBase regions floor pages ceiling = some b) :
    floor ≤ b ∧ Free regions b pages ceiling ∧ ∀ c, floor ≤ c → c < b → ¬ Free regions c pages ceiling := by
  obtain ⟨hup,hrest⟩ := place_some (h.tracked hhi) (Nat.le_trans hc userAddrMax_le) hb
  exact ⟨Nat.le_trans (le_pageUp hfloor) hup,hrest⟩

theorem planMmapBase_below {low : Nat} (hb : planMmapBase regions floor pages ceiling = some b)
    (hlow : ∃ c, floor ≤ c ∧ Free regions c pages low) (hle : low ≤ ceiling) : b+pages*pageSize ≤ low := by
  obtain ⟨-,-,hleast⟩ := planMmapBase_some h hhi hfloor hc hb
  obtain ⟨c,hfc,hca,hcl,hcr⟩ := hlow
  by_cases hcb : c < b
  · exact absurd ⟨hca,by omega,hcr⟩ (hleast c hfc hcb)
  · omega

end FirstFit

end Planners

section Covering
variable {addr span i k : Nat}

theorem findCovering_some (h : findCovering addr span regions k = some (some (i,r))) :
    r.base ≤ addr ∧ addr+span ≤ r.stop ∧ ∃ pre post, regions = pre ++ r :: post ∧ i = k+pre.length := by
  induction regions generalizing k with
  | nil => simp [findCovering] at h
  | cons q regions ih =>
    rw [findCovering] at h
    split at h
    · rename_i hle
      rw [Option.bind_eq_bind,Option.bind_eq_some_iff] at h
      obtain ⟨stop,hstop,h⟩ := h
      obtain rfl := checkedAdd_some hstop
      split at h
      · rename_i hend
        simp only [Option.some.injEq,Prod.mk.injEq] at h
        obtain ⟨rfl,rfl⟩ := h
        exact ⟨hle,hend,[],regions,by simp⟩
      · obtain ⟨h₁,h₂,pre,post,rfl,rfl⟩ := ih h
        exact ⟨h₁,h₂,q :: pre,post,by simp,by simp; omega⟩
    · obtain ⟨h₁,h₂,pre,post,rfl,rfl⟩ := ih h
      exact ⟨h₁,h₂,q :: pre,post,by simp,by simp; omega⟩

theorem findCovering_none (h : findCovering addr span regions k = some none) :
    ∀ r ∈ regions, r.base ≤ addr → r.stop < addr+span := by
  induction regions generalizing k with
  | nil => simp
  | cons q regions ih =>
    rw [findCovering] at h
    rw [forall_mem_cons]
    split at h
    · rw [Option.bind_eq_bind,Option.bind_eq_some_iff] at h
      obtain ⟨stop,hstop,h⟩ := h
      obtain rfl := checkedAdd_some hstop
      split at h
      · simp at h
      · exact ⟨fun _ => by omega,ih h⟩
    · exact ⟨fun hle => by omega,ih h⟩

theorem findCovering_panics : findCovering addr span regions k = none ↔
    u64Max < addr+span ∧ ∃ r ∈ regions, r.base ≤ addr := by
  induction regions generalizing k with
  | nil => simp [findCovering]
  | cons q regions ih =>
    rw [findCovering]
    by_cases hle : q.base ≤ addr
    · simp only [hle,if_true,Option.bind_eq_bind]
      by_cases hover : u64Max < addr+span
      · simp [checkedAdd_none hover,hover,hle]
      simp only [checkedAdd_eq (Nat.not_lt.mp hover),Option.bind_some,hover,false_and,iff_false]
      split
      · simp
      · simp [ih,hover]
    · simp [hle,ih]

end Covering

theorem layout_middle : Layout lo hi (pre ++ r :: post) ↔
    (r.base%pageSize = 0 ∧ 0 < r.pages ∧ lo ≤ r.base ∧ r.stop ≤ hi ∧
      ∀ q ∈ pre ++ post, Apart r q) ∧ Layout lo hi (pre ++ post) := by
  rw [← layout_cons_iff]
  exact ⟨fun h => h.perm perm_middle,fun h => h.perm perm_middle.symm⟩

theorem Layout.insertIdx (h : Layout lo hi regions) {i : Nat} (hi' : i ≤ regions.length)
    (hr : r.base%pageSize = 0 ∧ 0 < r.pages ∧ lo ≤ r.base ∧ r.stop ≤ hi ∧ ∀ q ∈ regions, Apart r q) :
    Layout lo hi (regions.insertIdx i r) :=
  (layout_cons_iff.mpr ⟨hr,h⟩).perm (perm_insertIdx r regions hi').symm

theorem Free.apart {pages ceiling : Nat} (h : Free regions a pages ceiling)
    (hbase : r.base = a) (hpages : r.pages = pages) : ∀ q ∈ regions, Apart r q := by
  intro q hq
  have := h.2.2 q hq
  simp only [Apart,MmapRegion.stop,hbase,hpages] at *
  omega

theorem apart_widened {q : MmapRegion} {addr : Nat} (hbase : old.base ≤ addr)
    (hend : addr+oldPages*pageSize ≤ old.stop) (hgrow : oldPages < newPages) (hpos : 0 < q.pages)
    (hold : Apart old q) (htail : addr+oldPages*pageSize+(newPages-oldPages)*pageSize ≤ q.base ∨
      q.stop ≤ addr+oldPages*pageSize) : Apart { old with pages := newPages } q := by
  have hspan : oldPages*pageSize ≤ newPages*pageSize := Nat.mul_le_mul_right _ (Nat.le_of_lt hgrow)
  have hq : 0 < q.pages*pageSize := Nat.mul_pos hpos (by decide)
  rw [Nat.sub_mul] at htail
  simp only [Apart,MmapRegion.stop] at hold htail hend ⊢
  rcases hold with hold | hold
  · rcases htail with htail | htail
    · exact .inl (by omega)
    · omega
  · exact .inr hold

theorem Layout.widen {addr : Nat} (h : Layout lo hi (pre ++ old :: post)) (hbase : old.base ≤ addr)
    (hend : addr+oldPages*pageSize ≤ old.stop) (hgrow : oldPages < newPages) {ceiling : Nat}
    (hfree : Free (pre ++ old :: post) (addr+oldPages*pageSize) (newPages-oldPages) ceiling)
    (hhi : addr+newPages*pageSize ≤ hi) : Layout lo hi (pre ++ { old with pages := newPages } :: post) := by
  obtain ⟨⟨halign,hpos,hlo,-,hapart⟩,hrest⟩ := layout_middle.mp h
  refine layout_middle.mpr ⟨⟨halign,by dsimp only; omega,hlo,?_,?_⟩,hrest⟩
  · simp only [MmapRegion.stop]
    omega
  intro q hq
  have hq' : q ∈ pre ++ old :: post := by
    simp only [mem_append,mem_cons] at hq ⊢
    tauto
  exact apart_widened hbase hend hgrow (hrest.nonempty q hq) (hapart q hq) (hfree.2.2 q hq')

end PaghOS.Mm
