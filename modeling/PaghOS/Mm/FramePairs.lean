import Mathlib.Data.List.Count
import PaghOS.Mm.FrameSafety

/-!
Frame allocations whose frees are paired: every frame `init` has marked free is free or in
exactly one live allocation, which one equation per frame carries through a run.
-/

namespace PaghOS.Frames
open Loop List Option Bool
open WordBits (bit Words)

/-- The allocator and its live allocations, each an address with its number of frames. -/
structure Paired where
  pmm : Pmm
  live : List (Nat × Nat)
  deriving DecidableEq

def Paired.step (r : Paired) : FrameOp → Option Paired
  | .allocFrame => do
    let (p,addr) ← allocFrame r.pmm
    some ⟨p,addr.toList.map (·,1) ++ r.live⟩
  | .allocFramesContiguous count => do
    let (p,addr) ← allocFramesContiguous r.pmm count
    some ⟨p,addr.toList.map (·,count) ++ r.live⟩
  | .freeFrame addr => some ⟨freeFrame r.pmm addr,r.live.erase (addr,1)⟩
  | .freeFramesContiguous base count => do
    let p ← freeFramesContiguous r.pmm base count
    some ⟨p,r.live.erase (base,count)⟩

def Matched (r : Paired) : FrameOp → Prop
  | .freeFrame addr => (addr,1) ∈ r.live
  | .freeFramesContiguous base count => (base,count) ∈ r.live
  | _ => True

instance (r : Paired) (op : FrameOp) : Decidable (Matched r op) := by
  unfold Matched
  split <;> infer_instance

def InAlloc (x : Nat × Nat) (addr : Nat) : Prop := x.1 ≤ addr ∧ addr < x.1+x.2*frameSize

/-- What holds between the calls. -/
structure Orderly (map : BootMap) (r : Paired) : Prop where
  disjoint : r.live.Pairwise fun x y => ∀ addr, ¬ (InAlloc x addr ∧ InAlloc y addr)
  usable : ∀ x ∈ r.live, ∀ addr, InAlloc x addr → lowReserved ≤ addr ∧
    (∃ e ∈ map.entries, e.kind = .usable ∧ e.Holds addr) ∧
    ¬ (r.pmm.bitmapPhys ≤ alignDown addr ∧ alignDown addr < r.pmm.bitmapPhys+r.pmm.bitmapBytes)
  contiguous : ∀ n q, allocFramesContiguous r.pmm n = some (q,none) → 0 < n →
    ∀ start, ∃ k < n, bit r.pmm.bitmap (start+k) = false
  count : r.pmm.freeCount = WordBits.count r.pmm.bitmap

/-! ### The run search -/

theorem findRun_none {ws : Words} {count left idx runStart runLen : Nat}
    (h : findRun ws count left idx runStart runLen = none) (hlen : runLen < count) (hle : runLen ≤ idx)
    (hclear : runLen < idx → bit ws (idx-runLen-1) = false) {start : Nat} (hlo : idx < start+count)
    (hhi : start+count ≤ idx+left) : ∃ k < count, bit ws (start+k) = false := by
  induction left generalizing idx runStart runLen with
  | zero => omega
  | succ left ih =>
    unfold findRun at h
    split at h
    · dsimp only at h
      split at h
      · cases h
      by_cases hend : start+count = idx+1
      · refine ⟨idx-runLen-1-start,by omega,?_⟩
        rw [show start+(idx-runLen-1-start) = idx-runLen-1 by omega]
        exact hclear (by omega)
      · refine ih h (by omega) (by omega) (fun hlt => ?_) (by omega) (by omega)
        rw [show idx+1-(runLen+1)-1 = idx-runLen-1 by omega]
        exact hclear (by omega)
    · next hbit =>
      by_cases hend : start+count = idx+1
      · refine ⟨idx-start,by omega,?_⟩
        rw [show start+(idx-start) = idx by omega]
        simpa using hbit
      · exact ih h (by omega) (by omega) (fun _ => by simpa using hbit) (by omega) (by omega)

/-! ### The equation -/

def Pmm.covers (p₀ : Pmm) (i : Nat) (x : Nat × Nat) : Bool := p₀.index x.1 ≤ i && i < p₀.index x.1+x.2

/-- Every frame that was free is free or live once; the others are neither. -/
structure Balanced (p₀ : Pmm) (r : Paired) : Prop where
  counted : Counted p₀ r.pmm
  placed : ∀ x ∈ r.live, 0 < x.2 ∧ ∃ i, x.1 = p₀.baseAddr+i*frameSize
  once : ∀ i, (bit r.pmm.bitmap i).toNat+r.live.countP (p₀.covers i) = (bit p₀.bitmap i).toNat

variable {p₀ q : Pmm} {r : Paired} {map : BootMap}

theorem Balanced.took (h : Balanced p₀ r) (hq : Counted p₀ q) {addr : Option Nat} {count : Nat}
    (htook : Took r.pmm q addr count) (hpos : addr ≠ none → 0 < count) :
    Balanced p₀ ⟨q,addr.toList.map (·,count) ++ r.live⟩ := by
  have hbase : r.pmm.baseAddr = p₀.baseAddr := congrArg (·.2.1) h.counted.shape
  rcases htook with ⟨rfl,rfl⟩ | ⟨i,rfl,hrun,hbits⟩
  · exact ⟨hq,by simpa using h.placed,by simpa using h.once⟩
  rw [hbase]
  refine ⟨hq,?_,fun j => ?_⟩
  · simp only [toList_some,map_cons,map_nil,singleton_append,forall_mem_cons]
    exact ⟨⟨hpos (by simp),i,rfl⟩,h.placed⟩
  have hj := h.once j
  simp only [toList_some,map_cons,map_nil,singleton_append,countP_cons,Pmm.covers,Pmm.index_addr]
  by_cases hin : i ≤ j ∧ j < i+count
  · have hset := hrun (j-i) (by omega)
    rw [show i+(j-i) = j by omega] at hset
    have hclear : bit q.bitmap j = false := by simpa [hin] using hbits j
    simp [hin,hset,hclear] at hj ⊢
    omega
  have hsame : bit q.bitmap j = bit r.pmm.bitmap j := by
    rw [Bool.eq_iff_iff,hbits j]
    simp [hin]
  simpa [hin,hsame] using hj

theorem Balanced.gave (h : Balanced p₀ r) (hq : Counted p₀ q) {x : Nat × Nat} (hx : x ∈ r.live)
    (hbits : ∀ j, bit q.bitmap j = true ↔ bit r.pmm.bitmap j = true ∨ p₀.covers j x = true) :
    Balanced p₀ ⟨q,r.live.erase x⟩ := by
  refine ⟨hq,fun y hy => h.placed y (mem_of_mem_erase hy),fun j => ?_⟩
  have hj := h.once j
  have hle : (bit p₀.bitmap j).toNat ≤ 1 := Bool.toNat_le _
  rw [countP_erase]
  by_cases hin : p₀.covers j x = true
  · have hpos : 0 < r.live.countP (p₀.covers j) := countP_pos_iff.mpr ⟨x,hx,hin⟩
    have hset : bit q.bitmap j = true := (hbits j).mpr (.inr hin)
    rw [if_pos ⟨hx,hin⟩,hset]
    simp only [Bool.toNat_true]
    omega
  have hsame : bit q.bitmap j = bit r.pmm.bitmap j := by
    rw [Bool.eq_iff_iff,hbits j]
    simp [hin]
  rw [if_neg fun hboth => hin hboth.2,hsame]
  exact hj

theorem Balanced.live_free (h : Balanced p₀ r) {x : Nat × Nat} (hx : x ∈ r.live) {j : Nat}
    (hin : p₀.covers j x = true) : bit p₀.bitmap j = true := by
  have hj := h.once j
  have hpos : 0 < r.live.countP (p₀.covers j) := countP_pos_iff.mpr ⟨x,hx,hin⟩
  by_contra hno
  rw [not_eq_true] at hno
  rw [hno,toNat_false] at hj
  omega

theorem Laid.free_inside (h : Laid map p₀) {j : Nat} (hj : bit p₀.bitmap j = true) :
    j < p₀.totalFrames ∧ p₀.isReserved (p₀.baseAddr+j*frameSize) = false := by
  obtain ⟨helig,e,he,hk,hin⟩ := (h.free j).mp hj
  have htop := (h.usable e he hk).2
  have hend := h.ranged.top
  refine ⟨?_,(h.isReserved_eq_false _).mpr ⟨helig.1,helig.2,fun d hd hdin => ?_⟩⟩
  · have := hin.2
    simp only [frameSize] at *
    omega
  obtain ⟨hd,hdk⟩ := mem_filter.mp (mem_of_mem_take hd)
  refine map.not_both he hd ?_ ⟨hin,hdin⟩
  rintro rfl
  simp [hk] at hdk

theorem Balanced.step (hlaid : Laid map p₀) (h : Balanced p₀ r) {op : FrameOp} (hop : Matched r op) :
    Yields (r.step op) (Balanced p₀) := by
  intro r' hr'
  have hinside : ∀ x ∈ r.live, ∀ j, p₀.covers j x = true → p₀.baseAddr ≤ x.1 ∧ x.1 < p₀.topAddr ∧
      j < p₀.totalFrames ∧ p₀.isReserved (p₀.baseAddr+j*frameSize) = false := by
    intro x hx j hj
    obtain ⟨hpos,i,hi⟩ := h.placed x hx
    obtain ⟨hlt,hres⟩ := hlaid.free_inside (h.live_free hx hj)
    have htop := hlaid.ranged.top
    simp only [Pmm.covers,hi,Pmm.index_addr,and_eq_true,decide_eq_true_eq] at hj
    simp only [frameSize] at *
    exact ⟨by omega,by omega,hlt,hres⟩
  cases op with
  | allocFrame =>
    simp only [Paired.step,bind_eq_bind,bind_eq_some_iff,some.injEq] at hr'
    obtain ⟨⟨q,addr⟩,halloc,rfl⟩ := hr'
    obtain ⟨hq,htook⟩ := allocFrame_spec h.counted halloc
    exact h.took hq htook fun _ => Nat.one_pos
  | allocFramesContiguous count =>
    simp only [Paired.step,bind_eq_bind,bind_eq_some_iff,some.injEq] at hr'
    obtain ⟨⟨q,addr⟩,halloc,rfl⟩ := hr'
    obtain ⟨hq,htook⟩ := allocFramesContiguous_spec h.counted halloc
    refine h.took hq htook fun hsome => Nat.pos_of_ne_zero fun hzero => ?_
    rw [allocFramesContiguous,if_pos (.inl hzero),some.injEq,Prod.mk.injEq] at halloc
    exact hsome halloc.2.symm
  | freeFrame addr =>
    obtain rfl := some.inj hr'
    obtain ⟨hq,hbits⟩ := freeFrame_spec h.counted hlaid.ranged addr
    refine h.gave hq hop fun j => (hbits j).trans (or_congr_right ⟨?_,fun hj => ?_⟩)
    · rintro ⟨-,-,-,rfl⟩
      simp [Pmm.covers]
    obtain ⟨hlo,hhi,-,hres⟩ := hinside _ hop j hj
    obtain ⟨-,i,hi⟩ := h.placed _ hop
    simp only [Pmm.covers,and_eq_true,decide_eq_true_eq] at hj
    obtain rfl : j = p₀.index addr := by omega
    dsimp only at hi
    rw [hi,Pmm.index_addr,← hi] at hres
    exact ⟨hlo,hhi,hres,rfl⟩
  | freeFramesContiguous base count =>
    simp only [Paired.step,bind_eq_bind,bind_eq_some_iff,some.injEq] at hr'
    obtain ⟨q,hfree,rfl⟩ := hr'
    obtain ⟨hq,hbits⟩ := freeFramesContiguous_spec h.counted hlaid.ranged hfree
    refine h.gave hq hop fun j => (hbits j).trans (or_congr_right ⟨fun hj => ?_,fun hj => ?_⟩)
    · simp [Pmm.covers,hj]
    · obtain ⟨hlo,hhi,hlt,hres⟩ := hinside _ hop j hj
      simp only [Pmm.covers,and_eq_true,decide_eq_true_eq] at hj
      exact ⟨hlo,hhi,hj.1,hj.2,hlt,hres⟩

theorem pairwise_of_countP_le {α β : Type} {c : β → α → Bool} {l : List α} (h : ∀ i, l.countP (c i) ≤ 1) :
    l.Pairwise fun x y => ∀ i, ¬ (c i x = true ∧ c i y = true) := by
  induction l with
  | nil => exact .nil
  | cons x l ih =>
    refine pairwise_cons.mpr ⟨fun y hy i hboth => ?_,ih fun i => ?_⟩
    · have hle := h i
      have hpos : 0 < l.countP (c i) := countP_pos_iff.mpr ⟨y,hy,hboth.2⟩
      rw [countP_cons,if_pos hboth.1] at hle
      omega
    · exact le_trans ((sublist_cons_self x l).countP_le) (h i)

theorem Balanced.orderly (hlaid : Laid map p₀) (h : Balanced p₀ r) : Orderly map r := by
  have hcovers : ∀ x ∈ r.live, ∀ addr, InAlloc x addr → p₀.baseAddr ≤ addr ∧
      p₀.covers (p₀.index addr) x = true := by
    intro x hx addr hin
    obtain ⟨-,i,hi⟩ := h.placed x hx
    simp only [InAlloc,Pmm.covers,hi,and_eq_true,decide_eq_true_eq,Pmm.index,frameSize] at *
    omega
  have hle : ∀ i, r.live.countP (p₀.covers i) ≤ 1 := by
    intro i
    have := h.once i
    have := toNat_le (bit p₀.bitmap i)
    omega
  have hphys : r.pmm.bitmapPhys = p₀.bitmapPhys := congrArg (·.2.2.2.1) h.counted.shape
  have hbytes : r.pmm.bitmapBytes = p₀.bitmapBytes := congrArg (·.2.2.2.2.1) h.counted.shape
  have htotal : r.pmm.totalFrames = p₀.totalFrames := congrArg (·.1) h.counted.shape
  refine ⟨?_,fun x hx addr hin => ?_,fun n q hfail hpos start => ?_,h.counted.count⟩
  · refine (pairwise_of_countP_le hle).imp_of_mem fun hx hy hno addr hboth => ?_
    exact hno _ ⟨(hcovers _ hx addr hboth.1).2,(hcovers _ hy addr hboth.2).2⟩
  · obtain ⟨hlo,hcov⟩ := hcovers x hx addr hin
    obtain ⟨helig,husable⟩ := (hlaid.bit_index hlo).mp (h.live_free hx hcov)
    rw [hphys,hbytes]
    exact ⟨le_trans helig.1 (alignDown_le addr),husable,helig.2⟩
  · by_cases hend : start+n ≤ r.pmm.totalFrames
    · rw [allocFramesContiguous,if_neg (by omega)] at hfail
      cases hfind : findRun r.pmm.bitmap n r.pmm.totalFrames 0 0 0 with
      | none =>
        exact findRun_none hfind hpos (le_refl 0) (fun hlt => absurd hlt (by omega)) (by omega) (by omega)
      | some i =>
        rw [hfind] at hfail
        simp [bind_eq_some_iff] at hfail
    · refine ⟨n-1,by omega,?_⟩
      by_contra hset
      rw [not_eq_false] at hset
      have honce := h.once (start+(n-1))
      rw [hset,toNat_true] at honce
      have hfree : bit p₀.bitmap (start+(n-1)) = true := by
        by_contra hno
        rw [not_eq_true] at hno
        rw [hno,toNat_false] at honce
        omega
      have := (hlaid.free_inside hfree).1
      omega

/-- Over every run whose frees are paired with live allocations. -/
theorem paired_orderly (map : BootMap) (p₀ : Pmm)
    (hinit : init map.entries = some (some p₀)) (ops : List FrameOp)
    (hops : Along Paired.step Matched ⟨p₀,[]⟩ ops) : Yields (run Paired.step ⟨p₀,[]⟩ ops) (Orderly map) := by
  have hlaid := init_laid hinit
  have hstart : Balanced p₀ ⟨p₀,[]⟩ := ⟨⟨rfl,hlaid.count⟩,by simp,by simp⟩
  have hrun := run_yields Matched (fun r op h hop => h.step hlaid hop) hstart
    (fun p a t => hops.at_prefix p a t) ops (prefix_refl _)
  exact hrun.mono fun r hr => hr.orderly hlaid

theorem holedMap_orderly : Returns (run Paired.step ⟨holedPool,[]⟩ [.allocFramesContiguous 2,.allocFrame,
      .freeFramesContiguous 0x103000 2,.freeFrame 0x101000]) (Orderly holedMap) :=
  (paired_orderly holedMap holedPool (by decide +kernel) _ (by decide +kernel)).returns (by decide +kernel)

end PaghOS.Frames
