import PaghOS.Lib.Loop
import PaghOS.Mm.Tracking

/-!
The heap of a process that moves its break, reads and writes: pages come in zeroed on the
first touch, a higher break takes in what is mapped already, and a lower one leaves pages
where they are.
-/

namespace PaghOS.Mm
open Loop Option List
open Elf (userAddrMax userStackTop)

def Space.populate (s : Space) (page : Nat) (writable nx : Bool) (grants : Nat) : Option Space :=
  let (ok,pt) := mapZeroedRange s.pt page (page+pageSize) writable nx grants
  if ok then some { s with pt := pt } else none

def Space.handleUserPageFault (s : Space) (addr grants : Nat) : Option Space :=
  if addr ≥ userAddrMax then none
  else
    let page := pageDown addr
    if s.vm.brkLazyFrom ≤ page ∧ page < pageUp s.vm.currentBrk then s.populate page true true grants
    else
      match track s.vm.mmaps page with
      | none => none
      | some a => if a.prot = 0 ∨ a.anon = false then none else s.populate page a.writable a.nx grants

def Space.touch (s : Space) (addr grants : Nat) : Option Space :=
  if (s.pt (pageDown addr)).isSome then some s else s.handleUserPageFault addr grants

def Space.store (s : Space) (addr : Nat) (leaf : Leaf) (value : UInt8) : Space :=
  { s with pt := s.pt.set (pageDown addr) (some { leaf with data := leaf.data.set (addr%pageSize) value }) }

inductive HeapOp where
  | brk (requested : Nat)
  | read (addr grants : Nat)
  | write (addr : Nat) (value : UInt8) (grants : Nat)

/-- `written` has the addresses written since their page last entered the heap. -/
structure Heap where
  space : Space
  written : List Nat

/-- An access that faults changes nothing; a write to a page without write permission may
have brought the page in. -/
def Heap.step (h : Heap) : HeapOp → Heap
  | .brk requested =>
    let vm := brkImpl h.space.vm requested
    ⟨{ h.space with vm := vm },
      h.written.filter fun a => !(pageUp h.space.vm.currentBrk ≤ a && a < pageUp vm.currentBrk)⟩
  | .read addr grants => { h with space := (h.space.touch addr grants).getD h.space }
  | .write addr value grants =>
    match h.space.touch addr grants with
    | none => h
    | some s =>
      match s.pt (pageDown addr) with
      | some leaf =>
        if leaf.writable then ⟨s.store addr leaf value,addr :: h.written⟩
        else { h with space := s }
      | none => { h with space := s }

/-- A page the process has otherwise: of a region, the image or the stack. -/
def Foreign (s₀ : Space) (page : Nat) : Prop := track s₀.vm.mmaps page ≠ none ∨ s₀.pt page ≠ none

/-- A page between the first and the present break. -/
def InHeap (vm : VmRegionSet) (page : Nat) : Prop :=
  page%pageSize = 0 ∧ pageUp vm.initialBrk ≤ page ∧ page < pageUp vm.currentBrk

/-- Every byte of the heap that was not written reads as zero, once there is a frame for its
page, and no page above the break answers but those the process has otherwise. -/
structure FreshHeap (s₀ : Space) (h : Heap) : Prop where
  zero : ∀ addr, InHeap h.space.vm (pageDown addr) → addr ∉ h.written → ∀ grants, ∃ s leaf,
    h.space.touch addr (grants+1) = some s ∧ s.pt (pageDown addr) = some leaf ∧
      leaf.data[addr%pageSize]? = some 0
  above : ∀ addr, ¬ Foreign s₀ (pageDown addr) → h.space.vm.currentBrk ≤ pageDown addr →
    ∀ grants, h.space.touch addr grants = none

/-- The call raises the break: no region above it is in the way. -/
def Raises (vm : VmRegionSet) (requested : Nat) : Prop :=
  vm.currentBrk < requested ∧ requested < userAddrMax ∧
    ∀ r ∈ vm.mmaps, vm.currentBrk < r.base → requested < r.base

/-- A call that raises the break over a mapped page with a byte that is not zero, or lowers
it below a page of the heap that is mapped. -/
def Spoils (s₀ : Space) (h : Heap) : HeapOp → Prop
  | .brk requested =>
    (Raises h.space.vm requested ∧ ∃ page, page%pageSize = 0 ∧ pageUp h.space.vm.currentBrk ≤ page ∧
      page < pageUp requested ∧ ∃ leaf, h.space.pt page = some leaf ∧
        ∃ k < pageSize, leaf.data[k]? ≠ some 0) ∨
    (requested ≠ 0 ∧ h.space.vm.initialBrk ≤ requested ∧ ∃ page, page%pageSize = 0 ∧ pageUp requested ≤ page ∧
      page < pageUp h.space.vm.currentBrk ∧ ¬ Foreign s₀ page ∧ h.space.pt page ≠ none)
  | .read .. => False
  | .write .. => False

/-- After `exec`, with any regions and any page table. -/
structure AtStart (s : Space) : Prop where
  brk : s.vm.currentBrk = s.vm.initialBrk
  served : s.vm.brkLazyFrom = pageDown s.vm.initialBrk
  low : s.vm.initialBrk ≤ userAddrMax

/-! ### Steps -/

variable {s s' s₀ : Space} {h : Heap} {addr page grants : Nat}

theorem populate_one {writable nx : Bool} (hnone : s.pt page = none) (grants : Nat) :
    s.populate page writable nx (grants+1) = some
      { s with pt := s.pt.set page (some ⟨writable,nx,zeroPage⟩) } := by
  have heq := mapZeroedRange_eq s.pt page 1 writable nx (grants+1)
  rw [Nat.one_mul] at heq
  simp [Space.populate,heq,mapLoop,hnone]

theorem populate_some {writable nx : Bool} (hnone : s.pt page = none)
    (hp : s.populate page writable nx grants = some s') :
    s' = { s with pt := s.pt.set page (some ⟨writable,nx,zeroPage⟩) } := by
  cases grants with
  | zero =>
    have heq := mapZeroedRange_eq s.pt page 1 writable nx 0
    rw [Nat.one_mul] at heq
    simp [Space.populate,heq,mapLoop,hnone] at hp
  | succ grants => exact (some.inj ((populate_one hnone grants).symm.trans hp)).symm

theorem touch_some (ht : s.touch addr grants = some s') : (s' = s ∧ (s.pt (pageDown addr)).isSome = true) ∨
    (s.pt (pageDown addr) = none ∧
      (pageDown addr < pageUp s.vm.currentBrk ∨ track s.vm.mmaps (pageDown addr) ≠ none) ∧
      ∃ writable nx, s' = { s with pt := s.pt.set (pageDown addr) (some ⟨writable,nx,zeroPage⟩) }) := by
  unfold Space.touch at ht
  split at ht
  · next hsome => exact .inl ⟨(some.inj ht).symm,hsome⟩
  next hnone =>
  have hnone : s.pt (pageDown addr) = none := by simpa using hnone
  refine .inr ⟨hnone,?_⟩
  unfold Space.handleUserPageFault at ht
  split at ht
  · cases ht
  dsimp only at ht
  split at ht
  · next hheap => exact ⟨.inl hheap.2,_,_,populate_some hnone ht⟩
  split at ht
  · cases ht
  next htrack =>
  split at ht
  · cases ht
  · exact ⟨.inr (by simp [htrack]),_,_,populate_some hnone ht⟩

theorem touch_resident {leaf : Leaf} (hleaf : s.pt (pageDown addr) = some leaf) (grants : Nat) :
    s.touch addr grants = some s := by
  simp [Space.touch,hleaf]

theorem brkImpl_cases (vm : VmRegionSet) (requested : Nat) : brkImpl vm requested = vm ∨
    (requested ≠ 0 ∧ vm.initialBrk ≤ requested ∧ requested ≤ vm.currentBrk ∧
      brkImpl vm requested = { vm with currentBrk := requested }) ∨
    (Raises vm requested ∧ brkImpl vm requested =
      { vm with brkLazyFrom := min vm.brkLazyFrom (pageDown vm.currentBrk), currentBrk := requested }) := by
  unfold brkImpl planBrk
  dsimp only
  split
  · exact .inl rfl
  next hroom =>
  split_ifs with hout hle
  · exact .inl rfl
  · exact .inr (.inl ⟨by omega,by omega,hle,rfl⟩)
  · refine .inr (.inr ⟨⟨by omega,by omega,fun r hr hbase => ?_⟩,rfl⟩)
    -- the ceiling is the lowest base above the break
    by_contra hnot
    refine hroom ⟨by omega,Nat.le_trans ?_ (Nat.not_lt.1 hnot)⟩
    have hmem : r.base ∈ (vm.mmaps.map (·.base)).filter (· > vm.currentBrk) :=
      mem_filter.2 ⟨mem_map_of_mem hr,by simpa using hbase⟩
    cases hmin : ((vm.mmaps.map (·.base)).filter (· > vm.currentBrk)).min? with
    | none => rw [min?_eq_none_iff.1 hmin] at hmem; cases hmem
    | some low => exact (min?_eq_some_iff.1 hmin).2 _ hmem

theorem brkImpl_grows {vm : VmRegionSet} {requested : Nat} (hfloor : vm.initialBrk ≤ vm.currentBrk)
    (hgrows : Raises vm requested) : (brkImpl vm requested).currentBrk = requested := by
  obtain ⟨hlt,hmax,hroom⟩ := hgrows
  unfold brkImpl planBrk
  dsimp only
  rw [if_neg,if_neg (by omega),if_neg (by omega)]
  rintro ⟨-,hceil⟩
  cases hmin : ((vm.mmaps.map (·.base)).filter (· > vm.currentBrk)).min? with
  | none =>
    rw [hmin] at hceil
    exact Nat.not_lt.2 hceil hmax
  | some low =>
    rw [hmin] at hceil
    obtain ⟨hin,habove⟩ := mem_filter.1 (min?_eq_some_iff.1 hmin).1
    obtain ⟨r,hr,rfl⟩ := mem_map.1 hin
    exact Nat.not_lt.2 hceil (hroom r hr (by simpa using habove))

theorem brkImpl_shrinks {vm : VmRegionSet} {requested : Nat} (hne : requested ≠ 0)
    (hlo : vm.initialBrk ≤ requested) (hle : requested ≤ vm.currentBrk) (hmax : requested < userAddrMax) :
    (brkImpl vm requested).currentBrk = requested := by
  unfold brkImpl planBrk
  dsimp only
  rw [if_neg (by omega),if_neg (by omega),if_pos hle]

/-- Pages above the break are not there; those of the heap hold zeros where nothing was
written. -/
structure HeapInv (s₀ : Space) (h : Heap) : Prop where
  mmaps : h.space.vm.mmaps = s₀.vm.mmaps
  floor : h.space.vm.initialBrk ≤ h.space.vm.currentBrk
  low : h.space.vm.currentBrk ≤ userAddrMax
  lazy : h.space.vm.brkLazyFrom ≤ pageUp h.space.vm.initialBrk
  above : ∀ page, page%pageSize = 0 → ¬ Foreign s₀ page → pageUp h.space.vm.currentBrk ≤ page →
    h.space.pt page = none
  zero : ∀ page, InHeap h.space.vm page → ∀ leaf, h.space.pt page = some leaf → ∀ k < pageSize,
    page+k ∉ h.written → leaf.data[k]? = some 0

theorem zeroPage_get {k : Nat} (hk : k < pageSize) : zeroPage[k]? = some 0 := by
  simp [zeroPage,hk]

theorem pageDown_aligned (addr : Nat) : pageDown addr%pageSize = 0 := by simp [pageDown]

theorem pageDown_add (addr : Nat) : pageDown addr+addr%pageSize = addr := Nat.div_add_mod' _ _

theorem HeapInv.brk (hi : HeapInv s₀ h) {requested : Nat} (hop : ¬ Spoils s₀ h (.brk requested)) :
    HeapInv s₀ (h.step (.brk requested)) := by
  simp only [Spoils,not_or,not_and,not_exists] at hop
  simp only [Heap.step]
  rcases brkImpl_cases h.space.vm requested with heq | ⟨hne,hlo,hle,heq⟩ | ⟨hgrows,heq⟩ <;> rw [heq]
  · refine ⟨hi.mmaps,hi.floor,hi.low,hi.lazy,hi.above,fun page hpage leaf hleaf k hk hnot => ?_⟩
    refine hi.zero page hpage leaf hleaf k hk fun hmem => hnot (mem_filter.2 ⟨hmem,?_⟩)
    simp only [Bool.not_eq_true',Bool.and_eq_false_iff,decide_eq_false_iff_not]
    omega
  · -- lower: what the heap gives up is not mapped
    refine ⟨hi.mmaps,hlo,Nat.le_trans hle hi.low,hi.lazy,fun page hal hown hup => ?_,
      fun page hpage leaf hleaf k hk hnot => ?_⟩
    · by_cases hold : page < pageUp h.space.vm.currentBrk
      · exact not_ne_iff.1 (hop.2 hne hlo page hal hup hold hown)
      · exact hi.above page hal hown (Nat.not_lt.1 hold)
    · have hmono := pageUp_mono hle
      refine hi.zero page ⟨hpage.1,hpage.2.1,Nat.lt_of_lt_of_le hpage.2.2 hmono⟩ leaf hleaf k hk
        fun hmem => hnot (mem_filter.2 ⟨hmem,?_⟩)
      simp only [Bool.not_eq_true',Bool.and_eq_false_iff,decide_eq_false_iff_not]
      omega
  · -- higher: the pages it takes in hold zeros
    have hmono := pageUp_mono (Nat.le_of_lt hgrows.1)
    refine ⟨hi.mmaps,Nat.le_trans hi.floor (Nat.le_of_lt hgrows.1),Nat.le_of_lt hgrows.2.1,
      Nat.le_trans (Nat.min_le_left _ _) hi.lazy,
      fun page hal hown hup => hi.above page hal hown (Nat.le_trans hmono hup),
      fun page hpage leaf hleaf k hk hnot => ?_⟩
    by_cases hold : page < pageUp h.space.vm.currentBrk
    · refine hi.zero page ⟨hpage.1,hpage.2.1,hold⟩ leaf hleaf k hk fun hmem => hnot (mem_filter.2 ⟨hmem,?_⟩)
      have hal := pageUp_aligned h.space.vm.currentBrk
      have hpal := hpage.1
      simp only [Bool.not_eq_true',Bool.and_eq_false_iff,decide_eq_false_iff_not,pageSize] at *
      omega
    · exact not_not.1 (hop.1 hgrows page hpage.1 (Nat.not_lt.1 hold) hpage.2.2 leaf hleaf k hk)

theorem HeapInv.touched (hi : HeapInv s₀ h) (ht : h.space.touch addr grants = some s) :
    HeapInv s₀ { h with space := s } := by
  rcases touch_some ht with ⟨rfl,-⟩ | ⟨hnone,hserved,writable,nx,rfl⟩
  · exact hi
  refine ⟨hi.mmaps,hi.floor,hi.low,hi.lazy,fun page hal hown hup => ?_,
    fun page hpage leaf hleaf k hk hnot => ?_⟩
  · have hne : page ≠ pageDown addr := by
      rintro rfl
      rcases hserved with hlow | htrack
      · exact Nat.not_lt.2 hup hlow
      · exact hown (.inl (hi.mmaps ▸ htrack))
    simpa [hne] using hi.above page hal hown hup
  · by_cases heq : page = pageDown addr
    · simp only [heq,set_apply,if_true,some.injEq] at hleaf
      rw [← hleaf]
      exact zeroPage_get hk
    · simp only [set_apply,if_neg heq] at hleaf
      exact hi.zero page hpage leaf hleaf k hk hnot

theorem HeapInv.stored (hi : HeapInv s₀ h) {leaf : Leaf} (hleaf : h.space.pt (pageDown addr) = some leaf)
    (value : UInt8) : HeapInv s₀ ⟨h.space.store addr leaf value,addr :: h.written⟩ := by
  refine ⟨hi.mmaps,hi.floor,hi.low,hi.lazy,fun page hal hown hup => ?_,
    fun page hpage leaf' hleaf' k hk hnot => ?_⟩
  · have hnone := hi.above page hal hown hup
    have hne : page ≠ pageDown addr := by
      rintro rfl
      rw [hleaf] at hnone
      cases hnone
    simpa [Space.store,hne] using hnone
  · simp only [mem_cons,not_or] at hnot
    by_cases heq : page = pageDown addr
    · subst heq
      simp only [Space.store,set_apply,if_true,some.injEq] at hleaf'
      rw [← hleaf',List.getElem?_set_ne]
      · exact hi.zero _ hpage leaf hleaf k hk hnot.2
      · rintro rfl
        exact hnot.1 (pageDown_add addr)
    · simp only [Space.store,set_apply,if_neg heq] at hleaf'
      exact hi.zero page hpage leaf' hleaf' k hk hnot.2

theorem HeapInv.step (hi : HeapInv s₀ h) {op : HeapOp} (hop : ¬ Spoils s₀ h op) : HeapInv s₀ (h.step op) := by
  cases op with
  | brk requested => exact hi.brk hop
  | read addr grants =>
    simp only [Heap.step]
    cases ht : h.space.touch addr grants with
    | none => exact hi
    | some s => exact hi.touched ht
  | write addr value grants =>
    simp only [Heap.step]
    cases ht : h.space.touch addr grants with
    | none => exact hi
    | some s =>
      have hs := hi.touched ht
      cases hleaf : s.pt (pageDown addr) with
      | none => simpa [hleaf] using hs
      | some leaf =>
        simp only [hleaf]
        split
        · exact hs.stored hleaf value
        · exact hs

theorem HeapInv.fresh (hi : HeapInv s₀ h) : FreshHeap s₀ h := by
  constructor
  · intro addr hpage hnot grants
    have hk : addr%pageSize < pageSize := Nat.mod_lt _ (by decide)
    cases hleaf : h.space.pt (pageDown addr) with
    | some leaf =>
      refine ⟨_,leaf,touch_resident hleaf _,hleaf,hi.zero _ hpage leaf hleaf _ hk ?_⟩
      rwa [pageDown_add]
    | none =>
      have hlazy := Nat.le_trans hi.lazy hpage.2.1
      have hmax : ¬ addr ≥ userAddrMax := by
        have hup := pageUp_mono hi.low
        have hin := hpage.2.2
        have haddr := pageDown_add addr
        simp only [pageUp,pageDown,pageSize,u64Max,userAddrMax] at *
        omega
      have htouch : h.space.touch addr (grants+1) =
          h.space.populate (pageDown addr) true true (grants+1) := by
        simp only [Space.touch,hleaf,isSome_none,Bool.false_eq_true,if_false,Space.handleUserPageFault,
          if_neg hmax,hlazy,hpage.2.2,and_self,if_true]
      exact ⟨_,⟨true,true,zeroPage⟩,htouch.trans (populate_one hleaf grants),by simp,zeroPage_get hk⟩
  · intro addr hown hbrk grants
    have hup : pageUp h.space.vm.currentBrk ≤ pageDown addr := by
      simp only [pageUp,pageDown,pageSize] at *
      omega
    cases ht : h.space.touch addr grants with
    | none => rfl
    | some s =>
      rcases touch_some ht with ⟨rfl,hsome⟩ | ⟨-,hserved,-⟩
      · simp [hi.above _ (pageDown_aligned addr) hown hup] at hsome
      rcases hserved with hlow | htrack
      · exact absurd hlow (Nat.not_lt.2 hup)
      · exact absurd (.inl (hi.mmaps ▸ htrack)) hown

theorem HeapInv.spoiled (hi : HeapInv s₀ h) {op : HeapOp} (hop : Spoils s₀ h op) :
    ¬ FreshHeap s₀ (h.step op) := by
  intro hfresh
  cases op with
  | read => exact hop
  | write => exact hop
  | brk requested =>
    rcases hop with ⟨hgrows,page,hal,hlo,hhi,leaf,hleaf,k,hk,hbyte⟩ | ⟨hne,hlo,page,hal,hup,hcur,hown,hsome⟩
    · have hbrk := brkImpl_grows hi.floor hgrows
      have hdown : pageDown (page+k) = page := by
        simp only [pageDown,pageSize] at *
        omega
      have hmod : (page+k)%pageSize = k := by
        simp only [pageSize] at *
        omega
      have hin : InHeap (brkImpl h.space.vm requested) page := by
        refine ⟨hal,?_,by rw [hbrk]; exact hhi⟩
        rw [show (brkImpl h.space.vm requested).initialBrk = h.space.vm.initialBrk by
          rcases brkImpl_cases h.space.vm requested with heq | ⟨-,-,-,heq⟩ | ⟨-,heq⟩ <;> rw [heq]]
        exact Nat.le_trans (pageUp_mono hi.floor) hlo
      have hnot : page+k ∉ (h.step (.brk requested)).written := by
        intro hmem
        have hkeep := (mem_filter.1 hmem).2
        rw [hbrk] at hkeep
        have hal' := pageUp_aligned requested
        simp only [Bool.not_eq_true',Bool.and_eq_false_iff,decide_eq_false_iff_not] at hkeep
        simp only [pageSize] at hal hal' hk
        omega
      obtain ⟨s,leaf',ht,hleaf',hzero⟩ := hfresh.zero (page+k) (by rw [hdown]; exact hin) hnot 0
      rw [hdown] at hleaf'
      rw [touch_resident (by rw [hdown]; exact hleaf)] at ht
      obtain rfl := some.inj ht
      obtain rfl := some.inj (hleaf.symm.trans hleaf')
      exact hbyte (hmod ▸ hzero)
    · obtain ⟨leaf,hleaf⟩ := ne_none_iff_exists'.1 hsome
      have hle : requested ≤ h.space.vm.currentBrk := by
        by_contra hnot
        have := pageUp_mono (Nat.le_of_lt (Nat.not_le.1 hnot))
        omega
      have hmax : requested < userAddrMax := by
        by_contra hnot
        have heq : requested = h.space.vm.currentBrk := by have := hi.low; omega
        subst heq
        omega
      have hdown : pageDown page = page := by
        simp only [pageDown,pageSize] at *
        omega
      have habove : (brkImpl h.space.vm requested).currentBrk ≤ page := by
        rw [brkImpl_shrinks hne hlo hle hmax]
        exact Nat.le_trans (le_pageUp (Nat.le_of_lt hmax)) hup
      have hfault := hfresh.above page (by rwa [hdown]) (by rw [hdown]; exact habove) 0
      rw [touch_resident (by rw [hdown]; exact hleaf)] at hfault
      cases hfault

theorem HeapInv.start (hstart : AtStart s₀) : HeapInv s₀ ⟨s₀,[]⟩ := by
  refine ⟨rfl,Nat.le_of_eq hstart.brk.symm,by rw [hstart.brk]; exact hstart.low,?_,fun page _ hown _ => ?_,
    fun page hpage => ?_⟩
  · have hlow := hstart.low
    rw [hstart.served]
    simp only [pageUp,pageDown,pageSize,u64Max,userAddrMax] at *
    omega
  · exact not_ne_iff.1 fun hsome => hown (.inr hsome)
  · have hempty := hpage.2
    simp only [hstart.brk] at hempty
    omega

/-- The heap is fresh throughout a run of a process exactly when no call of the run raises
the break over bytes that are not zero or lowers it below a page of the heap that is
mapped. -/
theorem heap_fresh_iff (s₀ : Space) (hstart : AtStart s₀) (ops : List HeapOp) :
    (∀ p, p <+: ops → FreshHeap s₀ (p.foldl Heap.step ⟨s₀,[]⟩)) ↔
      ∀ p op, p ++ [op] <+: ops → ¬ Spoils s₀ (p.foldl Heap.step ⟨s₀,[]⟩) op :=
  foldl_safe_iff (f := Heap.step) (fun _ _ => True) (fun h (hi : HeapInv s₀ h) => hi.fresh)
    (fun _ _ hi _ hop => hi.step hop) (fun _ _ hi _ hop => hi.spoiled hop) (.start hstart) ops
    fun _ _ _ => trivial

/-- A process with one page of its stack in use. -/
def stackProcess : Space :=
  ⟨VmRegionSet.new 0x500000 userMmapBase,
    PageTable.set (fun _ => none) (userStackTop-pageSize) (some ⟨true,true,[7]⟩)⟩

theorem stackProcess_atStart : AtStart stackProcess := ⟨rfl,rfl,by decide +kernel⟩

/-- A byte is written in the new heap, and the break goes up again. -/
def growTwice : List HeapOp := [.brk 0x501000,.write 0x500010 7 1,.brk 0x502000]

theorem heap_fresh_grown : ((growTwice.foldl Heap.step ⟨stackProcess,[]⟩).space.pt 0x500000).map
      (fun leaf => leaf.data.take 18) = some (List.replicate 16 0 ++ [7,0]) ∧
    ∀ p, p <+: growTwice → FreshHeap stackProcess (p.foldl Heap.step ⟨stackProcess,[]⟩) := by
  refine ⟨by decide +kernel,(heap_fresh_iff stackProcess stackProcess_atStart growTwice).2 fun p op hp => ?_⟩
  -- the calls only raise the break, and only over pages that are not mapped
  have hclear : ∀ requested {h : Heap}, HeapInv stackProcess h → h.space.vm.currentBrk ≤ requested →
      pageUp requested ≤ 0x600000 → ¬ Spoils stackProcess h (.brk requested) := by
    rintro requested h hi hle hlow (⟨-,page,hal,hup,hbelow,leaf,hleaf,-⟩ | ⟨-,-,page,-,hup,hcur,-⟩)
    · have hne : page ≠ userStackTop-pageSize := by
        have : 0x600000 ≤ userStackTop-pageSize := by decide
        omega
      have hown : ¬ Foreign stackProcess page := by
        rintro (h | h)
        · exact h rfl
        · exact h (if_neg hne)
      rw [hi.above page hal hown hup] at hleaf
      cases hleaf
    · have := pageUp_mono hle
      omega
  have hi := HeapInv.start stackProcess_atStart
  have h₁ := hclear 0x501000 hi (by decide +kernel) (by decide +kernel)
  have h₂ : ∀ h, ¬ Spoils stackProcess h (.write 0x500010 7 1) := fun _ => id
  have h₃ := hclear 0x502000 ((hi.step h₁).step (h₂ _)) (by decide +kernel) (by decide +kernel)
  have hall : AlongFold Heap.step (fun h op => ¬ Spoils stackProcess h op) ⟨stackProcess,[]⟩ growTwice :=
    ⟨h₁,h₂ _,h₃,trivial⟩
  exact hall.at_prefix hp

/-- A page is touched and the break goes back below it. -/
def lowered : List HeapOp := [.brk 0x502000,.write 0x501000 7 1,.brk 0x501000]

/-- The page above the lower break still answers and is back with its old byte when the
break goes up again; and a break above the stack takes the stack into the heap. -/
theorem break_not_fresh : ¬ FreshHeap stackProcess (lowered.foldl Heap.step ⟨stackProcess,[]⟩) ∧
    ((lowered ++ [HeapOp.brk 0x502000]).foldl Heap.step ⟨stackProcess,[]⟩).written = [] ∧
    (((lowered ++ [HeapOp.brk 0x502000]).foldl Heap.step ⟨stackProcess,[]⟩).space.pt 0x501000).map
      (fun leaf => leaf.data.take 1) = some [7] ∧
    ¬ FreshHeap stackProcess ([HeapOp.brk userStackTop].foldl Heap.step ⟨stackProcess,[]⟩) := by
  refine ⟨fun hfresh => ?_,by decide +kernel,by decide +kernel,(HeapInv.start stackProcess_atStart).spoiled
    (show Spoils stackProcess ⟨stackProcess,[]⟩ (.brk userStackTop) from .inl ?_)⟩
  · have hown : ¬ Foreign stackProcess (pageDown 0x501000) := by
      rintro (h | h) <;> exact h (by decide +kernel)
    have hfault := hfresh.above 0x501000 hown (by decide +kernel) 0
    cases hfault
  · exact ⟨⟨by decide +kernel,by decide +kernel,nofun⟩,userStackTop-pageSize,by decide,by decide +kernel,
      by decide +kernel,⟨true,true,[7]⟩,by decide +kernel,0,by decide,by decide⟩

end PaghOS.Mm
