import PaghOS.Mm.Tracking

/-!
`mprotect` against what later accesses find. The protection of a page is in its leaf
while it is resident and in the record of its region, or nowhere for the heap, while
it is not; the fault handler knows the record alone.
-/

namespace PaghOS.Mm
open Option List
open Elf (userAddrMax)

inductive Access where
  | read
  | write (data : List UInt8)
  | exec

structure Rights where
  writable : Bool
  nx : Bool
  deriving DecidableEq

def allowed : Option Rights → Access → Bool
  | none,_ => false
  | some _,.read => true
  | some r,.write _ => r.writable
  | some r,.exec => !r.nx

/-- What a protection asks for. Reads cannot be kept from a page that may be written
or executed. -/
def permits (prot : UInt32) : Access → Bool
  | .read => prot &&& 7 ≠ 0
  | .write _ => prot &&& protWrite ≠ 0
  | .exec => prot &&& protExec ≠ 0

def wanted (prot : UInt32) : Option Rights :=
  if prot &&& 7 = 0 then none else some ⟨(protToFlags prot).1,(protToFlags prot).2⟩

def Leaf.rights (leaf : Leaf) : Rights := ⟨leaf.writable,leaf.nx⟩

def MmapRegion.rights (r : MmapRegion) : Option Rights :=
  if r.prot = 0 ∨ r.anon = false then none else some ⟨r.writable,r.nx⟩

def VmRegionSet.inHeap (vm : VmRegionSet) (page : Nat) : Prop :=
  vm.brkLazyFrom ≤ page ∧ page < pageUp vm.currentBrk

instance (vm : VmRegionSet) (page : Nat) : Decidable (vm.inHeap page) := by
  unfold VmRegionSet.inHeap; infer_instance

/-- `handle_user_page_fault` on a page that is not present, with a frame to spare:
the leaf it puts there. -/
def faultLeaf (vm : VmRegionSet) (page : Nat) : Option Leaf :=
  if userAddrMax ≤ page then none
  else if vm.inHeap page then some ⟨true,true,zeroPage⟩
  else
    match vm.mmaps.find? (·.holds page) with
    | none => none
    | some r =>
      if r.prot = 0 then none
      else if r.anon = false then none
      else some ⟨r.writable,r.nx,zeroPage⟩

def Leaf.touched (leaf : Leaf) : Access → Leaf
  | .write data => if leaf.writable then { leaf with data := data } else leaf
  | _ => leaf

/-- An access to a page. A missing page is faulted in and the access made again; no
page is shared with a forked child, so that a violation is final. -/
def Space.access (s : Space) (page : Nat) (a : Access) : Bool × Space :=
  match s.pt page with
  | some leaf => (allowed (some leaf.rights) a,{ s with pt := s.pt.set page (some (leaf.touched a)) })
  | none =>
    match faultLeaf s.vm page with
    | some leaf =>
      (allowed (some leaf.rights) a,{ s with pt := s.pt.set page (some (leaf.touched a)) })
    | none => (false,s)

def Space.accesses (s : Space) (as : List (Nat × Access)) : Space :=
  as.foldl (fun s p => (s.access p.1 p.2).2) s

def Space.rights (s : Space) (page : Nat) : Option Rights :=
  match s.pt page with
  | some leaf => some leaf.rights
  | none => (faultLeaf s.vm page).map Leaf.rights

def Space.content (s : Space) (page : Nat) : Option (List UInt8) :=
  match s.pt page with
  | some leaf => some leaf.data
  | none =>
    if s.vm.inHeap page then some zeroPage
    else
      match s.vm.mmaps.find? (·.holds page) with
      | none => none
      | some r => if r.anon then some zeroPage else none

theorem permits_eq (prot : UInt32) (a : Access) : permits prot a = allowed (wanted prot) a := by
  have hw : prot &&& 7 = 0 → prot &&& protWrite = 0 ∧ prot &&& protExec = 0 := by
    intro h
    constructor
    · rw [show protWrite = 7 &&& protWrite from rfl,← UInt32.and_assoc,h]
      rfl
    · rw [show protExec = 7 &&& protExec from rfl,← UInt32.and_assoc,h]
      rfl
  unfold wanted
  split
  · rename_i h
    cases a <;> simp [permits,allowed,h,hw h]
  · rename_i h
    cases a <;> simp [permits,allowed,h,protToFlags]

theorem allowed_inj {r r' : Option Rights} (h : ∀ a, allowed r a = allowed r' a) : r = r' := by
  have hread := h .read
  have hwrite := h (.write [])
  have hexec := h .exec
  cases r with
  | none =>
    cases r' with
    | none => rfl
    | some q => simp [allowed] at hread
  | some p =>
    cases r' with
    | none => simp [allowed] at hread
    | some q =>
      cases p
      cases q
      simp_all [allowed]

theorem Leaf.rights_touched (leaf : Leaf) (a : Access) : (leaf.touched a).rights = leaf.rights := by
  cases a with
  | write data =>
    simp only [Leaf.touched]
    split <;> rfl
  | read => rfl
  | exec => rfl

theorem access_fst (s : Space) (page : Nat) (a : Access) :
    (s.access page a).1 = allowed (s.rights page) a := by
  unfold Space.access Space.rights
  cases s.pt page with
  | some leaf => rfl
  | none => cases faultLeaf s.vm page <;> rfl

theorem access_rights (s : Space) (page q : Nat) (a : Access) :
    (s.access page a).2.rights q = s.rights q := by
  unfold Space.access
  cases hp : s.pt page with
  | some leaf =>
    by_cases hq : q = page
    · subst hq
      simp [Space.rights,PageTable.set,hp,Leaf.rights_touched]
    · simp [Space.rights,PageTable.set,hq]
  | none =>
    cases hf : faultLeaf s.vm page with
    | none => rfl
    | some leaf =>
      by_cases hq : q = page
      · subst hq
        simp [Space.rights,PageTable.set,hp,hf,Leaf.rights_touched]
      · simp [Space.rights,PageTable.set,hq]

theorem accesses_rights (s : Space) (as : List (Nat × Access)) (page : Nat) :
    (s.accesses as).rights page = s.rights page := by
  induction as generalizing s with
  | nil => rfl
  | cons p as ih => exact (ih _).trans (access_rights s p.1 page p.2)

/-- What `mprotect` promises for `[addr,addr+pages)`: every later access, after any
others, succeeds as the protection says; what the pages hold is kept; and no page
outside behaves differently. -/
structure Protected (s t : Space) (addr pages : Nat) (prot : UInt32) : Prop where
  inside : ∀ (as : List (Nat × Access)) (page : Nat), InPages addr pages page →
    ∀ a, ((t.accesses as).access page a).1 = permits prot a
  content : ∀ page, InPages addr pages page → t.content page = s.content page
  outside : ∀ page, page%pageSize = 0 → page < userAddrMax → ¬ InPages addr pages page →
    t.pt page = s.pt page ∧ faultLeaf t.vm page = faultLeaf s.vm page ∧
      t.content page = s.content page

section Reprotect

variable (pt : PageTable) (addr : Nat) (writable nx drop : Bool)

def reprotectPage (page : Nat) : PageTable :=
  match pt page with
  | some leaf => pt.set page (if drop then none else some { leaf with writable := writable, nx := nx })
  | none => pt

theorem reprotectPage_self (page : Nat) : reprotectPage pt writable nx drop page page =
    (pt page).bind (fun leaf =>
      if drop then none else some { leaf with writable := writable, nx := nx }) := by
  unfold reprotectPage
  cases hp : pt page with
  | none => simp [hp]
  | some leaf => simp [PageTable.set]

theorem reprotectPage_of_ne {page q : Nat} (h : q ≠ page) :
    reprotectPage pt writable nx drop page q = pt q := by
  unfold reprotectPage
  cases hp : pt page with
  | none => rfl
  | some leaf => simp [PageTable.set,h]

theorem reprotect_succ (n : Nat) : reprotect pt addr (n+1) writable nx drop =
    reprotectPage (reprotect pt addr n writable nx drop) writable nx drop (addr+n*pageSize) := by
  simp only [reprotect,range_succ,foldl_append,foldl_cons,foldl_nil]
  rfl

theorem reprotect_outside {n page : Nat} (h : ¬ InPages addr n page) :
    reprotect pt addr n writable nx drop page = pt page := by
  induction n with
  | zero => rfl
  | succ n ih =>
    have hlast : page ≠ addr+n*pageSize := fun hp => h ⟨n,by omega,hp⟩
    have hn : ¬ InPages addr n page := fun ⟨i,hi,hp⟩ => h ⟨i,by omega,hp⟩
    rw [reprotect_succ,reprotectPage_of_ne _ _ _ _ hlast,ih hn]

theorem reprotect_inside {n i : Nat} (h : i < n) : reprotect pt addr n writable nx drop (addr+i*pageSize) =
      (pt (addr+i*pageSize)).bind (fun leaf =>
        if drop then none else some { leaf with writable := writable, nx := nx }) := by
  induction n with
  | zero => omega
  | succ n ih =>
    rw [reprotect_succ]
    by_cases hi : i = n
    · subst hi
      have hfresh : ¬ InPages addr i (addr+i*pageSize) := by
        rintro ⟨j,hj,hp⟩
        have := page_inj hp
        omega
      rw [reprotectPage_self,reprotect_outside pt addr writable nx drop hfresh]
    · have hne : addr+i*pageSize ≠ addr+n*pageSize := fun hp => hi (page_inj hp)
      rw [reprotectPage_of_ne _ _ _ _ hne,ih (by omega)]

end Reprotect

section Record

/-- The region lies in the range; only then its record follows the call. -/
def MmapRegion.Within (r : MmapRegion) (addr pages : Nat) : Prop :=
  addr ≤ r.base ∧ r.rend ≤ min (addr+min (pages*pageSize) u64Max) u64Max

instance (r : MmapRegion) (addr pages : Nat) : Decidable (r.Within addr pages) := by
  unfold MmapRegion.Within; infer_instance

def MmapRegion.reprotected (r : MmapRegion) (addr pages : Nat) (prot : UInt32) : MmapRegion :=
  if r.Within addr pages then
    { r with writable := (protToFlags prot).1, nx := (protToFlags prot).2, prot := prot }
  else r

variable {addr pages : Nat} {prot : UInt32} {r : MmapRegion} {page : Nat}

theorem holds_reprotected : (r.reprotected addr pages prot).holds page = r.holds page := by
  unfold MmapRegion.reprotected
  split <;> rfl

theorem anon_reprotected : (r.reprotected addr pages prot).anon = r.anon := by
  unfold MmapRegion.reprotected
  split <;> rfl

theorem find_reprotected (regions : List MmapRegion) :
    (regions.map (·.reprotected addr pages prot)).find? (·.holds page) =
      (regions.find? (·.holds page)).map (·.reprotected addr pages prot) := by
  rw [find?_map]
  congr 2
  funext r
  exact holds_reprotected

theorem reprotected_outside (hr : r.holds page = true) (hpage : page%pageSize = 0)
    (haddr : addr%pageSize = 0) (hmax : page < userAddrMax) (hout : ¬ InPages addr pages page) :
    r.reprotected addr pages prot = r := by
  unfold MmapRegion.reprotected
  rw [if_neg]
  intro hw
  rw [holds_iff] at hr
  rw [inPages_iff haddr] at hout
  have hlt := userAddrMax_lt
  simp only [MmapRegion.Within,MmapRegion.rend,MmapRegion.stop] at hw hr
  omega

end Record

/-- The process can get the page back as zeros. -/
def Space.Anonymous (s : Space) (page : Nat) : Prop :=
  s.vm.inHeap page ∨ (s.vm.mmaps.find? (·.holds page)).any (·.anon) = true

/-- A page that will be faulted in comes with the protection asked for. Heap pages are
always writable and never executable. A region in the range has its new record, which
is of no use to a page of a file. Any other region has the record it had. -/
def Space.Recorded (s : Space) (addr pages : Nat) (prot : UInt32) (page : Nat) : Prop :=
  if userAddrMax ≤ page then wanted prot = none
  else if s.vm.inHeap page then wanted prot = some ⟨true,true⟩
  else
    match s.vm.mmaps.find? (·.holds page) with
    | none => wanted prot = none
    | some r =>
      if r.Within addr pages then wanted prot = none ↔ prot = 0 ∨ r.anon = false
      else wanted prot = r.rights

/-- A resident page is given its bits, if the protection asks for any of them; taking
all access away drops it, so that it must hold zeros and be anonymous. -/
def Space.Keeps (s : Space) (addr pages : Nat) (prot : UInt32) (page : Nat) : Prop :=
  match s.pt page with
  | none => s.Recorded addr pages prot page
  | some leaf =>
    if prot = 0 then leaf.data = zeroPage ∧ s.Anonymous page ∧ s.Recorded addr pages prot page
    else wanted prot ≠ none

instance (s : Space) (page : Nat) : Decidable (s.Anonymous page) :=
  inferInstanceAs (Decidable (_ ∨ _))

instance (s : Space) (addr pages : Nat) (prot : UInt32) (page : Nat) :
    Decidable (s.Recorded addr pages prot page) := by
  unfold Space.Recorded
  cases s.vm.mmaps.find? (·.holds page) <;> infer_instance

instance (s : Space) (addr pages : Nat) (prot : UInt32) (page : Nat) :
    Decidable (s.Keeps addr pages prot page) := by
  unfold Space.Keeps
  cases s.pt page <;> infer_instance

def Space.reprotected (s : Space) (addr pages : Nat) (prot : UInt32) : Space :=
  { s with
    pt := reprotect s.pt addr pages (protToFlags prot).1 (protToFlags prot).2 (prot = 0)
    vm := { s.vm with mmaps := s.vm.mmaps.map (·.reprotected addr pages prot) } }

theorem mprotectImpl_ok {s t : Space} {addr len v : Nat} {prot : UInt32}
    (h : mprotectImpl s addr len prot = (.ok v,t)) : addr%pageSize = 0 ∧ (len = 0 ∧ t = s ∨
      t = s.reprotected addr ((len+(pageSize-1))/pageSize) prot) := by
  unfold mprotectImpl at h
  split at h
  · simp at h
  rename_i haddr
  refine ⟨by omega,?_⟩
  split at h
  · rename_i hlen
    exact .inl ⟨hlen,(Prod.mk.inj h).2.symm⟩
  split at h
  · simp at h
  rename_i pages hpages
  dsimp only at h
  split at h
  · simp at h
  · rw [← pagesForLen_some hpages]
    exact .inr (Prod.mk.inj h).2.symm

variable {s : Space} {addr pages : Nat} {prot : UInt32} {page : Nat}

theorem rights_reprotected_region (r : MmapRegion) : (r.reprotected addr pages prot).rights = wanted prot ↔
      if r.Within addr pages then wanted prot = none ↔ prot = 0 ∨ r.anon = false
      else wanted prot = r.rights := by
  unfold MmapRegion.reprotected
  split
  · unfold MmapRegion.rights
    by_cases hnone : prot = 0 ∨ r.anon = false
    · rw [if_pos hnone,iff_true_right hnone,eq_comm]
    · rw [if_neg hnone,iff_false_right hnone,wanted]
      by_cases h7 : prot &&& 7 = 0 <;> simp [h7]
  · exact eq_comm

theorem inHeap_reprotected : (s.reprotected addr pages prot).vm.inHeap page ↔ s.vm.inHeap page :=
  Iff.rfl

theorem find_reprotected_space : (s.reprotected addr pages prot).vm.mmaps.find? (·.holds page) =
    (s.vm.mmaps.find? (·.holds page)).map (·.reprotected addr pages prot) :=
  find_reprotected s.vm.mmaps

theorem faultLeaf_reprotected :
    (faultLeaf (s.reprotected addr pages prot).vm page).map Leaf.rights = wanted prot ↔
      s.Recorded addr pages prot page := by
  unfold faultLeaf Space.Recorded
  simp only [inHeap_reprotected,find_reprotected_space]
  split
  · exact eq_comm
  split
  · exact eq_comm
  cases s.vm.mmaps.find? (·.holds page) with
  | none => exact eq_comm
  | some r =>
    refine Iff.trans ?_ (rights_reprotected_region r)
    simp only [map_some,MmapRegion.rights]
    by_cases h0 : (r.reprotected addr pages prot).prot = 0
    · simp [h0]
    · by_cases h1 : (r.reprotected addr pages prot).anon = false
      · simp [h0,h1]
      · simp [h0,h1,Leaf.rights]

theorem content_of_absent (hpt : s.pt page = none) (hpt' : (s.reprotected addr pages prot).pt page = none) :
    (s.reprotected addr pages prot).content page = s.content page := by
  simp only [Space.content,hpt,hpt',inHeap_reprotected,find_reprotected_space]
  cases s.vm.mmaps.find? (·.holds page) with
  | none => rfl
  | some r => simp only [map_some,anon_reprotected]

theorem content_of_dropped {data : List UInt8} (hpt' : (s.reprotected addr pages prot).pt page = none) :
    (s.reprotected addr pages prot).content page = some data ↔ data = zeroPage ∧ s.Anonymous page := by
  simp only [Space.content,hpt',inHeap_reprotected,find_reprotected_space]
  rw [eq_comm (a := data)]
  by_cases hh : s.vm.inHeap page
  · simp [hh,Space.Anonymous]
  simp only [hh,if_false,Space.Anonymous,false_or]
  cases s.vm.mmaps.find? (·.holds page) with
  | none => simp
  | some r => cases hr : r.anon <;> simp [anon_reprotected,hr]

theorem keeps_iff (h : InPages addr pages page) : (s.reprotected addr pages prot).rights page = wanted prot ∧
      (s.reprotected addr pages prot).content page = s.content page ↔ s.Keeps addr pages prot page := by
  obtain ⟨i,hi,rfl⟩ := h
  have hleaf : (s.reprotected addr pages prot).pt (addr+i*pageSize) = _ :=
    reprotect_inside s.pt addr (protToFlags prot).1 (protToFlags prot).2 (prot = 0) hi
  unfold Space.Keeps
  cases hpt : s.pt (addr+i*pageSize) with
  | none =>
    rw [hpt] at hleaf
    rw [content_of_absent hpt hleaf]
    simp [Space.rights,hleaf,faultLeaf_reprotected]
  | some leaf =>
    rw [hpt] at hleaf
    by_cases h0 : prot = 0
    · rw [bind_some,if_pos (decide_eq_true h0)] at hleaf
      have hs : s.content (addr+i*pageSize) = some leaf.data := by simp [Space.content,hpt]
      rw [hs,content_of_dropped hleaf]
      simp only [Space.rights,hleaf,faultLeaf_reprotected,if_pos h0]
      tauto
    · rw [bind_some,if_neg (by simp [h0])] at hleaf
      simp only [Space.rights,Space.content,hpt,hleaf,and_true,if_neg h0,wanted]
      by_cases h7 : prot &&& 7 = 0 <;> simp [h7,Leaf.rights]

theorem outside_reprotected (haddr : addr%pageSize = 0) (hpage : page%pageSize = 0)
    (hmax : page < userAddrMax) (hout : ¬ InPages addr pages page) :
    (s.reprotected addr pages prot).pt page = s.pt page ∧
      faultLeaf (s.reprotected addr pages prot).vm page = faultLeaf s.vm page ∧
      (s.reprotected addr pages prot).content page = s.content page := by
  have hpt : (s.reprotected addr pages prot).pt page = s.pt page :=
    reprotect_outside s.pt addr _ _ _ hout
  have hfind : (s.reprotected addr pages prot).vm.mmaps.find? (·.holds page) =
      s.vm.mmaps.find? (·.holds page) := by
    rw [find_reprotected_space]
    cases hr : s.vm.mmaps.find? (·.holds page) with
    | none => rfl
    | some r =>
      have hholds : r.holds page = true := by simpa using find?_some hr
      rw [map_some,reprotected_outside hholds hpage haddr hmax hout]
  refine ⟨hpt,?_,?_⟩
  · simp [faultLeaf,inHeap_reprotected,hfind]
  · simp [Space.content,hpt,inHeap_reprotected,hfind]

theorem protected_iff (haddr : addr%pageSize = 0) :
    Protected s (s.reprotected addr pages prot) addr pages prot ↔
      ∀ page, InPages addr pages page → s.Keeps addr pages prot page := by
  constructor
  · intro h page hp
    refine (keeps_iff hp).mp ⟨allowed_inj (fun a => ?_),h.content page hp⟩
    rw [← access_fst,← permits_eq]
    exact h.inside [] page hp a
  intro h
  refine ⟨fun as page hp a => ?_,fun page hp => ((keeps_iff hp).mpr (h page hp)).2,
    fun page hpage hmax hout => outside_reprotected haddr hpage hmax hout⟩
  rw [access_fst,accesses_rights,((keeps_iff hp).mpr (h page hp)).1,permits_eq]

/-- `mprotect` keeps its promise exactly when every page of the range does. -/
theorem mprotect_iff {t : Space} {len v : Nat} (h : mprotectImpl s addr len prot = (.ok v,t)) :
    Protected s t addr ((len+(pageSize-1))/pageSize) prot ↔
      ∀ page, InPages addr ((len+(pageSize-1))/pageSize) page →
        s.Keeps addr ((len+(pageSize-1))/pageSize) prot page := by
  obtain ⟨haddr,⟨rfl,rfl⟩ | rfl⟩ := mprotectImpl_ok h
  · have hempty : ∀ page, ¬ InPages addr ((0+(pageSize-1))/pageSize) page := by
      rintro page ⟨i,hi,-⟩
      simp [pageSize] at hi
    exact iff_of_true
      ⟨fun _ page hp => absurd hp (hempty page),fun page hp => absurd hp (hempty page),
        fun _ _ _ _ => ⟨rfl,rfl,rfl⟩⟩
      (fun page hp => absurd hp (hempty page))
  · exact protected_iff haddr

/-- Two anonymous pages that may be read and written, not touched yet, and one page of
heap. -/
def twoPages : Space :=
  let s := (sysMmap ⟨VmRegionSet.new 0x600000 userMmapBase,fun _ => none⟩ 0 8192 3 0x22 0 0 none 0).2
  { s with vm := brkImpl s.vm 0x601000 }

theorem mprotect_iff_twoPages :
    Protected twoPages (twoPages.reprotected userMmapBase 2 1) userMmapBase 2 1 := by
  refine (mprotect_iff (show mprotectImpl twoPages userMmapBase 8192 1 = (.ok 0,_) from rfl)).mpr ?_
  intro page hp
  obtain ⟨i,hi,rfl⟩ := hp
  have hi : i = 0 ∨ i = 1 := by
    simp only [pageSize] at hi
    omega
  rcases hi with rfl | rfl <;> decide +kernel

def firstWritten : Space := (twoPages.access userMmapBase (.write [7])).2

def closed : Except Errno Nat × Space := mprotectImpl firstWritten userMmapBase 8192 0

def reopened : Except Errno Nat × Space := mprotectImpl closed.2 userMmapBase 8192 3

/-- A page that is written, closed and opened again has lost its bytes. A page that is
closed for writing, but not its whole region, is still written. A heap page that is
closed is still read. -/
theorem protections_not_kept :
    (firstWritten.content userMmapBase = some [7] ∧ closed.1 = .ok 0 ∧ reopened.1 = .ok 0 ∧
      reopened.2.content userMmapBase ≠ some [7]) ∧ ((mprotectImpl twoPages userMmapBase 4096 1).1 = .ok 0 ∧
      ((mprotectImpl twoPages userMmapBase 4096 1).2.access userMmapBase (.write [7])).1 = true) ∧
    (mprotectImpl twoPages 0x600000 4096 0).1 = .ok 0 ∧
      ((mprotectImpl twoPages 0x600000 4096 0).2.access 0x600000 .read).1 = true := by
  decide +kernel

end PaghOS.Mm
