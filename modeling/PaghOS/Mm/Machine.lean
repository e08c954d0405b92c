import PaghOS.Lib.Radix
import PaghOS.Mm.Pages

/-!
`sys_mmap` with its frames counted: a four-level page table whose lower tables
`vmm::map` takes from the frame allocator, and the allocator as the number of its
free frames. `alloc_frame` fails when there is none. `unmap` clears a leaf and
leaves the tables above it. The frames behind the leaves belong to this address
space alone.
-/

namespace PaghOS.Mm
open List Function
open Elf (userAddrMax checkedAdd)
open Radix

structure Machine where
  vm : VmRegionSet
  root : Nat → Entry Leaf 3
  free : Nat

def p4Index (page : Nat) : Nat := page/0x8000000000

def walk (page : Nat) : List Nat := [page/0x40000000%512,page/0x200000%512,page/0x1000%512]

namespace Machine

def leaf (m : Machine) (page : Nat) : Option Leaf := lookup 3 (m.root (p4Index page)) (walk page)

def tablesMissing (m : Machine) (page : Nat) : Nat :=
  missing 3 (m.root (p4Index page)) (walk page)

def map (m : Machine) (page : Nat) (leaf : Leaf) : Bool × Machine :=
  let (ok,e,free) := insert leaf 3 (m.root (p4Index page)) (walk page) m.free
  (ok,{ m with root := Function.update m.root (p4Index page) e, free := free })

def update (m : Machine) (page : Nat) (f : Option Leaf → Option Leaf) : Machine :=
  { m with
    root := Function.update m.root (p4Index page)
      (modify f 3 (m.root (p4Index page)) (walk page)) }

def release (m : Machine) (page : Nat) : Machine :=
  if (m.leaf page).isSome then
    { vm := m.vm, root := (m.update page (fun _ => none)).root, free := m.free+1 }
  else m

def unwind (m : Machine) (pages : List Nat) : Machine := pages.foldl release m

def mapLoop (writable nx : Bool) :
    (n page : Nat) → (mapped : List Nat) → Machine → Bool × Machine
  | 0, _, _, m => (true,m)
  | n+1, page, mapped, m =>
    if (m.leaf page).isSome then mapLoop writable nx n (page+pageSize) mapped m
    else
      match m.free with
      | 0 => (false,m.unwind mapped)
      | free+1 =>
        match map { m with free := free } page ⟨writable,nx,zeroPage⟩ with
        | (false,m) => (false,unwind { m with free := m.free+1 } mapped)
        | (true,m) => mapLoop writable nx n (page+pageSize) (mapped ++ [page]) m

def mapZeroedRange (m : Machine) (start stop : Nat) (writable nx : Bool) : Bool × Machine :=
  m.mapLoop writable nx ((stop-start+(pageSize-1))/pageSize) start []

end Machine

/-- A request that has passed the checks. -/
structure MmapPlan where
  base : Nat
  pages : Nat
  prot : UInt64
  anon : Bool
  fixed : Bool
  file : Option FileNode
  off : Nat

namespace MmapPlan

def stop (p : MmapPlan) : Nat := p.base+p.pages*pageSize

def writable (p : MmapPlan) : Bool := (protToFlags p.prot.toUInt32).1

def nx (p : MmapPlan) : Bool := (protToFlags p.prot.toUInt32).2

def region (p : MmapPlan) : MmapRegion :=
  ⟨p.base,p.pages,p.writable,p.nx,p.prot.toUInt32,p.anon⟩

def eager (p : MmapPlan) : Bool := !p.anon && p.prot ≠ 0

def rangePages (p : MmapPlan) : List Nat := (List.range p.pages).map (fun i => p.base+i*pageSize)

end MmapPlan

def planMmap (vm : VmRegionSet) (addr len prot flags fd off : UInt64) (node : Option FileNode) :
    Except Errno MmapPlan :=
  let flags := flags.toUInt32
  if len = 0 ∨ flags &&& mapShared ≠ 0 ∨ flags &&& mapPrivate = 0 then .error .einval
  else if flags &&& ~~~(mapPrivate ||| mapAnonymous ||| mapFixed ||| mapIgnored) ≠ 0 then
    .error .einval
  else
    let anon := flags &&& mapAnonymous ≠ 0
    let fixed := flags &&& mapFixed ≠ 0
    match backing anon fd off node with
    | .error e => .error e
    | .ok file =>
      match pagesForLen len.toNat with
      | none => .error .enomem
      | some pages =>
        match checkedMul pages pageSize with
        | none => .error .enomem
        | some span =>
          match chooseBase vm addr.toNat pages fixed with
          | .error e => .error e
          | .ok base =>
            match checkedAdd base span with
            | none => .error .enomem
            | some stop =>
              if stop > userAddrMax then .error .enomem
              else .ok ⟨base,pages,prot,anon,fixed,file,off.toNat⟩

namespace Machine

def clear (m : Machine) (p : MmapPlan) : Machine :=
  if p.fixed then
    { m.unwind p.rangePages with
      vm := { m.vm with mmaps := cutRegions m.vm.mmaps p.base p.pages } }
  else m

def back (m : Machine) (p : MmapPlan) : Bool × Machine :=
  if p.eager then m.mapZeroedRange p.base p.stop p.writable p.nx else (true,m)

def record (m : Machine) (p : MmapPlan) : Machine :=
  { m with
    vm := { m.vm with
      mmaps := m.vm.mmaps ++ [p.region]
      mmapNextHint :=
        if !p.fixed && p.stop > m.vm.mmapNextHint then p.stop else m.vm.mmapNextHint } }

def copyFile (f : FileNode) (off base : Nat) : (n i : Nat) → Machine → Bool × Machine
  | 0, _, m => (true,m)
  | n+1, i, m =>
    match checkedAdd off (i*pageSize) with
    | none => (true,m)
    | some fileOff =>
      if fileOff ≥ f.size then (true,m)
      else
        match f.read fileOff (min pageSize (f.size-fileOff)) with
        | none => (false,m)
        | some buf =>
          if buf = [] then (true,m)
          else
            copyFile f off base n (i+1) (m.update (base+i*pageSize)
              (Option.map (fun leaf => { leaf with data := buf ++ leaf.data.drop buf.length })))

def commit (m : Machine) (p : MmapPlan) : Except Errno Nat × Machine :=
  match (m.clear p).back p with
  | (false,m) => (.error .enomem,m)
  | (true,m) =>
    match p.file with
    | none => (.ok p.base,m.record p)
    | some f =>
      let (ok,m) := (m.record p).copyFile f p.off p.base p.pages 0
      (if ok then .ok p.base else .error .einval,m)

def sysMmap (m : Machine) (addr len prot flags fd off : UInt64) (node : Option FileNode) :
    Except Errno Nat × Machine :=
  match planMmap m.vm addr len prot flags fd off node with
  | .error e => (.error e,m)
  | .ok p => m.commit p

end Machine

section Operations

variable {m : Machine} {page q : Nat} {leaf : Leaf}

theorem path_inj (hp : page%pageSize = 0) (hq : q%pageSize = 0) (hroot : p4Index q = p4Index page)
    (hwalk : walk q = walk page) : q = page := by
  simp only [walk,List.cons.injEq,and_true] at hwalk
  simp only [p4Index,pageSize] at *
  omega

theorem walk_length (page : Nat) : (walk page).length = 3 := rfl

theorem Machine.tablesMissing_of_leaf (h : m.leaf page = some leaf) : m.tablesMissing page = 0 :=
  missing_of_lookup h

theorem Machine.map_free (m : Machine) (page : Nat) (leaf : Leaf) :
    (m.map page leaf).1 = decide (m.tablesMissing page ≤ m.free) ∧
      (m.map page leaf).2.free = m.free-m.tablesMissing page ∧ (m.map page leaf).2.vm = m.vm := by
  obtain ⟨h₁,h₂⟩ := insert_free leaf (e := m.root (p4Index page)) (walk_length page) m.free
  exact ⟨h₁,h₂,rfl⟩

theorem lookup_of_path {α : Type} {root root' : Nat → Entry α 3} {v : Option α} (hp : page%pageSize = 0)
    (hq : q%pageSize = 0) (hother : ∀ i, i ≠ p4Index page → root' i = root i)
    (hthis : ∀ is, is.length = 3 → lookup 3 (root' (p4Index page)) is =
      if is = walk page then v else lookup 3 (root (p4Index page)) is) :
    lookup 3 (root' (p4Index q)) (walk q) = if q = page then v else lookup 3 (root (p4Index q)) (walk q) := by
  by_cases hroot : p4Index q = p4Index page
  · rw [hroot,hthis _ (walk_length q)]
    by_cases hwalk : walk q = walk page
    · simp [path_inj hp hq hroot hwalk]
    · have hne : q ≠ page := fun heq => hwalk (heq ▸ rfl)
      simp [hwalk,hne]
  · have hne : q ≠ page := fun heq => hroot (heq ▸ rfl)
    simp [hother _ hroot,hne]

namespace Machine

theorem leaf_map (hp : page%pageSize = 0) (hq : q%pageSize = 0) (h : m.tablesMissing page ≤ m.free) :
    (m.map page leaf).2.leaf q = if q = page then some leaf else m.leaf q := by
  refine lookup_of_path hp hq (fun i hi => update_of_ne hi _ _) fun is his => ?_
  simp only [Machine.map,update_self]
  rw [lookup_insert leaf (walk_length page) his]
  exact if_congr (and_iff_left h) rfl rfl

theorem leaf_map_failed (h : m.free < m.tablesMissing page) (q : Nat) :
    (m.map page leaf).2.leaf q = m.leaf q := by
  simp only [Machine.leaf,Machine.map]
  by_cases hroot : p4Index q = p4Index page
  · rw [hroot,update_self,lookup_insert leaf (walk_length page) (walk_length q)]
    exact if_neg fun hle => Nat.not_le.mpr h hle.2
  · simp [hroot]

theorem tablesMissing_map (h : m.tablesMissing page = 0) (q : Nat) :
    (m.map page leaf).2.tablesMissing q = m.tablesMissing q := by
  simp only [Machine.tablesMissing,Machine.map]
  by_cases hroot : p4Index q = p4Index page
  · rw [hroot,update_self]
    exact missing_insert leaf (walk_length page) (walk_length q) h
  · simp [hroot]

theorem leaf_update {f : Option Leaf → Option Leaf} (hf : f none = none)
    (hp : page%pageSize = 0) (hq : q%pageSize = 0) :
    (m.update page f).leaf q = if q = page then f (m.leaf page) else m.leaf q := by
  refine lookup_of_path hp hq (fun i hi => update_of_ne hi _ _) fun is his => ?_
  simp only [Machine.update,update_self]
  exact lookup_modify hf (walk_length page) his

theorem tablesMissing_update (m : Machine) (page : Nat) (f : Option Leaf → Option Leaf)
    (q : Nat) : (m.update page f).tablesMissing q = m.tablesMissing q := by
  simp only [Machine.tablesMissing,Machine.update]
  by_cases hroot : p4Index q = p4Index page
  · have hmod := missing_modify f (e := m.root (p4Index page)) (walk_length page) (walk_length q)
    rw [hroot,update_self,hmod]
  · simp [hroot]

theorem leaf_release (hp : page%pageSize = 0) (hq : q%pageSize = 0) :
    (m.release page).leaf q = if q = page then none else m.leaf q := by
  unfold Machine.release
  split
  · exact leaf_update rfl hp hq
  rename_i hnone
  by_cases heq : q = page
  · subst heq
    simpa using hnone
  · simp [heq]

theorem tablesMissing_release (m : Machine) (page q : Nat) :
    (m.release page).tablesMissing q = m.tablesMissing q := by
  unfold Machine.release
  split
  · exact m.tablesMissing_update page _ q
  · rfl

theorem release_vm (m : Machine) (page : Nat) : (m.release page).vm = m.vm := by
  unfold Machine.release
  split <;> rfl

theorem release_free (h : (m.leaf page).isSome = true) : (m.release page).free = m.free+1 := by
  simp [Machine.release,h]

theorem release_absent (h : m.leaf page = none) : m.release page = m := by
  simp [Machine.release,h]

end Machine

end Operations

section Unwinding

variable {m : Machine} {pages : List Nat}

namespace Machine

theorem unwind_cons (m : Machine) (page : Nat) (pages : List Nat) :
    m.unwind (page :: pages) = (m.release page).unwind pages := rfl

theorem leaf_unwind (hp : ∀ page ∈ pages, page%pageSize = 0) {q : Nat} (hq : q%pageSize = 0) :
    (m.unwind pages).leaf q = if q ∈ pages then none else m.leaf q := by
  induction pages generalizing m with
  | nil => simp [unwind]
  | cons page pages ih =>
    rw [forall_mem_cons] at hp
    rw [unwind_cons,ih hp.2,leaf_release hp.1 hq]
    by_cases hmem : q ∈ pages <;> by_cases heq : q = page <;> simp [hmem,heq]

theorem tablesMissing_unwind (m : Machine) (pages : List Nat) (q : Nat) :
    (m.unwind pages).tablesMissing q = m.tablesMissing q := by
  induction pages generalizing m with
  | nil => rfl
  | cons page pages ih => rw [unwind_cons,ih,tablesMissing_release]

theorem unwind_vm (m : Machine) (pages : List Nat) : (m.unwind pages).vm = m.vm := by
  induction pages generalizing m with
  | nil => rfl
  | cons page pages ih => rw [unwind_cons,ih,release_vm]

theorem unwind_free (hp : ∀ page ∈ pages, page%pageSize = 0) (hnodup : pages.Nodup)
    (hres : ∀ page ∈ pages, (m.leaf page).isSome = true) :
    (m.unwind pages).free = m.free+pages.length := by
  induction pages generalizing m with
  | nil => rfl
  | cons page pages ih =>
    rw [forall_mem_cons] at hp hres
    rw [nodup_cons] at hnodup
    have hrest : ∀ q ∈ pages, ((m.release page).leaf q).isSome = true := by
      intro q hq
      have hne : q ≠ page := fun heq => hnodup.1 (heq ▸ hq)
      rw [leaf_release hp.1 (hp.2 q hq),if_neg hne]
      exact hres.2 q hq
    rw [unwind_cons,ih hp.2 hnodup.2 hrest,release_free hres.1,length_cons]
    omega

theorem unwind_absent (h : ∀ page ∈ pages, m.leaf page = none) : m.unwind pages = m := by
  induction pages with
  | nil => rfl
  | cons page pages ih =>
    rw [forall_mem_cons] at h
    rw [unwind_cons,release_absent h.1,ih h.2]

end Machine

end Unwinding

def Machine.gaps (m : Machine) (page n : Nat) : Nat :=
  (List.range n).countP (fun i => (m.leaf (page+i*pageSize)).isNone)

/-- The frames give out before, or at, the first page that lacks a table. -/
def Machine.TablesReady (m : Machine) (page n : Nat) : Prop :=
  ∀ i, i < n → m.leaf (page+i*pageSize) = none → m.tablesMissing (page+i*pageSize) ≠ 0 →
    m.free ≤ m.gaps page (i+1)

section Loop

variable {m m' : Machine} {page n : Nat}

theorem Machine.gaps_zero (m : Machine) (page : Nat) : m.gaps page 0 = 0 := rfl

theorem page_succ (page i : Nat) : page+(i+1)*pageSize = page+pageSize+i*pageSize := by
  rw [Nat.succ_mul]
  omega

namespace Machine

theorem gaps_succ (m : Machine) (page n : Nat) :
    m.gaps page (n+1) = (if m.leaf page = none then 1 else 0)+m.gaps (page+pageSize) n := by
  simp only [gaps,range_succ_eq_map,countP_cons,countP_map,Nat.zero_mul,
    Nat.add_zero,Option.isNone_iff_eq_none]
  rw [Nat.add_comm]
  congr 1
  refine countP_congr fun i _ => ?_
  simp [page_succ]

theorem gaps_congr
    (h : ∀ i, i < n → (m'.leaf (page+i*pageSize) = none ↔ m.leaf (page+i*pageSize) = none)) :
    m'.gaps page n = m.gaps page n := by
  refine countP_congr fun i hi => ?_
  simp only [Option.isNone_iff_eq_none]
  exact h i (mem_range.mp hi)

theorem gaps_mono (m : Machine) (page : Nat) {i : Nat} (h : i ≤ n) : m.gaps page i ≤ m.gaps page n :=
  (range_sublist.mpr h).countP_le

theorem gaps_resident (h : (m.leaf page).isSome = true) :
    m.gaps page (n+1) = m.gaps (page+pageSize) n := by
  have hne : m.leaf page ≠ none := by simpa [Option.isSome_iff_ne_none] using h
  rw [gaps_succ,if_neg hne,Nat.zero_add]

theorem gaps_absent (h : m.leaf page = none) : m.gaps page (n+1) = m.gaps (page+pageSize) n+1 := by
  rw [gaps_succ,if_pos h,Nat.add_comm]

theorem tablesReady_resident (h : (m.leaf page).isSome = true) :
    m.TablesReady page (n+1) ↔ m.TablesReady (page+pageSize) n := by
  simp only [TablesReady,Nat.forall_lt_succ_left,page_succ,gaps_resident h,Nat.zero_mul,Nat.add_zero]
  exact and_iff_right fun hnone => by simp [hnone] at h

end Machine

variable {writable nx : Bool} {mapped : List Nat} {free : Nat}

namespace Machine

def filled (m : Machine) (writable nx : Bool) (page : Nat) : Machine :=
  (map { m with free := m.free-1 } page ⟨writable,nx,zeroPage⟩).2

theorem filled_vm (m : Machine) (writable nx : Bool) (page : Nat) :
    (m.filled writable nx page).vm = m.vm :=
  (map_free _ _ _).2.2

theorem filled_free (m : Machine) (writable nx : Bool) (page : Nat) :
    (m.filled writable nx page).free = m.free-1-m.tablesMissing page :=
  (map_free _ _ _).2.1

theorem leaf_filled (hp : page%pageSize = 0) {q : Nat} (hq : q%pageSize = 0)
    (h : m.tablesMissing page ≤ m.free-1) : (m.filled writable nx page).leaf q =
      if q = page then some ⟨writable,nx,zeroPage⟩ else m.leaf q :=
  leaf_map (m := { m with free := m.free-1 }) hp hq h

theorem leaf_filled_behind (hp : page%pageSize = 0) (h : m.tablesMissing page ≤ m.free-1) (i : Nat) :
    (m.filled writable nx page).leaf (page+pageSize+i*pageSize) = m.leaf (page+pageSize+i*pageSize) := by
  rw [leaf_filled hp (by simp only [pageSize] at *; omega) h,if_neg (by simp only [pageSize]; omega)]

theorem gaps_filled (hp : page%pageSize = 0) (h : m.tablesMissing page ≤ m.free-1) :
    (m.filled writable nx page).gaps (page+pageSize) n = m.gaps (page+pageSize) n :=
  gaps_congr fun i _ => by rw [leaf_filled_behind hp h]

theorem tablesMissing_filled (h : m.tablesMissing page = 0) (q : Nat) :
    (m.filled writable nx page).tablesMissing q = m.tablesMissing q :=
  tablesMissing_map (m := { m with free := m.free-1 }) h q

theorem mapLoop_resident (h : (m.leaf page).isSome = true) :
    m.mapLoop writable nx (n+1) page mapped = m.mapLoop writable nx n (page+pageSize) mapped := by
  rw [mapLoop,if_pos h]

/-- A page that is not there is mapped, or the loop ends with the tables as they were to
every walk and at most the page's own frame left. -/
theorem mapLoop_absent (writable nx : Bool) (h : m.leaf page = none) (n : Nat) (mapped : List Nat) :
    (m.tablesMissing page < m.free ∧ m.mapLoop writable nx (n+1) page mapped =
      (m.filled writable nx page).mapLoop writable nx n (page+pageSize) (mapped ++ [page])) ∨
    m.free ≤ m.tablesMissing page ∧ ∃ m₀ : Machine, m.mapLoop writable nx (n+1) page mapped =
      (false,m₀.unwind mapped) ∧ m₀.vm = m.vm ∧ (∀ q, m₀.leaf q = m.leaf q) ∧ m₀.free = min m.free 1 := by
  rw [mapLoop,if_neg (by simp [h])]
  cases hfree : m.free with
  | zero => exact .inr ⟨Nat.zero_le _,m,rfl,rfl,fun _ => rfl,by omega⟩
  | succ free =>
    have hfill : m.filled writable nx page = (map { m with free := free } page ⟨writable,nx,zeroPage⟩).2 := by
      simp [filled,hfree]
    obtain ⟨hok,hleft,hvm⟩ := map_free { m with free := free } page ⟨writable,nx,zeroPage⟩
    have hsame := @leaf_map_failed { m with free := free } page ⟨writable,nx,zeroPage⟩
    rw [show tablesMissing { m with free := free } page = m.tablesMissing page from rfl] at hok hleft hsame
    rw [hfill]
    dsimp only
    generalize map { m with free := free } page ⟨writable,nx,zeroPage⟩ = r at *
    obtain ⟨ok,r⟩ := r
    simp only at hok hleft hvm hsame
    by_cases htables : m.tablesMissing page ≤ free
    · rw [hok,decide_eq_true htables]
      exact .inl ⟨by omega,rfl⟩
    · rw [hok,decide_eq_false htables]
      exact .inr ⟨by omega,_,rfl,hvm,hsame (Nat.lt_of_not_le htables),by simp only; omega⟩

/-- The pages a run of the loop has mapped so far. -/
structure Mapped (m : Machine) (page : Nat) (mapped : List Nat) : Prop where
  aligned : ∀ q ∈ mapped, q%pageSize = 0
  before : ∀ q ∈ mapped, q < page
  resident : ∀ q ∈ mapped, (m.leaf q).isSome = true
  nodup : mapped.Nodup

theorem Mapped.nil (m : Machine) (page : Nat) : m.Mapped page [] := by
  constructor <;> simp

theorem Mapped.skip (h : m.Mapped page mapped) : m.Mapped (page+pageSize) mapped :=
  { h with before := fun q hq => Nat.lt_of_lt_of_le (h.before q hq) (Nat.le_add_right _ _) }

theorem Mapped.fill (h : m.Mapped page mapped) (hp : page%pageSize = 0)
    (htables : m.tablesMissing page ≤ m.free-1) :
    (m.filled writable nx page).Mapped (page+pageSize) (mapped ++ [page]) where
  aligned := forall_mem_append.mpr ⟨h.aligned,forall_mem_singleton.mpr hp⟩
  before := forall_mem_append.mpr ⟨h.skip.before,
    forall_mem_singleton.mpr (Nat.lt_add_of_pos_right (by decide))⟩
  resident := by
    refine forall_mem_append.mpr ⟨fun q hq => ?_,forall_mem_singleton.mpr ?_⟩
    · rw [leaf_filled hp (h.aligned q hq) htables,if_neg (Nat.ne_of_lt (h.before q hq))]
      exact h.resident q hq
    · rw [leaf_filled hp hp htables,if_pos rfl]
      rfl
  nodup := nodup_append.mpr ⟨h.nodup,nodup_cons.mpr ⟨not_mem_nil,nodup_nil⟩,
    fun q hq => forall_mem_singleton.mpr (Nat.ne_of_lt (h.before q hq))⟩

theorem tablesReady_filled (habsent : m.leaf page = none) (hp : page%pageSize = 0)
    (htables : m.tablesMissing page = 0) :
    m.TablesReady page (n+1) ↔ (m.filled writable nx page).TablesReady (page+pageSize) n := by
  have hle : m.tablesMissing page ≤ m.free-1 := by omega
  simp only [TablesReady,Nat.forall_lt_succ_left,page_succ,leaf_filled_behind hp hle,
    gaps_filled hp hle,gaps_absent habsent,tablesMissing_filled htables,filled_free,htables,
    Nat.zero_mul,Nat.add_zero,Nat.sub_zero,Nat.sub_le_iff_le_add]
  exact and_iff_right fun _ hne => absurd rfl hne

theorem mapLoop_failed (h : m.mapLoop writable nx n page mapped = (false,m'))
    (hp : page%pageSize = 0) (hmapped : m.Mapped page mapped) :
    m'.vm = m.vm ∧ (∀ q, q%pageSize = 0 → m'.leaf q = if q ∈ mapped then none else m.leaf q) ∧
      m'.free ≤ m.free+mapped.length ∧ (m'.free = m.free+mapped.length ↔ m.TablesReady page n) := by
  induction n generalizing m page mapped with
  | zero => simp [mapLoop] at h
  | succ n ih =>
    have hp' := (Nat.add_mod_right page pageSize).trans hp
    by_cases hres : (m.leaf page).isSome = true
    · rw [mapLoop_resident hres] at h
      rw [tablesReady_resident hres]
      exact ih h hp' hmapped.skip
    have habsent : m.leaf page = none := by simpa using hres
    obtain ⟨htables,heq⟩ | ⟨hlack,m₀,heq,hvm,hleaf,hfree⟩ := mapLoop_absent writable nx habsent n mapped
    · rw [heq] at h
      have hle : m.tablesMissing page ≤ m.free-1 := by omega
      obtain ⟨hvm,hleaf,hbound,hiff⟩ := ih h hp' (hmapped.fill hp hle)
      rw [filled_free,length_append,length_singleton] at hbound hiff
      refine ⟨by rw [hvm,filled_vm],?_,by omega,?_⟩
      · intro q hq
        rw [hleaf q hq,leaf_filled hp hq hle]
        by_cases hmem : q ∈ mapped <;> by_cases heq : q = page <;> simp [hmem,heq,habsent]
      by_cases hzero : m.tablesMissing page = 0
      · rw [tablesReady_filled habsent hp hzero,← hiff]
        omega
      refine iff_of_false (by omega) fun hready => ?_
      have := hready 0 (by omega) (by simpa using habsent) (by simpa using hzero)
      rw [gaps_absent habsent,gaps_zero] at this
      omega
    · rw [heq,Prod.mk.injEq] at h
      obtain ⟨-,rfl⟩ := h
      rw [unwind_free hmapped.aligned hmapped.nodup
        fun q hq => by rw [hleaf]; exact hmapped.resident q hq,hfree]
      refine ⟨(unwind_vm _ _).trans hvm,fun q hq => by rw [leaf_unwind hmapped.aligned hq,hleaf],by omega,?_⟩
      constructor
      · intro hlen i hi hnone hmissing
        rw [gaps_absent habsent]
        omega
      intro hready
      by_cases hzero : m.tablesMissing page = 0
      · omega
      have := hready 0 (by omega) (by simpa using habsent) (by simpa using hzero)
      rw [gaps_absent habsent,gaps_zero] at this
      omega

theorem mapLoop_done (h : m.mapLoop writable nx n page mapped = (true,m')) (hp : page%pageSize = 0) :
    m'.vm = m.vm ∧ (∀ q, q%pageSize = 0 → m'.leaf q =
        if m.leaf q = none ∧ page ≤ q ∧ q < page+n*pageSize then some ⟨writable,nx,zeroPage⟩
        else m.leaf q) ∧ m.gaps page n ≤ m.free ∧
      (∀ i, i < n → m.leaf (page+i*pageSize) = none → m.tablesMissing (page+i*pageSize) ≠ 0 →
        m.gaps page n < m.free) ∧
      ((∀ i, i < n → m.tablesMissing (page+i*pageSize) = 0) → m'.free+m.gaps page n = m.free) := by
  induction n generalizing m page mapped with
  | zero =>
    simp only [mapLoop,Prod.mk.injEq,true_and] at h
    subst h
    refine ⟨rfl,fun q hq => ?_,Nat.zero_le _,by omega,fun _ => rfl⟩
    rw [if_neg (by omega)]
  | succ n ih =>
    have hp' := (Nat.add_mod_right page pageSize).trans hp
    simp only [Nat.forall_lt_succ_left,page_succ,Nat.zero_mul,Nat.add_zero]
    by_cases hres : (m.leaf page).isSome = true
    · rw [mapLoop_resident hres] at h
      rw [gaps_resident hres]
      obtain ⟨hvm,hleaf,hgaps,hmissing,hfree⟩ := ih h hp'
      refine ⟨hvm,fun q hq => ?_,hgaps,⟨fun hnone => by simp [hnone] at hres,hmissing⟩,
        fun hall => hfree hall.2⟩
      rw [hleaf q hq]
      refine if_congr (and_congr_right fun hnone => ?_) rfl rfl
      have hne : q ≠ page := by
        rintro rfl
        simp [hnone] at hres
      simp only [pageSize] at *
      omega
    have habsent : m.leaf page = none := by simpa using hres
    rw [gaps_absent habsent]
    obtain ⟨hlt,heq⟩ | ⟨-,m₀,heq,-⟩ := mapLoop_absent writable nx habsent n mapped <;> rw [heq] at h
    · have htables : m.tablesMissing page ≤ m.free-1 := by omega
      obtain ⟨hvm,hleaf,hgaps,hmissing,hleft⟩ := ih h hp'
      rw [gaps_filled hp htables,filled_free] at hgaps hmissing hleft
      refine ⟨by rw [hvm,filled_vm],fun q hq => ?_,by omega,⟨by omega,fun i hi hnone hlack => ?_⟩,?_⟩
      · rw [hleaf q hq,leaf_filled hp hq htables]
        by_cases heq : q = page
        · subst heq
          rw [if_pos rfl,if_neg (by simp),if_pos ⟨habsent,by simp only [pageSize]; omega⟩]
        simp only [if_neg heq]
        refine if_congr (and_congr_right fun _ => ?_) rfl rfl
        simp only [pageSize] at *
        omega
      · by_cases hzero : m.tablesMissing page = 0
        · have := hmissing i hi (by rwa [leaf_filled_behind hp htables])
            (by rwa [tablesMissing_filled hzero])
          omega
        · omega
      · rintro ⟨hzero,hall⟩
        have := hleft fun i hi => (tablesMissing_filled hzero _).trans (hall i hi)
        omega
    · simp at h

theorem mapLoop_suffices (hp : page%pageSize = 0) (hgaps : m.gaps page n ≤ m.free)
    (htables : ∀ i, i < n → m.leaf (page+i*pageSize) = none → m.tablesMissing (page+i*pageSize) = 0) :
    (m.mapLoop writable nx n page mapped).1 = true := by
  induction n generalizing m page mapped with
  | zero => rfl
  | succ n ih =>
    have hp' := (Nat.add_mod_right page pageSize).trans hp
    simp only [Nat.forall_lt_succ_left,page_succ,Nat.zero_mul,Nat.add_zero] at htables
    obtain ⟨hhead,hbehind⟩ := htables
    by_cases hres : (m.leaf page).isSome = true
    · rw [mapLoop_resident hres]
      rw [gaps_resident hres] at hgaps
      exact ih hp' hgaps hbehind
    have habsent : m.leaf page = none := by simpa using hres
    have hzero := hhead habsent
    rw [gaps_absent habsent] at hgaps
    have hle : m.tablesMissing page ≤ m.free-1 := by omega
    obtain ⟨-,heq⟩ := (mapLoop_absent writable nx habsent n mapped).resolve_right
      fun h => by have := h.1; omega
    rw [heq]
    refine ih hp' ?_ ?_
    · rw [gaps_filled hp hle,filled_free]
      omega
    intro i hi hnone
    rw [leaf_filled_behind hp hle] at hnone
    rw [tablesMissing_filled hzero]
    exact hbehind i hi hnone

end Machine

end Loop

end PaghOS.Mm
