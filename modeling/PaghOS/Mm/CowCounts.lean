import Mathlib.Data.List.Count
import Mathlib.Data.List.Nodup
import PaghOS.Lib.Loop

/-!
Frames shared copy-on-write (`memory/vmm.rs`, `COW_REFS` of `memory/pmm.rs`). An address
space is the frames of its tables and its 4 KiB leaves in the order of the walk.
-/

namespace PaghOS.Cow
open Loop List Option Function

structure Leaf where
  page : Nat
  frame : Nat
  cow : Bool
  writable : Bool
  deriving DecidableEq

/-- `tables` has the frame of the PML4 and those of the tables below it. -/
structure UserSpace where
  tables : List Nat
  leaves : List Leaf

/-- `refs` is 0 where the map has no entry; `pool` has an entry for every free of a frame. -/
structure Memory where
  spaces : List UserSpace
  refs : Nat → Nat
  pool : List Nat

def cowRef (refs : Nat → Nat) (frame : Nat) : Option (Nat → Nat) :=
  if refs frame+1 < 4294967296 then some (Function.update refs frame (refs frame+1)) else none

def cowUnref (refs : Nat → Nat) (frame : Nat) : Bool × (Nat → Nat) :=
  match refs frame with
  | 0 => (true,refs)
  | 1 => (true,Function.update refs frame 0)
  | n+2 => (false,Function.update refs frame (n+1))

def Leaf.shared (l : Leaf) : Leaf := { l with cow := true, writable := false }

def shareLeaf (refs : Nat → Nat) (l : Leaf) : Option (Nat → Nat) := do
  let refs ← if l.cow then some refs else cowRef refs l.frame
  cowRef refs l.frame

/-- A leaf of a space that is torn down, or the one a copy takes the place of. -/
def releaseLeaf (m : (Nat → Nat) × List Nat) (l : Leaf) : (Nat → Nat) × List Nat :=
  if l.cow then
    let (last,refs) := cowUnref m.1 l.frame
    (refs,if last then l.frame :: m.2 else m.2)
  else (m.1,l.frame :: m.2)

/-- The operations with what `alloc_frame` answers them: a fork's allocations succeed, a
copy's may fail. -/
inductive CowOp where
  | fork (parent : Nat) (tables : List Nat)
  | cowCopyPage (space page : Nat) (alloc : Option Nat)
  | drop (space : Nat)

/-- `false` where the page is no COW leaf, or no frame is free. -/
def Memory.cowCopyPage (m : Memory) (space page : Nat) (alloc : Option Nat) : Option (Bool × Memory) := do
  let s ← m.spaces[space]?
  let k := s.leaves.findIdx (·.page = page)
  match s.leaves[k]? with
  | none => some (false,m)
  | some l =>
    if l.cow = false then some (false,m)
    else
      match alloc with
      | none => some (false,m)
      | some new =>
        if new ∈ m.pool then
          let leaves := s.leaves.set k ⟨l.page,new,false,true⟩
          let (refs,pool) := releaseLeaf (m.refs,m.pool.erase new) l
          some (true,⟨m.spaces.set space { s with leaves := leaves },refs,pool⟩)
        else none

/-- `none` is a panic, a space that is not there or an answer that is no free frame. -/
def Memory.step (m : Memory) : CowOp → Option Memory
  | .fork parent tables => do
    let s ← m.spaces[parent]?
    if tables.length = s.tables.length ∧ tables <+~ m.pool then
      let refs ← s.leaves.foldlM shareLeaf m.refs
      let leaves := s.leaves.map Leaf.shared
      some ⟨m.spaces.set parent { s with leaves := leaves } ++ [⟨tables,leaves⟩],refs,m.pool.diff tables⟩
    else none
  | .cowCopyPage space page alloc => (m.cowCopyPage space page alloc).map (·.2)
  | .drop space => do
    let s ← m.spaces[space]?
    let (refs,pool) := s.leaves.foldl releaseLeaf (m.refs,m.pool)
    some ⟨m.spaces.eraseIdx space,refs,s.tables ++ pool⟩

/-- The space is there, and what the allocator answers is free. -/
def Memory.Allowed (m : Memory) : CowOp → Prop
  | .fork parent tables => parent < m.spaces.length ∧
      (∀ s ∈ m.spaces[parent]?, tables.length = s.tables.length) ∧ tables <+~ m.pool
  | .cowCopyPage space _ alloc => space < m.spaces.length ∧ ∀ new ∈ alloc, new ∈ m.pool
  | .drop space => space < m.spaces.length

instance (m : Memory) : (op : CowOp) → Decidable (m.Allowed op)
  | .fork _ _ => inferInstanceAs (Decidable (_ ∧ _))
  | .cowCopyPage _ _ _ => inferInstanceAs (Decidable (_ ∧ _))
  | .drop _ => inferInstanceAs (Decidable (_ < _))

def Memory.leaves (m : Memory) : List Leaf := m.spaces.flatMap (·.leaves)

def Memory.tables (m : Memory) : List Nat := m.spaces.flatMap (·.tables)

def Memory.frames (m : Memory) : List Nat := m.leaves.map (·.frame) ++ m.tables ++ m.pool

def Memory.leafAt (m : Memory) (space page : Nat) : Option Leaf :=
  m.spaces[space]?.bind fun s => s.leaves.find? (·.page = page)

/-- What an operation does to the pages: parent and child of a fork map the parent's frames
read-only, a copy maps the new frame writable at one page of one space, a drop takes a
space away, and nothing else changes. -/
def Memory.Did (m m' : Memory) : CowOp → Prop
  | .fork parent _ => m'.spaces.length = m.spaces.length+1 ∧ ∀ space page, m'.leafAt space page =
      if space = parent ∨ space = m.spaces.length then (m.leafAt parent page).map Leaf.shared
      else m.leafAt space page
  | .cowCopyPage space page alloc =>
    if (m.leafAt space page).all (·.cow = false) ∨ alloc = none then m' = m
    else m'.spaces.length = m.spaces.length ∧ ∀ space' page', m'.leafAt space' page' =
      if space' = space ∧ page' = page then alloc.map fun new => ⟨page,new,false,true⟩
      else m.leafAt space' page'
  | .drop space => m'.spaces = m.spaces.eraseIdx space

/-- No frame has two uses, none is shared yet, and there are fewer than 2^32 of them. -/
structure Memory.Private (m : Memory) : Prop where
  nodup : m.frames.Nodup
  unshared : ∀ l ∈ m.leaves, l.cow = false
  refs : ∀ f, m.refs f = 0
  rooted : ∀ s ∈ m.spaces, s.tables ≠ []
  size : m.frames.length < 4294967296

/-- What holds of the memory `m`, begun as `m₀`. -/
structure Accounted (m₀ m : Memory) : Prop where
  refs : ∀ f, m.refs f = m.leaves.countP fun l => l.cow && l.frame = f
  single : ∀ f, m.refs f = 0 → m.leaves.countP (fun l => l.frame = f) ≤ 1
  freed : ∀ f ∈ m.pool, (∀ l ∈ m.leaves, l.frame ≠ f) ∧ f ∉ m.tables
  once : m.pool.Nodup
  ends : m.spaces = [] → m.pool ~ m₀.frames

/-! ### The accounts -/

def cows (ls : List Leaf) (f : Nat) : Nat := ls.countP fun l => l.cow && l.frame = f

def owned (ls : List Leaf) (f : Nat) : Nat := ls.countP fun l => !l.cow && l.frame = f

/-- Every frame has one owner: a private leaf, the sharers together, a table or the pool. -/
structure Acct (total : List Nat) (ls : List Leaf) (ts : List Nat) (refs : Nat → Nat) (pool : List Nat) :
    Prop where
  refs : ∀ f, refs f = cows ls f
  once : ∀ f, owned ls f+min (cows ls f) 1+ts.count f+pool.count f = total.count f

variable {total ts ts' pool : List Nat} {ls ls' L rest : List Leaf} {l : Leaf} {refs refs' : Nat → Nat}

theorem Acct.congr (h : Acct total ls ts refs pool) (hl : ∀ p, ls.countP p = ls'.countP p)
    (ht : ∀ f, ts.count f = ts'.count f) : Acct total ls' ts' refs pool :=
  ⟨fun f => (h.refs f).trans (hl _),fun f => by rw [← h.once f,owned,owned,cows,cows,hl,hl,ht]⟩

theorem cows_cons (f : Nat) :
    cows (l :: ls) f = cows ls f+if l.cow = true ∧ l.frame = f then 1 else 0 := by
  simp [cows,countP_cons]

theorem owned_cons (f : Nat) :
    owned (l :: ls) f = owned ls f+if l.cow = false ∧ l.frame = f then 1 else 0 := by
  simp [owned,countP_cons]

theorem mapped_eq (ls : List Leaf) (f : Nat) :
    ls.countP (fun l => l.frame = f) = owned ls f+cows ls f := by
  induction ls with
  | nil => rfl
  | cons l ls ih =>
    rw [countP_cons,ih,owned_cons,cows_cons]
    cases l.cow <;> by_cases hf : l.frame = f <;> simp [hf] <;> omega

theorem count_frames (ls : List Leaf) (f : Nat) :
    (ls.map (·.frame)).count f = ls.countP fun l => l.frame = f := by
  rw [count,countP_map]
  exact countP_congr fun l _ => by simp

theorem cowUnref_eq (refs : Nat → Nat) (f : Nat) :
    cowUnref refs f = (decide (refs f ≤ 1),Function.update refs f (refs f-1)) := by
  unfold cowUnref
  split
  · next h => rw [h,update_eq_self_iff.2 h.symm]; rfl
  · next h => simp [h]
  · next n h => simp [h]

theorem Acct.release (h : Acct total (l :: ls) ts refs pool) :
    Acct total ls ts (releaseLeaf (refs,pool) l).1 (releaseLeaf (refs,pool) l).2 := by
  unfold releaseLeaf
  rw [cowUnref_eq]
  have hl := h.refs l.frame
  refine ⟨fun f => ?_,fun f => ?_⟩
  all_goals
    have hrefs := h.refs f
    have honce := h.once f
    rw [cows_cons] at hrefs honce hl
    rw [owned_cons] at honce
    by_cases hcow : l.cow = true <;> by_cases hf : l.frame = f
  · subst hf
    simp [hcow] at hl ⊢
    omega
  · simpa [hcow,hf,update_of_ne (Ne.symm hf)] using hrefs
  · simpa [hcow] using hrefs
  · simpa [hcow] using hrefs
  · subst hf
    simp only [hcow,and_self,if_true,Bool.true_eq_false,false_and,if_false] at hl honce ⊢
    split
    · next hlast =>
      rw [decide_eq_true_eq] at hlast
      rw [count_cons_self]
      omega
    · next hlast =>
      rw [decide_eq_true_eq] at hlast
      omega
  · simp only [hcow,hf,and_false,if_true,if_false] at honce ⊢
    split
    · rw [count_cons_of_ne hf]
      exact honce
    · exact honce
  · simp [hcow,hf] at honce ⊢
    omega
  · simp [hcow,hf] at honce ⊢
    omega

theorem Acct.releaseAll (h : Acct total (L ++ rest) ts refs pool) :
    Acct total rest ts (L.foldl releaseLeaf (refs,pool)).1 (L.foldl releaseLeaf (refs,pool)).2 := by
  induction L generalizing refs pool with
  | nil => exact h
  | cons l L ih => exact ih h.release

/-- How many sharers a fork registers for a leaf. -/
def Leaf.joining (l : Leaf) : Nat := if l.cow then 1 else 2

theorem shareLeaf_eq (h : refs l.frame+l.joining < 4294967296) :
    shareLeaf refs l = some (Function.update refs l.frame (refs l.frame+l.joining)) := by
  unfold Leaf.joining at h ⊢
  by_cases hcow : l.cow = true
  · rw [if_pos hcow] at h
    simp [shareLeaf,cowRef,hcow,h]
  · rw [if_neg hcow] at h
    have hone : refs l.frame+1 < 4294967296 := by omega
    have htwo : refs l.frame+1+1 < 4294967296 := h
    simp [shareLeaf,cowRef,hcow,hone,htwo]

theorem Acct.share (htotal : total.Nodup) (h : Acct total (l :: ls) ts refs pool) :
    Acct total (l.shared :: l.shared :: ls) ts
      (Function.update refs l.frame (refs l.frame+l.joining)) pool := by
  have hrefs' : ∀ f, Function.update refs l.frame (refs l.frame+l.joining) f =
      refs f+if l.frame = f then l.joining else 0 := by
    intro f
    by_cases hf : l.frame = f
    · simp [hf]
    · simp [hf,update_of_ne (Ne.symm hf)]
  refine ⟨fun f => ?_,fun f => ?_⟩
  all_goals
    have hrefs := h.refs f
    have honce := h.once f
    have hle := nodup_iff_count_le_one.mp htotal f
    rw [cows_cons] at hrefs honce
    rw [owned_cons] at honce
  · rw [hrefs',cows_cons,cows_cons,Leaf.joining]
    by_cases hcow : l.cow = true <;> by_cases hf : l.frame = f <;>
      simp [hcow,hf,Leaf.shared] at hrefs ⊢ <;> omega
  · rw [cows_cons,cows_cons,owned_cons,owned_cons]
    by_cases hcow : l.cow = true <;> by_cases hf : l.frame = f <;>
      simp [hcow,hf,Leaf.shared] at honce ⊢ <;> omega

/-- The leaves of one space map different frames, so that every count moves once. -/
theorem Acct.shareAll (htotal : total.Nodup) (h : Acct total (L ++ rest) ts refs pool)
    (hdistinct : (L.map (·.frame)).Nodup) (hroom : ∀ l ∈ L, refs l.frame+l.joining < 4294967296) :
    Returns (L.foldlM shareLeaf refs) fun refs' =>
      Acct total (L.map Leaf.shared ++ (L.map Leaf.shared ++ rest)) ts refs' pool := by
  induction L generalizing refs rest with
  | nil => exact .pure h
  | cons l L ih =>
    rw [map_cons,nodup_cons] at hdistinct
    rw [foldlM_cons,shareLeaf_eq (hroom l (by simp)),bind_eq_bind,bind_some]
    have hshare := Acct.share htotal (show Acct total (l :: (L ++ rest)) ts refs pool from h)
    have hnext : Acct total (L ++ (l.shared :: l.shared :: rest)) ts
        (Function.update refs l.frame (refs l.frame+l.joining)) pool := by
      refine hshare.congr (fun p => ?_) fun _ => rfl
      simp only [countP_cons,countP_append]
      omega
    have hothers : ∀ k ∈ L, k.frame ≠ l.frame := fun k hk heq => hdistinct.1 (heq ▸ mem_map_of_mem hk)
    refine (ih hnext hdistinct.2 fun k hk => ?_).mono fun refs' hrefs' => ?_
    · rw [update_of_ne (hothers k hk)]
      exact hroom k (by simp [hk])
    · refine hrefs'.congr (fun p => ?_) fun _ => rfl
      simp only [map_cons,countP_cons,countP_append,cons_append]
      omega

theorem split_get {α : Type} {xs : List α} {i : Nat} {a : α} (h : xs[i]? = some a) : ∃ front back,
    xs = front ++ a :: back ∧ (∀ b, xs.set i b = front ++ b :: back) ∧ xs.eraseIdx i = front ++ back ∧
      front.length = i := by
  obtain ⟨hi,rfl⟩ := List.getElem?_eq_some_iff.mp h
  refine ⟨xs.take i,xs.drop (i+1),by simp,fun b => ?_,eraseIdx_eq_take_drop_succ ..,?_⟩
  · rw [set_eq_take_append_cons_drop,if_pos hi]
  · rw [length_take,Nat.min_eq_left (Nat.le_of_lt hi)]

theorem Acct.alloc {new pool' : List Nat} (h : Acct total ls ts refs pool) (hnew : new ++ pool' ~ pool) :
    Acct total ls (new ++ ts) refs pool' := by
  refine ⟨h.refs,fun f => ?_⟩
  rw [← h.once f,← hnew.count_eq,count_append,count_append]
  omega

theorem Acct.adopt (page : Nat) (writable : Bool) {new : Nat} (h : Acct total ls (new :: ts) refs pool) :
    Acct total (⟨page,new,false,writable⟩ :: ls) ts refs pool := by
  refine ⟨fun f => ?_,fun f => ?_⟩
  · simpa [cows_cons] using h.refs f
  · rw [← h.once f,cows_cons,owned_cons,count_cons]
    simp only [Bool.false_eq_true,false_and,true_and,if_false,beq_iff_eq]
    omega

theorem Acct.pool_unmapped (htotal : total.Nodup) (h : Acct total ls ts refs pool) {f : Nat} (hf : f ∈ pool) :
    (∀ l ∈ ls, l.frame ≠ f) ∧ f ∉ ts := by
  have honce := h.once f
  have hle := nodup_iff_count_le_one.mp htotal f
  have hpool := count_pos_iff.2 hf
  refine ⟨fun l hl heq => ?_,fun ht => ?_⟩
  · have hpos : 0 < ls.countP fun l => l.frame = f := countP_pos_iff.2 ⟨l,hl,by simpa using heq⟩
    rw [mapped_eq] at hpos
    omega
  · have := count_pos_iff.2 ht
    omega

/-! ### Steps -/

structure Kept (total : List Nat) (m : Memory) : Prop where
  acct : Acct total m.leaves m.tables m.refs m.pool
  distinct : ∀ s ∈ m.spaces, (s.leaves.map (·.frame)).Nodup
  rooted : ∀ s ∈ m.spaces, s.tables ≠ []

variable {m : Memory}

/-- The accounts with one space in front. -/
theorem Kept.opened (h : Kept total m) {s : UserSpace} {front back : List UserSpace}
    (hspaces : m.spaces = front ++ s :: back) :
    Acct total (s.leaves ++ (front ++ back).flatMap (·.leaves))
      (s.tables ++ (front ++ back).flatMap (·.tables)) m.refs m.pool := by
  refine h.acct.congr (fun p => ?_) fun f => ?_
  · simp only [Memory.leaves,hspaces,flatMap_append,flatMap_cons,countP_append]
    omega
  · simp only [Memory.tables,hspaces,flatMap_append,flatMap_cons,count_append]
    omega

/-- A space shares a frame at most once, and has a table of its own. -/
theorem cows_le_tables {spaces : List UserSpace} (f : Nat)
    (hdistinct : ∀ s ∈ spaces, (s.leaves.map (·.frame)).Nodup) (hrooted : ∀ s ∈ spaces, s.tables ≠ []) :
    cows (spaces.flatMap (·.leaves)) f ≤ (spaces.flatMap (·.tables)).length := by
  induction spaces with
  | nil => simp [cows]
  | cons s spaces ih =>
    have hrest := ih (fun t ht => hdistinct t (by simp [ht])) fun t ht => hrooted t (by simp [ht])
    have hone := nodup_iff_count_le_one.mp (hdistinct s (by simp)) f
    rw [count_frames,mapped_eq] at hone
    have hpos := length_pos_iff.2 (hrooted s (by simp))
    simp only [cows] at hone hrest
    simp only [cows,flatMap_cons,countP_append,length_append]
    omega

theorem Kept.joins (htotal : total.Nodup) (hsize : total.length < 4294967296)
    (h : Kept total m) {s : UserSpace}
    (hs : s ∈ m.spaces) {tables : List Nat} (hlen : tables.length = s.tables.length)
    (hsub : tables <+~ m.pool) : ∀ l ∈ s.leaves, m.refs l.frame+l.joining < 4294967296 := by
  intro l hl
  have honce := h.acct.once l.frame
  have hle := nodup_iff_count_le_one.mp htotal l.frame
  rw [h.acct.refs,Leaf.joining]
  split
  · -- the tables of all spaces and of the child are different frames
    have hall : tables ++ m.tables <+~ total := by
      refine subperm_ext_iff.2 fun f _ => ?_
      have := h.acct.once f
      have := hsub.count_le f
      rw [count_append]
      omega
    have hcows := cows_le_tables l.frame h.distinct h.rooted
    have hlen' := hall.length_le
    have := length_pos_iff.2 (h.rooted s hs)
    rw [length_append] at hlen'
    simp only [Memory.tables,Memory.leaves] at hlen' ⊢
    omega
  · next hcow =>
    have hmem : l ∈ m.leaves := mem_flatMap.2 ⟨s,hs,hl⟩
    have : 0 < owned m.leaves l.frame := countP_pos_iff.2 ⟨l,hmem,by simp [hcow]⟩
    omega

theorem leafAt_append_singleton (spaces : List UserSpace) (child : UserSpace)
    (refs : Nat → Nat) (pool : List Nat)
    (space page : Nat) : Memory.leafAt ⟨spaces ++ [child],refs,pool⟩ space page =
      if space = spaces.length then child.leaves.find? (·.page = page)
      else Memory.leafAt ⟨spaces,refs,pool⟩ space page := by
  simp only [Memory.leafAt]
  split
  · next h => simp [h]
  · next h =>
    by_cases hlt : space < spaces.length
    · rw [getElem?_append_left hlt]
    · rw [List.getElem?_eq_none (by simp; omega),List.getElem?_eq_none (by omega)]

theorem leafAt_set {spaces : List UserSpace} {i : Nat} (hi : i < spaces.length) (s : UserSpace)
    (refs : Nat → Nat) (pool : List Nat) (space page : Nat) :
    Memory.leafAt ⟨spaces.set i s,refs,pool⟩ space page =
      if space = i then s.leaves.find? (·.page = page)
      else (spaces[space]?).bind fun s => s.leaves.find? (·.page = page) := by
  simp only [Memory.leafAt]
  split
  · next h =>
    subst h
    simp [hi]
  · next h => rw [List.getElem?_set_ne (Ne.symm h)]

theorem find?_map_shared (ls : List Leaf) (page : Nat) :
    (ls.map Leaf.shared).find? (·.page = page) = (ls.find? (·.page = page)).map Leaf.shared := by
  rw [find?_map]
  rfl

theorem Kept.fork (htotal : total.Nodup) (hsize : total.length < 4294967296) (h : Kept total m)
    {parent : Nat} {tables : List Nat} (hop : m.Allowed (.fork parent tables)) :
    Returns (m.step (.fork parent tables)) fun m' => Kept total m' ∧ m.Did m' (.fork parent tables) := by
  obtain ⟨hparent,hlen,hsub⟩ := hop
  obtain ⟨s,hs⟩ : ∃ s, m.spaces[parent]? = some s := ⟨_,List.getElem?_eq_getElem hparent⟩
  have hmem := mem_of_getElem? hs
  obtain ⟨front,back,hspaces,hset,-,-⟩ := split_get hs
  obtain ⟨refs,hrefs,hshared⟩ := (h.opened hspaces).shareAll htotal (h.distinct s hmem)
    (h.joins htotal hsize hmem (hlen s hs) hsub)
  simp only [Memory.step,hs,bind_eq_bind,bind_some,hlen s hs,hsub,and_self,if_true,hrefs]
  refine .pure ⟨⟨?_,?_,?_⟩,?_,?_⟩
  · refine (hshared.alloc (subperm_append_diff_self_of_count_le (subperm_ext_iff.1 hsub))).congr
      (fun p => ?_) fun f => ?_
    · simp only [Memory.leaves,hset,flatMap_append,flatMap_cons,flatMap_nil,countP_append,countP_nil]
      omega
    · simp only [Memory.tables,hset,flatMap_append,flatMap_cons,flatMap_nil,count_append,count_nil]
      omega
  · have hsame : (s.leaves.map Leaf.shared).map (·.frame) = s.leaves.map (·.frame) := by
      rw [List.map_map]
      rfl
    intro t ht
    rcases mem_append.1 ht with ht | ht
    · rcases mem_or_eq_of_mem_set ht with ht | rfl
      · exact h.distinct t ht
      · exact hsame ▸ h.distinct s hmem
    · obtain rfl := mem_singleton.1 ht
      exact hsame ▸ h.distinct s hmem
  · intro t ht
    rcases mem_append.1 ht with ht | ht
    · rcases mem_or_eq_of_mem_set ht with ht | rfl
      · exact h.rooted t ht
      · exact h.rooted s hmem
    · obtain rfl := mem_singleton.1 ht
      intro hnil
      have hzero : tables.length = 0 := congrArg length hnil
      exact h.rooted s hmem (length_eq_zero_iff.1 ((hlen s hs).symm.trans hzero))
  · simp
  · intro space page
    rw [leafAt_append_singleton,leafAt_set hparent,length_set]
    simp only [find?_map_shared,Memory.leafAt,hs,bind_some]
    by_cases hp : space = parent <;> by_cases hc : space = m.spaces.length <;> simp [hp,hc]

theorem find?_split {front back : List Leaf} {a b : Leaf} {page : Nat} (hpage : b.page = a.page)
    (hfront : ∀ l ∈ front, l.page ≠ a.page) : (front ++ b :: back).find? (·.page = page) =
      if page = a.page then some b else (front ++ a :: back).find? (·.page = page) := by
  split
  · next h =>
    subst h
    rw [find?_append,find?_eq_none.2 (by simpa using hfront)]
    simp [hpage]
  · next h =>
    have hne : ¬ a.page = page := fun heq => h heq.symm
    rw [find?_append,find?_append]
    simp [hpage,hne]

theorem Kept.copy (htotal : total.Nodup) (h : Kept total m) {space page : Nat} {alloc : Option Nat}
    (hop : m.Allowed (.cowCopyPage space page alloc)) : Returns (m.step (.cowCopyPage space page alloc))
      fun m' => Kept total m' ∧ m.Did m' (.cowCopyPage space page alloc) := by
  obtain ⟨hspace,halloc⟩ := hop
  obtain ⟨s,hs⟩ : ∃ s, m.spaces[space]? = some s := ⟨_,List.getElem?_eq_getElem hspace⟩
  have hleaf : m.leafAt space page = s.leaves[s.leaves.findIdx (·.page = page)]? := by
    rw [Memory.leafAt,hs,bind_some,find?_eq_getElem?_findIdx]
  simp only [Memory.step,Memory.cowCopyPage,hs,bind_eq_bind,bind_some,Memory.Did,hleaf]
  cases hl : s.leaves[s.leaves.findIdx (·.page = page)]? with
  | none => exact .pure ⟨h,by simp⟩
  | some l =>
    by_cases hcow : l.cow = false
    · simp only [hcow,if_true]
      exact .pure ⟨h,by simp [hcow]⟩
    cases alloc with
    | none =>
      simp only [hcow]
      exact .pure ⟨h,by simp⟩
    | some new =>
      have hnew := halloc new rfl
      have hpage : l.page = page := by
        obtain ⟨hk,rfl⟩ := List.getElem?_eq_some_iff.mp hl
        simpa using findIdx_getElem (w := hk)
      subst hpage
      simp only [hcow,hnew,if_true,map_some]
      obtain ⟨front,back,hspaces,hset,-,-⟩ := split_get hs
      obtain ⟨before,after,hleaves,hput,-,hk⟩ := split_get hl
      have hfirst : Acct total
          (l :: (⟨l.page,new,false,true⟩ :: (before ++ after) ++ (front ++ back).flatMap (·.leaves)))
          (s.tables ++ (front ++ back).flatMap (·.tables)) m.refs (m.pool.erase new) := by
        have hgiven : [new] ++ m.pool.erase new ~ m.pool := (perm_cons_erase hnew).symm
        refine (((h.opened hspaces).alloc hgiven).adopt l.page true).congr (fun p => ?_) fun _ => rfl
        simp only [hleaves,countP_append,countP_cons,cons_append]
        omega
      have hmem := mem_of_getElem? hs
      refine .pure ⟨⟨?_,fun t ht => ?_,fun t ht => ?_⟩,?_⟩
      · refine hfirst.release.congr (fun p => ?_) fun f => ?_
        · simp only [Memory.leaves,hset,hput,flatMap_append,flatMap_cons,countP_append,countP_cons]
          omega
        · simp only [Memory.tables,hset,flatMap_append,flatMap_cons,count_append]
          omega
      · rcases mem_or_eq_of_mem_set ht with ht | rfl
        · exact h.distinct t ht
        · have hfree := (h.acct.pool_unmapped htotal hnew).1
          have hnot : new ∉ s.leaves.map (·.frame) := by
            rintro hin
            obtain ⟨k,hk,rfl⟩ := mem_map.1 hin
            exact hfree k (mem_flatMap.2 ⟨s,hmem,hk⟩) rfl
          rw [map_set]
          exact (h.distinct s hmem).set hnot
      · rcases mem_or_eq_of_mem_set ht with ht | rfl
        · exact h.rooted t ht
        · exact h.rooted s hmem
      · rw [if_neg (by simp [hcow])]
        refine ⟨by simp,fun space' page' => ?_⟩
        have hbefore : ∀ k ∈ before, k.page ≠ l.page := by
          intro k hkmem heq
          obtain ⟨i,hi,rfl⟩ := getElem_of_mem hkmem
          have hlt : i < s.leaves.findIdx (·.page = l.page) := hk ▸ hi
          have := not_of_lt_findIdx hlt
          simp only [hleaves,getElem_append_left hi] at this
          simp [heq] at this
        rw [leafAt_set hspace]
        by_cases hsp : space' = space
        · subst hsp
          simp only [if_true,true_and,Memory.leafAt,hs,bind_some]
          rw [hput,hleaves]
          exact find?_split rfl hbefore
        · simp [hsp,Memory.leafAt]

theorem Kept.drop (h : Kept total m) {space : Nat} (hop : m.Allowed (.drop space)) :
    Returns (m.step (.drop space)) fun m' => Kept total m' ∧ m.Did m' (.drop space) := by
  obtain ⟨s,hs⟩ : ∃ s, m.spaces[space]? = some s := ⟨_,List.getElem?_eq_getElem hop⟩
  obtain ⟨front,back,hspaces,-,herase,-⟩ := split_get hs
  have hreleased := (h.opened hspaces).releaseAll
  have hsub : ∀ t ∈ m.spaces.eraseIdx space, t ∈ m.spaces := fun t ht => mem_of_mem_eraseIdx ht
  simp only [Memory.step,hs,bind_eq_bind,bind_some]
  refine .pure ⟨⟨⟨fun f => ?_,fun f => ?_⟩,fun t ht => h.distinct t (hsub t ht),
    fun t ht => h.rooted t (hsub t ht)⟩,rfl⟩
  · simpa only [Memory.leaves,herase] using hreleased.refs f
  · rw [← hreleased.once f]
    simp only [Memory.leaves,Memory.tables,herase,count_append]
    omega

theorem Kept.step (htotal : total.Nodup) (hsize : total.length < 4294967296) (h : Kept total m) (op : CowOp)
    (hop : m.Allowed op) : Returns (m.step op) fun m' => Kept total m' ∧ m.Did m' op := by
  cases op with
  | fork parent tables => exact h.fork htotal hsize hop
  | cowCopyPage space page alloc => exact h.copy htotal hop
  | drop space => exact h.drop hop

/-! ### Runs -/

theorem Memory.Private.kept (h : m.Private) : Kept m.frames m := by
  have hcows : ∀ f, cows m.leaves f = 0 := fun f => countP_eq_zero.2 fun l hl => by simp [h.unshared l hl]
  refine ⟨⟨fun f => by rw [h.refs,hcows],fun f => ?_⟩,fun s hs => ?_,h.rooted⟩
  · have howned := mapped_eq m.leaves f
    rw [hcows] at howned
    rw [hcows,Memory.frames,count_append,count_append,count_frames]
    omega
  · have hleaves : (m.leaves.map (·.frame)).Nodup := h.nodup.of_append_left.of_append_left
    refine hleaves.sublist (Sublist.map _ ?_)
    obtain ⟨front,back,hspaces⟩ := append_of_mem hs
    rw [Memory.leaves,hspaces,flatMap_append,flatMap_cons]
    exact (sublist_append_left _ _).trans (sublist_append_right _ _)

theorem Kept.accounted {m₀ : Memory} (hnodup : m₀.frames.Nodup) (h : Kept m₀.frames m) : Accounted m₀ m := by
  have hle := nodup_iff_count_le_one.mp hnodup
  refine ⟨h.acct.refs,fun f hf => ?_,fun f hf => h.acct.pool_unmapped hnodup hf,
    nodup_iff_count_le_one.mpr fun f => ?_,fun hnone => ?_⟩
  · have := h.acct.once f
    have := h.acct.refs f
    have := hle f
    rw [mapped_eq]
    omega
  · have := h.acct.once f
    have := hle f
    omega
  · refine perm_iff_count.2 fun f => ?_
    rw [← h.acct.once f]
    simp [Memory.leaves,Memory.tables,hnone,owned,cows]

/-- From any spaces without shared leaves, over every sequence of the three operations on
spaces that are there: each operation returns and does what it is for, and the accounts
are right after it. -/
theorem cow_accounted (m₀ : Memory) (hstart : m₀.Private) (ops : List CowOp)
    (hops : Along Memory.step Memory.Allowed m₀ ops) : Returns (run Memory.step m₀ ops) (Accounted m₀) ∧
    ∀ p op m, p ++ [op] <+: ops → run Memory.step m₀ p = some m →
      Returns (m.step op) fun m' => m.Did m' op ∧ Accounted m₀ m' := by
  have hstep := fun m op (h : Kept m₀.frames m) hop => h.step hstart.nodup hstart.size op hop
  have hrun : ∀ p, p <+: ops → Returns (run Memory.step m₀ p) (Kept m₀.frames) :=
    run_safe Memory.Allowed (fun _ h => h) (fun m op h hop => (hstep m op h hop).mono fun _ hm => hm.1)
      hstart.kept hops.at_prefix
  refine ⟨(hrun ops prefix_rfl).mono fun _ h => h.accounted hstart.nodup,fun p op m hp hm => ?_⟩
  obtain ⟨t,ht,hkept⟩ := hrun p ((prefix_append p [op]).trans hp)
  obtain rfl := some.inj (ht.symm.trans hm)
  exact (hstep t op hkept (hops.at_prefix p op t hp hm)).mono fun m' hm' =>
    ⟨hm'.2,hm'.1.accounted hstart.nodup⟩

def oneProcess : Memory :=
  ⟨[⟨[1,2,3,4],[⟨0x1000,5,false,true⟩,⟨0x2000,6,false,false⟩]⟩],fun _ => 0,[7,8,9,10,11]⟩

/-- A fork, a copy that finds no frame, one that does, and both processes exit. -/
def forkAndExit : List CowOp :=
  [.fork 0 [7,8,9,10],.cowCopyPage 1 0x1000 none,.cowCopyPage 1 0x1000 (some 11),.drop 0,.drop 0]

theorem oneProcess_accounted : (run Memory.step oneProcess forkAndExit).map
      (fun m => (m.spaces.length,m.pool)) = some (0,[7,8,9,10,6,11,1,2,3,4,5]) ∧
    Returns (run Memory.step oneProcess forkAndExit) (Accounted oneProcess) :=
  ⟨by decide +kernel,(cow_accounted oneProcess ⟨by decide,by decide,fun _ => rfl,by decide,by decide⟩ _
    (by decide +kernel)).1⟩

end PaghOS.Cow
