import PaghOS.Ext2.Format

/-!
The geometry `format` works out, in exact arithmetic: no value of it leaves its
machine type on the way, and there is room for everything.
-/

namespace PaghOS.Ext2

variable {total groups v itb : Nat}

def exactGdBlocks (groups : Nat) : Nat := (groups*gdSize+blockSize-1)/blockSize

def exactIpg (totalBlocks groups : Nat) : Nat :=
  let perGroup := max (max (totalBlocks*blockSize/bytesPerInode) minInodes/groups) (blockSize/inodeSize)
  min ((perGroup+(blockSize/inodeSize-1))/(blockSize/inodeSize)*(blockSize/inodeSize)) maxGroupInodes

def exactTail (itb : Nat) : (groups totalBlocks : Nat) → Nat × Nat
  | 0, totalBlocks => (0,totalBlocks)
  | g+1, totalBlocks =>
    if g+1 > 1 ∧ totalBlocks-g*maxGroupBlocks < 1+exactGdBlocks (g+1)+2+itb+8 then
      exactTail itb g (g*maxGroupBlocks)
    else (g+1,totalBlocks)

def exactPlan (deviceBlocks : Nat) : Option Plan :=
  if deviceBlocks < 4+(minInodes*inodeSize+blockSize-1)/blockSize+1+1+journalReserveBlocks then none
  else
    let capped := min (deviceBlocks-journalReserveBlocks) 4294967295
    let count := (capped+maxGroupBlocks-1)/maxGroupBlocks
    let ipg := exactIpg capped count
    let itb := ipg/(blockSize/inodeSize)
    let groups := (exactTail itb count capped).1
    let totalBlocks := (exactTail itb count capped).2
    let gdb := exactGdBlocks groups
    let metaBlocks := 1+gdb+2+itb
    if totalBlocks ≤ metaBlocks+1 then none
    else if totalBlocks ≤ metaBlocks*groups+1 then none
    else some ⟨totalBlocks,groups,ipg,itb,gdb,metaBlocks,groups*ipg,totalBlocks-(metaBlocks*groups+1),
      groups*ipg-reservedInodes⟩

section Checked

variable {σ : Type}

theorem u32_pure (h : v < 4294967296) : (u32 v : EStateM Fault σ Nat) = pure v :=
  if_pos h

theorem usub_pure {a b : Nat} (h : b ≤ a) : (usub a b : EStateM Fault σ Nat) = pure (a-b) :=
  if_pos h

theorem asU32_eq (h : v < 4294967296) : asU32 v = v := Nat.mod_eq_of_lt h

theorem asU16_eq (h : v < 65536) : asU16 v = v := Nat.mod_eq_of_lt h

end Checked

section Exact

variable {σ : Type}

theorem gdBlocks_eq (h : groups ≤ 131072) : gdBlocks groups = exactGdBlocks groups := by
  refine asU32_eq ?_
  simp only [gdSize,blockSize]
  omega

theorem exactGdBlocks_le (h : groups ≤ 131072) : exactGdBlocks groups ≤ 1024 := by
  simp only [exactGdBlocks,gdSize,blockSize]
  omega

theorem perGroup_le (h : total ≤ groups*maxGroupBlocks) (hg : 0 < groups) :
    max (total*blockSize/bytesPerInode) minInodes/groups ≤ 8192 := by
  refine Nat.div_le_of_le_mul ?_
  simp only [blockSize,bytesPerInode,minInodes,maxGroupBlocks] at *
  omega

theorem exactIpg_spec (h : total ≤ groups*maxGroupBlocks) (hg : 0 < groups) :
    ∃ k, exactIpg total groups = 32*k ∧ 1 ≤ k ∧ k ≤ 256 := by
  have hper := perGroup_le h hg
  have hb : blockSize/inodeSize = 32 := rfl
  have hi : maxGroupInodes = 32768 := rfl
  unfold exactIpg
  rw [hb,hi]
  dsimp only
  refine ⟨(max (max (total*blockSize/bytesPerInode) minInodes/groups) 32+31)/32,?_,?_,?_⟩ <;> omega

theorem inodesPerGroup_eq (h : total ≤ groups*maxGroupBlocks) (hg : 0 < groups) :
    (inodesPerGroup total groups : EStateM Fault σ Nat) = pure (exactIpg total groups) := by
  have hper := perGroup_le h hg
  have hb : blockSize/inodeSize = 32 := rfl
  have hi : maxGroupInodes = 32768 := rfl
  unfold inodesPerGroup exactIpg
  rw [if_neg (by omega),hb,hi]
  revert hper
  generalize max (total*blockSize/bytesPerInode) minInodes/groups = per
  intro hper
  have hsat : min (max per 32+(32-1)) 18446744073709551615 = max per 32+(32-1) :=
    min_eq_left (by omega)
  simp only [hsat]
  rw [asU32_eq (by omega)]

theorem dropTail_step {g : Nat} (hitb : itb ≤ 256) (hlo : g*maxGroupBlocks < total)
    (hhi : total < 4294967296) : (dropTail itb (g+1) total : EStateM Fault σ (Nat × Nat)) =
      if g+1 > 1 ∧ total-g*maxGroupBlocks < 1+exactGdBlocks (g+1)+2+itb+8 then
        dropTail itb g (g*maxGroupBlocks) else pure (g+1,total) := by
  have hb : maxGroupBlocks = 32768 := rfl
  rw [hb] at hlo ⊢
  have hgd := exactGdBlocks_le (show g+1 ≤ 131072 by omega)
  rw [dropTail,hb,u32_pure (by omega),pure_bind,usub_pure (by omega),pure_bind,
    gdBlocks_eq (by omega),u32_pure (by omega),pure_bind,u32_pure (by omega),pure_bind,pure_bind]

theorem dropTail_eq {g : Nat} (hitb : itb ≤ 256) (hlo : g*maxGroupBlocks < total)
    (hhi : total < 4294967296) :
    (dropTail itb (g+1) total : EStateM Fault σ (Nat × Nat)) = pure (exactTail itb (g+1) total) := by
  rw [dropTail_step hitb hlo hhi,exactTail]
  split
  · cases g with
    | zero => omega
    | succ g =>
      have hb : maxGroupBlocks = 32768 := rfl
      rw [hb] at hlo
      have hgd := exactGdBlocks_le (show g+1 ≤ 131072 by omega)
      have hspan : (g+1)*maxGroupBlocks-g*maxGroupBlocks = 32768 := by
        rw [← Nat.sub_mul,Nat.add_sub_cancel_left,Nat.one_mul]
        rfl
      have hlo' : g*maxGroupBlocks < (g+1)*maxGroupBlocks := by omega
      have hhi' : (g+1)*maxGroupBlocks < 4294967296 := by
        rw [hb]
        exact Nat.lt_trans hlo hhi
      rw [dropTail_step hitb hlo' hhi',exactTail,hspan,if_neg (by omega),if_neg (by omega)]
  · rfl

theorem exactTail_spec {g : Nat} (hitb : itb ≤ 256) (hlo : g*maxGroupBlocks < total)
    (hhi : total ≤ (g+1)*maxGroupBlocks) (hmax : total < 4294967296) :
    ∃ k, (exactTail itb (g+1) total).1 = k+1 ∧ (exactTail itb (g+1) total).2 ≤ total ∧
      k*maxGroupBlocks < (exactTail itb (g+1) total).2 ∧
      (exactTail itb (g+1) total).2 ≤ (k+1)*maxGroupBlocks ∧
      (0 < k → k*maxGroupBlocks+1+exactGdBlocks (k+1)+2+itb+8 ≤ (exactTail itb (g+1) total).2) := by
  have hb : maxGroupBlocks = 32768 := rfl
  rw [hb] at hlo hhi ⊢
  unfold exactTail
  split
  · rename_i hdrop
    cases g with
    | zero => omega
    | succ g =>
      have hgd' := exactGdBlocks_le (show g+1 ≤ 131072 by omega)
      unfold exactTail
      rw [hb,if_neg (by omega)]
      refine ⟨g,rfl,?_⟩
      dsimp only
      omega
  · rename_i hkeep
    refine ⟨g,rfl,?_⟩
    dsimp only
    rw [hb] at hkeep
    omega

theorem draft_spec {n : Nat} (hn : 72 ≤ n) : let capped := min (n-journalReserveBlocks) 4294967295
    ∃ g k, (capped+maxGroupBlocks-1)/maxGroupBlocks = g+1 ∧ exactIpg capped (g+1) = 32*k ∧
      32*k/(blockSize/inodeSize) = k ∧ 1 ≤ k ∧ k ≤ 256 ∧ g*maxGroupBlocks < capped ∧
      capped ≤ (g+1)*maxGroupBlocks ∧ capped < 4294967296 ∧ capped+65 ≤ n := by
  intro capped
  obtain ⟨g,hg,hlo,hhi,hlt,hjournal⟩ : ∃ g, (capped+maxGroupBlocks-1)/maxGroupBlocks = g+1 ∧
      g*maxGroupBlocks < capped ∧ capped ≤ (g+1)*maxGroupBlocks ∧ capped < 4294967296 ∧ capped+65 ≤ n := by
    refine ⟨(capped-1)/maxGroupBlocks,?_⟩
    simp only [capped,maxGroupBlocks,journalReserveBlocks,fmtLogBlocks]
    omega
  obtain ⟨k,hk,hk₁,hk₂⟩ := exactIpg_spec hhi (Nat.succ_pos _)
  exact ⟨g,k,hg,hk,Nat.mul_div_cancel_left k (by decide),hk₁,hk₂,hlo,hhi,hlt,hjournal⟩

/-- What holds of every plan. -/
structure Plan.Sane (deviceBlocks : Nat) (p : Plan) : Prop where
  groups : 0 < p.groups
  ipg : p.ipg = 32*p.itb
  itb_pos : 0 < p.itb
  itb_le : p.itb ≤ 256
  gdb : p.gdb = exactGdBlocks p.groups
  metaBlocks : p.metaBlocks = 1+p.gdb+2+p.itb
  tail : (p.groups-1)*32768+p.metaBlocks+2 ≤ p.totalBlocks
  total_le : p.totalBlocks ≤ p.groups*32768
  total_lt : p.totalBlocks < 4294967296
  journal : p.totalBlocks+65 ≤ deviceBlocks
  totalInodes : p.totalInodes = p.groups*p.ipg
  freeBlocks : p.freeBlocks+(p.metaBlocks*p.groups+1) = p.totalBlocks
  freeInodes : p.freeInodes+reservedInodes = p.totalInodes

variable {n g : Nat} {p : Plan}

theorem Plan.Sane.groups_le (h : p.Sane n) : p.groups ≤ 131072 := by
  have := h.tail
  have := h.total_lt
  omega

theorem Plan.Sane.meta_le (h : p.Sane n) : p.metaBlocks ≤ 1283 := by
  have := exactGdBlocks_le h.groups_le
  have := h.gdb
  have := h.metaBlocks
  have := h.itb_le
  omega

theorem minLayout_eq : 4+(minInodes*inodeSize+blockSize-1)/blockSize+1+1+journalReserveBlocks = 72 :=
  rfl

theorem exactPlan_sane (h : exactPlan n = some p) : p.Sane n := by
  unfold exactPlan at h
  rw [minLayout_eq] at h
  split at h
  · cases h
  rename_i hmin
  obtain ⟨g,k,hcount,hipg,hitb,hk₁,hk₂,hlo,hhi,hlt,hjournal⟩ := draft_spec (not_lt.1 hmin)
  simp only [hcount,hipg,hitb] at h
  obtain ⟨j,hgroups,hle,hlow,hhigh,htail⟩ := exactTail_spec hk₂ hlo hhi hlt
  simp only [hgroups] at h
  revert h hle hlow hhigh htail
  generalize (exactTail k (g+1) (min (n-journalReserveBlocks) 4294967295)).2 = total
  intro hle hlow hhigh htail h
  split at h
  · cases h
  split at h
  · cases h
  cases h
  rename_i hroot hused
  simp only [maxGroupBlocks] at hlow hhigh htail
  have hinodes : 32*k ≤ (j+1)*(32*k) := Nat.le_mul_of_pos_left _ (Nat.succ_pos j)
  by_cases hj : 0 < j <;> constructor <;> dsimp only [reservedInodes,ext2FirstIno] <;> omega

theorem planFormat_eq (n : Nat) : (planFormat n : EStateM Fault σ Plan) =
    (exactPlan n).elim (throw (.fs .outOfSpace)) pure := by
  unfold planFormat exactPlan
  rw [minLayout_eq]
  dsimp only
  rw [minLayout_eq]
  split
  · rfl
  rename_i hmin
  obtain ⟨g,k,hcount,hipg,hitb,hk₁,hk₂,hlo,hhi,hlt,hjournal⟩ := draft_spec (not_lt.1 hmin)
  rw [asU32_eq hlt]
  have hcount' : (min (n-journalReserveBlocks) 4294967295+maxGroupBlocks-1)/maxGroupBlocks <
      4294967296 := by
    rw [hcount]
    simp only [maxGroupBlocks] at hlo
    omega
  rw [asU32_eq hcount']
  simp only [hcount,hipg,hitb]
  rw [inodesPerGroup_eq hhi (Nat.succ_pos g),pure_bind,hipg,hitb,dropTail_eq hk₂ hlo hlt,pure_bind]
  obtain ⟨j,hgroups,hle,hlow,hhigh,htail⟩ := exactTail_spec hk₂ hlo hhi hlt
  revert hgroups hle hlow hhigh htail
  generalize exactTail k (g+1) (min (n-journalReserveBlocks) 4294967295) = r
  obtain ⟨groups,total⟩ := r
  rintro rfl hle hlow hhigh htail
  dsimp only at hle hlow hhigh htail ⊢
  have hj : j+1 ≤ 131072 := by
    simp only [maxGroupBlocks] at hlow
    omega
  have hgd := exactGdBlocks_le hj
  have hinodes : 32*k ≤ (j+1)*(32*k) := Nat.le_mul_of_pos_left _ (Nat.succ_pos j)
  have hinodes' : (j+1)*(32*k) ≤ 131072*8192 := Nat.mul_le_mul hj (by omega)
  have hused : (1+exactGdBlocks (j+1)+2+k)*(j+1) ≤ 1283*131072 := Nat.mul_le_mul (by omega) hj
  rw [gdBlocks_eq hj,u32_pure (by omega),pure_bind,u32_pure (by omega),pure_bind,
    u32_pure (by omega),pure_bind]
  split
  · rfl
  rw [u32_pure (by omega),pure_bind]
  split
  · rfl
  rw [usub_pure (by omega),pure_bind,usub_pure (by simp only [reservedInodes,ext2FirstIno]; omega),pure_bind]
  rfl

namespace Plan

def groupSpan (p : Plan) (g : Nat) : Nat := min maxGroupBlocks (p.totalBlocks-g*maxGroupBlocks)

def usedBlocks (p : Plan) (g : Nat) : Nat := if g = 0 then p.metaBlocks+1 else p.metaBlocks

def usedInodes (g : Nat) : Nat := if g = 0 then reservedInodes else 0

def exactDesc (p : Plan) (g : Nat) : GroupDesc where
  bgBlockBitmap := g*maxGroupBlocks+1+p.gdb
  bgInodeBitmap := g*maxGroupBlocks+1+p.gdb+1
  bgInodeTable := g*maxGroupBlocks+1+p.gdb+2
  bgFreeBlocksCount := p.groupSpan g-p.usedBlocks g
  bgFreeInodesCount := p.ipg-usedInodes g
  bgUsedDirsCount := if g = 0 then 1 else 0
  bgPad := 0
  bgReserved := 0

def exactDescs (p : Plan) : List GroupDesc := (List.range p.groups).map p.exactDesc

namespace Sane

variable (h : p.Sane n)
include h

theorem room (hg : g < p.groups) : p.metaBlocks ≤ p.usedBlocks g ∧ p.usedBlocks g < p.groupSpan g ∧
    p.groupSpan g ≤ 32768 ∧ g*32768+p.groupSpan g ≤ p.totalBlocks := by
  have htail := h.tail
  have hmeta := h.meta_le
  simp only [usedBlocks,groupSpan,maxGroupBlocks]
  split <;> omega

theorem table_lt (hg : g < p.groups) : g*maxGroupBlocks+p.metaBlocks < 4294967296 := by
  have hroom := h.room hg
  have hlt := h.total_lt
  simp only [maxGroupBlocks]
  omega

theorem extent_eq (hg : g < p.groups) :
    (p.extent g : EStateM Fault σ (Nat × Nat)) = pure (g*maxGroupBlocks,p.groupSpan g) := by
  obtain ⟨-,-,-,hle⟩ := h.room hg
  have hlt := h.total_lt
  have hbase : g*maxGroupBlocks ≤ p.totalBlocks := Nat.le_trans (Nat.le_add_right _ _) hle
  unfold extent groupSpan
  rw [u32_pure (Nat.lt_of_le_of_lt hbase hlt),pure_bind,usub_pure hbase,pure_bind]

theorem used_eq : (p.used g : EStateM Fault σ Nat) = pure (p.usedBlocks g) := by
  have hmeta := h.meta_le
  unfold used usedBlocks
  split
  · exact u32_pure (by omega)
  · rfl

theorem groupDesc_eq (hg : g < p.groups) :
    (p.groupDesc g : EStateM Fault σ GroupDesc) = pure (p.exactDesc g) := by
  have hroom := h.room hg
  have htable := h.table_lt hg
  have hmeta := h.metaBlocks
  have hipg := h.ipg
  have hitb := h.itb_le
  have hitb' := h.itb_pos
  have hreserved : reservedInodes = 10 := rfl
  unfold groupDesc exactDesc
  rw [h.extent_eq hg,pure_bind]
  dsimp only
  rw [h.used_eq,pure_bind,u32_pure (by omega),pure_bind,u32_pure (by omega),pure_bind,
    u32_pure (by omega),pure_bind,usub_pure (by omega),pure_bind,
    asU16_eq (show p.groupSpan g-p.usedBlocks g < 65536 by omega)]
  unfold usedInodes
  split
  · rw [usub_pure (by omega),pure_bind,asU16_eq (by omega)]
  · rw [pure_bind,asU16_eq (by omega),Nat.sub_zero]

theorem groupDescs_eq {k : Nat} (hk : g+k ≤ p.groups) :
    (p.groupDescs k g : EStateM Fault σ (List GroupDesc)) = pure ((List.range' g k).map p.exactDesc) := by
  induction k generalizing g with
  | zero => rfl
  | succ k ih =>
    rw [groupDescs,h.groupDesc_eq (by omega),pure_bind,ih (by omega),pure_bind]
    rfl

end Sane

end Plan

end Exact

inductive Part where
  | superCopy | gdTable | blockBitmap | inodeBitmap | inodeTable
  deriving DecidableEq

inductive Area where
  | part (g : Nat) (k : Part)
  | rootDir
  | journal
  deriving DecidableEq

def Part.offset (p : Plan) : Part → Nat
  | .superCopy => 0
  | .gdTable => 1
  | .blockBitmap => 1+p.gdb
  | .inodeBitmap => 1+p.gdb+1
  | .inodeTable => 1+p.gdb+2

def Part.blocks (p : Plan) : Part → Nat
  | .superCopy => 1
  | .gdTable => p.gdb
  | .blockBitmap => 1
  | .inodeBitmap => 1
  | .inodeTable => p.itb

def Area.start (p : Plan) : Area → Nat
  | .part g k => g*maxGroupBlocks+k.offset p
  | .rootDir => p.metaBlocks
  | .journal => p.totalBlocks

def Area.blocks (p : Plan) : Area → Nat
  | .part _ k => k.blocks p
  | .rootDir => 1
  | .journal => journalReserveBlocks

def Area.stop (p : Plan) (a : Area) : Nat := a.start p+a.blocks p

def Area.Of (p : Plan) : Area → Prop
  | .part g _ => g < p.groups
  | .rootDir => True
  | .journal => True

section Areas

variable {n g : Nat} {p : Plan}

theorem Part.disjoint {k k' : Part} (hne : k ≠ k') : k.offset p+k.blocks p ≤ k'.offset p ∨
    k'.offset p+k'.blocks p ≤ k.offset p := by
  cases k <;> cases k' <;> simp only [Part.offset,Part.blocks] <;> first | omega | exact absurd rfl hne

/-- One of two areas ends before the other begins. -/
def Area.Apart (p : Plan) (a b : Area) : Prop := a.stop p ≤ b.start p ∨ b.stop p ≤ a.start p

variable (h : p.Sane n)
include h

theorem Part.offset_le (k : Part) : k.offset p+k.blocks p ≤ p.metaBlocks := by
  have := h.metaBlocks
  cases k <;> simp only [Part.offset,Part.blocks] <;> omega

namespace Plan.Sane

theorem part_stop (hg : g < p.groups) (k : Part) : (Area.part g k).stop p ≤ g*32768+p.metaBlocks ∧
    g*32768+p.metaBlocks+2 ≤ p.totalBlocks ∧ p.metaBlocks ≤ 1283 := by
  have hle := Part.offset_le h k
  have htail := h.tail
  have hmeta := h.meta_le
  simp only [Area.stop,Area.start,Area.blocks,maxGroupBlocks]
  omega

theorem areas_inside {a : Area} (ha : a.Of p) : a.stop p ≤ n := by
  have hjournal := h.journal
  cases a with
  | part g k =>
    have := h.part_stop ha k
    omega
  | rootDir =>
    have := h.part_stop h.groups .superCopy
    simp only [Area.stop,Area.start,Area.blocks]
    omega
  | journal => exact hjournal

theorem part_apart_root (hg : g < p.groups) (k : Part) : (Area.part g k).Apart p .rootDir := by
  have hpart := h.part_stop hg k
  simp only [Area.Apart,Area.stop,Area.start,Area.blocks,maxGroupBlocks] at *
  by_cases hg : g = 0 <;> omega

theorem part_apart_journal (hg : g < p.groups) (k : Part) : (Area.part g k).Apart p .journal := by
  have hpart := h.part_stop hg k
  exact .inl (by simp only [Area.start]; omega)

theorem root_apart_journal : Area.rootDir.Apart p .journal := by
  have hroot := h.part_stop h.groups .superCopy
  exact .inl (by simp only [Area.stop,Area.start,Area.blocks]; omega)

theorem parts_apart {g' : Nat} (hg : g < p.groups) (hg' : g' < p.groups)
    {k k' : Part} (hne : Area.part g k ≠ .part g' k') : (Area.part g k).Apart p (.part g' k') := by
  have hpart := h.part_stop hg k
  have hpart' := h.part_stop hg' k'
  simp only [Area.Apart,Area.stop,Area.start,Area.blocks,maxGroupBlocks] at *
  rcases lt_trichotomy g g' with hlt | rfl | hgt
  · omega
  · have := Part.disjoint (p := p) (show k ≠ k' from fun heq => hne (by rw [heq]))
    omega
  · omega

theorem areas_apart {a b : Area} (ha : a.Of p) (hb : b.Of p) (hne : a ≠ b) : a.Apart p b := by
  cases a with
  | part g k =>
    cases b with
    | part g' k' => exact h.parts_apart ha hb hne
    | rootDir => exact h.part_apart_root ha k
    | journal => exact h.part_apart_journal ha k
  | rootDir =>
    cases b with
    | part g k => exact (h.part_apart_root hb k).symm
    | rootDir => exact absurd rfl hne
    | journal => exact h.root_apart_journal
  | journal =>
    cases b with
    | part g k => exact (h.part_apart_journal hb k).symm
    | rootDir => exact h.root_apart_journal.symm
    | journal => exact absurd rfl hne

end Plan.Sane

end Areas

end PaghOS.Ext2
