import PaghOS.Ext2.Geometry

/-!
The image `format` writes: its writes one after the other, what the bitmaps say, and
that the free counts of superblock and descriptors agree with them.
-/

namespace PaghOS.Ext2
open List Plan

variable {k block i off : Nat} {α : Type} {data : Block} {gd : GroupDesc}

abbrev BlockWrite := Nat × Block

def Device.writeAll (d : Device) (ws : List BlockWrite) : Device :=
  ws.foldl (fun d w => d.write w.1 w.2) d

def Device.Has (d : Device) (block : Nat) : Prop := block*sectorsPerBlock+sectorsPerBlock ≤ d.sectors

/-- On a device that has the blocks, the action does just these writes. -/
def Emits (a : Io Unit) (ws : List BlockWrite) : Prop :=
  ∀ d : Device, (∀ w ∈ ws, d.Has w.1) → a d = .ok () (d.writeAll ws)

section Emitting

variable {a b : Io Unit} {ws vs : List BlockWrite} {d : Device}

theorem writeAll_append (d : Device) (ws vs : List BlockWrite) :
    d.writeAll (ws ++ vs) = (d.writeAll ws).writeAll vs := foldl_append

theorem writeAll_sectors (d : Device) (ws : List BlockWrite) : (d.writeAll ws).sectors = d.sectors := by
  induction ws generalizing d with
  | nil => rfl
  | cons w ws ih => exact ih (d.write w.1 w.2)

theorem writeAll_has (d : Device) (ws : List BlockWrite) (block : Nat) :
    (d.writeAll ws).Has block ↔ d.Has block := by
  rw [Device.Has,Device.Has,writeAll_sectors]

theorem emits_pure : Emits (pure ()) [] := fun _ _ => rfl

theorem emits_write (block : Nat) (data : Block) : Emits (writeFsBlock block data) [(block,data)] := by
  intro d hd
  exact if_pos (hd (block,data) (by simp))

theorem Emits.bind (ha : Emits a ws) (hb : Emits b vs) : Emits (a >>= fun _ => b) (ws ++ vs) := by
  intro d hd
  simp only [mem_append] at hd
  have h₁ := ha d fun w hw => hd w (.inl hw)
  have h₂ := hb (d.writeAll ws) fun w hw => (writeAll_has d ws w.1).mpr (hd w (.inr hw))
  rw [writeAll_append,← h₂]
  change EStateM.bind a (fun _ => b) d = _
  rw [EStateM.bind,h₁]

theorem emits_forM {f : α → Io Unit} {out : α → List BlockWrite} {l : List α}
    (h : ∀ x ∈ l, Emits (f x) (out x)) : Emits (l.forM f) (l.flatMap out) := by
  induction l with
  | nil => exact emits_pure
  | cons x l ih =>
    rw [forall_mem_cons] at h
    exact h.1.bind (ih h.2)

theorem cells_writeAll (hsome : ∃ w ∈ ws, w.1 = block)
    (hall : ∀ w ∈ ws, w.1 = block → w.2 = data) : (d.writeAll ws).cells block = data := by
  have hkept : ∀ (ws : List BlockWrite) (d : Device), (∀ w ∈ ws, w.1 = block → w.2 = data) →
      d.cells block = data → (d.writeAll ws).cells block = data := by
    intro ws
    induction ws with
    | nil => exact fun d _ hd => hd
    | cons w ws ih =>
      intro d hall hd
      rw [forall_mem_cons] at hall
      refine ih (d.write w.1 w.2) hall.2 ?_
      by_cases heq : block = w.1
      · simp [Device.write,heq,hall.1 heq.symm]
      · simp [Device.write,heq,hd]
  obtain ⟨w,hw,rfl⟩ := hsome
  obtain ⟨pre,post,rfl⟩ := append_of_mem hw
  rw [writeAll_append]
  refine hkept post _ (fun v hv => hall v (by simp [hv])) ?_
  have := hall w (by simp) rfl
  simp [Device.write,this]

end Emitting

namespace Plan

def superImage (p : Plan) : Block := writeSuper Page.zero superblockOffset p.super

def blockBitmap (p : Plan) (g : Nat) : Block :=
  setRange (setRange Page.zero 0 (p.usedBlocks g)) (p.groupSpan g) maxGroupBlocks

def inodeBitmap (p : Plan) (g : Nat) : Block :=
  setRange (if g = 0 then setRange Page.zero 0 reservedInodes else Page.zero) p.ipg maxGroupInodes

def groupWrites (p : Plan) (g : Nat) : List BlockWrite :=
  [(g*maxGroupBlocks,p.superImage)] ++
    ((List.range p.gdb).flatMap (fun i => [(g*maxGroupBlocks+1+i,gdTable p.exactDescs i)]) ++
      ([((p.exactDesc g).bgBlockBitmap,p.blockBitmap g)] ++
        ([((p.exactDesc g).bgInodeBitmap,p.inodeBitmap g)] ++
          (List.range p.itb).flatMap (fun b => [((p.exactDesc g).bgInodeTable+b,Page.zero)]))))

def formatWrites (p : Plan) : List BlockWrite :=
  (List.range p.groups).flatMap p.groupWrites ++
    ([(p.metaBlocks,initDotEntries ext2RootIno ext2RootIno)] ++
      ([((p.exactDesc 0).bgInodeTable,writeInodeAt Page.zero inodeSize (rootInode p.metaBlocks))] ++
        ([(p.totalBlocks,storeJournalSuper Page.zero ⟨jnlMagic,0,0,1,fmtLogBlocks,p.totalBlocks,0⟩)] ++
          [(p.totalBlocks+1,Page.zero)])))

end Plan

variable {n g : Nat} {p : Plan}

section Writing

variable {w : BlockWrite}

theorem Plan.Sane.writeGroup_emits (h : p.Sane n) (hg : g < p.groups) :
    Emits (writeGroup p p.exactDescs g (p.exactDesc g)) (p.groupWrites g) := by
  have hmeta := h.metaBlocks
  have hend := h.table_lt hg
  unfold writeGroup groupWrites
  simp only [h.extent_eq hg,h.used_eq,pure_bind]
  refine (emits_write _ _).bind (Emits.bind ?_ ((emits_write _ _).bind ((emits_write _ _).bind ?_)))
  · refine emits_forM (fun i hi => ?_)
    rw [mem_range] at hi
    rw [u32_pure (by omega),pure_bind]
    exact emits_write _ _
  refine emits_forM fun i hi => ?_
  rw [mem_range] at hi
  have htable : (p.exactDesc g).bgInodeTable = g*maxGroupBlocks+1+p.gdb+2 := rfl
  rw [u32_pure (by omega),pure_bind]
  exact emits_write _ _

theorem Plan.Sane.writeGroups_emits (h : p.Sane n) (hk : g+k ≤ p.groups) :
    Emits (writeGroups p p.exactDescs g ((List.range' g k).map p.exactDesc))
      ((List.range' g k).flatMap p.groupWrites) := by
  induction k generalizing g with
  | zero => exact emits_pure
  | succ k ih =>
    rw [List.range'_succ,map_cons,flatMap_cons]
    exact (h.writeGroup_emits (by omega)).bind (ih (by omega))

theorem Plan.exactDescs_getElem (hg : g < p.groups) : p.exactDescs[g]? = some (p.exactDesc g) := by
  simp [exactDescs,hg]

theorem Plan.Sane.rootLocation (h : p.Sane n) : inodeLocation p.super p.exactDescs ext2RootIno =
    .ok ((p.exactDesc 0).bgInodeTable,inodeSize) := by
  have hipg := h.ipg
  have hitb := h.itb_pos
  have hinodes : 32 ≤ p.totalInodes := by
    rw [h.totalInodes]
    exact le_trans (by omega) (Nat.le_mul_of_pos_left p.ipg h.groups)
  have hindex : (ext2RootIno-1)/max p.super.sInodesPerGroup 1 = 0 :=
    Nat.div_eq_of_lt (by simp only [ext2RootIno,Plan.super]; omega)
  have hwithin : (ext2RootIno-1)%max p.super.sInodesPerGroup 1 = 1 :=
    Nat.mod_eq_of_lt (by simp only [ext2RootIno,Plan.super]; omega)
  have hsize : p.super.inodeSize = inodeSize := by
    have hcast : asU16 inodeSize = inodeSize := rfl
    simp [SuperBlock.inodeSize,Plan.super,hcast]
  unfold inodeLocation
  rw [if_neg (by simp only [ext2RootIno,Plan.super]; omega)]
  simp only [hindex,hwithin,hsize,exactDescs_getElem h.groups]
  rfl

theorem Plan.exactDescs_eq : p.exactDescs = (List.range' 0 p.groups).map p.exactDesc := by
  rw [exactDescs,range_eq_range']

theorem Plan.Sane.emits (h : p.Sane n) : Emits (do
    writeGroups p p.exactDescs 0 p.exactDescs
    writeFsBlock p.metaBlocks (initDotEntries ext2RootIno ext2RootIno)
    writeFsBlock (p.exactDesc 0).bgInodeTable
      (writeInodeAt Page.zero inodeSize (rootInode p.metaBlocks))
    Journal.format (journalArea p.super)) p.formatWrites := by
  have hgroups := h.writeGroups_emits (g := 0) (k := p.groups) (by omega)
  rw [← exactDescs_eq,← range_eq_range'] at hgroups
  refine hgroups.bind ((emits_write _ _).bind ((emits_write _ _).bind ?_))
  exact (emits_write _ _).bind (emits_write _ _)

theorem format_eq (d : Device) (hplan : exactPlan (d.sectors/sectorsPerBlock) = some p)
    (hin : ∀ w ∈ p.formatWrites, d.Has w.1) : format d = .ok () (d.writeAll p.formatWrites) := by
  have h := exactPlan_sane hplan
  have hdescs : (p.groupDescs p.groups 0 : Io (List GroupDesc)) = pure p.exactDescs := by
    rw [h.groupDescs_eq (by omega),exactDescs_eq]
  rw [← h.emits d hin]
  unfold format
  change (planFormat (d.sectors/sectorsPerBlock) >>= _) d = _
  rw [planFormat_eq,hplan,Option.elim_some,pure_bind,hdescs,pure_bind,h.rootLocation]

theorem format_refused (d : Device) (hplan : exactPlan (d.sectors/sectorsPerBlock) = none) :
    format d = .error (.fs .outOfSpace) d := by
  unfold format
  change (planFormat (d.sectors/sectorsPerBlock) >>= _) d = _
  rw [planFormat_eq,hplan]
  rfl

def Plan.Holds (p : Plan) : Area → Nat → Block → Prop
  | .part _ .superCopy, _, b => b = p.superImage
  | .part _ .gdTable, i, b => b = gdTable p.exactDescs i
  | .part g .blockBitmap, _, b => b = p.blockBitmap g
  | .part g .inodeBitmap, _, b => b = p.inodeBitmap g
  | .part g .inodeTable, i, b => b = Page.zero ∨ g = 0 ∧ i = 0
  | .rootDir, _, _ => True
  | .journal, _, _ => True

def Plan.WritesTo (p : Plan) (a : Area) (i : Nat) (w : BlockWrite) : Prop :=
  a.Of p ∧ i < a.blocks p ∧ w.1 = a.start p+i ∧ p.Holds a i w.2

def Plan.partStart (p : Plan) (g : Nat) : Part → Nat
  | .superCopy => g*maxGroupBlocks
  | .gdTable => g*maxGroupBlocks+1
  | .blockBitmap => (p.exactDesc g).bgBlockBitmap
  | .inodeBitmap => (p.exactDesc g).bgInodeBitmap
  | .inodeTable => (p.exactDesc g).bgInodeTable

theorem Area.start_part (p : Plan) (g : Nat) (k : Part) : (Area.part g k).start p = p.partStart g k := by
  cases k <;> simp only [Area.start,Part.offset,partStart,exactDesc] <;> omega

theorem groupWrites_area (hg : g < p.groups) (hw : w ∈ p.groupWrites g) :
    ∃ k i, p.WritesTo (.part g k) i w := by
  simp only [groupWrites,mem_append,mem_singleton,mem_flatMap,mem_range] at hw
  have hstart : ∀ k i, p.partStart g k+i = (Area.part g k).start p+i := fun k i => by rw [Area.start_part]
  have hone : ∀ k, p.partStart g k = (Area.part g k).start p+0 := fun k => by rw [← hstart,add_zero]
  rcases hw with rfl | ⟨i,hi,rfl⟩ | rfl | rfl | ⟨i,hi,rfl⟩
  · exact ⟨.superCopy,0,hg,one_pos,hone .superCopy,rfl⟩
  · exact ⟨.gdTable,i,hg,hi,hstart .gdTable i,rfl⟩
  · exact ⟨.blockBitmap,0,hg,one_pos,hone .blockBitmap,rfl⟩
  · exact ⟨.inodeBitmap,0,hg,one_pos,hone .inodeBitmap,rfl⟩
  · exact ⟨.inodeTable,i,hg,hi,hstart .inodeTable i,.inl rfl⟩

theorem Plan.Sane.formatWrites_area (h : p.Sane n) (hw : w ∈ p.formatWrites) :
    ∃ a i, p.WritesTo a i w := by
  simp only [formatWrites,mem_append,mem_singleton,mem_flatMap,mem_range] at hw
  rcases hw with ⟨g,hg,hw⟩ | rfl | rfl | rfl | rfl
  · obtain ⟨k,i,hk⟩ := groupWrites_area hg hw
    exact ⟨_,i,hk⟩
  · exact ⟨.rootDir,0,trivial,one_pos,rfl,trivial⟩
  · exact ⟨.part 0 .inodeTable,0,h.groups,h.itb_pos,(Area.start_part p 0 .inodeTable).symm,.inr ⟨rfl,rfl⟩⟩
  · exact ⟨.journal,0,trivial,show 0 < journalReserveBlocks by decide,rfl,trivial⟩
  · exact ⟨.journal,1,trivial,show 1 < journalReserveBlocks by decide,rfl,trivial⟩

theorem Plan.Sane.formatWrites_has {d : Device} (h : p.Sane (d.sectors/sectorsPerBlock)) :
    ∀ w ∈ p.formatWrites, d.Has w.1 := by
  intro w hw
  obtain ⟨a,i,ha,hi,hblock,-⟩ := h.formatWrites_area hw
  have hstop := h.areas_inside ha
  simp only [Area.stop,Device.Has,sectorsPerBlock] at *
  omega

theorem Plan.Sane.area_unique (h : p.Sane n) {a b : Area} (ha : a.Of p) (hb : b.Of p) {j : Nat}
    (hi : i < a.blocks p) (hj : j < b.blocks p) (heq : a.start p+i = b.start p+j) : a = b ∧ i = j := by
  by_cases hab : a = b
  · subst hab
    exact ⟨rfl,by omega⟩
  · have := h.areas_apart ha hb hab
    simp only [Area.Apart,Area.stop] at this
    omega

theorem Plan.Sane.formatted_part {d : Device} (h : p.Sane n) (hg : g < p.groups) {k : Part}
    (hi : i < k.blocks p) (hsome : ∃ w ∈ p.formatWrites, w.1 = p.partStart g k+i)
    (hdata : ∀ b, p.Holds (.part g k) i b → b = data) :
    (d.writeAll p.formatWrites).cells (p.partStart g k+i) = data := by
  refine cells_writeAll hsome fun w hw hblock => ?_
  obtain ⟨b,j,hb,hj,heq,hholds⟩ := h.formatWrites_area hw
  rw [← Area.start_part] at hblock
  obtain ⟨rfl,rfl⟩ := h.area_unique (a := .part g k) hg hb hi hj (hblock.symm.trans heq)
  exact hdata _ hholds

theorem mem_formatWrites_group (hg : g < p.groups) (hw : w ∈ p.groupWrites g) : w ∈ p.formatWrites := by
  simp only [formatWrites,mem_append,mem_flatMap,mem_range]
  exact .inl ⟨g,hg,hw⟩

theorem Plan.Sane.formatted_group (h : p.Sane n) (hg : g < p.groups) (d : Device) :
    (d.writeAll p.formatWrites).cells (g*maxGroupBlocks) = p.superImage ∧
      (∀ i, i < p.gdb → (d.writeAll p.formatWrites).cells (g*maxGroupBlocks+1+i) = gdTable p.exactDescs i) ∧
      (d.writeAll p.formatWrites).cells (p.exactDesc g).bgBlockBitmap = p.blockBitmap g ∧
      (d.writeAll p.formatWrites).cells (p.exactDesc g).bgInodeBitmap = p.inodeBitmap g := by
  have hmem : ∀ w ∈ p.groupWrites g, w ∈ p.formatWrites := fun w => mem_formatWrites_group hg
  simp only [groupWrites,mem_append,mem_singleton,mem_flatMap,mem_range] at hmem
  have hone : ∀ {k data}, 0 < k.blocks p → (p.partStart g k,data) ∈ p.formatWrites →
      (∀ b, p.Holds (.part g k) 0 b → b = data) →
      (d.writeAll p.formatWrites).cells (p.partStart g k) = data := fun hk hw hdata =>
    h.formatted_part hg hk ⟨_,hw,(add_zero _).symm⟩ hdata
  exact ⟨hone (k := .superCopy) one_pos (hmem _ (.inl rfl)) fun _ hb => hb,
    fun i hi => h.formatted_part (k := .gdTable) hg hi ⟨_,hmem _ (.inr (.inl ⟨i,hi,rfl⟩)),rfl⟩ fun _ hb => hb,
    hone (k := .blockBitmap) one_pos (hmem _ (.inr (.inr (.inl rfl)))) fun _ hb => hb,
    hone (k := .inodeBitmap) one_pos (hmem _ (.inr (.inr (.inr (.inl rfl))))) fun _ hb => hb⟩

end Writing

section Bitmaps

theorem testBit_setRange {hi : Nat} (hmax : hi ≤ 32768) (bm : Block) (lo j : Nat) :
    testBit (setRange bm lo hi) j = (decide (lo ≤ j ∧ j < hi) || testBit bm j) := by
  have hfold : ∀ (k lo : Nat) (bm : Block), lo+k ≤ 32768 →
      testBit ((List.range' lo k).foldl setBit bm) j =
        (decide (lo ≤ j ∧ j < lo+k) || testBit bm j) := by
    intro k
    induction k with
    | zero =>
      intro lo bm _
      simp
    | succ k ih =>
      intro lo bm hle
      rw [List.range'_succ,foldl_cons,ih (lo+1) _ (by omega),testBit_setBit bm (by omega),
        ← Bool.or_assoc,← Bool.decide_or]
      congr 1
      exact decide_eq_decide.mpr (by omega)
  by_cases hle : lo ≤ hi
  · rw [setRange,hfold (hi-lo) lo bm (by omega)]
    congr 1
    exact decide_eq_decide.mpr (by omega)
  have hlen : hi-lo = 0 := by omega
  have hnone : ¬(lo ≤ j ∧ j < hi) := by omega
  rw [setRange,hlen]
  simp [hnone]

theorem Plan.Sane.testBit_blockBitmap (h : p.Sane n) (hg : g < p.groups) (j : Nat) :
    testBit (p.blockBitmap g) j = decide (j < p.usedBlocks g ∨ p.groupSpan g ≤ j ∧ j < maxGroupBlocks) := by
  have hroom := h.room hg
  rw [blockBitmap,testBit_setRange (show maxGroupBlocks ≤ 32768 from le_rfl),
    testBit_setRange (by omega),testBit_zero,Bool.or_false,← Bool.decide_or]
  refine decide_eq_decide.mpr ?_
  omega

theorem Plan.testBit_inodeBitmap (p : Plan) (g j : Nat) : testBit (p.inodeBitmap g) j =
      decide (j < usedInodes g ∨ p.ipg ≤ j ∧ j < maxGroupInodes) := by
  have hbase : testBit (if g = 0 then setRange Page.zero 0 reservedInodes else Page.zero) j =
      decide (j < usedInodes g) := by
    unfold usedInodes
    split
    · rw [testBit_setRange (by decide),testBit_zero,Bool.or_false]
      exact decide_eq_decide.mpr (by omega)
    · rw [testBit_zero]
      simp
  rw [inodeBitmap,testBit_setRange (show maxGroupInodes ≤ 32768 from le_rfl),hbase,
    ← Bool.decide_or]
  exact decide_eq_decide.mpr Or.comm

theorem countP_range_lt (u n : Nat) : (List.range n).countP (fun j => decide (j < u)) = min u n := by
  induction n with
  | zero => simp
  | succ n ih =>
    rw [range_succ,countP_append,ih,countP_singleton]
    simp only [decide_eq_true_eq]
    split <;> omega

theorem countSetBits_start {bm : Block} {u span limit : Nat} (hu : u ≤ span)
    (hbits : ∀ j, testBit bm j = decide (j < u ∨ span ≤ j ∧ j < limit)) : countSetBits bm span = u := by
  have hcount : countSetBits bm span = (List.range span).countP (fun j => decide (j < u)) := by
    refine countP_congr fun j hj => ?_
    rw [mem_range] at hj
    simp only [hbits,decide_eq_true_eq]
    omega
  rw [hcount,countP_range_lt]
  omega

theorem Plan.Sane.countBlocks (h : p.Sane n) (hg : g < p.groups) :
    countSetBits (p.blockBitmap g) (p.groupSpan g) = p.usedBlocks g :=
  countSetBits_start (le_of_lt (h.room hg).2.1) (h.testBit_blockBitmap hg)

theorem Plan.Sane.usedInodes_le (h : p.Sane n) (g : Nat) : usedInodes g ≤ p.ipg := by
  have hipg := h.ipg
  have hitb := h.itb_pos
  simp only [usedInodes,reservedInodes,ext2FirstIno]
  split <;> omega

theorem Plan.Sane.countInodes (h : p.Sane n) (g : Nat) :
    countSetBits (p.inodeBitmap g) p.ipg = usedInodes g :=
  countSetBits_start (h.usedInodes_le g) (p.testBit_inodeBitmap g)

end Bitmaps

def Plan.freeBefore (p : Plan) : Nat → Nat
  | 0 => 0
  | g+1 => p.freeBefore g+(p.groupSpan g-p.usedBlocks g)

def Plan.inodesBefore (p : Plan) : Nat → Nat
  | 0 => 0
  | g+1 => p.inodesBefore g+(p.ipg-usedInodes g)

section Counts

theorem Plan.Sane.freeBefore_eq (h : p.Sane n) (hg : g ≤ p.groups) :
    p.freeBefore g+(p.metaBlocks*g+min g 1) = min (g*32768) p.totalBlocks := by
  induction g with
  | zero => simp [freeBefore]
  | succ g ih =>
    have hsum := ih (by omega)
    obtain ⟨-,hroom,hspan,hle⟩ := h.room (show g < p.groups by omega)
    rw [freeBefore,Nat.mul_succ]
    simp only [groupSpan,usedBlocks,maxGroupBlocks] at hroom hspan hle ⊢
    by_cases hzero : g = 0
    · rw [if_pos hzero] at hroom ⊢
      omega
    · rw [if_neg hzero] at hroom ⊢
      omega

theorem Plan.Sane.freeBefore_groups (h : p.Sane n) : p.freeBefore p.groups = p.freeBlocks := by
  have hsum := h.freeBefore_eq le_rfl
  have hfree := h.freeBlocks
  have htotal := h.total_le
  have hgroups := h.groups
  omega

theorem Plan.Sane.inodesBefore_eq (h : p.Sane n) (g : Nat) :
    p.inodesBefore g+min g 1*reservedInodes = g*p.ipg := by
  induction g with
  | zero => simp [inodesBefore]
  | succ g ih =>
    have hle := h.usedInodes_le g
    rw [inodesBefore,Nat.succ_mul]
    simp only [usedInodes,reservedInodes,ext2FirstIno] at ih hle ⊢
    by_cases hzero : g = 0
    · rw [if_pos hzero] at hle ⊢
      omega
    · rw [if_neg hzero] at hle ⊢
      omega

theorem Plan.Sane.inodesBefore_groups (h : p.Sane n) : p.inodesBefore p.groups = p.freeInodes := by
  have hsum := h.inodesBefore_eq p.groups
  have hfree := h.freeInodes
  have htotal := h.totalInodes
  have hgroups := h.groups
  have hone : min p.groups 1 = 1 := by omega
  rw [hone,one_mul] at hsum
  omega

theorem Plan.Sane.inodes_lt (h : p.Sane n) (hg : g ≤ p.groups) : g*p.ipg < 4294967296 := by
  have hgroups := h.groups_le
  have hipg := h.ipg
  have hitb := h.itb_le
  have : g*p.ipg ≤ 131072*8192 := Nat.mul_le_mul (by omega) (by omega)
  omega

end Counts

theorem read_bind {d : Device} (h : d.Has block) (f : Block → Io α) :
    (readFsBlock block >>= f) d = f (d.cells block) d := by
  have hread : readFsBlock block d = .ok (d.cells block) d := if_pos h
  change EStateM.bind (readFsBlock block) f d = _
  rw [EStateM.bind,hread]

section Reconcile

variable {d : Device}

theorem Plan.Sane.has_bitmaps (h : p.Sane (d.sectors/sectorsPerBlock)) (hg : g < p.groups) :
    d.Has (p.exactDesc g).bgBlockBitmap ∧ d.Has (p.exactDesc g).bgInodeBitmap := by
  have hb := h.areas_inside (a := .part g .blockBitmap) hg
  have hi := h.areas_inside (a := .part g .inodeBitmap) hg
  simp only [Area.stop,Area.start_part,partStart,Area.blocks,Part.blocks] at hb hi
  simp only [Device.Has,sectorsPerBlock] at *
  omega

theorem Plan.Sane.countFree_eq (h : p.Sane (d.sectors/sectorsPerBlock)) (hg : g < p.groups) :
    countFree p.super g (p.exactDesc g) (d.writeAll p.formatWrites) =
      .ok (p.groupSpan g-p.usedBlocks g,p.ipg-usedInodes g) (d.writeAll p.formatWrites) := by
  obtain ⟨hbb,hib⟩ := h.has_bitmaps hg
  obtain ⟨-,-,hbbm,hibm⟩ := h.formatted_group hg d
  obtain ⟨-,-,-,hle⟩ := h.room hg
  have hlt := h.total_lt
  have hbase : g*maxGroupBlocks < 4294967296 :=
    Nat.lt_of_le_of_lt (Nat.le_trans (Nat.le_add_right _ _) hle) hlt
  have hispan : min p.ipg (p.totalInodes-g*p.ipg) = p.ipg := by
    have hmul : (g+1)*p.ipg ≤ p.groups*p.ipg := Nat.mul_le_mul_right _ hg
    rw [Nat.succ_mul] at hmul
    have := h.totalInodes
    omega
  have hbpg : p.super.sBlocksPerGroup = maxGroupBlocks := rfl
  have hfirst : p.super.sFirstDataBlock = 0 := rfl
  have hcount : p.super.sBlocksCount = p.totalBlocks := rfl
  have hipg : p.super.sInodesPerGroup = p.ipg := rfl
  have hinodes : p.super.sInodesCount = p.totalInodes := rfl
  unfold countFree
  rw [hbpg,hfirst,hcount,hipg,hinodes,u32_pure hbase,pure_bind,Nat.zero_add,u32_pure hbase,pure_bind]
  rw [read_bind ((writeAll_has d _ _).mpr hbb),read_bind ((writeAll_has d _ _).mpr hib),
    u32_pure (h.inodes_lt (Nat.le_of_lt hg)),pure_bind,hispan,hbbm,hibm,h.countInodes]
  have hblocks := h.countBlocks hg
  rw [groupSpan] at hblocks
  rw [hblocks,groupSpan]
  rfl

theorem Plan.Sane.tally_eq (h : p.Sane (d.sectors/sectorsPerBlock)) (hk : g+k ≤ p.groups) :
    tally p.super g ((List.range' g k).map p.exactDesc) (p.freeBefore g) (p.inodesBefore g)
        (d.writeAll p.formatWrites) =
      .ok ⟨p.freeBefore (g+k),p.inodesBefore (g+k),(List.range' g k).map p.exactDesc,false⟩
        (d.writeAll p.formatWrites) := by
  induction k generalizing g with
  | zero => rfl
  | succ k ih =>
    have hblocks := h.freeBefore_eq (show g+1 ≤ p.groups by omega)
    have hinodes := h.inodesBefore_eq (g+1)
    have hinodes' := h.inodes_lt (show g+1 ≤ p.groups by omega)
    have hlt := h.total_lt
    have hrest := ih (show g+1+k ≤ p.groups by omega)
    rw [List.range'_succ,map_cons,tally]
    change EStateM.bind (countFree _ _ _) _ _ = _
    rw [EStateM.bind,h.countFree_eq (by omega)]
    have hstale : ¬((p.exactDesc g).bgFreeBlocksCount ≠ p.groupSpan g-p.usedBlocks g ∨
        (p.exactDesc g).bgFreeInodesCount ≠ p.ipg-usedInodes g) := by
      simp [exactDesc]
    have hnextB : p.freeBefore g+(p.groupSpan g-p.usedBlocks g) = p.freeBefore (g+1) := rfl
    have hnextI : p.inodesBefore g+(p.ipg-usedInodes g) = p.inodesBefore (g+1) := rfl
    dsimp only
    rw [if_neg hstale,hnextB,hnextI,u32_pure (by omega),pure_bind,u32_pure (by omega),pure_bind]
    change EStateM.bind (tally _ _ _ _ _) _ _ = _
    rw [EStateM.bind,hrest,decide_eq_false hstale,show g+1+k = g+(k+1) by omega]
    rfl

theorem Plan.Sane.reconcile_eq (h : p.Sane (d.sectors/sectorsPerBlock)) :
    reconcileFreeCounts p.super p.exactDescs (d.writeAll p.formatWrites) =
      .ok (p.super,p.exactDescs) (d.writeAll p.formatWrites) := by
  have htally := h.tally_eq (g := 0) (k := p.groups) (by omega)
  rw [← exactDescs_eq,zero_add,h.freeBefore_groups,h.inodesBefore_groups] at htally
  have hstale : ¬(p.super.sFreeBlocksCount ≠ p.freeBlocks ∨ p.super.sFreeInodesCount ≠ p.freeInodes) := by
    simp [Plan.super]
  unfold reconcileFreeCounts
  change EStateM.bind (tally p.super 0 p.exactDescs 0 0) _ _ = _
  have htally' : tally p.super 0 p.exactDescs 0 0 (d.writeAll p.formatWrites) =
    .ok ⟨p.freeBlocks,p.freeInodes,p.exactDescs,false⟩ (d.writeAll p.formatWrites) := htally
  rw [EStateM.bind,htally']
  dsimp only
  rw [if_neg hstale,decide_eq_false hstale]
  rfl

end Reconcile

section ReadBack

theorem fits_nil (ws : List Nat) : Page.Fits ws [] := by
  simp [Page.Fits]

theorem fits_cons {w v : Nat} {ws vs : List Nat} (hv : v < Bytes.lim w) (h : Page.Fits ws vs) :
    Page.Fits (w :: ws) (v :: vs) := by
  simp only [Page.Fits,zip_cons_cons,forall_mem_cons]
  exact ⟨hv,h⟩

theorem lim_four : Bytes.lim 4 = 4294967296 := rfl

theorem lim_two : Bytes.lim 2 = 65536 := rfl

theorem Plan.Sane.super_fits (h : p.Sane n) : Page.Fits superWidths p.super.vals := by
  have hinodes := h.inodes_lt le_rfl
  have htotal := h.totalInodes
  have hlt := h.total_lt
  have hfree := h.freeBlocks
  have hfreeI := h.freeInodes
  have hipg := h.ipg
  have hitb := h.itb_le
  unfold superWidths SuperBlock.vals Plan.super
  dsimp only
  repeat' apply fits_cons
  all_goals first | (rw [lim_four]; omega) | decide | exact fits_nil _

theorem superWidths_length (sb : SuperBlock) : superWidths.length = sb.vals.length := rfl

theorem gdWidths_length (gd : GroupDesc) : gdWidths.length = gd.vals.length := rfl

theorem gdWidths_span : Page.span gdWidths = gdSize := rfl

theorem readSuper_writeSuper {sb : SuperBlock} (h : Page.Fits superWidths sb.vals) (b : Block) :
    readSuper (writeSuper b superblockOffset sb) superblockOffset = sb := by
  rw [readSuper,writeSuper,Page.fields_putRecord (superWidths_length sb) (by decide) h]
  rfl

theorem Plan.Sane.desc_fits (h : p.Sane n) (hg : g < p.groups) : Page.Fits gdWidths (p.exactDesc g).vals := by
  have hroom := h.room hg
  have hmeta := h.metaBlocks
  have htable := h.table_lt hg
  have hipg := h.ipg
  have hitb := h.itb_le
  have hdirs : (if g = 0 then 1 else 0) < 65536 := by
    split <;> omega
  unfold gdWidths GroupDesc.vals exactDesc
  dsimp only
  repeat' apply fits_cons
  all_goals first | (rw [lim_four]; omega) | (rw [lim_two]; omega) | decide | exact fits_nil _

theorem readGd_writeGd (h : Page.Fits gdWidths gd.vals)
    (hoff : off+gdSize ≤ blockSize) (b : Block) : readGd (writeGd b off gd) off = gd := by
  have hend : off+Page.span gdWidths ≤ 4096 := hoff
  rw [readGd,writeGd,Page.fields_putRecord (gdWidths_length gd) hend h]
  rfl

theorem readGd_writeGd_out {o : Nat} (h : o+gdSize ≤ off ∨ off+gdSize ≤ o)
    (b : Block) : readGd (writeGd b off gd) o = readGd b o := by
  rw [readGd,writeGd,Page.fields_putRecord_out (gdWidths_length gd) (by rwa [gdWidths_span]),readGd]

theorem readGd_placeGds {gds : List GroupDesc} (hfits : ∀ gd ∈ gds, Page.Fits gdWidths gd.vals)
    (hk : k+gds.length ≤ gdsPerBlock) (b : Block) (j : Nat) : readGd (placeGds b k gds) (j*gdSize) =
      if k ≤ j then (gds[j-k]?).getD (readGd b (j*gdSize)) else readGd b (j*gdSize) := by
  induction gds generalizing k b with
  | nil => simp [placeGds]
  | cons gd gds ih =>
    rw [forall_mem_cons] at hfits
    rw [length_cons] at hk
    rw [placeGds,ih hfits.2 (by omega)]
    have hper : gdsPerBlock = 128 := rfl
    rcases lt_trichotomy j k with hlt | rfl | hgt
    · rw [if_neg (by omega),if_neg (by omega),readGd_writeGd_out]
      simp only [gdSize]
      omega
    · rw [if_neg (by omega),if_pos (le_refl j),readGd_writeGd hfits.1]
      · simp
      · simp only [gdSize,blockSize]
        omega
    · rw [if_pos (by omega),if_pos (by omega),readGd_writeGd_out,
        show j-k = (j-(k+1))+1 by omega,List.getElem?_cons_succ]
      simp only [gdSize]
      omega

theorem Plan.Sane.readGd_gdTable (h : p.Sane n) (hg : g < p.groups) :
    readGd (gdTable p.exactDescs (g/gdsPerBlock)) (g%gdsPerBlock*gdSize) = p.exactDesc g := by
  have hper : gdsPerBlock = 128 := rfl
  have hmod : g%gdsPerBlock < gdsPerBlock := Nat.mod_lt g (by decide)
  have hfits : ∀ gd ∈ (p.exactDescs.drop (g/gdsPerBlock*gdsPerBlock)).take gdsPerBlock,
      Page.Fits gdWidths gd.vals := by
    intro gd hgd
    have hmem := mem_of_mem_drop (mem_of_mem_take hgd)
    simp only [exactDescs,mem_map,mem_range] at hmem
    obtain ⟨i,hi,rfl⟩ := hmem
    exact h.desc_fits hi
  have hlen : 0+((p.exactDescs.drop (g/gdsPerBlock*gdsPerBlock)).take gdsPerBlock).length ≤
      gdsPerBlock := by
    rw [Nat.zero_add]
    exact length_take_le _ _
  have hindex : g/gdsPerBlock*gdsPerBlock+g%gdsPerBlock = g := by
    rw [Nat.mul_comm]
    exact Nat.div_add_mod g gdsPerBlock
  rw [gdTable,readGd_placeGds hfits hlen,if_pos (Nat.zero_le _),Nat.sub_zero,
    List.getElem?_take_of_lt hmod,List.getElem?_drop,hindex,exactDescs_getElem hg,Option.getD_some]

end ReadBack

def Area.Contains (p : Plan) (a : Area) (block : Nat) : Prop := a.start p ≤ block ∧ block < a.stop p

/-- The block is metadata of some group or the root directory. -/
def Plan.Occupied (p : Plan) (block : Nat) : Prop :=
  ∃ a : Area, a.Of p ∧ a ≠ .journal ∧ a.Contains p block

theorem Part.exists_of_lt {b : Nat} (h : p.Sane n) (hb : b < p.metaBlocks) :
    ∃ k : Part, k.offset p ≤ b ∧ b < k.offset p+k.blocks p := by
  have hmeta := h.metaBlocks
  by_contra hnone
  simp only [not_exists] at hnone
  have h₁ := hnone .superCopy
  have h₂ := hnone .gdTable
  have h₃ := hnone .blockBitmap
  have h₄ := hnone .inodeBitmap
  have h₅ := hnone .inodeTable
  simp only [Part.offset,Part.blocks] at h₁ h₂ h₃ h₄ h₅
  omega

theorem Plan.Sane.occupied_iff {b : Nat} (h : p.Sane n) (hg : g < p.groups)
    (hb : b < maxGroupBlocks) : p.Occupied (g*maxGroupBlocks+b) ↔ b < p.usedBlocks g := by
  have hmeta := h.meta_le
  constructor
  · rintro ⟨a,ha,hne,hlo,hhi⟩
    cases a with
    | part g' k =>
      have hle := Part.offset_le h k
      simp only [Area.stop,Area.start,Area.blocks,maxGroupBlocks] at *
      have hsame : g' = g := by omega
      subst hsame
      unfold usedBlocks
      split <;> omega
    | rootDir =>
      simp only [Area.stop,Area.start,Area.blocks,maxGroupBlocks] at *
      have hzero : g = 0 := by omega
      rw [usedBlocks,if_pos hzero]
      omega
    | journal => exact absurd rfl hne
  · intro hused
    by_cases hin : b < p.metaBlocks
    · obtain ⟨k,hlo,hhi⟩ := Part.exists_of_lt h hin
      refine ⟨.part g k,hg,by simp,?_⟩
      simp only [Area.Contains,Area.stop,Area.start,Area.blocks]
      omega
    have hzero : g = 0 := by
      by_contra hnot
      rw [usedBlocks,if_neg hnot] at hused
      omega
    rw [usedBlocks,if_pos hzero] at hused
    refine ⟨.rootDir,trivial,by simp,?_⟩
    simp only [Area.Contains,Area.stop,Area.start,Area.blocks,hzero]
    omega

/-- A sound result of `format`: computed without overflow or truncation, with room for
everything at its own place, bitmaps that mark what is taken, and counts that agree. -/
structure Plan.SoundOn (p : Plan) (d d' : Device) : Prop where
  exact : exactPlan (d.sectors/sectorsPerBlock) = some p
  plan : (planFormat (d.sectors/sectorsPerBlock) : Io Plan) = pure p
  descs : (p.groupDescs p.groups 0 : Io (List GroupDesc)) = pure p.exactDescs
  apart : ∀ a b : Area, a.Of p → b.Of p → a ≠ b → a.Apart p b
  inside : ∀ a : Area, a.Of p → a.stop p ≤ d.sectors/sectorsPerBlock
  room : ∀ g, g < p.groups → p.metaBlocks < p.groupSpan g
  marked : ∀ g, g < p.groups → ∀ b, b < maxGroupBlocks →
    (testBit (d'.cells (p.exactDesc g).bgBlockBitmap) b = true ↔
      p.Occupied (g*maxGroupBlocks+b) ∨ p.groupSpan g ≤ b)
  superblock : readSuper (d'.cells 0) superblockOffset = p.super
  table : ∀ g, g < p.groups →
    readGd (d'.cells (1+g*gdSize/blockSize)) (g*gdSize%blockSize) = p.exactDesc g
  settled : reconcileFreeCounts p.super p.exactDescs d' = .ok (p.super,p.exactDescs) d'

theorem Plan.Sane.formatted_marked {b : Nat} (h : p.Sane n) (hg : g < p.groups)
    (hb : b < maxGroupBlocks) (d : Device) :
    testBit ((d.writeAll p.formatWrites).cells (p.exactDesc g).bgBlockBitmap) b = true ↔
      p.Occupied (g*maxGroupBlocks+b) ∨ p.groupSpan g ≤ b := by
  obtain ⟨-,-,hcell,-⟩ := h.formatted_group hg d
  rw [hcell,h.testBit_blockBitmap hg,decide_eq_true_eq,h.occupied_iff hg hb]
  simp [hb]

theorem Plan.Sane.formatted_table (h : p.Sane n) (hg : g < p.groups)
    (d : Device) : readGd ((d.writeAll p.formatWrites).cells (1+g*gdSize/blockSize))
      (g*gdSize%blockSize) = p.exactDesc g := by
  obtain ⟨-,hcell,-⟩ := h.formatted_group h.groups d
  have hdiv : g*gdSize/blockSize = g/gdsPerBlock := by
    simp only [gdSize,blockSize,gdsPerBlock]
    omega
  have hmod : g*gdSize%blockSize = g%gdsPerBlock*gdSize := by
    simp only [gdSize,blockSize,gdsPerBlock]
    omega
  have hin : g/gdsPerBlock < p.gdb := by
    rw [h.gdb]
    simp only [exactGdBlocks,gdSize,blockSize,gdsPerBlock]
    omega
  have hblock := hcell _ hin
  rw [zero_mul,zero_add] at hblock
  rw [hdiv,hmod,hblock,h.readGd_gdTable hg]

/-- Every device is either too small, and untouched, or soundly formatted. -/
theorem format_geometry (d : Device) : format d = .error (.fs .outOfSpace) d ∨
    ∃ p d', format d = .ok () d' ∧ Plan.SoundOn p d d' := by
  cases hplan : exactPlan (d.sectors/sectorsPerBlock) with
  | none => exact .inl (format_refused d hplan)
  | some p =>
    have h := exactPlan_sane hplan
    refine .inr ⟨p,d.writeAll p.formatWrites,format_eq d hplan h.formatWrites_has,?_⟩
    obtain ⟨hsuper,-⟩ := h.formatted_group h.groups d
    rw [zero_mul] at hsuper
    exact {
      exact := hplan
      plan := by rw [planFormat_eq,hplan]; rfl
      descs := by rw [h.groupDescs_eq (by omega),exactDescs_eq]
      apart := fun a b ha hb hne => h.areas_apart ha hb hne
      inside := fun a ha => h.areas_inside ha
      room := fun g hg => lt_of_le_of_lt (h.room hg).1 (h.room hg).2.1
      marked := fun g hg b hb => h.formatted_marked hg hb d
      superblock := by rw [hsuper,superImage,readSuper_writeSuper h.super_fits]
      table := fun g hg => h.formatted_table hg d
      settled := h.reconcile_eq }

example : (exactPlan 72).isSome = true ∧ (exactPlan 40000).isSome = true := by decide

end PaghOS.Ext2
