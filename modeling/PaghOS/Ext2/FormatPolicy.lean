import PaghOS.Ext2.Format

/-!
When a device may be formatted (`src/fs/format_policy.rs`): the probe of its first bytes,
and the decision of `init_fs`.
-/

namespace PaghOS.Ext2
open Bytes List

def ext2MagicLe : List UInt8 := [0x53,0xEF]

def gptSignature : List UInt8 := [0x45,0x46,0x49,0x20,0x50,0x41,0x52,0x54]

def mbrSignature : List UInt8 := [0x55,0xAA]

def minProbe : Nat := superblockOffset+2

def optInMarker : List UInt8 := [0x50,0x41,0x47,0x48,0x2D,0x46,0x4F,0x52,0x4D,0x41,0x54]

inductive Layout where
  | ext2
  | partitionTable
  | blank
  | foreign
  deriving DecidableEq

inductive Refusal where
  | existingFilesystem
  | partitionTable
  | ext2Like
  | foreignData
  deriving DecidableEq

structure Probe where
  layout : Layout
  provisionalBlank : Bool
  marked : Bool

def isExt2Superblock (buf : List UInt8) : Bool :=
  minProbe ≤ buf.length && slice buf superblockOffset 2 = ext2MagicLe

def isPartitionTable (buf : List UInt8) : Bool :=
  (520 ≤ buf.length && slice buf 512 8 = gptSignature) || (512 ≤ buf.length && slice buf 510 2 = mbrSignature)

def isZero (buf : List UInt8) : Bool := buf.all (· = 0)

def Probe.new (firstBlock : List UInt8) : Probe :=
  let marked := optInMarker.length ≤ firstBlock.length && slice firstBlock 0 optInMarker.length = optInMarker
  if firstBlock.length < minProbe then ⟨.foreign,false,marked⟩
  else
    let layout : Layout :=
      if isExt2Superblock firstBlock then .ext2
      else if isPartitionTable firstBlock then .partitionTable
      else if isZero firstBlock then .blank
      else .foreign
    ⟨layout,layout = .blank,marked⟩

def Probe.feed (p : Probe) (chunk : List UInt8) : Probe :=
  if p.provisionalBlank && !isZero chunk then { p with layout := .foreign, provisionalBlank := false } else p

def Probe.isDecided (p : Probe) : Bool := !p.provisionalBlank

/-- The loop of `probe_boot_area`: chunks are fed until the layout is decided. -/
def Probe.scan : Probe → List (List UInt8) → Probe
  | p, [] => p
  | p, chunk :: chunks => if p.isDecided then p else (p.feed chunk).scan chunks

def formatAllowed (layout : Layout) (hasValidSuperblock allowDestructive : Bool) : Except Refusal Unit :=
  if hasValidSuperblock then .error .existingFilesystem
  else if layout = .blank then .ok ()
  else if allowDestructive then .ok ()
  else .error (match layout with
    | .partitionTable => .partitionTable
    | .ext2 => .ext2Like
    | .blank | .foreign => .foreignData)

/-! ### The magic number -/

def firstSuper (firstBlock : List UInt8) : SuperBlock :=
  readSuper (Page.zero.put 0 firstBlock) superblockOffset

theorem get_buffer (firstBlock : List UInt8) {i : Nat} (hi : i < 4096) :
    (Page.zero.put 0 firstBlock : Block).get i = firstBlock.getD i 0 := by
  simp [Page.get,Page.put,Page.zero,hi]

theorem firstSuper_sMagic (firstBlock : List UInt8) :
    (firstSuper firstBlock).sMagic = ofLe [firstBlock.getD 1080 0,firstBlock.getD 1081 0] := by
  rw [← get_buffer firstBlock (by decide),← get_buffer firstBlock (by decide)]
  rfl

theorem firstSuper_sInodesCount (firstBlock : List UInt8) :
    (firstSuper firstBlock).sInodesCount%65536 = ofLe [firstBlock.getD 1024 0,firstBlock.getD 1025 0] := by
  rw [← get_buffer firstBlock (by decide),← get_buffer firstBlock (by decide)]
  generalize hb : (Page.zero.put 0 firstBlock : Block) = b
  have h0 := (b.get 1024).toNat_lt
  have h1 := (b.get 1025).toNat_lt
  have hnum : (firstSuper firstBlock).sInodesCount = ofLe [b.get 1024,b.get 1025,b.get 1026,b.get 1027] := by
    rw [← hb]
    rfl
  simp only [hnum,ofLe]
  omega

theorem magic_iff (a b : UInt8) : [a,b] = ext2MagicLe ↔ ofLe [a,b] = ext2Magic := by
  have ha := a.toNat_lt
  have hb := b.toNat_lt
  simp only [ext2MagicLe,List.cons.injEq,and_true,← UInt8.toNat_inj,ofLe,ext2Magic,UInt8.reduceToNat]
  omega

theorem isExt2Superblock_iff {firstBlock : List UInt8} (h : minProbe ≤ firstBlock.length) :
    isExt2Superblock firstBlock = true ↔ (firstSuper firstBlock).sInodesCount%65536 = ext2Magic := by
  have hlen : 1026 ≤ firstBlock.length := h
  have hget : ∀ i, i < 1026 → firstBlock[i]? = some (firstBlock.getD i 0) := by
    intro i hi
    rw [getD_eq_getElem?_getD,List.getElem?_eq_getElem (by omega)]
    rfl
  have hslice : slice firstBlock superblockOffset 2 = [firstBlock.getD 1024 0,firstBlock.getD 1025 0] := by
    refine ext_getElem? fun k => ?_
    rw [slice,List.getElem?_take,List.getElem?_drop]
    rcases k with _ | _ | k
    · exact hget 1024 (by decide)
    · exact hget 1025 (by decide)
    · simp
  rw [isExt2Superblock,hslice,firstSuper_sInodesCount,← magic_iff]
  simp [h]

theorem new_layout {firstBlock : List UInt8} (h : minProbe ≤ firstBlock.length) :
    (Probe.new firstBlock).layout = if isExt2Superblock firstBlock then .ext2
      else if isPartitionTable firstBlock then .partitionTable
      else if isZero firstBlock then .blank else .foreign := by
  rw [Probe.new,if_neg (not_lt.2 h)]

/-- The probe looks for the magic number in the first field of the superblock. -/
theorem probe_agrees_iff (firstBlock : List UInt8) (h : minProbe ≤ firstBlock.length) :
    ((Probe.new firstBlock).layout = .ext2 ↔ (firstSuper firstBlock).sMagic = ext2Magic) ↔
      ((firstSuper firstBlock).sInodesCount%65536 = ext2Magic ↔
        (firstSuper firstBlock).sMagic = ext2Magic) := by
  have hnew : (Probe.new firstBlock).layout = .ext2 ↔ isExt2Superblock firstBlock = true := by
    rw [new_layout h]
    by_cases hext : isExt2Superblock firstBlock = true
    · simp [hext]
    simp only [hext,Bool.false_eq_true,if_false,iff_false]
    split
    · decide
    · split <;> decide
  rw [hnew,isExt2Superblock_iff h]

def bareSuper : List UInt8 := List.replicate 1080 0 ++ [0x53,0xEF]

theorem probe_misses_magic : minProbe ≤ bareSuper.length ∧ (firstSuper bareSuper).sMagic = ext2Magic ∧
    (Probe.new bareSuper).layout = .foreign := by
  refine ⟨by decide +kernel,?_,by decide +kernel⟩
  rw [firstSuper_sMagic]
  decide +kernel

/-- A whole block with the magic number in its place and, by chance, in the inode count. -/
def twinMagic : List UInt8 :=
  List.replicate 1024 0 ++ [0x53,0xEF] ++ List.replicate 54 0 ++ [0x53,0xEF] ++ List.replicate 3014 0

theorem probe_agrees_twinMagic : twinMagic.length = 4096 ∧ (firstSuper twinMagic).sMagic = ext2Magic ∧
    ((Probe.new twinMagic).layout = .ext2 ↔ (firstSuper twinMagic).sMagic = ext2Magic) := by
  have hmagic : (firstSuper twinMagic).sMagic = ext2Magic := by
    rw [firstSuper_sMagic]
    decide +kernel
  refine ⟨by decide +kernel,hmagic,(probe_agrees_iff _ (by decide +kernel)).2 ?_⟩
  rw [firstSuper_sInodesCount]
  exact iff_of_true (by decide +kernel) hmagic

/-! ### The decision -/

theorem isZero_iff {buf : List UInt8} : isZero buf = true ↔ ∀ b ∈ buf, b = 0 := by
  simp [isZero]

theorem new_blank_iff {firstBlock : List UInt8} (h : minProbe ≤ firstBlock.length) :
    (Probe.new firstBlock).layout = .blank ↔ ∀ b ∈ firstBlock, b = 0 := by
  have hzero : (∀ b ∈ firstBlock, b = 0) → ∀ off len sig,
      (0x53 : UInt8) ∈ sig ∨ (0x45 : UInt8) ∈ sig ∨ (0x55 : UInt8) ∈ sig →
      slice firstBlock off len ≠ sig := by
    intro hall off len sig hsig heq
    have hmem : ∀ b ∈ sig, b = 0 := fun b hb => hall b (mem_of_mem_drop (mem_of_mem_take (heq ▸ hb)))
    rcases hsig with hsig | hsig | hsig <;> exact absurd (hmem _ hsig) (by decide)
  rw [new_layout h]
  constructor
  · intro hb
    split at hb
    · cases hb
    split at hb
    · cases hb
    split at hb
    · exact isZero_iff.1 ‹_›
    · cases hb
  · intro hall
    have hext : isExt2Superblock firstBlock = false := by
      simp [isExt2Superblock,hzero hall superblockOffset 2 ext2MagicLe (by decide)]
    have hpart : isPartitionTable firstBlock = false := by
      simp [isPartitionTable,hzero hall 512 8 gptSignature (by decide),
        hzero hall 510 2 mbrSignature (by decide)]
    simp [hext,hpart,isZero_iff.2 hall]

def Probe.Provisional (p : Probe) : Prop := p.provisionalBlank = true ↔ p.layout = .blank

theorem new_provisional (firstBlock : List UInt8) : (Probe.new firstBlock).Provisional := by
  unfold Probe.new Probe.Provisional
  split <;> simp

theorem scan_blank_iff {p : Probe} (h : p.Provisional) (chunks : List (List UInt8)) :
    (p.scan chunks).layout = .blank ↔ p.layout = .blank ∧ ∀ b ∈ chunks.flatten, b = 0 := by
  induction chunks generalizing p with
  | nil => simp [Probe.scan]
  | cons chunk chunks ih =>
    rw [Probe.scan]
    by_cases hp : p.provisionalBlank = true
    · have hlayout := h.1 hp
      rw [if_neg (by simp [Probe.isDecided,hp]),flatten_cons,forall_mem_append]
      by_cases hz : isZero chunk = true
      · rw [Probe.feed,if_neg (by simp [hz]),ih h]
        exact and_congr_right fun _ => (and_iff_right (isZero_iff.1 hz)).symm
      · rw [Probe.feed,if_pos (by simp [hp,hz]),ih (by simp [Probe.Provisional])]
        exact iff_of_false (fun hc => by cases hc.1) fun hc => hz (isZero_iff.2 hc.2.1)
    · rw [if_pos (by simp [Probe.isDecided,hp])]
      have hlayout : p.layout ≠ .blank := fun hc => hp (h.2 hc)
      simp [hlayout]

theorem formatAllowed_ok_iff (layout : Layout) (valid : Bool) :
    formatAllowed layout valid false = .ok () ↔ layout = .blank ∧ valid = false := by
  cases layout <;> cases valid <;> decide

/-- Without the marker a device is formatted exactly if what was probed of it is zero and
no superblock was found, however the area was cut. -/
theorem formatted_iff_zero (firstBlock : List UInt8) (chunks : List (List UInt8)) (valid : Bool)
    (h : minProbe ≤ firstBlock.length) :
    (formatAllowed ((Probe.new firstBlock).scan chunks).layout valid false = .ok () ↔
      (∀ b ∈ firstBlock ++ chunks.flatten, b = 0) ∧ valid = false) ∧
    ∀ firstBlock' chunks', minProbe ≤ firstBlock'.length →
      firstBlock' ++ List.flatten chunks' = firstBlock ++ chunks.flatten →
      (formatAllowed ((Probe.new firstBlock').scan chunks').layout valid false = .ok () ↔
        formatAllowed ((Probe.new firstBlock).scan chunks).layout valid false = .ok ()) := by
  have hall : ∀ first cs, minProbe ≤ first.length →
      (formatAllowed ((Probe.new first).scan cs).layout valid false = .ok () ↔
        (∀ b ∈ first ++ cs.flatten, b = 0) ∧ valid = false) := by
    intro first cs hlen
    rw [formatAllowed_ok_iff,scan_blank_iff (new_provisional first),new_blank_iff hlen,forall_mem_append]
  refine ⟨hall firstBlock chunks h,fun first' chunks' h' heq => ?_⟩
  rw [hall first' chunks' h',hall firstBlock chunks h,heq]

theorem formatted_two_chunks : minProbe ≤ (List.replicate 1026 (0 : UInt8)).length ∧
    ¬formatAllowed ((Probe.new (List.replicate 1026 0)).scan [[0],[1]]).layout false false = .ok () := by
  refine ⟨by decide +kernel,fun hok => ?_⟩
  have hone := ((formatted_iff_zero _ [[0],[1]] false (by decide +kernel)).1.1 hok).1 1
    (mem_append_right _ (by decide))
  exact absurd hone (by decide)

end PaghOS.Ext2
