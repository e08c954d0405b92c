import PaghOS.Lib.Page

/-!
The on-disk structures of `src/fs/ext2/structs.rs` with their `repr(C)` layout,
the checksum of the journal, and the block device underneath. A block is 4096
bytes; `read_struct` and `write_struct` copy the bytes of a record, so records
are read and written field by field at their offsets.
-/

namespace PaghOS.Ext2
open Bytes

def blockSize : Nat := 4096

abbrev Block := Page 4096

def inodeSize : Nat := 128

def ext2Magic : Nat := 0xEF53
def ext2RootIno : Nat := 2
def ext2FirstIno : Nat := 11
def sIfdir : Nat := 0x4000
def jnlMagic : Nat := 0x504147484A4E4C01
def superblockOffset : Nat := 1024

structure SuperBlock where
  sInodesCount : Nat
  sBlocksCount : Nat
  sRBlocksCount : Nat
  sFreeBlocksCount : Nat
  sFreeInodesCount : Nat
  sFirstDataBlock : Nat
  sLogBlockSize : Nat
  sLogFragSize : Nat
  sBlocksPerGroup : Nat
  sFragsPerGroup : Nat
  sInodesPerGroup : Nat
  sMtime : Nat
  sWtime : Nat
  sMntCount : Nat
  sMaxMntCount : Nat
  sMagic : Nat
  sState : Nat
  sErrors : Nat
  sMinorRevLevel : Nat
  sLastcheck : Nat
  sCheckinterval : Nat
  sCreatorOs : Nat
  sRevLevel : Nat
  sDefResuid : Nat
  sDefResgid : Nat
  sFirstIno : Nat
  sInodeSize : Nat
  sBlockGroupNr : Nat
  sFeatureCompat : Nat
  sFeatureIncompat : Nat
  sFeatureRoCompat : Nat
  sUuid : Nat
  sVolumeName : Nat
  deriving DecidableEq

def superWidths : List Nat :=
  [4,4,4,4,4,4,4,4,4,4,4,4,4,2,2,2,2,2,2,4,4,4,4,2,2,4,2,2,4,4,4,16,16]

def SuperBlock.vals (s : SuperBlock) : List Nat :=
  [s.sInodesCount,s.sBlocksCount,s.sRBlocksCount,s.sFreeBlocksCount,s.sFreeInodesCount,
    s.sFirstDataBlock,s.sLogBlockSize,s.sLogFragSize,s.sBlocksPerGroup,s.sFragsPerGroup,
    s.sInodesPerGroup,s.sMtime,s.sWtime,s.sMntCount,s.sMaxMntCount,s.sMagic,s.sState,s.sErrors,
    s.sMinorRevLevel,s.sLastcheck,s.sCheckinterval,s.sCreatorOs,s.sRevLevel,s.sDefResuid,
    s.sDefResgid,s.sFirstIno,s.sInodeSize,s.sBlockGroupNr,s.sFeatureCompat,s.sFeatureIncompat,
    s.sFeatureRoCompat,s.sUuid,s.sVolumeName]

def SuperBlock.ofVals (f : List Nat) : SuperBlock where
  sInodesCount := f.getD 0 0
  sBlocksCount := f.getD 1 0
  sRBlocksCount := f.getD 2 0
  sFreeBlocksCount := f.getD 3 0
  sFreeInodesCount := f.getD 4 0
  sFirstDataBlock := f.getD 5 0
  sLogBlockSize := f.getD 6 0
  sLogFragSize := f.getD 7 0
  sBlocksPerGroup := f.getD 8 0
  sFragsPerGroup := f.getD 9 0
  sInodesPerGroup := f.getD 10 0
  sMtime := f.getD 11 0
  sWtime := f.getD 12 0
  sMntCount := f.getD 13 0
  sMaxMntCount := f.getD 14 0
  sMagic := f.getD 15 0
  sState := f.getD 16 0
  sErrors := f.getD 17 0
  sMinorRevLevel := f.getD 18 0
  sLastcheck := f.getD 19 0
  sCheckinterval := f.getD 20 0
  sCreatorOs := f.getD 21 0
  sRevLevel := f.getD 22 0
  sDefResuid := f.getD 23 0
  sDefResgid := f.getD 24 0
  sFirstIno := f.getD 25 0
  sInodeSize := f.getD 26 0
  sBlockGroupNr := f.getD 27 0
  sFeatureCompat := f.getD 28 0
  sFeatureIncompat := f.getD 29 0
  sFeatureRoCompat := f.getD 30 0
  sUuid := f.getD 31 0
  sVolumeName := f.getD 32 0

def readSuper (b : Block) (off : Nat) : SuperBlock := .ofVals (b.fields off superWidths)

def writeSuper (b : Block) (off : Nat) (s : SuperBlock) : Block := b.putRecord off superWidths s.vals

structure GroupDesc where
  bgBlockBitmap : Nat
  bgInodeBitmap : Nat
  bgInodeTable : Nat
  bgFreeBlocksCount : Nat
  bgFreeInodesCount : Nat
  bgUsedDirsCount : Nat
  bgPad : Nat
  bgReserved : Nat
  deriving DecidableEq

def gdWidths : List Nat := [4,4,4,2,2,2,2,12]

def gdSize : Nat := 32

def GroupDesc.vals (g : GroupDesc) : List Nat :=
  [g.bgBlockBitmap,g.bgInodeBitmap,g.bgInodeTable,g.bgFreeBlocksCount,g.bgFreeInodesCount,
    g.bgUsedDirsCount,g.bgPad,g.bgReserved]

def GroupDesc.ofVals (f : List Nat) : GroupDesc where
  bgBlockBitmap := f.getD 0 0
  bgInodeBitmap := f.getD 1 0
  bgInodeTable := f.getD 2 0
  bgFreeBlocksCount := f.getD 3 0
  bgFreeInodesCount := f.getD 4 0
  bgUsedDirsCount := f.getD 5 0
  bgPad := f.getD 6 0
  bgReserved := f.getD 7 0

def readGd (b : Block) (off : Nat) : GroupDesc := .ofVals (b.fields off gdWidths)

def writeGd (b : Block) (off : Nat) (g : GroupDesc) : Block := b.putRecord off gdWidths g.vals

structure Inode where
  iMode : Nat := 0
  iUid : Nat := 0
  iSize : Nat := 0
  iAtime : Nat := 0
  iCtime : Nat := 0
  iMtime : Nat := 0
  iDtime : Nat := 0
  iGid : Nat := 0
  iLinksCount : Nat := 0
  iBlocks : Nat := 0
  iFlags : Nat := 0
  iOsd1 : Nat := 0
  /-- Slots 0 to 11 are direct, 12 to 14 single, double and triple indirect. -/
  iBlock : Fin 15 → Nat := fun _ => 0
  iGeneration : Nat := 0
  iFileAcl : Nat := 0
  iDirAcl : Nat := 0
  iFaddr : Nat := 0
  iOsd2 : Nat := 0

def inodeWidths : List Nat := [2,2,4,4,4,4,4,2,2,4,4,4] ++ List.replicate 15 4 ++ [4,4,4,4,12]

def Inode.vals (i : Inode) : List Nat :=
  [i.iMode,i.iUid,i.iSize,i.iAtime,i.iCtime,i.iMtime,i.iDtime,i.iGid,i.iLinksCount,i.iBlocks,
    i.iFlags,i.iOsd1] ++ List.ofFn i.iBlock ++
    [i.iGeneration,i.iFileAcl,i.iDirAcl,i.iFaddr,i.iOsd2]

def Inode.zeroed : Inode := {}

def writeInodeAt (b : Block) (off : Nat) (i : Inode) : Block := b.putRecord off inodeWidths i.vals

def isPowerOfTwo (v : Nat) : Bool := v ≠ 0 && v &&& (v-1) = 0

def SuperBlock.inodeSize (s : SuperBlock) : Nat :=
  if s.sRevLevel = 0 || s.sInodeSize < Ext2.inodeSize || s.sInodeSize > blockSize ||
      !isPowerOfTwo s.sInodeSize then Ext2.inodeSize
  else s.sInodeSize

structure JournalSuper where
  magic : Nat
  head : Nat
  tail : Nat
  nextSeq : Nat
  logBlocks : Nat
  fsBlocks : Nat
  checksum : Nat
  deriving DecidableEq

def crcBit (crc : UInt32) : UInt32 := (crc >>> 1) ^^^ (0xEDB88320 &&& (0-(crc &&& 1)))

def crcByte (crc : UInt32) (b : UInt8) : UInt32 := Nat.repeat crcBit 8 (crc ^^^ b.toUInt32)

def crc32 (data : List UInt8) : UInt32 := ~~~(data.foldl crcByte 0xFFFFFFFF)

inductive FsError where
  | badSuperBlock | badJournal | outOfSpace | notFound | alreadyExists | ioError | nameTooLong
  | corrupt | fileTooBig
  deriving DecidableEq

inductive Fault where
  | fs (e : FsError)
  | panic
  deriving DecidableEq

/-- A block device: what reads see. -/
structure Device where
  sectors : Nat
  cells : Nat → Block

def sectorsPerBlock : Nat := 8

abbrev Io := EStateM Fault Device

def Device.write (d : Device) (block : Nat) (data : Block) : Device :=
  { d with cells := fun b => if b = block then data else d.cells b }

def readFsBlock (block : Nat) : Io Block := fun d =>
  if block*sectorsPerBlock+sectorsPerBlock ≤ d.sectors then .ok (d.cells block) d
  else .error (.fs .ioError) d

def writeFsBlock (block : Nat) (data : Block) : Io Unit := fun d =>
  if block*sectorsPerBlock+sectorsPerBlock ≤ d.sectors then .ok () (d.write block data)
  else .error (.fs .ioError) d

section Checked
variable {σ : Type}

def u32 (v : Nat) : EStateM Fault σ Nat := if v < 4294967296 then pure v else throw .panic

def usub (a b : Nat) : EStateM Fault σ Nat := if b ≤ a then pure (a-b) else throw .panic

def asU16 (v : Nat) : Nat := v%65536

def asU32 (v : Nat) : Nat := v%4294967296

end Checked

end PaghOS.Ext2
