import PaghOS.Ext2.Bitmap
import PaghOS.Ext2.Dir

/-!
`Ext2Fs::format` of `src/fs/ext2/mod.rs` with `Journal::format` of
`src/fs/journal.rs`, and the counts `mount_fs` reconciles. Unsigned overflow and
underflow panic; casts to a narrower type drop bits.
-/

namespace PaghOS.Ext2

def fmtLogBlocks : Nat := 64
def journalReserveBlocks : Nat := fmtLogBlocks+1
def maxGroupBlocks : Nat := 32768
def maxGroupInodes : Nat := 32768
def bytesPerInode : Nat := 16384
def minInodes : Nat := 32

def gdBlocks (groups : Nat) : Nat := asU32 ((groups*gdSize+blockSize-1)/blockSize)

structure Plan where
  totalBlocks : Nat
  groups : Nat
  ipg : Nat
  itb : Nat
  gdb : Nat
  metaBlocks : Nat
  totalInodes : Nat
  freeBlocks : Nat
  freeInodes : Nat
  deriving DecidableEq

section Plan
variable {σ : Type}

def reservedInodes : Nat := ext2FirstIno-1

/-- The loop that drops a tail group too small for its metadata and some data. -/
def dropTail (itb : Nat) : (groups totalBlocks : Nat) → EStateM Fault σ (Nat × Nat)
  | 0, _ => throw .panic
  | g+1, totalBlocks => do
    let base ← u32 (g*maxGroupBlocks)
    let span ← usub totalBlocks base
    let metaGuess ← u32 (1+gdBlocks (g+1)+2+itb)
    let least ← u32 (metaGuess+8)
    if g+1 > 1 ∧ span < least then do
      let total ← u32 (g*maxGroupBlocks)
      dropTail itb g total
    else pure (g+1,totalBlocks)

def inodesPerGroup (totalBlocks groups : Nat) : EStateM Fault σ Nat :=
  let inodesPerBlock := blockSize/inodeSize
  let scaled := totalBlocks*blockSize/bytesPerInode
  if groups = 0 then throw .panic
  else
    let perGroup := max (max scaled minInodes/groups) inodesPerBlock
    let perGroup :=
      min (perGroup+(inodesPerBlock-1)) 18446744073709551615/inodesPerBlock*inodesPerBlock
    pure (asU32 (min perGroup maxGroupInodes))

def planFormat (deviceBlocks : Nat) : EStateM Fault σ Plan :=
  let minInodeTableBlocks := (minInodes*inodeSize+blockSize-1)/blockSize
  let minExt2Blocks := 4+minInodeTableBlocks+1+1
  let minLayoutBlocks := minExt2Blocks+journalReserveBlocks
  if deviceBlocks < minLayoutBlocks then throw (.fs .outOfSpace)
  else do
    let dataBlocks := deviceBlocks-journalReserveBlocks
    let totalBlocks := asU32 (min dataBlocks 4294967295)
    let groups := asU32 ((totalBlocks+maxGroupBlocks-1)/maxGroupBlocks)
    let ipg ← inodesPerGroup totalBlocks groups
    let itb := ipg/(blockSize/inodeSize)
    let (groups,totalBlocks) ← dropTail itb groups totalBlocks
    let gdb := gdBlocks groups
    let metaBlocks ← u32 (1+gdb+2+itb)
    let totalInodes ← u32 (groups*ipg)
    let afterRoot ← u32 (metaBlocks+1)
    if totalBlocks ≤ afterRoot then throw (.fs .outOfSpace)
    else do
      let usedTotal ← u32 (metaBlocks*groups+1)
      if totalBlocks ≤ usedTotal then throw (.fs .outOfSpace)
      else do
        let freeBlocks ← usub totalBlocks usedTotal
        let freeInodes ← usub totalInodes reservedInodes
        pure ⟨totalBlocks,groups,ipg,itb,gdb,metaBlocks,totalInodes,freeBlocks,freeInodes⟩

def Plan.super (p : Plan) : SuperBlock where
  sInodesCount := p.totalInodes
  sBlocksCount := p.totalBlocks
  sRBlocksCount := 0
  sFreeBlocksCount := p.freeBlocks
  sFreeInodesCount := p.freeInodes
  sFirstDataBlock := 0
  sLogBlockSize := 2
  sLogFragSize := 2
  sBlocksPerGroup := maxGroupBlocks
  sFragsPerGroup := maxGroupBlocks
  sInodesPerGroup := p.ipg
  sMtime := 0
  sWtime := 0
  sMntCount := 0
  sMaxMntCount := 0xFFFF
  sMagic := ext2Magic
  sState := 1
  sErrors := 1
  sMinorRevLevel := 0
  sLastcheck := 0
  sCheckinterval := 0
  sCreatorOs := 0
  sRevLevel := 1
  sDefResuid := 0
  sDefResgid := 0
  sFirstIno := ext2FirstIno
  sInodeSize := asU16 inodeSize
  sBlockGroupNr := 0
  sFeatureCompat := 0
  sFeatureIncompat := 0
  sFeatureRoCompat := 0
  sUuid := 0
  sVolumeName := 0

def Plan.extent (p : Plan) (g : Nat) : EStateM Fault σ (Nat × Nat) := do
  let base ← u32 (g*maxGroupBlocks)
  let rest ← usub p.totalBlocks base
  pure (base,min maxGroupBlocks rest)

def Plan.used (p : Plan) (g : Nat) : EStateM Fault σ Nat :=
  if g = 0 then u32 (p.metaBlocks+1) else pure p.metaBlocks

def Plan.groupDesc (p : Plan) (g : Nat) : EStateM Fault σ GroupDesc := do
  let (base,span) ← p.extent g
  let used ← p.used g
  let blockBitmap ← u32 (base+1+p.gdb)
  let inodeBitmap ← u32 (base+1+p.gdb+1)
  let inodeTable ← u32 (base+1+p.gdb+2)
  let freeBlocks ← usub span used
  let freeInodes ← if g = 0 then usub p.ipg reservedInodes else pure p.ipg
  pure ⟨blockBitmap,inodeBitmap,inodeTable,asU16 freeBlocks,asU16 freeInodes,if g = 0 then 1 else 0,0,0⟩

def Plan.groupDescs (p : Plan) : (n g : Nat) → EStateM Fault σ (List GroupDesc)
  | 0, _ => pure []
  | n+1, g => do
    let gd ← p.groupDesc g
    let rest ← groupDescs p n (g+1)
    pure (gd :: rest)

end Plan

def placeGds (b : Block) : (k : Nat) → List GroupDesc → Block
  | _, [] => b
  | k, gd :: gds => placeGds (writeGd b (k*gdSize) gd) (k+1) gds

def gdsPerBlock : Nat := blockSize/gdSize

/-- Block `i` of the descriptor table: a block holds a whole number of descriptors. -/
def gdTable (gds : List GroupDesc) (i : Nat) : Block :=
  placeGds Page.zero 0 ((gds.drop (i*gdsPerBlock)).take gdsPerBlock)

def setRange (bm : Block) (lo hi : Nat) : Block :=
  (List.range' lo (hi-lo)).foldl setBit bm

def inodeLocation (sb : SuperBlock) (gds : List GroupDesc) (ino : Nat) : Except Fault (Nat × Nat) :=
  if ino = 0 ∨ ino > sb.sInodesCount then .error (.fs .corrupt)
  else
    let index := ino-1
    let ipg := max sb.sInodesPerGroup 1
    match gds[index/ipg]? with
    | none => .error (.fs .corrupt)
    | some gd =>
      let within := index%ipg
      let isz := sb.inodeSize
      let ipb := blockSize/isz
      .ok (gd.bgInodeTable+within/ipb,within%ipb*isz)

structure JournalArea where
  superBlock : Nat
  logBlocks : Nat
  fsBlocks : Nat
  deriving DecidableEq

def journalArea (sb : SuperBlock) : JournalArea := ⟨sb.sBlocksCount,fmtLogBlocks,sb.sBlocksCount⟩

def journalWidths : List Nat := [8,8,8,8,8,8,4,4]

/-- The checksum stands in the padding behind the record and covers all before it. -/
def storeJournalSuper (buf : Block) (js : JournalSuper) : Block :=
  let buf := buf.putRecord 0 journalWidths
    [js.magic,js.head,js.tail,js.nextSeq,js.logBlocks,js.fsBlocks,js.checksum,0]
  buf.setNum 52 4 (crc32 (buf.bytes 0 52)).toNat

def Journal.format (area : JournalArea) : Io Unit := do
  writeFsBlock area.superBlock
    (storeJournalSuper Page.zero ⟨jnlMagic,0,0,1,area.logBlocks,area.fsBlocks,0⟩)
  writeFsBlock (area.superBlock+1) Page.zero

/-- Superblock copy, descriptor table, bitmaps and empty inode table of a group. -/
def writeGroup (p : Plan) (gds : List GroupDesc) (g : Nat) (gd : GroupDesc) : Io Unit := do
  let (base,span) ← p.extent g
  writeFsBlock base (writeSuper Page.zero superblockOffset p.super)
  (List.range p.gdb).forM (fun i => do
    let blk ← u32 (base+1+i)
    writeFsBlock blk (gdTable gds i))
  let used ← p.used g
  writeFsBlock gd.bgBlockBitmap
    (setRange (setRange Page.zero 0 used) span maxGroupBlocks)
  writeFsBlock gd.bgInodeBitmap
    (setRange (if g = 0 then setRange Page.zero 0 reservedInodes else Page.zero) p.ipg maxGroupInodes)
  (List.range p.itb).forM (fun b => do
    let blk ← u32 (gd.bgInodeTable+b)
    writeFsBlock blk Page.zero)

def writeGroups (p : Plan) (gds : List GroupDesc) : (g : Nat) → List GroupDesc → Io Unit
  | _, [] => pure ()
  | g, gd :: rest => do
    writeGroup p gds g gd
    writeGroups p gds (g+1) rest

def rootInode (dirBlock : Nat) : Inode :=
  { Inode.zeroed with
    iMode := sIfdir ||| 0o755
    iLinksCount := 2
    iSize := blockSize
    iBlocks := blockSize/512
    iBlock := fun i => if i = 0 then dirBlock else 0 }

def format : Io Unit := do
  let d ← get
  let p ← planFormat (d.sectors/sectorsPerBlock)
  let gds ← p.groupDescs p.groups 0
  writeGroups p gds 0 gds
  writeFsBlock p.metaBlocks (initDotEntries ext2RootIno ext2RootIno)
  match inodeLocation p.super gds ext2RootIno with
  | .error e => throw e
  | .ok (rblock,roff) => do
    writeFsBlock rblock (writeInodeAt Page.zero roff (rootInode p.metaBlocks))
    Journal.format (journalArea p.super)

def countFree (sb : SuperBlock) (g : Nat) (gd : GroupDesc) : Io (Nat × Nat) := do
  let off ← u32 (g*sb.sBlocksPerGroup)
  let base ← u32 (sb.sFirstDataBlock+off)
  let span := min sb.sBlocksPerGroup (sb.sBlocksCount-base)
  let bbm ← readFsBlock gd.bgBlockBitmap
  let ibm ← readFsBlock gd.bgInodeBitmap
  let firstIno ← u32 (g*sb.sInodesPerGroup)
  let ispan := min sb.sInodesPerGroup (sb.sInodesCount-firstIno)
  pure (span-countSetBits bbm span,ispan-countSetBits ibm ispan)

/-- The totals found, the descriptors and whether one had to be repaired. -/
structure Tally where
  blocks : Nat
  inodes : Nat
  gds : List GroupDesc
  changed : Bool

def tally (sb : SuperBlock) : (g : Nat) → List GroupDesc → (blocks inodes : Nat) → Io Tally
  | _, [], blocks, inodes => pure ⟨blocks,inodes,[],false⟩
  | g, gd :: gds, blocks, inodes => do
    let (freeB,freeI) ← countFree sb g gd
    let stale := gd.bgFreeBlocksCount ≠ freeB ∨ gd.bgFreeInodesCount ≠ freeI
    let fixed : GroupDesc :=
      if stale then { gd with
        bgFreeBlocksCount := min freeB 65535
        bgFreeInodesCount := min freeI 65535 }
      else gd
    let blocks ← u32 (blocks+freeB)
    let inodes ← u32 (inodes+freeI)
    let rest ← tally sb (g+1) gds blocks inodes
    pure { rest with gds := fixed :: rest.gds, changed := decide stale || rest.changed }

def writeBack (sb : SuperBlock) (gds : List GroupDesc) : Io Unit := do
  let b0 ← readFsBlock 0
  writeFsBlock 0 (writeSuper b0 superblockOffset sb)
  (List.range ((gds.length*gdSize+blockSize-1)/blockSize)).forM (fun tb => do
    let b ← readFsBlock (1+tb)
    writeFsBlock (1+tb) (placeGds b 0 ((gds.drop (tb*gdsPerBlock)).take gdsPerBlock)))

def reconcileFreeCounts (sb : SuperBlock) (gds : List GroupDesc) :
    Io (SuperBlock × List GroupDesc) := do
  let t ← tally sb 0 gds 0 0
  let stale := sb.sFreeBlocksCount ≠ t.blocks ∨ sb.sFreeInodesCount ≠ t.inodes
  let sb := if stale then { sb with sFreeBlocksCount := t.blocks, sFreeInodesCount := t.inodes } else sb
  if t.changed || decide stale then do
    writeBack sb t.gds
    pure (sb,t.gds)
  else pure (sb,t.gds)

end PaghOS.Ext2
