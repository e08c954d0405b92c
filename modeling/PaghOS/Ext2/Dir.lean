import PaghOS.Ext2.Structs
import PaghOS.Lib.Utf8

/-!
Directory blocks of `src/fs/ext2/dir.rs`: records that tile a block, found,
inserted into the slack of another record and removed by merging. A name is the
text of its bytes; bytes that are no text are read lossily.
-/

namespace PaghOS.Ext2
open Bytes Text

abbrev Name := List Char

def align4 (n : Nat) : Nat := (n+3)/4*4

def minRecLen (nameLen : Nat) : Nat := align4 (8+nameLen)

structure DirHeader where
  inode : Nat
  recLen : Nat
  nameLen : Nat
  deriving DecidableEq

structure DirEntry where
  pos : Nat
  inode : Nat
  recLen : Nat
  nameLen : Nat
  name : Name
  deriving DecidableEq

def headerWidths : List Nat := [4,2,1,1]

def readHeader (b : Block) (pos : Nat) : DirHeader :=
  let f := b.fields pos headerWidths
  ⟨f.getD 0 0,f.getD 1 0,f.getD 2 0⟩

def writeHeader (b : Block) (pos inode recLen nameLen : Nat) : Block :=
  b.putRecord pos headerWidths [inode,recLen,nameLen,0]

/-- The `while` loop of `iter_entries`; a record has at least eight bytes. -/
def iterFrom (b : Block) : (fuel pos : Nat) → Except Fault (List DirEntry)
  | 0, pos => if pos = blockSize then .ok [] else .error (.fs .corrupt)
  | fuel+1, pos =>
    if pos ≥ blockSize then if pos = blockSize then .ok [] else .error (.fs .corrupt)
    else if pos+8 > blockSize then .error (.fs .corrupt)
    else
      let h := readHeader b pos
      if h.recLen < 8 ∨ h.recLen%4 ≠ 0 ∨ pos+h.recLen > blockSize then .error (.fs .corrupt)
      else if h.inode ≠ 0 ∧ 8+h.nameLen > h.recLen then .error (.fs .corrupt)
      else
        match iterFrom b fuel (pos+h.recLen) with
        | .error e => .error e
        | .ok rest =>
          .ok (⟨pos,h.inode,h.recLen,h.nameLen,
            if h.inode ≠ 0 then utf8Lossy (b.bytes (pos+8) h.nameLen) else []⟩ :: rest)

def iterEntries (b : Block) : Except Fault (List DirEntry) := iterFrom b (blockSize/8) 0

def DirEntry.isNamed (e : DirEntry) (name : Name) : Bool := e.inode ≠ 0 && e.name = name

def initDotEntries (selfIno parentIno : Nat) : Block :=
  let b := writeHeader Page.zero 0 selfIno (minRecLen 1) 1
  let b := b.put 8 [0x2E]
  let b := writeHeader b (minRecLen 1) parentIno (blockSize-minRecLen 1) 2
  b.put (minRecLen 1+8) [0x2E,0x2E]

def DirEntry.ideal (e : DirEntry) : Nat := if e.inode = 0 then 0 else minRecLen e.nameLen

def DirEntry.slack (e : DirEntry) : Nat := e.recLen-e.ideal

def splitEntry (b : Block) (e : DirEntry) (name : Name) (ino : Nat) : Block :=
  let newPos := e.pos+e.ideal
  let b := writeHeader b newPos ino (e.recLen-e.ideal) (utf8Encode name).length
  let b := b.put (newPos+8) (utf8Encode name)
  if e.inode ≠ 0 then
    let cur := readHeader b e.pos
    writeHeader b e.pos cur.inode e.ideal cur.nameLen
  else b

def insertIntoBlock (b : Block) (name : Name) (ino : Nat) : Except Fault (Bool × Block) :=
  if (utf8Encode name).length > 255 then .error (.fs .nameTooLong)
  else if utf8Encode name = [] then .error (.fs .corrupt)
  else
    match iterEntries b with
    | .error e => .error e
    | .ok es =>
      match es.find? (fun e => e.slack ≥ minRecLen (utf8Encode name).length) with
      | none => .ok (false,b)
      | some e => .ok (true,splitEntry b e name ino)

def removeFrom (b : Block) (name : Name) : (prev : Option Nat) → List DirEntry → Option Nat × Block
  | _, [] => (none,b)
  | prev, e :: es =>
    if e.isNamed name then
      match prev with
      | some pp =>
        let h := readHeader b pp
        (some e.inode,writeHeader b pp h.inode (h.recLen+e.recLen) h.nameLen)
      | none => (some e.inode,writeHeader b e.pos 0 e.recLen 0)
    else removeFrom b name (some e.pos) es

def removeFromBlock (b : Block) (name : Name) : Except Fault (Option Nat × Block) :=
  match iterEntries b with
  | .error e => .error e
  | .ok es => .ok (removeFrom b name none es)

end PaghOS.Ext2
