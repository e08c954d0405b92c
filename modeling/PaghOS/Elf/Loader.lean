import PaghOS.Lib.Bytes

/-!
The ELF loader of Linux images: `src/vfs/elf_classify.rs` and the address side
of `src/vfs/elf.rs`. Frame allocation and page-table edits are an environment
that may refuse any page; the segments' bytes are not copied here.
-/

namespace PaghOS.Elf
open Bytes

def userAddrMax : Nat := 0x800000000000
def pieBase : Nat := 0x10000
def maxImageBytes : Nat := 64*1024*1024
def ptLoad : Nat := 1

def checkedAdd (a b : Nat) : Option Nat := if a+b < 0x10000000000000000 then some (a+b) else none

def pageUp (x : Nat) : Option Nat := (checkedAdd x 4095).map (fun v => v/4096*4096)

inductive ElfKind where
  | exec | dyn
  deriving DecidableEq

structure Header where
  eType : Nat
  eMachine : Nat
  eEntry : Nat
  ePhoff : Nat
  ePhentsize : Nat
  ePhnum : Nat
  deriving DecidableEq

def readHeader (data : List UInt8) : Header where
  eType := ofLe (slice data 16 2)
  eMachine := ofLe (slice data 18 2)
  eEntry := ofLe (slice data 24 8)
  ePhoff := ofLe (slice data 32 8)
  ePhentsize := ofLe (slice data 54 2)
  ePhnum := ofLe (slice data 56 2)

structure ProgramHeader where
  pType : Nat
  pOffset : Nat
  pVaddr : Nat
  pFilesz : Nat
  pMemsz : Nat
  deriving DecidableEq

def readProgramHeader (data : List UInt8) (off : Nat) : ProgramHeader where
  pType := ofLe (slice data off 4)
  pOffset := ofLe (slice data (off+8) 8)
  pVaddr := ofLe (slice data (off+16) 8)
  pFilesz := ofLe (slice data (off+32) 8)
  pMemsz := ofLe (slice data (off+40) 8)

def programHeaders (data : List UInt8) (h : Header) : List ProgramHeader :=
  (List.range h.ePhnum).map (fun i => readProgramHeader data (h.ePhoff+i*h.ePhentsize))

def orErr {α : Type} (o : Option α) (msg : String) : Except String α :=
  match o with
  | some a => .ok a
  | none => .error msg

def guardErr (bad : Bool) (msg : String) : Except String Unit :=
  if bad then .error msg else .ok ()

theorem orErr_ok {α : Type} {o : Option α} {msg : String} {a : α} : orErr o msg = .ok a ↔ o = some a := by
  cases o <;> simp [orErr]

theorem checkedAdd_some {a b c : Nat} : checkedAdd a b = some c ↔ a+b < 0x10000000000000000 ∧ a+b = c := by
  unfold checkedAdd
  split <;> simp [*]

/-- The per-segment part of `classify_elf`; other header types are skipped. -/
def classifySegment (data : List UInt8) (ph : ProgramHeader) : Except String Unit := do
  if ph.pType ≠ ptLoad then .ok ()
  else
    guardErr (ph.pFilesz > ph.pMemsz) "ELF: p_filesz exceeds p_memsz"
    let fileEnd ← orErr (checkedAdd ph.pOffset ph.pFilesz) "ELF: segment file range overflow"
    guardErr (fileEnd > data.length) "ELF: file data beyond input"
    let vaddrEnd ← orErr (checkedAdd ph.pVaddr ph.pMemsz) "ELF: vaddr range overflow"
    let pageEnd ← orErr (pageUp vaddrEnd) "ELF: vaddr page-round overflow"
    guardErr (pageEnd ≥ userAddrMax) "ELF: segment outside user address space"

def classifyElf (data : List UInt8) : Except String ElfKind := do
  guardErr (data.length < 64) "ELF: data too small for header"
  guardErr (slice data 0 4 ≠ [0x7F,0x45,0x4C,0x46]) "ELF: invalid magic"
  guardErr (slice data 4 1 ≠ [2]) "ELF: not 64-bit"
  guardErr (slice data 5 1 ≠ [1]) "ELF: not little-endian"
  let h := readHeader data
  guardErr (h.eMachine ≠ 0x3E) "ELF: not x86_64"
  let kind ←
    (if h.eType = 2 then .ok ElfKind.exec
     else if h.eType = 3 then .ok .dyn
     else .error "ELF: not ET_EXEC or ET_DYN")
  if h.ePhnum = 0 then .ok kind
  else
    guardErr (h.ePhentsize < 56) "ELF: invalid program header size"
    let tableEnd ← orErr (checkedAdd h.ePhoff (h.ePhnum*h.ePhentsize))
      "ELF: program header table offset overflow"
    guardErr (tableEnd > data.length) "ELF: program header table beyond data"
    (programHeaders data h).forM (classifySegment data)
    .ok kind

def chooseBias (maxVaddrEnd : Nat) : Option Nat := do
  let top ← checkedAdd pieBase (← pageUp maxVaddrEnd)
  if top < userAddrMax then some pieBase else none

def maxLoadVaddrEnd (phs : List ProgramHeader) : Except String Nat :=
  phs.foldlM (fun maxEnd ph => if ph.pType ≠ ptLoad then .ok maxEnd
    else do
      let e ← orErr (checkedAdd ph.pVaddr ph.pMemsz) "ELF: vaddr range overflow"
      .ok (max maxEnd e)) 0

/-- What the memory manager answers while an image is mapped: whether a top-level
table can be made, and whether a frame can be had and mapped at an address, given
the pages already mapped. -/
structure LoadEnv where
  newUserPml4 : Except String Unit
  mapPage : List Nat → Nat → Except String Unit

/-- The state of a mapping pass: highest end, total size, pages mapped. -/
structure MapPass where
  brk : Nat
  totalMemsz : Nat
  mapped : List Nat

def mapPages (env : LoadEnv) : (n addr : Nat) → List Nat → Except String (List Nat)
  | 0, _, mapped => .ok mapped
  | n+1, addr, mapped => do
    env.mapPage mapped addr
    mapPages env n (addr+4096) (addr :: mapped)

def mapSegment (env : LoadEnv) (data : List UInt8) (bias : Nat) (p : MapPass)
    (ph : ProgramHeader) : Except String MapPass := do
  let vaddrStart ← orErr (checkedAdd ph.pVaddr bias) "ELF: vaddr+bias overflow"
  let vaddrEnd ← orErr (checkedAdd vaddrStart ph.pMemsz) "ELF: vaddr range overflow"
  guardErr (vaddrStart ≥ userAddrMax || vaddrEnd > userAddrMax)
    "ELF: segment outside user address space"
  let total ← orErr (checkedAdd p.totalMemsz ph.pMemsz) "ELF: segment sizes overflow"
  guardErr (total > maxImageBytes) "ELF: image too large for the loader"
  let pageStart := vaddrStart/4096*4096
  let pageEnd ← orErr (pageUp vaddrEnd) "ELF: vaddr page-round overflow"
  let mapped ← mapPages env ((pageEnd-pageStart)/4096) pageStart p.mapped
  if 0 < ph.pFilesz then
    let fileEnd ← orErr (checkedAdd ph.pOffset ph.pFilesz) "ELF: segment file range overflow"
    guardErr (fileEnd > data.length) "ELF: file data beyond input"
  .ok ⟨max p.brk vaddrEnd,total,mapped⟩

/-- One round of the header loop: the header's own bounds, then its segment. -/
def mapHeader (env : LoadEnv) (data : List UInt8) (h : Header) (bias : Nat) (p : MapPass)
    (i : Nat) : Except String MapPass := do
  let phOffset ← orErr (checkedAdd h.ePhoff (i*h.ePhentsize)) "ELF: phdr offset overflow"
  let phEnd ← orErr (checkedAdd phOffset h.ePhentsize) "ELF: phdr end overflow"
  guardErr (phEnd > data.length) "ELF: program header beyond data"
  let ph := readProgramHeader data phOffset
  if ph.pType ≠ ptLoad then .ok p
  else mapSegment env data bias p ph

def mapSegmentsBiased (env : LoadEnv) (data : List UInt8) (h : Header) (bias : Nat)
    (mapped : List Nat) : Except String (Nat × List Nat) := do
  guardErr (data.length > maxImageBytes) "ELF: image file too large for the loader"
  if h.ePhnum = 0 then .ok (0,mapped)
  else
    guardErr (h.ePhentsize < 56) "ELF: invalid program header size"
    let p ← (List.range h.ePhnum).foldlM (mapHeader env data h bias) ⟨0,0,mapped⟩
    .ok ((p.brk+4095)/4096*4096,p.mapped)

structure ElfProcess where
  entry : Nat
  initialBrk : Nat
  /-- Pages of the new address space. -/
  mapped : List Nat
  deriving DecidableEq

def loadBias (kind : ElfKind) (data : List UInt8) (h : Header) : Except String Nat :=
  match kind with
  | .exec => .ok 0
  | .dyn => do
    let maxEnd ← maxLoadVaddrEnd (programHeaders data h)
    orErr (chooseBias maxEnd) "ELF: no load bias fits in user address space"

def loadLinux (env : LoadEnv) (data : List UInt8) : Except String ElfProcess := do
  let kind ← classifyElf data
  let h := readHeader data
  let bias ← loadBias kind data h
  let entry ← orErr (checkedAdd h.eEntry bias) "ELF: entry point overflow under bias"
  env.newUserPml4
  let (brk,mapped) ← mapSegmentsBiased env data h bias []
  .ok ⟨entry,brk,mapped⟩

def mapInterpreter (env : LoadEnv) (data : List UInt8) (bias : Nat) (mapped : List Nat) :
    Except String Nat := do
  let kind ← classifyElf data
  guardErr (kind = .exec) "ELF: interpreter is not ET_DYN"
  let h := readHeader data
  let maxEnd ← maxLoadVaddrEnd (programHeaders data h)
  let biasedEnd ← orErr (checkedAdd bias maxEnd) "ELF: interpreter bias overflow"
  guardErr (biasedEnd ≥ userAddrMax) "ELF: interpreter does not fit in user address space"
  let entry ← orErr (checkedAdd h.eEntry bias) "ELF: interpreter entry overflow"
  let _ ← mapSegmentsBiased env data h bias mapped
  .ok entry

end PaghOS.Elf
