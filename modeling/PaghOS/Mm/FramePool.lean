import PaghOS.Lib.Loop
import PaghOS.Lib.WordBits

/-!
The physical frame allocator (`memory/pmm.rs`): its bitmap is laid out over the
usable regions of the boot memory map, and a free call knows an address only.
Overflow and underflow panic; a panic is `none`.
-/

namespace PaghOS.Frames
open Loop (usub)
open PaghOS

def frameSize : Nat := 4096

def lowReserved : Nat := 0x100000

def maxKernelRanges : Nat := 16

def u64Max : Nat := 0xFFFFFFFFFFFFFFFF

def addU64 (a b : Nat) : Option Nat := if a+b ≤ u64Max then some (a+b) else none

def alignDown (addr : Nat) : Nat := addr/frameSize*frameSize

def alignUp (addr : Nat) : Option Nat := do
  let past ← addU64 addr frameSize
  some (alignDown (past-1))

/-! ### The boot memory map -/

inductive MemmapKind where
  | usable
  | executableAndModules
  /-- Reserved, ACPI, framebuffer and the other kinds the allocator passes over. -/
  | other
  deriving DecidableEq

structure MemmapEntry where
  base : Nat
  length : Nat
  kind : MemmapKind
  deriving DecidableEq

def MemmapEntry.Holds (e : MemmapEntry) (addr : Nat) : Prop := e.base ≤ addr ∧ addr < e.base+e.length

structure BootMap where
  entries : List MemmapEntry
  aligned : ∀ e ∈ entries, e.base%frameSize = 0 ∧ e.length%frameSize = 0
  disjoint : entries.Pairwise fun a b => ∀ addr, ¬ (a.Holds addr ∧ b.Holds addr)

/-! ### Allocator state -/

structure Pmm where
  /-- One bit per frame: set is free. -/
  bitmap : WordBits.Words
  totalFrames : Nat
  freeCount : Nat
  baseAddr : Nat
  topAddr : Nat
  bitmapPhys : Nat
  bitmapBytes : Nat
  kernelRanges : List (Nat × Nat)
  deriving DecidableEq

def Pmm.isReserved (p : Pmm) (addr : Nat) : Bool :=
  addr < lowReserved || (p.bitmapPhys ≤ addr && addr < p.bitmapPhys+p.bitmapBytes) ||
    p.kernelRanges.any fun r => r.1 ≤ addr && addr < r.2

def Pmm.freed (p : Pmm) (idx : Nat) : Pmm :=
  { p with bitmap := WordBits.set p.bitmap idx, freeCount := p.freeCount+1 }

/-! ### `init` -/

/-- What the first pass finds: the lowest usable base, the highest usable top, and
how much is usable. -/
structure Survey where
  base : Nat
  top : Nat
  totalUsable : Nat

def surveyEntry (s : Survey) (e : MemmapEntry) : Option Survey :=
  if e.kind = .usable then do
    let entryTop ← addU64 e.base e.length
    let totalUsable ← addU64 s.totalUsable e.length
    some ⟨if e.base < s.base then e.base else s.base,if entryTop > s.top then entryTop else s.top,
      totalUsable⟩
  else some s

/-- The first usable region that is long enough holds the bitmap, 2 MB into it if
that fits and at its start otherwise; 0 if there is none. -/
def placeBitmap (bitmapBytes : Nat) : List MemmapEntry → Option Nat
  | [] => some 0
  | e :: rest =>
    if e.kind = .usable then do
      let regionEnd ← addU64 e.base e.length
      if e.length ≥ bitmapBytes then
        let offset ← addU64 e.base 0x200000
        let candidate := alignDown offset
        let candidateEnd ← addU64 candidate bitmapBytes
        some (if candidateEnd ≤ regionEnd then candidate else e.base)
      else placeBitmap bitmapBytes rest
    else placeBitmap bitmapBytes rest

def captureKernelRanges : Nat → List MemmapEntry → Option (List (Nat × Nat))
  | _, [] => some []
  | room, e :: rest =>
    if e.kind = .executableAndModules then
      match room with
      | 0 => some []
      | room+1 => do
        let stop ← addU64 e.base e.length
        let stop ← alignUp stop
        let more ← captureKernelRanges room rest
        some ((alignDown e.base,stop) :: more)
    else captureKernelRanges room rest

/-- The addresses a `while addr < stop` loop in steps of `FRAME_SIZE` goes through. -/
def framesBetween (start stop : Nat) : List Nat :=
  (List.range ((stop-start+(frameSize-1))/frameSize)).map fun k => start+k*frameSize

def releaseFrame (p : Pmm) (addr : Nat) : Option Pmm :=
  if addr < 0x100000 then some p
  else if p.bitmapPhys ≤ addr ∧ addr < p.bitmapPhys+p.bitmapBytes then some p
  else do
    let off ← usub addr p.baseAddr
    let idx := off/frameSize
    if idx/64 < p.bitmap.length then some (p.freed idx) else some p

def releaseEntry (p : Pmm) (e : MemmapEntry) : Option Pmm :=
  if e.kind = .usable then do
    let regionEnd ← addU64 e.base e.length
    let frameStart ← alignUp e.base
    let frameEnd := alignDown regionEnd
    (framesBetween frameStart frameEnd).foldlM releaseFrame p
  else some p

def reserveBitmapFrame (p : Pmm) (addr : Nat) : Option Pmm := do
  let off ← usub addr p.baseAddr
  let idx := off/frameSize
  if idx/64 < p.bitmap.length ∧ WordBits.bit p.bitmap idx then
    let freeCount ← usub p.freeCount 1
    some { p with bitmap := WordBits.clear p.bitmap idx, freeCount := freeCount }
  else some p

/-- `some none` is the return without usable memory: the allocator stays
uninitialised. -/
def init (entries : List MemmapEntry) : Option (Option Pmm) := do
  let s ← entries.foldlM surveyEntry ⟨u64Max,0,0⟩
  if s.base = u64Max then some none
  else
    let base := alignDown s.base
    let top ← alignUp s.top
    let span ← usub top base
    let totalFrames := span/frameSize
    let bitmapWords := (totalFrames+63)/64
    let bitmapBytes := bitmapWords*8
    let bitmapPhys ← placeBitmap bitmapBytes entries
    if bitmapPhys = 0 then none
    else
      let kernelRanges ← captureKernelRanges maxKernelRanges entries
      let p : Pmm := ⟨List.replicate bitmapWords 0#64,totalFrames,0,base,top,bitmapPhys,bitmapBytes,
        kernelRanges⟩
      let p ← entries.foldlM releaseEntry p
      let p ← (framesBetween bitmapPhys (bitmapPhys+bitmapBytes)).foldlM reserveBitmapFrame p
      some (some p)

/-! ### Allocating and freeing -/

def allocFrame (p : Pmm) : Option (Pmm × Option Nat) :=
  match WordBits.firstSet p.bitmap with
  | none => some (p,none)
  | some idx => do
    let freeCount ← usub p.freeCount 1
    some ({ p with bitmap := WordBits.clear p.bitmap idx, freeCount := freeCount },
      some (p.baseAddr+idx*frameSize))

/-- The scan for `count` free frames in a row, with `left` frames to look at. -/
def findRun (bitmap : WordBits.Words) (count : Nat) : (left idx runStart runLen : Nat) → Option Nat
  | 0, _, _, _ => none
  | left+1, idx, runStart, runLen =>
    if WordBits.bit bitmap idx then
      let runStart := if runLen = 0 then idx else runStart
      if runLen+1 = count then some runStart
      else findRun bitmap count left (idx+1) runStart (runLen+1)
    else findRun bitmap count left (idx+1) runStart 0

def allocFramesContiguous (p : Pmm) (count : Nat) : Option (Pmm × Option Nat) :=
  if count = 0 ∨ count > p.totalFrames then some (p,none)
  else
    match findRun p.bitmap count p.totalFrames 0 0 0 with
    | none => some (p,none)
    | some start => do
      let freeCount ← usub p.freeCount count
      some ({ p with
        bitmap := (List.range' start count).foldl WordBits.clear p.bitmap
        freeCount := freeCount },some (p.baseAddr+start*frameSize))

def Pmm.markFree (p : Pmm) (idx : Nat) : Pmm := if WordBits.bit p.bitmap idx then p else p.freed idx

def freeRunFrame (p : Pmm) (i : Nat) : Pmm :=
  if p.isReserved (p.baseAddr+i*frameSize) then p else p.markFree i

def freeFramesContiguous (p : Pmm) (base count : Nat) : Option Pmm :=
  if count = 0 then some p
  else if base < p.baseAddr ∨ base ≥ p.topAddr then some p
  else do
    let start := (base-p.baseAddr)/frameSize
    let stop ← addU64 start count
    -- The loop leaves at the end of the tracked range.
    some ((List.range' start (min stop p.totalFrames-start)).foldl freeRunFrame p)

def freeFrame (p : Pmm) (addr : Nat) : Pmm :=
  if addr < p.baseAddr ∨ addr ≥ p.topAddr then p
  else if p.isReserved addr then p
  else
    let idx := (addr-p.baseAddr)/frameSize
    if idx/64 < p.bitmap.length then p.markFree idx else p

/-! ### Runs -/

inductive FrameOp where
  | allocFrame
  | allocFramesContiguous (count : Nat)
  | freeFrame (addr : Nat)
  | freeFramesContiguous (base count : Nat)
  deriving DecidableEq

/-- The allocator, if it is initialised, and the frames it has handed out so far. -/
structure FrameRun where
  pmm : Option Pmm
  handed : List Nat
  deriving DecidableEq

def framesAt (addr : Option Nat) (count : Nat) : List Nat :=
  match addr with
  | none => []
  | some addr => (List.range count).map fun k => addr+k*frameSize

def step (r : FrameRun) (op : FrameOp) : Option FrameRun :=
  match r.pmm with
  | none => some r
  | some p =>
    match op with
    | .allocFrame => do
      let (p,addr) ← Frames.allocFrame p
      some ⟨some p,framesAt addr 1 ++ r.handed⟩
    | .allocFramesContiguous count => do
      let (p,addr) ← Frames.allocFramesContiguous p count
      some ⟨some p,framesAt addr count ++ r.handed⟩
    | .freeFrame addr => some { r with pmm := some (Frames.freeFrame p addr) }
    | .freeFramesContiguous base count => do
      let p ← Frames.freeFramesContiguous p base count
      some { r with pmm := some p }

end PaghOS.Frames
