import PaghOS.Elf.Exec
import PaghOS.Lib.Spans

/-!
The planners of `src/arch/x86_64/linux/mem.rs` and the bookkeeping of
`cut_regions` and `update_region_flags`. A `u64` is a natural number; sums and
products the source checks or saturates are checked or saturated here. The end
of a tracked region is a plain sum: tracked regions end by `USER_ADDR_MAX`.
-/

namespace PaghOS.Mm
open Elf (userAddrMax checkedAdd userStackTop userStackPages)
open Spans

def pageSize : Nat := 4096
def userMmapBase : Nat := 0x200000000000
def userStackLow : Nat := userStackTop-userStackPages*pageSize

inductive Errno where
  | einval | enomem | efault | ebadf
  deriving DecidableEq

structure MmapRegion where
  base : Nat
  pages : Nat
  writable : Bool
  nx : Bool
  prot : UInt32
  anon : Bool
  deriving DecidableEq

def MmapRegion.stop (r : MmapRegion) : Nat := r.base+r.pages*pageSize

def u64Max : Nat := 18446744073709551615

def checkedMul (a b : Nat) : Option Nat := if a*b ≤ u64Max then some (a*b) else none

def MmapRegion.rend (r : MmapRegion) : Nat := min (r.base+min (r.pages*pageSize) u64Max) u64Max

structure VmRegionSet where
  initialBrk : Nat
  currentBrk : Nat
  mmaps : List MmapRegion
  mmapNextHint : Nat
  mmapFloor : Nat
  brkLazyFrom : Nat
  deriving DecidableEq

def pageDown (addr : Nat) : Nat := addr/pageSize*pageSize

def pageUp (addr : Nat) : Nat := pageDown (min (addr+(pageSize-1)) u64Max)

def pagesForLen (len : Nat) : Option Nat := (checkedAdd len (pageSize-1)).map (· / pageSize)

def VmRegionSet.new (initialBrk mmapHintBase : Nat) : VmRegionSet :=
  ⟨initialBrk,initialBrk,[],mmapHintBase,mmapHintBase,pageDown initialBrk⟩

def protWrite : UInt32 := 2
def protExec : UInt32 := 4

def protToFlags (prot : UInt32) : Bool × Bool :=
  (prot &&& protWrite ≠ 0,prot &&& protExec = 0)

inductive BrkOutcome where
  | unchanged (brk : Nat)
  | grow (newBrk mapFrom mapTo : Nat)
  | shrink (brk : Nat)
  deriving DecidableEq

def planBrk (initial current requested : Nat) : BrkOutcome :=
  if requested = 0 ∨ requested ≥ userAddrMax ∨ requested < initial then .unchanged current
  else if requested ≤ current then .shrink requested
  else .grow requested (pageDown current) (pageUp requested)

/-- First fit. `checked_add` of the candidate and the span fails beyond any
ceiling, so that the ceiling test speaks for both; every region is in the way
at most once, so that the rounds are enough. -/
def planMmapBase (regions : List MmapRegion) (floor pages ceiling : Nat) : Option Nat := do
  let span ← checkedMul pages pageSize
  firstFit MmapRegion.base MmapRegion.rend pageUp regions span ceiling (regions.length+1)
    (pageUp floor)

def rangeIsFree (regions : List MmapRegion) (start pages ceiling : Nat) : Bool :=
  start%pageSize = 0 &&
    match checkedMul pages pageSize with
    | none => false
    | some span =>
      match checkedAdd start span with
      | none => false
      | some stop => stop ≤ ceiling && regions.all (fun r => !(r.base < stop && start < r.rend))

def regionContainsPage (r : MmapRegion) (page : Nat) : Bool :=
  match checkedMul r.pages pageSize with
  | none => false
  | some span =>
    match checkedAdd r.base span with
    | none => false
    | some stop => r.base ≤ page && page < stop

def planMunmap (base len : Nat) (regions : List MmapRegion) : Except Errno Nat :=
  if base%pageSize ≠ 0 ∨ len = 0 then .error .einval
  else
    match pagesForLen len with
    | none => .error .einval
    | some pages =>
      if (List.range pages).all (fun i => match checkedMul i pageSize >>= checkedAdd base with
          | none => false
          | some page => regions.any (regionContainsPage · page)) then .ok pages
      else .error .einval

def MmapRegion.cut (r : MmapRegion) (ustart uend : Nat) : List MmapRegion :=
  if r.stop ≤ ustart ∨ uend ≤ r.base then [r]
  else
    (if r.base < ustart then [{ r with pages := (ustart-r.base)/pageSize }] else []) ++
    (if uend < r.stop then [{ r with base := uend, pages := (r.stop-uend)/pageSize }] else [])

def cutRegions (regions : List MmapRegion) (base pages : Nat) : List MmapRegion :=
  regions.flatMap (fun r => r.cut base (base+pages*pageSize))

def updateRegionFlags (regions : List MmapRegion) (base pages : Nat) (writable nx : Bool)
    (prot : UInt32) : List MmapRegion :=
  let uend := min (base+min (pages*pageSize) u64Max) u64Max
  regions.map (fun r =>
    if base ≤ r.base ∧ r.rend ≤ uend then { r with writable := writable, nx := nx, prot := prot }
    else r)

end PaghOS.Mm
