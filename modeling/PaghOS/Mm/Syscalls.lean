import PaghOS.Mm.Regions

/-!
The handlers of `src/arch/x86_64/linux/mem_sys.rs` over one process's tracked
regions and page table. The page table gives each page its leaf: protection bits
and the bytes of its frame. `grants` counts how many more allocations succeed:
`alloc_frame` and `vmm::map` fail alike for their callers. Sums that the source
leaves unchecked on user-supplied sizes panic when they overflow.
-/

namespace PaghOS.Mm
open Elf (userAddrMax checkedAdd)

structure Leaf where
  writable : Bool
  nx : Bool
  data : List UInt8
  deriving DecidableEq

abbrev PageTable := Nat → Option Leaf

def PageTable.set (pt : PageTable) (page : Nat) (leaf : Option Leaf) : PageTable :=
  fun p => if p = page then leaf else pt p

structure Space where
  vm : VmRegionSet
  pt : PageTable

def zeroPage : List UInt8 := List.replicate pageSize 0

def unwind (pt : PageTable) (pages : List Nat) : PageTable :=
  pages.foldl (fun pt page => pt.set page none) pt

def mapLoop (writable nx : Bool) :
    (n page : Nat) → (mapped : List Nat) → PageTable → (grants : Nat) → Bool × PageTable
  | 0, _, _, pt, _ => (true,pt)
  | n+1, page, mapped, pt, grants =>
    if (pt page).isSome then mapLoop writable nx n (page+pageSize) mapped pt grants
    else
      match grants with
      | 0 => (false,unwind pt mapped)
      | grants+1 =>
        mapLoop writable nx n (page+pageSize) (mapped ++ [page])
          (pt.set page (some ⟨writable,nx,zeroPage⟩)) grants

def mapZeroedRange (pt : PageTable) (start stop : Nat) (writable nx : Bool) (grants : Nat) :
    Bool × PageTable :=
  mapLoop writable nx ((stop-start+(pageSize-1))/pageSize) start [] pt grants

def brkImpl (vm : VmRegionSet) (requested : Nat) : VmRegionSet :=
  let ceiling := (((vm.mmaps.map (·.base)).filter (· > vm.currentBrk)).min?).getD userAddrMax
  if requested > vm.currentBrk ∧ requested ≥ ceiling then vm
  else
    match planBrk vm.initialBrk vm.currentBrk requested with
    | .unchanged _ => vm
    | .shrink v => { vm with currentBrk := v }
    | .grow newBrk mapFrom _ =>
      { vm with brkLazyFrom := min vm.brkLazyFrom mapFrom, currentBrk := newBrk }

def unmapPages (pt : PageTable) (base pages : Nat) : PageTable :=
  unwind pt ((List.range pages).map (fun i => base+i*pageSize))

def munmapImpl (s : Space) (base len : Nat) : Except Errno Nat × Space :=
  match planMunmap base len s.vm.mmaps with
  | .error e => (.error e,s)
  | .ok pages =>
    (.ok 0,{ s with
      vm := { s.vm with mmaps := cutRegions s.vm.mmaps base pages }
      pt := unmapPages s.pt base pages })

def mapShared : UInt32 := 0x1
def mapPrivate : UInt32 := 0x2
def mapFixed : UInt32 := 0x10
def mapAnonymous : UInt32 := 0x20
def mapIgnored : UInt32 := 0x800 ||| 0x1000 ||| 0x4000 ||| 0x8000 ||| 0x20000

structure FileNode where
  size : Nat
  read : (off want : Nat) → Option (List UInt8)

def backing (anon : Bool) (fd off : UInt64) (node : Option FileNode) :
    Except Errno (Option FileNode) :=
  if anon then .ok none
  else if off.toNat%pageSize ≠ 0 then .error .einval
  else if fd.toInt64 < 0 then .error .ebadf
  else
    match node with
    | some f => .ok (some f)
    | none => .error .ebadf

def chooseBase (vm : VmRegionSet) (addr pages : Nat) (fixed : Bool) : Except Errno Nat :=
  if fixed then if addr = 0 ∨ addr%pageSize ≠ 0 then .error .einval else .ok addr
  else
    match planMmapBase vm.mmaps vm.mmapFloor pages userAddrMax with
    | some b => .ok b
    | none => .error .enomem

def placeRegion (s : Space) (addr pages span : Nat) (prot : UInt64) (anon fixed : Bool)
    (grants : Nat) : Except Errno Nat × Space :=
  let (writable,nx) := protToFlags prot.toUInt32
  match chooseBase s.vm addr pages fixed with
  | .error e => (.error e,s)
  | .ok base =>
    match checkedAdd base span with
    | none => (.error .enomem,s)
    | some stop =>
      if stop > userAddrMax then (.error .enomem,s)
      else
        let s :=
          if fixed then
            { s with
              vm := { s.vm with mmaps := cutRegions s.vm.mmaps base pages }
              pt := unmapPages s.pt base pages }
          else s
        let (ok,pt) :=
          if !anon && prot ≠ 0 then mapZeroedRange s.pt base stop writable nx grants
          else (true,s.pt)
        if !ok then (.error .enomem,{ s with pt := pt })
        else
          (.ok base,{ s with
            pt := pt
            vm := { s.vm with
              mmaps := s.vm.mmaps ++ [⟨base,pages,writable,nx,prot.toUInt32,anon⟩]
              mmapNextHint :=
                if !fixed && stop > s.vm.mmapNextHint then stop else s.vm.mmapNextHint } })

/-- The file's bytes go into the pages through their frames, `n` pages to go. -/
def copyFile (f : FileNode) (off base : Nat) : (n i : Nat) → PageTable → Bool × PageTable
  | 0, _, pt => (true,pt)
  | n+1, i, pt =>
    match checkedAdd off (i*pageSize) with
    | none => (true,pt)
    | some fileOff =>
      if fileOff ≥ f.size then (true,pt)
      else
        match f.read fileOff (min pageSize (f.size-fileOff)) with
        | none => (false,pt)
        | some buf =>
          if buf = [] then (true,pt)
          else
            let page := base+i*pageSize
            let pt :=
              match pt page with
              | some leaf => pt.set page (some { leaf with data := buf ++ leaf.data.drop buf.length })
              | none => pt
            copyFile f off base n (i+1) pt

def sysMmap (s : Space) (addr len prot flags fd off : UInt64) (node : Option FileNode)
    (grants : Nat) : Except Errno Nat × Space :=
  let flags := flags.toUInt32
  if len = 0 ∨ flags &&& mapShared ≠ 0 ∨ flags &&& mapPrivate = 0 then (.error .einval,s)
  else if flags &&& ~~~(mapPrivate ||| mapAnonymous ||| mapFixed ||| mapIgnored) ≠ 0 then
    (.error .einval,s)
  else
    let anon := flags &&& mapAnonymous ≠ 0
    let fixed := flags &&& mapFixed ≠ 0
    match backing anon fd off node with
    | .error e => (.error e,s)
    | .ok file =>
      match pagesForLen len.toNat with
      | none => (.error .enomem,s)
      | some pages =>
        match checkedMul pages pageSize with
        | none => (.error .enomem,s)
        | some span =>
          match placeRegion s addr.toNat pages span prot anon fixed grants with
          | (.error e,s) => (.error e,s)
          | (.ok base,s) =>
            match file with
            | none => (.ok base,s)
            | some f =>
              let (ok,pt) := copyFile f off.toNat base pages 0 s.pt
              (if ok then .ok base else .error .einval,{ s with pt := pt })

/-- The region that holds the whole old range. The sum of address and span is
computed for the first region that does not start above it. -/
def findCovering (addr span : Nat) : (regions : List MmapRegion) → (i : Nat) →
    Option (Option (Nat × MmapRegion))
  | [], _ => some none
  | r :: rest, i => do
    if r.base ≤ addr then
      let stop ← checkedAdd addr span
      if stop ≤ r.stop then some (some (i,r)) else findCovering addr span rest (i+1)
    else findCovering addr span rest (i+1)

/-- The copy loop of a move with `n` pages to go: which destination pages this
call mapped is remembered to unwind them. A missing destination of an eager
region would be an `unwrap` of nothing. -/
def copyPages (writable nx anon : Bool) (src dst : Nat) :
    (n i : Nat) → (copied : List Nat) → PageTable → (grants : Nat) → Option (Bool × PageTable)
  | 0, _, _, pt, _ => some (true,pt)
  | n+1, i, copied, pt, grants =>
    match pt (src+i*pageSize) with
    | none => copyPages writable nx anon src dst n (i+1) copied pt grants
    | some leaf =>
      let page := dst+i*pageSize
      if anon then
        match grants with
        | 0 => some (false,unwind pt copied)
        | grants+1 =>
          copyPages writable nx anon src dst n (i+1) (copied ++ [page])
            (pt.set page (some ⟨writable,nx,leaf.data⟩)) grants
      else
        match pt page with
        | none => none
        | some old =>
          copyPages writable nx anon src dst n (i+1) copied
            (pt.set page (some { old with data := leaf.data })) grants

/-- The move of a grown block: place, back, copy, track, give the old range back. -/
def moveRegion (s : Space) (i : Nat) (old : MmapRegion) (oldAddr oldPages newPages grants : Nat) :
    Option (Except Errno Nat × Space) :=
  match checkedMul newPages pageSize with
  | none => some (.error .enomem,s)
  | some span =>
    match planMmapBase s.vm.mmaps s.vm.mmapFloor newPages userAddrMax with
    | none => some (.error .enomem,s)
    | some base =>
      match checkedAdd base span with
      | none => some (.error .enomem,s)
      | some stop =>
        if stop > userAddrMax then some (.error .enomem,s)
        else do
          let (ok,pt) :=
            if !old.anon then mapZeroedRange s.pt base stop old.writable old.nx grants
            else (true,s.pt)
          if !ok then some (.error .enomem,{ s with pt := pt })
          else
            let (ok,pt) ← copyPages old.writable old.nx old.anon oldAddr base oldPages 0 [] pt grants
            if !ok then some (.error .enomem,{ s with pt := pt })
            else
              let s := { s with
                pt := pt
                vm := { s.vm with
                  mmaps := s.vm.mmaps.insertIdx i { old with base := base, pages := newPages }
                  mmapNextHint := if stop > s.vm.mmapNextHint then stop else s.vm.mmapNextHint } }
              some (.ok base,(munmapImpl s oldAddr (oldPages*pageSize)).2)

def growInPlace (s : Space) (i : Nat) (old : MmapRegion) (addr oldPages newPages grants : Nat) :
    Except Errno Nat × Space :=
  let tail := addr+oldPages*pageSize
  let (ok,pt) :=
    if !old.anon then
      mapZeroedRange s.pt tail (tail+(newPages-oldPages)*pageSize) old.writable old.nx grants
    else (true,s.pt)
  if !ok then (.error .enomem,{ s with pt := pt })
  else
    let stop := addr+newPages*pageSize
    (.ok addr,{ s with
      pt := pt
      vm := { s.vm with
        mmaps := s.vm.mmaps.set i { old with pages := newPages }
        mmapNextHint := if stop > s.vm.mmapNextHint then stop else s.vm.mmapNextHint } })

def resizeRegion (s : Space) (i : Nat) (old : MmapRegion) (addr oldPages newPages : Nat)
    (maymove : Bool) (grants : Nat) : Option (Except Errno Nat × Space) :=
  if newPages ≤ oldPages then
    if newPages < oldPages then
      some (.ok addr,(munmapImpl s (addr+newPages*pageSize) ((oldPages-newPages)*pageSize)).2)
    else some (.ok addr,s)
  else if rangeIsFree s.vm.mmaps (addr+oldPages*pageSize) (newPages-oldPages) userAddrMax then
    some (growInPlace s i old addr oldPages newPages grants)
  else if !maymove then some (.error .enomem,s)
  else moveRegion s i old addr oldPages newPages grants

def resizeFound (s : Space) (found : Option (Nat × MmapRegion)) (addr oldPages newPages : Nat)
    (maymove : Bool) (grants : Nat) : Option (Except Errno Nat × Space) :=
  match found with
  | none => some (.error .efault,s)
  | some (i,old) => resizeRegion s i old addr oldPages newPages maymove grants

def mremapMaymove : UInt64 := 1

def sysMremap (s : Space) (oldAddr oldSize newSize flags : UInt64) (grants : Nat) :
    Option (Except Errno Nat × Space) :=
  if oldAddr.toNat%pageSize ≠ 0 ∨ oldSize = 0 ∨ newSize = 0 then some (.error .einval,s)
  else if flags &&& ~~~mremapMaymove ≠ 0 then some (.error .einval,s)
  else
    match pagesForLen oldSize.toNat,pagesForLen newSize.toNat with
    | some oldPages,some newPages =>
      match checkedMul oldPages pageSize with
      | none => some (.error .enomem,s)
      | some oldSpan => do
        let found ← findCovering oldAddr.toNat oldSpan s.vm.mmaps 0
        resizeFound s found oldAddr.toNat oldPages newPages (flags &&& mremapMaymove ≠ 0) grants
    | _,_ => some (.error .enomem,s)

def reprotect (pt : PageTable) (addr pages : Nat) (writable nx drop : Bool) : PageTable :=
  (List.range pages).foldl (fun pt i => let page := addr+i*pageSize
    match pt page with
    | some leaf => pt.set page (if drop then none else some { leaf with writable := writable, nx := nx })
    | none => pt) pt

def protRead : UInt32 := 1

def mprotectImpl (s : Space) (addr len : Nat) (prot : UInt32) : Except Errno Nat × Space :=
  if addr%pageSize ≠ 0 then (.error .einval,s)
  else if len = 0 then (.ok 0,s)
  else
    match pagesForLen len with
    | none => (.error .einval,s)
    | some pages =>
      let vm := s.vm
      let heap : List MmapRegion :=
        if vm.currentBrk > vm.brkLazyFrom then
          [⟨vm.brkLazyFrom,(vm.currentBrk-vm.brkLazyFrom+(pageSize-1))/pageSize,true,true,
            protRead ||| protWrite,true⟩]
        else []
      match planMunmap addr len (vm.mmaps ++ heap) with
      | .error _ => (.error .enomem,s)
      | .ok _ =>
        let (writable,nx) := protToFlags prot
        (.ok 0,{ s with
          pt := reprotect s.pt addr pages writable nx (prot = 0)
          vm := { vm with mmaps := updateRegionFlags vm.mmaps addr pages writable nx prot } })

end PaghOS.Mm
