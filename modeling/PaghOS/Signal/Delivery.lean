import PaghOS.Elf.Exec
import PaghOS.Signal.Frame

/-!
Signal delivery and `rt_sigreturn` (`src/arch/x86_64/linux/signal.rs`,
`trap_frame.rs`), the picks they make in `src/task/compat.rs`, and the calls of
`linux_dispatch` that rewrite the frame user mode is resumed from. One process
with its own memory.
-/

namespace PaghOS.Signal
open Bytes Elf

structure SavedRegs where
  r15 : UInt64 := 0
  r14 : UInt64 := 0
  r13 : UInt64 := 0
  r12 : UInt64 := 0
  r11 : UInt64 := 0
  r10 : UInt64 := 0
  r9 : UInt64 := 0
  r8 : UInt64 := 0
  rbp : UInt64 := 0
  rdi : UInt64 := 0
  rsi : UInt64 := 0
  rdx : UInt64 := 0
  rcx : UInt64 := 0
  rbx : UInt64 := 0
  rax : UInt64 := 0
  deriving DecidableEq

/-- What the entry stubs leave on the kernel stack: the registers and the word at
`+120`. After `syscall` that word is the user stack pointer; after `int 0x80` it
is the instruction pointer the CPU pushed. -/
structure SyscallFrame where
  regs : SavedRegs
  slot : UInt64
  deriving DecidableEq

/-- The frame of the timer stub; the word for `popfq` is never touched. -/
structure IrqFrame where
  gpr : SavedRegs
  rip : UInt64
  cs : UInt64
  rflags : UInt64
  rsp : UInt64
  ss : UInt64
  deriving DecidableEq

def IrqFrame.isUserFrame (f : IrqFrame) : Bool := f.cs &&& 3 = 3 && f.cs ≠ 0

def IrqFrame.userContext (f : IrqFrame) : SigFrameRegs where
  r8 := f.gpr.r8
  r9 := f.gpr.r9
  r10 := f.gpr.r10
  r11 := f.gpr.r11
  r12 := f.gpr.r12
  r13 := f.gpr.r13
  r14 := f.gpr.r14
  r15 := f.gpr.r15
  di := f.gpr.rdi
  si := f.gpr.rsi
  bp := f.gpr.rbp
  bx := f.gpr.rbx
  dx := f.gpr.rdx
  ax := f.gpr.rax
  cx := f.gpr.rcx
  sp := f.rsp
  ip := f.rip
  flags := f.rflags

structure Compat where
  sigPending : UInt64 := 0
  sigBlocked : UInt64 := 0
  handlers : Fin 64 → SignalAction := fun _ => {}
  sigAltstack : SigAltStack := {}
  int80Entry : Bool := false

/-- The kernel as one process sees it. `page` says whether the page at an address
is mapped for user mode; `pendingApprox` is shared by all processes. A process
marked `exiting` has no record any more, for which an empty one stands, but runs
until a tick drops it. -/
structure Kern where
  compat : Compat
  mem : UInt64 → UInt8
  page : UInt64 → Bool
  pendingApprox : UInt64
  exiting : Bool := false

def Kern.read (k : Kern) (addr : UInt64) (n : Nat) : List UInt8 :=
  (List.range n).map (fun i => k.mem (addr+UInt64.ofNat i))

def Kern.write (k : Kern) (addr : UInt64) (bs : List UInt8) : Kern :=
  { k with mem := fun a => bs.getD (a-addr).toNat (k.mem a) }

def checkUserRange (start : UInt64) (len : Nat) : Bool :=
  len = 0 || (start.toNat < userAddrMax && start.toNat+len ≤ userAddrMax)

def spannedPages (start : UInt64) (len : Nat) : List UInt64 :=
  if len = 0 then []
  else
    let first := start.toNat/4096
    let last := (start.toNat+len-1)/4096
    (List.range (last-first+1)).map (fun i => UInt64.ofNat ((first+i)*4096))

def Kern.checkUserPtr (k : Kern) (start : UInt64) (len : Nat) : Bool :=
  checkUserRange start len && (spannedPages start len).all k.page

def trailingZeros (v : UInt64) : Option (Fin 64) :=
  (List.finRange 64).find? (fun i => v.toBitVec.getLsbD i.val)

def Compat.peekDeliverableSignal (c : Compat) : Option (Fin 64 × SignalAction) :=
  (trailingZeros (c.sigPending &&& ~~~c.sigBlocked)).map (fun i => (i,c.handlers i))

def signo (i : Fin 64) : UInt64 := UInt64.ofNat (i.val+1)

def Kern.consume (k : Kern) (i : Fin 64) : Kern :=
  { k with
    compat := { k.compat with sigPending := k.compat.sigPending &&& ~~~sigbit (signo i) }
    pendingApprox := k.pendingApprox-1 }

def Kern.blockDuringHandler (k : Kern) (mask : UInt64) : Kern :=
  { k with
    compat := { k.compat with
      sigBlocked := k.compat.sigBlocked ||| (mask &&& ~~~unblockableMask) } }

/-- What delivery left of the process: still on its way back to where it was,
entering a handler, or terminated. -/
inductive Outcome where
  | back | handler | gone
  deriving DecidableEq

def frameCarriesSyscallView (regs : SavedRegs) : Bool := regs.r11 &&& 2 ≠ 0

def SyscallFrame.saved (f : SyscallFrame) (result : UInt64) : SigFrameRegs where
  r8 := f.regs.r8
  r9 := f.regs.r9
  r10 := f.regs.r10
  r11 := f.regs.r11
  r12 := f.regs.r12
  r13 := f.regs.r13
  r14 := f.regs.r14
  r15 := f.regs.r15
  di := f.regs.rdi
  si := f.regs.rsi
  bp := f.regs.rbp
  bx := f.regs.rbx
  dx := f.regs.rdx
  ax := result
  cx := f.regs.rcx
  sp := f.slot
  ip := f.regs.rcx
  flags := f.regs.r11

def Kern.writeSigframe (k : Kern) (frame : UInt64) (i : Fin 64) (action : SignalAction)
    (saved : SigFrameRegs) : Kern :=
  let newmask := (k.compat.sigBlocked ||| action.mask) &&& ~~~unblockableMask
  k.write frame (encodeRtSigframe action.restorer (signo i) saved newmask k.compat.sigAltstack)

def SyscallFrame.enterHandler (f : SyscallFrame) (frame : UInt64) (i : Fin 64)
    (action : SignalAction) (result : UInt64) : SyscallFrame where
  regs := { f.regs with
    rdi := signo i
    rsi := frame+UInt64.ofNat siginfoOffset
    rdx := frame+UInt64.ofNat ucOffset
    rcx := action.handler
    r11 := userRflags
    rax := result }
  slot := frame

def Kern.forceTerminateGroup (k : Kern) : Kern := { k with compat := {}, exiting := true }

/-- `deliver_one_pending_syscall`. A stop parks the task and comes back here once
it is continued. -/
def deliverOnePendingSyscall (k : Kern) (f : SyscallFrame) (result : UInt64) :
    Outcome × Kern × SyscallFrame :=
  if k.pendingApprox = 0 then (.back,k,f)
  else
    match k.compat.peekDeliverableSignal with
    | none => (.back,k,f)
    | some (i,action) =>
      let k := k.consume i
      if action.handler = sigIgn then (.back,k,f)
      else if k.compat.int80Entry then
        if action.handler = sigDfl ∧ defaultAction (signo i) = .term then (.back,k.forceTerminateGroup,f)
        else (.back,k,f)
      else if action.handler = sigDfl then
        if defaultAction (signo i) = .term then (.gone,k,f) else (.back,k,f)
      else if !frameCarriesSyscallView f.regs then (.back,k,f)
      else
        let frame := frameLocation f.slot action k.compat.sigAltstack
        if !k.checkUserPtr frame rtSigframeSize then (.gone,k,f)
        else
          let k := k.writeSigframe frame i action (f.saved result)
          (.handler,k.blockDuringHandler action.mask,f.enterHandler frame i action result)

inductive TickAction where
  | none | delivered | park | kill
  deriving DecidableEq

def IrqFrame.enterHandler (f : IrqFrame) (frame : UInt64) (i : Fin 64) (action : SignalAction) :
    IrqFrame :=
  { f with
    rip := action.handler
    rflags := userRflags
    rsp := frame
    gpr := { f.gpr with
      rdi := signo i
      rsi := frame+UInt64.ofNat siginfoOffset
      rdx := frame+UInt64.ofNat ucOffset } }

/-- `tick_action`. Fatal and stopping defaults act on any frame; a kernel frame
otherwise consumes nothing. -/
def tickAction (k : Kern) (f : IrqFrame) : TickAction × Kern × IrqFrame :=
  if k.pendingApprox = 0 then (.none,k,f)
  else
    match k.compat.peekDeliverableSignal with
    | Option.none => (.none,k,f)
    | some (i,action) =>
      if action.handler = sigDfl ∧ defaultAction (signo i) = .term then (.kill,k.consume i,f)
      else if action.handler = sigDfl ∧ defaultAction (signo i) = .stop then
        (.park,k.consume i,f)
      else if !f.isUserFrame then (.none,k,f)
      else if action.handler = sigIgn then (.none,k.consume i,f)
      else
        let k := k.consume i
        let frame := frameLocation f.rsp action k.compat.sigAltstack
        if !k.checkUserPtr frame rtSigframeSize then (.kill,k,f)
        else
          let k := k.writeSigframe frame i action f.userContext
          (.delivered,k.blockDuringHandler action.mask,f.enterHandler frame i action)

inductive Errno where
  | ENOENT | E2BIG | ENOEXEC | ENOMEM | EACCES | EFAULT | EINVAL | ENOSYS
  deriving DecidableEq

def Errno.code : Errno → UInt64
  | .ENOENT => 2
  | .E2BIG => 7
  | .ENOEXEC => 8
  | .ENOMEM => 12
  | .EACCES => 13
  | .EFAULT => 14
  | .EINVAL => 22
  | .ENOSYS => 38

def encodeErrno (e : Errno) : UInt64 := 0-e.code

def SyscallFrame.restore (f : SyscallFrame) (fr : SigFrameRegs) : SyscallFrame where
  regs := { f.regs with
    r8 := fr.r8
    r9 := fr.r9
    r10 := fr.r10
    r12 := fr.r12
    r13 := fr.r13
    r14 := fr.r14
    r15 := fr.r15
    rdi := fr.di
    rsi := fr.si
    rbp := fr.bp
    rbx := fr.bx
    rdx := fr.dx
    rcx := fr.ip
    r11 := fr.flags }
  slot := fr.sp

def Kern.restoredFrame (k : Kern) (f : SyscallFrame) : Except Errno RestoredFrame :=
  if !k.checkUserPtr f.slot 304 then .error .EFAULT
  else
    match decodeRtSigframe (k.read f.slot 304) with
    | none => .error .EINVAL
    | some fr => .ok fr

def sysRtSigreturn (k : Kern) (f : SyscallFrame) : Except Errno (UInt64 × Kern × SyscallFrame) := do
  let fr ← k.restoredFrame f
  .ok (fr.regs.ax,{ k with compat := { k.compat with sigBlocked := fr.mask } },f.restore fr.regs)

def SignalAction.bytes (a : SignalAction) : List UInt8 :=
  le64 a.handler ++ le64 a.flags ++ le64 a.restorer ++ le64 a.mask

def SignalAction.ofBytes (bs : List UInt8) : SignalAction :=
  ⟨rd64 bs 0,rd64 bs 8,rd64 bs 16,rd64 bs 24⟩

def Kern.storeAction (k : Kern) (i : Fin 64) (act : UInt64) : Except Errno Kern :=
  if act = 0 then .ok k
  else if !k.checkUserPtr act 32 then .error .EFAULT
  else if k.exiting then .error .EINVAL
  else
    let a := SignalAction.ofBytes (k.read act 32)
    .ok { k with compat := { k.compat with
      handlers := fun j => if j = i then a else k.compat.handlers j } }

def sysRtSigaction (k : Kern) (sig act oldact : UInt64) : Kern × Except Errno UInt64 :=
  if h : sig = 0 ∨ sig > 64 then (k,.error .EINVAL)
  else if (sig = SIGKILL ∨ sig = SIGSTOP) ∧ act ≠ 0 then (k,.error .EINVAL)
  else
    let i : Fin 64 := ⟨sig.toNat-1,by
      simp only [not_or,UInt64.not_lt] at h
      have := UInt64.le_iff_toNat_le.mp h.2
      have : sig.toNat ≠ 0 := fun h0 => h.1 (UInt64.toNat_inj.mp h0)
      simp at *
      omega⟩
    match k.storeAction i act with
    | .error e => (k,.error e)
    | .ok k' =>
      if oldact = 0 then (k',.ok 0)
      else if k'.exiting then (k',.error .EINVAL)
      else if !k'.checkUserPtr oldact 32 then (k',.error .EFAULT)
      else (k'.write oldact (k'.compat.handlers i).bytes,.ok 0)

end PaghOS.Signal
