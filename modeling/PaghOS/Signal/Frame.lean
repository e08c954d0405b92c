import PaghOS.Lib.Bytes

/-!
The Linux signal ABI of `src/arch/x86_64/linux/signal_frame.rs`: signal sets,
default actions, dispositions, and the `rt_sigframe` a handler is entered with.
-/

namespace PaghOS.Signal
open Bytes

def SIGKILL : UInt64 := 9
def SIGSTOP : UInt64 := 19

def sigDfl : UInt64 := 0
def sigIgn : UInt64 := 1

def saOnstack : UInt64 := 0x08000000
def minsigstksz : UInt64 := 2048
def ssDisable : UInt32 := 2

def sigbit (sig : UInt64) : UInt64 :=
  if sig = 0 ∨ sig > 64 then 0 else 1 <<< (sig-1)

def unblockableMask : UInt64 := sigbit SIGKILL ||| sigbit SIGSTOP

def userRflags : UInt64 := 0x202

inductive DefaultAction where
  | term | ignore | stop | cont
  deriving DecidableEq

def defaultAction (sig : UInt64) : DefaultAction :=
  if sig = 17 ∨ sig = 23 ∨ sig = 28 then .ignore
  else if sig = 18 then .cont
  else if sig = 19 ∨ sig = 20 ∨ sig = 21 ∨ sig = 22 then .stop
  else .term

structure SignalAction where
  handler : UInt64 := 0
  flags : UInt64 := 0
  restorer : UInt64 := 0
  mask : UInt64 := 0
  deriving DecidableEq

structure SigAltStack where
  sp : UInt64 := 0
  flags : UInt32 := 2
  size : UInt64 := 0
  deriving DecidableEq

def ucOffset : Nat := 8
def mcontextOffset : Nat := ucOffset+40
def sigmaskOffset : Nat := ucOffset+40+256
def siginfoOffset : Nat := ucOffset+304
def rtSigframeSize : Nat := 440

structure SigFrameRegs where
  r8 : UInt64
  r9 : UInt64
  r10 : UInt64
  r11 : UInt64
  r12 : UInt64
  r13 : UInt64
  r14 : UInt64
  r15 : UInt64
  di : UInt64
  si : UInt64
  bp : UInt64
  bx : UInt64
  dx : UInt64
  ax : UInt64
  cx : UInt64
  sp : UInt64
  ip : UInt64
  flags : UInt64
  deriving DecidableEq

def le64 (v : UInt64) : List UInt8 := le 8 v.toNat

def rd64 (bs : List UInt8) (off : Nat) : UInt64 := UInt64.ofNat (ofLe (slice bs off 8))

def SigFrameRegs.fields (r : SigFrameRegs) : List UInt64 :=
  [r.r8,r.r9,r.r10,r.r11,r.r12,r.r13,r.r14,r.r15,r.di,r.si,r.bp,r.bx,r.dx,r.ax,r.cx,r.sp,r.ip,r.flags]

/-- The 256 bytes of the machine context; what follows the registers stays zero. -/
def SigFrameRegs.put (r : SigFrameRegs) : List UInt8 :=
  r.fields.flatMap le64 ++ List.replicate 112 0

def SigFrameRegs.get (buf : List UInt8) : SigFrameRegs where
  r8 := rd64 buf 0
  r9 := rd64 buf 8
  r10 := rd64 buf 16
  r11 := rd64 buf 24
  r12 := rd64 buf 32
  r13 := rd64 buf 40
  r14 := rd64 buf 48
  r15 := rd64 buf 56
  di := rd64 buf 64
  si := rd64 buf 72
  bp := rd64 buf 80
  bx := rd64 buf 88
  dx := rd64 buf 96
  ax := rd64 buf 104
  cx := rd64 buf 112
  sp := rd64 buf 120
  ip := rd64 buf 128
  flags := rd64 buf 136

def satSub (a b : UInt64) : UInt64 := if b ≤ a then a-b else 0

-- The sum and the last subtraction wrap, as in a release build.
def frameLocation (userRsp : UInt64) (action : SignalAction) (alt : SigAltStack) : UInt64 :=
  let base :=
    if action.flags &&& saOnstack ≠ 0 ∧ alt.flags &&& ssDisable = 0 ∧ minsigstksz ≤ alt.size then
      alt.sp+alt.size
    else userRsp
  (satSub base 440 &&& 0xFFFFFFFFFFFFFFF0)-8

def encodeRtSigframe (restorer sig : UInt64) (saved : SigFrameRegs) (newmask : UInt64)
    (alt : SigAltStack) : List UInt8 :=
  let out := List.replicate rtSigframeSize 0
  let out := patch out 0 (le64 restorer)
  let out := patch out (ucOffset+24) (le 4 alt.flags.toNat)
  let out := patch out (ucOffset+28) (le64 alt.size)
  let out := patch out mcontextOffset saved.put
  let out := patch out sigmaskOffset (le64 newmask)
  let out := patch out siginfoOffset (le 4 sig.toNat)
  patch out (siginfoOffset+8) (le 4 0x80)

structure RestoredFrame where
  regs : SigFrameRegs
  mask : UInt64
  deriving DecidableEq

/-- A frame with a null instruction pointer is refused; nothing else is checked. -/
def decodeRtSigframe (uc : List UInt8) : Option RestoredFrame :=
  let regs := SigFrameRegs.get (slice uc (mcontextOffset-ucOffset) 256)
  if regs.ip = 0 then none
  else some ⟨regs,rd64 uc 296 &&& ~~~unblockableMask⟩

end PaghOS.Signal
