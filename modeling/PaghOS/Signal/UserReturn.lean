import PaghOS.Lib.Loop
import PaghOS.Signal.Delivery

/-!
Where user mode is resumed. One process from its launch on: system calls by
`syscall` and by `int 0x80`, timer ticks, and everything else the kernel does to
the process as an arbitrary change of its record. The word each return
instruction takes its target and flags from is followed through exec, delivery
and `rt_sigreturn`.
-/

namespace PaghOS.Signal
open Elf Loop Option

variable {r : Resumed} {f' : SyscallFrame} {c : Context} {mem : UInt64 → UInt8} {e : Event}

inductive Entry where
  | syscall | int80
  deriving DecidableEq

structure UserState where
  gpr : SavedRegs
  rip : UInt64
  rflags : UInt64
  rsp : UInt64
  deriving DecidableEq

def Entry.frame : Entry → UserState → SyscallFrame
  | .syscall,u => ⟨{ u.gpr with rcx := u.rip, r11 := u.rflags },u.rsp⟩
  | .int80,u => ⟨u.gpr,u.rip⟩

structure Context where
  rip : UInt64
  rflags : UInt64
  deriving DecidableEq

def sysretFlags (r11 : UInt64) : UInt64 := r11 &&& 0x3C7FD7 ||| 2

/-- `sysretq` reads `rcx` and `r11`; `iretq` reads the words the CPU pushed, the
first of which is the word at `+120`. -/
def Entry.resume : Entry → UserState → SyscallFrame → Context
  | .syscall,_,f => ⟨f.regs.rcx,sysretFlags f.regs.r11⟩
  | .int80,u,f => ⟨f.slot,u.rflags⟩

inductive Via where
  | plain | exec | handler | sigreturn
  deriving DecidableEq

/-- A system call as far as it can touch the frame. For `execve`, `refused` is an
error before the image is read, and the address space is the new one. -/
inductive Call where
  | unsupported
  | execve (refused : Option Errno) (r : ExecRequest) (mem : UInt64 → UInt8) (page : UInt64 → Bool)
  | rtSigreturn
  | rtSigaction (sig act oldact : UInt64)
  | other (k : Kern) (result : UInt64)

def runerr : RunError → Errno
  | .argsTooLarge => .E2BIG
  | .notFound => .ENOENT
  | .loadFailed _ => .ENOEXEC
  | .stackFailed => .ENOMEM

structure Routed where
  kern : Kern
  frame : SyscallFrame
  result : UInt64
  via : Via

def sysExecve (k : Kern) (f : SyscallFrame) (refused : Option Errno) (r : ExecRequest)
    (mem : UInt64 → UInt8) (page : UInt64 → Bool) : Routed :=
  match refused with
  | some e => ⟨k,f,encodeErrno e,.plain⟩
  | none =>
    match execLinuxImage r with
    | .error e => ⟨k,f,encodeErrno (runerr e),.plain⟩
    | .ok image =>
      if k.exiting then ⟨k,f,encodeErrno (runerr (.loadFailed "execve without compat state")),.plain⟩
      else ⟨{ k with mem := mem, page := page },⟨{ r11 := f.regs.r11 ||| 2, rcx := UInt64.ofNat image.entry },
          UInt64.ofNat image.initialRsp⟩,0,.exec⟩

/-- Any other kernel activity on the process; a recorded `int 0x80` stays recorded, and so
does that the process is exiting, which leaves it no record. -/
def Kern.changeTo (k k' : Kern) : Kern :=
  let exiting := k.exiting || k'.exiting
  { k' with
    exiting := exiting
    compat := { (if exiting then {} else k'.compat : Compat) with
      int80Entry := k.compat.int80Entry || k'.compat.int80Entry } }

def routeCall (k : Kern) (f : SyscallFrame) : Call → Routed
  | .unsupported => ⟨k,f,encodeErrno .ENOSYS,.plain⟩
  | .execve refused r mem page => sysExecve k f refused r mem page
  | .rtSigreturn =>
    match sysRtSigreturn k f with
    | .ok (ax,k',f') => ⟨k',f',ax,.sigreturn⟩
    | .error e => ⟨k,f,encodeErrno e,.plain⟩
  | .rtSigaction sig act oldact =>
    match sysRtSigaction k sig act oldact with
    | (k',.ok v) => ⟨k',f,v,.plain⟩
    | (k',.error e) => ⟨k',f,encodeErrno e,.plain⟩
  | .other k' result => ⟨k.changeTo k',f,result,.plain⟩

def Kern.noteEntry (k : Kern) : Entry → Kern
  | .syscall => k
  | .int80 => { k with compat := { k.compat with int80Entry := true } }

def Call.delivers : Call → Bool
  | .unsupported => false
  | _ => true

def linuxDispatch (k : Kern) (f : SyscallFrame) (call : Call) : Option Via × Kern × SyscallFrame :=
  let r := routeCall k f call
  if call.delivers then
    match deliverOnePendingSyscall r.kern r.frame r.result with
    | (.back,k,f) => (some r.via,k,f)
    | (.handler,k,f) => (some .handler,k,f)
    | (.gone,k,f) => (none,k,f)
  else (some r.via,r.kern,r.frame)

structure Resumed where
  ctx : Context
  via : Via
  deriving DecidableEq

/-- `user` is the state user mode was last resumed in; none before the launch and
after the process is gone. -/
structure Sys where
  kern : Kern
  user : Option Resumed

/-- What happens next. User code may have rewritten all of its memory before a
trap, so a trap carries it. -/
inductive Event where
  | launch (r : ExecRequest) (mem : UInt64 → UInt8) (page : UInt64 → Bool)
  | trap (entry : Entry) (u : UserState) (mem : UInt64 → UInt8) (call : Call)
  | tick (f : IrqFrame) (mem : UInt64 → UInt8)
  | change (k : Kern)
  | exit

def Sys.boot : Sys :=
  ⟨{ compat := {}, mem := fun _ => 0, page := fun _ => false, pendingApprox := 0 },none⟩

def Sys.step (s : Sys) : Event → Sys
  | .launch r mem page =>
    match s.user,runLinuxBinary r with
    | none,.ok image =>
      ⟨{ s.kern with compat := {}, mem := mem, page := page, exiting := false },
        some ⟨⟨UInt64.ofNat image.entry,0x202⟩,.exec⟩⟩
    | _,_ => s
  | .trap entry u mem call =>
    match s.user with
    | none => s
    | some _ =>
      let k := { s.kern with mem := mem }.noteEntry entry
      match linuxDispatch k (entry.frame u) call with
      | (none,k,_) => ⟨k,none⟩
      | (some via,k,f) => ⟨k,some ⟨entry.resume u f,via⟩⟩
  | .tick f mem =>
    match s.user with
    | none => s
    | some last =>
      if s.kern.exiting then ⟨s.kern,none⟩
      else
        match tickAction { s.kern with mem := mem } f with
        | (.kill,k,_) => ⟨k,none⟩
        | (.delivered,k,f) => ⟨k,some ⟨⟨f.rip,f.rflags⟩,.handler⟩⟩
        | (_,k,f) => ⟨k,some (if f.isUserFrame then ⟨⟨f.rip,f.rflags⟩,.plain⟩ else last)⟩
  | .change k => ⟨s.kern.changeTo k,s.user⟩
  | .exit => ⟨s.kern,none⟩

def FlagsOk (rflags : UInt64) : Prop := rflags &&& 0x3000 = 0 ∧ rflags &&& 0x200 ≠ 0

instance (rflags : UInt64) : Decidable (FlagsOk rflags) := by unfold FlagsOk; infer_instance

def Context.Safe (c : Context) : Prop := c.rip.toNat < userAddrMax ∧ FlagsOk c.rflags

instance (c : Context) : Decidable c.Safe := by unfold Context.Safe; infer_instance

/-- User mode was last resumed safely, if that was after an exec, a delivery or an
`rt_sigreturn`. -/
def Sys.ReturnSafe (s : Sys) : Prop :=
  match s.user with
  | none => True
  | some r => r.via = .plain ∨ r.ctx.Safe

instance (s : Sys) : Decidable s.ReturnSafe := by
  unfold Sys.ReturnSafe
  split <;> infer_instance

/-- The CPU's rule for ring 3: IOPL stays as it is, and so does IF unless IOPL is 3. -/
def FlagRule (last now : UInt64) : Prop :=
  now &&& 0x3000 = last &&& 0x3000 ∧
    (last &&& 0x3000 = 0x3000 ∨ now &&& 0x200 = last &&& 0x200)

instance (last now : UInt64) : Decidable (FlagRule last now) := by
  unfold FlagRule; infer_instance

def Event.userFlags : Event → Option UInt64
  | .trap _ u _ _ => some u.rflags
  | .tick f _ => if f.isUserFrame then some f.rflags else none
  | _ => none

def Sys.Admissible (s : Sys) (e : Event) : Prop :=
  match s.user,e.userFlags with
  | some r,some now => FlagRule r.ctx.rflags now
  | _,_ => True

instance (s : Sys) (e : Event) : Decidable (s.Admissible e) := by
  unfold Sys.Admissible
  split <;> infer_instance

def BadImage (image : Except RunError ExecImage) : Prop :=
  match image with
  | .ok image => userAddrMax ≤ image.entry
  | .error _ => False

/-- A frame `rt_sigreturn` accepts although its fields must not be loaded: on the
`syscall` path its instruction pointer and flags are, on the `int 0x80` path its
stack pointer, as the instruction pointer. -/
def BadFrame (entry : Entry) (fr : Except Errno RestoredFrame) : Prop :=
  match entry,fr with
  | .syscall,.ok fr => userAddrMax ≤ fr.regs.ip.toNat ∨ ¬ FlagsOk fr.regs.flags
  | .int80,.ok fr => userAddrMax ≤ fr.regs.sp.toNat
  | _,.error _ => False

def Call.BadReturn (entry : Entry) (k : Kern) (f : SyscallFrame) : Call → Prop
  | .execve none r _ _ => k.exiting = false ∧ entry = .syscall ∧ BadImage (execLinuxImage r)
  | .rtSigreturn => BadFrame entry (k.restoredFrame f)
  | _ => False

/-- The signal a delivery looks at. -/
def Kern.picked (k : Kern) : Option (Fin 64 × SignalAction) :=
  if k.pendingApprox = 0 then none else k.compat.peekDeliverableSignal

/-- The end of a system call leaves its frame as the call made it: there is no signal, it is
ignored, not to be delivered in this process or not from these registers, or its default
action lets the process run. -/
def Kern.LeavesFrame (k : Kern) (regs : SavedRegs) : Prop :=
  ∀ i action, k.picked = some (i,action) → action.handler = sigIgn ∨ k.compat.int80Entry = true ∨
    if action.handler = sigDfl then defaultAction (signo i) ≠ .term else frameCarriesSyscallView regs = false

/-- The signal has a handler outside the user half, and its frame can be written. -/
def Kern.CallsOutside (k : Kern) (sp : UInt64) : Prop :=
  ∃ i action, k.picked = some (i,action) ∧ userAddrMax ≤ action.handler.toNat ∧
    k.checkUserPtr (frameLocation sp action k.compat.sigAltstack) rtSigframeSize = true

/-- The call leaves an unfit frame that delivery does not touch, or delivery enters a handler
outside the user half, which it does only for a process never seen on `int 0x80`. -/
def Call.BadTrap (entry : Entry) (k : Kern) (f : SyscallFrame) (call : Call) : Prop :=
  let r := routeCall k f call
  call.delivers = true ∧ (r.kern.LeavesFrame r.frame.regs ∧ call.BadReturn entry k f ∨
    r.kern.compat.int80Entry = false ∧ frameCarriesSyscallView r.frame.regs = true ∧
      r.kern.CallsOutside r.frame.slot)

/-- The steps after which user mode is resumed where it must not be: the image
starts outside the user half, or a handler registered there is entered, or an
unfit frame is restored. -/
def Sys.BadStep (s : Sys) (e : Event) : Prop :=
  match s.user,e with
  | none,.launch r _ _ => BadImage (runLinuxBinary r)
  | some _,.trap entry u mem call =>
    call.BadTrap entry ({ s.kern with mem := mem }.noteEntry entry) (entry.frame u)
  | some _,.tick f _ => s.kern.exiting = false ∧ f.isUserFrame = true ∧ s.kern.CallsOutside f.rsp
  | _,_ => False

theorem or_and (a b c : UInt64) : (a ||| b) &&& c = a &&& c ||| b &&& c := by
  apply UInt64.toBitVec_inj.mp
  apply BitVec.eq_of_getLsbD_eq
  intro i hi
  simp [Bool.and_or_distrib_right]

theorem sysretFlags_ok (fl : UInt64) : FlagsOk (sysretFlags fl) ↔ FlagsOk fl := by
  have hiopl : (0x3C7FD7 : UInt64) &&& 0x3000 = 0x3000 := by decide
  have hif : (0x3C7FD7 : UInt64) &&& 0x200 = 0x200 := by decide
  have h2iopl : (2 : UInt64) &&& 0x3000 = 0 := by decide
  have h2if : (2 : UInt64) &&& 0x200 = 0 := by decide
  simp [FlagsOk,sysretFlags,or_and,UInt64.and_assoc,hiopl,hif,h2iopl,h2if]

theorem flagsOk_or_two (fl : UInt64) : FlagsOk (fl ||| 2) ↔ FlagsOk fl := by
  have hiopl : (2 : UInt64) &&& 0x3000 = 0 := by decide
  have hif : (2 : UInt64) &&& 0x200 = 0 := by decide
  simp [FlagsOk,or_and,hiopl,hif]

theorem FlagRule.ok {last now : UInt64} (h : FlagRule last now) (hl : FlagsOk last) : FlagsOk now := by
  obtain ⟨hiopl,hif⟩ := h
  refine ⟨hiopl.trans hl.1,?_⟩
  rcases hif with h3 | hif
  · rw [hl.1] at h3
    exact absurd h3 (by decide)
  · rw [hif]
    exact hl.2

theorem ne_dispositions {h : UInt64} (hout : userAddrMax ≤ h.toNat) : h ≠ sigIgn ∧ h ≠ sigDfl := by
  constructor <;>
  · rintro rfl
    exact absurd hout (by decide)

/-- What a signal interrupts: a system call on its way out with a result, or user
code at a timer tick. -/
inductive Trap where
  | syscall (f : SyscallFrame) (result : UInt64)
  | tick (f : IrqFrame)

def Trap.rsp : Trap → UInt64
  | .syscall f _ => f.slot
  | .tick f => f.rsp

def Trap.saved : Trap → SigFrameRegs
  | .syscall f result => f.saved result
  | .tick f => f.userContext

structure Enters (k : Kern) (t : Trap) (i : Fin 64) (action : SignalAction) (frame : UInt64)
    (k' : Kern) : Prop where
  picked : k.compat.peekDeliverableSignal = some (i,action)
  placed : frame = frameLocation t.rsp action k.compat.sigAltstack
  mapped : k.checkUserPtr frame rtSigframeSize = true
  after : k' = ((k.consume i).writeSigframe frame i action t.saved).blockDuringHandler action.mask

/-- What delivery on the syscall path did to the frame: nothing, unless a handler
is entered, and then only in a process never seen on `int 0x80`. -/
inductive Delivered (k : Kern) (f : SyscallFrame) (result : UInt64) : Outcome × Kern × SyscallFrame → Prop
  | back (k' : Kern) (hleaves : k.LeavesFrame f.regs) : Delivered k f result (.back,k',f)
  | gone (k' : Kern) (htaken : ¬ k.LeavesFrame f.regs) (hinside : ¬ k.CallsOutside f.slot) :
      Delivered k f result (.gone,k',f)
  | handler (k' : Kern) (i : Fin 64) (action : SignalAction) (frame : UInt64)
      (henters : Enters k (.syscall f result) i action frame k')
      (htaken : ¬ k.LeavesFrame f.regs) (hentry : k.compat.int80Entry = false)
      (hview : frameCarriesSyscallView f.regs = true)
      (houtside : k.CallsOutside f.slot ↔ userAddrMax ≤ action.handler.toNat) :
      Delivered k f result (.handler,k',f.enterHandler frame i action result)

section Picked

variable {k : Kern} {i : Fin 64} {action : SignalAction} {sp : UInt64}

theorem Kern.leavesFrame_of_picked {regs : SavedRegs} (h : k.picked = some (i,action)) :
    k.LeavesFrame regs ↔ action.handler = sigIgn ∨ k.compat.int80Entry = true ∨
      if action.handler = sigDfl then defaultAction (signo i) ≠ .term
        else frameCarriesSyscallView regs = false := by
  simp [Kern.LeavesFrame,h]

theorem Kern.callsOutside_of_picked (h : k.picked = some (i,action)) :
    k.CallsOutside sp ↔ userAddrMax ≤ action.handler.toNat ∧
      k.checkUserPtr (frameLocation sp action k.compat.sigAltstack) rtSigframeSize = true := by
  simp [Kern.CallsOutside,h]

theorem Kern.LeavesFrame.inside {regs : SavedRegs} (h : k.LeavesFrame regs) :
    ¬ (k.compat.int80Entry = false ∧ frameCarriesSyscallView regs = true ∧ k.CallsOutside sp) := by
  rintro ⟨hentry,hview,i,action,hpicked,hout,-⟩
  obtain ⟨hign,hdfl⟩ := ne_dispositions hout
  have hleft := h i action hpicked
  simp [hign,hdfl,hentry,hview] at hleft

end Picked

theorem deliverOnePendingSyscall_spec (k : Kern) (f : SyscallFrame) (result : UInt64) :
    Delivered k f result (deliverOnePendingSyscall k f result) := by
  unfold deliverOnePendingSyscall
  by_cases happrox : k.pendingApprox = 0
  · simp only [happrox,if_true]
    exact .back k fun _ _ h => by simp [Kern.picked,happrox] at h
  simp only [happrox,if_false]
  cases hpeek : k.compat.peekDeliverableSignal with
  | none => exact .back k fun _ _ h => by simp [Kern.picked,happrox,hpeek] at h
  | some picked =>
    obtain ⟨i,action⟩ := picked
    have hpicked : k.picked = some (i,action) := by rw [Kern.picked,if_neg happrox,hpeek]
    have hleaves : k.LeavesFrame f.regs ↔ _ := Kern.leavesFrame_of_picked hpicked
    have houtside : k.CallsOutside f.slot ↔ _ := Kern.callsOutside_of_picked hpicked
    dsimp only
    split
    · exact .back _ (hleaves.mpr (.inl ‹_›))
    rename_i hign
    split
    · rename_i hentry
      split
      · exact .back _ (hleaves.mpr (.inr (.inl hentry)))
      · exact .back _ (hleaves.mpr (.inr (.inl hentry)))
    rename_i hentry
    split
    · rename_i hdfl
      rw [if_pos hdfl] at hleaves
      split
      · rename_i hterm
        refine .gone _ (fun h => ?_) fun h => (ne_dispositions (houtside.mp h).1).2 hdfl
        rcases hleaves.mp h with h | h | h
        exacts [hign h,hentry h,h hterm]
      · exact .back _ (hleaves.mpr (.inr (.inr ‹_›)))
    rename_i hdfl
    rw [if_neg hdfl] at hleaves
    split
    · rename_i hview
      exact .back _ (hleaves.mpr (.inr (.inr (by simpa using hview))))
    rename_i hview
    simp only [Bool.not_eq_true',Bool.not_eq_false] at hview
    have htaken : ¬ k.LeavesFrame f.regs := by
      intro h
      rcases hleaves.mp h with h | h | h
      exacts [hign h,hentry h,absurd (hview.symm.trans h) (by decide)]
    split
    · rename_i hunmapped
      refine .gone _ htaken fun h => ?_
      have hmapped : (!(k.consume i).checkUserPtr _ _) = false := congrArg (!·) (houtside.mp h).2
      exact absurd (hmapped.symm.trans hunmapped) (by decide)
    · rename_i hmapped
      simp only [Bool.not_eq_true',Bool.not_eq_false] at hmapped
      exact .handler _ i action _ ⟨hpeek,rfl,hmapped,rfl⟩ htaken (Bool.eq_false_iff.mpr hentry) hview
        ⟨fun h => (houtside.mp h).1,fun h => houtside.mpr ⟨h,hmapped⟩⟩

/-- A tick enters a handler or leaves the frame alone. -/
inductive Ticked (k : Kern) (f : IrqFrame) : TickAction × Kern × IrqFrame → Prop
  | none (k' : Kern) (hinside : ¬ (f.isUserFrame = true ∧ k.CallsOutside f.rsp)) : Ticked k f (.none,k',f)
  | park (k' : Kern) (hinside : ¬ (f.isUserFrame = true ∧ k.CallsOutside f.rsp)) : Ticked k f (.park,k',f)
  | kill (k' : Kern) (hinside : ¬ (f.isUserFrame = true ∧ k.CallsOutside f.rsp)) : Ticked k f (.kill,k',f)
  | delivered (k' : Kern) (i : Fin 64) (action : SignalAction) (frame : UInt64)
      (henters : Enters k (.tick f) i action frame k')
      (houtside : f.isUserFrame = true ∧ k.CallsOutside f.rsp ↔ userAddrMax ≤ action.handler.toNat) :
      Ticked k f (.delivered,k',f.enterHandler frame i action)

theorem tickAction_spec (k : Kern) (f : IrqFrame) : Ticked k f (tickAction k f) := by
  unfold tickAction
  by_cases happrox : k.pendingApprox = 0
  · simp only [happrox,if_true]
    exact .none k fun ⟨_,i,action,h,_⟩ => by simp [Kern.picked,happrox] at h
  simp only [happrox,if_false]
  cases hpeek : k.compat.peekDeliverableSignal with
  | none => exact .none k fun ⟨_,i,action,h,_⟩ => by simp [Kern.picked,happrox,hpeek] at h
  | some picked =>
    obtain ⟨i,action⟩ := picked
    have hpicked : k.picked = some (i,action) := by rw [Kern.picked,if_neg happrox,hpeek]
    have houtside : k.CallsOutside f.rsp ↔ _ := Kern.callsOutside_of_picked hpicked
    have hset : action.handler = sigDfl ∨ action.handler = sigIgn →
        ¬ (f.isUserFrame = true ∧ k.CallsOutside f.rsp) := by
      rintro hset ⟨-,h⟩
      obtain ⟨hign,hdfl⟩ := ne_dispositions (houtside.mp h).1
      exact hset.elim hdfl hign
    dsimp only
    split
    · rename_i hdfl
      exact .kill _ (hset (.inl hdfl.1))
    split
    · rename_i hdfl
      exact .park _ (hset (.inl hdfl.1))
    split
    · rename_i hkernel
      exact .none _ fun h => by simp [h.1] at hkernel
    rename_i huser
    simp only [Bool.not_eq_true',Bool.not_eq_false] at huser
    split
    · exact .none _ (hset (.inr ‹_›))
    split
    · rename_i hunmapped
      refine .kill _ fun h => ?_
      have hmapped : (!(k.consume i).checkUserPtr _ _) = false := congrArg (!·) (houtside.mp h.2).2
      exact absurd (hmapped.symm.trans hunmapped) (by decide)
    · rename_i hmapped
      simp only [Bool.not_eq_true',Bool.not_eq_false] at hmapped
      exact .delivered _ i action _ ⟨hpeek,rfl,hmapped,rfl⟩
        ⟨fun h => (houtside.mp h.2).1,fun h => ⟨huser,houtside.mpr ⟨h,hmapped⟩⟩⟩

/-- What every resumed state keeps: the flags always, the target unless the trap
simply returned. -/
def Resumed.Ok (r : Resumed) : Prop :=
  FlagsOk r.ctx.rflags ∧ (r.via = .plain ∨ r.ctx.rip.toNat < userAddrMax)

theorem Resumed.Ok.safe (h : r.Ok) : r.via = .plain ∨ r.ctx.Safe :=
  h.2.imp_right fun hrip => ⟨hrip,h.1⟩

def Sys.Inv (s : Sys) : Prop := ∀ r, s.user = some r → r.Ok

variable {s : Sys}

theorem Sys.Inv.returnSafe (h : s.Inv) : s.ReturnSafe := by
  unfold Sys.ReturnSafe
  split
  · trivial
  · rename_i r hr
    exact (h r hr).safe

variable {u : UserState}

theorem resume_frame_ok (hflags : FlagsOk u.rflags) (entry : Entry) :
    FlagsOk (entry.resume u (entry.frame u)).rflags := by
  cases entry with
  | syscall => exact (sysretFlags_ok _).mpr hflags
  | int80 => exact hflags

theorem toNat_ofNat_entry {n : Nat} (h : n < 0x10000000000000000) : (UInt64.ofNat n).toNat = n := by
  simp
  omega

variable {entry : Entry} {k : Kern}

/-- Resumed for one of the three reasons, and not safely. -/
def Resumed.Broken (r : Resumed) : Prop := r.via ≠ .plain ∧ ¬ r.ctx.Safe

/-- Whether the resumed state is a good one is for `bad` to say. -/
structure Settles (r : Resumed) (bad : Prop) : Prop where
  ok : ¬ bad → r.Ok
  broken : bad → r.Broken

theorem settles_plain {bad : Prop} (hflags : FlagsOk c.rflags) (hbad : ¬ bad) : Settles ⟨c,.plain⟩ bad :=
  ⟨fun _ => ⟨hflags,.inl rfl⟩,fun h => absurd h hbad⟩

theorem settles_rip {target : Nat} (hvia : r.via ≠ .plain) (hflags : FlagsOk r.ctx.rflags)
    (htarget : r.ctx.rip.toNat = target) : Settles r (userAddrMax ≤ target) := by
  subst htarget
  exact ⟨fun h => ⟨hflags,.inr (Nat.lt_of_not_le h)⟩,fun h => ⟨hvia,fun hsafe => Nat.not_le.mpr hsafe.1 h⟩⟩

theorem routeCall_settles (call : Call) (hflags : FlagsOk u.rflags) :
    Settles ⟨entry.resume u (routeCall k (entry.frame u) call).frame,
      (routeCall k (entry.frame u) call).via⟩ (call.BadReturn entry k (entry.frame u)) := by
  have hplain : ∀ {bad : Prop}, ¬ bad → Settles ⟨entry.resume u (entry.frame u),.plain⟩ bad :=
    settles_plain (resume_frame_ok hflags entry)
  cases call with
  | unsupported | other => exact hplain id
  | rtSigaction sig act oldact =>
    simp only [routeCall]
    cases hact : sysRtSigaction k sig act oldact with
    | mk k' res => cases res <;> exact hplain id
  | execve refused r mem page =>
    cases refused with
    | some e => exact hplain id
    | none =>
      simp only [routeCall,sysExecve,Call.BadReturn]
      cases himage : execLinuxImage r with
      | error e => exact hplain fun h => h.2.2
      | ok image =>
        dsimp only
        by_cases hexiting : k.exiting = true
        · rw [if_pos hexiting,hexiting]
          exact hplain fun h => by cases h.1
        rw [if_neg hexiting,Bool.eq_false_iff.mpr hexiting]
        cases entry with
        | syscall =>
          simp only [BadImage,true_and]
          exact settles_rip (by simp) ((sysretFlags_ok _).mpr ((flagsOk_or_two _).mpr hflags))
            (toNat_ofNat_entry (execLinuxImage_entry himage))
        | int80 =>
          have hrsp := execLinuxImage_initialRsp himage
          refine ⟨fun _ => ⟨hflags,.inr ?_⟩,fun hbad => by simp at hbad⟩
          simp only [Entry.resume]
          rw [toNat_ofNat_entry]
          · exact hrsp
          · simp only [userAddrMax] at hrsp
            omega
  | rtSigreturn =>
    simp only [routeCall,sysRtSigreturn,Call.BadReturn]
    cases hfr : k.restoredFrame (entry.frame u) with
    | error e => cases entry <;> exact hplain id
    | ok fr =>
      simp only [bind,Except.bind]
      cases entry with
      | int80 => exact settles_rip (by simp) hflags rfl
      | syscall =>
        refine ⟨fun hgood => ?_,fun hbad => ⟨by simp,fun hsafe => ?_⟩⟩
        · simp only [BadFrame,not_or,not_not,Nat.not_le] at hgood
          exact ⟨(sysretFlags_ok _).mpr hgood.2,.inr hgood.1⟩
        · rcases hbad with hrip | hflags
          · exact Nat.not_le.mpr hsafe.1 hrip
          · exact hflags ((sysretFlags_ok _).mp hsafe.2)

variable {k' : Kern}

theorem storeAction_int80Entry {i : Fin 64} {act : UInt64}
    (h : k.storeAction i act = .ok k') : k'.compat.int80Entry = k.compat.int80Entry := by
  unfold Kern.storeAction at h
  split at h
  · simp_all
  split at h
  · cases h
  split at h
  · cases h
  · cases h
    rfl

theorem sysRtSigaction_int80Entry (k : Kern) (sig act oldact : UInt64) :
    (sysRtSigaction k sig act oldact).1.compat.int80Entry = k.compat.int80Entry := by
  unfold sysRtSigaction
  split
  · rfl
  split
  · rfl
  dsimp only
  split
  · rfl
  rename_i k' hk'
  have hsame := storeAction_int80Entry hk'
  split
  · exact hsame
  split
  · exact hsame
  · split <;> exact hsame

theorem routeCall_int80Entry {k : Kern} (f : SyscallFrame) (call : Call)
    (h : k.compat.int80Entry = true) : (routeCall k f call).kern.compat.int80Entry = true := by
  cases call with
  | unsupported => exact h
  | execve refused r mem page =>
    simp only [routeCall,sysExecve]
    split
    · exact h
    split
    · exact h
    · split <;> exact h
  | rtSigreturn =>
    simp only [routeCall]
    cases hret : sysRtSigreturn k f with
    | error e => exact h
    | ok res =>
      simp only [sysRtSigreturn,Check.bind_eq_ok] at hret
      obtain ⟨fr,-,hret⟩ := hret
      simp only [Except.ok.injEq] at hret
      subst hret
      exact h
  | rtSigaction sig act oldact =>
    have hsame := sysRtSigaction_int80Entry k sig act oldact
    simp only [routeCall]
    cases hact : sysRtSigaction k sig act oldact with
    | mk k' res =>
      rw [hact] at hsame
      cases res <;> exact hsame.trans h
  | other k' result => simp [routeCall,Kern.changeTo,h]

theorem userRflags_ok : FlagsOk userRflags := by decide

theorem linuxDispatch_settles (call : Call) (hflags : FlagsOk u.rflags)
    (hentry : entry = .int80 → k.compat.int80Entry = true) :
    (∃ k' f', linuxDispatch k (entry.frame u) call = (none,k',f') ∧ ¬ call.BadTrap entry k (entry.frame u)) ∨
      ∃ via k' f', linuxDispatch k (entry.frame u) call = (some via,k',f') ∧
        Settles ⟨entry.resume u f',via⟩ (call.BadTrap entry k (entry.frame u)) := by
  have hroute := routeCall_int80Entry (k := k) (entry.frame u) call
  simp only [linuxDispatch,Call.BadTrap]
  cases hd : call.delivers with
  | false =>
    obtain rfl : call = .unsupported := by cases call <;> simp_all [Call.delivers]
    exact .inr ⟨_,_,_,rfl,settles_plain (resume_frame_ok hflags entry) fun h => by cases h.1⟩
  | true =>
    simp only [if_true]
    have hspec := deliverOnePendingSyscall_spec (routeCall k (entry.frame u) call).kern
      (routeCall k (entry.frame u) call).frame (routeCall k (entry.frame u) call).result
    generalize deliverOnePendingSyscall _ _ _ = d at hspec ⊢
    cases hspec with
    | gone k'' htaken hinside => exact .inl ⟨_,_,rfl,by simp [htaken,hinside]⟩
    | back k'' hleaves =>
      simp only [hleaves,hleaves.inside,true_and,or_false]
      exact .inr ⟨_,_,_,rfl,routeCall_settles call hflags⟩
    | handler k'' i action frame _ htaken hnot hview houtside =>
      cases entry with
      | int80 => simp [hroute (hentry rfl)] at hnot
      | syscall =>
        simp only [htaken,hnot,hview,houtside,false_and,false_or,true_and]
        exact .inr ⟨_,_,_,rfl,settles_rip (by simp) ((sysretFlags_ok _).mpr userRflags_ok) rfl⟩

theorem noteEntry_int80 (k : Kern) {entry : Entry} (h : entry = .int80) :
    (k.noteEntry entry).compat.int80Entry = true := by
  subst h
  rfl

theorem Settles.step {bad : Prop} (h : Settles r bad) :
    (¬ bad → Sys.Inv ⟨k,some r⟩) ∧ (bad → ¬ Sys.ReturnSafe ⟨k,some r⟩) :=
  ⟨fun hgood _ hres => some.inj hres ▸ h.ok hgood,
    fun hbad hsafe => hsafe.elim (h.broken hbad).1 (h.broken hbad).2⟩

theorem Sys.step_tick_settles {f : IrqFrame} (hs : s.Inv) (hadm : s.Admissible (.tick f mem)) :
    (¬ s.BadStep (.tick f mem) → (s.step (.tick f mem)).Inv) ∧
      (s.BadStep (.tick f mem) → ¬ (s.step (.tick f mem)).ReturnSafe) := by
  obtain ⟨kern,user⟩ := s
  cases user with
  | none => exact ⟨fun _ => hs,False.elim⟩
  | some last =>
    have hback : Resumed.Ok (if f.isUserFrame then ⟨⟨f.rip,f.rflags⟩,.plain⟩ else last) := by
      split
      · rename_i huser
        simp only [Sys.Admissible,Event.userFlags,huser,if_true] at hadm
        exact ⟨hadm.ok (hs last rfl).1,.inl rfl⟩
      · exact hs last rfl
    simp only [Sys.step,Sys.BadStep]
    by_cases hexiting : kern.exiting = true
    · simp [hexiting,Sys.Inv]
    have hspec := tickAction_spec { kern with mem := mem } f
    rw [if_neg hexiting,and_iff_right (Bool.eq_false_iff.mpr hexiting)]
    generalize tickAction _ _ = t at hspec ⊢
    cases hspec with
    | none k' hinside | park k' hinside =>
      exact ⟨fun _ _ hres => some.inj hres ▸ hback,fun hbad => absurd hbad hinside⟩
    | kill k' hinside => exact ⟨fun _ => by simp [Sys.Inv],fun hbad => absurd hbad hinside⟩
    | delivered k' i action frame _ houtside =>
      rw [show (f.isUserFrame = true ∧ kern.CallsOutside f.rsp ↔ _) from houtside]
      exact Settles.step (settles_rip (by simp) userRflags_ok rfl)

theorem Sys.step_settles (hs : s.Inv) (hadm : s.Admissible e) :
    (¬ s.BadStep e → (s.step e).Inv) ∧ (s.BadStep e → ¬ (s.step e).ReturnSafe) := by
  cases e with
  | tick f mem => exact Sys.step_tick_settles hs hadm
  | change k =>
    obtain ⟨kern,user⟩ := s
    cases user <;> exact ⟨fun _ => hs,False.elim⟩
  | exit =>
    obtain ⟨kern,user⟩ := s
    cases user <;> exact ⟨fun _ => by simp [Sys.Inv,Sys.step],False.elim⟩
  | launch r mem page =>
    obtain ⟨kern,user⟩ := s
    cases user with
    | some last => exact ⟨fun _ => hs,False.elim⟩
    | none =>
      simp only [Sys.step,Sys.BadStep]
      cases himage : runLinuxBinary r with
      | error e => exact ⟨fun _ => hs,False.elim⟩
      | ok image =>
        exact Settles.step (settles_rip (by simp) userRflags_ok
          (toNat_ofNat_entry (runLinuxBinary_entry himage)))
  | trap entry u mem call =>
    obtain ⟨kern,user⟩ := s
    cases user with
    | none => exact ⟨fun _ => hs,False.elim⟩
    | some last =>
      simp only [Sys.step,Sys.BadStep]
      rcases linuxDispatch_settles call (FlagRule.ok hadm (hs last rfl).1)
        (noteEntry_int80 { kern with mem := mem }) with ⟨k',f',hd,hgood⟩ | ⟨via,k',f',hd,hsettles⟩
      · rw [hd]
        exact ⟨fun _ => by simp [Sys.Inv],fun hbad => absurd hbad hgood⟩
      · rw [hd]
        exact hsettles.step

/-- In a run of one process, every state user mode is resumed in after an exec, a
delivery or an `rt_sigreturn` is a safe one exactly when no step of the run starts
an image outside the user half, enters a handler there or restores an unfit
frame. -/
theorem userReturn_iff (es : List Event)
    (hadm : ∀ p e, p ++ [e] <+: es → (p.foldl Sys.step Sys.boot).Admissible e) :
    (∀ p, p <+: es → (p.foldl Sys.step Sys.boot).ReturnSafe) ↔
      ∀ p e, p ++ [e] <+: es → ¬ (p.foldl Sys.step Sys.boot).BadStep e := by
  have hboot : Sys.boot.Inv := by simp [Sys.Inv,Sys.boot]
  exact foldl_safe_iff Sys.Admissible (fun _ h => h.returnSafe)
    (fun _ _ hs ha => (Sys.step_settles hs ha).1) (fun _ _ hs ha => (Sys.step_settles hs ha).2) hboot es hadm

def bareImage (entry : Nat) : List UInt8 :=
  [0x7F,0x45,0x4C,0x46,2,1,1,0] ++ List.replicate 8 0 ++ [2,0,0x3E,0,1,0,0,0] ++
    Bytes.le 8 entry ++ List.replicate 22 0 ++ [56,0] ++ List.replicate 8 0

def bareRequest (entry : Nat) : ExecRequest where
  data := some (bareImage entry)
  files := fun _ => none
  argv := []
  envp := []
  env := ⟨.ok (),fun _ _ => .ok ()⟩
  stackPages := true

def memoryWith (base : UInt64) (bs : List UInt8) (a : UInt64) : UInt8 :=
  bs.getD (a-base).toNat 0

def userContextBytes (ip flags : UInt64) : List UInt8 :=
  List.replicate 40 0 ++
    SigFrameRegs.put ⟨0,0,0,0,0,0,0,0,0,0,0,0,0,0,0,0x7000,ip,flags⟩ ++ List.replicate 8 0

def userAt (rip rsp : UInt64) : UserState := ⟨{},rip,0x202,rsp⟩

def restoreRun (ip flags : UInt64) : List Event :=
  [.launch (bareRequest 0x400000) (fun _ => 0) (fun _ => true),
    .trap .syscall (userAt 0x400010 0x6000) (memoryWith 0x6000 (userContextBytes ip flags)) .rtSigreturn]

theorem userReturn_iff_restore : (∀ p, p <+: restoreRun 0x400100 0x202 →
    (p.foldl Sys.step Sys.boot).ReturnSafe) ↔
      ∀ p e, p ++ [e] <+: restoreRun 0x400100 0x202 → ¬ (p.foldl Sys.step Sys.boot).BadStep e :=
  userReturn_iff _ (fun _ _ => AlongFold.at_prefix
    (by decide +kernel : AlongFold Sys.step Sys.Admissible Sys.boot _))

/-- Launch, then `SIGUSR1` is pending with a handler at `handler` when a tick
interrupts ring 3. -/
def handlerRun (handler : UInt64) : List Event :=
  [.launch (bareRequest 0x400000) (fun _ => 0) (fun _ => true),
    .change { compat := { sigPending := sigbit 10, handlers := fun _ => { handler := handler } },
              mem := fun _ => 0, page := fun _ => true, pendingApprox := 1 },
    .tick ⟨{},0x400010,0x33,0x202,0x6000,0x2B⟩ (fun _ => 0)]

/-- An image that starts in the kernel half is launched there, a handler registered
there is entered, and a forged frame is restored with a kernel address, IOPL 3 and
IF clear. -/
theorem userReturn_unsafe : ([Event.launch (bareRequest 0xFFFF800000000000)
    (fun _ => 0) (fun _ => true)].foldl
        Sys.step Sys.boot).user = some ⟨⟨0xFFFF800000000000,0x202⟩,.exec⟩ ∧
      ((handlerRun 0xFFFF800000002000).foldl Sys.step Sys.boot).user =
        some ⟨⟨0xFFFF800000002000,0x202⟩,.handler⟩ ∧
      ((restoreRun 0xFFFF800000001000 0x3002).foldl Sys.step Sys.boot).user =
        some ⟨⟨0xFFFF800000001000,0x3002⟩,.sigreturn⟩ := by
  decide +kernel

end PaghOS.Signal
