import PaghOS.Mm.Regions
import PaghOS.Signal.UserReturn

/-!
What `exec_linux_image` (`src/task/process.rs`) does to the compat state of the
process, and which addresses of the replaced image it leaves there.
-/

namespace PaghOS.Signal
open Elf
open Mm (VmRegionSet userMmapBase)

variable {pid : UInt64} {r : ExecRequest} {new : NewImage} {image : ExecImage}

inductive OpenObject where
  | stdin | console | pipeRead | pipeWrite | socket | inetTcp | inetUdp | unixListener
  | unixSocketUnbound | eventfd | file | dir | epoll
  deriving DecidableEq

structure FdTable where
  slots : List (Option OpenObject)
  cloexec : List Nat
  deriving DecidableEq

def FdTable.describeFd (t : FdTable) (fd : Nat) : String :=
  match (t.slots[fd]?).join with
  | none => "closed"
  | some .stdin => "stdin(kbd)"
  | some .console => "console"
  | some .pipeRead => "pipe-r"
  | some .pipeWrite => "pipe-w"
  | some .socket => "socket"
  | some .inetTcp => "inet-tcp"
  | some .inetUdp => "inet-udp"
  | some .unixListener => "unix-listener"
  | some .unixSocketUnbound => "unix-unbound"
  | some .eventfd => "eventfd"
  | some .file => "file"
  | some .dir => "dir"
  | some .epoll => "epoll"

def FdTable.closeCloexec (t : FdTable) : FdTable where
  slots := t.cloexec.foldl (fun slots fd => slots.set fd none) t.slots
  cloexec := []

def formatCmdline (cap : Nat) : (argv : List (List UInt8)) → (payload : Nat) → List UInt8
  | [], _ => []
  | arg :: argv, payload =>
    if payload+arg.length > cap then []
    else arg ++ 0 :: formatCmdline cap argv (payload+arg.length)

def cmdlineCap : Nat := 4096

structure LoadSegment where
  start : Nat
  stop : Nat
  prot : UInt32
  fileOffset : Nat
  deriving DecidableEq

structure CompatState where
  fds : FdTable
  vm : VmRegionSet
  fsBase : UInt64
  tid : UInt64
  clearChildTid : UInt64
  robustHead : UInt64
  robustLen : UInt64
  nosysLogged : List UInt64
  exitCode : Option UInt8
  exePath : String
  cmdline : List UInt8
  imageSegments : List LoadSegment
  interpSegments : List LoadSegment
  interpPath : String
  execStdio : String × String × String
  handlers : Fin 64 → SignalAction
  sigAltstack : SigAltStack

/-- What the loader reports of the new image beside its entry and stack. -/
structure NewImage where
  resolved : String
  initialBrk : Nat
  segments : List LoadSegment
  interpSegments : List LoadSegment
  interpPath : Option String

/-- The closure `exec_linux_image` runs on the compat state of the process. -/
def CompatState.installImage (st : CompatState) (pid : UInt64) (argv : List (List UInt8))
    (new : NewImage) : CompatState :=
  let fds := st.fds.closeCloexec
  { st with
    vm := VmRegionSet.new new.initialBrk userMmapBase
    fsBase := 0
    tid := pid
    nosysLogged := []
    exitCode := none
    fds := fds
    execStdio := (fds.describeFd 0,fds.describeFd 1,fds.describeFd 2)
    exePath := new.resolved
    cmdline := formatCmdline cmdlineCap argv 0
    imageSegments := new.segments
    interpSegments := new.interpSegments
    interpPath := new.interpPath.getD "" }

def execInstalled (st : Option CompatState) (pid : UInt64) (r : ExecRequest) (new : NewImage) :
    Except RunError (ExecImage × CompatState) := do
  let image ← execLinuxImage r
  match st with
  | none => .error (.loadFailed "execve without compat state")
  | some st => .ok (image,st.installImage pid r.argv new)

/-- A value that user code may have stored as an address. -/
def UserAddr (a : UInt64) : Prop := a ≠ 0 ∧ a.toNat < userAddrMax

instance (a : UInt64) : Decidable (UserAddr a) := by unfold UserAddr; infer_instance

/-- The state a program should start in after exec: no handler of the program before
it and none of its addresses. -/
structure ExecReset (before after : CompatState) : Prop where
  dispositions : ∀ i, (after.handlers i).handler = sigDfl ∨
    (after.handlers i).handler = sigIgn ∧ (before.handlers i).handler = sigIgn
  restorers : ∀ i, ¬ UserAddr (after.handlers i).restorer
  altstackOff : after.sigAltstack.flags &&& ssDisable ≠ 0
  altstack : ¬ UserAddr after.sigAltstack.sp
  tls : ¬ UserAddr after.fsBase
  clearChildTid : ¬ UserAddr after.clearChildTid
  robust : ¬ UserAddr after.robustHead

/-- Nothing but the TLS base was ever registered with the kernel, or all of it has
been taken back. -/
structure CompatState.Unregistered (st : CompatState) : Prop where
  dispositions : ∀ i, (st.handlers i).handler = sigDfl ∨ (st.handlers i).handler = sigIgn
  restorers : ∀ i, ¬ UserAddr (st.handlers i).restorer
  altstackOff : st.sigAltstack.flags &&& ssDisable ≠ 0
  altstack : ¬ UserAddr st.sigAltstack.sp
  clearChildTid : ¬ UserAddr st.clearChildTid
  robust : ¬ UserAddr st.robustHead

theorem execInstalled_ok {st : Option CompatState}
    {after : CompatState} (h : execInstalled st pid r new = .ok (image,after)) :
    ∃ before, st = some before ∧ after = before.installImage pid r.argv new := by
  simp only [execInstalled,Check.bind_eq_ok] at h
  obtain ⟨image',-,h⟩ := h
  cases st with
  | none => simp at h
  | some before =>
    simp only [Except.ok.injEq,Prod.mk.injEq] at h
    exact ⟨before,rfl,h.2.symm⟩

/-- Exec clears the TLS base; of the rest it leaves what it finds. -/
theorem execReset_iff {before after : CompatState} {pid : UInt64} {r : ExecRequest} {new : NewImage}
    {image : ExecImage} (h : execInstalled (some before) pid r new = .ok (image,after)) :
    ExecReset before after ↔ before.Unregistered := by
  obtain ⟨st,hst,rfl⟩ := execInstalled_ok h
  obtain rfl := Option.some.inj hst
  constructor
  · intro hr
    refine ⟨fun i => ?_,hr.restorers,hr.altstackOff,hr.altstack,hr.clearChildTid,hr.robust⟩
    exact (hr.dispositions i).imp id And.right
  intro hu
  refine ⟨fun i => ?_,hu.restorers,hu.altstackOff,hu.altstack,?_,hu.clearChildTid,hu.robust⟩
  · exact (hu.dispositions i).imp id (fun h => ⟨h,h⟩)
  · rintro ⟨h0,-⟩
    exact h0 rfl

theorem execInstalled_of_ok {before : CompatState} (h : execLinuxImage r = .ok image) :
    execInstalled (some before) pid r new = .ok (image,before.installImage pid r.argv new) := by
  simp [execInstalled,h,bind,Except.bind]

/-- A shell with a TLS base, SIGPIPE ignored and a descriptor to close on exec. -/
def launched : CompatState where
  fds := ⟨[some .stdin,some .console,some .console,some .pipeRead],[3]⟩
  vm := VmRegionSet.new 0x600000 userMmapBase
  fsBase := 0x7f0000
  tid := 7
  clearChildTid := 0
  robustHead := 0
  robustLen := 24
  nosysLogged := [435]
  exitCode := none
  exePath := "/mnt/bin/sh"
  cmdline := [115,104,0]
  imageSegments := []
  interpSegments := []
  interpPath := ""
  execStdio := ("","","")
  handlers := fun i => if i = 12 then { handler := sigIgn } else {}
  sigAltstack := {}

def bareNew : NewImage := ⟨"/mnt/bin/true",0x410000,[],[],none⟩

theorem bareRequest_ok : execLinuxImage (bareRequest 0x400000) = .ok ⟨0x400000,0x70007fffff50⟩ := by
  decide +kernel

theorem execReset_iff_launched : ExecReset launched (launched.installImage 7 [] bareNew) :=
  (execReset_iff (execInstalled_of_ok bareRequest_ok)).mpr
    ⟨by decide,by decide,by decide,fun h => h.1 rfl,fun h => h.1 rfl,fun h => h.1 rfl⟩

/-- A program that has registered a handler, an alternate stack, a thread id word and
a robust list. -/
def registered : CompatState := { launched with
  clearChildTid := 0x7f02d0
  robustHead := 0x7f02e0
  handlers := fun _ => { handler := 0x401000, restorer := 0x401100 }
  sigAltstack := ⟨0x500000,0,8192⟩ }

/-- All of it is still there when the next program starts, but for the TLS base. -/
theorem exec_keeps_registrations :
    ∃ image after, execInstalled (some registered) 7 (bareRequest 0x400000) bareNew =
        .ok (image,after) ∧ ¬ ExecReset registered after ∧
      after.handlers 9 = { handler := 0x401000, restorer := 0x401100 } ∧
      after.sigAltstack = ⟨0x500000,0,8192⟩ ∧ after.clearChildTid = 0x7f02d0 ∧
      after.robustHead = 0x7f02e0 ∧ after.fsBase = 0 := by
  refine ⟨_,_,execInstalled_of_ok bareRequest_ok,fun h => ?_,rfl,rfl,rfl,rfl,rfl⟩
  exact absurd h.altstackOff (by decide)

end PaghOS.Signal
