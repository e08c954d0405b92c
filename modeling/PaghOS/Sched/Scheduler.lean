import Mathlib.Data.List.Basic

/-!
The scheduler of `task/scheduler.rs`. The running task is only a pid and the
loaded page-table root; every other task is a saved frame in the ready queue or
among the stopped ones. The timer tick, the yield and the tick's share of a stop
run with interrupts masked and are single steps. A stop or a resume from a system
call runs with interrupts on: it takes the frames out under one lock and puts
them back under another, and can be interrupted in between.
-/

namespace PaghOS.Sched

structure Tcb where
  pid : Nat
  kernelRsp : Nat
  cr3 : Nat
deriving DecidableEq

/-- What a history of the scheduler records. `saved` is a switch-out; `dropped` is
a call of `drop_user_space`, with the page-table roots of the tasks that can still
run at that moment. -/
inductive Event where
  | spawned (t : Tcb)
  | saved (t : Tcb)
  | restored (t : Tcb)
  | exited (pid : Nat)
  | dropped (cr3 : Nat) (live : List Nat)
deriving DecidableEq

inductive Purpose where
  | park
  | requeue
deriving DecidableEq

structure Held where
  owner : Nat
  purpose : Purpose
  task : Tcb
deriving DecidableEq

structure Scheduler where
  ready : List Tcb
  stopped : List Tcb
  exiting : List Nat
  stopRequested : List Nat
  /-- `PENDING_REAPS`: pid and page-table root, by ascending pid. -/
  pendingReaps : List (Nat × Nat)
  current : Nat
  /-- The loaded page-table root, `current_pml4_phys`. -/
  cr3 : Nat
  idleRsp : Nat
  /-- `NEXT_PID`, an `AtomicU64` from 1 on; its wrap, after 2^64-1 spawns, is left out. -/
  nextPid : Nat
  kernelPml4 : Nat
  held : List Held
  /-- The history, latest event first. -/
  log : List Event
deriving DecidableEq

def idlePid : Nat := 0

def boot (kernelPml4 : Nat) : Scheduler where
  ready := []
  stopped := []
  exiting := []
  stopRequested := []
  pendingReaps := []
  current := idlePid
  cr3 := kernelPml4
  idleRsp := 0
  nextPid := 1
  kernelPml4 := kernelPml4
  held := []
  log := []

namespace Scheduler

def record (e : Event) (s : Scheduler) : Scheduler := { s with log := e :: s.log }

def live (s : Scheduler) : List Nat := s.cr3 :: (s.ready ++ s.stopped).map Tcb.cr3

def markExiting (pid : Nat) (s : Scheduler) : Scheduler := { s with exiting := pid :: s.exiting }

def markStopRequested (pid : Nat) (s : Scheduler) : Scheduler :=
  { s with stopRequested := pid :: s.stopRequested }

def cancelStopRequest (pid : Nat) (s : Scheduler) : Scheduler :=
  { s with stopRequested := s.stopRequested.filter (· ≠ pid) }

def parkStopped (t : Tcb) (s : Scheduler) : Scheduler :=
  { s.cancelStopRequest t.pid with stopped := t :: s.stopped.filter (·.pid ≠ t.pid) }

def requeue (t : Tcb) (s : Scheduler) : Scheduler :=
  if s.ready.any (·.pid = t.pid) then s else { s with ready := s.ready ++ [t] }

/-- The first half of `stop_ready_pids`: the frames leave the ready queue. -/
def drainReady (pids : List Nat) (s : Scheduler) : List Tcb × Scheduler :=
  (s.ready.filter (·.pid ∈ pids),{ s with ready := s.ready.filter (·.pid ∉ pids) })

def stopReadyPids (pids : List Nat) (s : Scheduler) : Scheduler :=
  (s.drainReady pids).1.foldl (fun s t => s.parkStopped t) (s.drainReady pids).2

/-- The first half of `resume_stopped`: the frame leaves `STOPPED_TASKS`. -/
def takeStopped (pid : Nat) (s : Scheduler) : Option Tcb × Scheduler :=
  (s.stopped.find? (·.pid = pid),{ s with stopped := s.stopped.filter (·.pid ≠ pid) })

def resumeStopped (pid : Nat) (s : Scheduler) : Scheduler :=
  match (s.cancelStopRequest pid).takeStopped pid with
  | (some t,s) => s.requeue t
  | (none,s) => s

def spawn (t : Tcb) (s : Scheduler) : Scheduler :=
  if s.ready.any (·.pid = t.pid) then s
  else { s with ready := s.ready ++ [t] }.record (.spawned t)

def spawnNext (kernelRsp cr3 : Nat) (s : Scheduler) : Scheduler :=
  { s with nextPid := s.nextPid+1 }.spawn ⟨s.nextPid,kernelRsp,cr3⟩

def insertReap (pid cr3 : Nat) : List (Nat × Nat) → List (Nat × Nat)
  | [] => [(pid,cr3)]
  | (p,c) :: reaps =>
    if pid < p then (pid,cr3) :: (p,c) :: reaps
    else if pid = p then (pid,cr3) :: reaps
    else (p,c) :: insertReap pid cr3 reaps

def pendReapWith (pid cr3 : Nat) (s : Scheduler) : Scheduler :=
  { s with pendingReaps := insertReap pid cr3 s.pendingReaps }.record (.exited pid)

def pendReap (pid : Nat) (s : Scheduler) : Scheduler := s.pendReapWith pid s.cr3

def requestExit (pid : Nat) (s : Scheduler) : Scheduler :=
  match s.takeStopped pid with
  | (some t,s) => (s.cancelStopRequest pid).pendReapWith pid t.cr3
  | (none,_) => s.markExiting pid

def removeReadyPids (pids : List Nat) (s : Scheduler) : Scheduler :=
  { s with
    ready := s.ready.filter (·.pid ∉ pids)
    log := (s.ready.filter (·.pid ∈ pids)).map (fun t => .exited t.pid) ++ s.log }

def dropUserSpace (cr3 : Nat) (s : Scheduler) : Scheduler := s.record (.dropped cr3 s.live)

def dropCurrentNow (s : Scheduler) : Scheduler :=
  ({ s with exiting := s.exiting.filter (· ≠ s.current) }.cancelStopRequest s.current).pendReap s.current

def reapFrees (pid cr3 : Nat) (s : Scheduler) : Bool :=
  cr3 ≠ s.kernelPml4 && cr3 ≠ s.cr3 && !s.ready.any (·.cr3 = cr3) &&
    !s.pendingReaps.any (fun r => r.1 ≠ pid && r.2 = cr3)

def reapExitedTasks (s : Scheduler) : Scheduler :=
  match s.pendingReaps.find? (·.1 ≠ s.current) with
  | none => s
  | some (pid,cr3) =>
    let s := if s.reapFrees pid cr3 then s.dropUserSpace cr3 else s
    { s with pendingReaps := s.pendingReaps.filter (·.1 ≠ pid) }

/-- `drop_exclusive_user_space`, after the exec has loaded its new page tables. -/
def dropExclusiveUserSpace (cr3 : Nat) (s : Scheduler) : Scheduler :=
  if cr3 = 0 ∨ cr3 = s.kernelPml4 then s
  else if s.ready.any (·.cr3 = cr3) then s
  else if s.pendingReaps.any (·.2 = cr3) then s
  else s.dropUserSpace cr3

def saveCurrent (rsp : Nat) (s : Scheduler) : Scheduler :=
  let t : Tcb := ⟨s.current,rsp,s.cr3⟩
  let s := s.record (.saved t)
  if s.current ∈ s.stopRequested then s.parkStopped t else s.requeue t

def runIdle (s : Scheduler) : Scheduler :=
  { s with current := idlePid }.record (.restored ⟨idlePid,s.idleRsp,s.cr3⟩)

def switchTo (t : Tcb) (s : Scheduler) : Scheduler :=
  { s with current := t.pid, cr3 := t.cr3 }.record (.restored t)

/-- `begin_group_stop`: the siblings are parked, the running task parks itself later. -/
def beginGroupStop (siblings : List Nat) (s : Scheduler) : Scheduler :=
  (s.stopReadyPids siblings).markStopRequested s.current

def forceTerminateGroup (members : List Nat) (pid : Nat) (s : Scheduler) : Scheduler :=
  (members.foldl (fun s m => s.requestExit m) s).requestExit pid

end Scheduler

/-- What `tick_action` did to the scheduler: nothing, a group stop, or a kill. -/
inductive TickAction where
  | none
  | park (siblings : List Nat)
  | kill (members : List Nat)
deriving DecidableEq

namespace Scheduler

def tickSave (rsp : Nat) (action : TickAction) (s : Scheduler) : Scheduler :=
  if s.current = idlePid then { s with idleRsp := rsp }
  else if s.current ∈ s.exiting then
    { s with exiting := s.exiting.filter (· ≠ s.current) }.pendReap s.current
  else
    match action with
    | .none => s.saveCurrent rsp
    | .park siblings => (s.beginGroupStop siblings).saveCurrent rsp
    | .kill members => (s.forceTerminateGroup members s.current).dropCurrentNow

def schedule (s : Scheduler) : Scheduler :=
  match s.ready with
  | [] => s.runIdle
  | t :: ready => { s with ready }.switchTo t

def schedulerTickIrq (rsp : Nat) (action : TickAction) (s : Scheduler) : Option Scheduler :=
  if rsp.testBit 47 then some (s.tickSave rsp action).reapExitedTasks.schedule else none

def schedulerYieldSwitch (rsp : Nat) (s : Scheduler) : Scheduler :=
  match s.ready with
  | [] =>
    if s.current ≠ idlePid ∧ s.current ∈ s.stopRequested then (s.saveCurrent rsp).runIdle else s
  | t :: ready =>
    let s := { s with ready }
    let s := if s.current = idlePid then { s with idleRsp := rsp } else s.saveCurrent rsp
    s.switchTo t

def execLinuxImage (pml4 : Nat) (s : Scheduler) : Scheduler :=
  { s with cr3 := pml4 }.dropExclusiveUserSpace s.cr3

def stopInterrupted (pids : List Nat) (s : Scheduler) : Scheduler :=
  let (frames,s) := s.drainReady pids
  { s with held := frames.map (⟨s.current,.park,·⟩) ++ s.held }

def resumeInterrupted (pid : Nat) (s : Scheduler) : Scheduler :=
  match (s.cancelStopRequest pid).takeStopped pid with
  | (some t,s) => { s with held := ⟨s.current,.requeue,t⟩ :: s.held }
  | (none,s) => s

def putBack (h : Held) (s : Scheduler) : Scheduler :=
  match h.purpose with
  | .park => s.parkStopped h.task
  | .requeue => s.requeue h.task

/-- The running task goes on with the stop or resume it was interrupted in. -/
def finishInterrupted (s : Scheduler) : Scheduler :=
  (s.held.filter (·.owner = s.current)).foldl (fun s h => s.putBack h)
    { s with held := s.held.filter (·.owner ≠ s.current) }

end Scheduler

/-- The steps of the system, with what the environment supplies: frame addresses,
fresh page tables and the targets of signals. -/
inductive Op where
  /-- `kernel_thread_spawn` and `spawn_linux_thread`: the loaded address space is shared. -/
  | spawnThread (kernelRsp : Nat)
  | spawnProcess (kernelRsp pml4 : Nat)
  | tick (rsp : Nat) (action : TickAction)
  | yieldSwitch (rsp : Nat)
  | stopReadyPids (pids : List Nat)
  | markStopRequested (pid : Nat)
  | cancelStopRequest (pid : Nat)
  | resumeStopped (pid : Nat)
  | requestExit (pid : Nat)
  | exitCurrent
  | removeReadyPids (pids : List Nat)
  | execImage (pml4 : Nat)
  | stopInterrupted (pids : List Nat)
  | resumeInterrupted (pid : Nat)
  | finishInterrupted
deriving DecidableEq

/-- One step; `none` is a halted machine, or an exec that would be given the
loaded page-table root as a free frame. -/
def step (s : Scheduler) : Op → Option Scheduler
  | .spawnThread rsp => some (s.spawnNext rsp s.cr3)
  | .spawnProcess rsp pml4 => some (s.spawnNext rsp pml4)
  | .tick rsp action => s.schedulerTickIrq rsp action
  | .yieldSwitch rsp => some (s.schedulerYieldSwitch rsp)
  | .stopReadyPids pids => some (s.stopReadyPids pids)
  | .markStopRequested pid => some (s.markStopRequested pid)
  | .cancelStopRequest pid => some (s.cancelStopRequest pid)
  | .resumeStopped pid => some (s.resumeStopped pid)
  | .requestExit pid => some (s.requestExit pid)
  | .exitCurrent => if s.current = idlePid then none else some (s.markExiting s.current)
  | .removeReadyPids pids => some (s.removeReadyPids pids)
  | .execImage pml4 => if pml4 = s.cr3 then none else some (s.execLinuxImage pml4)
  | .stopInterrupted pids => some (s.stopInterrupted pids)
  | .resumeInterrupted pid => some (s.resumeInterrupted pid)
  | .finishInterrupted => some s.finishInterrupted

end PaghOS.Sched
