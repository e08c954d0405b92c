import PaghOS.Lib.Loop
import PaghOS.Sched.Scheduler

/-!
When an address space is freed. Neither the reaper nor an exec looks at the
stopped tasks.
-/

namespace PaghOS.Sched
open List

open Loop Scheduler

/-- `drop_user_space` has only been called on page tables that no task had which
could still run: not the running one, no queued one and no stopped one. -/
def SafeDrops (log : List Event) : Prop :=
  ∀ cr3 live, .dropped cr3 live ∈ log → cr3 ∉ live

/-- No stopped task has the address space of a task that waits for the reaper,
the kernel's own and the loaded one aside. -/
def ReapClear (s : Scheduler) : Prop :=
  ∀ t ∈ s.stopped, ∀ r ∈ s.pendingReaps, t.cr3 = r.2 → r.2 = s.cr3 ∨ r.2 = s.kernelPml4

def Clear (s : Scheduler) : Op → Prop
  | .tick rsp action => ReapClear (s.tickSave rsp action)
  | .execImage _ => ∀ t ∈ s.stopped, t.cr3 ≠ s.cr3
  | _ => True

namespace SafeDrops

variable {s s' : Scheduler}

theorem cons {log : List Event} {e : Event} (h : SafeDrops log)
    (he : ∀ cr3 live, e = .dropped cr3 live → cr3 ∉ live) : SafeDrops (e :: log) := by
  intro cr3 live hmem
  rcases mem_cons.mp hmem with heq | hmem
  · exact he cr3 live heq.symm
  · exact h cr3 live hmem

theorem dropUserSpace {cr3 : Nat} (h : SafeDrops s.log) (hloaded : cr3 ≠ s.cr3)
    (hready : s.ready.any (·.cr3 = cr3) = false) (hstopped : ∀ t ∈ s.stopped, t.cr3 ≠ cr3) :
    SafeDrops (s.dropUserSpace cr3).log := by
  refine h.cons ?_
  intro c live heq hmem
  obtain ⟨rfl,rfl⟩ := Event.dropped.inj heq
  rcases mem_cons.mp hmem with heq | hmem
  · exact hloaded heq
  obtain ⟨t,ht,hc⟩ := mem_map.mp hmem
  rcases mem_append.mp ht with ht | ht
  · exact any_eq_false.mp hready t ht (decide_eq_true hc)
  · exact hstopped t ht hc

theorem reapExitedTasks (h : SafeDrops s.log) (hclear : ReapClear s) : SafeDrops s.reapExitedTasks.log := by
  unfold Scheduler.reapExitedTasks
  split
  · exact h
  rename_i pid cr3 hfind
  simp only []
  split
  · rename_i hfrees
    simp only [reapFrees,Bool.and_eq_true,decide_eq_true_eq,Bool.not_eq_true'] at hfrees
    obtain ⟨⟨⟨hkernel,hloaded⟩,hready⟩,-⟩ := hfrees
    refine h.dropUserSpace hloaded hready fun t ht heq => ?_
    rcases hclear t ht _ (mem_of_find?_eq_some hfind) heq with hc | hc
    · exact hloaded hc
    · exact hkernel hc
  · exact h

theorem execLinuxImage {pml4 : Nat} (h : SafeDrops s.log) (hne : pml4 ≠ s.cr3)
    (hclear : ∀ t ∈ s.stopped, t.cr3 ≠ s.cr3) : SafeDrops (s.execLinuxImage pml4).log := by
  unfold Scheduler.execLinuxImage dropExclusiveUserSpace
  split
  · exact h
  split
  · exact h
  rename_i hready
  split
  · exact h
  · exact dropUserSpace (s := { s with cr3 := pml4 }) h hne.symm (by simpa using hready) hclear

end SafeDrops

/-- The step from `s` to `s'` frees no address space. -/
def Spares (s s' : Scheduler) : Prop :=
  ∀ cr3 live, .dropped cr3 live ∈ s'.log → .dropped cr3 live ∈ s.log

namespace Spares

variable {s s' s'' : Scheduler}

theorem safe (h : Spares s s') (hs : SafeDrops s.log) : SafeDrops s'.log :=
  fun cr3 live hmem => hs cr3 live (h cr3 live hmem)

theorem trans (h : Spares s s') (h' : Spares s' s'') : Spares s s'' :=
  fun cr3 live hmem => h cr3 live (h' cr3 live hmem)

theorem of_log_eq (h : s'.log = s.log) : Spares s s' := fun _ _ hmem => h ▸ hmem

theorem of_record {e : Event} (h : s'.log = e :: s.log) (he : ∀ cr3 live, e ≠ .dropped cr3 live) :
    Spares s s' := by
  intro cr3 live hmem
  rw [h] at hmem
  exact (mem_cons.mp hmem).resolve_left (he cr3 live).symm

theorem foldl {α : Type} {f : Scheduler → α → Scheduler} (h : ∀ s a, Spares s (f s a)) (as : List α)
    (s : Scheduler) : Spares s (as.foldl f s) := by
  induction as generalizing s with
  | nil => exact of_log_eq rfl
  | cons a as ih => exact (h s a).trans (ih (f s a))

theorem requeue (s : Scheduler) (t : Tcb) : Spares s (s.requeue t) := by
  refine of_log_eq ?_
  unfold Scheduler.requeue
  split <;> rfl

theorem stopReadyPids (s : Scheduler) (pids : List Nat) : Spares s (s.stopReadyPids pids) := by
  have hpark : ∀ s t, Spares s (parkStopped t s) := fun _ _ => of_log_eq rfl
  exact foldl hpark _ (s.drainReady pids).2

theorem resumeStopped (s : Scheduler) (pid : Nat) : Spares s (s.resumeStopped pid) := by
  unfold Scheduler.resumeStopped takeStopped
  cases (s.cancelStopRequest pid).stopped.find? (·.pid = pid) with
  | none => exact of_log_eq rfl
  | some t => exact requeue _ t

theorem requestExit (s : Scheduler) (pid : Nat) : Spares s (s.requestExit pid) := by
  unfold Scheduler.requestExit takeStopped
  cases s.stopped.find? (·.pid = pid) with
  | none => exact of_log_eq rfl
  | some t => exact of_record rfl fun _ _ => nofun

theorem saveCurrent (s : Scheduler) (rsp : Nat) : Spares s (s.saveCurrent rsp) := by
  have hrecord : Spares s (s.record (.saved ⟨s.current,rsp,s.cr3⟩)) := of_record rfl fun _ _ => nofun
  simp only [Scheduler.saveCurrent]
  split
  · exact hrecord.trans (of_log_eq rfl)
  · exact hrecord.trans (requeue _ _)

theorem tickSave (s : Scheduler) (rsp : Nat) (action : TickAction) : Spares s (s.tickSave rsp action) := by
  unfold Scheduler.tickSave
  split
  · exact of_log_eq rfl
  split
  · exact of_record rfl fun _ _ => nofun
  cases action with
  | none => exact saveCurrent s rsp
  | park siblings =>
    have hstop : Spares s (s.beginGroupStop siblings) :=
      (stopReadyPids s siblings).trans (of_log_eq rfl)
    exact hstop.trans (saveCurrent _ rsp)
  | kill members =>
    have hkill : Spares s (s.forceTerminateGroup members s.current) :=
      (foldl requestExit members s).trans (requestExit _ _)
    exact hkill.trans (of_record rfl fun _ _ => nofun)

theorem schedule (s : Scheduler) : Spares s s.schedule := by
  unfold Scheduler.schedule
  split <;> exact of_record rfl fun _ _ => nofun

theorem schedulerYieldSwitch (s : Scheduler) (rsp : Nat) : Spares s (s.schedulerYieldSwitch rsp) := by
  unfold Scheduler.schedulerYieldSwitch
  split
  · split
    · exact (saveCurrent s rsp).trans (of_record rfl fun _ _ => nofun)
    · exact of_log_eq rfl
  simp only []
  split
  · exact of_record rfl fun _ _ => nofun
  · rename_i t ready _ _
    have hsave : Spares { s with ready } ({ s with ready }.saveCurrent rsp) := saveCurrent _ rsp
    exact hsave.trans (of_record rfl fun _ _ => nofun)

theorem spawnNext (s : Scheduler) (rsp cr3 : Nat) : Spares s (s.spawnNext rsp cr3) := by
  unfold Scheduler.spawnNext spawn
  split
  · exact of_log_eq rfl
  · exact of_record rfl fun _ _ => nofun

theorem removeReadyPids (s : Scheduler) (pids : List Nat) : Spares s (s.removeReadyPids pids) := by
  intro cr3 live hmem
  rcases mem_append.mp hmem with hmem | hmem
  · obtain ⟨t,-,ht⟩ := mem_map.mp hmem
    cases ht
  · exact hmem

theorem resumeInterrupted (s : Scheduler) (pid : Nat) : Spares s (s.resumeInterrupted pid) := by
  unfold Scheduler.resumeInterrupted takeStopped
  cases (s.cancelStopRequest pid).stopped.find? (·.pid = pid) <;> exact of_log_eq rfl

theorem finishInterrupted (s : Scheduler) : Spares s s.finishInterrupted := by
  have hput : ∀ (s : Scheduler) (h : Held), Spares s (s.putBack h) := by
    intro s h
    unfold putBack
    split
    · exact of_log_eq rfl
    · exact requeue s h.task
  exact foldl hput _ { s with held := s.held.filter (·.owner ≠ s.current) }

end Spares

theorem step_safeDrops {s : Scheduler} (h : SafeDrops s.log) (op : Op) (hclear : Clear s op) :
    Yields (step s op) (fun s => SafeDrops s.log) := by
  cases op with
  | spawnThread rsp => exact .pure ((Spares.spawnNext s rsp s.cr3).safe h)
  | spawnProcess rsp pml4 => exact .pure ((Spares.spawnNext s rsp pml4).safe h)
  | tick rsp action =>
    simp only [step,schedulerTickIrq]
    split
    · have hsaved := (Spares.tickSave s rsp action).safe h
      exact .pure ((Spares.schedule _).safe (hsaved.reapExitedTasks hclear))
    · exact nofun
  | yieldSwitch rsp => exact .pure ((Spares.schedulerYieldSwitch s rsp).safe h)
  | stopReadyPids pids => exact .pure ((Spares.stopReadyPids s pids).safe h)
  | markStopRequested pid | cancelStopRequest pid => exact .pure h
  | resumeStopped pid => exact .pure ((Spares.resumeStopped s pid).safe h)
  | requestExit pid => exact .pure ((Spares.requestExit s pid).safe h)
  | exitCurrent =>
    simp only [step]
    split
    · exact nofun
    · exact .pure h
  | removeReadyPids pids => exact .pure ((Spares.removeReadyPids s pids).safe h)
  | execImage pml4 =>
    simp only [step]
    split
    · exact nofun
    · rename_i hne
      exact .pure (h.execLinuxImage hne hclear)
  | stopInterrupted pids => exact .pure h
  | resumeInterrupted pid => exact .pure ((Spares.resumeInterrupted s pid).safe h)
  | finishInterrupted => exact .pure ((Spares.finishInterrupted s).safe h)

/-- In every run whose ticks and execs find no stopped task in the address space
they may free, an address space is freed only when no task that can still run has it. -/
theorem drops_safe (kernelPml4 : Nat) (ops : List Op)
    (hclear : ∀ p op s, p ++ [op] <+: ops → run step (boot kernelPml4) p = some s → Clear s op)
    (p : List Op) (hp : p <+: ops) : Yields (run step (boot kernelPml4) p) (fun s => SafeDrops s.log) :=
  run_yields Clear (fun _ op h => step_safeDrops h op) (fun _ _ hmem => by cases hmem) hclear p hp

/-- A thread exits, and before the reaper comes to it the last other thread of its
process is stopped: the reaper frees the page tables of the stopped task. -/
def stoppedBehindExit : List Op :=
  [.spawnProcess 0xffff800000001000 0x2000,.spawnProcess 0xffff800000002000 0x3000,
    .tick 0xffff800000000000 .none,.spawnThread 0xffff800000003000,.tick 0xffff800000001000 .none,
    .tick 0xffff800000002000 .none,.exitCurrent,.tick 0xffff800000003000 .none,
    .markStopRequested 1,.yieldSwitch 0xffff800000001000,.tick 0xffff800000002000 .none]

theorem stoppedBehindExit_dropped :
    ∃ s, run step (boot 0x1000) stoppedBehindExit = some s ∧ ¬ SafeDrops s.log ∧
      .dropped 0x2000 [0x3000,0x3000,0x2000] ∈ s.log ∧ s.stopped = [⟨1,0xffff800000001000,0x2000⟩] := by
  refine ⟨_,rfl,?_,?_,?_⟩
  · intro h
    exact h 0x2000 [0x3000,0x3000,0x2000] (by decide) (by decide)
  · decide
  · decide

instance (s : Scheduler) : Decidable (ReapClear s) :=
  inferInstanceAs (Decidable (∀ t ∈ s.stopped, ∀ r ∈ s.pendingReaps, t.cr3 = r.2 →
    r.2 = s.cr3 ∨ r.2 = s.kernelPml4))

instance (s : Scheduler) : (op : Op) → Decidable (Clear s op)
  | .tick rsp action => inferInstanceAs (Decidable (ReapClear (s.tickSave rsp action)))
  | .execImage _ => inferInstanceAs (Decidable (∀ t ∈ s.stopped, t.cr3 ≠ s.cr3))
  | .spawnThread _ | .spawnProcess _ _ | .yieldSwitch _ | .stopReadyPids _ | .markStopRequested _
  | .cancelStopRequest _ | .resumeStopped _ | .requestExit _ | .exitCurrent | .removeReadyPids _
  | .stopInterrupted _ | .resumeInterrupted _ | .finishInterrupted => .isTrue trivial

def exitAndReap : List Op :=
  [.spawnProcess 0xffff800000001000 0x2000,.spawnProcess 0xffff800000002000 0x3000,
    .tick 0xffff800000000000 .none,.exitCurrent,.tick 0xffff800000001000 .none,.tick 0xffff800000002000 .none]

theorem drops_safe_exitAndReap : Returns (run step (boot 0x1000) exitAndReap) (fun s => SafeDrops s.log) := by
  have hclear : Along step Clear (boot 0x1000) exitAndReap := by decide
  exact (drops_safe 0x1000 exitAndReap (fun p op s hp hs => hclear.at_prefix p op s hp hs) exitAndReap
    (prefix_refl _)).returns (by decide)

end PaghOS.Sched
