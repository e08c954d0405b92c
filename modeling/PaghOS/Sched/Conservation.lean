import Mathlib.Data.List.Nodup
import PaghOS.Sched.Roster

/-!
The scheduler keeps the roster of its tasks, as long as no stop or resume is
interrupted while it has frames in its hands.
-/

namespace PaghOS.Sched
open List

open Loop

namespace Scheduler

variable {pid : Nat} {u s' : Scheduler} {pids : List Nat}

def queued (s : Scheduler) : List Tcb := s.ready ++ s.stopped

/-- `s'` has the frames `more` besides those of `s`; nothing else that a roster
speaks about has changed. -/
structure Gains (more : List Tcb) (s s' : Scheduler) : Prop where
  queued : s'.queued.Perm (more ++ s.queued)
  log : s'.log = s.log
  current : s'.current = s.current
  nextPid : s'.nextPid = s.nextPid
  held : s'.held = s.held

theorem Gains.trans {xs ys : List Tcb} {s t : Scheduler} (h : Gains xs s t) (h' : Gains ys t u) :
    Gains (ys ++ xs) s u where
  queued := by
    rw [append_assoc]
    exact h'.queued.trans (h.queued.append_left ys)
  log := h'.log.trans h.log
  current := h'.current.trans h.current
  nextPid := h'.nextPid.trans h.nextPid
  held := h'.held.trans h.held

theorem filter_pid_ne {l : List Tcb} (h : pid ∉ l.map Tcb.pid) : l.filter (·.pid ≠ pid) = l := by
  refine filter_eq_self.mpr fun t ht => ?_
  have hne : t.pid ≠ pid := fun heq => h (heq ▸ mem_map_of_mem ht)
  simpa using hne

variable {s : Scheduler} {t : Tcb}

theorem parkStopped_gains (h : t.pid ∉ s.queued.map Tcb.pid) : Gains [t] s (s.parkStopped t) where
  queued := by
    rw [queued,map_append,mem_append,not_or] at h
    have hstopped : (s.parkStopped t).stopped = t :: s.stopped := by
      simp only [parkStopped,filter_pid_ne h.2]
    change (s.ready ++ (s.parkStopped t).stopped).Perm _
    rw [hstopped]
    exact perm_middle
  log := rfl
  current := rfl
  nextPid := rfl
  held := rfl

theorem ready_any_eq_false (h : pid ∉ s.queued.map Tcb.pid) : s.ready.any (·.pid = pid) = false := by
  rw [queued,map_append,mem_append,not_or] at h
  rw [any_eq_false]
  intro u hu heq
  exact h.1 (of_decide_eq_true heq ▸ mem_map_of_mem hu)

theorem requeue_gains (h : t.pid ∉ s.queued.map Tcb.pid) : Gains [t] s (s.requeue t) := by
  simp only [requeue,ready_any_eq_false h,Bool.false_eq_true,if_false]
  refine ⟨?_,rfl,rfl,rfl,rfl⟩
  simp only [queued,append_assoc,singleton_append]
  exact perm_middle

theorem parkAll_gains {frames : List Tcb} (h : ((frames ++ s.queued).map Tcb.pid).Nodup) :
    Gains frames s (frames.foldl (fun s t => s.parkStopped t) s) := by
  induction frames generalizing s with
  | nil => exact ⟨.refl _,rfl,rfl,rfl,rfl⟩
  | cons t frames ih =>
    have hnodup := h
    rw [cons_append,map_cons,nodup_cons] at hnodup
    have hpark : Gains [t] s (s.parkStopped t) := by
      refine parkStopped_gains fun hm => hnodup.1 ?_
      rw [map_append]
      exact mem_append_right _ hm
    have hrest : ((frames ++ (s.parkStopped t).queued).map Tcb.pid).Nodup := by
      have hperm := (hpark.queued.append_left frames).trans perm_middle
      exact (hperm.map Tcb.pid).nodup_iff.mpr h
    have hall := hpark.trans (ih hrest)
    refine { hall with queued := hall.queued.trans ?_ }
    rw [append_assoc]
    exact perm_middle

theorem stopReadyPids_gains (h : (s.queued.map Tcb.pid).Nodup) (pids : List Nat) :
    Gains [] s (s.stopReadyPids pids) := by
  have hsplit : ((s.drainReady pids).1 ++ (s.drainReady pids).2.queued).Perm s.queued := by
    simp only [drainReady,queued,decide_not,← append_assoc]
    exact (filter_append_perm (·.pid ∈ pids) s.ready).append_right s.stopped
  have hall := parkAll_gains ((hsplit.map Tcb.pid).nodup_iff.mpr h)
  exact ⟨hall.queued.trans hsplit,hall.log,hall.current,hall.nextPid,hall.held⟩

/-- A stopped task leaves the queues, or there is none and nothing happens. -/
theorem takeStopped_cases (h : (s.queued.map Tcb.pid).Nodup) (pid : Nat) :
    (s.takeStopped pid = (none,s) ∧ ∀ t ∈ s.stopped, t.pid ≠ pid) ∨
    ∃ t ∈ s.stopped, ∃ stopped, s.takeStopped pid = (some t,{ s with stopped }) ∧ t.pid = pid ∧
      (t :: (s.ready ++ stopped)).Perm s.queued ∧ t.pid ∉ (s.ready ++ stopped).map Tcb.pid := by
  cases hfind : s.stopped.find? (·.pid = pid) with
  | none =>
    have hne : ∀ t ∈ s.stopped, t.pid ≠ pid := by simpa using hfind
    refine .inl ⟨?_,hne⟩
    rw [takeStopped,hfind,filter_pid_ne (by simpa using hne)]
  | some t =>
    have hpid : t.pid = pid := by simpa using List.find?_some hfind
    have hmem := mem_of_find?_eq_some hfind
    obtain ⟨xs,ys,hsplit⟩ := append_of_mem hmem
    have hperm : (t :: (s.ready ++ (xs ++ ys))).Perm s.queued := by
      simp only [queued,hsplit]
      exact perm_middle.symm.trans (List.Perm.append_left s.ready perm_middle.symm)
    have hout := (nodup_cons.mp ((hperm.map Tcb.pid).nodup_iff.mpr h)).1
    refine .inr ⟨t,hmem,xs ++ ys,?_,hpid,hperm,hout⟩
    simp only [map_append,mem_append,not_or,hpid] at hout
    rw [takeStopped,hfind,hsplit,filter_append,filter_cons,filter_pid_ne hout.2.1,filter_pid_ne hout.2.2]
    simp [hpid]

/-- The roster with `running` on the processor and `more` besides the queued frames. -/
def Waits (more : List Tcb) (running : Nat) (s : Scheduler) : Prop :=
  Roster running (more ++ s.queued) s.log s.nextPid

/-- What holds between any two steps. -/
structure Tracked (s : Scheduler) : Prop where
  roster : Waits [] s.current s
  settled : s.held = []

/-- The running task has been dealt with and the next one is not chosen yet. -/
structure Vacant (s : Scheduler) : Prop where
  roster : Waits [] idlePid s
  settled : s.held = []

theorem Tracked.gains (h : Tracked s) (hg : Gains [] s s') : Tracked s' where
  roster := by
    unfold Waits
    rw [hg.log,hg.current,hg.nextPid]
    exact h.roster.perm hg.queued
  settled := hg.held.trans h.settled

theorem stopReadyPids_tracked (h : Tracked s) (pids : List Nat) : Tracked (s.stopReadyPids pids) :=
  h.gains (stopReadyPids_gains h.roster.distinct pids)

theorem resumeStopped_tracked (h : Tracked s) (pid : Nat) : Tracked (s.resumeStopped pid) := by
  have hcancel : Tracked (s.cancelStopRequest pid) := h.gains ⟨.refl _,rfl,rfl,rfl,rfl⟩
  unfold resumeStopped
  generalize s.cancelStopRequest pid = s at hcancel ⊢
  rcases takeStopped_cases hcancel.roster.distinct pid with ⟨htake,-⟩ | ⟨t,-,stopped,htake,-,hperm,hout⟩
  · rw [htake]
    exact hcancel
  · rw [htake]
    have hg := requeue_gains (s := { s with stopped }) hout
    exact hcancel.gains ⟨hg.queued.trans hperm,hg.log,hg.current,hg.nextPid,hg.held⟩

theorem requestExit_current (s : Scheduler) (pid : Nat) : (s.requestExit pid).current = s.current := by
  unfold requestExit takeStopped
  cases s.stopped.find? (·.pid = pid) <;> rfl

theorem requestExit_tracked (h : Tracked s) (pid : Nat) : Tracked (s.requestExit pid) := by
  unfold requestExit
  rcases takeStopped_cases h.roster.distinct pid with ⟨htake,-⟩ | ⟨t,-,stopped,htake,rfl,hperm,-⟩
  · rw [htake]
    exact h.gains ⟨.refl _,rfl,rfl,rfl,rfl⟩
  · rw [htake]
    exact ⟨(h.roster.perm hperm).exitWaiting,h.settled⟩

theorem removeReadyPids_tracked (h : Tracked s) (pids : List Nat) : Tracked (s.removeReadyPids pids) := by
  refine ⟨?_,h.settled⟩
  refine Roster.exitAll (h.roster.perm ?_)
  simp only [queued,removeReadyPids,decide_not,nil_append,← append_assoc]
  exact (filter_append_perm (·.pid ∈ pids) s.ready).append_right s.stopped

theorem spawnNext_tracked (h : Tracked s) (rsp cr3 : Nat) : Tracked (s.spawnNext rsp cr3) := by
  have hnew : s.nextPid ∉ s.queued.map Tcb.pid := by
    intro hm
    exact absurd (h.roster.fresh _ (h.roster.started _ hm).1).2 (Nat.lt_irrefl _)
  have hnone := ready_any_eq_false hnew
  have hroster : Waits [] s.current (s.spawnNext rsp cr3) := by
    simp only [spawnNext,spawn,hnone,Waits,record,queued,Bool.false_eq_true,if_false,nil_append,
      append_assoc,singleton_append]
    exact (h.roster.spawn rfl).perm perm_middle
  have hcurrent : (s.spawnNext rsp cr3).current = s.current := by simp [spawnNext,spawn,hnone,record]
  refine ⟨hcurrent ▸ hroster,?_⟩
  simpa [spawnNext,spawn,hnone,record] using h.settled

theorem saveCurrent_waits {s : Scheduler} {more : List Tcb} (h : Waits more s.current s)
    (hrun : s.current ≠ idlePid) (rsp : Nat) :
    Waits more idlePid (s.saveCurrent rsp) ∧ (s.saveCurrent rsp).held = s.held := by
  have hout : s.current ∉ s.queued.map Tcb.pid := by
    intro hm
    refine h.apart ?_
    rw [map_append]
    exact mem_append_right _ hm
  have hg : Gains [⟨s.current,rsp,s.cr3⟩] (s.record (.saved ⟨s.current,rsp,s.cr3⟩))
      (s.saveCurrent rsp) := by
    simp only [saveCurrent]
    split
    · exact parkStopped_gains hout
    · exact requeue_gains hout
  refine ⟨?_,hg.held⟩
  unfold Waits
  rw [hg.log,hg.nextPid]
  refine (h.switchOut hrun rfl).perm ?_
  exact (hg.queued.append_left more).trans perm_middle

theorem saveCurrent_vacant (h : Tracked s) (hrun : s.current ≠ idlePid) (rsp : Nat) :
    Vacant (s.saveCurrent rsp) := by
  obtain ⟨hroster,hheld⟩ := saveCurrent_waits h.roster hrun rsp
  exact ⟨hroster,hheld.trans h.settled⟩

theorem foldl_requestExit_tracked (h : Tracked s) (members : List Nat) :
    Tracked (members.foldl (fun s m => s.requestExit m) s) ∧
      (members.foldl (fun s m => s.requestExit m) s).current = s.current := by
  induction members generalizing s with
  | nil => exact ⟨h,rfl⟩
  | cons m members ih =>
    obtain ⟨hmembers,hcurrent⟩ := ih (requestExit_tracked h m)
    exact ⟨hmembers,hcurrent.trans (requestExit_current s m)⟩

theorem tickSave_vacant (h : Tracked s) (rsp : Nat) (action : TickAction) :
    Vacant (s.tickSave rsp action) := by
  unfold tickSave
  split
  · rename_i hidle
    exact ⟨hidle ▸ h.roster,h.settled⟩
  rename_i hrun
  split
  · exact ⟨h.roster.exitRunning hrun,h.settled⟩
  cases action with
  | none => exact saveCurrent_vacant h hrun rsp
  | park siblings =>
    have hg := stopReadyPids_gains h.roster.distinct siblings
    have hstop : Tracked (s.beginGroupStop siblings) :=
      (h.gains hg).gains ⟨.refl _,rfl,rfl,rfl,rfl⟩
    have hcurrent : (s.beginGroupStop siblings).current = s.current := hg.current
    exact saveCurrent_vacant hstop (hcurrent ▸ hrun) rsp
  | kill members =>
    obtain ⟨hmembers,hcurrent⟩ := foldl_requestExit_tracked h members
    have hkill : Tracked (s.forceTerminateGroup members s.current) := requestExit_tracked hmembers _
    have hstill : (s.forceTerminateGroup members s.current).current = s.current :=
      (requestExit_current _ _).trans hcurrent
    exact ⟨hkill.roster.exitRunning (by rwa [hstill]),hkill.settled⟩

theorem reapExitedTasks_vacant (h : Vacant s) : Vacant s.reapExitedTasks := by
  unfold reapExitedTasks
  split
  · exact h
  simp only []
  split
  · exact ⟨h.roster.dropped _ _,h.settled⟩
  · exact ⟨h.roster,h.settled⟩

theorem schedule_tracked (h : Vacant s) : Tracked s.schedule := by
  unfold schedule
  split
  · exact ⟨h.roster.idleIn _ _,h.settled⟩
  rename_i t ready hready
  have hroster := h.roster
  unfold Waits queued at hroster
  rw [hready] at hroster
  exact ⟨hroster.switchIn,h.settled⟩

theorem schedulerYieldSwitch_tracked (h : Tracked s) (rsp : Nat) : Tracked (s.schedulerYieldSwitch rsp) := by
  unfold schedulerYieldSwitch
  split
  · split
    · rename_i hstop
      have hvacant := saveCurrent_vacant h hstop.1 rsp
      exact ⟨hvacant.roster.idleIn _ _,hvacant.settled⟩
    · exact h
  rename_i t ready hready
  -- The next task is out of the queue before the running one goes into it.
  have hroster : Waits [t] s.current { s with ready } := by
    have hr := h.roster
    unfold Waits queued at hr
    rwa [hready] at hr
  simp only []
  split
  · rename_i hidle
    rw [hidle] at hroster
    exact ⟨Roster.switchIn hroster,h.settled⟩
  · rename_i hrun
    obtain ⟨hsaved,hheld⟩ := @saveCurrent_waits { s with ready } [t] hroster hrun rsp
    exact ⟨Roster.switchIn hsaved,hheld.trans h.settled⟩

end Scheduler

/-- Every task that has been spawned and has not exited is in exactly one place:
running, queued once or stopped once. Every task is switched to with the frame
saved at its last switch-out, or with its initial one. -/
def Conserved (s : Scheduler) : Prop :=
  (∀ pid, Spawned s.log pid → ¬ Exited s.log pid →
    (s.current :: (s.ready ++ s.stopped).map Tcb.pid).count pid = 1) ∧
  RestoresSaved s.log

/-- The step leaves a stop or a resume half done with a frame in its hands. -/
def Interrupts (s : Scheduler) : Op → Prop
  | .stopInterrupted pids => ∃ t ∈ s.ready, t.pid ∈ pids
  | .resumeInterrupted pid => ∃ t ∈ s.stopped, t.pid = pid
  | _ => False

open Scheduler

variable {s : Scheduler}

section
variable (h : Tracked s)
include h

theorem Scheduler.Tracked.conserved : Conserved s := by
  refine ⟨?_,h.roster.restores⟩
  intro pid hs he
  have hnodup : (s.current :: s.queued.map Tcb.pid).Nodup :=
    nodup_cons.mpr ⟨h.roster.apart,h.roster.distinct⟩
  exact count_eq_one_of_mem hnodup (mem_cons.mpr (h.roster.complete pid hs he))

theorem lost_of_absent {t : Tcb} (ht : t ∈ s.queued)
    (hlog : s'.log = s.log) (hcurrent : s'.current = s.current)
    (habsent : t.pid ∉ s'.queued.map Tcb.pid) : ¬ Conserved s' := by
  intro hc
  have hmem : t.pid ∈ s.queued.map Tcb.pid := mem_map_of_mem ht
  obtain ⟨hs,he⟩ := h.roster.started t.pid hmem
  have hone := hc.1 t.pid (hlog ▸ hs) (hlog ▸ he)
  have hzero : (s'.current :: s'.queued.map Tcb.pid).count t.pid = 0 := by
    refine count_eq_zero.mpr fun hm => ?_
    rcases mem_cons.mp hm with heq | hm
    · exact h.roster.apart (hcurrent ▸ heq ▸ hmem)
    · exact habsent hm
  rw [show s'.queued = s'.ready ++ s'.stopped from rfl] at hzero
  omega

theorem stopInterrupted_lost {t : Tcb}
    (ht : t ∈ s.ready) (hp : t.pid ∈ pids) : ¬ Conserved (s.stopInterrupted pids) := by
  refine lost_of_absent h (mem_append_left _ ht) rfl rfl ?_
  intro hm
  obtain ⟨u,hu,heq⟩ := mem_map.mp hm
  rcases mem_append.mp hu with hu | hu
  · have hout : u.pid ∉ pids := by simpa using (mem_filter.mp hu).2
    exact hout (heq ▸ hp)
  have hnodup := h.roster.distinct
  simp only [queued,nil_append,map_append] at hnodup
  exact disjoint_of_nodup_append hnodup (mem_map_of_mem ht)
    (heq ▸ mem_map_of_mem hu)

theorem resumeInterrupted_cases (pid : Nat) :
    (Tracked (s.resumeInterrupted pid) ∧ ¬ ∃ t ∈ s.stopped, t.pid = pid) ∨
      (¬ Conserved (s.resumeInterrupted pid) ∧ ∃ t ∈ s.stopped, t.pid = pid) := by
  have hcancel : Tracked (s.cancelStopRequest pid) := h.gains ⟨.refl _,rfl,rfl,rfl,rfl⟩
  unfold resumeInterrupted
  rcases takeStopped_cases hcancel.roster.distinct pid with ⟨htake,hne⟩ | ⟨t,ht,stopped,htake,rfl,-,hout⟩
  · rw [htake]
    exact .inl ⟨hcancel,fun ⟨t,ht,hpid⟩ => hne t ht hpid⟩
  · rw [htake]
    exact .inr ⟨lost_of_absent h (mem_append_right _ ht) rfl rfl hout,t,ht,rfl⟩

omit h in
theorem boot_tracked (kernelPml4 : Nat) : Tracked (boot kernelPml4) where
  roster := {
    distinct := nodup_nil
    apart := not_mem_nil
    awake := not_mem_nil
    complete := by simp [boot,Spawned]
    started := by simp [boot,queued]
    runs := fun h => absurd rfl h
    frames := by simp [boot,queued]
    fresh := by simp [boot,Spawned]
    ahead := Nat.one_pos
    ended := by simp [boot,Exited]
    restores := trivial }
  settled := rfl

theorem execLinuxImage_tracked (pml4 : Nat) : Tracked (s.execLinuxImage pml4) := by
  have hload : Tracked { s with cr3 := pml4 } := h.gains ⟨.refl _,rfl,rfl,rfl,rfl⟩
  unfold execLinuxImage dropExclusiveUserSpace
  split
  · exact hload
  split
  · exact hload
  · split
    · exact hload
    · exact ⟨hload.roster.dropped _ _,hload.settled⟩

theorem finishInterrupted_tracked : Tracked s.finishInterrupted := by
  have hsame : s.finishInterrupted = { s with held := [] } := by simp [finishInterrupted,h.settled]
  rw [hsame]
  exact ⟨h.roster,rfl⟩

theorem stopInterrupted_tracked
    (hno : ¬ ∃ t ∈ s.ready, t.pid ∈ pids) : Tracked (s.stopInterrupted pids) := by
  have hnone : s.ready.filter (·.pid ∈ pids) = [] := by
    rw [filter_eq_nil_iff]
    intro t ht hp
    exact hno ⟨t,ht,of_decide_eq_true hp⟩
  have hall : s.ready.filter (·.pid ∉ pids) = s.ready := by
    rw [filter_eq_self]
    intro t ht
    exact decide_eq_true fun hp => hno ⟨t,ht,hp⟩
  have hsame : s.stopInterrupted pids = s := by
    simp only [stopInterrupted,drainReady,hnone,hall,map_nil,nil_append]
  rw [hsame]
  exact h

theorem step_tracked (op : Op) (hop : ¬ Interrupts s op) : Yields (step s op) Tracked := by
  cases op with
  | spawnThread rsp => exact .pure (spawnNext_tracked h rsp s.cr3)
  | spawnProcess rsp pml4 => exact .pure (spawnNext_tracked h rsp pml4)
  | tick rsp action =>
    simp only [step,schedulerTickIrq]
    split
    · exact .pure (schedule_tracked (reapExitedTasks_vacant (tickSave_vacant h rsp action)))
    · exact nofun
  | yieldSwitch rsp => exact .pure (schedulerYieldSwitch_tracked h rsp)
  | stopReadyPids pids => exact .pure (stopReadyPids_tracked h pids)
  | markStopRequested pid | cancelStopRequest pid => exact .pure (h.gains ⟨.refl _,rfl,rfl,rfl,rfl⟩)
  | resumeStopped pid => exact .pure (resumeStopped_tracked h pid)
  | requestExit pid => exact .pure (requestExit_tracked h pid)
  | exitCurrent =>
    simp only [step]
    split
    · exact nofun
    · exact .pure (h.gains ⟨.refl _,rfl,rfl,rfl,rfl⟩)
  | removeReadyPids pids => exact .pure (removeReadyPids_tracked h pids)
  | execImage pml4 =>
    simp only [step]
    split
    · exact nofun
    · exact .pure (execLinuxImage_tracked h pml4)
  | stopInterrupted pids => exact .pure (stopInterrupted_tracked h hop)
  | resumeInterrupted pid =>
    exact .pure ((resumeInterrupted_cases h pid).resolve_right fun hlost => hop hlost.2).1
  | finishInterrupted => exact .pure (finishInterrupted_tracked h)

theorem step_lost (op : Op) (hop : Interrupts s op) : ¬ Yields (step s op) Conserved := by
  cases op with
  | stopInterrupted pids =>
    obtain ⟨t,ht,hp⟩ := hop
    exact fun hy => stopInterrupted_lost h ht hp (hy _ rfl)
  | resumeInterrupted pid =>
    exact fun hy => ((resumeInterrupted_cases h pid).resolve_left fun hkept => hkept.2 hop).1 (hy _ rfl)
  | _ => exact hop.elim

end

/-- Tasks are conserved in every state that a run reaches, exactly when the run
interrupts no stop and no resume between its two halves. -/
theorem conserved_iff (kernelPml4 : Nat) (ops : List Op) :
    (∀ p, p <+: ops → Yields (run step (boot kernelPml4) p) Conserved) ↔
      ∀ p op s, p ++ [op] <+: ops → run step (boot kernelPml4) p = some s → ¬ Interrupts s op :=
  run_yields_iff (fun _ => Tracked.conserved) (fun _ op h => step_tracked h op)
    (fun _ op h => step_lost h op) (boot_tracked kernelPml4) ops

/-- Task 1 stops its sibling 2 from a system call. The tick comes after the sibling
has left the ready queue, and before task 1 runs again it is killed: task 2 is lost. -/
def lostSibling : List Op :=
  [.spawnThread 0xffff800000001000,.spawnThread 0xffff800000002000,.tick 0xffff800000000000 .none,
    .stopInterrupted [2],.requestExit 1,.tick 0xffff800000001000 .none]

/-- After every step of the run is over, task 2 has not exited and is in no place. -/
theorem lostSibling_nowhere : ∃ s, run step (boot 0x1000) lostSibling = some s ∧
    Spawned s.log 2 ∧ ¬ Exited s.log 2 ∧
      (s.current :: (s.ready ++ s.stopped).map Tcb.pid).count 2 = 0 := by
  refine ⟨_,rfl,⟨⟨2,0xffff800000002000,0x1000⟩,?_,rfl⟩,?_,?_⟩
  · decide
  · decide
  · decide

end PaghOS.Sched
