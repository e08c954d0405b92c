import PaghOS.Lib.Loop
import PaghOS.Sched.Scheduler

/-!
No task is lost, doubled or resumed from a frame other than its last one. The
abstract state is a roster: the running task and the waiting frames in any order,
which every scheduler step moves by switching one task out or in, by starting one
or by ending one.
-/

namespace PaghOS.Sched
open List

open Loop

/-- The frame a task has last been given: its initial one, or its latest switch-out. -/
def lastFrame : List Event → Nat → Option Tcb
  | [], _ => none
  | .spawned t :: log, pid => if t.pid = pid then some t else lastFrame log pid
  | .saved t :: log, pid => if t.pid = pid then some t else lastFrame log pid
  | .restored _ :: log, pid => lastFrame log pid
  | .exited _ :: log, pid => lastFrame log pid
  | .dropped _ _ :: log, pid => lastFrame log pid

def Spawned (log : List Event) (pid : Nat) : Prop := ∃ t, .spawned t ∈ log ∧ t.pid = pid

def Exited (log : List Event) (pid : Nat) : Prop := .exited pid ∈ log

instance (log : List Event) (pid : Nat) : Decidable (Exited log pid) :=
  inferInstanceAs (Decidable (.exited pid ∈ log))

def RestoresSaved : List Event → Prop
  | [] => True
  | .restored t :: log => (t.pid ≠ idlePid → lastFrame log t.pid = some t) ∧ RestoresSaved log
  | .spawned _ :: log => RestoresSaved log
  | .saved _ :: log => RestoresSaved log
  | .exited _ :: log => RestoresSaved log
  | .dropped _ _ :: log => RestoresSaved log

/-- The running task and the waiting frames after the history `log`. -/
structure Roster (running : Nat) (waiting : List Tcb) (log : List Event) (nextPid : Nat) : Prop where
  distinct : (waiting.map Tcb.pid).Nodup
  apart : running ∉ waiting.map Tcb.pid
  awake : idlePid ∉ waiting.map Tcb.pid
  complete : ∀ pid, Spawned log pid → ¬ Exited log pid → pid = running ∨ pid ∈ waiting.map Tcb.pid
  started : ∀ pid ∈ waiting.map Tcb.pid, Spawned log pid ∧ ¬ Exited log pid
  runs : running ≠ idlePid → Spawned log running ∧ ¬ Exited log running
  frames : ∀ t ∈ waiting, lastFrame log t.pid = some t
  fresh : ∀ pid, Spawned log pid → idlePid < pid ∧ pid < nextPid
  ahead : idlePid < nextPid
  ended : ∀ pid, Exited log pid → Spawned log pid
  restores : RestoresSaved log

namespace Roster

variable {running nextPid : Nat} {waiting : List Tcb} {log : List Event} {t : Tcb}

theorem spawned_cons {e : Event} {pid : Nat} :
    Spawned (e :: log) pid ↔ (∃ t, e = .spawned t ∧ t.pid = pid) ∨ Spawned log pid := by
  constructor
  · rintro ⟨u,hu,hp⟩
    rcases mem_cons.mp hu with h | h
    · exact .inl ⟨u,h.symm,hp⟩
    · exact .inr ⟨u,h,hp⟩
  · rintro (⟨u,rfl,hp⟩ | ⟨u,hu,hp⟩)
    · exact ⟨u,mem_cons_self,hp⟩
    · exact ⟨u,mem_cons_of_mem _ hu,hp⟩

theorem exited_cons {e : Event} {pid : Nat} : Exited (e :: log) pid ↔ e = .exited pid ∨ Exited log pid := by
  unfold Exited
  rw [mem_cons,eq_comm]

section
variable (h : Roster running waiting log nextPid)
include h

theorem perm {other : List Tcb} (hp : other.Perm waiting) : Roster running other log nextPid := by
  have hpids := hp.map Tcb.pid
  have hmem : ∀ pid, pid ∈ other.map Tcb.pid ↔ pid ∈ waiting.map Tcb.pid := fun _ => hpids.mem_iff
  exact {
    distinct := hpids.nodup_iff.mpr h.distinct
    apart := fun hr => h.apart ((hmem _).mp hr)
    awake := fun hi => h.awake ((hmem _).mp hi)
    complete := fun pid hs he => (h.complete pid hs he).imp_right (hmem pid).mpr
    started := fun pid hm => h.started pid ((hmem pid).mp hm)
    runs := h.runs
    frames := fun u hu => h.frames u (hp.mem_iff.mp hu)
    fresh := h.fresh
    ahead := h.ahead
    ended := h.ended
    restores := h.restores }

theorem quiet {e : Event} (hs : ∀ u, e ≠ .spawned u) (hx : ∀ pid, e ≠ .exited pid)
    (hf : ∀ pid, lastFrame (e :: log) pid = lastFrame log pid) (hr : RestoresSaved (e :: log)) :
    Roster running waiting (e :: log) nextPid := by
  have hspawned : ∀ pid, Spawned (e :: log) pid ↔ Spawned log pid := by
    intro pid
    rw [spawned_cons]
    exact or_iff_right fun ⟨u,hu,_⟩ => hs u hu
  have hexited : ∀ pid, Exited (e :: log) pid ↔ Exited log pid := by
    intro pid
    rw [exited_cons]
    exact or_iff_right (hx pid)
  exact {
    distinct := h.distinct
    apart := h.apart
    awake := h.awake
    complete := by simpa only [hspawned,hexited] using h.complete
    started := by simpa only [hspawned,hexited] using h.started
    runs := by simpa only [hspawned,hexited] using h.runs
    frames := by simpa only [hf] using h.frames
    fresh := by simpa only [hspawned] using h.fresh
    ahead := h.ahead
    ended := by simpa only [hspawned,hexited] using h.ended
    restores := hr }

theorem dropped (cr3 : Nat) (live : List Nat) :
    Roster running waiting (.dropped cr3 live :: log) nextPid :=
  h.quiet (fun _ => nofun) (fun _ => nofun) (fun _ => rfl) h.restores

omit h in
theorem idleIn (h : Roster idlePid waiting log nextPid) (rsp cr3 : Nat) :
    Roster idlePid waiting (.restored ⟨idlePid,rsp,cr3⟩ :: log) nextPid :=
  h.quiet (fun _ => nofun) (fun _ => nofun) (fun _ => rfl) ⟨fun hne => absurd rfl hne,h.restores⟩

omit h in
theorem switchIn (h : Roster idlePid (t :: waiting) log nextPid) :
    Roster t.pid waiting (.restored t :: log) nextPid := by
  have hq : Roster idlePid (t :: waiting) (.restored t :: log) nextPid :=
    h.quiet (fun _ => nofun) (fun _ => nofun) (fun _ => rfl)
      ⟨fun _ => h.frames t mem_cons_self,h.restores⟩
  obtain ⟨hnot,hdistinct⟩ := nodup_cons.mp hq.distinct
  exact {
    distinct := hdistinct
    apart := hnot
    awake := fun hi => hq.awake (mem_cons_of_mem _ hi)
    complete := by
      intro pid hs he
      rcases hq.complete pid hs he with hi | hw
      · exact absurd (hq.fresh pid hs).1 (by omega)
      · exact mem_cons.mp hw
    started := fun pid hm => hq.started pid (mem_cons_of_mem _ hm)
    runs := fun _ => hq.started t.pid mem_cons_self
    frames := fun u hu => hq.frames u (mem_cons_of_mem _ hu)
    fresh := hq.fresh
    ahead := hq.ahead
    ended := hq.ended
    restores := hq.restores }

theorem switchOut (hr : running ≠ idlePid)
    (ht : t.pid = running) : Roster idlePid (t :: waiting) (.saved t :: log) nextPid := by
  have hspawned : ∀ pid, Spawned (.saved t :: log) pid ↔ Spawned log pid := fun pid => by
    simp [spawned_cons]
  have hexited : ∀ pid, Exited (.saved t :: log) pid ↔ Exited log pid := fun pid => by
    simp [exited_cons]
  have hout : t.pid ∉ waiting.map Tcb.pid := ht ▸ h.apart
  have hin : idlePid ∉ (t :: waiting).map Tcb.pid := by
    rw [map_cons,mem_cons,not_or]
    exact ⟨ht ▸ hr.symm,h.awake⟩
  exact {
    distinct := nodup_cons.mpr ⟨hout,h.distinct⟩
    apart := hin
    awake := hin
    complete := by
      intro pid hs he
      rw [hspawned] at hs
      rw [hexited] at he
      exact .inr (mem_cons.mpr ((h.complete pid hs he).imp_left fun hp => hp.trans ht.symm))
    started := by
      intro pid hm
      rw [hspawned,hexited]
      rcases mem_cons.mp hm with rfl | hm
      · exact ht ▸ h.runs hr
      · exact h.started pid hm
    runs := fun hne => absurd rfl hne
    frames := by
      intro u hu
      rcases mem_cons.mp hu with rfl | hu
      · simp [lastFrame]
      · have hne : t.pid ≠ u.pid := fun heq => hout (heq ▸ mem_map_of_mem hu)
        simpa [lastFrame,hne] using h.frames u hu
    fresh := by simpa only [hspawned] using h.fresh
    ahead := h.ahead
    ended := by simpa only [hspawned,hexited] using h.ended
    restores := h.restores }

theorem spawn (ht : t.pid = nextPid) :
    Roster running (t :: waiting) (.spawned t :: log) (nextPid+1) := by
  have hspawned : ∀ pid, Spawned (.spawned t :: log) pid ↔ pid = nextPid ∨ Spawned log pid := by
    intro pid
    rw [spawned_cons]
    simp [ht,eq_comm]
  have hexited : ∀ pid, Exited (.spawned t :: log) pid ↔ Exited log pid := fun pid => by
    simp [exited_cons]
  have hnew : ¬ Spawned log nextPid := fun hs => absurd (h.fresh nextPid hs).2 (by omega)
  have hout : nextPid ∉ waiting.map Tcb.pid := fun hm => hnew (h.started nextPid hm).1
  have hrun : running ≠ nextPid := by
    intro heq
    by_cases hidle : running = idlePid
    · exact absurd h.ahead (by omega)
    · exact hnew (heq ▸ (h.runs hidle).1)
  exact {
    distinct := nodup_cons.mpr ⟨ht ▸ hout,h.distinct⟩
    apart := by
      rw [map_cons,mem_cons,not_or]
      exact ⟨ht ▸ hrun,h.apart⟩
    awake := by
      rw [map_cons,mem_cons,not_or]
      exact ⟨by have := h.ahead; omega,h.awake⟩
    complete := by
      intro pid hs he
      rw [hexited] at he
      rw [map_cons,mem_cons]
      rcases (hspawned pid).mp hs with rfl | hs
      · exact .inr (.inl ht.symm)
      · exact (h.complete pid hs he).imp_right .inr
    started := by
      intro pid hm
      rw [hspawned,hexited]
      rcases mem_cons.mp hm with rfl | hm
      · exact ⟨.inl ht,fun he => hnew (ht ▸ h.ended _ he)⟩
      · exact ⟨.inr (h.started pid hm).1,(h.started pid hm).2⟩
    runs := by
      intro hne
      rw [hspawned,hexited]
      exact ⟨.inr (h.runs hne).1,(h.runs hne).2⟩
    frames := by
      intro u hu
      rcases mem_cons.mp hu with rfl | hu
      · simp [lastFrame]
      · have hne : t.pid ≠ u.pid := fun heq => hout (ht ▸ heq ▸ mem_map_of_mem hu)
        simpa [lastFrame,hne] using h.frames u hu
    fresh := by
      intro pid hs
      rcases (hspawned pid).mp hs with rfl | hs
      · exact ⟨h.ahead,by omega⟩
      · exact ⟨(h.fresh pid hs).1,by have := (h.fresh pid hs).2; omega⟩
    ahead := by have := h.ahead; omega
    ended := by
      intro pid he
      rw [hexited] at he
      exact (hspawned pid).mpr (.inr (h.ended pid he))
    restores := h.restores }

omit h in
theorem exit {old pid : Nat} {olds : List Tcb} (h : Roster old olds log nextPid)
    (hpid : Spawned log pid) (hsub : waiting.Sublist olds) (hout : pid ∉ waiting.map Tcb.pid)
    (hrun : running = idlePid ∨ running = old ∧ running ≠ pid)
    (hleft : ∀ q, q ≠ pid → q = old ∨ q ∈ olds.map Tcb.pid → q ≠ idlePid →
      q = running ∨ q ∈ waiting.map Tcb.pid) : Roster running waiting (.exited pid :: log) nextPid := by
  have hspawned : ∀ q, Spawned (.exited pid :: log) q ↔ Spawned log q := fun q => by
    simp [spawned_cons]
  have hexited : ∀ q, Exited (.exited pid :: log) q ↔ q = pid ∨ Exited log q := by
    intro q
    rw [exited_cons]
    simp [eq_comm]
  have hsubset : ∀ q ∈ waiting.map Tcb.pid, q ∈ olds.map Tcb.pid := (hsub.map Tcb.pid).subset
  exact {
    distinct := h.distinct.sublist (hsub.map Tcb.pid)
    apart := by
      intro hm
      rcases hrun with rfl | ⟨rfl,-⟩
      · exact h.awake (hsubset _ hm)
      · exact h.apart (hsubset _ hm)
    awake := fun hm => h.awake (hsubset _ hm)
    complete := by
      intro q hs he
      rw [hspawned] at hs
      rw [hexited,not_or] at he
      exact hleft q he.1 (h.complete q hs he.2) (Nat.pos_iff_ne_zero.mp (h.fresh q hs).1)
    started := by
      intro q hm
      obtain ⟨hs,he⟩ := h.started q (hsubset q hm)
      rw [hspawned,hexited,not_or]
      exact ⟨hs,fun heq => hout (heq ▸ hm),he⟩
    runs := by
      intro hne
      rcases hrun with hidle | ⟨rfl,hpne⟩
      · exact absurd hidle hne
      · rw [hspawned,hexited,not_or]
        exact ⟨(h.runs hne).1,hpne,(h.runs hne).2⟩
    frames := fun u hu => h.frames u (hsub.subset hu)
    fresh := by simpa only [hspawned] using h.fresh
    ahead := h.ahead
    ended := by
      intro q he
      rw [hspawned]
      rcases (hexited q).mp he with rfl | he
      · exact hpid
      · exact h.ended q he
    restores := h.restores }

theorem exitRunning (hr : running ≠ idlePid) : Roster idlePid waiting (.exited running :: log) nextPid :=
  h.exit (h.runs hr).1 (.refl _) h.apart (.inl rfl) fun _ hne hq _ => .inr (hq.resolve_left hne)

end

theorem exitWaiting (h : Roster running (t :: waiting) log nextPid) :
    Roster running waiting (.exited t.pid :: log) nextPid := by
  obtain ⟨hout,-⟩ := nodup_cons.mp h.distinct
  have hne : running ≠ t.pid := fun heq => h.apart (heq ▸ mem_cons_self)
  refine h.exit (h.started t.pid mem_cons_self).1 (sublist_cons_self _ _) hout
    (.inr ⟨rfl,hne⟩) fun q hq hmem _ => ?_
  exact hmem.imp_right fun hm => (mem_cons.mp hm).resolve_left hq

theorem exitAll {ts : List Tcb} (h : Roster running (ts ++ waiting) log nextPid) :
    Roster running waiting (ts.map (fun t => .exited t.pid) ++ log) nextPid := by
  induction ts generalizing waiting with
  | nil => exact h
  | cons t ts ih =>
    have hlast : Roster running (t :: waiting) (ts.map (fun t => .exited t.pid) ++ log) nextPid :=
      ih (h.perm perm_middle)
    exact hlast.exitWaiting

end Roster

end PaghOS.Sched
