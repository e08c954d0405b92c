import PaghOS.Signal.Context

/-!
Handlers inside handlers: deliveries on both paths and the calls of `rt_sigreturn`
that undo them, with the deliveries that have not been returned from. User code may
rewrite its memory between two events; a frame counts as returned from when its
bytes are still those the delivery wrote.
-/

namespace PaghOS.Signal
open Bytes Loop Option

structure Active where
  frame : UInt64
  sig : Fin 64
  action : SignalAction
  altstack : SigAltStack
  /-- the blocked set just before -/
  before : UInt64
  /-- what was written at `frame` -/
  bytes : List UInt8

/-- `active` has the innermost delivery first; `required` is the blocked set that the
last delivery or return should have left. -/
structure Nest where
  kern : Kern
  active : List Active
  required : UInt64

/-- Every event carries the memory as user code left it. `change` is all other kernel
activity but on the blocked set. -/
inductive NestEvent where
  | deliver (t : Trap) (mem : UInt64 → UInt8)
  | sigreturn (u : UserState) (mem : UInt64 → UInt8)
  | change (k : Kern)

def saNodefer : UInt64 := 0x40000000

def handlerMask (before : UInt64) (i : Fin 64) (action : SignalAction) : UInt64 :=
  (before ||| action.mask ||| if action.flags &&& saNodefer ≠ 0 then 0 else sigbit (signo i)) &&&
    ~~~unblockableMask

def Nest.push (s : Nest) (frame : UInt64) (k : Kern) (i : Fin 64) (action : SignalAction) : Nest where
  kern := k
  active := ⟨frame,i,action,s.kern.compat.sigAltstack,s.kern.compat.sigBlocked,
    k.read frame rtSigframeSize⟩ :: s.active
  required := handlerMask s.kern.compat.sigBlocked i action

/-- The innermost delivery whose frame a call at stack pointer `rsp` returns from,
with those it was nested in. -/
def Nest.returning (s : Nest) (rsp : UInt64) : List Active :=
  s.active.dropWhile (fun a => a.frame+UInt64.ofNat ucOffset != rsp)

/-- `none` stands for what is not an event of a run: a trap that enters no handler,
and a call of `rt_sigreturn` that is refused or finds no unmodified frame. -/
def Nest.step (s : Nest) : NestEvent → Option Nest
  | .deliver t mem => do
    let (i,action) ← s.kern.compat.peekDeliverableSignal
    let (frame,k) ← t.deliver { s.kern with mem := mem }
    some (s.push frame k i action)
  | .sigreturn u mem =>
    match s.returning u.rsp with
    | [] => none
    | a :: rest =>
      let k := { s.kern with mem := mem }
      if k.read a.frame rtSigframeSize = a.bytes then
        match sysRtSigreturn k (Entry.syscall.frame u) with
        | .ok (_,k',_) => some ⟨k',rest,a.before⟩
        | .error _ => none
      else none
  | .change k =>
    some { s with kern := { k with compat := { k.compat with
      sigBlocked := s.kern.compat.sigBlocked } } }

def Nest.start (k : Kern) (set : UInt64) : Nest where
  kern := { k with compat := { k.compat with sigBlocked := set &&& ~~~unblockableMask } }
  active := []
  required := set &&& ~~~unblockableMask

theorem Nest.step_deliver {s s' : Nest} {t : Trap} {mem : UInt64 → UInt8}
    (h : s.step (.deliver t mem) = some s') :
    ∃ frame k i action, Enters { s.kern with mem := mem } t i action frame k ∧
      s' = s.push frame k i action := by
  simp only [Nest.step,bind_eq_bind,bind_eq_some_iff,some.injEq] at h
  obtain ⟨⟨i,action⟩,hp,⟨frame,k⟩,hd,rfl⟩ := h
  obtain ⟨j,action',he⟩ := Trap.deliver_enters hd
  have hp' := he.picked
  simp only at hp hp'
  obtain ⟨rfl,rfl⟩ := Prod.mk.inj (some.inj (hp.symm.trans hp'))
  exact ⟨frame,k,i,action,he,rfl⟩

theorem Nest.returning_subset {s : Nest} {rsp : UInt64} {a : Active} {rest : List Active}
    (h : s.returning rsp = a :: rest) :
    a ∈ s.active ∧ rest ⊆ s.active ∧ a.frame+UInt64.ofNat ucOffset = rsp := by
  have hs : (a :: rest) <:+ s.active := h ▸ List.dropWhile_suffix _
  refine ⟨hs.subset (by simp),fun b hb => hs.subset (by simp [hb]),?_⟩
  have hhead := List.head?_dropWhile_not (fun a : Active => a.frame+UInt64.ofNat ucOffset != rsp) s.active
  rw [← Nest.returning,h] at hhead
  simpa using hhead

theorem Nest.step_sigreturn {s s' : Nest} {u : UserState} {mem : UInt64 → UInt8}
    (h : s.step (.sigreturn u mem) = some s') : ∃ a rest fr, s.returning u.rsp = a :: rest ∧
      decodeRtSigframe (slice a.bytes ucOffset 304) = some fr ∧
      s' = ⟨{ s.kern with mem := mem, compat := { s.kern.compat with sigBlocked := fr.mask } },
        rest,a.before⟩ := by
  simp only [Nest.step] at h
  split at h
  · simp at h
  rename_i a rest hret
  have hslot : (Entry.syscall.frame u).slot = a.frame+UInt64.ofNat ucOffset :=
    (Nest.returning_subset hret).2.2.symm
  split at h
  · rename_i hb
    split at h
    · rename_i ax k' f' hok
      simp only [sysRtSigreturn,Kern.restoredFrame] at hok
      split at hok
      · simp [bind,Except.bind] at hok
      rw [hslot,← Kern.slice_read _ _ (show ucOffset+304 ≤ rtSigframeSize by decide),hb] at hok
      split at hok
      · simp [bind,Except.bind] at hok
      rename_i fr hfr
      simp only [bind,Except.bind,Except.ok.injEq,Prod.mk.injEq] at hok
      obtain ⟨-,rfl,-⟩ := hok
      exact ⟨a,rest,fr,hret,hfr,(some.inj h).symm⟩
    · simp at h
  · simp at h

end PaghOS.Signal
