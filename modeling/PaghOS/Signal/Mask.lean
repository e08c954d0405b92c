import PaghOS.Signal.Nesting

/-!
The blocked set under nested handlers. While a handler runs it should be the set
before with the handler's own mask and signal added; when the handler has returned
it should be the set before.
-/

namespace PaghOS.Signal
open Bytes Loop Option Nest

variable {i : Fin 64} {action : SignalAction} {s s' : Nest} {e : NestEvent} {before : UInt64}

section Bits

def inMask (m : UInt64) (j : Fin 64) : Bool := m.toBitVec.getLsbD j.val

theorem mask_ext {a b : UInt64} (h : ∀ j, inMask a j = inMask b j) : a = b := by
  apply UInt64.toBitVec_inj.mp
  apply BitVec.eq_of_getLsbD_eq
  intro j hj
  exact h ⟨j,hj⟩

@[simp] theorem inMask_or (a b : UInt64) (j : Fin 64) :
    inMask (a ||| b) j = (inMask a j || inMask b j) := by simp [inMask]

@[simp] theorem inMask_and (a b : UInt64) (j : Fin 64) :
    inMask (a &&& b) j = (inMask a j && inMask b j) := by simp [inMask]

@[simp] theorem inMask_not (a : UInt64) (j : Fin 64) : inMask (~~~a) j = !inMask a j := by
  simp [inMask]

@[simp] theorem inMask_zero (j : Fin 64) : inMask 0 j = false := by simp [inMask]

theorem inMask_sigbit : ∀ i j : Fin 64, inMask (sigbit (signo i)) j = decide (j = i) := by
  decide +kernel

theorem Compat.not_inMask_of_peek {c : Compat}
    (h : c.peekDeliverableSignal = some (i,action)) : inMask c.sigBlocked i = false := by
  simp only [Compat.peekDeliverableSignal,trailingZeros,map_eq_some_iff] at h
  obtain ⟨j,hj,he⟩ := h
  have hb : inMask (c.sigPending &&& ~~~c.sigBlocked) j = true := List.find?_some hj
  obtain rfl : j = i := (Prod.mk.inj he).1
  simp at hb
  exact hb.2

def Blockable (m : UInt64) : Prop := ∀ j, inMask m j = true → inMask unblockableMask j = false

theorem blockable_and_not (m : UInt64) : Blockable (m &&& ~~~unblockableMask) := by
  intro j hj
  simp at hj
  exact hj.2

end Bits

/-- The blocked set is the one the last delivery or return should have left. -/
def Nest.MaskLaw (s : Nest) : Prop := s.kern.compat.sigBlocked = s.required

/-- A delivery keeps the law when the handler does not ask for its own signal to be
blocked, or lists it; a return does when the handler's mask added nothing. -/
def Nest.KeepsMask (s : Nest) : NestEvent → Prop
  | .deliver _ _ => ∀ r ∈ s.kern.compat.peekDeliverableSignal,
      r.2.flags &&& saNodefer ≠ 0 ∨ inMask (r.2.mask ||| unblockableMask) r.1 = true
  | .sigreturn u _ => ∀ a ∈ (s.returning u.rsp).head?,
      ∀ j, inMask (a.action.mask &&& ~~~unblockableMask) j = true → inMask a.before j = true
  | .change _ => True

/-- What a run keeps of the handler stack: every frame holds the mask it was entered
with, and not the one before. -/
structure Nest.Framed (s : Nest) : Prop where
  blockable : Blockable s.kern.compat.sigBlocked
  before : ∀ a ∈ s.active, Blockable a.before
  frames : ∀ a ∈ s.active, ∀ fr ∈ decodeRtSigframe (slice a.bytes ucOffset 304),
    fr.mask = (a.before ||| a.action.mask) &&& ~~~unblockableMask

theorem Nest.framed_start (k : Kern) (set : UInt64) : (Nest.start k set).Framed where
  blockable := blockable_and_not set
  before := by simp [Nest.start]
  frames := by simp [Nest.start]

theorem Enters.saved_mask {k k' : Kern} {t : Trap}
    {frame : UInt64} {fr : RestoredFrame} (h : Enters k t i action frame k')
    (hfr : decodeRtSigframe (slice (k'.read frame rtSigframeSize) ucOffset 304) = some fr) :
    fr.mask = (k.compat.sigBlocked ||| action.mask) &&& ~~~unblockableMask := by
  rw [h.read_frame,decode_encodeRtSigframe] at hfr
  split at hfr
  · simp at hfr
  · rw [← some.inj hfr,UInt64.and_assoc,UInt64.and_self]

theorem Nest.framed_step (hs : s.Framed) (h : s.step e = some s') : s'.Framed := by
  cases e with
  | deliver t mem =>
    obtain ⟨frame,k,i,action,he,rfl⟩ := step_deliver h
    refine ⟨?_,?_,?_⟩
    · intro j hj
      simp only [Nest.push,he.blocked,inMask_or,Bool.or_eq_true] at hj
      rcases hj with hj | hj
      · exact hs.blockable j hj
      · exact blockable_and_not _ j hj
    · intro a ha
      rcases List.mem_cons.mp ha with rfl | ha
      · exact hs.blockable
      · exact hs.before a ha
    · intro a ha fr hfr
      rcases List.mem_cons.mp ha with rfl | ha
      · exact he.saved_mask hfr
      · exact hs.frames a ha fr hfr
  | sigreturn u mem =>
    obtain ⟨a,rest,fr,hret,hfr,rfl⟩ := step_sigreturn h
    obtain ⟨ha,hrest,-⟩ := returning_subset hret
    refine ⟨?_,fun b hb => hs.before b (hrest hb),fun b hb => hs.frames b (hrest hb)⟩
    simp only [hs.frames a ha fr hfr]
    exact blockable_and_not _
  | change k =>
    obtain rfl := some.inj h
    exact ⟨hs.blockable,hs.before,hs.frames⟩

theorem handlerMask_eq_iff (action : SignalAction)
    (hb : Blockable before) (hi : inMask before i = false) :
    before ||| (action.mask &&& ~~~unblockableMask) = handlerMask before i action ↔
      action.flags &&& saNodefer ≠ 0 ∨ inMask (action.mask ||| unblockableMask) i = true := by
  constructor
  · intro h
    by_contra hn
    simp only [ne_eq,not_or,not_not,inMask_or,Bool.or_eq_true,not_or,Bool.not_eq_true] at hn
    have hbit := congrArg (inMask · i) h
    simp [handlerMask,hn.1,hn.2.1,hn.2.2,hi,inMask_sigbit] at hbit
  intro h
  apply mask_ext
  intro j
  have hj := hb j
  by_cases hn : action.flags &&& saNodefer ≠ 0
  · simp only [handlerMask,if_pos hn,inMask_or,inMask_and,inMask_not,inMask_zero]
    grind
  simp only [handlerMask,if_neg hn,inMask_or,inMask_and,inMask_not,inMask_sigbit]
  have h := h.resolve_left hn
  simp only [inMask_or] at h
  by_cases hji : j = i
  · subst hji
    grind
  · simp only [hji,decide_false]
    grind

theorem returned_eq_iff (mask : UInt64) (hb : Blockable before) :
    (before ||| mask) &&& ~~~unblockableMask = before ↔
      ∀ j, inMask (mask &&& ~~~unblockableMask) j = true → inMask before j = true := by
  constructor
  · intro h j hj
    rw [← h]
    simp only [inMask_or,inMask_and,inMask_not] at hj ⊢
    grind
  intro h
  apply mask_ext
  intro j
  have h₁ := hb j
  have h₂ := h j
  simp only [inMask_or,inMask_and,inMask_not] at h₂ ⊢
  grind

theorem Nest.maskLaw_step (hs : s.Framed) (hl : s.MaskLaw)
    (h : s.step e = some s') : s'.MaskLaw ↔ s.KeepsMask e := by
  cases e with
  | deliver t mem =>
    obtain ⟨frame,k,i,action,he,rfl⟩ := step_deliver h
    have hp : s.kern.compat.peekDeliverableSignal = some (i,action) := he.picked
    have hiff := handlerMask_eq_iff action hs.blockable (Compat.not_inMask_of_peek hp)
    simp only [Nest.MaskLaw,Nest.push,he.blocked,Nest.KeepsMask,hp,mem_some_iff,forall_eq']
    exact hiff
  | sigreturn u mem =>
    obtain ⟨a,rest,fr,hret,hfr,rfl⟩ := step_sigreturn h
    have ha := (returning_subset hret).1
    have hiff := returned_eq_iff a.action.mask (hs.before a ha)
    simp only [Nest.MaskLaw,Nest.KeepsMask,hret,List.head?_cons,mem_some_iff,forall_eq',
      hs.frames a ha fr hfr]
    exact hiff
  | change k =>
    obtain rfl := some.inj h
    exact iff_of_true hl trivial

/-- The law holds in every state of a run exactly when every event of the run keeps
it. -/
theorem maskLaw_iff (k : Kern) (set : UInt64) (es : List NestEvent) :
    (∀ p, p <+: es → Yields (run Nest.step (Nest.start k set) p) Nest.MaskLaw) ↔
      ∀ p e t, p ++ [e] <+: es → run Nest.step (Nest.start k set) p = some t →
        (t.step e).isSome → t.KeepsMask e := by
  let Bad (s : Nest) (e : NestEvent) : Prop := (s.step e).isSome ∧ ¬ s.KeepsMask e
  have hgood : ∀ s e, s.Framed ∧ s.MaskLaw → ¬ Bad s e →
      Yields (s.step e) (fun s => s.Framed ∧ s.MaskLaw) := by
    intro s e hs hb s' h
    have hk : s.KeepsMask e := by
      by_contra hk
      exact hb ⟨by simp [h],hk⟩
    exact ⟨framed_step hs.1 h,(maskLaw_step hs.1 hs.2 h).mpr hk⟩
  have hbad : ∀ s e, s.Framed ∧ s.MaskLaw → Bad s e → ¬ Yields (s.step e) Nest.MaskLaw := by
    intro s e hs hb hy
    obtain ⟨s',h⟩ := isSome_iff_exists.mp hb.1
    exact hb.2 ((maskLaw_step hs.1 hs.2 h).mp (hy s' h))
  have hmain := run_yields_iff (fun s hs => hs.2) hgood hbad
    (s := Nest.start k set) ⟨framed_start k set,rfl⟩ es
  rw [hmain]
  simp [Bad]

def blocksUsr2 : Kern := { signalled with compat := { signalled.compat with
  handlers := fun _ => { handler := 0x401000, restorer := 0x401100, mask := 0x800 } } }

/-- The blocked set while the handler of a tick's signal runs, and after it has
returned from its untouched frame. -/
def tickAndBack (k : Kern) : Option (UInt64 × UInt64) := do
  let (frame,k') ← (Trap.tick counting).deliver k
  match sysRtSigreturn k' (Entry.syscall.frame ⟨{},0x401107,0x202,frame+8⟩) with
  | .ok (_,k'',_) => some (k'.compat.sigBlocked,k''.compat.sigBlocked)
  | .error _ => none

/-- SIGUSR1 should be blocked while its handler runs and is not; SIGUSR2 was not
blocked before its handler and is after. -/
theorem masks_off_the_law :
    signalled.compat.sigBlocked = 0 ∧ handlerMask 0 9 (signalled.compat.handlers 9) = 0x200 ∧
      tickAndBack signalled = some (0,0) ∧
      blocksUsr2.compat.sigBlocked = 0 ∧ tickAndBack blocksUsr2 = some (0x800,0x800) := by
  decide +kernel

end PaghOS.Signal
