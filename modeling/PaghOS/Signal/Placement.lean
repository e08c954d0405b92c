import PaghOS.Signal.Nesting

/-!
Where signal frames are put. A delivery should keep off the red zone below the
interrupted stack pointer and off every frame that is still to be returned from,
and stay inside the alternate stack when it uses one.
-/

namespace PaghOS.Signal
open Bytes Loop Elf Nest List

variable {action : SignalAction} {t : Trap} {s s' : Nest}

section Address

theorem toNat_and_align (x : UInt64) : (x &&& 0xFFFFFFFFFFFFFFF0).toNat = x.toNat/16*16 := by
  rw [UInt64.toNat_and]
  apply Nat.eq_of_testBit_eq
  intro j
  rw [Nat.testBit_and,show (0xFFFFFFFFFFFFFFF0 : UInt64).toNat = (2^60-1)*2^4 from rfl,
    show x.toNat/16*16 = x.toNat/2^4*2^4 from rfl,Nat.testBit_mul_two_pow,
    Nat.testBit_two_pow_sub_one,Nat.testBit_mul_two_pow,Nat.testBit_div_two_pow]
  by_cases hj : 4 ≤ j
  · rw [Nat.sub_add_cancel hj]
    by_cases hlt : j < 64
    · have h60 : j-4 < 60 := by omega
      simp [hj,h60]
    · have hx : x.toNat.testBit j = false := Nat.testBit_lt_two_pow
        (Nat.lt_of_lt_of_le x.toNat_lt (Nat.pow_le_pow_right (by decide) (by omega)))
      simp [hx]
  · simp [hj]

theorem toNat_satSub {a b : UInt64} (h : b.toNat ≤ a.toNat) : (satSub a b).toNat = a.toNat-b.toNat := by
  have hle : b ≤ a := UInt64.le_iff_toNat_le.mpr h
  rw [satSub,if_pos hle,UInt64.toNat_sub_of_le _ _ hle]

theorem toNat_frame_of_le {base : UInt64} (h : 456 ≤ base.toNat) :
    ((satSub base 440 &&& 0xFFFFFFFFFFFFFFF0)-8).toNat = (base.toNat-440)/16*16-8 := by
  have h440 : (440 : UInt64).toNat = 440 := rfl
  have hs : (satSub base 440).toNat = base.toNat-440 := toNat_satSub (by omega)
  have ha : (satSub base 440 &&& 0xFFFFFFFFFFFFFFF0).toNat = (base.toNat-440)/16*16 := by
    rw [toNat_and_align,hs]
  have h8 : (8 : UInt64).toNat = 8 := rfl
  have hle : (8 : UInt64) ≤ satSub base 440 &&& 0xFFFFFFFFFFFFFFF0 := by
    rw [UInt64.le_iff_toNat_le,ha]
    omega
  rw [UInt64.toNat_sub_of_le _ _ hle,ha,h8]

end Address

/-- The delivery goes to the alternate stack. -/
def SignalAction.OnAltstack (action : SignalAction) (alt : SigAltStack) : Prop :=
  action.flags &&& saOnstack ≠ 0 ∧ alt.flags &&& ssDisable = 0 ∧ minsigstksz ≤ alt.size

instance (action : SignalAction) (alt : SigAltStack) : Decidable (action.OnAltstack alt) := by
  unfold SignalAction.OnAltstack; infer_instance

def SigAltStack.top (alt : SigAltStack) : Nat := alt.sp.toNat+alt.size.toNat

def stackTop (rsp : UInt64) (action : SignalAction) (alt : SigAltStack) : Nat :=
  if action.OnAltstack alt then alt.top else rsp.toNat

/-- Two ranges of addresses that do not meet. -/
def Clear (lo hi lo' hi' : Nat) : Prop := hi ≤ lo' ∨ hi' ≤ lo

instance (lo hi lo' hi' : Nat) : Decidable (Clear lo hi lo' hi') := by
  unfold Clear; infer_instance

/-- A frame put for code interrupted at `rsp`, among frames that are to be returned
from. The address is the one meant: the top of the stack is a 64-bit number, and
nothing is taken off below zero. -/
structure Active.WellPlaced (new : Active) (rsp : UInt64) (old : List Active) : Prop where
  redZone : Clear new.frame.toNat (new.frame.toNat+rtSigframeSize) (rsp.toNat-128) rsp.toNat
  frames : ∀ a ∈ old, Clear new.frame.toNat (new.frame.toNat+rtSigframeSize) a.frame.toNat
    (a.frame.toNat+rtSigframeSize)
  altstack : new.action.OnAltstack new.altstack →
    new.altstack.sp.toNat ≤ new.frame.toNat ∧
      new.frame.toNat+rtSigframeSize ≤ new.altstack.top
  top : stackTop rsp new.action new.altstack < UInt64.size
  address : rtSigframeSize ≤ stackTop rsp new.action new.altstack ∧
    new.frame.toNat+8 = (stackTop rsp new.action new.altstack-rtSigframeSize)/16*16

/-- The handler asks for the alternate stack and gets it; it does not reach past the
address space, and neither the interrupted code nor a handler still to be returned
from was running on it. -/
def Nest.Sheltered (s : Nest) : NestEvent → Prop
  | .deliver t _ => ∀ r ∈ s.kern.compat.peekDeliverableSignal,
      r.2.OnAltstack s.kern.compat.sigAltstack ∧
      s.kern.compat.sigAltstack.top < UInt64.size ∧
      Clear s.kern.compat.sigAltstack.sp.toNat s.kern.compat.sigAltstack.top (t.rsp.toNat-128)
        t.rsp.toNat ∧
      ∀ a ∈ s.active, Clear s.kern.compat.sigAltstack.sp.toNat s.kern.compat.sigAltstack.top
        a.altstack.sp.toNat a.altstack.top
  | .sigreturn _ _ => True
  | .change _ => True

instance (s : Nest) : (e : NestEvent) → Decidable (s.Sheltered e)
  | .deliver _ _ => inferInstanceAs (Decidable (∀ r ∈ s.kern.compat.peekDeliverableSignal, _ ∧ _))
  | .sigreturn _ _ | .change _ => .isTrue trivial

/-- Every frame still to be returned from lies in the alternate stack it was put on. -/
def Nest.Stacked (s : Nest) : Prop :=
  ∀ a ∈ s.active, a.altstack.sp.toNat ≤ a.frame.toNat ∧
    a.frame.toNat+rtSigframeSize ≤ a.altstack.top

theorem frameLocation_onAltstack (rsp : UInt64) {alt : SigAltStack}
    (h : action.OnAltstack alt) (htop : alt.top < UInt64.size) :
    (frameLocation rsp action alt).toNat+8 = (alt.top-440)/16*16 ∧
      alt.sp.toNat ≤ (frameLocation rsp action alt).toNat ∧
      (frameLocation rsp action alt).toNat+440 ≤ alt.top ∧ 440 ≤ alt.top := by
  have hsize : 2048 ≤ alt.size.toNat := UInt64.le_iff_toNat_le.mp h.2.2
  have hsum : (alt.sp+alt.size).toNat = alt.top := by
    rw [UInt64.toNat_add,SigAltStack.top]
    exact Nat.mod_eq_of_lt htop
  have hbig : alt.size.toNat ≤ alt.top := Nat.le_add_left _ _
  have heq : (frameLocation rsp action alt).toNat = (alt.top-440)/16*16-8 := by
    have hf : frameLocation rsp action alt =
        (satSub (alt.sp+alt.size) 440 &&& 0xFFFFFFFFFFFFFFF0)-8 := by
      simp only [frameLocation]
      rw [if_pos (show _ ∧ _ ∧ _ from h)]
    rw [hf,toNat_frame_of_le (by omega),hsum]
  have hsp : alt.top = alt.sp.toNat+alt.size.toNat := rfl
  omega

theorem Enters.mem_outside {k k' : Kern} {i : Fin 64}
    {frame addr : UInt64} (h : Enters k t i action frame k')
    (ha : addr.toNat < frame.toNat ∨ frame.toNat+rtSigframeSize ≤ addr.toNat) : k'.mem addr = k.mem addr := by
  have hbig : rtSigframeSize ≤ (addr-frame).toNat := by
    have hrange : checkUserRange frame rtSigframeSize = true := (Bool.and_eq_true_iff.mp h.mapped).1
    have hmax : frame.toNat+rtSigframeSize ≤ userAddrMax := by
      simp [checkUserRange,rtSigframeSize] at hrange
      exact of_decide_eq_true hrange.2
    have huser : userAddrMax+rtSigframeSize ≤ 2^64 := by decide
    rw [UInt64.toNat_sub]
    have := addr.toNat_lt
    omega
  rw [h.after]
  simp only [Kern.blockDuringHandler,Kern.writeSigframe,Kern.write,Kern.consume]
  rw [getD_eq_getElem?_getD,
    getElem?_eq_none (Nat.le_trans (Nat.le_of_eq (encodeRtSigframe_spec ..).1) hbig),Option.getD_none]

theorem Nest.deliver_wellPlaced {mem : UInt64 → UInt8} (hs : s.Stacked)
    (hok : s.Sheltered (.deliver t mem)) (h : s.step (.deliver t mem) = some s') :
    ∃ new, s'.active = new :: s.active ∧ new.WellPlaced t.rsp s.active ∧
      ∀ addr : UInt64, addr.toNat < new.frame.toNat ∨
        new.frame.toNat+rtSigframeSize ≤ addr.toNat → s'.kern.mem addr = mem addr := by
  obtain ⟨frame,k,i,action,he,rfl⟩ := step_deliver h
  have hp : s.kern.compat.peekDeliverableSignal = some (i,action) := he.picked
  obtain ⟨hon,htop,hred,hold⟩ := hok (i,action) hp
  have hplaced : frame = frameLocation t.rsp action s.kern.compat.sigAltstack := he.placed
  obtain ⟨haddr,hlo,hhi,hbig⟩ := frameLocation_onAltstack t.rsp hon htop
  rw [← hplaced] at haddr hlo hhi
  refine ⟨_,rfl,?_,fun addr ha => he.mem_outside ha⟩
  have hstack : stackTop t.rsp action s.kern.compat.sigAltstack = s.kern.compat.sigAltstack.top :=
    if_pos hon
  have hsize : rtSigframeSize = 440 := rfl
  refine ⟨?_,?_,fun _ => ⟨hlo,hhi⟩,hstack ▸ htop,hstack ▸ ⟨hbig,haddr⟩⟩
  · simp only [Clear] at hred ⊢
    omega
  intro a ha
  have hin := hs a ha
  have hclear := hold a ha
  simp only [Clear] at hclear ⊢
  omega

theorem Nest.stacked_step {e : NestEvent} (hs : s.Stacked) (hok : s.Sheltered e)
    (h : s.step e = some s') : s'.Stacked := by
  cases e with
  | deliver t mem =>
    obtain ⟨new,hact,hnew,-⟩ := deliver_wellPlaced hs hok h
    obtain ⟨frame,k,i,action,he,rfl⟩ := step_deliver h
    have hon : action.OnAltstack s.kern.compat.sigAltstack := (hok (i,action) he.picked).1
    obtain rfl := (cons.inj hact).1
    intro a ha
    rcases mem_cons.mp ha with rfl | ha
    · exact hnew.altstack hon
    · exact hs a ha
  | sigreturn u mem =>
    obtain ⟨a,rest,fr,hret,-,rfl⟩ := step_sigreturn h
    exact fun b hb => hs b ((returning_subset hret).2.1 hb)
  | change k =>
    obtain rfl := Option.some.inj h
    exact hs

/-- In a run whose deliveries all go to an alternate stack that nothing was running
on, every frame is well placed, and nothing outside it is written. -/
theorem frames_wellPlaced (k : Kern) (set : UInt64) {es p : List NestEvent} {t : Trap}
    {mem : UInt64 → UInt8} {s s' : Nest} (hok : Along Nest.step Nest.Sheltered (Nest.start k set) es)
    (hp : p ++ [.deliver t mem] <+: es) (hs : run Nest.step (Nest.start k set) p = some s)
    (h : s.step (.deliver t mem) = some s') :
    ∃ new, s'.active = new :: s.active ∧ new.WellPlaced t.rsp s.active ∧
      ∀ addr : UInt64, addr.toNat < new.frame.toNat ∨
        new.frame.toNat+rtSigframeSize ≤ addr.toNat → s'.kern.mem addr = mem addr := by
  have hstart : (Nest.start k set).Stacked := by simp [Nest.Stacked,Nest.start]
  have hrun := run_yields Nest.Sheltered (fun s e hs hok s' h => stacked_step hs hok h) hstart
    hok.at_prefix p ((prefix_append p _).trans hp) s hs
  exact deliver_wellPlaced hrun (hok.at_prefix p _ s hp hs) h

/-- A process whose handlers run on an alternate stack, with two signals pending. -/
def withAltstack : Kern where
  compat := {
    sigPending := 0x600
    handlers := fun _ => { handler := 0x401000, flags := saOnstack, restorer := 0x401100 }
    sigAltstack := { sp := 0x500000, flags := 0, size := 8192 } }
  mem := fun _ => 0
  page := fun _ => true
  pendingApprox := 2

def tickNow : NestEvent := .deliver (.tick counting) (fun _ => 0)

theorem frames_wellPlaced_withAltstack :
    ∃ s' new, (Nest.start withAltstack 0).step tickNow = some s' ∧ s'.active = [new] ∧
      new.WellPlaced counting.rsp [] := by
  obtain ⟨s',hs'⟩ := Option.isSome_iff_exists.mp
    (by decide +kernel : ((Nest.start withAltstack 0).step tickNow).isSome)
  have hok : Along Nest.step Nest.Sheltered (Nest.start withAltstack 0) [tickNow] := by
    decide +kernel
  obtain ⟨new,hact,hnew,-⟩ := frames_wellPlaced withAltstack 0 hok (p := []) prefix_rfl rfl hs'
  exact ⟨s',new,hs',hact,hnew⟩

def framesAfter (k : Kern) (es : List NestEvent) : Option (List UInt64) :=
  (run Nest.step (Nest.start k 0) es).map (fun s => s.active.map Active.frame)

/-- Without an alternate stack the frame ends sixteen bytes below this stack pointer. On an alternate
stack the second frame overwrites the first. Below 456 the address wraps. -/
theorem frames_overwrite : framesAfter signalled [tickNow] = some [counting.rsp-456] ∧
      framesAfter withAltstack [tickNow,tickNow] = some [0x501e38,0x501e38] ∧
      frameLocation 0 {} {} = 0xfffffffffffffff8 := by
  decide +kernel

end PaghOS.Signal
