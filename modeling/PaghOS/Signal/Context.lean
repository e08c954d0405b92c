import PaghOS.Signal.UserReturn

/-!
The interrupted context across a handler. Both delivery paths write it into the
signal frame; `rt_sigreturn` reads it back and leaves by `sysretq`, whichever path
delivered.
-/

namespace PaghOS.Signal
open Bytes List Option

section SignalFrame

@[simp] theorem length_le64 (v : UInt64) : (le64 v).length = 8 := length_le 8 _

@[simp] theorem ofNat_ofLe_le64 (v : UInt64) : UInt64.ofNat (ofLe (le64 v)) = v := by
  have hv : v.toNat < lim 8 := v.toNat_lt
  rw [le64,ofLe_le hv,UInt64.ofNat_toNat]

theorem slice_words {vs : List UInt64} {rest : List UInt8} {i : Nat} {v : UInt64}
    (h : vs[i]? = some v) : slice (vs.flatMap le64 ++ rest) (8*i) 8 = le64 v := by
  induction vs generalizing i with
  | nil => simp at h
  | cons w vs ih =>
    rw [flatMap_cons,append_assoc]
    cases i with
    | zero =>
      obtain rfl : w = v := by simpa using h
      rw [slice_append_left (by simp)]
      exact slice_self (le64 w)
    | succ i =>
      rw [slice_append_right (by rw [length_le64]; omega),length_le64,show 8*(i+1)-8 = 8*i by omega]
      exact ih (by simpa using h)

theorem SigFrameRegs.rd64_put (r : SigFrameRegs) (i : Nat) (v : UInt64)
    (h : r.fields[i]? = some v) : rd64 r.put (8*i) = v := by
  rw [rd64,put,slice_words h,ofNat_ofLe_le64]

theorem SigFrameRegs.get_put (r : SigFrameRegs) : SigFrameRegs.get r.put = r := by
  have h := r.rd64_put
  cases r with
  | mk =>
    simp only [SigFrameRegs.get,SigFrameRegs.mk.injEq]
    exact ⟨h 0 _ rfl,h 1 _ rfl,h 2 _ rfl,h 3 _ rfl,h 4 _ rfl,h 5 _ rfl,h 6 _ rfl,h 7 _ rfl,
      h 8 _ rfl,h 9 _ rfl,h 10 _ rfl,h 11 _ rfl,h 12 _ rfl,h 13 _ rfl,h 14 _ rfl,h 15 _ rfl,
      h 16 _ rfl,h 17 _ rfl⟩

theorem SigFrameRegs.length_put (r : SigFrameRegs) : r.put.length = 256 := by
  simp [put,fields]

variable (restorer sig : UInt64) (saved : SigFrameRegs) (newmask : UInt64) (alt : SigAltStack)

theorem encodeRtSigframe_spec : (encodeRtSigframe restorer sig saved newmask alt).length = rtSigframeSize ∧
      slice (encodeRtSigframe restorer sig saved newmask alt) mcontextOffset 256 = saved.put ∧
      slice (encodeRtSigframe restorer sig saved newmask alt) sigmaskOffset 8 = le64 newmask := by
  unfold encodeRtSigframe
  extract_lets b₀ b₁ b₂ b₃ b₄ b₅ b₆
  have h₀ : b₀.length = 440 := length_replicate
  clear_value b₀
  have hp := saved.length_put
  have f₁ : 0+(le64 restorer).length ≤ b₀.length := by rw [h₀,length_le64]; decide
  have h₁ : b₁.length = 440 := (length_patch f₁).trans h₀
  have f₂ : ucOffset+24+(le 4 alt.flags.toNat).length ≤ b₁.length := by
    rw [h₁,length_le]; decide
  have h₂ : b₂.length = 440 := (length_patch f₂).trans h₁
  have f₃ : ucOffset+28+(le64 alt.size).length ≤ b₂.length := by rw [h₂,length_le64]; decide
  have h₃ : b₃.length = 440 := (length_patch f₃).trans h₂
  have f₄ : mcontextOffset+saved.put.length ≤ b₃.length := by rw [h₃,hp]; decide
  have h₄ : b₄.length = 440 := (length_patch f₄).trans h₃
  have f₅ : sigmaskOffset+(le64 newmask).length ≤ b₄.length := by rw [h₄,length_le64]; decide
  have h₅ : b₅.length = 440 := (length_patch f₅).trans h₄
  have f₆ : siginfoOffset+(le 4 sig.toNat).length ≤ b₅.length := by rw [h₅,length_le]; decide
  have h₆ : b₆.length = 440 := (length_patch f₆).trans h₅
  have f₇ : siginfoOffset+8+(le 4 0x80).length ≤ b₆.length := by rw [h₆,length_le]; decide
  -- The writes after the mask all lie behind it.
  have hlater {a n : Nat} (hn : a+n ≤ siginfoOffset) :
      slice (patch b₆ (siginfoOffset+8) (le 4 0x80)) a n = slice b₅ a n := by
    rw [slice_patch_of_disjoint f₇ (.inl (by omega)),slice_patch_of_disjoint f₆ (.inl hn)]
  refine ⟨(length_patch f₇).trans h₆,?_,?_⟩
  · rw [hlater (by decide),slice_patch_of_disjoint f₅ (.inl (by decide)),← hp]
    exact slice_patch_self f₄
  · rw [hlater (by decide)]
    exact slice_patch_self f₅

theorem decode_encodeRtSigframe :
    decodeRtSigframe (slice (encodeRtSigframe restorer sig saved newmask alt) ucOffset 304) =
      if saved.ip = 0 then none else some ⟨saved,newmask &&& ~~~unblockableMask⟩ := by
  obtain ⟨-,hc,hs⟩ := encodeRtSigframe_spec restorer sig saved newmask alt
  have hm : rd64 (slice (encodeRtSigframe restorer sig saved newmask alt) ucOffset 304) 296 =
      newmask := by
    rw [rd64,slice_slice (by decide)]
    exact (congrArg (fun b => UInt64.ofNat (ofLe b)) hs).trans (ofNat_ofLe_le64 _)
  have hr : SigFrameRegs.get (slice (slice (encodeRtSigframe restorer sig saved newmask alt)
      ucOffset 304) (mcontextOffset-ucOffset) 256) = saved := by
    rw [slice_slice (by decide)]
    exact (congrArg SigFrameRegs.get hc).trans saved.get_put
  simp [decodeRtSigframe,hr,hm]

end SignalFrame

section Memory

theorem Kern.read_write (k : Kern) (addr : UInt64) {bs : List UInt8} {n : Nat} (hn : bs.length = n)
    (h : n ≤ 0x10000000000000000) : (k.write addr bs).read addr n = bs := by
  subst hn
  refine ext_getElem (by simp [Kern.read]) fun i hi hb => ?_
  have hi' : i < UInt64.size := Nat.lt_of_lt_of_le hb h
  have ha : (addr+UInt64.ofNat i-addr).toNat = i := by
    rw [UInt64.add_comm,UInt64.add_sub_cancel,UInt64.toNat_ofNat_of_lt' hi']
  simp only [Kern.read,Kern.write,getElem_map,getElem_range,ha,
    getD_eq_getElem?_getD,List.getElem?_eq_getElem hb,getD_some]

theorem Kern.slice_read (k : Kern) (addr : UInt64) {n b m : Nat} (h : b+m ≤ n) :
    slice (k.read addr n) b m = k.read (addr+UInt64.ofNat b) m := by
  refine ext_getElem (by simp [slice,Kern.read]; omega) fun i _ _ => ?_
  simp [slice,Kern.read,UInt64.add_assoc]

end Memory

/-- The frame's address and the kernel after it, when a handler is entered. -/
def Trap.deliver (k : Kern) : Trap → Option (UInt64 × Kern)
  | .syscall f result =>
    match deliverOnePendingSyscall k f result with
    | (.handler,k',f') => some (f'.slot,k')
    | _ => none
  | .tick f =>
    match tickAction k f with
    | (.delivered,k',f') => some (f'.rsp,k')
    | _ => none

theorem deliverOnePendingSyscall_handler {k k' : Kern} {f f' : SyscallFrame} {result : UInt64}
    (h : deliverOnePendingSyscall k f result = (.handler,k',f')) :
    ∃ i action, Enters k (.syscall f result) i action f'.slot k' := by
  have hspec := deliverOnePendingSyscall_spec k f result
  rw [h] at hspec
  cases hspec with
  | handler _ i action frame henters => exact ⟨i,action,henters⟩

theorem tickAction_delivered {k k' : Kern} {f f' : IrqFrame} (h : tickAction k f = (.delivered,k',f')) :
    ∃ i action, Enters k (.tick f) i action f'.rsp k' := by
  have hspec := tickAction_spec k f
  rw [h] at hspec
  cases hspec with
  | delivered _ i action frame henters => exact ⟨i,action,henters⟩

theorem Trap.deliver_enters {k k' : Kern} {t : Trap} {frame : UInt64}
    (h : t.deliver k = some (frame,k')) : ∃ i action, Enters k t i action frame k' := by
  cases t <;> simp only [Trap.deliver] at h <;> split at h <;> cases h
  · exact deliverOnePendingSyscall_handler ‹_›
  · exact tickAction_delivered ‹_›

namespace Enters

variable {k k' : Kern} {t : Trap} {i : Fin 64} {action : SignalAction} {frame : UInt64}

theorem read_frame (h : Enters k t i action frame k') :
    k'.read frame rtSigframeSize = encodeRtSigframe action.restorer (signo i) t.saved
      ((k.compat.sigBlocked ||| action.mask) &&& ~~~unblockableMask) k.compat.sigAltstack := by
  have hm : k'.mem = ((k.consume i).write frame (encodeRtSigframe action.restorer (signo i) t.saved
      ((k.compat.sigBlocked ||| action.mask) &&& ~~~unblockableMask) k.compat.sigAltstack)).mem := by
    simp [h.after,Kern.blockDuringHandler,Kern.writeSigframe,Kern.consume]
  rw [Kern.read,hm,← Kern.read,Kern.read_write _ _ (encodeRtSigframe_spec ..).1 (by decide)]

theorem blocked (h : Enters k t i action frame k') :
    k'.compat.sigBlocked = k.compat.sigBlocked ||| (action.mask &&& ~~~unblockableMask) := by
  rw [h.after]
  rfl

end Enters

/-- User code ran from `k` to `k'`, left the frame as it was and kept it mapped. -/
structure Handled (frame : UInt64) (k k' : Kern) : Prop where
  unmodified : k'.read frame rtSigframeSize = k.read frame rtSigframeSize
  mapped : k'.checkUserPtr (frame+UInt64.ofNat ucOffset) 304 = true

theorem Enters.restoredFrame {k k₁ k₂ : Kern} {t : Trap} {i : Fin 64} {action : SignalAction}
    {frame : UInt64} {f : SyscallFrame} (h : Enters k t i action frame k₁)
    (hh : Handled frame k₁ k₂) (hf : f.slot = frame+UInt64.ofNat ucOffset) : k₂.restoredFrame f =
      if t.saved.ip = 0 then .error .EINVAL
      else .ok ⟨t.saved,(k.compat.sigBlocked ||| action.mask) &&& ~~~unblockableMask⟩ := by
  have hread : k₂.read f.slot 304 = slice (encodeRtSigframe action.restorer (signo i) t.saved
      ((k.compat.sigBlocked ||| action.mask) &&& ~~~unblockableMask) k.compat.sigAltstack)
      ucOffset 304 := by
    rw [hf,← h.read_frame,← hh.unmodified,Kern.slice_read _ _ (by decide)]
  have hmap : k₂.checkUserPtr f.slot 304 = true := hf ▸ hh.mapped
  simp only [Kern.restoredFrame,hmap,Bool.not_true,Bool.false_eq_true,if_false,hread,
    decode_encodeRtSigframe,UInt64.and_assoc,UInt64.and_self]
  split
  · rename_i hnone
    split at hnone
    · rename_i h0
      rw [if_pos h0]
    · simp at hnone
  rename_i hsome
  split at hsome
  · simp at hsome
  · rename_i h0
    rw [if_neg h0,← some.inj hsome]

/-- The registers user mode runs with after `sysretq`, once the stub has put the
result in place. -/
def SyscallFrame.sysret (f : SyscallFrame) (result : UInt64) : UserState where
  gpr := { f.regs with rax := result }
  rip := f.regs.rcx
  rflags := sysretFlags f.regs.r11
  rsp := f.slot

def Trap.state : Trap → UserState
  | .syscall f result => f.sysret result
  | .tick f => ⟨f.gpr,f.rip,f.rflags,f.rsp⟩

/-- The state after `rt_sigreturn`, made by `syscall`. A further signal that is
delivered on the way out saves this state again, as that of a system call. -/
def sigreturnState (k : Kern) (u : UserState) : Option UserState :=
  match sysRtSigreturn k (Entry.syscall.frame u) with
  | .ok (ax,_,f) => some (f.sysret ax)
  | .error _ => none

def UserState.visible (u : UserState) : UserState := { u with rflags := sysretFlags u.rflags }

/-- A system call gives up `rcx` and `r11` anyway; code stopped by a tick keeps them
only if they happen to hold what `sysretq` needs there. -/
def Trap.Recoverable : Trap → Prop
  | .syscall f _ => f.regs.rcx ≠ 0
  | .tick f => f.rip ≠ 0 ∧ f.gpr.rcx = f.rip ∧ f.gpr.r11 = f.rflags

instance : (t : Trap) → Decidable t.Recoverable
  | .syscall f _ => inferInstanceAs (Decidable (f.regs.rcx ≠ 0))
  | .tick f => inferInstanceAs (Decidable (f.rip ≠ 0 ∧ f.gpr.rcx = f.rip ∧ f.gpr.r11 = f.rflags))

theorem sysretFlags_idem (v : UInt64) : sysretFlags (sysretFlags v) = sysretFlags v := by
  apply UInt64.toBitVec_inj.mp
  simp only [sysretFlags,UInt64.toBitVec_or,UInt64.toBitVec_and]
  ext j hj
  simp only [BitVec.getElem_or,BitVec.getElem_and]
  grind

theorem sysret_restore (f : SyscallFrame) (fr : SigFrameRegs) : (f.restore fr).sysret fr.ax =
      ⟨⟨fr.r15,fr.r14,fr.r13,fr.r12,fr.flags,fr.r10,fr.r9,fr.r8,fr.bp,fr.di,fr.si,fr.dx,fr.ip,
        fr.bx,fr.ax⟩,fr.ip,sysretFlags fr.flags,fr.sp⟩ := rfl

theorem Trap.sysret_visible_iff (t : Trap) (f : SyscallFrame) :
    t.saved.ip ≠ 0 ∧ ((f.restore t.saved).sysret t.saved.ax).visible = t.state.visible ↔ t.Recoverable := by
  rw [sysret_restore]
  cases t with
  | syscall g result =>
    simp [Trap.saved,Trap.state,Trap.Recoverable,SyscallFrame.saved,SyscallFrame.sysret,UserState.visible]
  | tick g =>
    rcases g with ⟨⟨⟩,_,_,_,_,_⟩
    simp [Trap.saved,Trap.state,Trap.Recoverable,IrqFrame.userContext,UserState.visible,
      sysretFlags_idem,eq_comm]
    tauto

/-- After a handler that leaves its frame unmodified, `rt_sigreturn` resumes the
interrupted state exactly where that state is recoverable. -/
theorem sigreturn_resumes_iff {k k₁ k₂ : Kern} {t : Trap} {frame : UInt64} {u : UserState}
    (hd : t.deliver k = some (frame,k₁)) (hh : Handled frame k₁ k₂)
    (hu : u.rsp = frame+UInt64.ofNat ucOffset) :
    (sigreturnState k₂ u).map UserState.visible = some t.state.visible ↔ t.Recoverable := by
  obtain ⟨i,action,he⟩ := Trap.deliver_enters hd
  have hr := he.restoredFrame hh (f := Entry.syscall.frame u) hu
  rw [← t.sysret_visible_iff (Entry.syscall.frame u)]
  simp only [sigreturnState,sysRtSigreturn,hr]
  by_cases h0 : t.saved.ip = 0
  · simp [h0,bind,Except.bind]
  · simp [h0,bind,Except.bind]

/-- A process that handles every signal at one address, with SIGUSR1 pending. -/
def signalled : Kern where
  compat := {
    sigPending := 0x200
    handlers := fun _ => { handler := 0x401000, restorer := 0x401100 } }
  mem := fun _ => 0
  page := fun _ => true
  pendingApprox := 1

def afterGetpid : Trap := .syscall ⟨{ rcx := 0x400102, r11 := 0x246, rbx := 5 },0x7fff0000⟩ 42

theorem sigreturn_resumes_iff_afterGetpid : ∃ frame k₁, afterGetpid.deliver signalled = some (frame,k₁) ∧
      (sigreturnState k₁ ⟨{},0x401107,0x202,frame+8⟩).map UserState.visible =
        some afterGetpid.state.visible := by
  have hm : (afterGetpid.deliver signalled).any (fun r => r.2.checkUserPtr (r.1+8) 304) = true := by
    decide +kernel
  cases hd : afterGetpid.deliver signalled with
  | none => simp [hd] at hm
  | some r =>
    rw [hd] at hm
    exact ⟨r.1,r.2,rfl,(sigreturn_resumes_iff hd ⟨rfl,hm⟩ rfl).mpr (by decide)⟩

def counting : IrqFrame where
  gpr := { rcx := 7 }
  rip := 0x400000
  cs := 0x23
  rflags := 0x246
  rsp := 0x7fff0000
  ss := 0x1b

/-- The handler returns at once, and the counter is gone. -/
theorem tick_clobbers_counter : counting.gpr.rcx = 7 ∧ ((Trap.tick counting).deliver signalled).bind (fun r =>
        (sigreturnState r.2 ⟨{},0x401107,0x202,r.1+8⟩).map (fun u => (u.rip,u.gpr.rcx))) =
      some (0x400000,0x400000) := by
  decide +kernel

end PaghOS.Signal
