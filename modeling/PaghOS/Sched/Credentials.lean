import Mathlib.Data.List.Induction

/-!
The ids of a process and the system calls that change them.
-/

namespace PaghOS.Cred
open List

structure Creds where
  uid : UInt32
  gid : UInt32
  euid : UInt32
  egid : UInt32
  suid : UInt32
  sgid : UInt32
  deriving DecidableEq

def Creds.root : Creds := ⟨0,0,0,0,0,0⟩

def Creds.isRoot (c : Creds) : Bool := c.euid = 0

/-- The three user ids, or the three group ids: the calls for either go by one scheme. -/
structure Ids where
  real : UInt32
  effective : UInt32
  saved : UInt32

def Ids.values (ids : Ids) : List UInt32 := [ids.real,ids.effective,ids.saved]

def Ids.set (ids : Ids) (privileged : Bool) (id : UInt32) : Option Ids :=
  if privileged then some ⟨id,id,id⟩
  else if id = ids.real ∨ id = ids.saved then some ⟨ids.real,id,id⟩
  else none

def Ids.setre (ids : Ids) (privileged : Bool) (real effective : Option UInt32) : Option Ids :=
  if !privileged && (real.any (fun r => r ≠ ids.real && r ≠ ids.saved) ||
      effective.any (fun e => e ≠ ids.real && e ≠ ids.effective && e ≠ ids.saved)) then none
  else
    let r := real.getD ids.real
    let e := effective.getD ids.effective
    some ⟨r,e,if real.isSome || (effective.isSome && e ≠ r) then e else ids.saved⟩

def Ids.setres (ids : Ids) (privileged : Bool) (real effective saved : Option UInt32) : Option Ids :=
  if !privileged && [real,effective,saved].any (·.any fun requested =>
      requested ≠ ids.real && requested ≠ ids.effective && requested ≠ ids.saved) then none
  else some ⟨real.getD ids.real,effective.getD ids.effective,saved.getD ids.saved⟩

namespace Creds
variable (c : Creds)

def users : Ids := ⟨c.uid,c.euid,c.suid⟩

def groups : Ids := ⟨c.gid,c.egid,c.sgid⟩

def withUsers (ids : Ids) : Creds := { c with uid := ids.real, euid := ids.effective, suid := ids.saved }

def withGroups (ids : Ids) : Creds := { c with gid := ids.real, egid := ids.effective, sgid := ids.saved }

def setuid (uid : UInt32) : Option Creds := (c.users.set c.isRoot uid).map c.withUsers

def setgid (gid : UInt32) : Option Creds := (c.groups.set c.isRoot gid).map c.withGroups

def setreuid (uid euid : Option UInt32) : Option Creds := (c.users.setre c.isRoot uid euid).map c.withUsers

def setregid (gid egid : Option UInt32) : Option Creds := (c.groups.setre c.isRoot gid egid).map c.withGroups

def setresuid (uid euid suid : Option UInt32) : Option Creds :=
  (c.users.setres c.isRoot uid euid suid).map c.withUsers

def setresgid (gid egid sgid : Option UInt32) : Option Creds :=
  (c.groups.setres c.isRoot gid egid sgid).map c.withGroups

end Creds

inductive Call where
  | setuid (uid : UInt64)
  | setgid (gid : UInt64)
  | setreuid (uid euid : UInt64)
  | setregid (gid egid : UInt64)
  | setresuid (uid euid suid : UInt64)
  | setresgid (gid egid sgid : UInt64)

def idArg (raw : UInt64) : UInt32 := raw.toUInt32

/-- Minus one leaves the id as it is. -/
def optionalIdArg (raw : UInt64) : Option UInt32 :=
  if raw.toUInt32 = 0xFFFFFFFF then none else some raw.toUInt32

def Creds.change (c : Creds) : Call → Option Creds
  | .setuid uid => c.setuid (idArg uid)
  | .setgid gid => c.setgid (idArg gid)
  | .setreuid uid euid => c.setreuid (optionalIdArg uid) (optionalIdArg euid)
  | .setregid gid egid => c.setregid (optionalIdArg gid) (optionalIdArg egid)
  | .setresuid uid euid suid => c.setresuid (optionalIdArg uid) (optionalIdArg euid) (optionalIdArg suid)
  | .setresgid gid egid sgid => c.setresgid (optionalIdArg gid) (optionalIdArg egid) (optionalIdArg sgid)

inductive Errno where
  | eperm

def commitCreds (compat : Option Creds) (next : Creds) : Except Errno UInt64 × Option Creds :=
  if compat.isSome then (.ok 0,some next) else (.error .eperm,compat)

/-- A call of the current process; a native task has no compat state. -/
def sysCall (compat : Option Creds) (call : Call) : Except Errno UInt64 × Option Creds :=
  match (compat.getD .root).change call with
  | some next => commitCreds compat next
  | none => (.error .eperm,compat)

section
variable {ids next : Ids}

theorem Ids.set_subset {id : UInt32} (h : ids.set false id = some next) : next.values ⊆ ids.values := by
  simp only [Ids.set,Bool.false_eq_true,if_false,Option.ite_none_right_eq_some,Option.some.injEq] at h
  obtain ⟨rfl | rfl,rfl⟩ := h <;> simp [values]

theorem Ids.setre_subset {real effective : Option UInt32} (h : ids.setre false real effective = some next) :
    next.values ⊆ ids.values := by
  cases real <;> cases effective <;> grind [Ids.setre,Ids.values]

theorem Ids.setres_subset {real effective saved : Option UInt32}
    (h : ids.setres false real effective saved = some next) : next.values ⊆ ids.values := by
  cases real <;> cases effective <;> cases saved <;> grind [Ids.setres,Ids.values]

variable {c c' c₀ : Creds} {call : Call}

/-- Without privilege every id comes from those of the process. -/
theorem Creds.change_subset (hroot : c.isRoot = false) (h : c.change call = some c') :
    c'.users.values ⊆ c.users.values ∧ c'.groups.values ⊆ c.groups.values := by
  cases call <;>
    simp only [change,setuid,setgid,setreuid,setregid,setresuid,setresgid,hroot,
      Option.map_eq_some_iff] at h <;>
    obtain ⟨next,h,rfl⟩ := h
  · exact ⟨Ids.set_subset h,Subset.refl _⟩
  · exact ⟨Subset.refl _,Ids.set_subset h⟩
  · exact ⟨Ids.setre_subset h,Subset.refl _⟩
  · exact ⟨Subset.refl _,Ids.setre_subset h⟩
  · exact ⟨Ids.setres_subset h,Subset.refl _⟩
  · exact ⟨Subset.refl _,Ids.setres_subset h⟩

end

/-- Along every run of calls the ids stay among those at its start, and a call that fails
leaves them as they are. -/
theorem creds_confined (c₀ : Creds) (huid : c₀.uid ≠ 0) (heuid : c₀.euid ≠ 0) (hsuid : c₀.suid ≠ 0)
    (calls : List Call) : ∃ c, calls.foldl (fun s call => (sysCall s call).2) (some c₀) = some c ∧
      c.users.values ⊆ c₀.users.values ∧ c.groups.values ⊆ c₀.groups.values ∧
      ∀ call e, (sysCall (some c) call).1 = .error e → (sysCall (some c) call).2 = some c := by
  have hfail : ∀ c call e, (sysCall (some c) call).1 = .error e → (sysCall (some c) call).2 = some c := by
    intro c call e h
    unfold sysCall at h ⊢
    split at h
    · cases h
    · rfl
  induction calls using List.reverseRecOn with
  | nil => exact ⟨c₀,rfl,Subset.refl _,Subset.refl _,hfail c₀⟩
  | append_singleton calls call ih =>
    obtain ⟨c,hrun,husers,hgroups,-⟩ := ih
    -- the effective id is one of those at the start, none of them that of root
    have hroot : c.isRoot = false := by
      have hmem : c.euid ∈ c₀.users.values := husers (by simp [Creds.users,Ids.values])
      simp only [Creds.users,Ids.values,mem_cons,not_mem_nil,or_false] at hmem
      have hne : c.euid ≠ 0 := by rcases hmem with h | h | h <;> rwa [h]
      simpa [Creds.isRoot] using hne
    rw [foldl_append,foldl_cons,foldl_nil,hrun]
    cases hchange : c.change call with
    | none => exact ⟨c,by simp [sysCall,hchange],husers,hgroups,hfail c⟩
    | some next =>
      obtain ⟨hu,hg⟩ := Creds.change_subset hroot hchange
      exact ⟨next,by simp [sysCall,commitCreds,hchange],List.Subset.trans hu husers,
        List.Subset.trans hg hgroups,hfail next⟩

/-- A process that may go back to its saved ids. -/
theorem creds_confined_saved : ∃ c, [Call.setresuid 0xFFFFFFFF 1002 0xFFFFFFFF,.setuid 0,.setgid 7].foldl
      (fun s call => (sysCall s call).2) (some ⟨1000,7,1000,8,1002,9⟩) = some c ∧
    c.users.values ⊆ [1000,1000,1002] ∧ c.groups.values ⊆ [7,8,9] ∧
    ∀ call e, (sysCall (some c) call).1 = .error e → (sysCall (some c) call).2 = some c :=
  creds_confined ⟨1000,7,1000,8,1002,9⟩ (by decide) (by decide) (by decide) _

end PaghOS.Cred
