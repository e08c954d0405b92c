import PaghOS.Elf.Loader
import PaghOS.Lib.Check

/-!
Starting an image: the interpreter lookup, the argument gate and the initial
stack of `src/task/process.rs` and `src/task/stack.rs`, as far as they decide
where a program starts. The stack's bytes and the auxiliary vector are not built.
-/

namespace PaghOS.Elf
open Bytes Check

def ptInterp : Nat := 3
def interpBase : Nat := 0x700000000000
def userStackTop : Nat := 0x700080000000
def userStackPages : Nat := 2048

inductive RunError where
  | argsTooLarge | notFound | loadFailed (msg : String) | stackFailed
  deriving DecidableEq

def loadErr {α : Type} : Except String α → Except RunError α
  | .ok a => .ok a
  | .error msg => .error (.loadFailed msg)

def interpPath (data : List UInt8) (off : Nat) : Except String String := do
  let start := ofLe (slice data (off+8) 8)
  let stop ← orErr (checkedAdd start (ofLe (slice data (off+32) 8))) "ELF: interp overflow"
  guardErr (stop > data.length) "ELF: interp outside file"
  let raw := (slice data start (stop-start)).takeWhile (· ≠ 0)
  orErr (String.fromUTF8? ⟨raw.toArray⟩) "ELF: invalid interp path"

def findInterp (data : List UInt8) (phoff phentsize : Nat) :
    (n i : Nat) → Except String (Option String)
  | 0, _ => .ok none
  | n+1, i => do
    let off ← orErr (checkedAdd phoff (i*phentsize)) "ELF: phdr overflow"
    guardErr (off+56 > data.length) "ELF: phdr outside file"
    if ofLe (slice data off 4) = ptInterp then
      let path ← interpPath data off
      .ok (some path)
    else findInterp data phoff phentsize n (i+1)

def elfInterpreterPath (data : List UInt8) : Except String (Option String) := do
  guardErr (data.length < 64) "ELF: short header"
  let h := readHeader data
  guardErr (h.ePhentsize < 56) "ELF: invalid phentsize"
  findInterp data h.ePhoff h.ePhentsize h.ePhnum 0

/-- Where the interpreter is looked for: its own path, then the merged-usr places. -/
def interpCandidates (path : String) : List String :=
  let base := ((path.splitOn "/").getLast?).getD path
  let rooted := if path.startsWith "/" then path else "/" ++ path
  ["/mnt" ++ rooted,"/mnt/usr/lib/x86_64-linux-gnu/" ++ base,"/mnt/usr/lib64/" ++ base,
    "/mnt/lib64/" ++ base,"/mnt/usr" ++ rooted]

def readInterpreter (files : String → Option (List UInt8)) (data : List UInt8) :
    Except RunError (Option (List UInt8)) := do
  match ← loadErr (elfInterpreterPath data) with
  | none => .ok none
  | some path =>
    match (interpCandidates path).findSome? files with
    | some interp => .ok (some interp)
    | none => .error .notFound

/-- The address a loaded image starts at: its interpreter's when it has one. -/
def mapLinuxImages (env : LoadEnv) (data : List UInt8) (interpreter : Option (List UInt8)) :
    Except RunError Nat := do
  let elf ← loadErr (loadLinux env data)
  match interpreter with
  | some interp => loadErr (mapInterpreter env interp interpBase elf.mapped)
  | none => .ok elf.entry

def argGate (argv : List (List UInt8)) : Bool :=
  argv.length ≤ 256 && argv.foldr (fun a n => a.length+n) 0 ≤ 4096

def checkedSub (a b : Nat) : Option Nat := if b ≤ a then some (a-b) else none

def tableSize (argv envp : List (List UInt8)) : Nat := (1+argv.length+1+envp.length+1+16)*8

def strTotal (strs : List (List UInt8)) : Nat := strs.foldr (fun s n => s.length+1+n) 0

def buildInitialStack (stackTop stackLow : Nat) (argv envp : List (List UInt8)) : Option Nat := do
  let strStart ← checkedSub stackTop (strTotal (argv ++ envp))
  let randStart ← checkedSub strStart 16
  let tableFloor ← checkedSub randStart (tableSize argv envp)
  let argcAddr := tableFloor/16*16
  if argcAddr < stackLow ∨ stackTop < argcAddr then none else some argcAddr

/-- `stackPages` says whether all pages of the stack region could be mapped. -/
def mapInitialStack (stackPages : Bool) (argv envp : List (List UInt8)) : Except RunError Nat :=
  if !stackPages then .error .stackFailed
  else
    match buildInitialStack userStackTop (userStackTop-userStackPages*4096) argv envp with
    | some rsp => .ok rsp
    | none => .error .stackFailed

structure ExecImage where
  entry : Nat
  initialRsp : Nat
  deriving DecidableEq

/-- One request to start a program: the file's bytes (none when it cannot be
read), the other files, the arguments and the memory manager's answers. -/
structure ExecRequest where
  data : Option (List UInt8)
  files : String → Option (List UInt8)
  argv : List (List UInt8)
  envp : List (List UInt8)
  env : LoadEnv
  stackPages : Bool

def loadImage (r : ExecRequest) : Except RunError ExecImage := do
  match r.data with
  | none => .error .notFound
  | some data =>
    let interpreter ← readInterpreter r.files data
    let entry ← mapLinuxImages r.env data interpreter
    let rsp ← mapInitialStack r.stackPages r.argv r.envp
    .ok ⟨entry,rsp⟩

def runLinuxBinary (r : ExecRequest) : Except RunError ExecImage :=
  if !argGate r.argv then .error .argsTooLarge else loadImage r

def execLinuxImage (r : ExecRequest) : Except RunError ExecImage :=
  if !argGate r.argv || !argGate r.envp then .error .argsTooLarge else loadImage r

theorem buildInitialStack_le {stackTop stackLow rsp : Nat} {argv envp : List (List UInt8)}
    (h : buildInitialStack stackTop stackLow argv envp = some rsp) : rsp ≤ stackTop := by
  simp only [buildInitialStack,Option.bind_eq_bind,Option.bind_eq_some_iff] at h
  obtain ⟨a,-,b,-,c,-,hc⟩ := h
  split at hc
  · simp at hc
  · rename_i hfit
    simp only [Option.some.injEq] at hc
    omega

theorem mapInitialStack_lt {stackPages : Bool} {argv envp : List (List UInt8)} {rsp : Nat}
    (h : mapInitialStack stackPages argv envp = .ok rsp) : rsp < userAddrMax := by
  unfold mapInitialStack at h
  split at h
  · simp at h
  split at h
  · rename_i hb
    simp only [Except.ok.injEq] at h
    have := buildInitialStack_le hb
    simp only [userStackTop,userAddrMax] at this ⊢
    omega
  · simp at h

variable {r : ExecRequest} {image : ExecImage}

theorem loadImage_initialRsp (h : loadImage r = .ok image) : image.initialRsp < userAddrMax := by
  unfold loadImage at h
  split at h
  · simp at h
  simp only [bind_eq_ok] at h
  obtain ⟨interp,-,entry,-,rsp,hrsp,h⟩ := h
  simp only [Except.ok.injEq] at h
  subst h
  exact mapInitialStack_lt hrsp

theorem loadErr_ok {α : Type} {x : Except String α} {a : α} (h : loadErr x = .ok a) : x = .ok a := by
  cases x <;> simp_all [loadErr]

theorem checkedAdd_lt {a b c : Nat} {msg : String} (h : orErr (checkedAdd a b) msg = .ok c) :
    c < 0x10000000000000000 := by
  obtain ⟨hlt,rfl⟩ := checkedAdd_some.mp (orErr_ok.mp h)
  exact hlt

variable {env : LoadEnv} {data : List UInt8}

theorem loadLinux_entry_lt {elf : ElfProcess} (h : loadLinux env data = .ok elf) :
    elf.entry < 0x10000000000000000 := by
  simp only [loadLinux,bind_eq_ok] at h
  obtain ⟨kind,-,bias,-,entry,hentry,u,-,p,-,h⟩ := h
  simp only [Except.ok.injEq] at h
  subst h
  exact checkedAdd_lt hentry

theorem mapInterpreter_lt {bias entry : Nat} {mapped : List Nat}
    (h : mapInterpreter env data bias mapped = .ok entry) : entry < 0x10000000000000000 := by
  simp only [mapInterpreter,bind_eq_ok] at h
  obtain ⟨kind,-,u,-,maxEnd,-,biasedEnd,-,v,-,e,he,p,-,h⟩ := h
  simp only [Except.ok.injEq] at h
  subst h
  exact checkedAdd_lt he

theorem mapLinuxImages_lt {interp : Option (List UInt8)} {entry : Nat}
    (h : mapLinuxImages env data interp = .ok entry) : entry < 0x10000000000000000 := by
  simp only [mapLinuxImages,bind_eq_ok] at h
  obtain ⟨elf,helf,h⟩ := h
  cases interp with
  | none =>
    simp only [Except.ok.injEq] at h
    subst h
    exact loadLinux_entry_lt (loadErr_ok helf)
  | some i => exact mapInterpreter_lt (loadErr_ok h)

theorem loadImage_entry (h : loadImage r = .ok image) : image.entry < 0x10000000000000000 := by
  unfold loadImage at h
  split at h
  · simp at h
  simp only [bind_eq_ok] at h
  obtain ⟨interp,-,entry,hentry,rsp,-,h⟩ := h
  simp only [Except.ok.injEq] at h
  subst h
  exact mapLinuxImages_lt hentry

theorem runLinuxBinary_entry (h : runLinuxBinary r = .ok image) : image.entry < 0x10000000000000000 := by
  unfold runLinuxBinary at h
  split at h
  · simp at h
  · exact loadImage_entry h

theorem execLinuxImage_entry (h : execLinuxImage r = .ok image) : image.entry < 0x10000000000000000 := by
  unfold execLinuxImage at h
  split at h
  · simp at h
  · exact loadImage_entry h

theorem execLinuxImage_initialRsp (h : execLinuxImage r = .ok image) : image.initialRsp < userAddrMax := by
  unfold execLinuxImage at h
  split at h
  · simp at h
  · exact loadImage_initialRsp h

end PaghOS.Elf
