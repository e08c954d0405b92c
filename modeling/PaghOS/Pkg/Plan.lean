import PaghOS.Vfs.LexicalPath

/-!
What the members of an archive mean for the installer (`pkg/install.rs`):
member paths made relative to the root, and the operations in the order they
are carried out, hard links last.
-/

namespace PaghOS.Pkg
open List

open Vfs

inductive TarType where
  | regular
  | directory
  | symlink
  | hardlink
  | other
  deriving DecidableEq

structure TarEntry where
  path : Path
  ustarPrefix : Path
  kind : TarType
  mode : Nat
  content : List UInt8
  linkTarget : Path
  deriving DecidableEq

def effectivePath (entry : TarEntry) : Path :=
  if entry.ustarPrefix = [] then entry.path
  else entry.ustarPrefix ++ '/' :: entry.path

inductive NormPath where
  | keep (path : Path)
  | skipUnsafe
  deriving DecidableEq

def stripLead : Path → Path
  | '.' :: '/' :: rest => stripLead rest
  | '/' :: rest => stripLead rest
  | s => s

/-- The kept components, the latest first; `none` when a `..` has none to drop. -/
def normStack : List Name → List Name → Option (List Name)
  | stack, [] => some stack
  | stack, comp :: rest =>
    if comp = [] ∨ comp = dot then normStack stack rest
    else if comp = dotDot then
      match stack with
      | [] => none
      | _ :: stack => normStack stack rest
    else normStack (comp :: stack) rest

def normalizeEntryPath (archived : Path) : NormPath :=
  match normStack [] ((stripLead archived).splitOn '/') with
  | none => .skipUnsafe
  | some [] => .skipUnsafe
  | some stack => .keep (['/'].intercalate stack.reverse)

inductive InstallOp where
  | file (path : Path) (content : List UInt8) (mode : Nat)
  | symlink (path target : Path)
  | hardlink (path target : Path)
  deriving DecidableEq

structure InstallPlan where
  ops : List InstallOp
  deferred : List Path
  unresolved : List Path
  skippedUnsafe : Nat
  skippedEmptyTarget : Nat
  skippedOther : Nat
  deriving DecidableEq

/-- The plan while the members are read: `created` are the paths the archive
makes, `pending` the hard links with their targets. -/
structure Planner where
  plan : InstallPlan
  created : List Path
  pending : List (Path × Path)
  deriving DecidableEq

def Planner.start : Planner := ⟨⟨[],[],[],0,0,0⟩,[],[]⟩

def Planner.add (p : Planner) (op : InstallOp) (path : Path) : Planner :=
  { p with plan := { p.plan with ops := p.plan.ops ++ [op] }, created := p.created ++ [path] }

def Planner.dropUnsafe (p : Planner) : Planner :=
  { p with plan := { p.plan with skippedUnsafe := p.plan.skippedUnsafe+1 } }

def Planner.dropEmptyTarget (p : Planner) : Planner :=
  { p with plan := { p.plan with skippedEmptyTarget := p.plan.skippedEmptyTarget+1 } }

def Planner.dropOther (p : Planner) : Planner :=
  { p with plan := { p.plan with skippedOther := p.plan.skippedOther+1 } }

def Planner.member (p : Planner) (entry : TarEntry) : Planner :=
  match normalizeEntryPath (effectivePath entry) with
  | .skipUnsafe => p.dropUnsafe
  | .keep path =>
    match entry.kind with
    | .regular => p.add (.file path entry.content entry.mode) path
    | .symlink =>
      if entry.linkTarget = [] then p.dropEmptyTarget
      else p.add (.symlink path entry.linkTarget) path
    | .hardlink =>
      if entry.linkTarget = [] then p.dropEmptyTarget
      else
        match normalizeEntryPath entry.linkTarget with
        | .skipUnsafe => p.dropUnsafe
        | .keep target => { p with pending := p.pending ++ [(path,target)] }
    | .directory => p.dropOther
    | .other => p.dropOther

/-- A hard link whose target is created by now is planned, another stays
pending. -/
def Planner.tryLink (p : Planner) (l : Path × Path) : Planner :=
  if l.2 ∈ p.created then p.add (.hardlink l.1 l.2) l.1
  else { p with pending := p.pending ++ [l] }

def Planner.round (p : Planner) : Planner :=
  p.pending.foldl Planner.tryLink { p with pending := [] }

def Planner.rounds : Nat → Planner → Planner
  | 0, p => p
  | n+1, p =>
    if p.round.pending.length < p.pending.length then Planner.rounds n p.round else p.round

def inCycle (pending : List (Path × Path)) (l : Path × Path) : Bool :=
  pending.any (fun o => o.1 ≠ l.1 ∧ o.1 = l.2)

def planInstall (entries : List TarEntry) : InstallPlan :=
  let read := entries.foldl Planner.member .start
  let p := Planner.rounds (read.pending.length+1) read
  { p.plan with
    unresolved := (p.pending.filter (inCycle p.pending)).map (·.1)
    deferred := (p.pending.filter (fun l => ¬ inCycle p.pending l)).map (·.1)
    ops := p.plan.ops ++ p.pending.map (fun l => .hardlink l.1 l.2) }

/-- The components of a member path (`split('/')` without the empty ones). -/
def pathComps (rel : Path) : List Name := (rel.splitOn '/').filter (· ≠ [])

/-- A path of names only, as the planner leaves them. -/
def Normal (rel : Path) : Prop := ∀ c ∈ pathComps rel, Proper c

theorem normStack_eq {stack out comps : List Name} (h : normStack stack comps = some out) :
    out = comps.foldl normalizeStep stack := by
  fun_induction normStack stack comps with
  | case1 stack =>
    cases h
    rfl
  | case2 stack comp rest hskip ih => rw [foldl_cons,normalizeStep,if_pos hskip,ih h]
  | case3 rest hskip => cases h
  | case4 rest d stack hskip ih => exact ih h
  | case5 stack comp rest hskip hup ih => rw [foldl_cons,normalizeStep,if_neg hskip,if_neg hup,ih h]

theorem normalizeEntryPath_normal {archived path : Path}
    (h : normalizeEntryPath archived = .keep path) : Normal path := by
  unfold normalizeEntryPath at h
  split at h
  · simp at h
  · simp at h
  · rename_i stack hne hs
    obtain rfl := NormPath.keep.inj h
    have hproper : ∀ c ∈ stack.reverse, Proper c := by
      intro c hc
      rw [normStack_eq hs,mem_reverse] at hc
      exact foldl_proper (by simp) (fun c hc => Text.not_mem_of_mem_splitOn hc) c hc
    have hsplit : (['/'].intercalate stack.reverse).splitOn '/' = stack.reverse :=
      splitOn_intercalate '/' (fun c hc => (hproper c hc).2.2.2) (by simpa using hne)
    intro c hc
    rw [pathComps,hsplit] at hc
    exact hproper c (mem_of_mem_filter hc)

def InstallOp.path : InstallOp → Path
  | .file path _ _ => path
  | .symlink path _ => path
  | .hardlink path _ => path

/-- Everything the planner holds is at a normal path. -/
structure Planner.Normal (p : Planner) : Prop where
  ops : ∀ op ∈ p.plan.ops, Pkg.Normal op.path
  pending : ∀ l ∈ p.pending, Pkg.Normal l.1

variable {p : Planner}

theorem Planner.Normal.add (h : p.Normal) {op : InstallOp} (path : Path)
    (hop : Pkg.Normal op.path) : (p.add op path).Normal where
  ops := by
    intro o ho
    simp only [Planner.add,mem_append,mem_singleton] at ho
    rcases ho with ho | rfl
    · exact h.ops o ho
    · exact hop
  pending := h.pending

theorem Planner.Normal.defer (h : p.Normal) {l : Path × Path}
    (hl : Pkg.Normal l.1) : Planner.Normal { p with pending := p.pending ++ [l] } where
  ops := h.ops
  pending := by
    intro o ho
    simp only [mem_append,mem_singleton] at ho
    rcases ho with ho | rfl
    · exact h.pending o ho
    · exact hl

theorem Planner.Normal.member (h : p.Normal) (entry : TarEntry) : (p.member entry).Normal := by
  have hdrop : ∀ q : Planner, q.plan.ops = p.plan.ops → q.pending = p.pending → q.Normal :=
    fun q hops hpend => ⟨hops ▸ h.ops,hpend ▸ h.pending⟩
  unfold Planner.member
  split
  · exact hdrop _ rfl rfl
  rename_i path hpath
  have hn := normalizeEntryPath_normal hpath
  split
  · exact h.add path hn
  · split
    · exact hdrop _ rfl rfl
    · exact h.add path hn
  · split
    · exact hdrop _ rfl rfl
    · split
      · exact hdrop _ rfl rfl
      · exact h.defer hn
  · exact hdrop _ rfl rfl
  · exact hdrop _ rfl rfl

theorem Planner.Normal.tryLink (h : p.Normal) {l : Path × Path} (hl : Pkg.Normal l.1) :
    (p.tryLink l).Normal := by
  unfold Planner.tryLink
  split
  · exact h.add _ hl
  · exact h.defer hl

theorem Planner.Normal.round (h : p.Normal) : p.round.Normal := by
  have hfold : ∀ (ls : List (Path × Path)) (q : Planner), q.Normal → (∀ l ∈ ls, Pkg.Normal l.1) →
      (ls.foldl Planner.tryLink q).Normal := by
    intro ls
    induction ls with
    | nil => exact fun q hq _ => hq
    | cons l ls ih =>
      intro q hq hls
      exact ih _ (hq.tryLink (hls l (by simp))) (fun o ho => hls o (mem_cons_of_mem _ ho))
  exact hfold p.pending _ ⟨h.ops,by simp⟩ h.pending

theorem Planner.Normal.rounds (h : p.Normal) (n : Nat) : (Planner.rounds n p).Normal := by
  induction n generalizing p with
  | zero => exact h
  | succ n ih =>
    unfold Planner.rounds
    split
    · exact ih h.round
    · exact h.round

theorem planInstall_normal (entries : List TarEntry) : ∀ op ∈ (planInstall entries).ops, Normal op.path := by
  have hread : ∀ (es : List TarEntry) (p : Planner), p.Normal → (es.foldl Planner.member p).Normal := by
    intro es
    induction es with
    | nil => exact fun p hp => hp
    | cons e es ih => exact fun p hp => ih _ (hp.member e)
  have hp := (hread entries .start ⟨by simp [Planner.start],by simp [Planner.start]⟩).rounds
    ((entries.foldl Planner.member .start).pending.length+1)
  intro op hop
  rcases mem_append.mp hop with hop | hop
  · exact hp.ops op hop
  · obtain ⟨l,hl,rfl⟩ := mem_map.mp hop
    exact hp.pending l hl

end PaghOS.Pkg
