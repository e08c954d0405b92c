import PaghOS.Lib.Effect
import PaghOS.Vfs.LinkWalk

/-!
The VFS tree and the node operations of its three kinds of file system: the
fixed nodes (`/`, `/dev`, `/proc`), the RAM disk on `/tmp` and the ext2 volume on
`/mnt`. The ext2 operations are seen from above their journal: each one happens
as a whole or fails and changes nothing.
-/

namespace PaghOS.Vfs

open Effect

inductive VfsError where
  | notFound
  | notSupported
  | invalidArgument
  | ioError
  | alreadyExists
  deriving DecidableEq

/-- `/mnt` forwards to the ext2 root, so the mount point is that inode. -/
inductive NodeId where
  | fixed (index : Nat)
  | ram (index : Nat)
  | ext2 (ino : Nat)
  deriving DecidableEq

inductive Body where
  | dir (entries : List (Name × NodeId))
  | file (content : List UInt8) (perms : Nat)
  | symlink (target : Path)
  | device
  deriving DecidableEq

/-- `links` is `i_links_count`; the directories' own count is not kept. -/
structure Node where
  body : Body
  links : Nat
  deriving DecidableEq

def Node.isDirectory (n : Node) : Bool :=
  match n.body with
  | .dir _ => true
  | _ => false

def Node.enter (name : Name) (id : NodeId) (n : Node) : Option Node :=
  match n.body with
  | .dir entries => some { n with body := .dir (entries ++ [(name,id)]) }
  | _ => some n

def Node.erase (name : Name) (n : Node) : Option Node :=
  match n.body with
  | .dir entries => some { n with body := .dir (entries.eraseP (fun e => e.1 = name)) }
  | _ => some n

def Node.dropLink (n : Node) : Option Node :=
  if n.isDirectory ∨ n.links ≤ 1 then none else some { n with links := n.links-1 }

/-- The RAM disk numbers its nodes from a counter that never goes back, so the
numbers from `nextRam` on are free. -/
structure Tree where
  nodes : NodeId → Option Node
  nextRam : Nat
  ramFresh : ∀ n, nextRam ≤ n → nodes (.ram n) = none

def Tree.alter (t : Tree) (id : NodeId) (f : Node → Option Node) : Tree where
  nodes := fun i => if i = id then (t.nodes i).bind f else t.nodes i
  nextRam := t.nextRam
  ramFresh := by
    intro n hn
    simp [t.ramFresh n hn]

def Tree.addExt2 (t : Tree) (ino : Nat) (node : Node) : Tree where
  nodes := fun i => if i = .ext2 ino then some node else t.nodes i
  nextRam := t.nextRam
  ramFresh := by
    intro n hn
    simp [t.ramFresh n hn]

def Tree.addRam (t : Tree) (node : Node) : Tree where
  nodes := fun i => if i = .ram t.nextRam then some node else t.nodes i
  nextRam := t.nextRam+1
  ramFresh := by
    intro n hn
    have hne : n ≠ t.nextRam := by omega
    simp [hne,t.ramFresh n (by omega)]

def Tree.entries? (t : Tree) (d : NodeId) : Option (List (Name × NodeId)) :=
  match t.nodes d with
  | some ⟨.dir entries,_⟩ => some entries
  | _ => none

def Tree.isDirectory (t : Tree) (id : NodeId) : Bool := (t.entries? id).isSome

def Tree.lookup (t : Tree) (d : NodeId) (name : Name) : Except VfsError NodeId :=
  match t.entries? d with
  | none => .error .notFound
  | some entries =>
    match entries.lookup name with
    | none => .error .notFound
    | some id => if (t.nodes id).isSome then .ok id else .error .ioError

def Tree.hasEntry (t : Tree) (d : NodeId) (name : Name) : Bool :=
  match t.entries? d with
  | none => false
  | some entries => (entries.lookup name).isSome

def Tree.linkTarget (t : Tree) (id : NodeId) : Option LinkTarget :=
  match t.nodes id with
  | some ⟨.symlink target,_⟩ => some (if target = [] then ⟨[],false⟩ else mapGuestTarget target)
  | _ => none

def Tree.linkTree (t : Tree) : LinkTree NodeId where
  root := .fixed 0
  lookup := fun d name => (t.lookup d name).toOption
  isDir := t.isDirectory
  linkTarget := t.linkTarget

def Tree.lookupPathWalk (t : Tree) (path : Path) (followFinal : Bool) : Except WalkError NodeId :=
  if path.head? ≠ some '/' then .error .notFound else resolve t.linkTree followFinal path

/-- The tree, the number of storage calls so far, and the nodes that were
created, modified or removed, the latest first. -/
structure VfsState where
  tree : Tree
  calls : Nat
  changes : List NodeId

def VfsState.start (t : Tree) : VfsState := ⟨t,0,[]⟩

def VfsState.alter (s : VfsState) (id : NodeId) (f : Node → Option Node) : VfsState :=
  { s with tree := s.tree.alter id f, changes := id :: s.changes }

def VfsState.addExt2 (s : VfsState) (ino : Nat) (node : Node) : VfsState :=
  { s with tree := s.tree.addExt2 ino node, changes := .ext2 ino :: s.changes }

def VfsState.addRam (s : VfsState) (node : Node) : VfsState :=
  { s with tree := s.tree.addRam node, changes := .ram s.tree.nextRam :: s.changes }

/-- What the storage does with the calls it gets: the size of the inode table,
which calls fail for want of space or with a device error, and how many of its
transactions a failing write had committed. -/
structure Storage where
  inodes : Nat
  fails : Nat → Bool
  landed : Nat → Nat
  /-- `fs_ino` of the fixed nodes. -/
  fixedIno : Nat → Nat

inductive Halt (ε : Type) where
  | fails (e : ε)
  | panics
  deriving DecidableEq

abbrev VfsM (ε α : Type) := EStateM (Halt ε) VfsState α

def u16Max : Nat := 65535

def u32Max : Nat := 4294967295

def firstInode : Nat := 11

def ramInoBase : Nat := 0x540000

section Operations

variable {ε : Type} (env : Storage)

def fsIno : NodeId → Nat
  | .fixed k => env.fixedIno k
  | .ram k => ramInoBase+k
  | .ext2 ino => ino

def storageCall : VfsM ε Bool := do
  let s ← get
  set { s with calls := s.calls+1 }
  pure (env.fails s.calls)

def freeInode (t : Tree) : Option Nat :=
  ((List.range (env.inodes+1)).drop firstInode).find? (fun n => (t.nodes (.ext2 n)).isNone)

def checkNewEntry (t : Tree) (d : NodeId) (name : Name) : Except VfsError Unit :=
  if name = [] ∨ name = dot ∨ name = dotDot ∨ '/' ∈ name then .error .ioError
  else if byteLen name > 255 then .error .invalidArgument
  else if t.hasEntry d name then .error .alreadyExists
  else .ok ()

def ext2New (d : NodeId) (name : Name) (node : Node) : VfsM ε (Except VfsError NodeId) := do
  let failed ← storageCall env
  let s ← get
  match failed,freeInode env s.tree with
  | false,some ino => do
      set ((s.addExt2 ino node).alter d (Node.enter name (.ext2 ino)))
      pure (.ok (.ext2 ino))
  | _,_ => pure (.error .ioError)

def create (node : Node) (d : NodeId) (name : Name) : VfsM ε (Except VfsError NodeId) := do
  let s ← get
  match d,s.tree.isDirectory d with
  | .ram _,true =>
    if name = [] ∨ '/' ∈ name then pure (.error .invalidArgument)
    else if s.tree.hasEntry d name then pure (.error .alreadyExists)
    else do
      set ((s.addRam node).alter d (Node.enter name (.ram s.tree.nextRam)))
      pure (.ok (.ram s.tree.nextRam))
  | .ext2 _,true =>
    match checkNewEntry s.tree d name with
    | .error e => pure (.error e)
    | .ok _ => ext2New env d name node
  | _,_ => pure (.error .notSupported)

def createDir (d : NodeId) (name : Name) : VfsM ε (Except VfsError NodeId) :=
  create env ⟨.dir [],2⟩ d name

def createFile (d : NodeId) (name : Name) : VfsM ε (Except VfsError NodeId) :=
  create env ⟨.file [] 0o644,1⟩ d name

/-- A long target is copied into a block of 4096 bytes, once that and the inode
are found; one that does not fit is an index out of range. -/
def createSymlink (d : NodeId) (name : Name) (target : Path) :
    VfsM ε (Except VfsError NodeId) := do
  let s ← get
  match d,s.tree.isDirectory d with
  | .ext2 _,true =>
    match checkNewEntry s.tree d name with
    | .error e => pure (.error e)
    | .ok _ =>
      if target = [] then pure (.error .ioError)
      else if byteLen target > u32Max then pure (.error .invalidArgument)
      else if byteLen target > 4096 then do
        let failed ← storageCall env
        if failed ∨ (freeInode env s.tree).isNone then pure (.error .ioError) else throw .panics
      else ext2New env d name ⟨.symlink target,1⟩
  | _,_ => pure (.error .notSupported)

/-- `link`: the number of the target is looked up in the directory's own
volume. -/
def link (d : NodeId) (name : Name) (target : NodeId) : VfsM ε (Except VfsError NodeId) := do
  let s ← get
  let ino := fsIno env target
  match d,s.tree.isDirectory d with
  | .ext2 _,true =>
    if ino = 0 ∨ ino > u32Max then pure (.error .invalidArgument)
    else
      match checkNewEntry s.tree d name,s.tree.nodes (.ext2 ino) with
      | .error e,_ => pure (.error e)
      | .ok _,none => pure (.error .ioError)
      | .ok _,some node =>
        if node.isDirectory then pure (.error .alreadyExists)
        else if node.links = 0 ∨ node.links ≥ u16Max then pure (.error .ioError)
        else do
          let failed ← storageCall env
          if failed then pure (.error .ioError)
          else do
            modify (fun s => (s.alter (.ext2 ino) (fun n => some { n with links := n.links+1 })).alter
              d (Node.enter name (.ext2 ino)))
            pure (.ok (.ext2 ino))
  | _,_ => pure (.error .notSupported)

def Tree.occupied (t : Tree) (id : NodeId) : Bool :=
  match t.entries? id with
  | some (_ :: _) => true
  | _ => false

def remove (d : NodeId) (name : Name) : VfsM ε (Except VfsError Unit) := do
  let s ← get
  match d,s.tree.isDirectory d with
  | .ram _,true =>
    match s.tree.lookup d name with
    | .error e => pure (.error e)
    | .ok child =>
      if s.tree.occupied child then pure (.error .notSupported)
      else do
        set ((s.alter child (fun _ => none)).alter d (Node.erase name))
        pure (.ok ())
  | .ext2 _,true =>
    if name = dot ∨ name = dotDot then pure (.error .ioError)
    else
      match s.tree.lookup d name with
      | .error e => pure (.error e)
      | .ok child =>
        if s.tree.occupied child then pure (.error .alreadyExists)
        else if ¬ s.tree.isDirectory child ∧ (s.tree.nodes child).any (·.links = 0) then
          pure (.error .ioError)
        else do
          let failed ← storageCall env
          if failed then pure (.error .ioError)
          else do
            modify (fun s => (s.alter child Node.dropLink).alter d (Node.erase name))
            pure (.ok ())
  | _,_ => pure (.error .notSupported)

def Node.overwrite (data : List UInt8) (n : Node) : Option Node :=
  match n.body with
  | .file content perms => some { n with body := .file (data ++ content.drop data.length) perms }
  | _ => some n

def txDataBytes : Nat := 262144

def write (id : NodeId) (data : List UInt8) : VfsM ε (Except VfsError Nat) := do
  match id with
  | .fixed _ => pure (.error .notSupported)
  | .ram _ => do
      let failed ← storageCall env
      if failed then pure (.error .ioError)
      else do
        modify (fun s => s.alter id (Node.overwrite data))
        pure (.ok data.length)
  | .ext2 _ =>
    if data.length > u32Max then pure (.error .invalidArgument)
    else do
      let failed ← storageCall env
      let s ← get
      if failed then do
        set (s.alter id (Node.overwrite (data.take (txDataBytes*env.landed s.calls))))
        pure (.error .ioError)
      else do
        set (s.alter id (Node.overwrite data))
        pure (.ok data.length)

def Node.setPerms (perms : Nat) (n : Node) : Option Node :=
  match n.body with
  | .file content _ => some { n with body := .file content perms }
  | _ => some n

def setMode (id : NodeId) (perms : Nat) : VfsM ε (Except VfsError Unit) := do
  match id with
  | .ext2 _ => do
      let failed ← storageCall env
      if failed then pure (.error .ioError)
      else do
        modify (fun s => s.alter id (Node.setPerms perms))
        pure (.ok ())
  | _ => pure (.error .notSupported)

end Operations

end PaghOS.Vfs
