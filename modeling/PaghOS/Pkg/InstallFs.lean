import PaghOS.Pkg.Plan
import PaghOS.Vfs.Tree

/-! The installer that carries out a plan on the VFS tree (`pkg/install_fs.rs`). -/

namespace PaghOS.Pkg

open Vfs Effect

inductive InstallError where
  | noSpace (path : Path)
  | vfs (e : VfsError)
  deriving DecidableEq

abbrev InstallM (α : Type) := VfsM InstallError α

def joinAbs (root rel : Path) : Path := root.rdropWhile (· = '/') ++ '/' :: rel

def walkErr : WalkError → VfsError
  | .notFound => .notFound
  | .notDir => .invalidArgument
  | .tooManyLinks => .invalidArgument
  | .tooLong => .invalidArgument

def vfsErr {α : Type} (e : VfsError) : InstallM α := throw (.fails (.vfs e))

def storageErr {α : Type} (abs : Path) (e : VfsError) : InstallM α :=
  throw (.fails (if e = .ioError then .noSpace abs else .vfs e))

section Install

variable (env : Storage)

/-- The loop of `resolve_parent`: `dir` is where the path `walked` has led. -/
def descend (abs : Path) : Path → NodeId → List Name → InstallM NodeId
  | _, dir, [] => pure dir
  | walked, dir, comp :: dirs => do
      let s ← get
      match s.tree.lookupPathWalk (walked ++ '/' :: comp) true with
      | .ok child => descend abs (walked ++ '/' :: comp) child dirs
      | .error _ => do
          let made ← createDir env dir comp
          match made with
          | .ok child => descend abs (walked ++ '/' :: comp) child dirs
          | .error .alreadyExists => do
              let s ← get
              match s.tree.lookupPathWalk (walked ++ '/' :: comp) true with
              | .ok child => descend abs (walked ++ '/' :: comp) child dirs
              | .error e => vfsErr (walkErr e)
          | .error e => storageErr abs e

def resolveParent (root rel abs : Path) : InstallM (NodeId × Name) :=
  match (pathComps rel).getLast? with
  | none => vfsErr .invalidArgument
  | some filename => do
      let s ← get
      match s.tree.lookupPathWalk root true with
      | .error e => vfsErr (walkErr e)
      | .ok dir => do
          let parent ← descend env abs (root.rdropWhile (· = '/')) dir (pathComps rel).dropLast
          pure (parent,filename)

/-- Make room for a new entry: an existing one is removed, unless it is a
directory. Returns whether the entry can be made. -/
def clearName (dir : NodeId) (filename : Name) : InstallM Bool := do
  let s ← get
  match s.tree.lookup dir filename with
  | .ok existing =>
    if s.tree.isDirectory existing then pure false
    else do
      let removed ← remove env dir filename
      match removed with
      | .ok _ => pure true
      | .error e => vfsErr e
  | .error .notFound => pure true
  | .error e => vfsErr e

/-- The directory and name a member's entry goes to, and whether the name is
free now. -/
def freeSlot (root rel : Path) : InstallM (NodeId × Name × Bool) := do
  let slot ← resolveParent env root rel (joinAbs root rel)
  let free ← clearName env slot.1 slot.2
  pure (slot.1,slot.2,free)

def fillSlot (abs : Path) (make : NodeId → Name → InstallM (Except VfsError NodeId))
    (finish : NodeId → Name → NodeId → InstallM Unit) (slot : NodeId × Name × Bool) :
    InstallM Unit :=
  if slot.2.2 then do
    let made ← make slot.1 slot.2.1
    match made with
    | .error e => storageErr abs e
    | .ok id => finish slot.1 slot.2.1 id
  else pure ()

/-- What the three kinds of member have in common: the slot, the call `make`
that puts the entry there, and what is still to do with the new entry. -/
def placeEntry (root rel : Path) (make : NodeId → Name → InstallM (Except VfsError NodeId))
    (finish : NodeId → Name → NodeId → InstallM Unit) : InstallM Unit := do
  let slot ← freeSlot env root rel
  fillSlot (joinAbs root rel) make finish slot

def writeContent (abs : Path) (content : List UInt8) (dir : NodeId) (filename : Name)
    (file : NodeId) : InstallM Unit :=
  if content = [] then pure ()
  else do
    let written ← write env file content
    match written with
    | .ok n =>
      if n = content.length then pure ()
      else do
        let _ ← remove env dir filename
        throw (.fails (.noSpace abs))
    | .error e => do
        let _ ← remove env dir filename
        storageErr abs e

def permBits : Nat := 0o7777

/-- The archive's permission bits; a mode that cannot be stored is only
reported. -/
def applyMode (mode : Nat) (file : NodeId) : InstallM Unit :=
  if mode &&& permBits ≠ 0 then do
    let _ ← setMode env file (mode &&& permBits)
    pure ()
  else pure ()

def installOne (root rel : Path) (content : List UInt8) (mode : Nat) : InstallM Unit :=
  placeEntry env root rel (createFile env) (fun dir filename file => do
    writeContent env (joinAbs root rel) content dir filename file
    applyMode env mode file)

def installSymlink (root rel target : Path) : InstallM Unit :=
  placeEntry env root rel (fun dir filename => createSymlink env dir filename target)
    (fun _ _ _ => pure ())

/-- Returns false when the target is not there yet. The target's last component
is not followed. -/
def installHardlink (root rel target : Path) : InstallM Bool := do
  let s ← get
  match s.tree.lookupPathWalk (joinAbs root target) false with
  | .error _ => pure false
  | .ok targetNode =>
    if s.tree.isDirectory targetNode then pure true
    else do
      placeEntry env root rel (fun dir filename => link env dir filename targetNode)
        (fun _ _ _ => pure ())
      pure true

def installOp (root : Path) : InstallOp → InstallM Bool
  | .file path content mode => do
      installOne env root path content mode
      pure true
  | .symlink path target => do
      installSymlink env root path target
      pure true
  | .hardlink path target => installHardlink env root path target

/-- The members in plan order, then the hard links without a target again and
again while that makes progress. Returns the number installed. -/
def installDataTar (entries : List TarEntry) (root : Path) : InstallM Nat :=
  settle (installOp env root) (planInstall entries).ops

end Install

end PaghOS.Pkg
