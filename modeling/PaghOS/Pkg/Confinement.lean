import Mathlib.Logic.Relation
import PaghOS.Pkg.InstallFs
import PaghOS.Vfs.Changes

/-!
Where an installation reaches. The nodes below the installation root are the
ones it may change; a member leaves them when the links in the tree it is
installed into lead its parent directory, or the target of its hard link,
somewhere else.
-/

namespace PaghOS.Pkg
open List

open Vfs Effect

variable {id dir : NodeId} {name comp : Name}
    {make : NodeId → Name → InstallM (Except VfsError NodeId)} {walked : Path}
    {finish : NodeId → Name → NodeId → InstallM Unit} {rest missing : List Name} {α : Type}
variable {dirs : List Name} {new : List NodeId} {node : Node} {file : NodeId}
    {Q : α → VfsState → Prop} {a : α} {op : InstallOp}

/-- `d` is a directory with an entry for `id`. -/
def EntryOf (t : Tree) (d id : NodeId) : Prop :=
  ∃ n, t.nodes d = some n ∧ ∃ e ∈ n.entries, e.2 = id

def Below (t : Tree) (root : Path) (id : NodeId) : Prop :=
  ∃ r, t.lookupPathWalk root true = .ok r ∧ Relation.ReflTransGen (EntryOf t) r id

/-- What an installation into `t` may change: the subtree of the root, and nodes
that do not exist yet. -/
def Mine (t : Tree) (root : Path) (id : NodeId) : Prop := t.nodes id = none ∨ Below t root id

def Confined (t : Tree) (root : Path) (s : VfsState) : Prop := ∀ id ∈ s.changes, Mine t root id

/-- The part of a parent path that can be walked: where it leads, and the
components that are missing there. -/
def walkFar (t : Tree) : Path → NodeId → List Name → Path × NodeId × List Name
  | walked, dir, [] => (walked,dir,[])
  | walked, dir, comp :: dirs =>
    match t.lookupPathWalk (walked ++ '/' :: comp) true with
    | .ok child => walkFar t (walked ++ '/' :: comp) child dirs
    | .error _ => (walked,dir,comp :: dirs)

/-- The directory a member comes to through the links of the tree, the
directories still to be made in it and the member's own name. -/
def landing (t : Tree) (root rel : Path) : Option (NodeId × List Name × Name) :=
  match (pathComps rel).getLast?,t.lookupPathWalk root true with
  | some filename,.ok dir =>
    let far := walkFar t (root.rdropWhile (· = '/')) dir (pathComps rel).dropLast
    some (far.2.1,far.2.2,filename)
  | _,_ => none

def Accepted (m : InstallM (Except VfsError α)) (s : VfsState) : Prop :=
  ∃ a s', m s = .ok (.ok a) s'

section Condition

variable (env : Storage) (root : Path) (mine : NodeId → Prop)

/-- The first change a member asks of the directory it comes to is granted. -/
def Opened (make : NodeId → Name → InstallM (Except VfsError NodeId)) (s : VfsState) (d : NodeId)
    (missing : List Name) (filename : Name) : Prop :=
  match missing with
  | comp :: _ => Accepted (createDir env d comp) s
  | [] =>
    match s.tree.lookup d filename with
    | .ok existing => s.tree.isDirectory existing = false ∧ Accepted (remove env d filename) s
    | .error .notFound => Accepted (make d filename) s
    | .error _ => False

def EntersOutside (rel : Path) (make : NodeId → Name → InstallM (Except VfsError NodeId))
    (s : VfsState) : Prop :=
  ∃ d missing filename, landing s.tree root rel = some (d,missing,filename) ∧ ¬ mine d ∧
    Opened env make s d missing filename

/-- The missing directories, each made in the one before. -/
def makeDirs : NodeId → List Name → VfsState → Option (NodeId × VfsState)
  | d, [], s => some (d,s)
  | d, comp :: rest, s =>
    match (createDir env d comp : InstallM _) s with
    | .ok (.ok child) s' => makeDirs child rest s'
    | _ => none

/-- The entry of a member can be made in `d`: with the directories made that are
missing where it comes to, and its name cleared. -/
def Cleared (rel : Path) (s : VfsState) (d : NodeId) (filename : Name) (s' : VfsState) : Prop :=
  ∃ far missing u, landing s.tree root rel = some (far,missing,filename) ∧
    makeDirs env far missing s = some (d,u) ∧ clearName env d filename u = .ok true s'

/-- A hard link that is granted, to an inode outside. -/
def LinksOutside (rel : Path) (target : NodeId) (s : VfsState) : Prop :=
  ∃ d filename s', Cleared env root rel s d filename s' ∧
    Accepted (link env d filename target) s' ∧ ¬ mine (.ext2 (fsIno env target))

def Leaves (s : VfsState) : InstallOp → Prop
  | .file path _ _ => EntersOutside env root mine path (createFile env) s
  | .symlink path target =>
    EntersOutside env root mine path (fun d name => createSymlink env d name target) s
  | .hardlink path target => ∃ node, s.tree.lookupPathWalk (joinAbs root target) false = .ok node ∧
      s.tree.isDirectory node = false ∧
      (EntersOutside env root mine path (fun d name => link env d name node) s ∨
        LinksOutside env root mine path node s)

end Condition

/-- `I` survives every edit of our own nodes, and the entries of our directories are ours. -/
structure Allowed (I : VfsState → Prop) (mine : NodeId → Prop) : Prop where
  edit : ∀ {s s' : VfsState} {new : List NodeId}, I s → Edit s s' new → (∀ id ∈ new, mine id) → I s'
  lookup : ∀ {s : VfsState} {d id : NodeId} {name : Name}, I s → mine d →
    s.tree.lookup d name = .ok id → mine id

section Allowed

variable {I : VfsState → Prop} {mine : NodeId → Prop} {s s' : VfsState} {d : NodeId}
  (hI : Allowed I mine) (env : Storage)

include hI

theorem Allowed.still (h : I s) (he : Edit s s' []) : I s' := hI.edit h he (by simp)

theorem Allowed.within (hid : mine id) (h : I s) (hw : Within s s' id) : I s' := by
  obtain ⟨new,hnew,he⟩ := hw
  exact hI.edit h he fun i hi => mem_singleton.mp (hnew hi) ▸ hid

theorem remove_keeps (h : I s) (hd : mine d) (name : Name) :
    Ends (remove env d name : InstallM _) s (fun _ => I) I := by
  refine (remove_spec env s d name).mono ?_ fun _ he => hI.still h he
  intro r s' hr
  cases r with
  | error e => exact hI.still h hr
  | ok a =>
    obtain ⟨child,hchild,he⟩ := hr
    exact hI.edit h he (by simp [hd,hI.lookup h hd hchild])

theorem clearName_keeps (h : I s) (hd : mine d) (filename : Name) :
    Ends (clearName env d filename) s (fun _ => I) I := by
  refine ends_get_bind ?_
  split
  · split
    · exact ends_pure h
    refine ends_bind (remove_keeps hI env h hd filename) ?_
    intro removed s' hs'
    split
    · exact ends_pure hs'
    · exact ends_throw hs'
  · exact ends_pure h
  · exact ends_throw h

theorem writeContent_keeps (abs : Path) (content : List UInt8) (name : Name) (h : I s) (hd : mine d)
    (hfile : mine file) : Ends (writeContent env abs content d name file) s (fun _ => I) I := by
  unfold writeContent
  split
  · exact ends_pure h
  refine ends_bind ((write_spec env s file content).mono (fun _ _ => hI.within hfile h)
    (fun _ hf => hf.elim)) ?_
  intro written s' hs'
  have hdrop : ∀ e, Ends (do
      let _ ← remove env d name
      throw e : InstallM Unit) s' (fun _ => I) I :=
    fun e => ends_bind (remove_keeps hI env hs' hd name) fun _ _ hs'' => ends_throw hs''
  split
  · split
    · exact ends_pure hs'
    · exact hdrop _
  · exact hdrop _

theorem applyMode_keeps (mode : Nat) (h : I s) (hfile : mine file) :
    Ends (applyMode env mode file) s (fun _ => I) I := by
  unfold applyMode
  split
  · exact ends_bind ((setMode_spec env s file _).mono (fun _ _ => hI.within hfile h)
      (fun _ hf => hf.elim)) fun _ _ hs' => ends_pure hs'
  · exact ends_pure h

end Allowed

/-! Everything the installer does is in the record of changes. -/

def Grew (s s' : VfsState) : Prop := ∃ new, Edit s s' new

def Grows (m : InstallM α) : Prop := ∀ s, Ends m s (fun _ => Grew s) (Grew s)

theorem grew_refl (s : VfsState) : Grew s s := ⟨[],Edit.refl s⟩

theorem Grew.trans {s s' s'' : VfsState} (h : Grew s s') (h' : Grew s' s'') : Grew s s'' := by
  obtain ⟨new,h⟩ := h
  obtain ⟨new',h'⟩ := h'
  exact ⟨new' ++ new,h.trans h'⟩

theorem Grew.mem {s s' : VfsState} (h : Grew s s') (hid : id ∈ s.changes) : id ∈ s'.changes := by
  obtain ⟨new,h⟩ := h
  exact h.mem_changes hid

theorem grew_allowed (s : VfsState) : Allowed (Grew s) (fun _ => True) :=
  ⟨fun h he _ => h.trans ⟨_,he⟩,fun _ _ _ => trivial⟩

theorem grows_pure (a : α) : Grows (pure a) := fun s => ends_pure (grew_refl s)

theorem grows_throw (e : Halt InstallError) : Grows (throw e : InstallM α) :=
  fun s => ends_throw (grew_refl s)

theorem grows_get_bind {f : VfsState → InstallM α} (hf : ∀ s, Grows (f s)) :
    Grows (get >>= f) := fun s => ends_get_bind (hf s s)

theorem Grows.bind {β : Type} {m : InstallM α} {f : α → InstallM β} (hm : Grows m)
    (hf : ∀ a, Grows (f a)) : Grows (m >>= f) := by
  intro s
  refine ends_bind (hm s) fun a t ht => (hf a t).mono ?_ ?_
  · exact fun _ _ h => ht.trans h
  · exact fun _ h => ht.trans h

theorem grows_answers {m : InstallM (Except VfsError α)}
    {Q : VfsState → α → VfsState → Prop} (hQ : ∀ s a s', Q s a s' → Grew s s')
    (h : ∀ s, Ends m s (Answers s (Q s)) (Edit s · [])) : Grows m := by
  intro s
  refine (h s).mono ?_ fun t ht => ⟨[],ht⟩
  intro r t hr
  cases r with
  | error e => exact ⟨[],hr⟩
  | ok a => exact hQ s a t hr

section Grows

variable (env : Storage)

theorem createDir_grows (d : NodeId) (name : Name) : Grows (createDir env d name) :=
  grows_answers (fun _ _ _ h => ⟨_,h.edit⟩) fun s => createDir_spec env s d name

/-- A call that puts an entry into a directory, or fails and changes nothing. -/
def Makes (make : NodeId → Name → InstallM (Except VfsError NodeId)) : Prop :=
  ∀ s d name, Ends (make d name) s (Answers s (fun id s' => Edit s s' [d,id])) (Edit s · [])

theorem Makes.grows (h : Makes make) (d : NodeId) (name : Name) : Grows (make d name) :=
  grows_answers (fun _ _ _ he => ⟨_,he⟩) fun s => h s d name

theorem createFile_makes : Makes (createFile env) := fun s d name =>
  (createFile_spec env s d name).mono (fun _ _ hr => hr.mono fun _ hm => hm.edit) fun _ he => he

theorem createSymlink_makes (target : Path) :
    Makes (fun d name => createSymlink env d name target) := fun s d name =>
  (createSymlink_spec env s d name target).mono (fun _ _ hr => hr.mono fun _ hm => hm.edit)
    (fun _ he => he)

theorem link_makes (target : NodeId) : Makes (fun d name => link env d name target) :=
  fun s d name => (link_spec env s d name target).mono (fun _ _ hr => hr.mono fun _ hm => hm.2)
    (fun _ he => he)

theorem descend_grows (abs : Path) (dirs : List Name) (walked : Path) (dir : NodeId) :
    Grows (descend env abs walked dir dirs) := by
  induction dirs generalizing walked dir with
  | nil => exact grows_pure _
  | cons comp dirs ih =>
    refine grows_get_bind fun s => ?_
    split
    · exact ih _ _
    refine (createDir_grows env dir comp).bind fun made => ?_
    split
    · exact ih _ _
    · refine grows_get_bind (fun s => ?_)
      split
      · exact ih _ _
      · exact grows_throw _
    · exact grows_throw _

theorem clearName_grows (dir : NodeId) (filename : Name) : Grows (clearName env dir filename) :=
  fun s => clearName_keeps (grew_allowed s) env (grew_refl s) trivial filename

theorem freeSlot_grows (root rel : Path) : Grows (freeSlot env root rel) := by
  have hparent : Grows (resolveParent env root rel (joinAbs root rel)) := by
    unfold resolveParent
    split
    · exact grows_throw _
    refine grows_get_bind (fun s => ?_)
    split
    · exact grows_throw _
    · exact (descend_grows env _ _ _ _).bind (fun _ => grows_pure _)
  exact hparent.bind (fun _ => (clearName_grows env _ _).bind (fun _ => grows_pure _))

omit env in
theorem fillSlot_grows (abs : Path) (hmake : Makes make)
    (hfinish : ∀ d name id, Grows (finish d name id)) (slot : NodeId × Name × Bool) :
    Grows (fillSlot abs make finish slot) := by
  unfold fillSlot
  split
  · refine (hmake.grows _ _).bind (fun made => ?_)
    split
    · exact grows_throw _
    · exact hfinish _ _ _
  · exact grows_pure _

theorem placeEntry_grows (root rel : Path) (hmake : Makes make)
    (hfinish : ∀ d name id, Grows (finish d name id)) : Grows (placeEntry env root rel make finish) :=
  (freeSlot_grows env root rel).bind (fillSlot_grows _ hmake hfinish)

theorem writeContent_grows (abs : Path) (content : List UInt8) (dir : NodeId) (filename : Name)
    (file : NodeId) : Grows (writeContent env abs content dir filename file) :=
  fun s => writeContent_keeps (grew_allowed s) env abs content filename (grew_refl s) trivial trivial

theorem applyMode_grows (mode : Nat) (file : NodeId) : Grows (applyMode env mode file) :=
  fun s => applyMode_keeps (grew_allowed s) env mode (grew_refl s) trivial

theorem finishFile_grows (abs : Path) (content : List UInt8) (mode : Nat) (d : NodeId) (name : Name)
    (file : NodeId) : Grows (do
      writeContent env abs content d name file
      applyMode env mode file) :=
  (writeContent_grows env _ _ _ _ _).bind fun _ => applyMode_grows env _ _

theorem installOp_grows (root : Path) (op : InstallOp) : Grows (installOp env root op) := by
  cases op with
  | file path content mode =>
    exact (placeEntry_grows env root path (createFile_makes env) (finishFile_grows env _ content mode)).bind
      (fun _ => grows_pure _)
  | symlink path target =>
    exact (placeEntry_grows env root path (createSymlink_makes env target)
      (fun _ _ _ => grows_pure _)).bind fun _ => grows_pure _
  | hardlink path target =>
    refine grows_get_bind fun s => ?_
    split
    · exact grows_pure _
    split
    · exact grows_pure _
    · exact (placeEntry_grows env root path (link_makes env _)
        (fun _ _ _ => grows_pure _)).bind fun _ => grows_pure _

end Grows

/-! Where the parent path leads. -/

theorem resolve_of_lookupPathWalk {t : Tree} {path : Path} {follow : Bool} {n : NodeId}
    (h : t.lookupPathWalk path follow = .ok n) : resolve t.linkTree follow path = .ok n := by
  unfold Tree.lookupPathWalk at h
  split at h
  · simp at h
  · exact h

section WalkFar

variable {t : Tree}

theorem walkFar_suffix (walked : Path) (dir : NodeId) (dirs : List Name) :
    (walkFar t walked dir dirs).2.2 <:+ dirs := by
  induction dirs generalizing walked dir with
  | nil => exact suffix_refl _
  | cons comp dirs ih =>
    unfold walkFar
    split
    · exact (ih _ _).trans (suffix_cons comp dirs)
    · exact suffix_refl _

theorem walkFar_leads (dirs : List Name) (h : LeadsTo t.linkTree walked dir) :
    LeadsTo t.linkTree (walkFar t walked dir dirs).1 (walkFar t walked dir dirs).2.1 := by
  induction dirs generalizing walked dir with
  | nil => exact h
  | cons comp dirs ih =>
    unfold walkFar
    split
    · rename_i child hchild
      exact ih (leadsTo_of_resolve (resolve_of_lookupPathWalk hchild) rfl le_rfl)
    · exact h

theorem walkFar_stops (h : (walkFar t walked dir dirs).2.2 = comp :: rest) (n : NodeId) :
    t.lookupPathWalk ((walkFar t walked dir dirs).1 ++ '/' :: comp) true ≠ .ok n := by
  induction dirs generalizing walked dir with
  | nil => simp [walkFar] at h
  | cons c dirs ih =>
    unfold walkFar at h ⊢
    split at h
    · rename_i child hchild
      simpa only [hchild] using ih h
    · rename_i e herr
      obtain ⟨rfl,rfl⟩ := cons_eq_cons.mp h
      simp [herr]

theorem descend_walkFar (env : Storage) (abs walked : Path) (dir : NodeId) (dirs : List Name)
    (s : VfsState) : descend env abs walked dir dirs s =
      descend env abs (walkFar s.tree walked dir dirs).1 (walkFar s.tree walked dir dirs).2.1
        (walkFar s.tree walked dir dirs).2.2 s := by
  induction dirs generalizing walked dir with
  | nil => rfl
  | cons comp dirs ih =>
    unfold walkFar
    split
    · rename_i child hchild
      rw [← ih]
      conv_lhs => unfold descend
      rw [get_bind_apply,hchild]
    · rfl

end WalkFar

section Landing

variable {s : VfsState} {root rel : Path} {d : NodeId} {filename : Name} (env : Storage)

/-- The slot is sought from where the member comes to. -/
theorem freeSlot_seeks (h : landing s.tree root rel = some (d,missing,filename)) :
    ∃ walked, freeSlot env root rel s = (do
        let parent ← descend env (joinAbs root rel) walked d missing
        let free ← clearName env parent filename
        pure (parent,filename,free)) s ∧
      LeadsTo s.tree.linkTree walked d ∧ (Normal rel → ∀ c ∈ missing, Proper c) ∧
      ∀ c cs, missing = c :: cs → ∀ n, s.tree.lookupPathWalk (walked ++ '/' :: c) true ≠ .ok n := by
  unfold landing at h
  split at h
  · rename_i name dir hlast hroot
    simp only [Option.some.injEq,Prod.mk.injEq] at h
    obtain ⟨rfl,rfl,rfl⟩ := h
    refine ⟨_,?_,walkFar_leads _ (leadsTo_of_resolve (resolve_of_lookupPathWalk hroot)
      (components_rdropWhile root) (byteLen_rdropWhile_le _ root)),?_,fun c cs hc => walkFar_stops hc⟩
    · simp only [freeSlot,resolveParent,hlast]
      rw [bind_apply,get_bind_apply,hroot]
      dsimp only
      rw [bind_apply,bind_apply,descend_walkFar]
      cases descend _ _ _ _ _ _ <;> rfl
    · exact fun hrel c hc => hrel c (dropLast_subset _ ((walkFar_suffix _ _ _).mem hc))
  · simp at h

theorem freeSlot_lost (h : landing s.tree root rel = none) : ∃ e, freeSlot env root rel s = .error e s := by
  rw [freeSlot,bind_apply,resolveParent]
  cases hlast : (pathComps rel).getLast? with
  | none => exact ⟨_,rfl⟩
  | some filename =>
    cases hroot : s.tree.lookupPathWalk root true with
    | ok dir => simp [landing,hlast,hroot] at h
    | error e =>
      dsimp only
      rw [get_bind_apply,hroot]
      exact ⟨_,rfl⟩

end Landing

/-- A directory just made has nothing below it. -/
theorem made_leads {s s' : VfsState} (hmade : Made s s' dir comp ⟨.dir [],2⟩ id) (hcomp : Proper comp)
    (h : LeadsTo s.tree.linkTree walked dir) : LeadsTo s'.tree.linkTree (walked ++ '/' :: comp) id ∧
      ∀ c, Proper c → ∀ n, s'.tree.lookupPathWalk ((walked ++ '/' :: comp) ++ '/' :: c) true ≠ .ok n := by
  have hleads : LeadsTo s'.tree.linkTree (walked ++ '/' :: comp) id := by
    refine (h.larger hmade.le).snoc hcomp ?_ ?_ ?_
    · simp [Tree.linkTree,hmade.lookup,Except.toOption]
    · simp [Tree.linkTree,Tree.linkTarget,hmade.id_node]
    · simp [Tree.linkTree,Tree.isDirectory,Tree.entries?,hmade.id_node]
  refine ⟨hleads,fun c hc n hn => ?_⟩
  obtain ⟨k,hk⟩ := hleads.lookup hc (resolve_of_lookupPathWalk hn)
  simp [Tree.linkTree,Tree.lookup,Tree.entries?,hmade.id_node,Except.toOption] at hk

section Held

variable {t : Tree} {mine : NodeId → Prop} {s s' : VfsState}
variable {d : NodeId} {root rel : Path}

/-- What holds while an installation into `t` stays inside. -/
structure Held (t : Tree) (mine : NodeId → Prop) (s : VfsState) : Prop where
  outside : ∀ id, ¬ mine id → s.tree.nodes id = t.nodes id
  closed : ∀ d n, mine d → s.tree.nodes d = some n → ∀ e ∈ n.entries, mine e.2
  changes : ∀ id ∈ s.changes, mine id

theorem Held.edit (h : Held t mine s) (he : Edit s s' new)
    (hnew : ∀ id ∈ new, mine id) : Held t mine s' where
  outside := by
    intro id hid
    rw [he.nodes id fun hmem => hid (hnew id hmem),h.outside id hid]
  closed := by
    intro d n hd hn e hmem
    rcases he.entries d n hn e hmem with hin | ⟨m,hm,hold⟩
    · exact hnew _ hin
    · exact h.closed d m hd hm e hold
  changes := by
    intro id hid
    rw [he.changes] at hid
    rcases mem_append.mp hid with hid | hid
    · exact hnew id hid
    · exact h.changes id hid

theorem Held.lookup (h : Held t mine s) (hd : mine d)
    (hl : s.tree.lookup d name = .ok id) : mine id := by
  obtain ⟨es,links,hn,hes,-⟩ := lookup_ok_iff.mp hl
  have hmem : ∃ e ∈ es, e.2 = id := by
    obtain ⟨l₁,l₂,hsplit,-⟩ := lookup_eq_some_iff.mp hes
    exact ⟨(name,id),by simp [hsplit],rfl⟩
  obtain ⟨e,he,rfl⟩ := hmem
  exact h.closed d _ hd hn e he

theorem held_allowed : Allowed (Held t mine) mine :=
  ⟨fun h he hnew => h.edit he hnew,fun h hd hl => h.lookup hd hl⟩

theorem Held.still (h : Held t mine s) (he : Edit s s' []) : Held t mine s' := held_allowed.still h he

variable (hmine : ∀ id, t.nodes id = none → mine id)

include hmine

theorem Held.fresh (h : Held t mine s) (hid : s.tree.nodes id = none) : mine id := by
  by_contra hout
  exact hout (hmine id ((h.outside id hout).symm.trans hid))

theorem Held.made (h : Held t mine s) (hd : mine d)
    (hm : Made s s' d name node id) : Held t mine s' ∧ mine id := by
  have hid : mine id := h.fresh hmine hm.fresh
  exact ⟨h.edit hm.edit (by simp [hd,hid]),hid⟩

variable (env : Storage)

theorem descend_held (abs : Path) (hproper : ∀ c ∈ dirs, Proper c) (h : Held t mine s) (hdir : mine dir)
    (hleads : LeadsTo s.tree.linkTree walked dir)
    (hstop : ∀ c cs, dirs = c :: cs → ∀ n, s.tree.lookupPathWalk (walked ++ '/' :: c) true ≠ .ok n) :
    Ends (descend env abs walked dir dirs) s
      (fun d s' => makeDirs env dir dirs s = some (d,s') ∧ Held t mine s' ∧ mine d)
      (fun s' => makeDirs env dir dirs s = none ∧ Held t mine s') := by
  induction dirs generalizing walked dir s with
  | nil => exact ends_pure ⟨rfl,h,hdir⟩
  | cons comp dirs ih =>
    obtain ⟨hcomp,hproper⟩ := forall_mem_cons.mp hproper
    have hspec : Ends (createDir env dir comp : InstallM _) s _ _ := createDir_spec env s dir comp
    refine ends_get_bind ?_
    cases herr : s.tree.lookupPathWalk (walked ++ '/' :: comp) true with
    | ok child => exact absurd herr (hstop comp dirs rfl child)
    | error e =>
      unfold Ends at hspec ⊢
      dsimp only
      rw [bind_apply]
      cases hrun : (createDir env dir comp : InstallM _) s with
      | error e' s' =>
        rw [hrun] at hspec
        exact ⟨by simp [makeDirs,hrun],h.still hspec⟩
      | ok made s' =>
        rw [hrun] at hspec
        cases made with
        | ok child =>
          obtain ⟨hs',hchild⟩ := h.made hmine hdir hspec
          obtain ⟨hleads,hempty⟩ := made_leads hspec hcomp hleads
          simp only [makeDirs,hrun]
          exact ih hproper hs' hchild hleads fun c cs hc => hempty c (hproper c (by simp [hc]))
        | error e' =>
          have hedit : Edit s s' [] := hspec
          have hnone : makeDirs env dir (comp :: dirs) s = none ∧ Held t mine s' :=
            ⟨by simp [makeDirs,hrun],h.still hedit⟩
          cases e' with
          | alreadyExists =>
            dsimp only
            rw [get_bind_apply,hedit.lookupPathWalk,herr]
            exact hnone
          | _ => exact hnone

theorem making_held {make : InstallM (Except VfsError NodeId)}
    (hmake : Ends make s (Answers s (fun id s' => Made s s' d name node id)) (Edit s · []))
    (h : Held t mine s) (hd : mine d) :
    Ends make s (fun r s' => Held t mine s' ∧ ∀ id, r = .ok id → mine id) (Held t mine) := by
  refine hmake.mono ?_ fun _ he => h.still he
  intro r s' hr
  cases r with
  | error e => exact ⟨h.still hr,by simp⟩
  | ok id =>
    obtain ⟨hs',hid⟩ := h.made hmine hd hr
    exact ⟨hs',fun i hi => Except.ok.inj hi ▸ hid⟩

omit hmine in
theorem linking_held {target : NodeId} (h : Held t mine s) (hd : mine d)
    (hino : Accepted (link env d name target) s → mine (.ext2 (fsIno env target))) :
    Ends (link env d name target : InstallM _) s
      (fun r s' => Held t mine s' ∧ ∀ id, r = .ok id → mine id) (Held t mine) := by
  refine (link_spec env s d name target).mono_of_eq ?_ fun _ he => h.still he
  intro r s' hrun hr
  cases r with
  | error e => exact ⟨h.still hr,by simp⟩
  | ok id =>
    obtain ⟨rfl,he⟩ := hr
    have hid := hino ⟨_,s',hrun⟩
    exact ⟨h.edit he (by simp [hd,hid]),fun i hi => Except.ok.inj hi ▸ hid⟩

variable (hrel : Normal rel) (h : Held t mine s)
  (hland : ∀ d missing filename, landing s.tree root rel = some (d,missing,filename) → mine d)

include hrel h hland

theorem freeSlot_held : Ends (freeSlot env root rel) s
    (fun r s' => (∀ d name u, Cleared env root rel s d name u ↔ r = (d,name,true) ∧ s' = u) ∧
      Held t mine s' ∧ mine r.1)
    (fun s' => (∀ d name u, ¬ Cleared env root rel s d name u) ∧ Held t mine s') := by
  unfold Ends
  cases hplace : landing s.tree root rel with
  | none =>
    obtain ⟨e,he⟩ := freeSlot_lost env hplace
    rw [he]
    exact ⟨by simp [Cleared,hplace],h⟩
  | some place =>
    obtain ⟨far,missing,filename⟩ := place
    obtain ⟨walked,hseek,hleads,hproper,hstop⟩ := freeSlot_seeks env hplace
    have hdirs := descend_held hmine env (joinAbs root rel) (hproper hrel) h (hland _ _ _ hplace) hleads hstop
    unfold Ends at hdirs
    rw [hseek,bind_apply]
    cases hrun : descend env (joinAbs root rel) walked far missing s with
    | error e s' =>
      rw [hrun] at hdirs
      exact ⟨by simp [Cleared,hplace,hdirs.1],hdirs.2⟩
    | ok d s' =>
      rw [hrun] at hdirs
      obtain ⟨hmade,hs',hd⟩ := hdirs
      have hiff : ∀ d' name u, Cleared env root rel s d' name u ↔
          (d',name) = (d,filename) ∧ clearName env d filename s' = .ok true u := by
        intro d' name u
        constructor
        · rintro ⟨_,_,_,hplace',hmade',hclear⟩
          cases hplace.symm.trans hplace'
          cases hmade.symm.trans hmade'
          exact ⟨rfl,hclear⟩
        · rintro ⟨heq,hclear⟩
          cases heq
          exact ⟨far,missing,s',hplace,hmade,hclear⟩
      have hname := clearName_keeps held_allowed env hs' hd filename
      unfold Ends at hname
      dsimp only
      rw [bind_apply]
      cases hclear : clearName env d filename s' with
      | error e u =>
        rw [hclear] at hname
        exact ⟨by simp [hiff,hclear],hname⟩
      | ok free u =>
        rw [hclear] at hname
        refine ⟨fun d' name u' => ?_,hname,hd⟩
        rw [hiff,hclear]
        grind

/-- Making an entry in our own directory, and finishing it, stay inside. -/
structure Placing (t : Tree) (mine : NodeId → Prop) (slot : NodeId → Name → VfsState → Prop)
    (make : NodeId → Name → InstallM (Except VfsError NodeId))
    (finish : NodeId → Name → NodeId → InstallM Unit) : Prop where
  make : ∀ d name s, slot d name s → Held t mine s → mine d →
    Ends (make d name) s (fun r s' => Held t mine s' ∧ ∀ id, r = .ok id → mine id) (Held t mine)
  finish : ∀ d name id s, Held t mine s → mine d → mine id →
    Ends (finish d name id) s (fun _ => Held t mine) (Held t mine)

omit hmine h hland in
theorem freeSlot_of_cleared (hclear : Cleared env root rel s d name s') :
    freeSlot env root rel s = .ok (d,name,true) s' := by
  have hall : Held s.tree (fun _ => True) s := ⟨by simp,by simp,by simp⟩
  have hslot : Ends (freeSlot env root rel) s _ _ :=
    freeSlot_held (fun _ _ => trivial) env hrel hall fun _ _ _ _ => trivial
  unfold Ends at hslot
  cases hrun : freeSlot env root rel s with
  | error e u =>
    rw [hrun] at hslot
    exact absurd hclear (hslot.1 d name s')
  | ok r u =>
    rw [hrun] at hslot
    obtain ⟨rfl,rfl⟩ := (hslot.1 d name s').mp hclear
    rfl

theorem placeEntry_held
    (hplace : Placing t mine (Cleared env root rel s) make finish) :
    Ends (placeEntry env root rel make finish) s (fun _ => Held t mine) (Held t mine) := by
  refine ends_bind ((freeSlot_held hmine env hrel h hland).mono (fun _ _ hr => hr) fun _ hr => hr.2) ?_
  rintro ⟨d,name,free⟩ s' ⟨hclear,hs',hd⟩
  cases free with
  | false => exact ends_pure hs'
  | true =>
    refine ends_bind (hplace.make d name s' ((hclear d name s').mpr ⟨rfl,rfl⟩) hs' hd) ?_
    rintro made s'' ⟨hs'',hid⟩
    cases made with
    | error e => exact ends_throw hs''
    | ok id => exact hplace.finish d name id s'' hs'' hd (hid id rfl)

end Held

/-! A directory outside is left as it was when it grants nothing, and in the record
of changes when it does. -/

section Lands

variable (env : Storage) {root rel : Path} {s s' : VfsState} {d : NodeId} {filename : Name} {granted : Prop}

def Answered (granted : Prop) (d : NodeId) (s s' : VfsState) : Prop :=
  (granted → d ∈ s'.changes) ∧ (¬ granted → Edit s s' [])

theorem answered_granted (h : granted) (hmem : d ∈ s'.changes) : Answered granted d s s' :=
  ⟨fun _ => hmem,fun hno => absurd h hno⟩

theorem answered_refused (h : ¬ granted) (he : Edit s s' []) : Answered granted d s s' :=
  ⟨fun hok => absurd hok h,fun _ => he⟩

theorem Grows.lands {m : InstallM α} (hm : Grows m) (h : granted) (hmem : d ∈ s'.changes) :
    Ends m s' (fun _ u => granted ∧ d ∈ u.changes) (Answered granted d s) :=
  (hm s').mono (fun _ _ hg => ⟨h,hg.mem hmem⟩) fun _ hg => answered_granted h (hg.mem hmem)

theorem mem_of_edit (he : Edit s s' (d :: new)) : d ∈ s'.changes := by
  rw [he.changes]
  simp

/-- A request that decides whether anything is granted at all. -/
theorem ends_bind_accepted {β : Type} {m : InstallM (Except VfsError α)} {f : Except VfsError α → InstallM β}
    {P : β → VfsState → Prop} (hm : Ends m s (Answers s Q) (Edit s · []))
    (hQ : ∀ a s', Q a s' → d ∈ s'.changes) (hgranted : granted ↔ Accepted m s)
    (hok : ∀ a s', granted → d ∈ s'.changes → Ends (f (.ok a)) s' P (Answered granted d s))
    (herr : ∀ e s', ¬ granted → Edit s s' [] → Ends (f (.error e)) s' P (Answered granted d s)) :
    Ends (m >>= f) s P (Answered granted d s) := by
  unfold Ends at hm ⊢
  rw [bind_apply]
  cases h : m s with
  | error e s' =>
    rw [h] at hm
    exact answered_refused (by simp [hgranted,Accepted,h]) hm
  | ok r s' =>
    rw [h] at hm
    cases r with
    | error e => exact herr e s' (by simp [hgranted,Accepted,h]) hm
    | ok a => exact hok a s' (hgranted.mpr ⟨a,s',h⟩) (hQ a s' hm)

theorem descend_lands (abs walked : Path) (rest : List Name)
    (hstop : ∀ n, s.tree.lookupPathWalk (walked ++ '/' :: comp) true ≠ .ok n) :
    Ends (descend env abs walked d (comp :: rest)) s
      (fun _ s' => Accepted (createDir env d comp : InstallM _) s ∧ d ∈ s'.changes)
      (Answered (Accepted (createDir env d comp : InstallM _) s) d s) := by
  refine ends_get_bind ?_
  split
  · rename_i child hchild
    exact absurd hchild (hstop child)
  rename_i e herr
  refine ends_bind_accepted (createDir_spec env s d comp) (fun _ _ hm => mem_of_edit hm.edit) .rfl ?_ ?_
  · intro child s' hok hmem
    exact (descend_grows env abs rest _ child).lands hok hmem
  · intro e' s' hno he
    cases e' with
    | alreadyExists =>
      refine ends_get_bind ?_
      rw [he.lookupPathWalk,herr]
      exact ends_throw (answered_refused hno he)
    | _ => exact ends_throw (answered_refused hno he)

theorem clearName_lands : Ends (clearName env d name) s
    (fun free s' => (Opened env make s d [] name ∧ d ∈ s'.changes) ∨
      (free = false ∧ ¬ Opened env make s d [] name ∧ s' = s) ∨
      free = true ∧ s' = s ∧ (Opened env make s d [] name ↔ Accepted (make d name) s))
    (Answered (Opened env make s d [] name) d s) := by
  refine ends_get_bind ?_
  cases hl : s.tree.lookup d name with
  | ok existing =>
    cases hdir : s.tree.isDirectory existing with
    | true =>
      simp only [hdir,if_true]
      exact ends_pure (.inr (.inl ⟨rfl,by simp [Opened,hl,hdir],rfl⟩))
    | false =>
      simp only [hdir,Bool.false_eq_true,if_false]
      refine ends_bind_accepted (remove_spec env s d name) (fun _ _ ⟨_,_,he⟩ => mem_of_edit he)
        (by simp [Opened,hl,hdir]) ?_ ?_
      · exact fun _ _ hok hmem => ends_pure (.inl ⟨hok,hmem⟩)
      · exact fun _ _ hno he => ends_throw (answered_refused hno he)
  | error e =>
    cases e with
    | notFound => exact ends_pure (.inr (.inr ⟨rfl,rfl,by simp [Opened,hl]⟩))
    | _ => exact ends_throw (answered_refused (by simp [Opened,hl]) (Edit.refl s))

theorem freeSlot_lands (hland : landing s.tree root rel = some (d,missing,filename)) :
    Ends (freeSlot env root rel) s
      (fun r s' => (Opened env make s d missing filename ∧ d ∈ s'.changes) ∨
        (r.2.2 = false ∧ ¬ Opened env make s d missing filename ∧ s' = s) ∨
        r = (d,filename,true) ∧ s' = s ∧
          (Opened env make s d missing filename ↔ Accepted (make d filename) s))
      (Answered (Opened env make s d missing filename) d s) := by
  obtain ⟨walked,hseek,-,-,hstop⟩ := freeSlot_seeks env hland
  unfold Ends
  rw [hseek]
  cases missing with
  | nil =>
    rw [descend,pure_bind]
    refine ends_bind (clearName_lands env) (fun free s'' h => ends_pure ?_)
    exact h.imp_right (Or.imp_right fun ⟨hfree,h⟩ => ⟨hfree ▸ rfl,h⟩)
  | cons comp rest =>
    refine ends_bind (descend_lands env _ walked rest (hstop comp rest rfl)) fun parent s' ⟨hok,hmem⟩ => ?_
    exact (((clearName_grows env _ _).bind fun _ => grows_pure _).lands hok hmem).mono
      (fun _ _ h => .inl h) fun _ h => h

theorem placeEntry_lands (hmake : Makes make) (hfinish : ∀ d name id, Grows (finish d name id))
    (hland : landing s.tree root rel = some (d,missing,filename)) :
    Ends (placeEntry env root rel make finish) s
      (fun _ => Answered (Opened env make s d missing filename) d s)
      (Answered (Opened env make s d missing filename) d s) := by
  refine ends_bind (freeSlot_lands env hland) ?_
  rintro slot s' (⟨hok,hmem⟩ | ⟨hfree,hno,rfl⟩ | ⟨rfl,rfl,hiff⟩)
  · exact ((fillSlot_grows _ hmake hfinish _).lands hok hmem).mono
      (fun _ _ h => answered_granted h.1 h.2) fun _ h => h
  · obtain ⟨d',name,free⟩ := slot
    obtain rfl : free = false := hfree
    exact ends_pure (answered_refused hno (Edit.refl _))
  · refine ends_bind_accepted (hmake s' d filename) (fun _ _ he => mem_of_edit he) hiff ?_ ?_
    · exact fun _ _ hok hmem => ((hfinish _ _ _).lands hok hmem).mono
        (fun _ _ h => answered_granted h.1 h.2) fun _ h => h
    · exact fun _ _ hno he => ends_throw (answered_refused hno he)

end Lands

/-! One member, then the whole archive. -/

section Installing

variable {t : Tree} {mine : NodeId → Prop} (hmine : ∀ id, t.nodes id = none → mine id)
  (env : Storage) {root rel : Path} {s : VfsState} {d : NodeId} {filename : Name}

include hmine

theorem placeEntry_stays (hrel : Normal rel) (h : Held t mine s) (hspec : Makes make)
    (hfinish : ∀ d name id, Grows (finish d name id))
    (hplace : Placing t mine (Cleared env root rel s) make finish)
    (hstay : ¬ EntersOutside env root mine rel make s) :
    Held t mine (final (placeEntry env root rel make finish) s) := by
  apply Ends.final
  by_cases hout : ∃ d missing filename, landing s.tree root rel = some (d,missing,filename) ∧ ¬ mine d
  · obtain ⟨d,missing,filename,hland,hd⟩ := hout
    have hno : ¬ Opened env make s d missing filename :=
      fun hopen => hstay ⟨d,missing,filename,hland,hd,hopen⟩
    exact (placeEntry_lands env hspec hfinish hland).mono (fun _ _ he => h.still (he.2 hno))
      (fun _ he => h.still (he.2 hno))
  · refine placeEntry_held hmine env hrel h ?_ hplace
    intro d missing filename hland
    by_contra hd
    exact hout ⟨d,missing,filename,hland,hd⟩

theorem installOp_stays (hop : Normal op.path) (h : Held t mine s)
    (hstay : ¬ Leaves env root mine s op) : Held t mine (final (installOp env root op) s) := by
  cases op with
  | file path content mode =>
    simp only [installOp,final_map]
    refine placeEntry_stays hmine env hop h (createFile_makes env) (finishFile_grows env _ content mode)
      ⟨fun d name s' _ hs' hd => making_held hmine (createFile_spec env s' d name) hs' hd,?_⟩ hstay
    intro d name id s' hs' hd hid
    exact ends_bind (writeContent_keeps held_allowed env _ content name hs' hd hid)
      (fun _ _ hs'' => applyMode_keeps held_allowed env mode hs'' hid)
  | symlink path target =>
    simp only [installOp,final_map]
    exact placeEntry_stays hmine env hop h (createSymlink_makes env target) (fun _ _ _ => grows_pure _)
      ⟨fun d name s' _ hs' hd => making_held hmine (createSymlink_spec env s' d name target) hs' hd,
        fun _ _ _ _ hs' _ _ => ends_pure hs'⟩ hstay
  | hardlink path target =>
    refine Ends.final (ends_get_bind ?_)
    split
    · exact ends_pure h
    rename_i node hnode
    split
    · exact ends_pure h
    rename_i hdir
    have hdir : s.tree.isDirectory node = false := by simpa using hdir
    have hstay : ¬ (EntersOutside env root mine path (fun d name => link env d name node) s ∨
        LinksOutside env root mine path node s) := fun hout => hstay ⟨node,hnode,hdir,hout⟩
    apply ends_of_final
    rw [final_map]
    refine placeEntry_stays hmine env hop h (link_makes env node) (fun _ _ _ => grows_pure _)
      ⟨?_,fun _ _ _ _ hs' _ _ => ends_pure hs'⟩ fun hout => hstay (.inl hout)
    intro d name s' hslot hs' hd
    refine linking_held env hs' hd fun hok => ?_
    by_contra hino
    exact hstay (.inr ⟨d,name,s',hslot,hok,hino⟩)

omit hmine in
theorem placeEntry_opened (hmake : Makes make) (hfinish : ∀ d name id, Grows (finish d name id))
    (hland : landing s.tree root rel = some (d,missing,filename))
    (hopen : Opened env make s d missing filename) :
    d ∈ (final (placeEntry env root rel make finish) s).changes :=
  (placeEntry_lands env hmake hfinish hland).final.1 hopen

omit hmine in
theorem installOp_leaves (hop : Normal op.path) (hout : Leaves env root mine s op) :
    ∃ id ∈ (final (installOp env root op) s).changes, ¬ mine id := by
  cases op with
  | file path content mode =>
    obtain ⟨d,missing,filename,hland,hd,hopen⟩ := hout
    refine ⟨d,?_,hd⟩
    simp only [installOp,final_map]
    exact placeEntry_opened env (createFile_makes env) (finishFile_grows env _ content mode) hland hopen
  | symlink path target =>
    obtain ⟨d,missing,filename,hland,hd,hopen⟩ := hout
    refine ⟨d,?_,hd⟩
    simp only [installOp,final_map]
    exact placeEntry_opened env (createSymlink_makes env target) (fun _ _ _ => grows_pure _) hland
      hopen
  | hardlink path target =>
    obtain ⟨node,hnode,hdir,hout⟩ := hout
    have hrun : final (installOp env root (.hardlink path target)) s =
        final (placeEntry env root path (fun d name => link env d name node) fun _ _ _ => pure ()) s := by
      rw [← final_map (placeEntry _ _ _ _ _) fun _ => true]
      simp only [final,installOp,installHardlink]
      rw [get_bind_apply]
      simp [hnode,hdir]
    rw [hrun]
    rcases hout with ⟨d,missing,filename,hland,hd,hopen⟩ | ⟨d,filename,s',hslot,hok,hino⟩
    · exact ⟨d,placeEntry_opened env (link_makes env node) (fun _ _ _ => grows_pure _) hland hopen,hd⟩
    obtain ⟨id,s'',hlink⟩ := hok
    have hspec : Ends (link env d filename node : InstallM _) s' _ _ := link_spec env s' d filename node
    simp only [Ends,hlink] at hspec
    obtain ⟨rfl,he⟩ := hspec
    refine ⟨_,?_,hino⟩
    rw [placeEntry,final_bind,freeSlot_of_cleared env (show Normal path from hop) hslot]
    simp only [fillSlot,if_true]
    rw [final_bind,hlink]
    change _ ∈ s''.changes
    rw [he.changes]
    simp

end Installing

theorem held_start (t : Tree) (root : Path) : Held t (Mine t root) (.start t) where
  outside := fun _ _ => rfl
  closed := by
    intro d n hd hn e he
    rcases hd with hnone | ⟨r,hr,hreach⟩
    · have hn : t.nodes d = some n := hn
      simp [hnone] at hn
    · exact .inr ⟨r,hr,hreach.tail ⟨n,hn,e,he,rfl⟩⟩
  changes := by simp [VfsState.start]

/-- An installation keeps to the subtree of its root exactly when no member, in
the tree it is installed into, is led out of it. -/
theorem installDataTar_confined_iff (env : Storage) (t : Tree) (entries : List TarEntry) (root : Path) :
    Confined t root (final (installDataTar env entries root) (.start t)) ↔
      ∀ v ∈ visits (installOp env root) (planInstall entries).ops (.start t),
        ¬ Leaves env root (Mine t root) v.1 v.2 := by
  have hkeep : ∀ op, Keeps (fun s => ¬ Confined t root s) (installOp env root op) := by
    intro op s hs hconf
    have hgrew : Grew s (final (installOp env root op) s) := (installOp_grows env root op s).final
    exact hs fun id hid => hconf id (hgrew.mem hid)
  refine settle_safe_iff (A := fun op => Normal op.path) (I := Held t (Mine t root)) ?_ ?_ hkeep
    (fun s hs => hs.changes) _ (planInstall_normal entries) (held_start t root)
  · intro s op hop hs hstay
    exact installOp_stays (fun id hid => .inl hid) env hop hs hstay
  · intro s op hop hs hout hconf
    obtain ⟨id,hid,hmine⟩ := installOp_leaves env hop hout
    exact hmine (hconf id hid)

def emptyVolume : Tree where
  nodes := fun
    | .fixed 0 => some ⟨.dir [("mnt".toList,.ext2 2),("tmp".toList,.ram 0)],2⟩
    | .ram 0 => some ⟨.dir [],2⟩
    | .ext2 2 => some ⟨.dir [],2⟩
    | _ => none
  nextRam := 1
  ramFresh := by
    intro n hn
    obtain ⟨k,rfl⟩ : ∃ k, n = k+1 := ⟨n-1,by omega⟩
    rfl

def reliable : Storage := ⟨16,fun _ => false,fun _ => 0,fun _ => 0⟩

def linkThenFile (target : Path) : List TarEntry :=
  [⟨"./d".toList,[],.symlink,0o777,[],target⟩,⟨"./d/evil".toList,[],.regular,0o644,[1,2],[]⟩]

/-- A link that leads back inside does no harm. -/
example : Confined emptyVolume "/mnt".toList (final (installDataTar reliable
    (linkThenFile "/mnt".toList) "/mnt".toList) (.start emptyVolume)) := by
  suffices h : ∀ id ∈ VfsState.changes _, id = .ext2 2 ∨ emptyVolume.nodes id = none from fun id hid =>
    (h id hid).elim (fun heq => .inr ⟨.ext2 2,by decide +kernel,heq ▸ .refl⟩) .inl
  decide +kernel

/-- The tree has no link at all, yet the file is made in `/tmp`. -/
theorem installDataTar_escapes : (∀ id target links, emptyVolume.nodes id ≠ some ⟨.symlink target,links⟩) ∧
      ¬ Confined emptyVolume "/mnt".toList (final (installDataTar reliable
        (linkThenFile "/tmp".toList) "/mnt".toList) (.start emptyVolume)) := by
  constructor
  · intro id target links
    unfold emptyVolume
    simp only
    split <;> simp
  intro hconf
  have htmp := hconf (.ram 0) (by decide +kernel)
  rcases htmp with hnone | ⟨r,hr,hreach⟩
  · simp [emptyVolume] at hnone
  have hroot : emptyVolume.lookupPathWalk "/mnt".toList true = .ok (.ext2 2) := by
    decide +kernel
  obtain rfl := Except.ok.inj (hroot.symm.trans hr)
  rcases Relation.ReflTransGen.cases_head hreach with h | ⟨x,⟨n,hn,e,he,-⟩,-⟩
  · cases h
  · obtain rfl := Option.some.inj hn
    simp [Node.entries] at he

end PaghOS.Pkg
