import PaghOS.Vfs.Tree

/-!
What the node operations change. Each operation is described once: which nodes
it adds to the record of changes, and that nothing else is different.
-/

namespace PaghOS.Vfs
open List Option Node

open Effect

variable {α : Type}
variable {Q : α → VfsState → Prop} {f : Node → Option Node} {i : NodeId} {E : VfsState → Prop}

def Node.entries (n : Node) : List (Name × NodeId) :=
  match n.body with
  | .dir entries => entries
  | _ => []

/-- From `s` to `s'` the nodes in `new` were changed and no other; a name that
is new refers to one of them. -/
structure Edit (s s' : VfsState) (new : List NodeId) : Prop where
  changes : s'.changes = new ++ s.changes
  nodes : ∀ i, i ∉ new → s'.tree.nodes i = s.tree.nodes i
  entries : ∀ d n', s'.tree.nodes d = some n' → ∀ e ∈ n'.entries,
    e.2 ∈ new ∨ ∃ n, s.tree.nodes d = some n ∧ e ∈ n.entries

namespace Edit

variable {s s' s'' : VfsState} {new new' : List NodeId}

theorem refl (s : VfsState) : Edit s s [] where
  changes := rfl
  nodes := fun _ _ => rfl
  entries := fun _ n hn _ he => .inr ⟨n,hn,he⟩

theorem trans (h : Edit s s' new) (h' : Edit s' s'' new') : Edit s s'' (new' ++ new) where
  changes := by rw [h'.changes,h.changes,append_assoc]
  nodes := by
    intro i hi
    simp only [mem_append,not_or] at hi
    rw [h'.nodes i hi.1,h.nodes i hi.2]
  entries := by
    intro d n'' hn'' e he
    rcases h'.entries d n'' hn'' e he with hnew | ⟨n',hn',he'⟩
    · exact .inl (mem_append_left _ hnew)
    · rcases h.entries d n' hn' e he' with hnew | hold
      · exact .inl (mem_append_right _ hnew)
      · exact .inr hold

theorem tick (h : Edit s s' new) (calls : Nat) : Edit s { s' with calls := calls } new :=
  ⟨h.changes,h.nodes,h.entries⟩

theorem alter (h : Edit s s' new) (id : NodeId)
    (hf : ∀ n n', f n = some n' → ∀ e ∈ n'.entries, e.2 ∈ id :: new ∨ e ∈ n.entries) :
    Edit s (s'.alter id f) (id :: new) where
  changes := by simp [VfsState.alter,h.changes]
  nodes := by
    intro i hi
    simp only [mem_cons,not_or] at hi
    simp [VfsState.alter,Tree.alter,hi.1,h.nodes i hi.2]
  entries := by
    intro d n' hn' e he
    have hold : ∀ m, s'.tree.nodes d = some m → e ∈ m.entries →
        e.2 ∈ id :: new ∨ ∃ n, s.tree.nodes d = some n ∧ e ∈ n.entries := by
      intro m hm hem
      rcases h.entries d m hm e hem with hnew | hs
      · exact .inl (mem_cons_of_mem _ hnew)
      · exact .inr hs
    simp only [VfsState.alter,Tree.alter] at hn'
    split at hn'
    · obtain ⟨m,hm,hfm⟩ := bind_eq_some_iff.mp hn'
      rcases hf m n' hfm e he with hnew | hmem
      · exact .inl hnew
      · exact hold m hm hmem
    · exact hold n' hn' he

theorem add (h : Edit s s' new) {t : Tree} {id : NodeId} {node : Node} (hnode : node.entries = [])
    (ht : ∀ i, t.nodes i = if i = id then some node else s'.tree.nodes i) :
    Edit s { s' with tree := t, changes := id :: s'.changes } (id :: new) where
  changes := by simp [h.changes]
  nodes := by
    intro i hi
    simp only [mem_cons,not_or] at hi
    simp [ht,hi.1,h.nodes i hi.2]
  entries := by
    intro d n' hn' e he
    simp only [ht] at hn'
    split at hn'
    · obtain rfl := some.inj hn'
      simp [hnode] at he
    · rcases h.entries d n' hn' e he with hnew | hold
      · exact .inl (mem_cons_of_mem _ hnew)
      · exact .inr hold

theorem mem_changes (h : Edit s s' new) {id : NodeId} (hid : id ∈ s.changes) : id ∈ s'.changes := by
  rw [h.changes]
  exact mem_append_right _ hid

end Edit

variable {n n' : Node}

theorem Node.enter_entries {name : Name} {id : NodeId} (h : n.enter name id = some n') :
    ∀ e ∈ n'.entries, e.2 = id ∨ e ∈ n.entries := by
  unfold Node.enter at h
  intro e he
  split at h
  · rename_i entries hb
    obtain rfl := some.inj h
    simp only [Node.entries,mem_append,mem_singleton] at he
    rcases he with he | rfl
    · exact .inr (by simpa [Node.entries,hb] using he)
    · exact .inl rfl
  · obtain rfl := some.inj h
    exact .inr he

theorem Node.erase_entries {name : Name} (h : n.erase name = some n') : ∀ e ∈ n'.entries, e ∈ n.entries := by
  unfold Node.erase at h
  intro e he
  split at h
  · rename_i entries hb
    obtain rfl := some.inj h
    simpa [Node.entries,hb] using mem_of_mem_eraseP he
  · obtain rfl := some.inj h
    exact he

theorem Node.dropLink_entries (h : n.dropLink = some n') : ∀ e ∈ n'.entries, e ∈ n.entries := by
  unfold Node.dropLink at h
  split at h
  · simp at h
  · obtain rfl := some.inj h
    exact fun _ he => he

theorem Node.overwrite_entries {data : List UInt8} (h : n.overwrite data = some n') :
    ∀ e ∈ n'.entries, e ∈ n.entries := by
  unfold Node.overwrite at h
  split at h <;> obtain rfl := some.inj h
  · simp [Node.entries]
  · exact fun _ he => he

theorem Node.setPerms_entries {perms : Nat} (h : n.setPerms perms = some n') :
    ∀ e ∈ n'.entries, e ∈ n.entries := by
  unfold Node.setPerms at h
  split at h <;> obtain rfl := some.inj h
  · simp [Node.entries]
  · exact fun _ he => he

/-- A node was made under a free name: what the tree had keeps its meaning, and
the new name leads to the new node. -/
structure Made (s s' : VfsState) (d : NodeId) (name : Name) (node : Node) (id : NodeId) :
    Prop where
  edit : Edit s s' [d,id]
  fresh : s.tree.nodes id = none
  nodes : ∀ i, s'.tree.nodes i =
    if i = d then (s.tree.nodes d).bind (Node.enter name id)
    else if i = id then some node else s.tree.nodes i
  dir : s.tree.isDirectory d = true
  absent : s.tree.hasEntry d name = false

variable {t : Tree}

theorem made_of_add {s : VfsState} {d id : NodeId} {name : Name} {node : Node} {calls : Nat}
    (hnode : node.entries = []) (hfresh : s.tree.nodes id = none)
    (ht : ∀ i, t.nodes i = if i = id then some node else s.tree.nodes i)
    (hdir : s.tree.isDirectory d = true) (habs : s.tree.hasEntry d name = false) :
    Made s ((VfsState.mk t calls (id :: s.changes)).alter d (Node.enter name id)) d name node id := by
  have hne : d ≠ id := by
    rintro rfl
    simp [Tree.isDirectory,Tree.entries?,hfresh] at hdir
  refine ⟨?_,hfresh,?_,hdir,habs⟩
  · refine ((Edit.refl s).tick calls |>.add hnode ht).alter d ?_
    intro n n' hn e he
    rcases enter_entries hn e he with h | h
    · simp [h]
    · exact .inr h
  intro i
  by_cases hi : i = d
  · simp [VfsState.alter,Tree.alter,hi,ht,hne]
  · simp [VfsState.alter,Tree.alter,hi,ht]

theorem linkTree_congr {t' : Tree} (h : t'.nodes = t.nodes) : t'.linkTree = t.linkTree := by
  have hentries : t'.entries? = t.entries? := by
    funext d
    simp [Tree.entries?,h]
  have hlookup : t'.lookup = t.lookup := by
    funext d name
    simp [Tree.lookup,hentries,h]
  have hdir : t'.isDirectory = t.isDirectory := by
    funext d
    simp [Tree.isDirectory,hentries]
  have hlink : t'.linkTarget = t.linkTarget := by
    funext d
    simp [Tree.linkTarget,h]
  simp [Tree.linkTree,hlookup,hdir,hlink]

theorem Edit.lookupPathWalk {s s' : VfsState} (h : Edit s s' []) (path : Path) (follow : Bool) :
    s'.tree.lookupPathWalk path follow = s.tree.lookupPathWalk path follow := by
  unfold Tree.lookupPathWalk
  rw [linkTree_congr (funext fun i => h.nodes i (by simp))]

theorem isDirectory_iff {d : NodeId} : t.isDirectory d = true ↔
    ∃ es links, t.nodes d = some ⟨.dir es,links⟩ := by
  unfold Tree.isDirectory Tree.entries?
  constructor
  · intro h
    split at h
    · rename_i es links hn
      exact ⟨es,links,hn⟩
    · simp at h
  · rintro ⟨es,links,h⟩
    simp [h]

theorem lookup_ok_iff {d id : NodeId} {name : Name} : t.lookup d name = .ok id ↔
    ∃ es links, t.nodes d = some ⟨.dir es,links⟩ ∧ es.lookup name = some id ∧ t.nodes id ≠ none := by
  unfold Tree.lookup Tree.entries?
  constructor
  · intro h
    split at h
    · simp at h
    rename_i es hes
    split at hes
    · rename_i es' links hn
      obtain rfl := some.inj hes
      split at h
      · simp at h
      rename_i k hk
      split at h
      · rename_i hlive
        obtain rfl := Except.ok.inj h
        refine ⟨es',links,hn,hk,?_⟩
        intro hnone
        simp [hnone] at hlive
      · simp at h
    · simp at hes
  · rintro ⟨es,links,hd,hid,hlive⟩
    simp [hd,hid,isSome_iff_ne_none.mpr hlive]

section Made

variable {s s' : VfsState} {d id : NodeId} {name : Name} {node : Node}

section
variable (h : Made s s' d name node id)
include h

theorem Made.dir_nodes : ∃ es links, s.tree.nodes d = some ⟨.dir es,links⟩ ∧
      s'.tree.nodes d = some ⟨.dir (es ++ [(name,id)]),links⟩ := by
  obtain ⟨es,links,hd⟩ := isDirectory_iff.mp h.dir
  refine ⟨es,links,hd,?_⟩
  rw [h.nodes]
  simp [hd,Node.enter]

theorem Made.id_node : s'.tree.nodes id = some node := by
  obtain ⟨es,links,hd,-⟩ := h.dir_nodes
  have hne : id ≠ d := by
    rintro rfl
    simp [h.fresh] at hd
  rw [h.nodes]
  simp [hne]

theorem Made.node_of_live (hi : s.tree.nodes i ≠ none)
    (hd : i ≠ d) : s'.tree.nodes i = s.tree.nodes i := by
  have hne : i ≠ id := fun he => hi (he ▸ h.fresh)
  rw [h.nodes]
  simp [hd,hne]

theorem Made.live (hi : s.tree.nodes i ≠ none) : s'.tree.nodes i ≠ none := by
  by_cases hd : i = d
  · obtain ⟨es,links,-,hd'⟩ := h.dir_nodes
    simp [hd,hd']
  · rwa [h.node_of_live hi hd]

theorem Made.le : s.tree.linkTree.Le s'.tree.linkTree where
  root := rfl
  child := by
    obtain ⟨ds,dlinks,hd,hd'⟩ := h.dir_nodes
    intro i c k hk
    have hk : s.tree.lookup i c = .ok k := by
      simp only [Tree.linkTree] at hk
      cases hl : s.tree.lookup i c with
      | error e => simp [hl,Except.toOption] at hk
      | ok k' => simpa [hl,Except.toOption] using hk
    obtain ⟨es,links,hi,hes,hlive⟩ := lookup_ok_iff.mp hk
    refine ⟨?_,?_,?_⟩
    · have hok : s'.tree.lookup i c = .ok k := by
        by_cases hid : i = d
        · subst hid
          obtain ⟨rfl,rfl⟩ : es = ds ∧ links = dlinks := by simpa [hi] using hd
          exact lookup_ok_iff.mpr ⟨_,_,hd',by simp [lookup_append,hes],h.live hlive⟩
        · refine lookup_ok_iff.mpr ⟨es,links,?_,hes,h.live hlive⟩
          rw [h.node_of_live (by simp [hi]) hid,hi]
      simp [Tree.linkTree,hok,Except.toOption]
    · by_cases hkd : k = d
      · simp [Tree.linkTree,Tree.linkTarget,hkd,hd,hd']
      · simp [Tree.linkTree,Tree.linkTarget,h.node_of_live hlive hkd]
    · intro hdir
      by_cases hkd : k = d
      · simp [Tree.linkTree,Tree.isDirectory,Tree.entries?,hkd,hd']
      · simpa [Tree.linkTree,Tree.isDirectory,Tree.entries?,h.node_of_live hlive hkd] using hdir

theorem Made.lookup : s'.tree.lookup d name = .ok id := by
  obtain ⟨es,links,hd,hd'⟩ := h.dir_nodes
  refine lookup_ok_iff.mpr ⟨_,_,hd',?_,by simp [h.id_node]⟩
  have habs := h.absent
  simp only [Tree.hasEntry,Tree.entries?,hd,isSome_eq_false_iff,isNone_iff_eq_none]
    at habs
  simp [lookup_append,habs]

end

end Made

/-- What a call answers and what it did: an error changed nothing. -/
def Answers {α : Type} (s : VfsState) (Q : α → VfsState → Prop) (r : Except VfsError α)
    (s' : VfsState) : Prop :=
  match r with
  | .error _ => Edit s s' []
  | .ok a => Q a s'

theorem Answers.mono {s s' : VfsState} {P : α → VfsState → Prop} {r : Except VfsError α}
    (h : Answers s P r s') (hPQ : ∀ a, P a s' → Q a s') : Answers s Q r s' := by
  cases r with
  | error e => exact h
  | ok a => exact hPQ a h

section Specs

variable {ε : Type} (env : Storage)

theorem ends_storageCall_bind {f : Bool → VfsM ε α} {s : VfsState}
    (h : ∀ failed, Ends (f failed) { s with calls := s.calls+1 } Q E) :
    Ends (storageCall env >>= f) s Q E := h (env.fails s.calls)

theorem answers_error {s : VfsState}
    (e : VfsError) : Ends (pure (.error e) : VfsM ε (Except VfsError α)) s (Answers s Q) E :=
  Edit.refl s

theorem freeInode_free {t : Tree} {ino : Nat} (h : freeInode env t = some ino) :
    t.nodes (.ext2 ino) = none := by
  have := List.find?_some h
  simpa using this

theorem ext2New_spec {s : VfsState} {d : NodeId} {name : Name} {node : Node}
    (hnode : node.entries = []) (hdir : s.tree.isDirectory d = true)
    (habs : s.tree.hasEntry d name = false) :
    Ends (ext2New (ε := ε) env d name node) s (Answers s (fun id s' => Made s s' d name node id))
      (Edit s · []) := by
  unfold ext2New
  refine ends_storageCall_bind env fun failed => ends_get_bind ?_
  cases failed with
  | true => exact (Edit.refl s).tick _
  | false =>
    cases hfree : freeInode env s.tree with
    | none =>
      exact (Edit.refl s).tick _
    | some ino =>
      exact made_of_add hnode (freeInode_free env hfree) (fun _ => rfl) hdir habs

theorem checkNewEntry_absent {t : Tree} {d : NodeId} {name : Name} {u : Unit}
    (h : checkNewEntry t d name = .ok u) : t.hasEntry d name = false := by
  unfold checkNewEntry at h
  split at h
  · simp at h
  split at h
  · simp at h
  split at h
  · simp at h
  · rename_i habs
    simpa using habs

theorem create_spec {node : Node} (hnode : node.entries = []) (s : VfsState) (d : NodeId)
    (name : Name) : Ends (create (ε := ε) env node d name) s
      (Answers s (fun id s' => Made s s' d name node id)) (Edit s · []) := by
  unfold create
  refine ends_get_bind ?_
  split
  · rename_i hdir
    split
    · exact answers_error _
    split
    · exact answers_error _
    · rename_i habs
      exact made_of_add hnode (s.tree.ramFresh _ le_rfl) (fun _ => rfl) hdir (by simpa using habs)
  · rename_i hdir
    split
    · exact answers_error _
    · rename_i hcheck
      exact ext2New_spec env hnode hdir (checkNewEntry_absent hcheck)
  · exact answers_error _

theorem createSymlink_spec (s : VfsState) (d : NodeId) (name : Name) (target : Path) :
    Ends (createSymlink (ε := ε) env d name target) s
      (Answers s (fun id s' => Made s s' d name ⟨.symlink target,1⟩ id)) (Edit s · []) := by
  unfold createSymlink
  refine ends_get_bind ?_
  split
  · rename_i hdir
    split
    · exact answers_error _
    rename_i hcheck
    repeat' split
    · exact answers_error _
    · exact answers_error _
    · refine ends_storageCall_bind env fun failed => ?_
      split
      · exact (Edit.refl s).tick _
      · exact (Edit.refl s).tick _
    · exact ext2New_spec env rfl hdir (checkNewEntry_absent hcheck)
  · exact answers_error _

theorem link_spec (s : VfsState) (d : NodeId) (name : Name) (target : NodeId) :
    Ends (link (ε := ε) env d name target) s
      (Answers s (fun id s' => id = .ext2 (fsIno env target) ∧ Edit s s' [d,id])) (Edit s · []) := by
  unfold link
  refine ends_get_bind ?_
  dsimp only
  repeat' split
  all_goals try exact answers_error _
  refine ends_storageCall_bind env fun failed => ?_
  cases failed with
  | true => exact (Edit.refl s).tick _
  | false =>
    refine ⟨rfl,(((Edit.refl s).tick _).alter (.ext2 (fsIno env target)) ?_).alter _ ?_⟩
    · intro n n' hn e he
      obtain rfl := some.inj hn
      exact .inr he
    intro n n' hn e he
    rcases enter_entries hn e he with h | h
    · simp [h]
    · exact .inr h

theorem remove_spec (s : VfsState) (d : NodeId) (name : Name) : Ends (remove (ε := ε) env d name) s
      (Answers s (fun _ s' => ∃ child, s.tree.lookup d name = .ok child ∧ Edit s s' [d,child]))
      (Edit s · []) := by
  have herase : ∀ {new : List NodeId} (n n' : Node), n.erase name = some n' → ∀ e ∈ n'.entries,
      e.2 ∈ d :: new ∨ e ∈ n.entries := fun n n' hn e he => .inr (erase_entries hn e he)
  unfold remove
  refine ends_get_bind ?_
  repeat' split
  all_goals try exact answers_error _
  · rename_i child hl _
    refine ⟨child,hl,((Edit.refl s).alter child ?_).alter _ herase⟩
    intro n n' hn
    simp at hn
  · rename_i child hl _ _
    refine ends_storageCall_bind env fun failed => ?_
    cases failed with
    | true => exact (Edit.refl s).tick _
    | false =>
      refine ⟨child,hl,(((Edit.refl s).tick _).alter child ?_).alter _ herase⟩
      exact fun n n' hn e he => .inr (dropLink_entries hn e he)

theorem createDir_spec (s : VfsState) (d : NodeId) (name : Name) : Ends (createDir (ε := ε) env d name) s
      (Answers s (fun id s' => Made s s' d name ⟨.dir [],2⟩ id)) (Edit s · []) :=
  create_spec env rfl s d name

theorem createFile_spec (s : VfsState) (d : NodeId) (name : Name) : Ends (createFile (ε := ε) env d name) s
      (Answers s (fun id s' => Made s s' d name ⟨.file [] 0o644,1⟩ id)) (Edit s · []) :=
  create_spec env rfl s d name

/-- Writing and setting a mode reach one node at most. -/
def Within (s s' : VfsState) (id : NodeId) : Prop := ∃ new, new ⊆ [id] ∧ Edit s s' new

theorem within_alter {s : VfsState} (calls : Nat) (id : NodeId)
    (hf : ∀ n n', f n = some n' → ∀ e ∈ n'.entries, e ∈ n.entries) :
    Within s (VfsState.alter { s with calls := calls } id f) id :=
  ⟨[id],fun _ h => h,((Edit.refl s).tick calls).alter id fun n n' hn e he => .inr (hf n n' hn e he)⟩

theorem within_refl (s : VfsState) (calls : Nat) (id : NodeId) :
    Within s { s with calls := calls } id := ⟨[],by simp,(Edit.refl s).tick calls⟩

theorem write_spec (s : VfsState) (id : NodeId) (data : List UInt8) :
    Ends (write (ε := ε) env id data) s (fun _ s' => Within s s' id) (fun _ => False) := by
  unfold write
  cases id with
  | fixed k => exact within_refl s s.calls _
  | ram k =>
    refine ends_storageCall_bind env fun failed => ?_
    cases failed with
    | true => exact within_refl s _ _
    | false => exact within_alter _ _ fun _ _ => overwrite_entries
  | ext2 ino =>
    simp only
    split
    · exact within_refl s s.calls _
    · refine ends_storageCall_bind env (fun failed => ends_get_bind ?_)
      cases failed <;> exact within_alter _ _ fun _ _ => overwrite_entries

theorem setMode_spec (s : VfsState) (id : NodeId) (perms : Nat) :
    Ends (setMode (ε := ε) env id perms) s (fun _ s' => Within s s' id) (fun _ => False) := by
  unfold setMode
  cases id with
  | fixed k | ram k => exact within_refl s s.calls _
  | ext2 ino =>
    refine ends_storageCall_bind env fun failed => ?_
    cases failed with
    | true => exact within_refl s _ _
    | false => exact within_alter _ _ fun _ _ => setPerms_entries

end Specs

end PaghOS.Vfs
