import PaghOS.Lib.Text

/-!
Path resolution through symbolic links (`vfs/link_walk.rs`). The walk works on
any tree of node handles; a crossed link puts its target's components in front
of what is left of the path.
-/

namespace PaghOS.Vfs
open List Option

abbrev Name := List Char
abbrev Path := List Char

def byteLen (s : List Char) : Nat := s.foldr (fun c n => c.utf8Size+n) 0

def symloopMax : Nat := 40

def maxExpandedBytes : Nat := 4096

def dot : Name := ['.']

def dotDot : Name := ['.','.']

def rootKeepingComponents : List Name :=
  ["mnt".toList,"dev".toList,"proc".toList,"sys".toList,"tmp".toList]

/-- Does an absolute guest path resolve against the VFS root rather than under
`/mnt`? -/
def guestPathKeepsRoot (abs : Path) : Bool :=
  rootKeepingComponents.contains (((abs.dropWhile (· = '/')).splitOn '/').headD [])

inductive WalkError where
  | notFound
  | notDir
  | tooManyLinks
  | tooLong
  deriving DecidableEq

/-- A link target in the walker's namespace; an absolute one restarts the walk
at the root. -/
structure LinkTarget where
  path : Path
  absolute : Bool
  deriving DecidableEq

def mapGuestTarget (target : Path) : LinkTarget :=
  if target.head? ≠ some '/' then ⟨target,false⟩
  else if guestPathKeepsRoot target then ⟨target,true⟩
  else ⟨"/mnt".toList ++ target,true⟩

def components (path : Path) : List Name :=
  (path.splitOn '/').filter (fun c => c ≠ [] ∧ c ≠ dot)

/-- A component that is a name: not empty, not `.` or `..`, without a slash. -/
def Proper (c : Name) : Prop := c ≠ [] ∧ c ≠ dot ∧ c ≠ dotDot ∧ '/' ∉ c

theorem components_append (path : Path) (rest : Path) :
    components (path ++ '/' :: rest) = components path ++ components rest := by
  unfold components List.splitOn
  rw [splitOnP_append_cons _ _ (by simp),filter_append]

theorem components_name {c : Name} (hc : Proper c) : components c = [c] := by
  have hsplit : c.splitOn '/' = [c] := by
    have h : (['/'].intercalate [c]).splitOn '/' = [c] :=
      splitOn_intercalate '/' (by simp [hc.2.2.2]) (by simp)
    simpa using h
  simp [components,hsplit,hc.1,hc.2.1]

theorem components_rdropWhile (path : Path) : components (path.rdropWhile (· = '/')) = components path := by
  induction path using List.reverseRecOn with
  | nil => rfl
  | append_singleton path c ih =>
    by_cases hc : c = '/'
    · subst hc
      rw [rdropWhile_concat_pos _ _ _ (by simp),ih,components_append]
      simp [components]
    · rw [rdropWhile_concat_neg _ _ _ (by simpa using hc)]

theorem byteLen_append (a b : List Char) : byteLen (a ++ b) = byteLen a+byteLen b := by
  induction a with
  | nil => simp [byteLen]
  | cons c a ih =>
    simp only [byteLen,cons_append,foldr_cons] at ih ⊢
    omega

theorem byteLen_rdropWhile_le (p : Char → Bool) (path : Path) :
    byteLen (path.rdropWhile p) ≤ byteLen path := by
  have h := congrArg byteLen (rdropWhile_append_rtakeWhile (p := p) (l := path))
  rw [byteLen_append] at h
  omega

structure LinkTree (ι : Type) where
  root : ι
  lookup : ι → Name → Option ι
  isDir : ι → Bool
  /-- A link whose target cannot be read has the empty path. -/
  linkTarget : ι → Option LinkTarget

section Walk

variable {ι : Type} (tree : LinkTree ι) (followFinal : Bool)

/-- The walk up to the next link it has to cross. The directory stack has its
top first and the tree's root at the bottom. -/
def walkOn (cross : List ι → LinkTarget → List Name → Except WalkError ι) :
    List ι → List Name → Except WalkError ι
  | stack, [] => .ok (stack.headD tree.root)
  | stack, comp :: pending =>
    if comp = dotDot then walkOn cross (if stack.length > 1 then stack.tail else stack) pending
    else
      match tree.lookup (stack.headD tree.root) comp with
      | none => .error .notFound
      | some child =>
        match tree.linkTarget child with
        | some target =>
          if followFinal ∨ pending ≠ [] then cross stack target pending
          else walkOn cross (child :: stack) pending
        | none =>
          if pending ≠ [] ∧ ¬ tree.isDir child then .error .notDir
          else walkOn cross (child :: stack) pending

/-- The walk with `budget` more links to cross and a path that has grown to
`expanded` bytes. -/
def walk : Nat → Nat → List ι → List Name → Except WalkError ι
  | 0, _ => walkOn tree followFinal (fun _ _ _ => .error .tooManyLinks)
  | budget+1, expanded => walkOn tree followFinal (fun stack target pending =>
      if target.path = [] then .error .notFound
      else if expanded+byteLen target.path > maxExpandedBytes then .error .tooLong
      else walk budget (expanded+byteLen target.path)
        (if target.absolute then [tree.root] else stack) (components target.path ++ pending))

def resolve (path : Path) : Except WalkError ι :=
  walk tree followFinal symloopMax (byteLen path) [tree.root] (components path)

/-- A walk that follows every link, one rule for each way to consume a
component. The three numbers and lists are the state of the walk: links left to
cross, bytes so far and the directory stack. -/
inductive Walks : Nat × Nat × List ι → List Name → Nat × Nat × List ι → Prop
  | done (w : Nat × Nat × List ι) : Walks w [] w
  | up {b e : Nat} {stack : List ι} {pending : List Name} {w : Nat × Nat × List ι}
      (h : Walks (b,e,if stack.length > 1 then stack.tail else stack) pending w) :
      Walks (b,e,stack) (dotDot :: pending) w
  | push {b e : Nat} {stack : List ι} {comp : Name} {pending : List Name}
      {w : Nat × Nat × List ι} {child : ι} (hcomp : comp ≠ dotDot)
      (hchild : tree.lookup (stack.headD tree.root) comp = some child)
      (hlink : tree.linkTarget child = none) (hdir : pending ≠ [] → tree.isDir child = true)
      (h : Walks (b,e,child :: stack) pending w) : Walks (b,e,stack) (comp :: pending) w
  | cross {b e : Nat} {stack : List ι} {comp : Name} {pending : List Name}
      {w : Nat × Nat × List ι} {child : ι} {target : LinkTarget} (hcomp : comp ≠ dotDot)
      (hchild : tree.lookup (stack.headD tree.root) comp = some child)
      (hlink : tree.linkTarget child = some target) (hpath : target.path ≠ [])
      (hlen : e+byteLen target.path ≤ maxExpandedBytes)
      (h : Walks (b,e+byteLen target.path,if target.absolute then [tree.root] else stack)
        (components target.path ++ pending) w) :
      Walks (b+1,e,stack) (comp :: pending) w

end Walk

section Walks

variable {ι : Type} {tree : LinkTree ι}
variable {v w : Nat × Nat × List ι} {ps cs : List Name} {c : Name} {e : Nat} {d : ι}

variable {n : ι}

theorem walkOn_walks {b : Nat} {cross : List ι → LinkTarget → List Name → Except WalkError ι}
    (hcross : ∀ stack child target comp pending, comp ≠ dotDot →
      tree.lookup (stack.headD tree.root) comp = some child →
      tree.linkTarget child = some target → cross stack target pending = .ok n →
      ∃ w, Walks tree (b,e,stack) (comp :: pending) w ∧ w.2.2.headD tree.root = n)
    (stack : List ι) (pending : List Name) (h : walkOn tree true cross stack pending = .ok n) :
    ∃ w, Walks tree (b,e,stack) pending w ∧ w.2.2.headD tree.root = n := by
  induction pending generalizing stack with
  | nil =>
    simp only [walkOn,Except.ok.injEq] at h
    exact ⟨_,.done _,h⟩
  | cons comp pending ih =>
    simp only [walkOn] at h
    by_cases hc : comp = dotDot
    · subst hc
      simp only [if_true] at h
      obtain ⟨w,hw,hn⟩ := ih _ h
      exact ⟨w,.up hw,hn⟩
    simp only [hc,if_false] at h
    cases hl : tree.lookup (stack.headD tree.root) comp with
    | none => simp only [hl,reduceCtorEq] at h
    | some child =>
      cases ht : tree.linkTarget child with
      | some target =>
        simp only [hl,ht,true_or,if_true] at h
        exact hcross stack child target comp pending hc hl ht h
      | none =>
        simp only [hl,ht] at h
        split at h
        · simp at h
        rename_i hd
        obtain ⟨w,hw,hn⟩ := ih _ h
        refine ⟨w,.push hc hl ht ?_ hw,hn⟩
        intro hp
        simpa [hp] using hd

theorem walk_walks {b : Nat} {stack : List ι} {pending : List Name}
    (h : walk tree true b e stack pending = .ok n) :
    ∃ w, Walks tree (b,e,stack) pending w ∧ w.2.2.headD tree.root = n := by
  induction b generalizing e stack pending with
  | zero =>
    refine walkOn_walks ?_ stack pending h
    intro stack child target comp pending _ _ _ hx
    simp at hx
  | succ b ih =>
    refine walkOn_walks ?_ stack pending h
    intro stack child target comp pending hc hl ht hx
    split at hx
    · simp at hx
    split at hx
    · simp at hx
    · rename_i hpath hlen
      obtain ⟨w,hw,hn⟩ := ih hx
      exact ⟨w,.cross hc hl ht hpath (by omega) hw,hn⟩

variable {path : Path}

theorem resolve_walks (h : resolve tree true path = .ok n) :
    ∃ w, Walks tree (symloopMax,byteLen path,[tree.root]) (components path) w ∧
      w.2.2.headD tree.root = n := walk_walks h

theorem Walks.split {qs : List Name}
    (h : Walks tree v (ps ++ qs) w) : ∃ u, Walks tree v ps u ∧ Walks tree u qs w := by
  generalize hr : ps ++ qs = rs at h
  induction h generalizing ps with
  | done w =>
    obtain ⟨rfl,rfl⟩ := append_eq_nil_iff.mp hr
    exact ⟨w,.done w,.done w⟩
  | up h ih =>
    cases ps with
    | nil =>
      obtain rfl : qs = _ := hr
      exact ⟨_,.done _,.up h⟩
    | cons p ps =>
      obtain ⟨rfl,hps⟩ := cons_eq_cons.mp hr
      obtain ⟨u,hu,hq⟩ := ih hps
      exact ⟨u,.up hu,hq⟩
  | push hc hl ht hd h ih =>
    cases ps with
    | nil =>
      obtain rfl : qs = _ := hr
      exact ⟨_,.done _,.push hc hl ht hd h⟩
    | cons p ps =>
      obtain ⟨rfl,hps⟩ := cons_eq_cons.mp hr
      obtain ⟨u,hu,hq⟩ := ih hps
      refine ⟨u,.push hc hl ht ?_ hu,hq⟩
      intro hp
      exact hd (by simp [← hps,hp])
  | cross hc hl ht hp he h ih =>
    cases ps with
    | nil =>
      obtain rfl : qs = _ := hr
      exact ⟨_,.done _,.cross hc hl ht hp he h⟩
    | cons p ps =>
      obtain ⟨rfl,hps⟩ := cons_eq_cons.mp hr
      obtain ⟨u,hu,hq⟩ := ih ((append_assoc _ ps qs).trans (congrArg _ hps))
      exact ⟨u,.cross hc hl ht hp he hu,hq⟩

theorem Walks.shorter (h : Walks tree v ps w)
    (he : e ≤ v.2.1) : ∃ e', Walks tree (v.1,e,v.2.2) ps (w.1,e',w.2.2) := by
  induction h generalizing e with
  | done w => exact ⟨e,.done _⟩
  | up h ih =>
    obtain ⟨e',h'⟩ := ih he
    exact ⟨e',.up h'⟩
  | push hc hl ht hd h ih =>
    obtain ⟨e',h'⟩ := ih he
    exact ⟨e',.push hc hl ht hd h'⟩
  | cross hc hl ht hp hlen h ih =>
    obtain ⟨e',h'⟩ := ih (Nat.add_le_add_right he _)
    exact ⟨e',.cross hc hl ht hp (le_trans (Nat.add_le_add_right he _) hlen) h'⟩

theorem Walks.unique {u : Nat × Nat × List ι} (h : Walks tree v ps w)
    (h' : Walks tree v ps u) : w = u := by
  induction h with
  | done w =>
    cases h'
    rfl
  | up h ih =>
    cases h' with
    | up h' => exact ih h'
    | push hc => exact absurd rfl hc
    | cross hc => exact absurd rfl hc
  | push hc hl ht hd h ih =>
    cases h' with
    | up => exact absurd rfl hc
    | push _ hl' _ _ h' =>
      obtain rfl := some.inj (hl.symm.trans hl')
      exact ih h'
    | cross _ hl' ht' =>
      obtain rfl := some.inj (hl.symm.trans hl')
      simp [ht] at ht'
  | cross hc hl ht hp hlen h ih =>
    cases h' with
    | up => exact absurd rfl hc
    | push _ hl' ht' =>
      obtain rfl := some.inj (hl.symm.trans hl')
      simp [ht] at ht'
    | cross _ hl' ht' _ _ h' =>
      obtain rfl := some.inj (hl.symm.trans hl')
      obtain rfl := some.inj (ht.symm.trans ht')
      exact ih h'

/-- Every name of the smaller tree means the same in the larger one. -/
structure LinkTree.Le (tree tree' : LinkTree ι) : Prop where
  root : tree'.root = tree.root
  child : ∀ d name c, tree.lookup d name = some c → tree'.lookup d name = some c ∧
    tree'.linkTarget c = tree.linkTarget c ∧ (tree.isDir c = true → tree'.isDir c = true)

variable {tree' : LinkTree ι}

theorem Walks.larger (hle : tree.Le tree') (h : Walks tree v ps w) : Walks tree' v ps w := by
  induction h with
  | done w => exact .done w
  | up h ih => exact .up ih
  | push hc hl ht hd h ih =>
    obtain ⟨hl',ht',hd'⟩ := hle.child _ _ _ hl
    exact .push hc (hle.root ▸ hl') (ht'.trans ht) (fun hp => hd' (hd hp)) ih
  | cross hc hl ht hp hlen h ih =>
    obtain ⟨hl',ht',-⟩ := hle.child _ _ _ hl
    exact .cross hc (hle.root ▸ hl') (ht'.trans ht) hp hlen (hle.root ▸ ih)

def Direct (tree : LinkTree ι) (d : ι) : List Name → ι → Prop
  | [], dir => d = dir
  | c :: cs, dir => c ≠ dotDot ∧ ∃ k, tree.lookup d c = some k ∧ tree.linkTarget k = none ∧
      tree.isDir k = true ∧ Direct tree k cs dir

variable {dir : ι}

theorem Direct.snoc {k : ι} (h : Direct tree d cs dir)
    (hc : c ≠ dotDot) (hk : tree.lookup dir c = some k) (hlink : tree.linkTarget k = none)
    (hdir : tree.isDir k = true) : Direct tree d (cs ++ [c]) k := by
  induction cs generalizing d with
  | nil =>
    obtain rfl : d = dir := h
    exact ⟨hc,k,hk,hlink,hdir,rfl⟩
  | cons c' cs ih =>
    obtain ⟨hc',k',hk',hlink',hdir',h⟩ := h
    exact ⟨hc',k',hk',hlink',hdir',ih h⟩

theorem Direct.larger (hle : tree.Le tree') {dir : ι}
    (h : Direct tree d cs dir) : Direct tree' d cs dir := by
  induction cs generalizing d with
  | nil => exact h
  | cons c cs ih =>
    obtain ⟨hc,k,hk,hlink,hdir,h⟩ := h
    obtain ⟨hk',hlink',hdir'⟩ := hle.child _ _ _ hk
    exact ⟨hc,k,hk',hlink'.trans hlink,hdir' hdir,ih h⟩

theorem Direct.lookup (h : Direct tree d cs dir) (hc : c ≠ dotDot) (hv : v.2.2.headD tree.root = d)
    (hw : Walks tree v (cs ++ [c]) w) : ∃ k, tree.lookup dir c = some k := by
  induction cs generalizing d v with
  | nil =>
    obtain rfl : d = dir := h
    cases hw with
    | up => exact absurd rfl hc
    | push _ hk => exact ⟨_,hv ▸ hk⟩
    | cross _ hk => exact ⟨_,hv ▸ hk⟩
  | cons c' cs ih =>
    obtain ⟨hc',k,hk,hlink,hdir,h⟩ := h
    cases hw with
    | up => exact absurd rfl hc'
    | push _ hk' _ _ hw =>
      obtain rfl := some.inj (hk.symm.trans (hv ▸ hk'))
      exact ih h rfl hw
    | cross _ hk' ht =>
      obtain rfl := some.inj (hk.symm.trans (hv ▸ hk'))
      simp [hlink] at ht

/-- If a walk along `path` gets through at all, it ends in `dir`: some first part
of the path is known to walk, the rest leads on through plain directories. The
whole path may still be too long to walk. -/
def LeadsTo (tree : LinkTree ι) (path : Path) (dir : ι) : Prop :=
  ∃ ps cs e w, components path = ps ++ cs ∧ e ≤ byteLen path ∧
    Walks tree (symloopMax,e,[tree.root]) ps w ∧ Direct tree (w.2.2.headD tree.root) cs dir

theorem leadsTo_of_resolve {walked : Path} (h : resolve tree true path = .ok dir)
    (hcomps : components walked = components path) (hlen : byteLen walked ≤ byteLen path) :
    LeadsTo tree walked dir := by
  obtain ⟨w,hw,hdir⟩ := resolve_walks h
  obtain ⟨e',hw'⟩ := hw.shorter hlen
  exact ⟨components path,[],byteLen walked,_,by simp [hcomps],le_rfl,hw',hdir⟩

theorem LeadsTo.larger (hle : tree.Le tree') {path : Path} {dir : ι}
    (h : LeadsTo tree path dir) : LeadsTo tree' path dir := by
  obtain ⟨ps,cs,e,w,hcomps,he,hw,hd⟩ := h
  refine ⟨ps,cs,e,w,hcomps,he,?_,?_⟩
  · simpa only [hle.root] using hw.larger hle
  · simpa only [hle.root] using hd.larger hle

theorem LeadsTo.snoc {k : ι} (h : LeadsTo tree path dir)
    (hc : Proper c) (hk : tree.lookup dir c = some k) (hlink : tree.linkTarget k = none)
    (hdir : tree.isDir k = true) : LeadsTo tree (path ++ '/' :: c) k := by
  obtain ⟨ps,cs,e,w,hcomps,he,hw,hd⟩ := h
  refine ⟨ps,cs ++ [c],e,w,?_,?_,hw,hd.snoc hc.2.2.1 hk hlink hdir⟩
  · rw [components_append,components_name hc,hcomps,append_assoc]
  · rw [byteLen_append]
    omega

theorem LeadsTo.lookup (h : LeadsTo tree path dir)
    (hc : Proper c) (hn : resolve tree true (path ++ '/' :: c) = .ok n) :
    ∃ k, tree.lookup dir c = some k := by
  obtain ⟨ps,cs,e,w,hcomps,he,hw,hd⟩ := h
  obtain ⟨v,hv,-⟩ := resolve_walks hn
  rw [components_append,components_name hc,hcomps,append_assoc] at hv
  obtain ⟨u,hps,hcs⟩ := hv.split
  obtain ⟨e',hps'⟩ := hps.shorter (e := e) (by
    rw [byteLen_append]
    simp only
    omega)
  have hstack : u.2.2 = w.2.2 := by
    have := hps'.unique hw
    rw [← this]
  exact hd.lookup hc.2.2.1 (by rw [hstack]) hcs

end Walks

end PaghOS.Vfs
