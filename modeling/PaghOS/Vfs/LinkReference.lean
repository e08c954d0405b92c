import PaghOS.Lib.Loop
import PaghOS.Vfs.LinkWalk

/-!
The loop of `link_walk::resolve` against a recursive reading of a path. The loop
keeps a stack of directories; the reference knows only the node it has reached
and asks the tree for its parent.
-/

namespace PaghOS.Vfs
open Loop List

/-! ### The loop -/

variable {e : Nat} {pending : List Name}

/-- What `resolve` keeps between rounds. Both lists have their top first. -/
structure WalkState (ι : Type) where
  pending : List Name
  expanded : Nat
  links : Nat
  stack : List ι

section Loop

variable {ι : Type} (tree : LinkTree ι) (followFinal : Bool)

/-- One round of the loop. The stack always holds the root; the two `expect`s on
an empty one panic. -/
def walkRound (s : WalkState ι) : WalkState ι ⊕ Option (Except WalkError ι) :=
  match s.pending with
  | [] => .inr (s.stack.head?.map .ok)
  | comp :: pending =>
    if comp = dotDot then
      .inl { s with pending := pending, stack := if s.stack.length > 1 then s.stack.tail else s.stack }
    else
      match s.stack with
      | [] => .inr none
      | dir :: _ =>
        match tree.lookup dir comp with
        | none => .inr (some (.error .notFound))
        | some child =>
          match tree.linkTarget child with
          | some target =>
            if followFinal ∨ pending ≠ [] then
              if s.links+1 > symloopMax then .inr (some (.error .tooManyLinks))
              else if target.path = [] then .inr (some (.error .notFound))
              else if s.expanded+byteLen target.path > maxExpandedBytes then
                .inr (some (.error .tooLong))
              else
                .inl {
                  pending := components target.path ++ pending
                  expanded := s.expanded+byteLen target.path
                  links := s.links+1
                  stack := if target.absolute then s.stack.drop (s.stack.length-1) else s.stack }
            else .inl { s with pending := pending, stack := child :: s.stack }
          | none =>
            if pending ≠ [] ∧ ¬ tree.isDir child then .inr (some (.error .notDir))
            else .inl { s with pending := pending, stack := child :: s.stack }

def walkStart (path : Path) : WalkState ι :=
  ⟨components path,byteLen path,0,[tree.root]⟩

def WalkState.lookedUp (s : WalkState ι) : Option ι :=
  match s.pending with
  | [] => none
  | comp :: _ => if comp = dotDot then none else s.stack.head?

end Loop

/-! ### The reference -/

/-- A tree of directories. Files and links may have several names; a directory
has one parent, and its own entries `.` and `..` do not count as names. -/
structure FileTree (ι : Type) extends LinkTree ι where
  parent : ι → ι
  root_isDir : isDir root = true
  parent_root : parent root = root
  parent_lookup : ∀ d name k, name ≠ dot → name ≠ dotDot → lookup d name = some k →
    isDir k = true → parent k = d

section Reference

variable {ι : Type} (tree : FileTree ι) (followFinal : Bool)

/-- The components from `dir` on, up to the next link that has to be crossed. -/
def descendOn (cross : ι → LinkTarget → List Name → Except WalkError ι) :
    ι → List Name → Except WalkError ι
  | dir, [] => .ok dir
  | dir, comp :: rest =>
    if comp = dotDot then descendOn cross (tree.parent dir) rest
    else
      match tree.lookup dir comp with
      | none => .error .notFound
      | some child =>
        match tree.linkTarget child with
        | some target =>
          if followFinal ∨ rest ≠ [] then cross dir target rest
          else descendOn cross child rest
        | none =>
          if rest ≠ [] ∧ ¬ tree.isDir child then .error .notDir
          else descendOn cross child rest

def descend : Nat → Nat → ι → List Name → Except WalkError ι
  | 0, _ => descendOn tree followFinal (fun _ _ _ => .error .tooManyLinks)
  | links+1, length => descendOn tree followFinal (fun dir target rest =>
      if target.path = [] then .error .notFound
      else if length+byteLen target.path > maxExpandedBytes then .error .tooLong
      else descend links (length+byteLen target.path)
        (if target.absolute then tree.root else dir) (components target.path ++ rest))

/-- What a path means. The length that is limited is that of the path with every
target put in its place, the path's own length included. -/
def reference (path : Path) : Except WalkError ι :=
  if byteLen path > maxExpandedBytes then .error .tooLong
  else descend tree followFinal symloopMax (byteLen path) tree.root (components path)

/-- The first link a path has to cross, if nothing ends the walk before it. -/
def firstLink : ι → List Name → Option LinkTarget
  | _, [] => none
  | dir, comp :: rest =>
    if comp = dotDot then firstLink (tree.parent dir) rest
    else
      match tree.lookup dir comp with
      | none => none
      | some child =>
        match tree.linkTarget child with
        | some target => if followFinal ∨ rest ≠ [] then some target else none
        | none => if rest ≠ [] ∧ ¬ tree.isDir child then none else firstLink child rest

end Reference

section Agreement

variable {ι : Type} {tree : FileTree ι} {followFinal : Bool}
variable {dir : ι} {rest : List ι}

/-- A stack of directories, each in the next one, with the root at the bottom. -/
def Ancestry (tree : FileTree ι) : List ι → Prop
  | [] => False
  | [dir] => dir = tree.root
  | dir :: up :: rest => tree.isDir dir = true ∧ tree.parent dir = up ∧ Ancestry tree (up :: rest)

theorem Ancestry.isDir (h : Ancestry tree (dir :: rest)) : tree.isDir dir = true := by
  cases rest with
  | nil =>
    obtain rfl : dir = tree.root := h
    exact tree.root_isDir
  | cons up rest => exact h.1

theorem Ancestry.up (h : Ancestry tree (dir :: rest)) :
    ∃ rest', (if (dir :: rest).length > 1 then (dir :: rest).tail else dir :: rest) =
      tree.parent dir :: rest' ∧ Ancestry tree (tree.parent dir :: rest') := by
  cases rest with
  | nil =>
    obtain rfl : dir = tree.root := h
    rw [tree.parent_root]
    exact ⟨[],by simp,rfl⟩
  | cons up rest =>
    obtain ⟨-,rfl,h⟩ := h
    exact ⟨rest,by simp,h⟩

theorem Ancestry.push {child : ι} (h : Ancestry tree (dir :: rest)) {name : Name}
    (hdot : name ≠ dot) (hup : name ≠ dotDot) (hl : tree.lookup dir name = some child)
    (hdir : tree.isDir child = true) : Ancestry tree (child :: dir :: rest) :=
  ⟨hdir,tree.parent_lookup dir name child hdot hup hl hdir,h⟩

theorem Ancestry.bottom (h : Ancestry tree (dir :: rest)) :
    (dir :: rest).drop ((dir :: rest).length-1) = [tree.root] := by
  induction rest generalizing dir with
  | nil =>
    obtain rfl : dir = tree.root := h
    rfl
  | cons up rest ih => exact ih h.2.2

theorem components_ne_dot {path : Path} {name : Name} (h : name ∈ components path) : name ≠ dot := by
  simp only [components,mem_filter,decide_eq_true_eq] at h
  exact h.2.2

theorem spliced_ne_dot (h : ∀ c ∈ pending, c ≠ dot) (path : Path) :
    ∀ c ∈ components path ++ pending, c ≠ dot := by
  intro c hc
  rcases mem_append.mp hc with hc | hc
  · exact components_ne_dot hc
  · exact h c hc

theorem walkOn_eq_descendOn {crossW : List ι → LinkTarget → List Name → Except WalkError ι}
    {crossD : ι → LinkTarget → List Name → Except WalkError ι}
    (hcross : ∀ dir rest target pending, Ancestry tree (dir :: rest) →
      (∀ c ∈ pending, c ≠ dot) → crossW (dir :: rest) target pending = crossD dir target pending)
    (h : pending ≠ [] → Ancestry tree (dir :: rest))
    (hnames : ∀ c ∈ pending, c ≠ dot) : walkOn tree.toLinkTree followFinal crossW (dir :: rest) pending =
      descendOn tree followFinal crossD dir pending := by
  induction pending generalizing dir rest with
  | nil => rfl
  | cons comp pending ih =>
    have hstack := h (cons_ne_nil _ _)
    obtain ⟨hdot,hnames⟩ := forall_mem_cons.mp hnames
    rw [walkOn,descendOn]
    by_cases hup : comp = dotDot
    · obtain ⟨rest',hrest,hparent⟩ := hstack.up
      simp only [if_pos hup,hrest]
      exact ih (fun _ => hparent) hnames
    simp only [if_neg hup,headD_cons]
    cases hl : tree.lookup dir comp with
    | none => rfl
    | some child =>
      cases ht : tree.linkTarget child with
      | some target =>
        by_cases hf : followFinal = true ∨ pending ≠ []
        · simp only [ht,if_pos hf]
          exact hcross dir rest target pending hstack hnames
        · simp only [ht,if_neg hf]
          exact ih (fun hp => absurd (.inr hp) hf) hnames
      | none =>
        by_cases hd : pending ≠ [] ∧ ¬ tree.isDir child = true
        · simp only [ht,if_pos hd]
        · simp only [ht,if_neg hd]
          refine ih (fun hp => hstack.push hdot hup hl ?_) hnames
          simpa [hp] using hd

theorem walk_eq_descend (budget e : Nat)
    (h : Ancestry tree (dir :: rest)) (hnames : ∀ c ∈ pending, c ≠ dot) :
    walk tree.toLinkTree followFinal budget e (dir :: rest) pending =
      descend tree followFinal budget e dir pending := by
  induction budget generalizing e dir rest pending with
  | zero => exact walkOn_eq_descendOn (fun _ _ _ _ _ _ => rfl) (fun _ => h) hnames
  | succ budget ih =>
    refine walkOn_eq_descendOn ?_ (fun _ => h) hnames
    intro dir rest target pending h hnames
    have hspliced := spliced_ne_dot hnames target.path
    cases habs : target.absolute with
    | true => simp only [if_true,ih (e+byteLen target.path)
        (show Ancestry tree [tree.root] from rfl) hspliced]
    | false => simp only [Bool.false_eq_true,if_false,ih (e+byteLen target.path) h hspliced]

theorem resolve_eq_descend (path : Path) : resolve tree.toLinkTree followFinal path =
    descend tree followFinal symloopMax (byteLen path) tree.root (components path) :=
  walk_eq_descend _ _ (show Ancestry tree [tree.root] from rfl) (fun _ hc => components_ne_dot hc)

theorem descendOn_tooLong {cross : ι → LinkTarget → List Name → Except WalkError ι}
    (hcross : ∀ dir target rest, cross dir target rest = .error .tooLong ↔ target.path ≠ []) (dir : ι)
    (pending : List Name) : descendOn tree followFinal cross dir pending = .error .tooLong ↔
      ∃ target, firstLink tree followFinal dir pending = some target ∧ target.path ≠ [] := by
  induction pending generalizing dir with
  | nil => simp [descendOn,firstLink]
  | cons comp pending ih =>
    rw [descendOn,firstLink]
    by_cases hup : comp = dotDot
    · simp only [if_pos hup]
      exact ih _
    simp only [if_neg hup]
    cases hl : tree.lookup dir comp with
    | none => simp
    | some child =>
      cases ht : tree.linkTarget child with
      | some target =>
        by_cases hf : followFinal = true ∨ pending ≠ []
        · simp [ht,if_pos hf,hcross]
        · obtain rfl : pending = [] := by simpa using fun hp => hf (.inr hp)
          simp only [ht,if_neg hf,descendOn]
          simp
      | none =>
        by_cases hd : pending ≠ [] ∧ ¬ tree.isDir child = true
        · simp only [ht,if_pos hd]
          simp
        · simp only [ht,if_neg hd]
          exact ih child

theorem descend_tooLong {budget : Nat} (he : e > maxExpandedBytes) (dir : ι) (pending : List Name) :
    descend tree followFinal (budget+1) e dir pending = .error .tooLong ↔
      ∃ target, firstLink tree followFinal dir pending = some target ∧ target.path ≠ [] := by
  refine descendOn_tooLong ?_ dir pending
  intro dir target rest
  have hlong : e+byteLen target.path > maxExpandedBytes := by omega
  by_cases hpath : target.path = [] <;> simp [hpath,hlong]

end Agreement

/-! ### Rounds -/

section Rounds

variable {ι : Type} {tree : FileTree ι} {followFinal : Bool}
variable {s : WalkState ι} {dir : ι}

/-- Between rounds: while components are left, the stack is one of directories. -/
structure Walking (tree : FileTree ι) (s : WalkState ι) : Prop where
  stack : s.stack ≠ []
  ancestry : s.pending ≠ [] → Ancestry tree s.stack
  names : ∀ c ∈ s.pending, c ≠ dot
  links : s.links ≤ symloopMax

/-- What the recursive walk makes of the rest of a state. -/
def WalkState.reading (tree : FileTree ι) (followFinal : Bool) (s : WalkState ι) : Except WalkError ι :=
  walk tree.toLinkTree followFinal (symloopMax-s.links) s.expanded s.stack s.pending

/-- A link crossed, or a component consumed. -/
def WalkState.Lower : WalkState ι → WalkState ι → Prop :=
  InvImage (Prod.Lex (· < ·) (· < ·)) fun s => (symloopMax-s.links,s.pending.length)

theorem lower_wf : WellFounded (@WalkState.Lower ι) :=
  InvImage.wf _ (Prod.lex Nat.lt_wfRel Nat.lt_wfRel).wf

theorem walk_cross (links : LinkTree ι) (budget e : Nat) :
    ∃ cross, walk links followFinal budget e = walkOn links followFinal cross ∧
      ∀ stack target pending, cross stack target pending =
        if budget = 0 then .error .tooManyLinks
        else if target.path = [] then .error .notFound
        else if e+byteLen target.path > maxExpandedBytes then .error .tooLong
        else walk links followFinal (budget-1) (e+byteLen target.path)
          (if target.absolute then [links.root] else stack) (components target.path ++ pending) := by
  cases budget with
  | zero => exact ⟨_,rfl,fun _ _ _ => by simp⟩
  | succ budget => exact ⟨_,rfl,fun _ _ _ => by simp⟩

/-- One round leaves the reading as it is and comes closer to the end. -/
theorem Walking.round {r : Except WalkError ι} (h : Walking tree s) (hr : s.reading tree followFinal = r) :
    (∃ t, walkRound tree.toLinkTree followFinal s = .inl t ∧
      (Walking tree t ∧ t.reading tree followFinal = r) ∧ t.Lower s) ∨
    ∃ b, walkRound tree.toLinkTree followFinal s = .inr b ∧ b = some r := by
  subst hr
  obtain ⟨pending,e,links,stack⟩ := s
  obtain ⟨dir,rest,rfl⟩ := exists_cons_of_ne_nil h.stack
  obtain ⟨cross,hwalk,hcross⟩ := @walk_cross ι followFinal tree.toLinkTree (symloopMax-links) e
  have hread : ∀ stack pending, WalkState.reading tree followFinal ⟨pending,e,links,stack⟩ =
      walkOn tree.toLinkTree followFinal cross stack pending := fun _ _ => by rw [← hwalk]; rfl
  have hlinks : links ≤ symloopMax := h.links
  cases pending with
  | nil => exact .inr ⟨_,rfl,by rw [hread]; rfl⟩
  | cons comp pending =>
    have hstack : Ancestry tree (dir :: rest) := h.ancestry (cons_ne_nil _ _)
    obtain ⟨hdot,hnames⟩ := forall_mem_cons.mp h.names
    have hlower : ∀ stack, WalkState.Lower ⟨pending,e,links,stack⟩ ⟨comp :: pending,e,links,dir :: rest⟩ :=
      fun _ => .right _ (Nat.lt_succ_self _)
    rw [hread,walkOn]
    by_cases hup : comp = dotDot
    · obtain ⟨rest',hrest,hparent⟩ := hstack.up
      simp only [walkRound,if_pos hup,hrest]
      exact .inl ⟨_,rfl,⟨⟨cons_ne_nil _ _,fun _ => hparent,hnames,hlinks⟩,hread _ _⟩,hlower _⟩
    simp only [walkRound,if_neg hup,headD_cons]
    cases hl : tree.lookup dir comp with
    | none => exact .inr ⟨_,rfl,rfl⟩
    | some child =>
      have hpush (hdir : pending ≠ [] → tree.isDir child = true) :
          Walking tree ⟨pending,e,links,child :: dir :: rest⟩ :=
        ⟨cons_ne_nil _ _,fun hp => hstack.push hdot hup hl (hdir hp),hnames,hlinks⟩
      cases ht : tree.linkTarget child with
      | none =>
        by_cases hd : pending ≠ [] ∧ ¬ tree.isDir child = true
        · simp only [ht,if_pos hd]
          exact .inr ⟨_,rfl,rfl⟩
        · simp only [ht,if_neg hd]
          refine .inl ⟨_,rfl,⟨hpush fun hp => ?_,hread _ _⟩,hlower _⟩
          simpa [hp] using hd
      | some target =>
        by_cases hf : followFinal = true ∨ pending ≠ []
        · simp only [ht,if_pos hf,hcross,hstack.bottom]
          by_cases hspent : links+1 > symloopMax
          · simp only [if_pos hspent,if_pos (show symloopMax-links = 0 by omega)]
            exact .inr ⟨_,rfl,rfl⟩
          simp only [if_neg hspent,if_neg (show symloopMax-links ≠ 0 by omega)]
          split
          · exact .inr ⟨_,rfl,rfl⟩
          split
          · exact .inr ⟨_,rfl,rfl⟩
          have hnext : Ancestry tree (if target.absolute then [tree.root] else dir :: rest) := by
            split
            · rfl
            · exact hstack
          have hleft : symloopMax-(links+1) < symloopMax-links := by omega
          refine .inl ⟨_,rfl,⟨⟨?_,fun _ => hnext,spliced_ne_dot hnames _,Nat.not_lt.mp hspent⟩,rfl⟩,
            .left _ _ hleft⟩
          split <;> exact cons_ne_nil _ _
        · simp only [ht,if_neg hf]
          exact .inl ⟨_,rfl,⟨hpush fun hp => absurd (.inr hp) hf,hread _ _⟩,hlower _⟩

theorem Walking.start (path : Path) : Walking tree (walkStart tree.toLinkTree path) :=
  ⟨cons_ne_nil _ _,fun _ => rfl,fun _ hc => components_ne_dot hc,Nat.zero_le _⟩

theorem rounds_resolve (tree : FileTree ι) (followFinal : Bool) (path : Path) :
    ∃ n, iterate (walkRound tree.toLinkTree followFinal) n (walkStart tree.toLinkTree path) =
      some (some (resolve tree.toLinkTree followFinal path)) := by
  obtain ⟨n,_,hn,rfl⟩ := iterate_ends lower_wf
    (fun s (h : Walking tree s ∧ s.reading tree followFinal = _) => h.1.round h.2) ⟨Walking.start path,rfl⟩
  exact ⟨n,hn⟩

theorem Walking.isDir (h : Walking tree s) (hdir : s.lookedUp = some dir) : tree.isDir dir = true := by
  obtain ⟨pending,e,n,stack⟩ := s
  cases pending with
  | nil => simp [WalkState.lookedUp] at hdir
  | cons comp pending =>
    cases stack with
    | nil => exact (h.ancestry (by simp)).elim
    | cons d rest =>
      have hd := Ancestry.isDir (h.ancestry (by simp))
      simp only [WalkState.lookedUp] at hdir
      split at hdir
      · simp at hdir
      · obtain rfl : d = dir := by simpa using hdir
        exact hd

theorem lookups_isDir (path : Path) (n : Nat) :
    Yields (after (walkRound tree.toLinkTree followFinal) n (walkStart tree.toLinkTree path))
      fun s => ∀ dir, s.lookedUp = some dir → tree.isDir dir = true := by
  refine (after_yields (I := Walking tree) (fun s t h hround => ?_) n (Walking.start path)).mono
    (fun _ h _ hdir => h.isDir hdir)
  rcases h.round rfl with ⟨_,hr,⟨ht,-⟩,-⟩ | ⟨_,hr,-⟩
  · rwa [Sum.inl.inj (hr.symm.trans hround)] at ht
  · cases hr.symm.trans hround

/-! ### The loop and the reference -/

/-- The loop of `resolve` ends with what the reference says, and looks names up in
directories only. -/
def ResolvesAsReference (tree : FileTree ι) (followFinal : Bool) (path : Path) : Prop :=
  (∃ n, iterate (walkRound tree.toLinkTree followFinal) n (walkStart tree.toLinkTree path) =
    some (some (reference tree followFinal path))) ∧
  ∀ n s dir, after (walkRound tree.toLinkTree followFinal) n (walkStart tree.toLinkTree path) = some s →
    s.lookedUp = some dir → tree.isDir dir = true

theorem resolvesAsReference_resolve (tree : FileTree ι) (followFinal : Bool) (path : Path) :
    ResolvesAsReference tree followFinal path ↔
      resolve tree.toLinkTree followFinal path = reference tree followFinal path := by
  obtain ⟨n,hn⟩ := rounds_resolve tree followFinal path
  constructor
  · intro h
    obtain ⟨⟨m,hm⟩,-⟩ := h
    exact Option.some.inj (iterate_unique hn hm)
  · intro h
    exact ⟨⟨n,h ▸ hn⟩,fun n s dir hs => lookups_isDir path n s hs dir⟩

/-- The length is looked at where a link is crossed, so a path that is itself too
long resolves as if it were not until there is one. -/
theorem resolvesAsReference_iff (tree : FileTree ι) (followFinal : Bool) (path : Path) :
    ResolvesAsReference tree followFinal path ↔ byteLen path ≤ maxExpandedBytes ∨
      ∃ target, firstLink tree followFinal tree.root (components path) = some target ∧ target.path ≠ [] := by
  rw [resolvesAsReference_resolve,resolve_eq_descend,reference]
  by_cases hlen : byteLen path > maxExpandedBytes
  · rw [if_pos hlen,show symloopMax = 39+1 from rfl,descend_tooLong hlen]
    simp [not_le.mpr hlen]
  · simp [hlen,not_lt.mp hlen]

end Rounds

def bareRoot : FileTree Unit where
  root := ()
  lookup _ _ := none
  isDir _ := true
  linkTarget _ := none
  parent _ := ()
  root_isDir := rfl
  parent_root := rfl
  parent_lookup := by simp

theorem components_slashes (n : Nat) : components (List.replicate n '/') = [] := by
  induction n with
  | zero => rfl
  | succ n ih => exact (components_append [] _).trans ih

theorem byteLen_slashes (n : Nat) : byteLen (List.replicate n '/') = n := by
  induction n with
  | zero => rfl
  | succ n ih =>
    have h : byteLen ('/' :: List.replicate n '/') = 1+byteLen (List.replicate n '/') := rfl
    rw [replicate_succ,h,ih]
    omega

/-- The root by a path of 4097 slashes: no link, so nothing asks for its length. -/
theorem slashes_not_tooLong : ¬ ResolvesAsReference bareRoot true (List.replicate 4097 '/') := by
  rw [resolvesAsReference_resolve,resolve_eq_descend,reference,components_slashes,byteLen_slashes]
  simp [descend,descendOn,symloopMax,maxExpandedBytes]

end PaghOS.Vfs
