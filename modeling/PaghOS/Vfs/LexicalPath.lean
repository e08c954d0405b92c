import PaghOS.Vfs.LinkWalk

/-!
Paths normalised as text (`shell/path.rs`). Where there are no links, dropping a name
with the `..` behind it leads where the walk does.
-/

namespace PaghOS.Vfs
open List

/-- One component of a path, with the names kept so far, the latest first. -/
def normalizeStep (stack : List Name) (comp : Name) : List Name :=
  if comp = [] ∨ comp = dot then stack
  else if comp = dotDot then stack.tail
  else comp :: stack

def normalize (abs : Path) : Path :=
  let stack := (abs.splitOn '/').foldl normalizeStep []
  if stack = [] then ['/'] else stack.reverse.flatMap ('/' :: ·)

variable {stack comps : List Name} {p : Path}

theorem mem_components {c : Name} (h : c ∈ components p) : ¬ (c = [] ∨ c = dot) ∧ '/' ∉ c := by
  obtain ⟨hmem,hc⟩ := mem_filter.mp h
  exact ⟨by simpa using hc,Text.not_mem_of_mem_splitOn hmem⟩

theorem foldl_components (p : Path) (stack : List Name) :
    (components p).foldl normalizeStep stack = (p.splitOn '/').foldl normalizeStep stack := by
  rw [components,foldl_filter]
  congr 1
  funext stack comp
  by_cases h : comp = [] ∨ comp = dot <;> simp_all [normalizeStep]

theorem foldl_proper (hstack : ∀ c ∈ stack, Proper c) (hcomps : ∀ c ∈ comps, '/' ∉ c) :
    ∀ c ∈ comps.foldl normalizeStep stack, Proper c := by
  induction comps generalizing stack with
  | nil => exact hstack
  | cons comp comps ih =>
    obtain ⟨hcomp,hcomps⟩ := forall_mem_cons.mp hcomps
    rw [foldl_cons,normalizeStep]
    split
    · exact ih hstack hcomps
    split
    · exact ih (fun c hc => hstack c (mem_of_mem_tail hc)) hcomps
    · rename_i hskip hup
      rw [not_or] at hskip
      exact ih (forall_mem_cons.mpr ⟨⟨hskip.1,hskip.2,hup,hcomp⟩,hstack⟩) hcomps

theorem foldl_of_proper (hcomps : ∀ c ∈ comps, Proper c) :
    comps.foldl normalizeStep stack = comps.reverse ++ stack := by
  induction comps generalizing stack with
  | nil => rfl
  | cons c comps ih =>
    obtain ⟨hc,hcomps⟩ := forall_mem_cons.mp hcomps
    simp [normalizeStep,hc.1,hc.2.1,hc.2.2.1,ih hcomps]

theorem components_flatMap (hcomps : ∀ c ∈ comps, Proper c) :
    components (comps.flatMap ('/' :: ·)) = comps := by
  induction comps using List.reverseRecOn with
  | nil => rfl
  | append_singleton comps c ih =>
    obtain ⟨hcomps,hc⟩ := forall_mem_append.mp hcomps
    rw [flatMap_append,flatMap_singleton,components_append,ih hcomps,components_name (hc c (by simp))]

section Tree

variable {ι : Type} {tree : LinkTree ι} {follow : Bool}
    {cross cross' : List ι → LinkTarget → List Name → Except WalkError ι} {st : List ι} {n : ι}

/-- From the directories walked so far, every directory that the path names exists. -/
def NamesDirs (tree : LinkTree ι) : List ι → List Name → Prop
  | _, [] => True
  | st, comp :: pending =>
    if comp = dotDot then NamesDirs tree (if st.length > 1 then st.tail else st) pending
    else pending = [] ∨ ∃ child, tree.lookup (st.headD tree.root) comp = some child ∧
      tree.isDir child = true ∧ NamesDirs tree (child :: st) pending

/-- The directories of a walk and their names, the latest first. -/
def Trail (tree : LinkTree ι) : List Name → List ι → Prop
  | [], st => st = [tree.root]
  | c :: names, k :: st => c ≠ dotDot ∧ tree.lookup (st.headD tree.root) c = some k ∧
      tree.isDir k = true ∧ Trail tree names st
  | _, [] => False

theorem Trail.up (h : Trail tree stack st) :
    Trail tree stack.tail (if st.length > 1 then st.tail else st) := by
  cases stack with
  | nil =>
    cases h
    rfl
  | cons c stack =>
    cases st with
    | nil => cases h
    | cons k st =>
      obtain ⟨-,-,-,h⟩ := h
      cases st with
      | nil => cases stack <;> cases h
      | cons => exact h

variable (hlinks : ∀ i, tree.linkTarget i = none)
include hlinks

theorem Trail.walkOn (h : Trail tree stack st) (pending : List Name) :
    walkOn tree follow cross [tree.root] (stack.reverse ++ pending) =
      walkOn tree follow cross st pending := by
  induction stack generalizing st pending with
  | nil =>
    cases h
    rfl
  | cons c stack ih =>
    cases st with
    | nil => cases h
    | cons k st =>
      obtain ⟨hc,hk,hdir,h⟩ := h
      rw [reverse_cons,append_assoc,ih h,singleton_append,Vfs.walkOn,if_neg hc,hk]
      simp [hlinks,hdir]

/-- What is left after dropping names with their `..` leads where the path does. -/
theorem Trail.normalized (h : Trail tree stack st) (hcomps : ∀ c ∈ comps, ¬ (c = [] ∨ c = dot))
    (hdirs : NamesDirs tree st comps) :
    Vfs.walkOn tree follow cross' [tree.root] (comps.foldl normalizeStep stack).reverse =
      Vfs.walkOn tree follow cross st comps := by
  induction comps generalizing stack st with
  | nil =>
    rw [foldl_nil,← append_nil (reverse _),h.walkOn hlinks]
    rfl
  | cons comp comps ih =>
    obtain ⟨hcomp,hcomps⟩ := forall_mem_cons.mp hcomps
    rw [foldl_cons,normalizeStep,if_neg hcomp]
    rw [NamesDirs] at hdirs
    by_cases hup : comp = dotDot
    · rw [if_pos hup] at hdirs ⊢
      rw [ih h.up hcomps hdirs,Vfs.walkOn,if_pos hup]
    rw [if_neg hup] at hdirs ⊢
    obtain rfl | ⟨child,hchild,hdir,hdirs⟩ := hdirs
    · rw [foldl_nil,reverse_cons,h.walkOn hlinks]
      simp [Vfs.walkOn,hlinks]
    · have htrail : Trail tree (comp :: stack) (child :: st) := ⟨hup,hchild,hdir,h⟩
      rw [ih htrail hcomps hdirs,Vfs.walkOn,if_neg hup,hchild]
      simp [hlinks,hdir]

theorem namesDirs_of_walkOn (hwalk : Vfs.walkOn tree follow cross st comps = .ok n) :
    NamesDirs tree st comps := by
  induction comps generalizing st with
  | nil => trivial
  | cons comp comps ih =>
    rw [Vfs.walkOn] at hwalk
    rw [NamesDirs]
    split at hwalk
    · rename_i hup
      rw [if_pos hup]
      exact ih hwalk
    rename_i hup
    rw [if_neg hup]
    split at hwalk
    · cases hwalk
    rename_i child hchild
    rw [hlinks child] at hwalk
    dsimp only at hwalk
    split at hwalk
    · cases hwalk
    rename_i hdir
    by_cases hlast : comps = []
    · exact .inl hlast
    · exact .inr ⟨child,hchild,by simpa [hlast] using hdir,ih hwalk⟩

end Tree

theorem normalize_agrees (p : Path) : (∃ cs : List Name, (∀ c ∈ cs, Proper c) ∧
      normalize p = if cs = [] then ['/'] else cs.flatMap ('/' :: ·)) ∧
    normalize (normalize p) = normalize p ∧
    ∀ (ι : Type) (tree : LinkTree ι) (follow : Bool) (n : ι), (∀ i, tree.linkTarget i = none) →
      resolve tree follow p = .ok n → resolve tree follow (normalize p) = .ok n := by
  have hnorm : ∀ p, normalize p = if (components p).foldl normalizeStep [] = [] then ['/'] else
      ((components p).foldl normalizeStep []).reverse.flatMap ('/' :: ·) :=
    fun p => by rw [foldl_components,normalize]
  have hproper : ∀ c ∈ ((components p).foldl normalizeStep []).reverse, Proper c := fun c hc =>
    foldl_proper (by simp) (fun c hc => (mem_components hc).2) c (mem_reverse.mp hc)
  have hcomps : components (normalize p) = ((components p).foldl normalizeStep []).reverse := by
    rw [hnorm]
    split
    · rename_i h
      rw [h]
      rfl
    · exact components_flatMap hproper
  refine ⟨⟨_,hproper,by simpa using hnorm p⟩,?_,fun ι tree follow n hlinks hn => ?_⟩
  · rw [hnorm (normalize p),hcomps,foldl_of_proper hproper,reverse_reverse,append_nil,← hnorm]
  · have hroot : Trail tree [] [tree.root] := rfl
    rw [resolve,hcomps]
    exact (hroot.normalized hlinks (fun c hc => (mem_components hc).1)
      (namesDirs_of_walkOn hlinks hn)).trans hn

def binTree : LinkTree Nat :=
  ⟨0,fun d name => if d = 0 ∧ name = "bin".toList then some 1 else none,fun d => d = 0 ∨ d = 1,fun _ => none⟩

theorem normalize_agrees_bin : resolve binTree true (normalize "/bin/../bin/.".toList) = .ok 1 :=
  (normalize_agrees _).2.2 _ binTree true 1 (fun _ => rfl) (by decide +kernel)

end PaghOS.Vfs
