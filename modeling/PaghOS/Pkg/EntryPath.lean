import PaghOS.Pkg.Plan

/-!
The lexical guard of the installer: which member paths `normalize_entry_path` keeps, and
that a kept path leads where the archived one did.
-/

namespace PaghOS.Pkg
open List Vfs

variable {stack out comps : List Name} {s p : Path}

theorem components_stripLead (s : Path) : components (stripLead s) = components s := by
  fun_induction stripLead s with
  | case1 rest ih => rw [ih,show '.' :: '/' :: rest = ['.'] ++ '/' :: rest from rfl,components_append]; rfl
  | case2 rest ih => rw [ih,show '/' :: rest = [] ++ '/' :: rest from rfl,components_append]; rfl
  | case3 => rfl

theorem normStack_filter (stack comps : List Name) :
    normStack stack (comps.filter (fun c => c ≠ [] ∧ c ≠ dot)) = normStack stack comps := by
  fun_induction normStack stack comps with
  | case1 stack => rfl
  | case2 stack comp rest hskip ih => rw [filter_cons_of_neg (by simpa [← not_or] using hskip),ih]
  | case3 rest hskip => rw [filter_cons_of_pos (by decide)]; rfl
  | case4 rest d stack hskip ih => rw [filter_cons_of_pos (by decide)]; exact ih
  | case5 stack comp rest hskip hup ih =>
    rw [filter_cons_of_pos (by simpa [← not_or] using hskip),← ih]
    simp [normStack,hskip,hup]

theorem normalizeEntryPath_iff (s : Path) :
    (normalizeEntryPath s = .skipUnsafe ↔
      normStack [] (components s) = none ∨ normStack [] (components s) = some []) ∧
    ∀ p, normalizeEntryPath s = .keep p ↔
      ∃ out, out ≠ [] ∧ normStack [] (components s) = some out ∧ p = ['/'].intercalate out.reverse := by
  rw [normalizeEntryPath,← normStack_filter,← components,components_stripLead]
  cases normStack [] (components s) with
  | none => simp
  | some out => cases out <;> simp [eq_comm]

/-- A `..` with no name left to drop: some part of the path has more of them than names. -/
theorem normStack_eq_none (hcomps : ∀ c ∈ comps, ¬ (c = [] ∨ c = dot)) :
    normStack stack comps = none ↔
      ∃ q, q <+: comps ∧ stack.length+q.countP (· ≠ dotDot) < q.count dotDot := by
  fun_induction normStack stack comps with
  | case1 stack => simp
  | case2 stack comp rest hskip ih => exact absurd hskip (hcomps comp mem_cons_self)
  | case3 rest hskip => exact iff_of_true rfl ⟨[dotDot],by simp,by simp⟩
  | case4 rest d stack hskip ih =>
    rw [ih (forall_mem_cons.mp hcomps).2]
    simp [prefix_cons_iff,Nat.add_right_comm _ 1]
  | case5 stack comp rest hskip hup ih =>
    rw [ih (forall_mem_cons.mp hcomps).2]
    simp [prefix_cons_iff,hup,Nat.add_right_comm _ 1,Nat.add_assoc]

theorem normStack_length (hcomps : ∀ c ∈ comps, ¬ (c = [] ∨ c = dot))
    (h : normStack stack comps = some out) :
    out.length+comps.count dotDot = stack.length+comps.countP (· ≠ dotDot) := by
  fun_induction normStack stack comps with
  | case1 stack =>
    cases h
    simp
  | case2 stack comp rest hskip ih => exact absurd hskip (hcomps comp mem_cons_self)
  | case3 rest hskip => cases h
  | case4 rest d stack hskip ih =>
    have := ih (forall_mem_cons.mp hcomps).2 h
    simp at this ⊢
    omega
  | case5 stack comp rest hskip hup ih =>
    have := ih (forall_mem_cons.mp hcomps).2 h
    simp [hup] at this ⊢
    omega

theorem normStack_of_proper (hcomps : ∀ c ∈ comps, Proper c) :
    normStack stack comps = some (comps.reverse ++ stack) := by
  induction comps generalizing stack with
  | nil => rfl
  | cons c comps ih =>
    obtain ⟨hc,hcomps⟩ := forall_mem_cons.mp hcomps
    simp [normStack,hc.1,hc.2.1,hc.2.2.1,ih hcomps]

theorem entry_path_normalised (s : Path) :
    (normalizeEntryPath s = .skipUnsafe ↔
      (∃ q, q <+: components s ∧ q.countP (· ≠ dotDot) < q.count dotDot) ∨
        (components s).countP (· ≠ dotDot) = (components s).count dotDot) ∧
    ∀ p, normalizeEntryPath s = .keep p →
      (∃ cs, cs ≠ [] ∧ (∀ c ∈ cs, Proper c) ∧ p = ['/'].intercalate cs) ∧ normalizeEntryPath p = .keep p ∧
      ∀ (ι : Type) (tree : LinkTree ι) (follow : Bool)
        (cross : List ι → LinkTarget → List Name → Except WalkError ι), (∀ i, tree.linkTarget i = none) →
        (∀ n, walkOn tree follow cross [tree.root] (components s) = .ok n →
          walkOn tree follow cross [tree.root] (components p) = .ok n) ∧
        (NamesDirs tree [tree.root] (components s) → walkOn tree follow cross [tree.root] (components p) =
          walkOn tree follow cross [tree.root] (components s)) := by
  have hcomps : ∀ c ∈ components s, ¬ (c = [] ∨ c = dot) := fun c hc => (mem_components hc).1
  have hnone : normStack [] (components s) = none ↔ _ := normStack_eq_none hcomps
  simp only [length_nil,Nat.zero_add] at hnone
  constructor
  · rw [(normalizeEntryPath_iff s).1,← hnone]
    cases hnorm : normStack [] (components s) with
    | none => simp
    | some out =>
      have hlen := normStack_length hcomps hnorm
      simp only [reduceCtorEq,Option.some.injEq,false_or,← length_eq_zero_iff,length_nil] at hlen ⊢
      omega
  intro p hkeep
  obtain ⟨out,hne,hnorm,rfl⟩ := ((normalizeEntryPath_iff s).2 p).mp hkeep
  have hproper : ∀ c ∈ out.reverse, Proper c := by
    intro c hc
    rw [normStack_eq hnorm,mem_reverse] at hc
    exact foldl_proper (by simp) (fun c hc => (mem_components hc).2) c hc
  have hsplit : components (['/'].intercalate out.reverse) = out.reverse := by
    rw [components,splitOn_intercalate '/' (fun c hc => (hproper c hc).2.2.2) (by simpa using hne)]
    exact filter_eq_self.mpr (fun c hc => by simp [(hproper c hc).1,(hproper c hc).2.1])
  refine ⟨⟨_,by simpa using hne,hproper,rfl⟩,?_,?_⟩
  · rw [(normalizeEntryPath_iff _).2,hsplit,normStack_of_proper hproper]
    exact ⟨out,hne,by simp,rfl⟩
  · intro ι tree follow cross hlinks
    rw [hsplit,normStack_eq hnorm]
    have hroot : Trail tree [] [tree.root] := rfl
    refine ⟨fun n hwalk => ?_,hroot.normalized hlinks hcomps⟩
    rw [← hwalk]
    exact hroot.normalized hlinks hcomps (namesDirs_of_walkOn hlinks hwalk)

theorem entry_path_normalised_dots : normalizeEntryPath "./a/../b".toList = .keep "b".toList ∧
    normalizeEntryPath "b".toList = .keep "b".toList :=
  have h : normalizeEntryPath "./a/../b".toList = .keep "b".toList := by decide
  ⟨h,((entry_path_normalised _).2 _ h).2.1⟩

end PaghOS.Pkg
