import Mathlib.Data.List.Pairwise
import PaghOS.Pkg.Plan

/-!
The pure model of an install (`install_model` of `pkg/install.rs`) against the
plan the installer follows. Both write contents at paths, the later write at a
path hiding the earlier; the planner goes by a member's effective path and the
model by its name field alone.
-/

namespace PaghOS.Pkg
open List

open Vfs

abbrev ModelFs := Path → Option (List UInt8)

def ModelFs.empty : ModelFs := fun _ => none

def ModelFs.insert (model : ModelFs) (path : Path) (content : List UInt8) : ModelFs :=
  fun p => if p = path then some content else model p

def modelMember (model : ModelFs) (entry : TarEntry) : ModelFs :=
  if entry.kind ≠ .regular then model
  else
    match normalizeEntryPath entry.path with
    | .keep path => model.insert path entry.content
    | .skipUnsafe => model

def installModel (entries : List TarEntry) : ModelFs := entries.foldl modelMember .empty

/-- The effect of one planned operation on the contents: only files have one. -/
def foldOp (model : ModelFs) : InstallOp → ModelFs
  | .file path content _ => model.insert path content
  | .symlink _ _ => model
  | .hardlink _ _ => model

def foldFiles (ops : List InstallOp) : ModelFs := ops.foldl foldOp .empty

def lastWrite (writes : List (Path × List UInt8)) (p : Path) : Option (List UInt8) :=
  ((writes.filter (fun w => w.1 = p)).getLast?).map (·.2)

theorem lastWrite_concat (writes : List (Path × List UInt8)) (w : Path × List UInt8) (p : Path) :
    lastWrite (writes ++ [w]) p = if p = w.1 then some w.2 else lastWrite writes p := by
  unfold lastWrite
  rw [filter_append]
  by_cases hp : p = w.1
  · simp [hp]
  · simp [hp,Ne.symm hp]

theorem foldl_insert_eq_lastWrite {α : Type} (step : ModelFs → α → ModelFs)
    (write? : α → Option (Path × List UInt8)) (hstep : ∀ model a, step model a =
      (write? a).elim model (fun w => model.insert w.1 w.2)) (as : List α) :
    as.foldl step .empty = lastWrite (as.filterMap write?) := by
  induction as using List.reverseRecOn with
  | nil => rfl
  | append_singleton as a ih =>
    rw [foldl_append,foldl_cons,foldl_nil,ih,hstep,filterMap_append]
    cases hw : write? a with
    | none => simp [hw]
    | some w =>
      funext p
      simp [ModelFs.insert,hw,lastWrite_concat]

def InstallOp.write? : InstallOp → Option (Path × List UInt8)
  | .file path content _ => some (path,content)
  | .symlink _ _ => none
  | .hardlink _ _ => none

def TarEntry.write? (archived : TarEntry → Path) (entry : TarEntry) :
    Option (Path × List UInt8) :=
  if entry.kind = .regular then
    match normalizeEntryPath (archived entry) with
    | .keep path => some (path,entry.content)
    | .skipUnsafe => none
  else none

theorem foldFiles_eq (ops : List InstallOp) : foldFiles ops = lastWrite (ops.filterMap InstallOp.write?) := by
  apply foldl_insert_eq_lastWrite
  intro model op
  cases op <;> rfl

theorem installModel_eq (entries : List TarEntry) :
    installModel entries = lastWrite (entries.filterMap (TarEntry.write? TarEntry.path)) := by
  apply foldl_insert_eq_lastWrite
  intro model entry
  unfold modelMember TarEntry.write?
  by_cases hk : entry.kind = .regular
  · simp only [hk,ne_eq,not_true_eq_false,if_false,if_true]
    cases normalizeEntryPath entry.path <;> rfl
  · simp [hk]

def InstallPlan.writes (plan : InstallPlan) : List (Path × List UInt8) :=
  plan.ops.filterMap InstallOp.write?

theorem Planner.writes_add (p : Planner) (op : InstallOp) (path : Path) :
    (p.add op path).plan.writes = p.plan.writes ++ op.write?.toList := by
  simp only [Planner.add,InstallPlan.writes,filterMap_append]
  cases h : op.write? <;> simp [h]

theorem Planner.writes_member (p : Planner) (entry : TarEntry) : (p.member entry).plan.writes =
      p.plan.writes ++ (entry.write? effectivePath).toList := by
  unfold Planner.member TarEntry.write?
  cases hpath : normalizeEntryPath (effectivePath entry) with
  | skipUnsafe => simp [Planner.dropUnsafe,InstallPlan.writes]
  | keep path =>
    cases hk : entry.kind with
    | regular => simpa [InstallOp.write?] using p.writes_add (.file path entry.content entry.mode) path
    | symlink =>
      dsimp only
      split
      · simp [Planner.dropEmptyTarget,InstallPlan.writes]
      · simpa [InstallOp.write?] using p.writes_add (.symlink path entry.linkTarget) path
    | hardlink =>
      dsimp only
      split
      · simp [Planner.dropEmptyTarget,InstallPlan.writes]
      · split
        · simp [Planner.dropUnsafe,InstallPlan.writes]
        · simp [InstallPlan.writes]
    | directory | other => simp [Planner.dropOther,InstallPlan.writes]

theorem Planner.writes_read (entries : List TarEntry) (p : Planner) :
    (entries.foldl Planner.member p).plan.writes =
      p.plan.writes ++ entries.filterMap (TarEntry.write? effectivePath) := by
  induction entries generalizing p with
  | nil => simp
  | cons entry entries ih =>
    rw [foldl_cons,ih,p.writes_member,append_assoc,filterMap_cons]
    cases entry.write? effectivePath <;> rfl

theorem Planner.writes_tryLink (p : Planner) (l : Path × Path) :
    (p.tryLink l).plan.writes = p.plan.writes := by
  unfold Planner.tryLink
  split
  · rw [p.writes_add]
    simp [InstallOp.write?]
  · rfl

theorem Planner.writes_round (p : Planner) : p.round.plan.writes = p.plan.writes := by
  have hfold : ∀ (ls : List (Path × Path)) (q : Planner),
      (ls.foldl Planner.tryLink q).plan.writes = q.plan.writes := by
    intro ls
    induction ls with
    | nil => exact fun q => rfl
    | cons l ls ih => exact fun q => (ih _).trans (q.writes_tryLink l)
  exact hfold p.pending _

theorem Planner.writes_rounds (n : Nat) (p : Planner) : (Planner.rounds n p).plan.writes = p.plan.writes := by
  induction n generalizing p with
  | zero => rfl
  | succ n ih =>
    unfold Planner.rounds
    split
    · rw [ih,p.writes_round]
    · exact p.writes_round

theorem planInstall_writes (entries : List TarEntry) : (planInstall entries).ops.filterMap InstallOp.write? =
      entries.filterMap (TarEntry.write? effectivePath) := by
  have hread := Planner.writes_read entries .start
  have hrounds := Planner.writes_rounds ((entries.foldl Planner.member .start).pending.length+1)
    (entries.foldl Planner.member .start)
  have hlinks : ∀ ls : List (Path × Path),
      (ls.map (fun l => InstallOp.hardlink l.1 l.2)).filterMap InstallOp.write? = [] := by
    intro ls
    simp [Function.comp_def,InstallOp.write?]
  simp only [planInstall,filterMap_append,hlinks,append_nil]
  exact hrounds.trans (hread.trans (by simp [Planner.start,InstallPlan.writes]))

def lastContent (archived : TarEntry → Path) (entries : List TarEntry) (p : Path) :
    Option (List UInt8) :=
  ((entries.filter (fun e => e.kind = .regular ∧ normalizeEntryPath (archived e) = .keep p)).getLast?).map
    (·.content)

theorem lastWrite_members (archived : TarEntry → Path) (entries : List TarEntry) (p : Path) :
    lastWrite (entries.filterMap (TarEntry.write? archived)) p = lastContent archived entries p := by
  induction entries using List.reverseRecOn with
  | nil => rfl
  | append_singleton entries entry ih =>
    have hlast : lastContent archived (entries ++ [entry]) p =
        if entry.kind = .regular ∧ normalizeEntryPath (archived entry) = .keep p then
          some entry.content else lastContent archived entries p := by
      unfold lastContent
      rw [filter_append]
      split <;> simp_all
    rw [hlast,filterMap_append]
    cases hw : entry.write? archived with
    | none =>
      have hnot : ¬ (entry.kind = .regular ∧ normalizeEntryPath (archived entry) = .keep p) := by
        rintro ⟨hk,hpath⟩
        simp [TarEntry.write?,hk,hpath] at hw
      simp [hw,ih,hnot]
    | some w =>
      obtain ⟨hk,hpath,hcontent⟩ : entry.kind = .regular ∧
          normalizeEntryPath (archived entry) = .keep w.1 ∧ entry.content = w.2 := by
        unfold TarEntry.write? at hw
        split at hw
        · rename_i hk
          split at hw
          · rename_i path hpath
            obtain rfl := Option.some.inj hw
            exact ⟨hk,hpath,rfl⟩
          · simp at hw
        · simp at hw
      simp [hw,lastWrite_concat,ih,hk,hpath,hcontent,NormPath.keep.injEq,eq_comm]

/-- A member whose `prefix` field takes it to another place than its name. -/
def Moved (entry : TarEntry) : Prop :=
  entry.kind = .regular ∧
    normalizeEntryPath (effectivePath entry) ≠ normalizeEntryPath entry.path

/-- One content, or one place in one of the two views. -/
def Collide (a b : TarEntry) : Prop :=
  a.content = b.content ∨ ∃ p,
    (normalizeEntryPath (effectivePath a) = .keep p ∧ normalizeEntryPath (effectivePath b) = .keep p) ∨
    (normalizeEntryPath a.path = .keep p ∧ normalizeEntryPath b.path = .keep p)

def NoneOverwritten (entries : List TarEntry) : Prop :=
  (entries.filter (·.kind = .regular)).Pairwise fun a b => ¬ Collide a b

section Members
variable {entries : List TarEntry} {archived : TarEntry → Path} {p : Path}

theorem lastContent_isSome {e : TarEntry} (he : e ∈ entries) (hk : e.kind = .regular)
    (hp : normalizeEntryPath (archived e) = .keep p) : ∃ c, lastContent archived entries p = some c := by
  have hmem : e ∈ entries.filter (fun e =>
      e.kind = .regular ∧ normalizeEntryPath (archived e) = .keep p) := by
    simp [he,hk,hp]
  exact ⟨_,by rw [lastContent,getLast?_eq_some_getLast (ne_nil_of_mem hmem)]; rfl⟩

theorem lastContent_mem {c : List UInt8} (h : lastContent archived entries p = some c) :
    ∃ e ∈ entries, e.kind = .regular ∧ normalizeEntryPath (archived e) = .keep p ∧ e.content = c := by
  simp only [lastContent,Option.map_eq_some_iff] at h
  obtain ⟨e,he,rfl⟩ := h
  have hmem := mem_of_getLast? he
  simp only [mem_filter,decide_eq_true_eq] at hmem
  exact ⟨e,hmem.1,hmem.2.1,hmem.2.2,rfl⟩

theorem lastContent_eq_of_unmoved (h : ∀ entry ∈ entries, ¬ Moved entry) :
    lastContent effectivePath entries p = lastContent TarEntry.path entries p := by
  unfold lastContent
  have hfilter : entries.filter
        (fun e => e.kind = .regular ∧ normalizeEntryPath (effectivePath e) = .keep p) =
      entries.filter (fun e => e.kind = .regular ∧ normalizeEntryPath e.path = .keep p) := by
    apply filter_congr
    intro e he
    by_cases hk : e.kind = .regular
    · have heq : normalizeEntryPath (effectivePath e) = normalizeEntryPath e.path := by
        by_contra hne
        exact h e he ⟨hk,hne⟩
      simp [heq]
    · simp [hk]
  rw [hfilter]

theorem NoneOverwritten.eq_of_collide (h : NoneOverwritten entries) {a b : TarEntry} (ha : a ∈ entries)
    (hb : b ∈ entries) (hka : a.kind = .regular) (hkb : b.kind = .regular) (hab : Collide a b) : a = b := by
  by_contra hne
  have hsymm : Std.Symm fun a b => ¬ Collide a b := by
    constructor
    rintro x y hxy (hc | ⟨p,hp | hp⟩)
    · exact hxy (.inl hc.symm)
    · exact hxy (.inr ⟨p,.inl hp.symm⟩)
    · exact hxy (.inr ⟨p,.inr hp.symm⟩)
  exact Pairwise.forall h (mem_filter.2 ⟨ha,by simpa using hka⟩)
    (mem_filter.2 ⟨hb,by simpa using hkb⟩) hne hab

/-- A member that stands at `p` in one view and whose content stands there in the other is
itself there. -/
theorem stands_in_both {one other : TarEntry → Path} {e : TarEntry} (hnone : NoneOverwritten entries)
    (hview : ∀ a b, normalizeEntryPath (one a) = .keep p → normalizeEntryPath (one b) = .keep p → Collide a b)
    (heq : lastContent one entries p = lastContent other entries p) (he : e ∈ entries)
    (hk : e.kind = .regular)
    (hp : normalizeEntryPath (one e) = .keep p) : normalizeEntryPath (other e) = .keep p := by
  obtain ⟨c,hc⟩ := lastContent_isSome he hk hp
  obtain ⟨a,ha,hka,hpa,hca⟩ := lastContent_mem hc
  obtain ⟨b,hb,hkb,hpb,hcb⟩ := lastContent_mem (heq ▸ hc)
  obtain rfl := hnone.eq_of_collide ha he hka hk (hview a e hpa hp)
  obtain rfl := hnone.eq_of_collide hb ha hkb hka (.inl (hcb.trans hca.symm))
  exact hpb

end Members

/-- The model is the plan's map when no prefix moves a member, and where no member hides
another only then. -/
theorem foldFiles_eq_installModel (entries : List TarEntry) :
    ((∀ e ∈ entries, ¬ Moved e) → foldFiles (planInstall entries).ops = installModel entries) ∧
    (NoneOverwritten entries →
      (foldFiles (planInstall entries).ops = installModel entries ↔ ∀ e ∈ entries, ¬ Moved e)) := by
  have heq : foldFiles (planInstall entries).ops = installModel entries ↔
      ∀ p, lastContent effectivePath entries p = lastContent TarEntry.path entries p := by
    rw [foldFiles_eq,planInstall_writes,installModel_eq,funext_iff]
    simp [lastWrite_members]
  rw [heq]
  have hsuff : (∀ e ∈ entries, ¬ Moved e) →
      ∀ p, lastContent effectivePath entries p = lastContent TarEntry.path entries p :=
    fun h _ => lastContent_eq_of_unmoved h
  refine ⟨hsuff,fun hnone => ⟨?_,hsuff⟩⟩
  rintro hmaps e he ⟨hk,hmoved⟩
  cases heff : normalizeEntryPath (effectivePath e) with
  | keep p =>
    have hname := stands_in_both hnone (fun a b ha hb => .inr ⟨p,.inl ⟨ha,hb⟩⟩) (hmaps p) he hk heff
    exact hmoved (heff.trans hname.symm)
  | skipUnsafe =>
    cases hname : normalizeEntryPath e.path with
    | skipUnsafe => exact hmoved (heff.trans hname.symm)
    | keep p =>
      have := stands_in_both hnone (fun a b ha hb => .inr ⟨p,.inr ⟨ha,hb⟩⟩) (hmaps p).symm he hk hname
      exact hmoved (this.trans hname.symm)

def prefixedMember : TarEntry :=
  ⟨"tool".toList,"usr/bin".toList,.regular,0o644,[1],[]⟩

/-- The plan installs the member under its full path, the model at the root. -/
theorem prefixed_member_misplaced :
    foldFiles (planInstall [prefixedMember]).ops "usr/bin/tool".toList = some [1] ∧
    installModel [prefixedMember] "usr/bin/tool".toList = none ∧
    installModel [prefixedMember] "tool".toList = some [1] ∧
    foldFiles (planInstall [prefixedMember]).ops ≠ installModel [prefixedMember] := by
  have hplan : foldFiles (planInstall [prefixedMember]).ops "usr/bin/tool".toList = some [1] := by
    decide
  have hmodel : installModel [prefixedMember] "usr/bin/tool".toList = none := by decide
  refine ⟨hplan,hmodel,by decide,?_⟩
  intro h
  rw [h,hmodel] at hplan
  simp at hplan

end PaghOS.Pkg
