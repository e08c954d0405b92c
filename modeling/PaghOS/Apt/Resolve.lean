import PaghOS.Apt.IndexSpec
import PaghOS.Lib.Dfs

/-!
The dependency resolver of `apt install` (`pkg/apt_resolve.rs`): a depth-first search
over the names of the index, against the plan it is to produce.
-/

namespace PaghOS.Apt
open List Option

open Relation

variable {n a : List Char} {deps before after ds es : List (List Char)} {fuel : Nat}

inductive AptError where
  | notFound (target : List Char)
  deriving DecidableEq

section Model

variable (index : PackageIndex) (installed : List (List Char))

/-- The first alternative that is installed, or else the first the index has. -/
def chooseAlternative (alts : List (List Char)) : Option (List Char) :=
  match alts.find? (installed.contains ·) with
  | some alt => some alt
  | none => alts.find? (index.contains ·)

def chosenDeps (groups : List (List (List Char))) : List (List Char) :=
  groups.filterMap fun alts =>
    (chooseAlternative index installed alts).filter fun chosen => !installed.contains chosen

/-- The package that answers a name, with the names it needs; none if it is installed. -/
def expandName (name : List Char) : Option (List Char × List (List Char)) :=
  match index.getProvider name with
  | none => none
  | some record =>
    if installed.contains record.package then none
    else some (record.package,chosenDeps index installed record.depends)

def visit (fuel : Nat) (start : List Char) : Option (List (List Char)) :=
  (Dfs.run (expandName index installed) fuel
    (Dfs.enter (expandName index installed) {} start)).map (·.order)

def resolveInstall (fuel : Nat) (target : List Char) :
    Option (Except AptError (List (List Char))) :=
  if installed.contains target then some (.ok [])
  else if (index.getProvider target).isNone then some (.error (.notFound target))
  else (visit index installed fuel target).map .ok

def recursiveVisit (fuel : Nat) (start : List Char) : Option (List (List Char)) :=
  Dfs.visit (expandName index installed) fuel [] [] start

end Model

/-! ### What a plan is to be -/

section Plan

variable (index : PackageIndex) (installed : List (List Char))

/-- `p` needs `q`: a group of the package `p` whose chosen name, not installed, is
answered by the package `q`. -/
def Needs (p q : List Char) : Prop :=
  ∃ r alts chosen r', index.get p = some r ∧ alts ∈ r.depends ∧
    chooseAlternative index installed alts = some chosen ∧ installed.contains chosen = false ∧
      index.getProvider chosen = some r' ∧ r'.package = q

def Precedes (order : List (List Char)) (q p : List Char) : Prop :=
  ∃ before after, order = before ++ p :: after ∧ q ∈ before

structure Plan (target : List Char) (order : List (List Char)) : Prop where
  nodup : order.Nodup
  real : ∀ p ∈ order, (index.get p).isSome = true
  fresh : ∀ p ∈ order, installed.contains p = false
  answered : ∀ r, index.getProvider target = some r → r.package ∈ order
  closed : ∀ p ∈ order, ∀ r, index.get p = some r → ∀ alts ∈ r.depends,
    (∃ alt ∈ alts, (installed.contains alt || index.contains alt) = true) →
      ∃ chosen, chooseAlternative index installed alts = some chosen ∧
        (installed.contains chosen = true ∨
          ∃ r', index.getProvider chosen = some r' ∧ r'.package ∈ order)
  ordered : ∀ p ∈ order, ∀ q, Needs index installed p q →
    Precedes order q p ∨ ReflTransGen (Needs index installed) q p
  recursive : ∀ fuel, index.records.length < fuel →
    recursiveVisit index installed fuel target = some order

def Reached (target n : List Char) : Prop :=
  ReflTransGen (Dfs.Child (expandName index installed)) target n

/-- The stanza that answers the name is the one its package's own name answers. -/
def Current (n : List Char) : Prop :=
  ∀ r, index.getProvider n = some r → index.get r.package = some r

/-- The package that answers the name is not installed. -/
def Missing (n : List Char) : Prop :=
  ∀ r, index.getProvider n = some r → installed.contains r.package = false

/-- The index came out of a builder with a record number for each of its records. -/
def Built : Prop := ∃ b : PackageIndexBuilder, b.records.length < 4294967296 ∧ index = b.finish

end Plan

section Facts

variable {index : PackageIndex} {installed : List (List Char)} {target : List Char}
variable {p q : List Char} {r : PkgRef}

variable {chosen : List Char}

theorem mem_chosenDeps {groups : List (List (List Char))} : chosen ∈ chosenDeps index installed groups ↔
      ∃ alts ∈ groups, chooseAlternative index installed alts = some chosen ∧
        installed.contains chosen = false := by
  simp [chosenDeps]

variable {name : List Char}

theorem of_expandName (h : expandName index installed name = some (p,deps)) :
    ∃ r, index.getProvider name = some r ∧ installed.contains r.package = false ∧
      r.package = p ∧ chosenDeps index installed r.depends = deps := by
  unfold expandName at h
  cases hprov : index.getProvider name with
  | none => simp [hprov] at h
  | some r =>
    cases hinst : installed.contains r.package with
    | true => simp only [hprov,hinst,if_true,reduceCtorEq] at h
    | false =>
      simp only [hprov,hinst,Bool.false_eq_true,if_false,some.injEq,Prod.mk.injEq] at h
      exact ⟨r,rfl,hinst,h⟩

theorem expandName_eq (hr : index.getProvider name = some r)
    (hinst : installed.contains r.package = false) :
    expandName index installed name = some (r.package,chosenDeps index installed r.depends) := by
  simp only [expandName,hr,hinst,Bool.false_eq_true,if_false]

theorem Built.get_isSome (h : Built index) {name : List Char}
    (hr : index.getProvider name = some r) : (index.get r.package).isSome = true := by
  obtain ⟨b,hn,rfl⟩ := h
  obtain ⟨hindex,hmem⟩ := PackageIndex.of_getProvider hr
  obtain ⟨i,hi,hrec⟩ := getElem_of_mem hmem
  have hname : recordName b.arena b.records i = r.package := by
    have hget : b.records[i]? = some r.record := by
      rw [← hrec]
      exact List.getElem?_eq_getElem hi
    rw [recordName,PkgRef.package,hindex,hget]
    rfl
  exact hname ▸ PackageIndexBuilder.get_isSome hn hi

variable {alts : List (List Char)}

theorem chooseAlternative_isSome (h : ∃ alt ∈ alts, (installed.contains alt || index.contains alt) = true) :
    ∃ chosen, chooseAlternative index installed alts = some chosen := by
  obtain ⟨alt,halt,hok⟩ := h
  rw [chooseAlternative]
  cases hfirst : alts.find? (installed.contains ·) with
  | some chosen => exact ⟨chosen,rfl⟩
  | none =>
    have hnot : installed.contains alt = false :=
      Bool.not_eq_true _ ▸ List.find?_eq_none.mp hfirst alt halt
    have hin : index.contains alt = true := by
      rw [hnot,Bool.false_or] at hok
      exact hok
    exact isSome_iff_exists.mp (List.find?_isSome.mpr ⟨alt,halt,hin⟩)

theorem of_chosen (h : chooseAlternative index installed alts = some chosen) :
    chosen ∈ alts ∧ (installed.contains chosen || index.contains chosen) = true := by
  rw [chooseAlternative] at h
  cases hfirst : alts.find? (installed.contains ·) with
  | some alt =>
    rw [hfirst] at h
    obtain rfl := some.inj h
    have hinst : installed.contains alt = true := List.find?_some hfirst
    exact ⟨mem_of_find?_eq_some hfirst,by rw [hinst,Bool.true_or]⟩
  | none =>
    rw [hfirst] at h
    have hfound : alts.find? (index.contains ·) = some chosen := h
    have hin : index.contains chosen = true := List.find?_some hfound
    exact ⟨mem_of_find?_eq_some hfound,by rw [hin,Bool.or_true]⟩

theorem getProvider_of_chosen (h : chooseAlternative index installed alts = some chosen)
    (hnot : installed.contains chosen = false) : ∃ r, index.getProvider chosen = some r := by
  have hin := (of_chosen h).2
  rw [hnot,Bool.false_or] at hin
  exact isSome_iff_exists.mp hin

theorem expandName_mem (h : expandName index installed name = some (p,deps)) :
    p ∈ index.records.map fun rec => resolve index.arena rec.package := by
  obtain ⟨r,hr,-,rfl,-⟩ := of_expandName h
  obtain ⟨hindex,hmem⟩ := PackageIndex.of_getProvider hr
  rw [PkgRef.package,hindex]
  exact mem_map_of_mem (f := fun rec => resolve index.arena rec.package) hmem

theorem recursiveVisit_isSome (hfuel : index.records.length < fuel)
    (start : List Char) : (recursiveVisit index installed fuel start).isSome = true := by
  apply Dfs.visit_isSome (fun _ _ _ h => expandName_mem h)
  refine lt_of_le_of_lt (length_filter_le _ _) ?_
  rw [length_map]
  exact hfuel

theorem recursiveVisit_mono {start : List Char} {order : List (List Char)}
    (h : recursiveVisit index installed fuel start = some order) (more : Nat) :
    recursiveVisit index installed (fuel+more) start = some order := by
  induction more with
  | zero => exact h
  | succ more ih => exact Dfs.visit_mono ih

theorem exists_order (index : PackageIndex) (installed : List (List Char)) (target : List Char) :
    ∃ order, (∃ enough, ∀ fuel, enough ≤ fuel → visit index installed fuel target = some order) ∧
      (∀ fuel, index.records.length < fuel → recursiveVisit index installed fuel target = some order) ∧
      Dfs.Adds (expandName index installed) [target] [] [] order := by
  have hsome : (recursiveVisit index installed index.records.length.succ target).isSome = true :=
    recursiveVisit_isSome (Nat.lt_succ_self index.records.length) target
  obtain ⟨order,horder⟩ := isSome_iff_exists.mp hsome
  refine ⟨order,?_,?_,?_⟩
  · obtain ⟨enough,hrun⟩ := Dfs.run_eq_visit horder
    refine ⟨enough,fun fuel hfuel => ?_⟩
    rw [visit,hrun fuel hfuel]
    rfl
  · intro fuel hfuel
    obtain ⟨more,rfl⟩ := Nat.exists_eq_add_of_lt hfuel
    have hmono := recursiveVisit_mono horder more
    have hsum : index.records.length.succ+more = index.records.length+more+1 := by omega
    rw [hsum] at hmono
    exact hmono
  · obtain ⟨new,hnew,hadds⟩ := Dfs.visit_adds horder
    rw [hnew]
    exact hadds

section Closure

variable {order : List (List Char)}

theorem of_mem_order (horder : Dfs.Adds (expandName index installed) [target] [] [] order)
    (hp : order = before ++ p :: after) :
    ∃ n r, Reached index installed target n ∧ index.getProvider n = some r ∧ r.package = p ∧
      installed.contains p = false ∧ ∀ d ∈ chosenDeps index installed r.depends, ∀ q es,
        expandName index installed d = some (q,es) →
          (q ∈ before ∨ ∃ a fs, expandName index installed a = some (q,fs) ∧
            Reached index installed target a ∧
              ReflTransGen (Dfs.Child (expandName index installed)) a n) ∧ q ∈ order := by
  have hplaced := horder.placed
  rw [nil_append] at hplaced
  nth_rewrite 2 [hp] at hplaced
  obtain ⟨n,ds,hn,⟨m,hm,hreach⟩,hdeps⟩ := hplaced.split
  rw [mem_singleton.mp hm] at hreach
  obtain ⟨r,hr,hinst,hpkg,rfl⟩ := of_expandName hn
  refine ⟨n,r,hreach,hr,hpkg,hpkg ▸ hinst,?_⟩
  intro d hd q es hq
  obtain ⟨hplace,hin⟩ := hdeps d hd q es hq
  constructor
  · rcases hplace with hb | hpath | ⟨a,fs,ha,⟨m',hm',hreach'⟩,habove⟩
    · exact .inl hb
    · cases hpath
    · rw [mem_singleton.mp hm'] at hreach'
      exact .inr ⟨a,fs,ha,hreach',habove⟩
  · simpa using hin

section
variable (hcurrent : ∀ n, Reached index installed target n → Current index n)
include hcurrent

theorem needs_of_child {b : List Char} (ha : Reached index installed target a)
    (hchild : Dfs.Child (expandName index installed) a b)
    (hp : expandName index installed a = some (p,ds))
    (hq : expandName index installed b = some (q,es)) : Needs index installed p q := by
  obtain ⟨key,deps,hkey,hb⟩ := hchild
  rw [hkey] at hp
  obtain ⟨rfl,rfl⟩ := Prod.mk.inj (some.inj hp)
  obtain ⟨r,hr,-,hpkg,rfl⟩ := of_expandName hkey
  obtain ⟨alts,halts,hchosen,hnot⟩ := mem_chosenDeps.mp hb
  obtain ⟨r',hr',-,hpkg',-⟩ := of_expandName hq
  exact ⟨r,alts,b,r',hpkg ▸ hcurrent a ha r hr,halts,hchosen,hnot,hr',hpkg'⟩

theorem needs_of_above (ha : Reached index installed target a)
    (habove : ReflTransGen (Dfs.Child (expandName index installed)) a n)
    (hq : expandName index installed a = some (q,ds)) (hp : expandName index installed n = some (p,es)) :
    ReflTransGen (Needs index installed) q p := by
  induction habove using ReflTransGen.head_induction_on generalizing q ds with
  | refl =>
    rw [hq] at hp
    rw [(Prod.mk.inj (some.inj hp)).1]
  | head hchild hrest ih =>
    rename_i a b
    have hopen : ∃ k fs, expandName index installed b = some (k,fs) := by
      rcases hrest.cases_head with rfl | ⟨_,⟨k,fs,hb,-⟩,-⟩
      · exact ⟨p,es,hp⟩
      · exact ⟨k,fs,hb⟩
    obtain ⟨k,fs,hb⟩ := hopen
    exact .head (needs_of_child hcurrent ha hchild hq hb) (ih (ha.tail hchild) hb)

omit hcurrent in
theorem expandName_of_missing {d : List Char} (hmissing : Missing index installed d)
    (hr : index.getProvider d = some r) :
    expandName index installed d = some (r.package,chosenDeps index installed r.depends) :=
  expandName_eq hr (hmissing r hr)

theorem of_needed (hmissing : ∀ n, Reached index installed target n → Missing index installed n)
    (horder : Dfs.Adds (expandName index installed) [target] [] [] order)
    (hsplit : order = before ++ p :: after) (hneeds : Needs index installed p q) :
    q ∈ order ∧ (q ∈ before ∨ ReflTransGen (Needs index installed) q p) := by
  obtain ⟨r,alts,chosen,r',hget,halts,hchosen,hnot,hr',rfl⟩ := hneeds
  obtain ⟨n,r₁,hreach,hr₁,hpkg,hinst,hdeps⟩ := of_mem_order horder hsplit
  have hsame : r₁ = r := by
    have hcur := hcurrent n hreach r₁ hr₁
    rw [hpkg,hget] at hcur
    exact (some.inj hcur).symm
  subst hsame
  have hexp : expandName index installed n = some (p,chosenDeps index installed r₁.depends) :=
    hpkg ▸ expandName_eq hr₁ (hpkg ▸ hinst)
  have hd : chosen ∈ chosenDeps index installed r₁.depends :=
    mem_chosenDeps.mpr ⟨alts,halts,hchosen,hnot⟩
  have hreached : Reached index installed target chosen := hreach.tail ⟨p,_,hexp,hd⟩
  have hexp' := expandName_of_missing (hmissing chosen hreached) hr'
  obtain ⟨hplace,hin⟩ := hdeps chosen hd _ _ hexp'
  refine ⟨hin,hplace.imp_right ?_⟩
  rintro ⟨a,fs,ha,hareach,habove⟩
  exact needs_of_above hcurrent hareach habove ha hexp

end

theorem plan_of_missing (hbuilt : Built index)
    (hcurrent : ∀ n, Reached index installed target n → Current index n)
    (hmissing : ∀ n, Reached index installed target n → Missing index installed n)
    (horder : Dfs.Adds (expandName index installed) [target] [] [] order)
    (hrec : ∀ fuel, index.records.length < fuel →
      recursiveVisit index installed fuel target = some order) : Plan index installed target order where
  nodup := horder.nodup
  real := by
    intro p hp
    obtain ⟨before,after,hsplit⟩ := append_of_mem hp
    obtain ⟨n,r,-,hr,hpkg,-⟩ := of_mem_order horder hsplit
    exact hpkg ▸ hbuilt.get_isSome hr
  fresh := by
    intro p hp
    obtain ⟨before,after,hsplit⟩ := append_of_mem hp
    obtain ⟨n,r,-,-,-,hinst,-⟩ := of_mem_order horder hsplit
    exact hinst
  answered := by
    intro r hr
    have hexp := expandName_of_missing (hmissing target .refl) hr
    have hroot := horder.rooted target (by simp) _ _ hexp
    simpa using hroot
  closed := by
    intro p hp r hget alts halts hsome
    obtain ⟨before,after,hsplit⟩ := append_of_mem hp
    obtain ⟨chosen,hchosen⟩ := chooseAlternative_isSome hsome
    refine ⟨chosen,hchosen,?_⟩
    cases hinst : installed.contains chosen with
    | true => exact .inl rfl
    | false =>
      obtain ⟨r',hr'⟩ := getProvider_of_chosen hchosen hinst
      have hneeds : Needs index installed p r'.package :=
        ⟨r,alts,chosen,r',hget,halts,hchosen,hinst,hr',rfl⟩
      exact .inr ⟨r',hr',(of_needed hcurrent hmissing horder hsplit hneeds).1⟩
  ordered := by
    intro p hp q hneeds
    obtain ⟨before,after,hsplit⟩ := append_of_mem hp
    rcases (of_needed hcurrent hmissing horder hsplit hneeds).2 with hbefore | hcycle
    · exact .inl ⟨before,after,hsplit,hbefore⟩
    · exact .inr hcycle
  recursive := hrec

theorem Plan.answers (hplan : Plan index installed target order)
    (hcurrent : ∀ n, Reached index installed target n → Current index n)
    (hreach : Reached index installed target n) (hr : index.getProvider n = some r) :
    r.package ∈ order := by
  induction hreach generalizing r with
  | refl => exact hplan.answered r hr
  | tail hreach hchild ih =>
    obtain ⟨key,deps,hkey,hd⟩ := hchild
    obtain ⟨r₁,hr₁,-,-,rfl⟩ := of_expandName hkey
    obtain ⟨alts,halts,hchosen,hnot⟩ := mem_chosenDeps.mp hd
    have hmem := ih hr₁
    have hget := hcurrent _ hreach r₁ hr₁
    have hsome : ∃ alt ∈ alts, (installed.contains alt || index.contains alt) = true :=
      ⟨_,of_chosen hchosen⟩
    obtain ⟨chosen,hchosen',hok⟩ := hplan.closed _ hmem r₁ hget alts halts hsome
    rw [hchosen] at hchosen'
    obtain rfl := some.inj hchosen'
    rcases hok with hinst | ⟨r',hr',hin⟩
    · rw [hnot] at hinst
      cases hinst
    · rw [hr] at hr'
      rw [some.inj hr']
      exact hin

/-- What `resolve_install` answers. Where each name it comes to is answered by the
current stanza of a package, its list is a plan exactly if none of those packages is
installed already. -/
theorem resolveInstall_plan_iff (hbuilt : Built index) (installed : List (List Char)) (target : List Char) :
    (installed.contains target = true →
      ∀ fuel, resolveInstall index installed fuel target = some (.ok [])) ∧
    (installed.contains target = false → index.getProvider target = none →
      ∀ fuel, resolveInstall index installed fuel target = some (.error (.notFound target))) ∧
    (installed.contains target = false → index.getProvider target ≠ none →
      ∃ order enough, (∀ fuel, enough ≤ fuel →
        resolveInstall index installed fuel target = some (.ok order)) ∧
        ((∀ n, Reached index installed target n → Current index n) → (Plan index installed target order ↔
            ∀ n, Reached index installed target n → Missing index installed n))) := by
  refine ⟨?_,?_,?_⟩
  · intro h fuel
    rw [resolveInstall,if_pos h]
  · intro h hnone fuel
    rw [resolveInstall,h,if_neg (by simp),hnone]
    rfl
  · intro h hsome
    obtain ⟨order,⟨enough,hvisit⟩,hrec,hadds⟩ := exists_order index installed target
    refine ⟨order,enough,?_,?_⟩
    · intro fuel hfuel
      rw [resolveInstall,h,if_neg (by simp),if_neg (by simpa using hsome),hvisit fuel hfuel]
      rfl
    intro hcurrent
    constructor
    · intro hplan n hreach r hr
      exact hplan.fresh _ (hplan.answers hcurrent hreach hr)
    · intro hmissing
      exact plan_of_missing hbuilt hcurrent hmissing hadds hrec

end Closure

end Facts

/-! ### A stanza superseded by a later one -/

def stanza (b : StanzaBuilder) (h : b.hasPackage = true) : StanzaView := ⟨b,h⟩

/-- Two stanzas of `p`: the first provides `v` and needs `a`, the second needs `b`. -/
def supersededIndex : PackageIndex :=
  (pushAll [stanza { package := ['p'], provides := ['v'], depends := ['a'], any := true } (by decide),
    stanza { package := ['p'], depends := ['b'], any := true } (by decide),
    stanza { package := ['a'], any := true } (by decide),
    stanza { package := ['b'], any := true } (by decide)]).finish

/-- The plan for `v` installs the second `p`, without the `b` it needs. -/
theorem superseded_need_missing : resolveInstall supersededIndex [] 20 ['v'] = some (.ok [['a'],['p']]) ∧
      (supersededIndex.get ['p']).map PkgRef.depends = some [[['b']]] ∧
      chooseAlternative supersededIndex [] [['b']] = some ['b'] ∧
      (supersededIndex.getProvider ['b']).map PkgRef.package = some ['b'] := by
  decide +kernel

def pairBuilder : PackageIndexBuilder :=
  pushAll [stanza { package := ['p'], depends := ['q'], any := true } (by decide),
    stanza { package := ['q'], any := true } (by decide)]

theorem pairIndex_reached (h : Reached pairBuilder.finish [] ['p'] n) : n = ['p'] ∨ n = ['q'] := by
  have hp : expandName pairBuilder.finish [] ['p'] = some (['p'],[['q']]) := by decide +kernel
  have hq : expandName pairBuilder.finish [] ['q'] = some (['q'],[]) := by decide +kernel
  induction h with
  | refl => exact .inl rfl
  | tail _ hchild ih =>
    obtain ⟨key,deps,hkey,hmem⟩ := hchild
    rcases ih with rfl | rfl
    · rw [hp] at hkey
      obtain ⟨rfl,rfl⟩ := Prod.mk.inj (some.inj hkey)
      exact .inr (mem_singleton.mp hmem)
    · rw [hq] at hkey
      obtain ⟨rfl,rfl⟩ := Prod.mk.inj (some.inj hkey)
      cases hmem

theorem pairIndex_plan : ∃ order enough, (∀ fuel, enough ≤ fuel →
      resolveInstall pairBuilder.finish [] fuel ['p'] = some (.ok order)) ∧
        Plan pairBuilder.finish [] ['p'] order := by
  have hbuilt : Built pairBuilder.finish := ⟨pairBuilder,by decide +kernel,rfl⟩
  have hp : (pairBuilder.finish.getProvider ['p']).bind
      (fun r => pairBuilder.finish.get r.package) = pairBuilder.finish.getProvider ['p'] := by
    decide +kernel
  have hq : (pairBuilder.finish.getProvider ['q']).bind
      (fun r => pairBuilder.finish.get r.package) = pairBuilder.finish.getProvider ['q'] := by
    decide +kernel
  obtain ⟨order,enough,hrun,hiff⟩ :=
    (resolveInstall_plan_iff hbuilt [] ['p']).2.2 rfl (by decide +kernel)
  refine ⟨order,enough,hrun,(hiff ?_).mpr ?_⟩
  · intro n hn r hr
    rcases pairIndex_reached hn with rfl | rfl
    · rw [hr] at hp
      exact hp
    · rw [hr] at hq
      exact hq
  · intro n _ r _
    rfl

end PaghOS.Apt
