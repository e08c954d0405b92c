import Mathlib.Logic.Relation
import Mathlib.Logic.Function.Iterate

/-!
Depth-first search in post-order, over names that expand to a key and further names:
the loop over an explicit stack, the recursion it stands for, and what both list.
-/

namespace PaghOS.Dfs
open List Function

open Relation

variable {ν κ : Type}

structure Frame (ν κ : Type) where
  key : κ
  deps : List ν
  idx : Nat

structure State (ν κ : Type) where
  stack : List (Frame ν κ) := []
  visited : List κ := []
  onStack : List κ := []
  order : List κ := []

section Listed

variable (expand : ν → Option (κ × List ν))

def Child (a b : ν) : Prop := ∃ key deps, expand a = some (key,deps) ∧ b ∈ deps

def Below (roots : List ν) (n : ν) : Prop := ∃ m ∈ roots, ReflTransGen (Child expand) m n

/-- A name with the key `j` stands above the name `n`. -/
def Above (roots : List ν) (j : κ) (n : ν) : Prop :=
  ∃ a es, expand a = some (j,es) ∧ Below expand roots a ∧ ReflTransGen (Child expand) a n

/-- How a key came to be listed: by a name below `roots`, and each key below that name
before it, under way, or above it. -/
def Entered (roots : List ν) (path before final : List κ) (k : κ) : Prop :=
  ∃ n ds, expand n = some (k,ds) ∧ Below expand roots n ∧
    ∀ d ∈ ds, ∀ j es, expand d = some (j,es) →
      (j ∈ before ∨ j ∈ path ∨ Above expand roots j n) ∧ (j ∈ final ∨ j ∈ path)

def Placed (roots : List ν) (path final : List κ) : List κ → List κ → Prop
  | _, [] => True
  | before, k :: new => Entered expand roots path before final k ∧
      Placed roots path final (before ++ [k]) new

/-- What a visit of `roots` adds to `order`. -/
structure Adds (roots : List ν) (path order new : List κ) : Prop where
  fresh : ∀ k ∈ new, k ∉ order ∧ k ∉ path
  nodup : new.Nodup
  placed : Placed expand roots path (order ++ new) order new
  rooted : ∀ m ∈ roots, ∀ k ds, expand m = some (k,ds) → k ∈ order ++ new ∨ k ∈ path

variable {expand} {roots roots' : List ν} {path path' final final' before new : List κ}

theorem Placed.imp (himp : ∀ before k, Entered expand roots path before final k →
    Entered expand roots' path' before final' k) (h : Placed expand roots path final before new) :
    Placed expand roots' path' final' before new := by
  induction new generalizing before with
  | nil => trivial
  | cons k new ih => exact ⟨himp _ _ h.1,ih h.2⟩

theorem Placed.append {more : List κ} (h : Placed expand roots path final before new)
    (hmore : Placed expand roots path final (before ++ new) more) :
    Placed expand roots path final before (new ++ more) := by
  induction new generalizing before with
  | nil => simpa using hmore
  | cons k new ih =>
    refine ⟨h.1,ih h.2 ?_⟩
    simpa using hmore

theorem Placed.split {pre post : List κ} {k : κ}
    (h : Placed expand roots path final before (pre ++ k :: post)) :
    Entered expand roots path (before ++ pre) final k := by
  induction pre generalizing before with
  | nil => simpa using h.1
  | cons j pre ih => simpa using ih h.2

theorem Below.mono {n : ν} (h : Below expand roots n) (hroots : ∀ m ∈ roots, m ∈ roots') :
    Below expand roots' n := by
  obtain ⟨m,hm,hreach⟩ := h
  exact ⟨m,hroots m hm,hreach⟩

theorem Entered.mono {k : κ} (h : Entered expand roots path before final k)
    (hroots : ∀ m ∈ roots, m ∈ roots') (hfinal : ∀ j ∈ final, j ∈ final') :
    Entered expand roots' path before final' k := by
  obtain ⟨n,ds,hn,hbelow,hdeps⟩ := h
  refine ⟨n,ds,hn,hbelow.mono hroots,?_⟩
  intro d hd j es hj
  obtain ⟨hplace,hin⟩ := hdeps d hd j es hj
  refine ⟨hplace.imp_right (Or.imp_right ?_),hin.imp_left (hfinal j)⟩
  rintro ⟨a,fs,ha,habelow,hreach⟩
  exact ⟨a,fs,ha,habelow.mono hroots,hreach⟩

theorem Below.child {name n : ν} {key : κ} {deps : List ν} (hname : expand name = some (key,deps))
    (h : Below expand deps n) : ReflTransGen (Child expand) name n := by
  obtain ⟨m,hm,hreach⟩ := h
  exact .head ⟨key,deps,hname,hm⟩ hreach

theorem Adds.nil (path order : List κ) : Adds expand [] path order [] where
  fresh := by simp
  nodup := nodup_nil
  placed := trivial
  rooted := by simp

theorem Adds.append {root : ν} {rest : List ν} {order a b : List κ}
    (ha : Adds expand [root] path order a) (hb : Adds expand rest path (order ++ a) b) :
    Adds expand (root :: rest) path order (a ++ b) where
  fresh := by
    intro k hk
    rcases mem_append.mp hk with h | h
    · exact ha.fresh k h
    · have hfresh := hb.fresh k h
      exact ⟨fun ho => hfresh.1 (by simp [ho]),hfresh.2⟩
  nodup := by
    refine nodup_append.mpr ⟨ha.nodup,hb.nodup,?_⟩
    rintro k hk j hj rfl
    exact (hb.fresh k hj).1 (by simp [hk])
  placed := by
    apply Placed.append
    · refine ha.placed.imp fun _ _ h => h.mono (by simp) ?_
      intro j hj
      rcases mem_append.mp hj with h | h <;> simp [h]
    · refine hb.placed.imp fun _ _ h => h.mono (by simp +contextual) ?_
      intro j hj
      simpa using hj
  rooted := by
    intro m hm k ds hk
    rcases mem_cons.mp hm with rfl | hm
    · refine (ha.rooted m (by simp) k ds hk).imp_left fun h => ?_
      rcases mem_append.mp h with h | h <;> simp [h]
    · simpa using hb.rooted m hm k ds hk

theorem Adds.enter {name : ν} {key : κ} {deps : List ν} {order : List κ}
    (hname : expand name = some (key,deps)) (hnew : key ∉ order ∧ key ∉ path)
    (h : Adds expand deps (key :: path) order new) : Adds expand [name] path order (new ++ [key]) where
  fresh := by
    intro k hk
    rcases mem_append.mp hk with hk | hk
    · have hfresh := h.fresh k hk
      exact ⟨hfresh.1,fun hp => hfresh.2 (by simp [hp])⟩
    · rw [mem_singleton.mp hk]
      exact hnew
  nodup := by
    refine nodup_append.mpr ⟨h.nodup,by simp,?_⟩
    rintro k hk j hj rfl
    rw [mem_singleton.mp hj] at hk
    exact (h.fresh key hk).2 (by simp)
  placed := by
    apply Placed.append
    · refine h.placed.imp ?_
      rintro before k ⟨n,ds,hn,hbelow,hdeps⟩
      have hchild := hbelow.child hname
      refine ⟨n,ds,hn,⟨name,by simp,hchild⟩,?_⟩
      intro d hd j es hj
      obtain ⟨hplace,hfinal⟩ := hdeps d hd j es hj
      constructor
      · rcases hplace with hb | hp | ⟨a,fs,ha,habelow,hreach⟩
        · exact .inl hb
        · rcases mem_cons.mp hp with rfl | hp
          · exact .inr (.inr ⟨name,deps,hname,⟨name,by simp,.refl⟩,hchild⟩)
          · exact .inr (.inl hp)
        · exact .inr (.inr ⟨a,fs,ha,⟨name,by simp,habelow.child hname⟩,hreach⟩)
      · rcases hfinal with hf | hp
        · rcases mem_append.mp hf with h | h <;> simp [h]
        · rcases mem_cons.mp hp with rfl | hp
          · simp
          · exact .inr hp
    · refine ⟨⟨name,deps,hname,⟨name,by simp,.refl⟩,?_⟩,trivial⟩
      intro d hd j es hj
      rcases h.rooted d hd j es hj with hin | hp
      · refine ⟨.inl hin,.inl ?_⟩
        rcases mem_append.mp hin with h | h <;> simp [h]
      · rcases mem_cons.mp hp with rfl | hp
        · exact ⟨.inr (.inr ⟨name,deps,hname,⟨name,by simp,.refl⟩,.refl⟩),by simp⟩
        · exact ⟨.inr (.inl hp),.inr hp⟩
  rooted := by
    intro m hm k ds hk
    rw [mem_singleton.mp hm,hname] at hk
    rw [← (Prod.mk.inj (Option.some.inj hk)).1]
    simp

end Listed

section Search

variable [DecidableEq κ] (expand : ν → Option (κ × List ν))

def enter (s : State ν κ) (name : ν) : State ν κ :=
  match expand name with
  | none => s
  | some (key,deps) =>
    if s.visited.contains key || s.onStack.contains key then s
    else { s with onStack := key :: s.onStack, stack := ⟨key,deps,0⟩ :: s.stack }

/-- Descends into the next name of the top frame, or finishes that frame. -/
def step (s : State ν κ) : State ν κ :=
  match s.stack with
  | [] => s
  | frame :: rest =>
    match frame.deps[frame.idx]? with
    | some dep => enter expand { s with stack := { frame with idx := frame.idx+1 } :: rest } dep
    | none =>
      let s := { s with stack := rest, onStack := s.onStack.erase frame.key }
      if s.visited.contains frame.key then s
      else { s with visited := s.visited ++ [frame.key], order := s.order ++ [frame.key] }

def run : Nat → State ν κ → Option (State ν κ)
  | 0, s => if s.stack.isEmpty then some s else none
  | fuel+1, s => if s.stack.isEmpty then some s else run fuel (step expand s)

/-- The recursion: the keys listed so far, and those of the activations under way. -/
def visit : Nat → List κ → List κ → ν → Option (List κ)
  | 0, _, _, _ => none
  | fuel+1, path, order, name =>
    match expand name with
    | none => some order
    | some (key,deps) =>
      if order.contains key || path.contains key then some order
      else (deps.foldlM (visit fuel (key :: path)) order).map (· ++ [key])

variable {expand}

/-! ### The recursion -/

variable {fuel : Nat} {order order' : List κ} {name : ν}

theorem visit_succ {path : List κ} : visit expand (fuel+1) path order name = some order' ↔
      (expand name = none ∧ order' = order) ∨ ∃ key deps, expand name = some (key,deps) ∧
        ((key ∈ order ∨ key ∈ path) ∧ order' = order ∨ (key ∉ order ∧ key ∉ path) ∧ ∃ listed,
            deps.foldlM (visit expand fuel (key :: path)) order = some listed ∧
              order' = listed ++ [key]) := by
  rw [visit]
  cases hname : expand name with
  | none => simp [eq_comm]
  | some out =>
    obtain ⟨key,deps⟩ := out
    simp only [reduceCtorEq,false_and,false_or,Option.some.injEq,Prod.mk.injEq]
    by_cases hseen : key ∈ order ∨ key ∈ path
    · have hno : ¬ (key ∉ order ∧ key ∉ path) := fun h => hseen.elim h.1 h.2
      constructor
      · intro h
        refine ⟨key,deps,⟨rfl,rfl⟩,.inl ⟨hseen,?_⟩⟩
        rw [if_pos (by simpa using hseen)] at h
        exact (Option.some.inj h).symm
      · rintro ⟨_,_,⟨rfl,rfl⟩,⟨-,rfl⟩ | ⟨h,-⟩⟩
        · rw [if_pos (by simpa using hseen)]
        · exact absurd h hno
    · have hnew := not_or.mp hseen
      have hguard : (order.contains key || path.contains key) = false := by simp [hnew]
      rw [hguard,if_neg (by simp),Option.map_eq_some_iff]
      constructor
      · rintro ⟨listed,hlisted,rfl⟩
        exact ⟨key,deps,⟨rfl,rfl⟩,.inr ⟨hnew,listed,hlisted,rfl⟩⟩
      · rintro ⟨_,_,⟨rfl,rfl⟩,⟨h,-⟩ | ⟨-,listed,hlisted,rfl⟩⟩
        · exact absurd h hseen
        · exact ⟨listed,hlisted,rfl⟩

theorem foldlM_visit_adds {path : List κ}
    (ih : ∀ {order order' : List κ} {name : ν}, visit expand fuel path order name = some order' →
      ∃ new, order' = order ++ new ∧ Adds expand [name] path order new)
    {deps : List ν} {order order' : List κ}
    (h : deps.foldlM (visit expand fuel path) order = some order') :
    ∃ new, order' = order ++ new ∧ Adds expand deps path order new := by
  induction deps generalizing order with
  | nil =>
    refine ⟨[],?_,Adds.nil path order⟩
    simpa [eq_comm] using h
  | cons d deps ihDeps =>
    rw [foldlM_cons] at h
    obtain ⟨mid,hmid,hrest⟩ := Option.bind_eq_some_iff.mp h
    obtain ⟨a,rfl,ha⟩ := ih hmid
    obtain ⟨b,rfl,hb⟩ := ihDeps hrest
    exact ⟨a ++ b,by simp,ha.append hb⟩

theorem visit_adds {path : List κ} (h : visit expand fuel path order name = some order') :
    ∃ new, order' = order ++ new ∧ Adds expand [name] path order new := by
  induction fuel generalizing path order order' name with
  | zero => simp [visit] at h
  | succ fuel ih =>
    have hskip : (∀ key deps, expand name = some (key,deps) → key ∈ order ∨ key ∈ path) →
        Adds expand [name] path order [] := by
      intro hseen
      refine ⟨by simp,nodup_nil,trivial,?_⟩
      intro m hm k ds hk
      rw [mem_singleton.mp hm] at hk
      simpa using hseen k ds hk
    rcases visit_succ.mp h with ⟨hnone,rfl⟩ | ⟨key,deps,hname,⟨hseen,rfl⟩ | ⟨hnew,listed,hlisted,rfl⟩⟩
    · exact ⟨[],by simp,hskip (by simp [hnone])⟩
    · refine ⟨[],by simp,hskip ?_⟩
      intro k ds hk
      rw [hname] at hk
      rw [← (Prod.mk.inj (Option.some.inj hk)).1]
      exact hseen
    · obtain ⟨new,rfl,hadds⟩ := foldlM_visit_adds ih hlisted
      exact ⟨new ++ [key],by simp,hadds.enter hname hnew⟩

theorem visit_mono {path : List κ} (h : visit expand fuel path order name = some order') :
    visit expand (fuel+1) path order name = some order' := by
  induction fuel generalizing path order order' name with
  | zero => simp [visit] at h
  | succ fuel ih =>
    have hfold : ∀ {path : List κ} {deps : List ν} {order order' : List κ},
        deps.foldlM (visit expand fuel path) order = some order' →
          deps.foldlM (visit expand (fuel+1) path) order = some order' := by
      intro path deps
      induction deps with
      | nil =>
        intro order order' h
        exact h
      | cons d deps ihDeps =>
        intro order order' h
        rw [foldlM_cons] at h ⊢
        obtain ⟨mid,hmid,hrest⟩ := Option.bind_eq_some_iff.mp h
        exact Option.bind_eq_some_iff.mpr ⟨mid,ih hmid,ihDeps hrest⟩
    rw [visit_succ] at h ⊢
    refine h.imp_right ?_
    rintro ⟨key,deps,hname,hcase⟩
    refine ⟨key,deps,hname,hcase.imp_right ?_⟩
    rintro ⟨hnew,listed,hlisted,rfl⟩
    exact ⟨hnew,listed,hfold hlisted,rfl⟩

theorem visit_isSome {keys : List κ} (hkeys : ∀ n k ds, expand n = some (k,ds) → k ∈ keys)
    {fuel : Nat} {path : List κ} (hfuel : (keys.filter (fun k => !path.contains k)).length < fuel)
    (order : List κ) (name : ν) : (visit expand fuel path order name).isSome = true := by
  induction fuel generalizing path order name with
  | zero => omega
  | succ fuel ih =>
    rw [visit]
    cases hname : expand name with
    | none => rfl
    | some out =>
      obtain ⟨key,deps⟩ := out
      by_cases hseen : key ∈ order ∨ key ∈ path
      · simp [hseen]
      have hnew := not_or.mp hseen
      have hless : (keys.filter fun k => !(key :: path).contains k).length < fuel := by
        have hsub : (keys.filter fun k => !(key :: path).contains k).length <
            (keys.filter fun k => !path.contains k).length := by
          have hfilter : keys.filter (fun k => !(key :: path).contains k) =
              (keys.filter fun k => !path.contains k).filter (fun k => !decide (k = key)) := by
            rw [filter_filter]
            apply filter_congr
            simp
          rw [hfilter,length_filter_lt_length_iff_exists]
          exact ⟨key,by simp [hkeys name key deps hname,hnew.2],by simp⟩
        omega
      have hfold : ∀ (deps : List ν) (order : List κ),
          (deps.foldlM (visit expand fuel (key :: path)) order).isSome = true := by
        intro deps
        induction deps with
        | nil => simp
        | cons d deps ihDeps =>
          intro order
          obtain ⟨mid,hmid⟩ := Option.isSome_iff_exists.mp (ih hless order d)
          rw [foldlM_cons,hmid]
          exact ihDeps mid
      simp [hnew,hfold]

/-! ### The loop runs the recursion -/

def listing (stack : List (Frame ν κ)) (order : List κ) : State ν κ :=
  ⟨stack,order,stack.map Frame.key,order⟩

variable {stack : List (Frame ν κ)}

theorem enter_listing_of_seen
    (h : ∀ key deps, expand name = some (key,deps) → key ∈ order ∨ key ∈ stack.map Frame.key) :
    enter expand (listing stack order) name = listing stack order := by
  rw [enter]
  cases hname : expand name with
  | none => rfl
  | some out =>
    have hseen := h out.1 out.2 hname
    exact if_pos (by simpa [listing] using hseen)

theorem enter_listing_of_new {key : κ} {deps : List ν} (hname : expand name = some (key,deps))
    (hnew : key ∉ order ∧ key ∉ stack.map Frame.key) :
    enter expand (listing stack order) name = listing (⟨key,deps,0⟩ :: stack) order := by
  have hguard : ((listing stack order).visited.contains key ||
      (listing stack order).onStack.contains key) = false := by
    have h2 : (stack.map Frame.key).contains key = false := by simpa using hnew.2
    simp only [listing,h2,Bool.or_false]
    simpa using hnew.1
  rw [enter,hname]
  simp only [hguard,Bool.false_eq_true,if_false]
  rfl

theorem step_listing_dep {frame : Frame ν κ} {dep : ν} (h : frame.deps[frame.idx]? = some dep) :
    step expand (listing (frame :: stack) order) =
      enter expand (listing ({ frame with idx := frame.idx+1 } :: stack) order) dep := by
  simp [step,listing,h]

theorem step_listing_done {frame : Frame ν κ} (h : frame.deps[frame.idx]? = none) (hnew : frame.key ∉ order) :
    step expand (listing (frame :: stack) order) = listing stack (order ++ [frame.key]) := by
  simp [step,listing,h,hnew]

/-- The loop takes the state to another in some number of steps. -/
def Steps (expand : ν → Option (κ × List ν)) (s t : State ν κ) : Prop :=
  ∃ m, (step expand)^[m] s = t

theorem Steps.trans {s t u : State ν κ} (hst : Steps expand s t) (htu : Steps expand t u) :
    Steps expand s u := by
  obtain ⟨m,rfl⟩ := hst
  obtain ⟨n,rfl⟩ := htu
  exact ⟨n+m,iterate_add_apply _ n m s⟩

variable {s : State ν κ}

theorem Steps.head {t : State ν κ} (h : Steps expand (step expand s) t) : Steps expand s t := by
  obtain ⟨m,rfl⟩ := h
  exact ⟨m+1,rfl⟩

theorem steps_deps (fuel : Nat) (stack : List (Frame ν κ)) (key : κ)
    (ih : ∀ {frame : Frame ν κ} {order order' : List κ} {name : ν}, frame.key = key →
      visit expand fuel (key :: stack.map Frame.key) order name = some order' →
        Steps expand (enter expand (listing (frame :: stack) order) name)
          (listing (frame :: stack) order')) (done : List ν) {rest : List ν} {order order' : List κ}
    (h : rest.foldlM (visit expand fuel (key :: stack.map Frame.key)) order = some order') :
    Steps expand (listing (⟨key,done ++ rest,done.length⟩ :: stack) order)
      (listing (⟨key,done ++ rest,(done ++ rest).length⟩ :: stack) order') := by
  induction rest generalizing done order with
  | nil =>
    have horder : order = order' := by simpa using h
    rw [append_nil,horder]
    exact ⟨0,rfl⟩
  | cons d rest ihRest =>
    rw [foldlM_cons] at h
    obtain ⟨mid,hmid,hrest⟩ := Option.bind_eq_some_iff.mp h
    have hget : (done ++ d :: rest)[done.length]? = some d := by simp
    apply Steps.head
    rw [step_listing_dep hget]
    refine (ih rfl hmid).trans ?_
    have hnext := ihRest (done ++ [d]) hrest
    simpa using hnext

theorem steps_visit (h : visit expand fuel (stack.map Frame.key) order name = some order') :
    Steps expand (enter expand (listing stack order) name) (listing stack order') := by
  induction fuel generalizing stack order order' name with
  | zero => simp [visit] at h
  | succ fuel ih =>
    rcases visit_succ.mp h with ⟨hnone,rfl⟩ | ⟨key,deps,hname,⟨hseen,rfl⟩ | ⟨hnew,listed,hlisted,rfl⟩⟩
    · rw [enter_listing_of_seen (by simp [hnone])]
      exact ⟨0,rfl⟩
    · have hseen' : ∀ k ds, expand name = some (k,ds) → k ∈ order' ∨ k ∈ stack.map Frame.key := by
        intro k ds hk
        rw [hname] at hk
        rw [← (Prod.mk.inj (Option.some.inj hk)).1]
        exact hseen
      rw [enter_listing_of_seen hseen']
      exact ⟨0,rfl⟩
    · rw [enter_listing_of_new hname hnew]
      have hdeps := steps_deps fuel stack key (fun hkey hv => ih (by simpa [hkey] using hv)) []
        hlisted
      refine hdeps.trans (Steps.head ?_)
      -- The key is not listed below itself, so the frame's end lists it.
      obtain ⟨new,rfl,hadds⟩ := foldlM_visit_adds visit_adds hlisted
      have hkey : key ∉ order ++ new := by
        intro hin
        rcases mem_append.mp hin with hin | hin
        · exact hnew.1 hin
        · exact (hadds.fresh key hin).2 (by simp)
      rw [step_listing_done (by simp) hkey]
      exact ⟨0,rfl⟩

theorem step_of_empty (h : s.stack = []) : step expand s = s := by
  simp [step,h]

theorem run_of_iterate {m : Nat} {t : State ν κ} (h : (step expand)^[m] s = t)
    (ht : t.stack = []) : run expand m s = some t := by
  induction m generalizing s with
  | zero =>
    rw [iterate_zero_apply] at h
    rw [h]
    simp [run,ht]
  | succ m ih =>
    rw [iterate_succ_apply] at h
    rw [run]
    by_cases hs : s.stack = []
    · have hfix : (step expand)^[m] s = s := iterate_fixed (step_of_empty hs) m
      rw [step_of_empty hs,hfix] at h
      rw [if_pos (by simp [hs]),h]
    · rw [if_neg (by simpa using hs)]
      exact ih h

theorem run_eq_visit (h : visit expand fuel [] [] name = some order) : ∃ enough, ∀ m, enough ≤ m →
      run expand m (enter expand {} name) = some (listing [] order) := by
  have hempty : visit expand fuel (([] : List (Frame ν κ)).map Frame.key) [] name = some order := h
  obtain ⟨enough,henough⟩ := steps_visit hempty
  refine ⟨enough,?_⟩
  intro m hm
  apply run_of_iterate _ rfl
  have hmore : (step expand)^[m-enough] (listing [] order : State ν κ) = listing [] order :=
    iterate_fixed (step_of_empty rfl) _
  have hsplit : m = m-enough+enough := by omega
  rw [hsplit,iterate_add_apply]
  exact (congrArg _ henough).trans hmore

end Search

end PaghOS.Dfs
