import Mathlib.Data.List.Sort

/-! Binary search over a sorted list, and tables kept sorted by a key. -/

namespace PaghOS.Search
open List

variable {α : Type} {f : α → Ordering} {l : List α}

def searchLoop (f : α → Ordering) (l : List α) : Nat → Nat → Nat → Nat
  | 0, _, base => base
  | fuel+1, size, base =>
    if size ≤ 1 then base
    else
      let half := size/2
      let mid := base+half
      searchLoop f l fuel (size-half) (if (l[mid]?).map f = some .gt then base else mid)

/-- `slice::binary_search_by`: where an equal element is, or where it would go. -/
def binarySearchBy (f : α → Ordering) (l : List α) : Except Nat Nat :=
  let base := searchLoop f l l.length l.length 0
  match (l[base]?).map f with
  | none => .error 0
  | some .eq => .ok base
  | some .lt => .error (base+1)
  | some .gt => .error base

/-- `slice::partition_point`: the search that never finds an equal element. -/
def partitionPoint (p : α → Bool) (l : List α) : Nat :=
  match binarySearchBy (fun a => if p a then .lt else .gt) l with
  | .ok i => i
  | .error i => i

section Split

variable {m : Nat}

/-- The first `m` elements are the ones not above the target. -/
def SplitsAt (f : α → Ordering) (l : List α) (m : Nat) : Prop :=
  m ≤ l.length ∧ ∀ i, i < l.length → ((l[i]?).map f = some .gt ↔ m ≤ i)

theorem searchLoop_spec (hs : SplitsAt f l m) {fuel size base : Nat} (hfuel : size ≤ fuel+1)
    (hsize : 0 < size) (hend : base+size ≤ l.length) (hbelow : base ≤ m-1) (habove : m ≤ base+size) :
    searchLoop f l fuel size base = m-1 := by
  induction fuel generalizing size base with
  | zero =>
    rw [searchLoop]
    omega
  | succ fuel ih =>
    rw [searchLoop]
    split
    · omega
    have hmid := hs.2 (base+size/2) (by omega)
    apply ih
    · omega
    · omega
    · split <;> omega
    · split
      · exact hbelow
      · rename_i h
        have := mt hmid.mpr h
        omega
    · split
      · rename_i h
        have := hmid.mp h
        omega
      · omega

theorem searchLoop_eq (hs : SplitsAt f l m) : searchLoop f l l.length l.length 0 = m-1 := by
  by_cases hl : l = []
  · subst hl
    have := hs.1
    simp_all [searchLoop]
  · have hpos := length_pos_iff.mpr hl
    have := hs.1
    exact searchLoop_spec hs (by omega) hpos (by omega) (by omega) (by omega)

end Split

section Parts

variable {below above : List α}

theorem splitsAt_append (hnot : ∀ a ∈ below, f a ≠ .gt) (habove : ∀ a ∈ above, f a = .gt) :
    SplitsAt f (below ++ above) below.length := by
  refine ⟨by simp,?_⟩
  intro i hi
  constructor
  · intro h
    by_contra hlt
    rw [List.getElem?_append_left (by omega)] at h
    obtain ⟨a,ha,hgt⟩ := Option.map_eq_some_iff.mp h
    exact hnot a (mem_of_getElem? ha) hgt
  intro hle
  rw [List.getElem?_append_right hle]
  have hlt : i-below.length < above.length := by
    simp only [length_append] at hi
    omega
  rw [List.getElem?_eq_getElem hlt,Option.map_some,habove _ (getElem_mem hlt)]

theorem binarySearchBy_snoc {a : α} (hnot : ∀ b ∈ below, f b ≠ .gt) (ha : f a ≠ .gt)
    (habove : ∀ b ∈ above, f b = .gt) : binarySearchBy f (below ++ [a] ++ above) =
      if f a = .eq then .ok below.length else .error (below.length+1) := by
  have hnot' : ∀ b ∈ below ++ [a], f b ≠ .gt := by
    intro b hb
    rcases mem_append.mp hb with h | h
    · exact hnot b h
    · rw [mem_singleton.mp h]
      exact ha
  have hget : (below ++ [a] ++ above)[below.length]? = some a := by simp
  have hloop := searchLoop_eq (splitsAt_append hnot' habove)
  have hlast : (below ++ [a]).length-1 = below.length := by simp
  rw [hlast] at hloop
  simp only [binarySearchBy,hloop,hget,Option.map_some]
  cases hfa : f a with
  | lt => simp
  | eq => simp
  | gt => exact absurd hfa ha

theorem binarySearchBy_above (habove : ∀ b ∈ above, f b = .gt) : binarySearchBy f above = .error 0 := by
  have hloop : searchLoop f above above.length above.length 0 = 0 := by
    have hsplit : SplitsAt f ([] ++ above) 0 := splitsAt_append (by simp) habove
    simpa using searchLoop_eq hsplit
  simp only [binarySearchBy,hloop]
  cases above with
  | nil => rfl
  | cons b above => simp [habove b (by simp)]

theorem partitionPoint_append {p : α → Bool} (hbelow : ∀ a ∈ below, p a = true)
    (habove : ∀ a ∈ above, p a = false) : partitionPoint p (below ++ above) = below.length := by
  have hgt : ∀ a ∈ above, (if p a = true then Ordering.lt else .gt) = .gt := by
    intro a ha
    simp [habove a ha]
  rw [partitionPoint]
  rcases eq_nil_or_concat below with rfl | ⟨init,a,rfl⟩
  · rw [nil_append,binarySearchBy_above hgt]
    rfl
  have ha : p a = true := hbelow a (by simp)
  rw [concat_eq_append,binarySearchBy_snoc _ (by simp [ha]) hgt]
  · simp [ha]
  · intro b hb
    simp [hbelow b (by simp [hb])]

end Parts

section Table

variable {κ : Type} (cmp : κ → κ → Ordering) (key : α → κ) (ix : α → Nat)

def entryLe (a b : α) : Bool :=
  match cmp (key a) (key b) with
  | .lt => true
  | .eq => ix a ≤ ix b
  | .gt => false

def sortTable (l : List α) : List α := l.insertionSort (fun a b => entryLe cmp key ix a b = true)

def lookup [DecidableEq κ] (q : κ) (l : List α) : Option α :=
  let ub := partitionPoint (fun a => (cmp (key a) q).isLE) l
  if ub = 0 then none
  else (l[ub-1]?).filter (fun a => key a = q)

/-- The first entry of each run of one key; `prev` is the key of the run before. -/
def collapse [DecidableEq κ] : Option κ → List α → List α
  | _, [] => []
  | prev, a :: l =>
    if prev = some (key a) then collapse prev l else a :: collapse (some (key a)) l

def Sorted (l : List α) : Prop := l.Pairwise (fun a b => (cmp (key a) (key b)).isLE = true)

variable {cmp key ix}

theorem perm_sortTable (l : List α) : (sortTable cmp key ix l).Perm l := perm_insertionSort _ l

theorem entryLe_iff [Std.LawfulEqCmp cmp] {a b : α} : entryLe cmp key ix a b = true ↔
    cmp (key a) (key b) = .lt ∨ key a = key b ∧ ix a ≤ ix b := by
  have heq : cmp (key a) (key b) = .eq ↔ key a = key b := Std.LawfulEqCmp.compare_eq_iff_eq
  rw [← heq,entryLe]
  cases cmp (key a) (key b) <;> simp

theorem Sorted.closed [Std.TransCmp cmp] {l : List α} (hl : Sorted cmp key l) (q : κ) :
    l.Pairwise (fun a b => (cmp (key b) q).isLE = true → (cmp (key a) q).isLE = true) :=
  hl.imp fun hab hb => Std.TransCmp.isLE_trans hab hb

variable [Std.LawfulEqCmp cmp]

theorem isLE_of_entryLe {a b : α} (h : entryLe cmp key ix a b = true) :
    (cmp (key a) (key b)).isLE = true := by
  rcases entryLe_iff.mp h with h | ⟨h,-⟩
  · simp [h]
  · simp [h,Std.ReflCmp.compare_self]

theorem filter_sortTable [DecidableEq κ] {l : List α} (hl : l.Pairwise (fun a b => ix a ≤ ix b)) (q : κ) :
    (sortTable cmp key ix l).filter (fun a => key a = q) = l.filter (fun a => key a = q) := by
  have hsorted : (l.filter fun a => key a = q).Pairwise
      (fun a b => entryLe cmp key ix a b = true) := by
    rw [pairwise_filter]
    refine hl.imp ?_
    intro a b hab ha hb
    simp only [decide_eq_true_eq] at ha hb
    exact entryLe_iff.mpr (.inr ⟨ha.trans hb.symm,hab⟩)
  have hsub := sublist_insertionSort hsorted filter_sublist
  have hsub' := hsub.filter fun a => decide (key a = q)
  rw [filter_filter] at hsub'
  simp only [Bool.and_self] at hsub'
  have hperm : (sortTable cmp key ix l).Perm l := perm_sortTable l
  have hlen := (hperm.filter fun a => decide (key a = q)).length_eq
  exact (hsub'.eq_of_length hlen.symm).symm

variable [Std.TransCmp cmp]

theorem key_eq_of_isLE {a b : κ} (hab : (cmp a b).isLE = true) (hba : (cmp b a).isLE = true) : a = b :=
  Std.LawfulEqCmp.eq_of_compare (Std.OrientedCmp.isLE_antisymm hab hba)

instance : Std.Total (fun a b : α => entryLe cmp key ix a b = true) where
  total a b := by
    simp only [entryLe_iff]
    cases h : cmp (key a) (key b) with
    | lt => exact .inl (.inl rfl)
    | eq =>
      have hkey := Std.LawfulEqCmp.eq_of_compare h
      rcases Nat.le_total (ix a) (ix b) with hle | hle
      · exact .inl (.inr ⟨hkey,hle⟩)
      · exact .inr (.inr ⟨hkey.symm,hle⟩)
    | gt => exact .inr (.inl (Std.OrientedCmp.gt_iff_lt.mp h))

instance : IsTrans α (fun a b : α => entryLe cmp key ix a b = true) where
  trans a b c hab hbc := by
    rw [entryLe_iff] at *
    rcases hab with hab | ⟨hab,hle⟩
    · rcases hbc with hbc | ⟨hbc,-⟩
      · exact .inl (Std.TransCmp.lt_trans hab hbc)
      · exact .inl (hbc ▸ hab)
    · rcases hbc with hbc | ⟨hbc,hle'⟩
      · exact .inl (hab ▸ hbc)
      · exact .inr ⟨hab.trans hbc,hle.trans hle'⟩

theorem sorted_sortTable (l : List α) : Sorted cmp key (sortTable cmp key ix l) :=
  (pairwise_insertionSort _ l).imp fun h => isLE_of_entryLe h

theorem filter_append_filter_not {p : α → Bool} {l : List α}
    (hl : l.Pairwise (fun a b => p b = true → p a = true)) : l.filter p ++ l.filter (fun a => !p a) = l := by
  induction l with
  | nil => rfl
  | cons a l ih =>
    obtain ⟨ha,hl⟩ := pairwise_cons.mp hl
    by_cases hp : p a = true
    · simp [hp,ih hl]
    have hnone : l.filter p = [] := filter_eq_nil_iff.mpr fun b hb h => hp (ha b hb h)
    have hrest := ih hl
    rw [hnone,nil_append] at hrest
    simp [hp,hnone,hrest]

omit [Std.LawfulEqCmp cmp] in
theorem Sorted.split {l : List α} (hl : Sorted cmp key l) (q : κ) : ∃ below above, below ++ above = l ∧
    (∀ a ∈ below, (cmp (key a) q).isLE = true) ∧ ∀ a ∈ above, (cmp (key a) q).isLE = false :=
  ⟨_,_,filter_append_filter_not (hl.closed q),fun _ ha => (mem_filter.mp ha).2,
    fun _ ha => by simpa using (mem_filter.mp ha).2⟩

section Lookup

variable [DecidableEq κ]

theorem lookup_eq {l : List α} (hl : Sorted cmp key l) (q : κ) :
    lookup cmp key q l = (l.filter (fun a => key a = q)).getLast? := by
  -- `below` holds the entries up to `q`; the entries with key `q` end it.
  obtain ⟨below,above,rfl,hle,hgt⟩ := hl.split q
  have hnone : above.filter (fun a => decide (key a = q)) = [] := by
    rw [filter_eq_nil_iff]
    intro a ha hkey
    have := hgt a ha
    simp_all [Std.ReflCmp.compare_self]
  rw [filter_append,hnone,append_nil,lookup,partitionPoint_append hle hgt]
  rcases eq_nil_or_concat below with rfl | ⟨init,a,rfl⟩
  · rfl
  rw [concat_eq_append] at *
  have hget : (init ++ [a] ++ above)[(init ++ [a]).length-1]? = some a := by simp
  rw [if_neg (by simp),hget]
  by_cases ha : key a = q
  · simp [ha,Option.filter]
  have hinit : init.filter (fun a => decide (key a = q)) = [] := by
    rw [filter_eq_nil_iff]
    intro b hb hkey
    rw [Sorted,append_assoc,pairwise_append] at hl
    have hba := hl.2.2 b hb a (by simp)
    rw [of_decide_eq_true hkey] at hba
    exact ha (key_eq_of_isLE (hle a (by simp)) hba)
  simp [ha,hinit,Option.filter]

theorem binarySearchBy_isOk {l : List α} (hl : Sorted cmp key l) (q : κ) :
    (binarySearchBy (fun a => cmp (key a) q) l).isOk = (lookup cmp key q l).isSome := by
  obtain ⟨below,above,rfl,hle,hgt⟩ := hl.split q
  have hhigh : ∀ a ∈ above, cmp (key a) q = .gt := by
    intro a ha
    have := hgt a ha
    cases h : cmp (key a) q <;> simp_all
  rw [lookup,partitionPoint_append hle hgt]
  rcases eq_nil_or_concat below with rfl | ⟨init,a,rfl⟩
  · rw [nil_append,binarySearchBy_above hhigh]
    rfl
  rw [concat_eq_append] at *
  have hnot : ∀ b ∈ init ++ [a], cmp (key b) q ≠ .gt := fun b hb hb' => by simpa [hb'] using hle b hb
  have hget : (init ++ [a] ++ above)[(init ++ [a]).length-1]? = some a := by simp
  have heq : cmp (key a) q = .eq ↔ key a = q := Std.LawfulEqCmp.compare_eq_iff_eq
  have hsome : (init ++ [a]).length ≠ 0 := by simp
  rw [binarySearchBy_snoc (fun b hb => hnot b (by simp [hb])) (hnot a (by simp)) hhigh,if_neg hsome,hget]
  by_cases ha : key a = q <;> simp [heq,ha,Option.filter,Except.isOk,Except.toBool]

theorem binarySearchBy_isOk_iff {l : List α} (hl : Sorted cmp key l) (q : κ) :
    (binarySearchBy (fun a => cmp (key a) q) l).isOk = true ↔ ∃ a ∈ l, key a = q := by
  rw [binarySearchBy_isOk hl,lookup_eq hl,getLast?_isSome,ne_eq,filter_eq_nil_iff]
  simp

theorem filter_collapse {prev : Option κ} {l : List α} (hl : Sorted cmp key l)
    (hprev : ∀ k ∈ prev, ∀ a ∈ l, (cmp k (key a)).isLE = true) (q : κ) :
    (collapse key prev l).filter (fun a => key a = q) =
      if prev = some q then [] else (l.filter (fun a => key a = q)).take 1 := by
  induction l generalizing prev with
  | nil => simp [collapse]
  | cons a l ih =>
    obtain ⟨ha,hl⟩ := pairwise_cons.mp hl
    simp only [collapse]
    by_cases hsame : prev = some (key a)
    · rw [if_pos hsame,ih hl fun k hk b hb => hprev k hk b (by simp [hb])]
      by_cases hq : key a = q
      · simp [hsame,hq]
      · simp [hsame,hq]
    rw [if_neg hsame]
    have hnext : ∀ k ∈ some (key a), ∀ b ∈ l, (cmp k (key b)).isLE = true := by simpa using ha
    have hrest := ih hl hnext
    by_cases hq : key a = q
    · have hprevq : prev ≠ some q := hq ▸ hsame
      simp [hq,hprevq] at hrest ⊢
      exact hrest
    simp only [hq,decide_false,Bool.false_eq_true,not_false_eq_true,filter_cons_of_neg]
    rw [hrest,if_neg (by simpa using hq)]
    split
    · rename_i hpq
      have hnone : l.filter (fun a => decide (key a = q)) = [] := by
        rw [filter_eq_nil_iff]
        intro b hb hkey
        have hab := ha b hb
        rw [of_decide_eq_true hkey] at hab
        exact hq (key_eq_of_isLE hab (hprev q hpq a (by simp)))
      simp [hnone]
    · rfl

theorem filter_collapse_none {l : List α} (hl : Sorted cmp key l) (q : κ) :
    (collapse key none l).filter (fun a => key a = q) = (l.filter (fun a => key a = q)).take 1 := by
  have hprev : ∀ k ∈ (none : Option κ), ∀ a ∈ l, (cmp k (key a)).isLE = true := by simp
  rw [filter_collapse hl hprev,if_neg (by simp)]

theorem exists_mem_collapse {l : List α} (hl : Sorted cmp key l) (q : κ) :
    (∃ a ∈ collapse key none l, key a = q) ↔ ∃ a ∈ l, key a = q := by
  have hiff : ∀ m : List α, (∃ a ∈ m, key a = q) ↔ m.filter (fun a => decide (key a = q)) ≠ [] := by
    intro m
    rw [ne_eq,filter_eq_nil_iff]
    simp
  rw [hiff,hiff,filter_collapse_none hl]
  cases l.filter (fun a => decide (key a = q)) <;> simp

theorem pairwise_collapse {prev : Option κ} {l : List α} (hl : Sorted cmp key l)
    (hprev : ∀ k ∈ prev, ∀ a ∈ l, (cmp k (key a)).isLE = true) :
    (collapse key prev l).Pairwise (fun a b => cmp (key a) (key b) = .lt) ∧
      ∀ k ∈ prev, ∀ a ∈ collapse key prev l, cmp k (key a) = .lt := by
  induction l generalizing prev with
  | nil => simp [collapse]
  | cons a l ih =>
    obtain ⟨ha,hl⟩ := pairwise_cons.mp hl
    simp only [collapse]
    split
    · exact ih hl fun k hk b hb => hprev k hk b (by simp [hb])
    rename_i hne
    have hnext : ∀ k ∈ some (key a), ∀ b ∈ l, (cmp k (key b)).isLE = true := by simpa using ha
    obtain ⟨hpair,hfirst⟩ := ih hl hnext
    refine ⟨pairwise_cons.mpr ⟨fun b hb => hfirst _ rfl b hb,hpair⟩,?_⟩
    intro k hk b hb
    have hka : cmp k (key a) = .lt := by
      have hle := hprev k hk a (by simp)
      cases h : cmp k (key a) with
      | lt => rfl
      | eq => exact absurd (Std.LawfulEqCmp.eq_of_compare h ▸ hk) hne
      | gt => simp [h] at hle
    rcases mem_cons.mp hb with rfl | hb
    · exact hka
    · exact Std.TransCmp.lt_trans hka (hfirst _ rfl b hb)

end Lookup

end Table

end PaghOS.Search
