import Mathlib.Data.List.Basic

/-!
Placing a span of addresses between blocks that are taken. The search goes up
from a start, each time to behind a block that is in the way; it finds the
lowest place on the grid, or there is none.
-/

namespace PaghOS.Spans
open List

variable {α : Type}

/-- The span of length `n` at `a` ends by `ceiling` and meets none of the blocks
`[lo x,hi x)`. -/
def Fits (lo hi : α → Nat) (blocks : List α) (n ceiling a : Nat) : Prop :=
  a+n ≤ ceiling ∧ ∀ x ∈ blocks, ¬ (lo x < a+n ∧ a < hi x)

instance (lo hi : α → Nat) (blocks : List α) (n ceiling a : Nat) :
    Decidable (Fits lo hi blocks n ceiling a) :=
  inferInstanceAs (Decidable (_ ∧ _))

def firstFit (lo hi : α → Nat) (up : Nat → Nat) (blocks : List α) (n ceiling : Nat) :
    (rounds a : Nat) → Option Nat
  | 0, _ => none
  | rounds+1, a =>
    if ceiling < a+n then none
    else
      match blocks.find? (fun x => lo x < a+n && a < hi x) with
      | none => some a
      | some x => firstFit lo hi up blocks n ceiling rounds (up (hi x))

structure Lowest (lo hi : α → Nat) (up : Nat → Nat) (blocks : List α) (n ceiling a b : Nat) :
    Prop where
  start : a ≤ b
  fits : Fits lo hi blocks n ceiling b
  least : ∀ c, a ≤ c → c < b → up c = c → ¬ Fits lo hi blocks n ceiling c

variable {lo hi : α → Nat} {up : Nat → Nat} {blocks : List α} {n ceiling : Nat}

theorem not_fits_of_hit {a c : Nat} {x : α} (hx : x ∈ blocks) (hlo : lo x < a+n) (hac : a ≤ c)
    (hc : c < hi x) : ¬ Fits lo hi blocks n ceiling c := by
  intro h
  exact h.2 x hx ⟨by omega,hc⟩

theorem mem_of_find {a : Nat} {x : α} (h : blocks.find? (fun x => lo x < a+n && a < hi x) = some x) :
    x ∈ blocks ∧ lo x < a+n ∧ a < hi x :=
  ⟨mem_of_find?_eq_some h,by simpa using List.find?_some h⟩

theorem firstFit_mem (rounds a b : Nat)
    (h : firstFit lo hi up blocks n ceiling rounds a = some b) : b = a ∨ ∃ x ∈ blocks, b = up (hi x) := by
  induction rounds generalizing a with
  | zero => simp [firstFit] at h
  | succ rounds ih =>
    rw [firstFit] at h
    split at h
    · cases h
    split at h
    · cases h
      exact .inl rfl
    rename_i x hfind
    have hx := mem_of_find?_eq_some hfind
    rcases ih (up (hi x)) h with hb | hb
    · exact .inr ⟨x,hx,hb⟩
    · exact .inr hb

section Search
variable (hup : ∀ x ∈ blocks, hi x ≤ up (hi x))
  (hgrid : ∀ x ∈ blocks, ∀ c, up c = c → hi x ≤ c → up (hi x) ≤ c)
include hup hgrid

theorem firstFit_lowest (rounds a b : Nat) (h : firstFit lo hi up blocks n ceiling rounds a = some b) :
    Lowest lo hi up blocks n ceiling a b := by
  induction rounds generalizing a with
  | zero => simp [firstFit] at h
  | succ rounds ih =>
    rw [firstFit] at h
    split at h
    · cases h
    rename_i hroom
    split at h
    · rename_i hfind
      cases h
      simp only [List.find?_eq_none,Bool.and_eq_true,decide_eq_true_eq] at hfind
      exact ⟨Nat.le_refl _,⟨by omega,hfind⟩,by omega⟩
    rename_i x hfind
    obtain ⟨hx,hlo,hhi⟩ := mem_of_find hfind
    obtain ⟨hstart,hfits,hleast⟩ := ih (up (hi x)) h
    have hge := hup x hx
    refine ⟨by omega,hfits,?_⟩
    intro c hac hcb hc
    by_cases hbehind : hi x ≤ c
    · exact hleast c (hgrid x hx c hc hbehind) hcb hc
    · exact not_fits_of_hit hx hlo hac (by omega)

omit hgrid in
theorem countP_behind_lt {a : Nat} {x : α} (hx : x ∈ blocks) (ha : a < hi x) :
    blocks.countP (fun y => up (hi x) < hi y) < blocks.countP (fun y => a < hi y) := by
  have hge := hup x hx
  have hsub : (blocks.filter fun y => up (hi x) < hi y) <+ blocks.filter fun y => a < hi y :=
    monotone_filter_right _ fun y hy => by simp only [decide_eq_true_eq] at hy ⊢; omega
  rw [countP_eq_length_filter,countP_eq_length_filter]
  refine Nat.lt_of_le_of_ne hsub.length_le fun heq => ?_
  have hmem : x ∈ blocks.filter fun y => up (hi x) < hi y := by
    rw [hsub.eq_of_length heq]
    simpa using ⟨hx,ha⟩
  have := of_decide_eq_true (mem_filter.mp hmem).2
  omega

omit hgrid in
theorem firstFit_rounds (rounds rounds' a : Nat) (h : blocks.countP (fun x => a < hi x) < rounds)
    (h' : blocks.countP (fun x => a < hi x) < rounds') :
    firstFit lo hi up blocks n ceiling rounds a = firstFit lo hi up blocks n ceiling rounds' a := by
  induction rounds generalizing rounds' a with
  | zero => omega
  | succ rounds ih =>
    obtain ⟨rounds',rfl⟩ : ∃ k, rounds' = k+1 := ⟨rounds'-1,by omega⟩
    rw [firstFit,firstFit]
    split
    · rfl
    split
    · rfl
    rename_i x hfind
    obtain ⟨hx,hlo,hhi⟩ := mem_of_find hfind
    have hfewer := countP_behind_lt hup hx hhi
    exact ih rounds' (up (hi x)) (by omega) (by omega)

theorem firstFit_none (rounds a : Nat) (hrounds : blocks.countP (fun x => a < hi x) < rounds)
    (h : firstFit lo hi up blocks n ceiling rounds a = none) (c : Nat) (hac : a ≤ c)
    (hc : up c = c) : ¬ Fits lo hi blocks n ceiling c := by
  induction rounds generalizing a with
  | zero => omega
  | succ rounds ih =>
    rw [firstFit] at h
    split at h
    · intro hfits
      have := hfits.1
      omega
    split at h
    · cases h
    rename_i x hfind
    obtain ⟨hx,hlo,hhi⟩ := mem_of_find hfind
    have hfewer := countP_behind_lt hup hx hhi
    by_cases hbehind : hi x ≤ c
    · exact ih (up (hi x)) (by omega) h (hgrid x hx c hc hbehind)
    · exact not_fits_of_hit hx hlo hac (by omega)

end Search

end PaghOS.Spans
