import Mathlib.Data.List.Chain
import Mathlib.Data.List.Nodup

/-!
Greedy walks in a pool: from where it stands, a walk steps to the first entry of
the pool that its relation allows, takes it out of the pool and goes on, until no
entry is allowed. It never goes back on a step.
-/

namespace PaghOS.Walk
open List

variable {α : Type} {R : α → α → Prop}

inductive Greedy (R : α → α → Prop) : α → List α → α → Prop
  | stop {a : α} {pool : List α} (h : ∀ c ∈ pool, ¬ R a c) : Greedy R a pool a
  | step {a b z : α} {xs ys : List α} (hxs : ∀ c ∈ xs, ¬ R a c) (hb : R a b)
      (h : Greedy R b (xs ++ ys) z) : Greedy R a (xs ++ b :: ys) z

theorem first_split {P : α → Prop} {xs ys us vs : List α} {b c : α} (hxs : ∀ x ∈ xs, ¬ P x) (hb : P b)
    (hus : ∀ x ∈ us, ¬ P x) (hc : P c) (h : xs ++ b :: ys = us ++ c :: vs) : xs = us ∧ b = c ∧ ys = vs := by
  classical
  have hfirst : ∀ {zs ws : List α} {d : α}, (∀ x ∈ zs, ¬ P x) → P d →
      (zs ++ d :: ws).takeWhile (fun x => ¬ P x) = zs := by
    intro zs ws d hzs hd
    rw [takeWhile_append_of_pos (by simpa using hzs)]
    simp [hd]
  have hfront := @hfirst _ ys _ hxs hb
  rw [h,hfirst hus hc] at hfront
  subst hfront
  simpa using h

theorem Greedy.unique {a z w : α} {pool : List α} (h : Greedy R a pool z) (h' : Greedy R a pool w) :
    z = w := by
  induction h with
  | stop h =>
    cases h' with
    | stop => rfl
    | step _ hb _ => exact absurd hb (h _ (by simp))
  | @step a b z xs ys hxs hb _ ih =>
    generalize hpool : xs ++ b :: ys = pool at h'
    cases h' with
    | stop h => exact absurd hb (h b (by simp [← hpool]))
    | step hus hc h' =>
      obtain ⟨rfl,rfl,rfl⟩ := first_split hxs hb hus hc hpool
      exact ih h'

/-- `ps` leads from `a` as far as `others` allow. -/
structure Stuck (R : α → α → Prop) (a : α) (ps others : List α) : Prop where
  trail : (a :: ps).IsChain R
  stop : ∀ c ∈ others, ¬ R (ps.getLastD a) c

theorem Greedy.trail {a z : α} {pool : List α} (h : Greedy R a pool z) :
    ∃ ps others, (ps ++ others).Perm pool ∧ Stuck R a ps others ∧ z = ps.getLastD a := by
  induction h with
  | @stop a pool h => exact ⟨[],pool,.refl _,⟨.singleton a,h⟩,rfl⟩
  | @step a b z xs ys hxs hb h ih =>
    obtain ⟨ps,others,hperm,hstuck,hz⟩ := ih
    refine ⟨b :: ps,others,?_,⟨.cons_cons hb hstuck.trail,?_⟩,?_⟩
    · exact (hperm.cons b).trans perm_middle.symm
    · rw [getLastD_cons]
      exact hstuck.stop
    · rw [getLastD_cons]
      exact hz

theorem Stuck.greedy {a : α} {ps others : List α} (h : Stuck R a ps others) :
    Greedy R a (ps ++ others) (ps.getLastD a) := by
  induction ps generalizing a with
  | nil => exact .stop h.stop
  | cons p ps ih =>
    obtain ⟨hp,htrail⟩ := isChain_cons_cons.mp h.trail
    have hstop := h.stop
    rw [getLastD_cons] at hstop ⊢
    exact @Greedy.step α R a p _ [] (ps ++ others) (by simp) hp (ih ⟨htrail,hstop⟩)

theorem exists_nodup_trail [DecidableEq α] {a : α} {ps : List α} (h : (a :: ps).IsChain R) :
    ∃ qs, (a :: qs).IsChain R ∧ (a :: qs).Nodup ∧ qs ⊆ ps ∧ qs.getLastD a = ps.getLastD a := by
  induction ps generalizing a with
  | nil => exact ⟨[],h,by simp,by simp,rfl⟩
  | cons p ps ih =>
    obtain ⟨hp,htrail⟩ := isChain_cons_cons.mp h
    obtain ⟨qs,hchain,hnodup,hsub,hlast⟩ := ih htrail
    by_cases ha : a ∈ p :: qs
    · obtain ⟨xs,ys,hsplit⟩ := append_of_mem ha
      rw [hsplit] at hchain hnodup
      refine ⟨ys,hchain.right_of_append,hnodup.of_append_right,?_,?_⟩
      · intro c hc
        have hmem : c ∈ p :: qs := hsplit ▸ mem_append_right _ (mem_cons_of_mem _ hc)
        exact cons_subset_cons p hsub hmem
      have hend : qs.getLastD p = ys.getLastD a := by
        rw [show qs.getLastD p = (p :: qs).getLastD a from getLastD_cons.symm,hsplit]
        simp [List.getLast?_cons]
      rw [← hend,hlast,getLastD_cons]
    · refine ⟨p :: qs,.cons_cons hp hchain,nodup_cons.mpr ⟨ha,hnodup⟩,cons_subset_cons p hsub,?_⟩
      rw [getLastD_cons,getLastD_cons,hlast]

end PaghOS.Walk
