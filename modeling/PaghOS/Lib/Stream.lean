import Mathlib.Data.List.TakeDrop

/-!
Reassembly of a stream from pieces. A piece is a run of elements together with
the place it was cut from; pieces that meet the end of a received front extend
it, whatever order they arrive in.
-/

namespace PaghOS.Stream
open List

variable {α : Type}

/-- `ys` stands in `xs` from position `off` on. -/
def Piece (xs : List α) (off : Nat) (ys : List α) : Prop :=
  off+ys.length ≤ xs.length ∧ ys = (xs.drop off).take ys.length

instance [DecidableEq α] (xs : List α) (off : Nat) (ys : List α) : Decidable (Piece xs off ys) :=
  inferInstanceAs (Decidable (_ ∧ _))

variable {xs ys front : List α} {off n : Nat}

theorem exists_piece_iff {P : Nat → Prop} :
    (∃ off, Piece xs off ys ∧ P off) ↔ ∃ off, off < xs.length+1 ∧ Piece xs off ys ∧ P off := by
  constructor
  · rintro ⟨off,hp,h⟩
    have := hp.1
    exact ⟨off,by omega,hp,h⟩
  · rintro ⟨off,-,h⟩
    exact ⟨off,h⟩

instance [DecidableEq α] (xs ys : List α) (P : Nat → Prop) [DecidablePred P] :
    Decidable (∃ off, Piece xs off ys ∧ P off) :=
  decidable_of_iff _ exists_piece_iff.symm

theorem Piece.drop (h : Piece xs off ys) (hn : n ≤ ys.length) : Piece xs (off+n) (ys.drop n) := by
  obtain ⟨hle,heq⟩ := h
  refine ⟨by simp; omega,?_⟩
  nth_rewrite 1 [heq]
  rw [drop_take,drop_drop,length_drop]

theorem Piece.take (h : Piece xs off ys) (n : Nat) : Piece xs off (ys.take n) := by
  obtain ⟨hle,heq⟩ := h
  refine ⟨by simp; omega,?_⟩
  nth_rewrite 1 [heq]
  rw [take_take,length_take]

theorem Piece.extends (h : Piece xs front.length ys) (hfront : front <+: xs) : front ++ ys <+: xs := by
  obtain ⟨rest,rfl⟩ := hfront
  obtain ⟨hle,heq⟩ := h
  rw [drop_left] at heq
  exact (prefix_append_right_inj front).mpr (heq ▸ take_prefix _ _)

end PaghOS.Stream
