import PaghOS.Lib.Loop

/-!
Byte strings that are read at given places. A read or a write outside the string
is a panic; the rules give the value of every one that is inside.
-/

namespace PaghOS.Window
open Loop

def cut (p : List UInt8) (lo hi : Nat) : Option (List UInt8) :=
  if lo ≤ hi ∧ hi ≤ p.length then some ((p.drop lo).take (hi-lo)) else none

def poke (p : List UInt8) (i : Nat) (v : UInt8) : Option (List UInt8) :=
  if i < p.length then some (p.set i v) else none

/-- `body` is the part of `p` from `lo` to `hi`. -/
def Inside (p : List UInt8) (lo hi : Nat) (body : List UInt8) : Prop :=
  lo ≤ hi ∧ hi ≤ p.length ∧ body = (p.drop lo).take (hi-lo)

variable {p : List UInt8} {i : Nat}

theorem at_eq (h : i < p.length) : p[i]? = some (p.getD i 0) := by
  simp [h]

theorem take_drop_succ (h : i < p.length) (n : Nat) :
    (p.drop i).take (n+1) = p.getD i 0 :: (p.drop (i+1)).take n := by
  rw [List.drop_eq_getElem_cons h,List.take_succ_cons]
  simp [h]

variable {lo hi : Nat}

theorem cut_eq (h : lo ≤ hi) (hhi : hi ≤ p.length) :
    cut p lo hi = some ((p.drop lo).take (hi-lo)) := if_pos ⟨h,hhi⟩

theorem poke_eq (h : i < p.length) (v : UInt8) : poke p i v = some (p.set i v) := if_pos h

end PaghOS.Window
