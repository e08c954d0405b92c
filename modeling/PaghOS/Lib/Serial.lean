import Mathlib.Data.Nat.Notation

/-!
Comparison of 32-bit serial numbers by the sign of their difference. Order
facts are stated through `ahead`, the forward distance; at distance `2^31`
two numbers are each below the other.
-/

namespace PaghOS.Serial

def ahead (a b : UInt32) : Nat := (b-a).toNat

def seqLt (a b : UInt32) : Bool := (a-b).toInt32 < 0

def seqLe (a b : UInt32) : Bool := a == b || seqLt a b

def seqGt (a b : UInt32) : Bool := seqLt b a

theorem ahead_eq (a b : UInt32) : ahead a b = (4294967296-a.toNat+b.toNat)%4294967296 := by
  simp [ahead,UInt32.toNat_sub]

@[simp] theorem ahead_self (a : UInt32) : ahead a a = 0 := by simp [ahead]

theorem ahead_eq_zero_iff (a b : UInt32) : ahead a b = 0 ↔ a = b := by
  have ha := a.toNat_lt
  have hb := b.toNat_lt
  rw [ahead_eq,← UInt32.toNat_inj]
  omega

theorem ahead_sub (o a b : UInt32) : ahead a b = (4294967296-ahead o a+ahead o b)%4294967296 := by
  have ho := o.toNat_lt
  have ha := a.toNat_lt
  have hb := b.toNat_lt
  simp only [ahead_eq]
  omega

theorem ahead_add_ofNat (a : UInt32) {n : Nat} (hn : n < 4294967296) : ahead a (a+UInt32.ofNat n) = n := by
  have ha := a.toNat_lt
  rw [ahead_eq,UInt32.toNat_add,UInt32.toNat_ofNat']
  omega

theorem add_ahead (a b : UInt32) : a+UInt32.ofNat (ahead a b) = b := by
  have ha := a.toNat_lt
  have hb := b.toNat_lt
  rw [← UInt32.toNat_inj,UInt32.toNat_add,UInt32.toNat_ofNat',ahead_eq]
  omega

theorem add_ofNat_add (a : UInt32) (m n : Nat) : a+UInt32.ofNat m+UInt32.ofNat n = a+UInt32.ofNat (m+n) := by
  rw [UInt32.ofNat_add,UInt32.add_assoc]

theorem ahead_trans (o : UInt32) {a b : UInt32} (hsum : ahead o a+ahead a b < 4294967296) :
    ahead o b = ahead o a+ahead a b := by
  have hb := ahead_add_ofNat o hsum
  rw [← add_ofNat_add,add_ahead,add_ahead] at hb
  exact hb

theorem ahead_le (o a b : UInt32) : ahead o b ≤ ahead o a+ahead a b := by
  have hsub := ahead_sub o a b
  have ha : ahead o a < 4294967296 := (a-o).toNat_lt
  have hb : ahead o b < 4294967296 := (b-o).toNat_lt
  omega

theorem ahead_advance (o a : UInt32) {n : Nat} (hsum : ahead o a+n < 4294967296) :
    ahead o (a+UInt32.ofNat n) = ahead o a+n := by
  have hn := ahead_add_ofNat a (n := n) (by omega)
  rw [ahead_trans o (a := a) (by omega),hn]

theorem toInt32_neg_iff (x : UInt32) : x.toInt32 < 0 ↔ 2147483648 ≤ x.toNat := by
  have hx := x.toNat_lt
  have hbits : x.toInt32.toBitVec.toNat = x.toNat := rfl
  rw [Int32.lt_iff_toInt_lt]
  simp only [Int32.toInt,BitVec.toInt,hbits]
  simp
  omega

theorem seqLt_iff (a b : UInt32) : seqLt a b = true ↔ 1 ≤ ahead a b ∧ ahead a b ≤ 2147483648 := by
  have ha := a.toNat_lt
  have hb := b.toNat_lt
  have hsub : (a-b).toNat = (4294967296-b.toNat+a.toNat)%4294967296 := by
    simp [UInt32.toNat_sub]
  simp only [seqLt,decide_eq_true_eq,toInt32_neg_iff,ahead_eq,hsub]
  omega

theorem not_seqLt_of_ahead {a b : UInt32} (hne : a ≠ b) (h : ahead a b < 2147483648) : seqLt b a = false := by
  rw [Bool.eq_false_iff,ne_eq,seqLt_iff]
  have hzero : ahead a b ≠ 0 := fun hz => hne ((ahead_eq_zero_iff a b).mp hz)
  have hback := ahead_sub a b a
  rw [ahead_self] at hback
  omega

theorem seqLe_iff (a b : UInt32) : seqLe a b = true ↔ ahead a b ≤ 2147483648 := by
  simp only [seqLe,Bool.or_eq_true,beq_iff_eq,seqLt_iff,← ahead_eq_zero_iff]
  omega

end PaghOS.Serial
