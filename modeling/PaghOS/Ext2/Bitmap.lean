import Mathlib.Tactic.IntervalCases
import PaghOS.Ext2.Structs

/-!
The bitmaps of `src/fs/ext2/alloc.rs`: the lowest clear bit is allocated, and
setting or clearing a bit touches no other.
-/

namespace PaghOS.Ext2

def bitOf (b : UInt8) (k : Nat) : Bool := b &&& (1 <<< UInt8.ofNat k) ≠ 0

def testBit (bm : Block) (idx : Nat) : Bool := idx/8 < blockSize && bitOf (bm.get (idx/8)) (idx%8)

def setBit (bm : Block) (idx : Nat) : Block :=
  if idx/8 ≥ blockSize then bm
  else bm.put (idx/8) [bm.get (idx/8) ||| (1 <<< UInt8.ofNat (idx%8))]

def countSetBits (bm : Block) (span : Nat) : Nat := (List.range span).countP (testBit bm)

theorem getLsbD_mask {k : Nat} (hk : k < 8) (i : Nat) (hi : i < 8) :
    ((1 : UInt8) <<< UInt8.ofNat k).toBitVec.getLsbD i = decide (i = k) := by
  interval_cases k <;> interval_cases i <;> rfl

theorem bitOf_eq (b : UInt8) {k : Nat} (hk : k < 8) : bitOf b k = b.toBitVec.getLsbD k := by
  unfold bitOf
  rw [Bool.eq_iff_iff,decide_eq_true_eq]
  constructor
  · intro h
    by_contra hbit
    refine h (UInt8.eq_of_toBitVec_eq (BitVec.eq_of_getLsbD_eq (fun i hi => ?_)))
    rw [UInt8.toBitVec_and,BitVec.getLsbD_and,getLsbD_mask hk i hi]
    by_cases hik : i = k
    · subst hik
      simp [hbit]
    · simp [hik]
  · intro hbit h
    have hk' : (b &&& (1 <<< UInt8.ofNat k)).toBitVec.getLsbD k = true := by
      rw [UInt8.toBitVec_and,BitVec.getLsbD_and,getLsbD_mask hk k hk,hbit]
      simp
    rw [h] at hk'
    simp at hk'

theorem bitOf_or (b : UInt8) {k j : Nat} (hk : k < 8) (hj : j < 8) :
    bitOf (b ||| (1 <<< UInt8.ofNat k)) j = (decide (j = k) || bitOf b j) := by
  rw [bitOf_eq _ hj,bitOf_eq _ hj,UInt8.toBitVec_or,BitVec.getLsbD_or,getLsbD_mask hk j hj,Bool.or_comm]

theorem get_put_byte (bm : Block) {i : Nat} (hi : i < blockSize) (x : UInt8) (j : Nat) :
    (bm.put i [x]).get j = if j = i then x else bm.get j := by
  split
  · rename_i h
    subst h
    exact @Page.get_put_in 4096 bm j 0 [x] (by simp) hi
  · exact Page.get_put_out (by simp; omega)

theorem testBit_setBit (bm : Block) {i : Nat} (hi : i < 32768) (j : Nat) :
    testBit (setBit bm i) j = (decide (j = i) || testBit bm j) := by
  have hbyte : i/8 < blockSize := by
    simp only [blockSize]
    omega
  unfold testBit setBit
  rw [if_neg (by omega),get_put_byte bm hbyte]
  split
  · rename_i hj
    rw [bitOf_or _ (by omega) (by omega),hj]
    have : (j%8 = i%8) ↔ (j = i) := by omega
    simp [hbyte,this]
  · rename_i hj
    have : j ≠ i := fun h => hj (by rw [h])
    simp [this]

theorem testBit_zero (j : Nat) : testBit Page.zero j = false := by
  have : bitOf 0 (j%8) = false := by simp [bitOf]
  simp [testBit,Page.get_zero,this]

end PaghOS.Ext2
