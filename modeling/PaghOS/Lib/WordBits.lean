import Mathlib.Data.List.Range

/-!
A set of small numbers as a list of 64-bit words. `bit` is the only view of the
words that the rules below speak of.
-/

namespace PaghOS.WordBits
open BitVec List

abbrev Words := List (BitVec 64)

def bit (ws : Words) (i : Nat) : Bool := (ws.getD (i/64) 0).getLsbD (i%64)

def set (ws : Words) (i : Nat) : Words := List.set ws (i/64) (ws.getD (i/64) 0 ||| 1#64 <<< (i%64))

def clear (ws : Words) (i : Nat) : Words :=
  List.set ws (i/64) (ws.getD (i/64) 0 &&& ~~~(1#64 <<< (i%64)))

def trailingZeros (w : BitVec 64) : Nat := ((List.range 64).find? (w.getLsbD ·)).getD 64

def firstSet (ws : Words) : Option Nat :=
  ((List.range ws.length).find? (fun i => ws.getD i 0 ≠ 0)).map fun i => i*64+trailingZeros (ws.getD i 0)

def count (ws : Words) : Nat := (List.range (64*ws.length)).countP (bit ws)

@[simp] theorem length_set (ws : Words) (i : Nat) : (set ws i).length = ws.length := by simp [set]

@[simp] theorem length_clear (ws : Words) (i : Nat) : (clear ws i).length = ws.length := by simp [clear]

variable {ws : Words} {i : Nat}

theorem lt_of_bit (h : bit ws i = true) : i < 64*ws.length := by
  by_contra hi
  have hout : ws.length ≤ i/64 := by omega
  simp [bit,hout] at h

theorem getLsbD_mask (k : Nat) {i : Nat} (hi : i < 64) : (1#64 <<< k).getLsbD i = decide (i = k) := by
  rw [getLsbD_shiftLeft,getLsbD_one]
  by_cases h : i = k
  · simp [h,h ▸ hi]
  · simp [h]
    omega

theorem bit_listSet (hi : i < 64*ws.length) (w : BitVec 64) (j : Nat) :
    bit (List.set ws (i/64) w) j = if j/64 = i/64 then w.getLsbD (j%64) else bit ws j := by
  have hlen : i/64 < ws.length := by omega
  unfold bit
  by_cases h : j/64 = i/64
  · simp [h,hlen]
  · simp [h,List.getElem?_set_ne (Ne.symm h)]

theorem bit_set (hi : i < 64*ws.length) (j : Nat) : bit (set ws i) j = (decide (j = i) || bit ws j) := by
  rw [set,bit_listSet hi]
  by_cases hw : j/64 = i/64
  · rw [if_pos hw,getLsbD_or,getLsbD_mask _ (Nat.mod_lt _ (by decide)),bit,hw,Bool.or_comm]
    have : j%64 = i%64 ↔ j = i := by omega
    simp [this]
  · have : j ≠ i := fun h => hw (h ▸ rfl)
    simp [hw,this]

theorem bit_clear (hi : i < 64*ws.length) (j : Nat) : bit (clear ws i) j = (!decide (j = i) && bit ws j) := by
  rw [clear,bit_listSet hi]
  by_cases hw : j/64 = i/64
  · rw [if_pos hw,getLsbD_and,getLsbD_not,getLsbD_mask _ (Nat.mod_lt _ (by decide)),bit,hw]
    have : j%64 = i%64 ↔ j = i := by omega
    simp [this,Nat.mod_lt,Bool.and_comm]
  · have : j ≠ i := fun h => hw (h ▸ rfl)
    simp [hw,this]

theorem bit_zero (n i : Nat) : bit (List.replicate n 0#64) i = false := by
  by_cases h : i/64 < n <;> simp [bit,h]

theorem count_zero (n : Nat) : count (List.replicate n 0#64) = 0 := by
  simp [count,bit_zero]

theorem countP_range_insert {p q : Nat → Bool} {n : Nat} (hi : i < n) (hp : p i = false)
    (hq : ∀ j, q j = (decide (j = i) || p j)) : (List.range n).countP q = (List.range n).countP p+1 := by
  induction n with
  | zero => omega
  | succ n ih =>
    rw [range_succ,countP_append,countP_append,countP_singleton,countP_singleton]
    by_cases hin : i = n
    · subst hin
      have hsame : (List.range i).countP q = (List.range i).countP p := by
        refine countP_congr (fun j hj => ?_)
        rw [mem_range] at hj
        simp [hq j,show j ≠ i by omega]
      simp [hsame,hq i,hp]
    · rw [ih (by omega),hq n]
      simp [show n ≠ i by omega]
      omega

theorem count_set (hi : i < 64*ws.length) (h : bit ws i = false) : count (set ws i) = count ws+1 := by
  rw [count,length_set]
  exact countP_range_insert hi h (bit_set hi)

theorem count_clear (h : bit ws i = true) : count ws = count (clear ws i)+1 := by
  have hi := lt_of_bit h
  rw [count,count,length_clear]
  refine countP_range_insert hi (by simp [bit_clear hi]) ?_
  intro j
  by_cases hj : j = i
  · simp [hj,h]
  · simp [bit_clear hi,hj]

theorem count_pos (h : bit ws i = true) : 0 < count ws := by
  have := count_clear h
  omega

theorem clearRun {start n : Nat} (h : ∀ k, k < n → bit ws (start+k) = true) :
    ((List.range' start n).foldl clear ws).length = ws.length ∧
      count ws = count ((List.range' start n).foldl clear ws)+n ∧
      ∀ i, bit ((List.range' start n).foldl clear ws) i = true ↔ bit ws i = true ∧
        ¬ (start ≤ i ∧ i < start+n) := by
  induction n generalizing ws start with
  | zero =>
    refine ⟨rfl,rfl,fun i => ?_⟩
    simp only [List.range'_zero,foldl_nil,Nat.add_zero]
    exact ⟨fun h => ⟨h,by omega⟩,fun h => h.1⟩
  | succ n ih =>
    have hstart : bit ws start = true := h 0 (by omega)
    have hlt := lt_of_bit hstart
    have hrest : ∀ k, k < n → bit (clear ws start) (start+1+k) = true := by
      intro k hk
      have := h (k+1) (by omega)
      rw [bit_clear hlt]
      simp [show start+1+k = start+(k+1) by omega,this]
    obtain ⟨hlen,hcount,hbits⟩ := ih hrest
    rw [List.range'_succ,foldl_cons]
    refine ⟨hlen.trans (length_clear _ _),?_,?_⟩
    · have := count_clear hstart
      omega
    intro i
    rw [hbits i,bit_clear hlt]
    simp only [Bool.and_eq_true,Bool.not_eq_true',decide_eq_false_iff_not]
    constructor
    · exact fun ⟨⟨hne,hi⟩,hout⟩ => ⟨hi,by omega⟩
    · exact fun ⟨hi,hout⟩ => ⟨⟨by omega,hi⟩,by omega⟩

theorem trailingZeros_spec {w : BitVec 64} (h : w ≠ 0) :
    trailingZeros w < 64 ∧ w.getLsbD (trailingZeros w) = true := by
  unfold trailingZeros
  cases hfind : (List.range 64).find? (w.getLsbD ·) with
  | none =>
    refine absurd (eq_of_getLsbD_eq fun i hi => ?_) h
    simpa using List.find?_eq_none.mp hfind i (mem_range.mpr hi)
  | some k =>
    obtain ⟨hbit,hk,-⟩ := List.find?_range_eq_some.mp hfind
    exact ⟨mem_range.mp hk,hbit⟩

theorem firstSet_some (h : firstSet ws = some i) : bit ws i = true := by
  obtain ⟨k,hfind,rfl⟩ := Option.map_eq_some_iff.mp h
  obtain ⟨hne,-,-⟩ := List.find?_range_eq_some.mp hfind
  obtain ⟨hlt,hbit⟩ := trailingZeros_spec (by simpa using hne : ws.getD k 0 ≠ 0)
  have hdiv : (k*64+trailingZeros (ws.getD k 0))/64 = k := by omega
  have hmod : (k*64+trailingZeros (ws.getD k 0))%64 = trailingZeros (ws.getD k 0) := by omega
  rw [bit,hdiv,hmod]
  exact hbit

theorem firstSet_none (h : firstSet ws = none) (i : Nat) : bit ws i = false := by
  by_contra hbit
  have hi := lt_of_bit (Bool.not_eq_false _ ▸ hbit)
  have hzero : ws.getD (i/64) 0 = 0 := by
    have hfind := Option.map_eq_none_iff.mp h
    simpa using List.find?_eq_none.mp hfind (i/64) (mem_range.mpr (by omega))
  rw [bit,hzero] at hbit
  simp at hbit

end PaghOS.WordBits
