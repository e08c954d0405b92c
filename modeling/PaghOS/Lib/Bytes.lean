import Mathlib.Data.Nat.Notation

/-! Little-endian numbers inside byte strings. -/

namespace PaghOS.Bytes
open List

def le : (n v : Nat) → List UInt8
  | 0, _ => []
  | n+1, v => UInt8.ofNat (v%256) :: le n (v/256)

def ofLe : List UInt8 → Nat
  | [] => 0
  | b :: bs => b.toNat+256*ofLe bs

def lim : Nat → Nat
  | 0 => 1
  | n+1 => 256*lim n

@[simp] theorem length_le (n v : Nat) : (le n v).length = n := by
  induction n generalizing v with
  | zero => rfl
  | succ n ih => simp [le,ih]

variable {n : Nat}

theorem ofLe_le {v : Nat} (h : v < lim n) : ofLe (le n v) = v := by
  induction n generalizing v with
  | zero =>
    simp only [lim] at h
    simp [le,ofLe]
    omega
  | succ n ih =>
    simp only [lim] at h
    have hb : (UInt8.ofNat (v%256)).toNat = v%256 := by simp
    simp only [le,ofLe,hb,ih (by omega : v/256 < lim n)]
    omega

theorem ofLe_lt (bs : List UInt8) : ofLe bs < lim bs.length := by
  induction bs with
  | nil => simp [ofLe,lim]
  | cons b bs ih =>
    have hb := b.toNat_lt
    simp only [ofLe,length_cons,lim]
    omega

def slice (bs : List UInt8) (off len : Nat) : List UInt8 := (bs.drop off).take len

def patch (bs : List UInt8) (off : Nat) (new : List UInt8) : List UInt8 :=
  bs.take off ++ new ++ bs.drop (off+new.length)

variable {bs new : List UInt8} {off : Nat}

theorem length_patch (h : off+new.length ≤ bs.length) : (patch bs off new).length = bs.length := by
  simp [patch]
  omega

theorem slice_append_left {xs ys : List UInt8} {len : Nat} (h : off+len ≤ xs.length) :
    slice (xs ++ ys) off len = slice xs off len := by
  rw [slice,drop_append_of_le_length (by omega),take_append_of_le_length]
  · rfl
  · simp
    omega

theorem slice_append_right {xs ys : List UInt8} {len : Nat} (h : xs.length ≤ off) :
    slice (xs ++ ys) off len = slice ys (off-xs.length) len := by
  rw [slice,drop_append,drop_eq_nil_of_le h,nil_append,slice]

theorem slice_self (xs : List UInt8) : slice xs 0 xs.length = xs := by simp [slice]

variable {a : Nat}

theorem slice_slice {b m : Nat} (h : b+m ≤ n) : slice (slice bs a n) b m = slice bs (a+b) m := by
  simp only [slice,drop_take,take_take,drop_drop]
  rw [Nat.min_eq_left (by omega)]

theorem slice_patch_self (h : off+new.length ≤ bs.length) :
    slice (patch bs off new) off new.length = new := by
  have ho : (bs.take off).length = off := by simp; omega
  rw [patch,append_assoc,slice_append_right (by omega),ho,Nat.sub_self,slice_append_left (by simp),slice_self]

theorem slice_patch_of_disjoint (h : off+new.length ≤ bs.length) (hd : a+n ≤ off ∨ off+new.length ≤ a) :
    slice (patch bs off new) a n = slice bs a n := by
  have ho : (bs.take off).length = off := by simp; omega
  rcases hd with hd | hd
  · rw [patch,append_assoc,slice_append_left (by omega)]
    simp only [slice,drop_take,take_take]
    rw [Nat.min_eq_left (by omega)]
  · rw [patch,slice_append_right (by simp; omega)]
    simp only [slice,drop_drop,length_append,ho]
    rw [show off+new.length+(a-(off+new.length)) = a by omega]

theorem slice_patch_front (h : off+new.length ≤ bs.length) (hn : new.length ≤ n) :
    slice (patch bs off new) off n = new ++ slice bs (off+new.length) (n-new.length) := by
  have ho : (bs.take off).length = off := by simp; omega
  rw [patch,append_assoc,slice_append_right (by omega),ho,Nat.sub_self]
  simp [slice,take_append,take_of_length_le hn]

theorem getD_patch_of_outside {i : Nat} (h : off+new.length ≤ bs.length) (hi : i < off ∨ off+new.length ≤ i) :
    (patch bs off new).getD i 0 = bs.getD i 0 := by
  simp only [getD_eq_getElem?_getD,patch,append_assoc]
  rcases hi with hi | hi
  · rw [List.getElem?_append_left (by simp; omega),List.getElem?_take_of_lt hi]
  rw [List.getElem?_append_right (by simp; omega),List.getElem?_append_right (by simp; omega),
    List.getElem?_drop]
  congr 2
  simp
  omega

def patchAll (bs : List UInt8) (writes : List (Nat × List UInt8)) : List UInt8 :=
  writes.foldl (fun bs w => patch bs w.1 w.2) bs

theorem length_patchAll {writes : List (Nat × List UInt8)}
    (h : ∀ w ∈ writes, w.1+w.2.length ≤ bs.length) : (patchAll bs writes).length = bs.length := by
  induction writes generalizing bs with
  | nil => rfl
  | cons w writes ih =>
    have hw := length_patch (h w (by simp))
    exact (ih fun w' hw' => by rw [hw]; exact h w' (by simp [hw'])).trans hw

theorem slice_patchAll_of_disjoint {writes : List (Nat × List UInt8)}
    (h : ∀ w ∈ writes, w.1+w.2.length ≤ bs.length)
    (hd : ∀ w ∈ writes, a+n ≤ w.1 ∨ w.1+w.2.length ≤ a) : slice (patchAll bs writes) a n = slice bs a n := by
  induction writes generalizing bs with
  | nil => rfl
  | cons w writes ih =>
    have hw := length_patch (h w (by simp))
    calc slice (patchAll (patch bs w.1 w.2) writes) a n
        = slice (patch bs w.1 w.2) a n :=
          ih (fun w' hw' => by rw [hw]; exact h w' (by simp [hw']))
            fun w' hw' => hd w' (by simp [hw'])
      _ = slice bs a n := slice_patch_of_disjoint (h w (by simp)) (hd w (by simp))

theorem slice_patchAll (before after : List (Nat × List UInt8))
    (h : ∀ w ∈ before ++ (off,new) :: after, w.1+w.2.length ≤ bs.length) (hn : new.length ≤ n)
    (hbefore : ∀ w ∈ before, off+n ≤ w.1 ∨ w.1+w.2.length ≤ off+new.length)
    (hafter : ∀ w ∈ after, off+n ≤ w.1 ∨ w.1+w.2.length ≤ off) :
    slice (patchAll bs (before ++ (off,new) :: after)) off n =
      new ++ slice bs (off+new.length) (n-new.length) := by
  have hpre : (patchAll bs before).length = bs.length :=
    length_patchAll fun w hw => h w (by simp [hw])
  have hfit : off+new.length ≤ (patchAll bs before).length := by
    rw [hpre]
    exact h (off,new) (by simp)
  have hlen := length_patch hfit
  rw [patchAll,foldl_append,foldl_cons,← patchAll,← patchAll,
    slice_patchAll_of_disjoint (fun w hw => by rw [hlen,hpre]; exact h w (by simp [hw])) hafter,
    slice_patch_front hfit hn,slice_patchAll_of_disjoint (fun w hw => h w (by simp [hw]))]
  intro w hw
  rcases hbefore w hw with hd | hd
  · exact .inl (by omega)
  · exact .inr hd

end PaghOS.Bytes
