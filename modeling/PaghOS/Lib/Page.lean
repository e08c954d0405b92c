import PaghOS.Lib.Bytes

/-!
Pages of a fixed number of bytes, with little-endian numbers at byte offsets and
records packed field after field. What is written reads back, and writes leave
everything outside their range alone.
-/

namespace PaghOS
open Bytes List

def Page (n : Nat) : Type := Fin n → UInt8

namespace Page

variable {n : Nat}

def zero : Page n := fun _ => 0

def get (p : Page n) (i : Nat) : UInt8 := if h : i < n then p ⟨i,h⟩ else 0

def put (p : Page n) (off : Nat) (bs : List UInt8) : Page n :=
  fun i => if off ≤ i.val then (bs[i.val-off]?).getD (p i) else p i

def bytes (p : Page n) (off len : Nat) : List UInt8 := (List.range len).map (fun k => p.get (off+k))

def num (p : Page n) (off len : Nat) : Nat := ofLe (p.bytes off len)

def setNum (p : Page n) (off len v : Nat) : Page n := p.put off (le len v)

@[simp] theorem length_bytes (p : Page n) (off len : Nat) : (p.bytes off len).length = len := by
  simp [bytes]

theorem get_zero (i : Nat) : (zero : Page n).get i = 0 := by
  simp [get,zero]

variable {p : Page n} {off : Nat} {bs : List UInt8}

theorem get_put_out {i : Nat} (h : i < off ∨ off+bs.length ≤ i) : (p.put off bs).get i = p.get i := by
  unfold get put
  split
  · split
    · rename_i hoff
      have hlen : bs.length ≤ i-off := by
        dsimp only at hoff
        omega
      rw [List.getElem?_eq_none hlen]
      rfl
    · rfl
  · rfl

theorem get_put_in {p : Page n} {off k : Nat} {bs : List UInt8} (hk : k < bs.length)
    (hn : off+bs.length ≤ n) : (p.put off bs).get (off+k) = bs[k] := by
  unfold get put
  rw [dif_pos (by omega)]
  simp [List.getElem?_eq_getElem hk]

variable {o len : Nat}

theorem bytes_put_out (h : o+len ≤ off ∨ off+bs.length ≤ o) : (p.put off bs).bytes o len = p.bytes o len := by
  refine map_congr_left fun k hk => ?_
  rw [mem_range] at hk
  exact get_put_out (by omega)

theorem bytes_put {p : Page n} {off : Nat} {bs : List UInt8} (h : off+bs.length ≤ n) :
    (p.put off bs).bytes off bs.length = bs := by
  refine ext_getElem (by simp) fun k h₁ h₂ => ?_
  simp only [bytes,getElem_map,getElem_range]
  exact get_put_in h₂ h

theorem bytes_congr {q : Page n}
    (h : ∀ i, off ≤ i → i < off+len → q.get i = p.get i) : q.bytes off len = p.bytes off len := by
  refine map_congr_left fun k hk => ?_
  rw [mem_range] at hk
  exact h (off+k) (by omega) (by omega)

theorem num_put_out (h : o+len ≤ off ∨ off+bs.length ≤ o) : (p.put off bs).num o len = p.num o len := by
  rw [num,bytes_put_out h]
  rfl

theorem num_setNum {v : Nat} (h : off+len ≤ n) (hv : v < lim len) : (p.setNum off len v).num off len = v := by
  have hb := @bytes_put n p off (le len v) (by simpa using h)
  rw [length_le] at hb
  rw [num,setNum,hb,ofLe_le hv]

theorem num_lt (p : Page n) (off len : Nat) : p.num off len < lim len := by
  have := ofLe_lt (p.bytes off len)
  rwa [length_bytes] at this

theorem put_append (p : Page n) (off : Nat) (xs ys : List UInt8) :
    p.put off (xs ++ ys) = (p.put off xs).put (off+xs.length) ys := by
  funext i
  unfold put
  by_cases h₁ : off ≤ i.val
  · by_cases h₂ : off+xs.length ≤ i.val
    · simp [h₁,h₂,List.getElem?_append_right (show xs.length ≤ i.val-off by omega),
        List.getElem?_eq_none (show xs.length ≤ i.val-off by omega),Nat.sub_sub]
    · simp [h₁,h₂,List.getElem?_append_left (show i.val-off < xs.length by omega)]
  · have h₂ : ¬ off+xs.length ≤ i.val := by omega
    simp [h₁,h₂]

def pack : List (Nat × Nat) → List UInt8
  | [] => []
  | (w,v) :: fs => le w v ++ pack fs

def fields (p : Page n) : (off : Nat) → List Nat → List Nat
  | _, [] => []
  | off, w :: ws => p.num off w :: fields p (off+w) ws

def span : List Nat → Nat
  | [] => 0
  | w :: ws => w+span ws

@[simp] theorem length_pack (fs : List (Nat × Nat)) : (pack fs).length = span (fs.map (·.1)) := by
  induction fs with
  | nil => rfl
  | cons f fs ih => simp [pack,span,ih]

variable {ws : List Nat}

theorem fields_put_out (h : o+span ws ≤ off ∨ off+bs.length ≤ o) :
    (p.put off bs).fields o ws = p.fields o ws := by
  induction ws generalizing o with
  | nil => rfl
  | cons w ws ih =>
    simp only [span] at h
    rw [fields,fields,num_put_out (by omega),ih (by omega)]

theorem fields_congr {p q : Page n} {off : Nat} {ws : List Nat}
    (h : ∀ i, off ≤ i → i < off+span ws → q.get i = p.get i) : q.fields off ws = p.fields off ws := by
  induction ws generalizing off with
  | nil => rfl
  | cons w ws ih =>
    simp only [span] at h
    rw [fields,fields,num,num,bytes_congr fun i h₁ h₂ => h i h₁ (by omega),
      ih fun i h₁ h₂ => h i (by omega) (by omega)]

theorem fields_put {p : Page n} {off : Nat} {fs : List (Nat × Nat)}
    (hn : off+span (fs.map (·.1)) ≤ n) (hv : ∀ f ∈ fs, f.2 < lim f.1) :
    (p.put off (pack fs)).fields off (fs.map (·.1)) = fs.map (·.2) := by
  induction fs generalizing p off with
  | nil => rfl
  | cons f fs ih =>
    obtain ⟨w,v⟩ := f
    simp only [map_cons,span] at hn
    simp only [pack,put_append,length_le,map_cons,fields]
    rw [ih (by omega) fun f hf => hv f (mem_cons_of_mem _ hf),num_put_out (.inl (by omega))]
    congr 1
    exact num_setNum (by omega) (hv (w,v) (by simp))

def putRecord (p : Page n) (off : Nat) (ws vs : List Nat) : Page n := p.put off (pack (ws.zip vs))

def Fits (ws vs : List Nat) : Prop := ∀ f ∈ ws.zip vs, f.2 < lim f.1

theorem fields_putRecord {p : Page n} {off : Nat} {ws vs : List Nat} (hlen : ws.length = vs.length)
    (hn : off+span ws ≤ n) (hv : Fits ws vs) : (p.putRecord off ws vs).fields off ws = vs := by
  have h₁ : (ws.zip vs).map (·.1) = ws := map_fst_zip (by omega)
  have h₂ : (ws.zip vs).map (·.2) = vs := map_snd_zip (by omega)
  have h := @fields_put n p off (ws.zip vs) (by rwa [h₁]) hv
  rwa [h₁,h₂] at h

variable {vs : List Nat}

theorem length_pack_zip (hlen : ws.length = vs.length) : (pack (ws.zip vs)).length = span ws := by
  rw [length_pack,map_fst_zip (by omega)]

theorem fields_putRecord_out {us : List Nat} (hlen : ws.length = vs.length)
    (h : o+span us ≤ off ∨ off+span ws ≤ o) : (p.putRecord off ws vs).fields o us = p.fields o us :=
  fields_put_out (by rwa [length_pack_zip hlen])

theorem get_putRecord_out {i : Nat} (hlen : ws.length = vs.length) (h : i < off ∨ off+span ws ≤ i) :
    (p.putRecord off ws vs).get i = p.get i :=
  get_put_out (by rwa [length_pack_zip hlen])

end Page

end PaghOS
