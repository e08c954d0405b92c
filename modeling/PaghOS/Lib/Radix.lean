import Mathlib.Logic.Function.Basic

/-!
Tables of tables with leaves below: a radix tree of fixed depth whose inner tables
are made on demand, each from a common stock. A table once made stays.
-/

namespace PaghOS.Radix
open List

variable {α : Type}

/-- An entry above `n` levels of tables: empty, or a leaf (`n = 0`) or a table. -/
def Entry (α : Type) : Nat → Type
  | 0 => Option α
  | n+1 => Option (Nat → Entry α n)

def Entry.empty : (n : Nat) → Entry α n
  | 0 => (none : Option α)
  | _+1 => (none : Option _)

def lookup : (n : Nat) → Entry α n → List Nat → Option α
  | 0,e,_ => e
  | _+1,none,_ => none
  | _+1,some _,[] => none
  | n+1,some t,i :: is => lookup n (t i) is

def missing : (n : Nat) → Entry α n → List Nat → Nat
  | 0,_,_ => 0
  | n+1,none,_ => n+1
  | _+1,some _,[] => 0
  | n+1,some t,i :: is => missing n (t i) is

/-- Puts a leaf at a path, taking the tables that are missing from a stock of `free`.
When the stock runs out, the tables made so far stay. -/
def insert (leaf : α) : (n : Nat) → Entry α n → List Nat → (free : Nat) → Bool × Entry α n × Nat
  | 0,_,_,free => (true,some leaf,free)
  | _+1,e,[],free => (true,e,free)
  | n+1,some t,i :: is,free =>
    let (ok,e,free) := insert leaf n (t i) is free
    (ok,some (Function.update t i e),free)
  | _+1,none,_ :: _,0 => (false,none,0)
  | n+1,none,i :: is,free+1 =>
    let (ok,e,free) := insert leaf n (Entry.empty n) is free
    (ok,some (Function.update (fun _ => Entry.empty n) i e),free)

def modify (f : Option α → Option α) : (n : Nat) → Entry α n → List Nat → Entry α n
  | 0,e,_ => f e
  | _+1,none,_ => none
  | _+1,some t,[] => some t
  | n+1,some t,i :: is => some (Function.update t i (modify f n (t i) is))

@[simp] theorem lookup_empty (n : Nat) (is : List Nat) : lookup n (Entry.empty n : Entry α n) is = none := by
  cases n <;> rfl

theorem missing_empty (n : Nat) (is : List Nat) : missing n (Entry.empty n : Entry α n) is = n := by
  cases n <;> rfl

theorem missing_of_lookup {n : Nat} {e : Entry α n} {is : List Nat} {leaf : α}
    (h : lookup n e is = some leaf) : missing n e is = 0 := by
  induction n generalizing is with
  | zero => rfl
  | succ n ih =>
    cases e with
    | none => simp [lookup] at h
    | some t =>
      cases is with
      | nil => rfl
      | cons i is => exact ih h

section Insert

variable (leaf : α)
variable {n : Nat} {is : List Nat}

theorem insert_free {e : Entry α n} (hlen : is.length = n) (free : Nat) :
    (insert leaf n e is free).1 = decide (missing n e is ≤ free) ∧
      (insert leaf n e is free).2.2 = free-missing n e is := by
  induction n generalizing is free with
  | zero => simp [insert,missing]
  | succ n ih =>
    obtain ⟨i,is,rfl⟩ := exists_cons_of_length_eq_add_one hlen
    have hlen' : is.length = n := by simpa using hlen
    cases e with
    | some t => exact ih hlen' free
    | none =>
      cases free with
      | zero => simp [insert,missing]
      | succ free =>
        obtain ⟨h₁,h₂⟩ := ih (e := Entry.empty n) hlen' free
        rw [missing_empty] at h₁ h₂
        simp only [insert,missing,h₁,h₂]
        exact ⟨by simp,by omega⟩

/-- The leaf is at its path if the stock sufficed; nothing else is looked up differently either way. -/
theorem lookup_insert {e : Entry α n} {js : List Nat} (hi : is.length = n)
    (hj : js.length = n) (free : Nat) : lookup n (insert leaf n e is free).2.1 js =
      if js = is ∧ missing n e is ≤ free then some leaf else lookup n e js := by
  induction n generalizing is js free with
  | zero =>
    obtain rfl := length_eq_zero_iff.mp hi
    obtain rfl := length_eq_zero_iff.mp hj
    simp [insert,lookup,missing]
  | succ n ih =>
    obtain ⟨i,is,rfl⟩ := exists_cons_of_length_eq_add_one hi
    obtain ⟨j,js,rfl⟩ := exists_cons_of_length_eq_add_one hj
    have hrec (e : Entry α n) (free : Nat) := ih (e := e) (Nat.succ.inj hi) (Nat.succ.inj hj) free
    cases e with
    | some t => by_cases hij : j = i <;> simp [insert,lookup,missing,hij,hrec]
    | none =>
      cases free with
      | zero => simp [insert,missing]
      | succ free => by_cases hij : j = i <;> simp [insert,lookup,missing,missing_empty,hij,hrec]

theorem missing_insert {e : Entry α n} {js : List Nat} (hi : is.length = n)
    (hj : js.length = n) {free : Nat} (h : missing n e is = 0) :
    missing n (insert leaf n e is free).2.1 js = missing n e js := by
  induction n generalizing is js free with
  | zero => rfl
  | succ n ih =>
    obtain ⟨i,is,rfl⟩ := exists_cons_of_length_eq_add_one hi
    obtain ⟨j,js,rfl⟩ := exists_cons_of_length_eq_add_one hj
    cases e with
    | none => simp [missing] at h
    | some t =>
      have hrec : missing n (insert leaf n (t i) is free).2.1 js = _ :=
        ih (Nat.succ.inj hi) (Nat.succ.inj hj) h
      by_cases hij : j = i <;> simp [insert,missing,hij,hrec]

end Insert

theorem lookup_modify {f : Option α → Option α} (hf : f none = none) {n : Nat} {e : Entry α n}
    {is js : List Nat} (hi : is.length = n) (hj : js.length = n) :
    lookup n (modify f n e is) js = if js = is then f (lookup n e is) else lookup n e js := by
  induction n generalizing is js with
  | zero =>
    obtain rfl := length_eq_zero_iff.mp hi
    obtain rfl := length_eq_zero_iff.mp hj
    simp [modify,lookup]
  | succ n ih =>
    obtain ⟨i,is,rfl⟩ := exists_cons_of_length_eq_add_one hi
    obtain ⟨j,js,rfl⟩ := exists_cons_of_length_eq_add_one hj
    cases e with
    | none => simp [modify,lookup,hf]
    | some t =>
      have hrec := ih (e := t i) (Nat.succ.inj hi) (Nat.succ.inj hj)
      by_cases hij : j = i <;> simp [modify,lookup,hij,hrec]

theorem missing_modify (f : Option α → Option α) {n : Nat} {e : Entry α n} {is js : List Nat}
    (hi : is.length = n) (hj : js.length = n) : missing n (modify f n e is) js = missing n e js := by
  induction n generalizing is js with
  | zero => rfl
  | succ n ih =>
    obtain ⟨i,is,rfl⟩ := exists_cons_of_length_eq_add_one hi
    obtain ⟨j,js,rfl⟩ := exists_cons_of_length_eq_add_one hj
    cases e with
    | none => rfl
    | some t =>
      have hrec := ih (e := t i) (Nat.succ.inj hi) (Nat.succ.inj hj)
      by_cases hij : j = i <;> simp [modify,missing,hij,hrec]

end PaghOS.Radix
