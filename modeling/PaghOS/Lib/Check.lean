import Mathlib.Data.Nat.Notation

/-!
Chains of checks that end with the first failure. Each form of check says when
it passes, so that a chain passes exactly when every link does.
-/

namespace PaghOS.Check

variable {ε ε' α β : Type}

def ensure (c : Prop) [Decidable c] (e : ε) : Except ε Unit := if c then .ok () else .error e

def demand (o : Option α) (e : ε) : Except ε α :=
  match o with
  | some a => .ok a
  | none => .error e

def checkAll (f : α → Except ε Unit) : List α → Except ε Unit
  | [] => .ok ()
  | a :: as => do
      f a
      checkAll f as

def mapErr (g : ε → ε') : Except ε α → Except ε' α
  | .ok a => .ok a
  | .error e => .error (g e)

def Passes (x : Except ε α) : Prop := ∃ a, x = .ok a

@[simp] theorem ensure_eq_ok {c : Prop} [Decidable c] {e : ε} {u : Unit} : ensure c e = .ok u ↔ c := by
  unfold ensure
  split <;> simp_all

@[simp] theorem demand_eq_ok {o : Option α} {e : ε} {a : α} : demand o e = .ok a ↔ o = some a := by
  cases o <;> simp [demand]

theorem demand_some (a : α) (e : ε) : demand (some a) e = .ok a := rfl

theorem ensure_of {c : Prop} [Decidable c] (h : c) (e : ε) : ensure c e = .ok () := if_pos h

theorem ok_bind (a : α) (f : α → Except ε β) : (Except.ok a >>= f) = f a := rfl

@[simp] theorem bind_eq_ok {x : Except ε α} {f : α → Except ε β} {b : β} :
    (x >>= f) = .ok b ↔ ∃ a, x = .ok a ∧ f a = .ok b := by
  cases x <;> simp [bind,Except.bind]

@[simp] theorem checkAll_eq_ok {f : α → Except ε Unit} {as : List α} {u : Unit} :
    checkAll f as = .ok u ↔ ∀ a ∈ as, f a = .ok () := by
  induction as with
  | nil => simp [checkAll]
  | cons a as ih =>
    simp only [checkAll,bind_eq_ok,ih,List.mem_cons,forall_eq_or_imp]
    exact ⟨fun ⟨_,ha,has⟩ => ⟨ha,has⟩,fun ⟨ha,has⟩ => ⟨(),ha,has⟩⟩

@[simp] theorem mapErr_eq_ok {g : ε → ε'} {x : Except ε α} {a : α} : mapErr g x = .ok a ↔ x = .ok a := by
  cases x <;> simp [mapErr]

theorem findSome?_cons_or (f : α → Option β) (a : α) (l : List α) :
    (a :: l).findSome? f = (f a).or (l.findSome? f) := by
  cases h : f a <;> simp [h]

end PaghOS.Check
