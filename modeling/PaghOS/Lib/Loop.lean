import Mathlib.Data.List.Induction

/-!
Counted loops and runs whose body may panic. A panic is `none`; the rules
below are total: they give the value a loop returns, never only a property
of a value that might not exist.
-/

namespace PaghOS.Loop
open Option List

variable {σ α : Type}
variable {s : σ} {P I Inv Post : σ → Prop} {f : Nat → σ → Option σ} {step : σ → α → Option σ}
    {m : Option σ} {β : Type} {as : List α} {lo hi n : Nat} {Bad : σ → α → Prop}

/-- `m` returns normally and its value satisfies `P`. -/
def Returns (m : Option σ) (P : σ → Prop) : Prop := ∃ s, m = some s ∧ P s

theorem Returns.pure (h : P s) : Returns (some s) P := ⟨s,rfl,h⟩

theorem Returns.bind {τ : Type} {f : σ → Option τ}
    {Q : τ → Prop} (hm : Returns m P) (hf : ∀ s, P s → Returns (f s) Q) : Returns (m >>= f) Q := by
  obtain ⟨s,rfl,hs⟩ := hm
  exact hf s hs

theorem Returns.mono {Q : σ → Prop} (hm : Returns m P) (h : ∀ s, P s → Q s) : Returns m Q := by
  obtain ⟨s,hs,hp⟩ := hm
  exact ⟨s,hs,h s hp⟩

theorem not_returns_none : ¬ Returns (none : Option σ) P := by
  rintro ⟨s,hs,-⟩
  cases hs

/-- If `m` returns normally, its value satisfies `P`. -/
def Yields (m : Option σ) (P : σ → Prop) : Prop := ∀ s, m = some s → P s

theorem Yields.pure (h : P s) : Yields (some s) P := by
  intro t ht
  cases ht
  exact h

theorem Yields.bind {τ : Type} {f : σ → Option τ}
    {Q : τ → Prop} (hm : Yields m P) (hf : ∀ s, P s → Yields (f s) Q) : Yields (m >>= f) Q := by
  intro t ht
  rw [bind_eq_bind,bind_eq_some_iff] at ht
  obtain ⟨s,hs,ht⟩ := ht
  exact hf s (hm s hs) t ht

theorem Yields.panic : Yields (none : Option σ) P := by
  intro s hs
  cases hs

theorem Yields.any (m : Option σ) : Yields m (fun _ => True) := fun _ _ => trivial

theorem Yields.mono {Q : σ → Prop} (hm : Yields m P)
    (h : ∀ s, P s → Q s) : Yields m Q := fun s hs => h s (hm s hs)

theorem Yields.returns (h : Yields m P) (hm : m.isSome = true) : Returns m P := by
  obtain ⟨s,hs⟩ := isSome_iff_exists.mp hm
  exact ⟨s,hs,h s hs⟩

theorem Returns.yields (h : Returns m P) : Yields m P := by
  obtain ⟨s,rfl,hs⟩ := h
  exact .pure hs

theorem Returns.and {Q : σ → Prop} (h : Returns m P) (k : Yields m Q) :
    Returns m (fun s => P s ∧ Q s) := by
  obtain ⟨s,hs,hp⟩ := h
  exact ⟨s,hs,hp,k s hs⟩

/-- `m` returns normally and its value satisfies `P`, unless `q` makes it panic. -/
def ReturnsUnless (q : Prop) (m : Option σ) (P : σ → Prop) : Prop := Returns m P ∨ m = none ∧ q

theorem ReturnsUnless.bind {q : Prop} {τ : Type} {f : σ → Option τ} {Q : τ → Prop}
    (hm : ReturnsUnless q m P) (hf : ∀ s, P s → ReturnsUnless q (f s) Q) :
    ReturnsUnless q (m >>= f) Q := by
  rcases hm with ⟨s,rfl,hs⟩ | ⟨rfl,hq⟩
  · exact hf s hs
  · exact .inr ⟨rfl,hq⟩

theorem ReturnsUnless.yields {q : Prop} (h : ReturnsUnless q m P) : Yields m P := by
  rcases h with h | ⟨rfl,-⟩
  · exact h.yields
  · exact .panic

def usub (a b : Nat) : Option Nat := if b ≤ a then some (a-b) else none

theorem usub_of_le {a b : Nat} (h : b ≤ a) : usub a b = some (a-b) := by simp [usub,h]

def upFrom (f : Nat → σ → Option σ) : (n lo : Nat) → σ → Option σ
  | 0, _, s => some s
  | n+1, lo, s => do
      let s ← f lo s
      upFrom f n (lo+1) s

def forRange (lo hi : Nat) (f : Nat → σ → Option σ) (s : σ) : Option σ :=
  upFrom f (hi-lo) lo s

def downTo (f : Nat → σ → Option σ) (lo : Nat) : (n : Nat) → σ → Option σ
  | 0, s => some s
  | n+1, s => do
      let s ← f (lo+n) s
      downTo f lo n s

def forRangeRev (lo hi : Nat) (f : Nat → σ → Option σ) (s : σ) : Option σ :=
  downTo f lo (hi-lo) s

theorem upFrom_returns (n lo : Nat) (s : σ)
    (hf : ∀ i s, lo ≤ i → i < lo+n → I s → Returns (f i s) I) (hs : I s) : Returns (upFrom f n lo s) I := by
  induction n generalizing lo s with
  | zero => exact .pure hs
  | succ n ih =>
    refine Returns.bind (hf lo s (by omega) (by omega) hs) ?_
    intro t ht
    exact ih (lo+1) t (fun i u h₁ h₂ => hf i u (by omega) (by omega)) ht

theorem forRange_returns
    (hf : ∀ i s, lo ≤ i → i < hi → I s → Returns (f i s) I) (hs : I s) : Returns (forRange lo hi f s) I :=
  upFrom_returns _ _ _ (fun i s h₁ h₂ => hf i s h₁ (by omega)) hs

theorem downTo_returns (lo n : Nat) (s : σ)
    (hf : ∀ i s, lo ≤ i → i < lo+n → I s → Returns (f i s) I) (hs : I s) : Returns (downTo f lo n s) I := by
  induction n generalizing s with
  | zero => exact .pure hs
  | succ n ih =>
    refine Returns.bind (hf (lo+n) s (by omega) (by omega) hs) ?_
    intro t ht
    exact ih t (fun i u h₁ h₂ => hf i u h₁ (by omega)) ht

theorem forRangeRev_returns
    (hf : ∀ i s, lo ≤ i → i < hi → I s → Returns (f i s) I) (hs : I s) : Returns (forRangeRev lo hi f s) I :=
  downTo_returns _ _ _ (fun i s h₁ h₂ => hf i s h₁ (by omega)) hs

theorem upFrom_panics {bad : Nat} (n lo : Nat) (s : σ)
    (hlo : lo ≤ bad) (hhi : bad < lo+n) (hstep : ∀ i s t, I s → f i s = some t → I t)
    (hbad : ∀ s, I s → f bad s = none) (hs : I s) : upFrom f n lo s = none := by
  induction n generalizing lo s with
  | zero => omega
  | succ n ih =>
    by_cases hb : lo = bad
    · simp [upFrom,hb,hbad s hs]
    cases hf : f lo s with
    | none => simp [upFrom,hf]
    | some t =>
      simp only [upFrom,hf,bind_eq_bind,bind_some]
      exact ih (lo+1) t (by omega) (by omega) (hstep lo s t hs hf)

theorem forRange_panics {bad : Nat}
    (hlo : lo ≤ bad) (hhi : bad < hi) (hstep : ∀ i s t, I s → f i s = some t → I t)
    (hbad : ∀ s, I s → f bad s = none) (hs : I s) : forRange lo hi f s = none :=
  upFrom_panics _ _ _ hlo (by omega) hstep hbad hs

/-- At most `n` rounds of `loop`: a round goes on (`inl`) or leaves with a result
(`inr`). `none` is a loop that is still running. -/
def iterate {β : Type} (round : σ → σ ⊕ β) : Nat → σ → Option β
  | 0, _ => none
  | n+1, s =>
    match round s with
    | .inl t => iterate round n t
    | .inr b => some b

theorem iterate_mono {round : σ → σ ⊕ β} {m : Nat} {b : β}
    (h : iterate round n s = some b) (hnm : n ≤ m) : iterate round m s = some b := by
  induction n generalizing s m with
  | zero => simp [iterate] at h
  | succ n ih =>
    obtain ⟨k,rfl⟩ : ∃ k, m = k+1 := ⟨m-1,by omega⟩
    cases hr : round s with
    | inl t =>
      simp only [iterate,hr] at h ⊢
      exact ih h (by omega)
    | inr c =>
      simp only [iterate,hr] at h ⊢
      exact h

theorem iterate_unique {round : σ → σ ⊕ β} {m : Nat} {a b : β}
    (ha : iterate round n s = some a) (hb : iterate round m s = some b) : a = b := by
  have ha' := iterate_mono ha (Nat.le_max_left n m)
  have hb' := iterate_mono hb (Nat.le_max_right n m)
  exact some.inj (ha'.symm.trans hb')

theorem iterate_returns {round : σ → σ ⊕ β} {P : β → Prop} (m : σ → Nat)
    (hround : ∀ s, I s → (∃ t, round s = .inl t ∧ I t ∧ m t < m s) ∨ ∃ b, round s = .inr b ∧ P b)
    (hs : I s) (hn : m s < n) : Returns (iterate round n s) P := by
  induction n generalizing s with
  | zero => omega
  | succ n ih =>
    rcases hround s hs with ⟨t,hr,ht,hlt⟩ | ⟨b,hr,hb⟩
    · simp only [iterate,hr]
      exact ih ht (by omega)
    · simp only [iterate,hr]
      exact .pure hb

theorem iterate_ends {round : σ → σ ⊕ β} {P : β → Prop} {r : σ → σ → Prop} (hwf : WellFounded r)
    (hround : ∀ s, I s → (∃ t, round s = .inl t ∧ I t ∧ r t s) ∨ ∃ b, round s = .inr b ∧ P b)
    (hs : I s) : ∃ n, Returns (iterate round n s) P := by
  induction s using hwf.induction with
  | _ s ih =>
    rcases hround s hs with ⟨t,hr,ht,hlt⟩ | ⟨b,hr,hb⟩
    · obtain ⟨n,hn⟩ := ih t hlt ht
      exact ⟨n+1,by simpa only [iterate,hr] using hn⟩
    · exact ⟨1,by simpa only [iterate,hr] using .pure hb⟩

def after {β : Type} (round : σ → σ ⊕ β) : Nat → σ → Option σ
  | 0, s => some s
  | n+1, s =>
    match round s with
    | .inl t => after round n t
    | .inr _ => none

theorem after_yields {round : σ → σ ⊕ β}
    (hstep : ∀ s t, I s → round s = .inl t → I t) (n : Nat) (hs : I s) : Yields (after round n s) I := by
  induction n generalizing s with
  | zero => exact .pure hs
  | succ n ih =>
    cases hr : round s with
    | inl t =>
      simp only [after,hr]
      exact ih (hstep s t hs hr)
    | inr b =>
      simp only [after,hr]
      exact .panic

def run (step : σ → α → Option σ) (s : σ) (as : List α) : Option σ := as.foldlM step s

@[simp] theorem run_nil (step : σ → α → Option σ) (s : σ) : run step s [] = some s := rfl

@[simp] theorem run_cons (step : σ → α → Option σ) (s : σ) (a : α) (as : List α) :
    run step s (a :: as) = step s a >>= fun t => run step t as := rfl

theorem run_append (step : σ → α → Option σ) (s : σ) (as bs : List α) :
    run step s (as ++ bs) = run step s as >>= fun t => run step t bs := by
  simp [run,foldlM_append]

def Along (step : σ → α → Option σ) (Q : σ → α → Prop) : σ → List α → Prop
  | _, [] => True
  | s, a :: as => Q s a ∧ ∀ t ∈ step s a, Along step Q t as

instance Along.decidable (step : σ → α → Option σ) (Q : σ → α → Prop)
    [∀ s a, Decidable (Q s a)] : ∀ s as, Decidable (Along step Q s as)
  | _, [] => .isTrue trivial
  | s, a :: as =>
    have : ∀ t, Decidable (Along step Q t as) := fun t => Along.decidable step Q t as
    inferInstanceAs (Decidable (Q s a ∧ ∀ t ∈ step s a, Along step Q t as))

theorem Along.at_prefix {Q : σ → α → Prop}
    (h : Along step Q s as) (p : List α) (a : α) (t : σ) (hp : p ++ [a] <+: as)
    (ht : run step s p = some t) : Q t a := by
  induction p generalizing s as with
  | nil =>
    cases ht
    cases as with
    | nil => simp at hp
    | cons b as =>
      simp at hp
      exact hp ▸ h.1
  | cons c p ih =>
    cases as with
    | nil => simp at hp
    | cons b as =>
      obtain ⟨rfl,hp'⟩ := cons_prefix_cons.mp hp
      rw [run_cons,bind_eq_bind,bind_eq_some_iff] at ht
      obtain ⟨u,hu,ht⟩ := ht
      exact ih (h.2 u hu) hp' ht

theorem run_concat (step : σ → α → Option σ) {t : σ} {p : List α} (ht : run step s p = some t)
    (a : α) : run step s (p ++ [a]) = step t a := by
  rw [run_append,ht]
  cases h : step t a <;> simp [h]

theorem run_safe (Ok : σ → α → Prop) (hpost : ∀ s, Inv s → Post s)
    (hgood : ∀ s a, Inv s → Ok s a → Returns (step s a) Inv) (hs : Inv s)
    (hok : ∀ p a t, p ++ [a] <+: as → run step s p = some t → Ok t a) (p : List α)
    (hp : p <+: as) : Returns (run step s p) Post := by
  refine Returns.mono ?_ hpost
  induction p using List.reverseRecOn with
  | nil => exact .pure hs
  | append_singleton p a ih =>
    obtain ⟨t,ht,hi⟩ := ih ((prefix_append p [a]).trans hp)
    rw [run_concat step ht]
    exact hgood t a hi (hok p a t hp ht)

theorem run_yields (Ok : σ → α → Prop)
    (hgood : ∀ s a, Inv s → Ok s a → Yields (step s a) Inv) (hs : Inv s)
    (hok : ∀ p a t, p ++ [a] <+: as → run step s p = some t → Ok t a) (p : List α)
    (hp : p <+: as) : Yields (run step s p) Inv := by
  induction p using List.reverseRecOn with
  | nil => exact .pure hs
  | append_singleton p a ih =>
    have hp' := (prefix_append p [a]).trans hp
    rw [run_append]
    intro u hu
    rw [bind_eq_bind,bind_eq_some_iff] at hu
    obtain ⟨t,ht,hu⟩ := hu
    refine hgood t a (ih hp' t ht) (hok p a t hp ht) u ?_
    cases h : step t a <;> simp_all

theorem run_yields_iff
    (hpost : ∀ s, Inv s → Post s) (hgood : ∀ s a, Inv s → ¬ Bad s a → Yields (step s a) Inv)
    (hbad : ∀ s a, Inv s → Bad s a → ¬ Yields (step s a) Post) (hs : Inv s) (as : List α) :
    (∀ p, p <+: as → Yields (run step s p) Post) ↔
      ∀ p a t, p ++ [a] <+: as → run step s p = some t → ¬ Bad t a := by
  constructor
  · intro h
    -- a step whose outcome keeps the promise cannot have been a bad one
    have hinv : ∀ p, p <+: as → Yields (run step s p) Inv :=
      run_yields (fun t a => Yields (step t a) Post)
        (fun t a hi hout => hgood t a hi fun hb => hbad t a hi hb hout) hs
        (fun p a t hp ht => run_concat step ht a ▸ h _ hp)
    intro p a t hp ht hb
    have hout := h _ hp
    rw [run_concat step ht] at hout
    exact hbad t a (hinv p ((prefix_append p [a]).trans hp) t ht) hb hout
  · intro h p hp
    exact (run_yields (fun t a => ¬ Bad t a) hgood hs h p hp).mono hpost

/-- Safety of whole runs, with the steps that spoil it. A step from an invariant
state either returns into the invariant or is one of the `Bad` ones, and a bad
one shows: it panics or breaks what the run promises. `Adm` is what the
environment owes at every step. -/
theorem run_safe_iff (Adm : σ → α → Prop) (hpost : ∀ s, Inv s → Post s)
    (hgood : ∀ s a, Inv s → Adm s a → ¬ Bad s a → Returns (step s a) Inv)
    (hbad : ∀ s a, Inv s → Adm s a → Bad s a → ¬ Returns (step s a) Post) (hs : Inv s)
    (as : List α) (hadm : ∀ p a t, p ++ [a] <+: as → run step s p = some t → Adm t a) :
    (∀ p, p <+: as → Returns (run step s p) Post) ↔
      ∀ p a t, p ++ [a] <+: as → run step s p = some t → ¬ Bad t a := by
  constructor
  · intro h
    have hinv : ∀ p, p <+: as → Returns (run step s p) Inv :=
      run_safe (fun t a => Adm t a ∧ Returns (step t a) Post) (fun _ hi => hi)
        (fun t a hi ha => hgood t a hi ha.1 fun hb => hbad t a hi ha.1 hb ha.2) hs
        (fun p a t hp ht => ⟨hadm p a t hp ht,run_concat step ht a ▸ h _ hp⟩)
    intro p a t hp ht hb
    obtain ⟨u,hu,hi⟩ := hinv p ((prefix_append p [a]).trans hp)
    have htu : u = t := by simpa [ht] using hu.symm
    subst htu
    have hout := h _ hp
    rw [run_concat step ht] at hout
    exact hbad u a hi (hadm p a u hp ht) hb hout
  · intro h p hp
    exact run_safe (fun t a => Adm t a ∧ ¬ Bad t a) hpost (fun t a hi ha => hgood t a hi ha.1 ha.2) hs
      (fun p a t hp ht => ⟨hadm p a t hp ht,h p a t hp ht⟩) p hp

theorem run_total (f : σ → α → σ) (s : σ) (as : List α) :
    run (fun s a => some (f s a)) s as = some (as.foldl f s) := by
  induction as generalizing s with
  | nil => rfl
  | cons a as ih => simpa [run_cons] using ih (f s a)

theorem foldl_safe_iff {f : σ → α → σ} (Adm : σ → α → Prop) (hpost : ∀ s, Inv s → Post s)
    (hgood : ∀ s a, Inv s → Adm s a → ¬ Bad s a → Inv (f s a))
    (hbad : ∀ s a, Inv s → Adm s a → Bad s a → ¬ Post (f s a)) (hs : Inv s)
    (as : List α) (hadm : ∀ p a, p ++ [a] <+: as → Adm (p.foldl f s) a) :
    (∀ p, p <+: as → Post (p.foldl f s)) ↔ ∀ p a, p ++ [a] <+: as → ¬ Bad (p.foldl f s) a := by
  have hstep : ∀ t a, Inv t → Adm t a → ¬ Bad t a → Returns (some (f t a)) Inv :=
    fun t a hi ha hb => .pure (hgood t a hi ha hb)
  have hbreak : ∀ t a, Inv t → Adm t a → Bad t a → ¬ Returns (some (f t a)) Post := by
    rintro t a hi ha hb ⟨u,hu,hp⟩
    simp only [some.injEq] at hu
    exact hbad t a hi ha hb (hu ▸ hp)
  have h := run_safe_iff Adm hpost hstep hbreak hs as (by
    intro p a t hp ht
    simp only [run_total,some.injEq] at ht
    exact ht ▸ hadm p a hp)
  simpa [run_total,Returns] using h

/-- Every step of a finite run of a total step function meets a condition. -/
def AlongFold (f : σ → α → σ) (Q : σ → α → Prop) : σ → List α → Prop
  | _,[] => True
  | s,a :: as => Q s a ∧ AlongFold f Q (f s a) as

instance AlongFold.decidable (f : σ → α → σ) (Q : σ → α → Prop) [∀ s a, Decidable (Q s a)] :
    (s : σ) → (as : List α) → Decidable (AlongFold f Q s as)
  | _,[] => .isTrue trivial
  | s,a :: as =>
    let _ := AlongFold.decidable f Q (f s a) as
    inferInstanceAs (Decidable (_ ∧ _))

theorem AlongFold.at_prefix {f : σ → α → σ} {Q : σ → α → Prop} {p : List α} {a : α}
    (h : AlongFold f Q s as) (hp : p ++ [a] <+: as) : Q (p.foldl f s) a := by
  induction p generalizing s as with
  | nil =>
    cases as with
    | nil => simp at hp
    | cons b as =>
      obtain ⟨rfl,-⟩ := cons_prefix_cons.mp hp
      exact h.1
  | cons c p ih =>
    cases as with
    | nil => simp at hp
    | cons b as =>
      obtain ⟨rfl,hp'⟩ := cons_prefix_cons.mp hp
      exact ih h.2 hp'

end PaghOS.Loop
