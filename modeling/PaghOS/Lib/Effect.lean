import Mathlib.Tactic.Common

/-!
Programs that change a state and may fail half way. A failure keeps the state
it happened in, so every rule speaks of both ends. The last part is a work
list: each item is tried once, those that could not be done yet are tried again
for as long as a round gets something done.
-/

namespace PaghOS.Effect
open List

variable {ε σ α β : Type}
variable {γ : Type} {vs : List (σ × α)}
variable {s : σ} {E N : σ → Prop} {m : EStateM ε σ α} {Q : α → σ → Prop}

def final (m : EStateM ε σ α) (s : σ) : σ :=
  match m s with
  | .ok _ t => t
  | .error _ t => t

/-- Started in `s`, the program returns with `Q` or fails with `E`. -/
def Ends (m : EStateM ε σ α) (s : σ) (Q : α → σ → Prop) (E : σ → Prop) : Prop :=
  match m s with
  | .ok a t => Q a t
  | .error _ t => E t

theorem bind_apply (m : EStateM ε σ α) (f : α → EStateM ε σ β) (s : σ) : (m >>= f) s = match m s with
      | .ok a t => f a t
      | .error e t => .error e t := rfl

theorem get_bind_apply (f : σ → EStateM ε σ α) (s : σ) : (get >>= f) s = f s s := rfl

theorem final_bind (m : EStateM ε σ α) (f : α → EStateM ε σ β) (s : σ) : final (m >>= f) s = match m s with
      | .ok a t => final (f a) t
      | .error _ t => t := by
  simp only [final,bind_apply]
  cases m s <;> rfl

theorem final_map (m : EStateM ε σ α) (g : α → β) (s : σ) : final (do
    let a ← m
    pure (g a)) s = final m s := by
  rw [final_bind]
  unfold final
  cases m s <;> rfl

theorem ends_pure {a : α} (h : Q a s) : Ends (pure a : EStateM ε σ α) s Q E := h

theorem ends_throw {e : ε} (h : E s) : Ends (throw e : EStateM ε σ α) s Q E := h

theorem ends_get_bind {f : σ → EStateM ε σ α} (h : Ends (f s) s Q E) : Ends (get >>= f) s Q E := h

theorem ends_bind_of_eq {f : α → EStateM ε σ β} {P : α → σ → Prop} {Q : β → σ → Prop} (hm : Ends m s P E)
    (hf : ∀ a t, m s = .ok a t → P a t → Ends (f a) t Q E) : Ends (m >>= f) s Q E := by
  unfold Ends at hm ⊢
  rw [bind_apply]
  cases h : m s with
  | ok a t => exact hf a t h (by simpa [h] using hm)
  | error e t => simpa [h] using hm

theorem ends_bind {f : α → EStateM ε σ β} {P : α → σ → Prop} {Q : β → σ → Prop} (hm : Ends m s P E)
    (hf : ∀ a t, P a t → Ends (f a) t Q E) : Ends (m >>= f) s Q E :=
  ends_bind_of_eq hm fun a t _ => hf a t

theorem Ends.mono_of_eq {P : α → σ → Prop} {D : σ → Prop} (h : Ends m s P D)
    (hok : ∀ a t, m s = .ok a t → P a t → Q a t) (herr : ∀ t, D t → E t) : Ends m s Q E := by
  unfold Ends at h ⊢
  cases hm : m s with
  | ok a t => exact hok a t hm (by simpa [hm] using h)
  | error e t => exact herr t (by simpa [hm] using h)

theorem Ends.mono {P : α → σ → Prop} {D : σ → Prop}
    (h : Ends m s P D) (hok : ∀ a t, P a t → Q a t) (herr : ∀ t, D t → E t) : Ends m s Q E :=
  h.mono_of_eq (fun a t _ => hok a t) herr

theorem Ends.final {P : σ → Prop} (h : Ends m s (fun _ => P) P) : P (final m s) := by
  unfold Ends at h
  unfold Effect.final
  cases hm : m s <;> simpa [hm] using h

theorem ends_of_final {P : σ → Prop} (h : P (final m s)) : Ends m s (fun _ => P) P := by
  unfold Effect.final at h
  unfold Ends
  cases hm : m s <;> simpa [hm] using h

def Keeps (N : σ → Prop) (m : EStateM ε σ α) : Prop := ∀ s, N s → N (final m s)

theorem keeps_pure (N : σ → Prop) (a : α) : Keeps N (pure a : EStateM ε σ α) := fun _ h => h

theorem keeps_bind {f : α → EStateM ε σ β} (hm : Keeps N m)
    (hf : ∀ a, Keeps N (f a)) : Keeps N (m >>= f) := by
  intro s hs
  have hend : N (final m s) := hm s hs
  rw [final_bind]
  unfold final at hend
  cases h : m s with
  | ok a t => exact hf a t (by simpa [h] using hend)
  | error e t => simpa [h] using hend

section WorkList

variable (f : α → EStateM ε σ Bool)

/-- One round over the list: how many items were done, and those to try again. -/
def pass : List α → EStateM ε σ (Nat × List α)
  | [] => pure (0,[])
  | a :: as => do
      let done ← f a
      let r ← pass as
      pure (if done then (r.1+1,r.2) else (r.1,a :: r.2))

def retry : Nat → List α → EStateM ε σ Nat
  | 0, _ => pure 0
  | rounds+1, as =>
    if as.isEmpty then pure 0
    else do
      let r ← pass f as
      if r.1 = 0 then pure 0
      else do
        let n ← retry rounds r.2
        pure (r.1+n)

def settle (as : List α) : EStateM ε σ Nat := do
  let r ← pass f as
  let n ← retry f r.2.length r.2
  pure (r.1+n)

theorem pass_subset {as : List α} {r : Nat × List α} {t : σ} (h : pass f as s = .ok r t) : r.2 ⊆ as := by
  induction as generalizing s r t with
  | nil =>
    cases h
    exact fun _ ha => ha
  | cons a as ih =>
    simp only [pass,bind_apply] at h
    cases ha : f a s with
    | error e u => simp [ha] at h
    | ok done u =>
      cases hp : pass f as u with
      | error e v => simp [ha,hp] at h
      | ok q v =>
        have hq := ih hp
        simp only [ha,hp] at h
        cases done <;> cases h
        · exact cons_subset_cons a hq
        · exact fun b hb => mem_cons_of_mem _ (hq hb)

def after {γ : Type} (r : EStateM.Result ε σ β) (w : β → σ → List γ) : List γ :=
  match r with
  | .ok b t => w b t
  | .error _ _ => []

def passVisits : List α → σ → List (σ × α)
  | [], _ => []
  | a :: as, s => (s,a) :: after (f a s) (fun _ => passVisits as)

def retryVisits : Nat → List α → σ → List (σ × α)
  | 0, _, _ => []
  | rounds+1, as, s =>
    if as.isEmpty then []
    else passVisits f as s ++
      after (pass f as s) (fun r t => if r.1 = 0 then [] else retryVisits rounds r.2 t)

def visits (as : List α) (s : σ) : List (σ × α) :=
  passVisits f as s ++ after (pass f as s) (fun r t => retryVisits f r.2.length r.2 t)

theorem pass_keeps (h : ∀ a, Keeps N (f a)) (as : List α) : Keeps N (pass f as) := by
  induction as with
  | nil => exact keeps_pure N _
  | cons a as ih => exact keeps_bind (h a) (fun _ => keeps_bind ih (fun _ => keeps_pure N _))

theorem retry_keeps (h : ∀ a, Keeps N (f a)) (rounds : Nat) (as : List α) :
    Keeps N (retry f rounds as) := by
  induction rounds generalizing as with
  | zero => exact keeps_pure N _
  | succ rounds ih =>
    unfold retry
    split
    · exact keeps_pure N _
    refine keeps_bind (pass_keeps f h as) fun p => ?_
    by_cases hz : p.1 = 0
    · simpa only [hz,if_true] using keeps_pure N _
    · simpa only [hz,if_false] using keeps_bind (ih p.2) fun _ => keeps_pure N _

section Decides

variable {I P : σ → Prop} {Bad : σ → α → Prop}

/-- `vs` are the attempts of `m` from `s` that decide whether it is safe: with
none of them bad the invariant survives, with a bad one the promise is broken. -/
def Decides (I P : σ → Prop) (Bad : σ → α → Prop) (m : EStateM ε σ β) (s : σ)
    (vs : List (σ × α)) : Prop :=
  I s → ((∀ v ∈ vs, ¬ Bad v.1 v.2) → I (final m s)) ∧
    ((∃ v ∈ vs, Bad v.1 v.2) → ¬ P (final m s))

theorem decides_pure (b : β) (s : σ) : Decides I P Bad (pure b : EStateM ε σ β) s [] := by
  intro hs
  exact ⟨fun _ => hs,fun h => by simp at h⟩

theorem decides_bind {m : EStateM ε σ β} {g : β → EStateM ε σ γ}
    {w : β → σ → List (σ × α)} (hm : Decides I P Bad m s vs)
    (hg : ∀ b t, m s = .ok b t → Decides I P Bad (g b) t (w b t))
    (hkeep : ∀ b, Keeps (fun t => ¬ P t) (g b)) : Decides I P Bad (m >>= g) s (vs ++ after (m s) w) := by
  intro hs
  obtain ⟨hgood,hbad⟩ := hm hs
  rw [final_bind]
  unfold final at hgood hbad
  cases h : m s with
  | error e t =>
    simp only [h] at hgood hbad
    simpa only [after,append_nil] using And.intro hgood hbad
  | ok b t =>
    simp only [h] at hgood hbad
    constructor
    · intro hvs
      have ht : I t := hgood fun v hv => hvs v (mem_append_left _ hv)
      exact (hg b t h ht).1 fun v hv => hvs v (mem_append_right _ hv)
    rintro ⟨v,hv,hb⟩
    by_cases hfirst : ∃ v ∈ vs, Bad v.1 v.2
    · exact hkeep b t (hbad hfirst)
    have ht : I t := hgood fun v hv hb => hfirst ⟨v,hv,hb⟩
    rcases mem_append.mp hv with hv | hv
    · exact absurd ⟨v,hv,hb⟩ hfirst
    · exact (hg b t h ht).2 ⟨v,hv,hb⟩

theorem decides_map {m : EStateM ε σ β} (hm : Decides I P Bad m s vs) (g : β → γ) : Decides I P Bad (do
      let b ← m
      pure (g b)) s vs := by
  have h := decides_bind (w := fun _ _ => []) hm (fun b t _ => decides_pure (g b) t)
    (fun _ => keeps_pure _ _)
  cases hr : m s <;> simpa [hr,after] using h

variable {A : α → Prop} {f : α → EStateM ε σ Bool}
  (hgood : ∀ s a, A a → I s → ¬ Bad s a → I (final (f a) s))
  (hbad : ∀ s a, A a → I s → Bad s a → ¬ P (final (f a) s))
  (hkeep : ∀ a, Keeps (fun t => ¬ P t) (f a))

include hgood hbad hkeep

theorem decides_pass (as : List α) (has : ∀ a ∈ as, A a) (s : σ) :
    Decides I P Bad (pass f as) s (passVisits f as s) := by
  induction as generalizing s with
  | nil => exact decides_pure _ s
  | cons a as ih =>
    have ha : A a := has a (by simp)
    have hone : Decides I P Bad (f a) s [(s,a)] := by
      intro hs
      constructor
      · intro h
        exact hgood s a ha hs (h (s,a) (mem_singleton_self _))
      · rintro ⟨v,hv,hb⟩
        obtain rfl := mem_singleton.mp hv
        exact hbad s a ha hs hb
    have hrest := ih fun b hb => has b (mem_cons_of_mem _ hb)
    exact decides_bind (w := fun _ => passVisits f as) hone
      (fun _ t _ => decides_map (hrest t) _)
      (fun _ => keeps_bind (pass_keeps f hkeep as) fun _ => keeps_pure _ _)

theorem decides_retry (rounds : Nat) (as : List α) (has : ∀ a ∈ as, A a) (s : σ) :
    Decides I P Bad (retry f rounds as) s (retryVisits f rounds as s) := by
  induction rounds generalizing as s with
  | zero => exact decides_pure _ s
  | succ rounds ih =>
    unfold retry retryVisits
    split
    · exact decides_pure _ s
    refine decides_bind (decides_pass hgood hbad hkeep as has s) (fun r t hr => ?_) fun r => ?_
    · by_cases hz : r.1 = 0
      · simpa only [hz,if_true] using decides_pure 0 t
      · simpa only [hz,if_false] using
          decides_map (ih r.2 (fun a ha => has a (pass_subset f hr ha)) t) _
    by_cases hz : r.1 = 0
    · simpa only [hz,if_true] using keeps_pure _ _
    · simpa only [hz,if_false] using
        keeps_bind (retry_keeps f hkeep rounds r.2) fun _ => keeps_pure _ _

theorem settle_safe_iff (hP : ∀ s, I s → P s) (as : List α) (has : ∀ a ∈ as, A a)
    (hs : I s) : P (final (settle f as) s) ↔ ∀ v ∈ visits f as s, ¬ Bad v.1 v.2 := by
  have hall : Decides I P Bad (settle f as) s (visits f as s) :=
    decides_bind (decides_pass hgood hbad hkeep as has s)
      (fun r t hr => decides_map (decides_retry hgood hbad hkeep r.2.length r.2
        (fun a ha => has a (pass_subset f hr ha)) t) _)
      (fun r => keeps_bind (retry_keeps f hkeep _ r.2) fun _ => keeps_pure _ _)
  obtain ⟨hsafe,hbroken⟩ := hall hs
  constructor
  · intro hp v hv hb
    exact hbroken ⟨v,hv,hb⟩ hp
  · intro h
    exact hP _ (hsafe h)

end Decides

end WorkList

end PaghOS.Effect
