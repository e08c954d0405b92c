import Mathlib.Data.List.Basic

/-!
Address resolution. A cache in a fixed number of slots, at most one entry a
slot; and frames that wait until the address they are for is known, with a
ledger of what was parked and what was released.
-/

namespace PaghOS.Resolver
open List

section Slots
variable {ε κ : Type} [DecidableEq κ] (key : ε → κ)

def find (k : κ) (slots : List (Option ε)) : Option ε :=
  slots.findSome? (fun s => s.filter (fun e => key e = k))

def update (e : ε) : List (Option ε) → Option (List (Option ε))
  | [] => none
  | none :: slots => (update e slots).map (none :: ·)
  | some e' :: slots =>
    if key e' = key e then some (some e :: slots) else (update e slots).map (some e' :: ·)

def put (victim : Nat) (e : ε) (slots : List (Option ε)) : List (Option ε) :=
  (update key e slots).getD (slots.set victim (some e))

variable {key} {k : κ} {e : ε} {slots slots' : List (Option ε)}

theorem find_cons_some (e' : ε) :
    find key k (some e' :: slots) = if key e' = k then some e' else find key k slots := by
  by_cases h : key e' = k
  · simp [find,h]
  · simp [find,h]

@[simp] theorem find_cons_none : find key k (none :: slots) = find key k slots := rfl

theorem find_isSome_iff : (find key k slots).isSome ↔ ∃ e, some e ∈ slots ∧ key e = k := by
  induction slots with
  | nil => simp [find]
  | cons s slots ih =>
    cases s with
    | none => simpa using ih
    | some e' =>
      rw [find_cons_some]
      by_cases h : key e' = k
      · simp only [if_pos h,Option.isSome_some,true_iff]
        exact ⟨e',mem_cons_self,h⟩
      rw [if_neg h,ih]
      constructor
      · rintro ⟨e,he,hk⟩
        exact ⟨e,mem_cons_of_mem _ he,hk⟩
      rintro ⟨e,he,hk⟩
      rcases mem_cons.mp he with heq | he
      · exact absurd (Option.some.inj heq ▸ hk) h
      · exact ⟨e,he,hk⟩

theorem update_some (h : update key e slots = some slots') :
    find key (key e) slots' = some e ∧ slots'.length = slots.length ∧
      ∀ k, k ≠ key e → find key k slots' = find key k slots := by
  induction slots generalizing slots' with
  | nil => simp [update] at h
  | cons s slots ih =>
    cases s with
    | none =>
      obtain ⟨rest,hrest,rfl⟩ := Option.map_eq_some_iff.mp h
      obtain ⟨hself,hlen,hother⟩ := ih hrest
      exact ⟨hself,congrArg (·+1) hlen,hother⟩
    | some e' =>
      simp only [update] at h
      split at h
      · rename_i hkey
        obtain rfl := Option.some.inj h
        refine ⟨by simp [find_cons_some],rfl,fun k hk => ?_⟩
        rw [find_cons_some,find_cons_some,hkey,if_neg (Ne.symm hk),if_neg (Ne.symm hk)]
      rename_i hkey
      obtain ⟨rest,hrest,rfl⟩ := Option.map_eq_some_iff.mp h
      obtain ⟨hself,hlen,hother⟩ := ih hrest
      refine ⟨?_,congrArg (·+1) hlen,fun k hk => ?_⟩
      · rw [find_cons_some,if_neg hkey,hself]
      · rw [find_cons_some,find_cons_some,hother k hk]

theorem update_none (h : update key e slots = none) : find key (key e) slots = none := by
  induction slots with
  | nil => rfl
  | cons s slots ih =>
    cases s with
    | none =>
      rw [find_cons_none]
      exact ih (Option.map_eq_none_iff.mp h)
    | some e' =>
      simp only [update] at h
      split at h
      · simp at h
      · rename_i hkey
        rw [find_cons_some,if_neg hkey]
        exact ih (Option.map_eq_none_iff.mp h)

theorem find_set_self {victim : Nat} (hnone : find key (key e) slots = none)
    (hvictim : victim < slots.length) : find key (key e) (slots.set victim (some e)) = some e := by
  induction slots generalizing victim with
  | nil => simp at hvictim
  | cons s slots ih =>
    cases victim with
    | zero => simp [find_cons_some]
    | succ victim =>
      have hlt : victim < slots.length := by simpa using hvictim
      cases s with
      | none => simpa using ih (by simpa using hnone) hlt
      | some e' =>
        rw [find_cons_some] at hnone
        split at hnone
        · simp at hnone
        · rename_i hkey
          rw [set_cons_succ,find_cons_some,if_neg hkey,ih hnone hlt]

theorem find_put (key : ε → κ) (e : ε) {victim : Nat} (hvictim : victim < slots.length) :
    find key (key e) (put key victim e slots) = some e ∧
      ∀ k, k ≠ key e → (find key k (put key victim e slots)).isSome → (find key k slots).isSome := by
  unfold put
  cases hupdate : update key e slots with
  | some slots' =>
    obtain ⟨hself,-,hother⟩ := update_some hupdate
    refine ⟨hself,fun k hk hsome => ?_⟩
    rw [← hother k hk]
    exact hsome
  | none =>
    refine ⟨find_set_self (update_none hupdate) hvictim,fun k hk hsome => ?_⟩
    obtain ⟨e',hmem,hkey⟩ := find_isSome_iff.mp hsome
    rcases mem_or_eq_of_mem_set hmem with hmem | heq
    · exact find_isSome_iff.mpr ⟨e',hmem,hkey⟩
    · obtain rfl := Option.some.inj heq
      exact absurd hkey.symm hk

@[simp] theorem length_put (victim : Nat) (e : ε) (slots : List (Option ε)) :
    (put key victim e slots).length = slots.length := by
  unfold put
  cases hupdate : update key e slots with
  | some slots' => exact (update_some hupdate).2.1
  | none => exact length_set

theorem find_sweep (alive : ε → Bool)
    (h : (find key k (slots.map (fun s => s.filter alive))).isSome) : (find key k slots).isSome := by
  obtain ⟨e,hmem,hkey⟩ := find_isSome_iff.mp h
  obtain ⟨s,hs,hfilter⟩ := mem_map.mp hmem
  obtain rfl := Option.eq_some_of_filter_eq_some hfilter
  exact find_isSome_iff.mpr ⟨e,hs,hkey⟩

end Slots

/-- What is known, what waits, and what was parked and released so far, the
latest batch apart. A released frame stands with the form it was sent in. -/
structure Ledger (α μ φ β : Type) where
  known : α → Option μ
  waiting : List (α × φ)
  parked : List (α × φ)
  released : List (α × φ × β)
  batch : List (α × φ × β)

section Ledger
variable {α μ φ β : Type} [DecidableEq α]

def framesFor (a : α) (l : List (α × φ)) : List φ := (l.filter (fun w => w.1 = a)).map (·.2)

/-- No frame waits for a known address; the frames released for an address are
frames that were parked for it, in that order and none twice; and the latest were
sent to the address that is known now. -/
structure Disciplined (stamp : μ → φ → β) (l : Ledger α μ φ β) : Prop where
  idle : ∀ w ∈ l.waiting, l.known w.1 = none
  order : ∀ a, (framesFor a (l.released.map (fun r => (r.1,r.2.1)))).Sublist (framesFor a l.parked)
  stamped : ∀ r ∈ l.batch, ∃ m, l.known r.1 = some m ∧ r.2.2 = stamp m r.2.1

/-- What also waits was parked after all that was released. -/
structure Orderly (stamp : μ → φ → β) (l : Ledger α μ φ β) : Prop where
  idle : ∀ w ∈ l.waiting, l.known w.1 = none
  flow : ∀ a, (framesFor a (l.released.map (fun r => (r.1,r.2.1))) ++ framesFor a l.waiting).Sublist
    (framesFor a l.parked)
  stamped : ∀ r ∈ l.batch, ∃ m, l.known r.1 = some m ∧ r.2.2 = stamp m r.2.1

/-- What a step of a resolver may do: forget addresses and drop frames, park a
frame for an unknown address, or learn an address and release its frames. -/
inductive Move (stamp : μ → φ → β) (l : Ledger α μ φ β) : Ledger α μ φ β → Prop where
  | ease {known : α → Option μ} {waiting : List (α × φ)}
      (hknown : ∀ a, (known a).isSome → (l.known a).isSome) (hwaiting : waiting.Sublist l.waiting) :
      Move stamp l ⟨known,waiting,l.parked,l.released,[]⟩
  | park {a : α} {f : φ} (hunknown : l.known a = none) :
      Move stamp l ⟨l.known,l.waiting ++ [(a,f)],l.parked ++ [(a,f)],l.released,[]⟩
  | release {a : α} {m : μ} {known : α → Option μ} {batch : List (α × φ × β)} (ha : known a = some m)
      (hothers : ∀ b, b ≠ a → (known b).isSome → (l.known b).isSome)
      (hbatch : batch = (l.waiting.filter (fun w => w.1 = a)).map (fun w => (w.1,w.2,stamp m w.2))) :
      Move stamp l ⟨known,l.waiting.filter (fun w => w.1 ≠ a),l.parked,l.released ++ batch,batch⟩

variable {stamp : μ → φ → β} {l l' : Ledger α μ φ β}

theorem framesFor_append (a : α) (xs ys : List (α × φ)) :
    framesFor a (xs ++ ys) = framesFor a xs ++ framesFor a ys := by
  simp [framesFor]

theorem framesFor_sublist (a : α) {xs ys : List (α × φ)} (h : xs.Sublist ys) :
    (framesFor a xs).Sublist (framesFor a ys) := (h.filter _).map _

theorem framesFor_filter_ne (a b : α) (xs : List (α × φ)) :
    framesFor b (xs.filter (fun w => w.1 ≠ a)) = if b = a then [] else framesFor b xs := by
  unfold framesFor
  rw [filter_filter]
  by_cases hb : b = a
  · subst hb
    simp
  rw [if_neg hb]
  congr 1
  refine filter_congr fun w _ => ?_
  by_cases hw : w.1 = b
  · simp [hw,hb]
  · simp [hw]

theorem framesFor_filter_eq (a b : α) (xs : List (α × φ)) :
    framesFor b (xs.filter (fun w => w.1 = a)) = if b = a then framesFor b xs else [] := by
  unfold framesFor
  rw [filter_filter]
  by_cases hb : b = a
  · subst hb
    simp
  rw [if_neg hb,map_eq_nil_iff,filter_eq_nil_iff]
  intro w _ hw
  simp only [Bool.and_eq_true,decide_eq_true_eq] at hw
  exact hb (hw.1.symm.trans hw.2)

theorem Orderly.disciplined (h : Orderly stamp l) : Disciplined stamp l where
  idle := h.idle
  order := fun a => (sublist_append_left _ _).trans (h.flow a)
  stamped := h.stamped

theorem Orderly.move (h : Orderly stamp l) (hmove : Move stamp l l') : Orderly stamp l' := by
  cases hmove with
  | ease hknown hwaiting =>
    refine ⟨fun w hw => ?_,fun a => ?_,nofun⟩
    · have hnone := h.idle w (hwaiting.subset hw)
      rw [← Option.not_isSome_iff_eq_none] at hnone ⊢
      exact fun hsome => hnone (hknown _ hsome)
    · exact ((framesFor_sublist a hwaiting).append_left _).trans (h.flow a)
  | @park a f hunknown =>
    refine ⟨fun w hw => ?_,fun b => ?_,nofun⟩
    · rcases mem_append.mp hw with hw | hw
      · exact h.idle w hw
      · rw [mem_singleton.mp hw]
        exact hunknown
    · rw [framesFor_append,framesFor_append,← append_assoc]
      exact (h.flow b).append_right _
  | @release a m known batch ha hothers hbatch =>
    have hpairs : batch.map (fun r => (r.1,r.2.1)) = l.waiting.filter (fun w => w.1 = a) := by
      rw [hbatch,map_map]
      exact map_id _
    refine ⟨fun w hw => ?_,fun b => ?_,fun r hr => ?_⟩
    · obtain ⟨hmem,hne⟩ := mem_filter.mp hw
      have hne : w.1 ≠ a := by simpa using hne
      have hnone := h.idle w hmem
      rw [← Option.not_isSome_iff_eq_none] at hnone ⊢
      exact fun hsome => hnone (hothers _ hne hsome)
    · have hflow := h.flow b
      rw [map_append,framesFor_append,hpairs,framesFor_filter_ne,framesFor_filter_eq]
      by_cases hb : b = a
      · simpa only [if_pos hb,append_nil] using hflow
      · simpa only [if_neg hb,append_nil] using hflow
    · rw [hbatch] at hr
      obtain ⟨w,hw,rfl⟩ := mem_map.mp hr
      have hwa : w.1 = a := by simpa using (mem_filter.mp hw).2
      exact ⟨m,by simpa [hwa] using ha,rfl⟩

theorem Move.learn {a : α} {known : α → Option μ} (ha : (known a).isSome)
    (hothers : ∀ b, b ≠ a → (known b).isSome → (l.known b).isSome) (hnone : ∀ w ∈ l.waiting, w.1 ≠ a) :
    Move stamp l ⟨known,l.waiting,l.parked,l.released,[]⟩ := by
  obtain ⟨m,hm⟩ := Option.isSome_iff_exists.mp ha
  have hkeep : l.waiting.filter (fun w => w.1 ≠ a) = l.waiting := by
    rw [filter_eq_self]
    simpa using hnone
  have hempty : l.waiting.filter (fun w => w.1 = a) = [] := by
    rw [filter_eq_nil_iff]
    simpa using hnone
  have hmove : Move stamp l
      ⟨known,l.waiting.filter fun w => w.1 ≠ a,l.parked,l.released ++ [],[]⟩ :=
    .release hm hothers (by rw [hempty]; rfl)
  rwa [hkeep,append_nil] at hmove

theorem not_disciplined_of_learn {w : α × φ} (hw : w ∈ l.waiting) (hknown : (l.known w.1).isSome) :
    ¬ Disciplined stamp l := by
  intro h
  rw [h.idle w hw] at hknown
  simp at hknown

end Ledger

end PaghOS.Resolver
