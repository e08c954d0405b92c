import Mathlib.Data.List.DropRight

/-! Text in byte strings: UTF-8, white space, trimming, words and numbers. -/

namespace PaghOS.Text
open List

/-- The decoder between two bytes: `need` continuation bytes are missing, `acc` is
the value so far and `lo` the least value a sequence of this length may have. -/
def utf8Go (need acc lo : Nat) : List UInt8 → Option (List Char)
  | [] => if need = 0 then some [] else none
  | b :: bs =>
    if need = 0 then
      if b < 0x80 then (utf8Go 0 0 0 bs).map (Char.ofNat b.toNat :: ·)
      else if b < 0xC0 then none
      else if b < 0xE0 then utf8Go 1 (b.toNat-0xC0) 0x80 bs
      else if b < 0xF0 then utf8Go 2 (b.toNat-0xE0) 0x800 bs
      else if b < 0xF8 then utf8Go 3 (b.toNat-0xF0) 0x10000 bs
      else none
    else if b < 0x80 ∨ 0xC0 ≤ b then none
    else
      let acc := acc*64+(b.toNat-0x80)
      if need = 1 then
        if lo ≤ acc ∧ acc.isValidChar then (utf8Go 0 0 0 bs).map (Char.ofNat acc :: ·) else none
      else utf8Go (need-1) acc lo bs

/-- Strict UTF-8: no overlong form, no surrogate, nothing above U+10FFFF. -/
def utf8Decode (bs : List UInt8) : Option (List Char) := utf8Go 0 0 0 bs

def asciiChars (bs : List UInt8) : List Char := bs.map (fun b => Char.ofNat b.toNat)

theorem utf8Go_append_ascii (need acc lo : Nat) (bs : List UInt8) {c : UInt8} (hc : c < 0x80) :
    utf8Go need acc lo (bs ++ [c]) = (utf8Go need acc lo bs).map (fun s => s ++ [Char.ofNat c.toNat]) := by
  induction bs generalizing need acc lo with
  | nil =>
    by_cases hn : need = 0
    · simp [utf8Go,hn,hc]
    · simp [utf8Go,hn,hc]
  | cons b bs ih =>
    simp only [cons_append,utf8Go,ih]
    split
    · split
      · cases utf8Go 0 0 0 bs <;> simp
      · repeat' split
        all_goals rfl
    split
    · rfl
    split
    · split
      · cases utf8Go 0 0 0 bs <;> simp
      · rfl
    · rfl

theorem utf8Decode_append_ascii (bs ws : List UInt8) (hws : ∀ c ∈ ws, c < 0x80) :
    utf8Decode (bs ++ ws) = (utf8Decode bs).map (fun s => s ++ asciiChars ws) := by
  induction ws using List.reverseRecOn with
  | nil => cases h : utf8Decode bs <;> simp [asciiChars,h]
  | append_singleton ws c ih =>
    have hc : c < 0x80 := hws c (by simp)
    rw [← append_assoc,utf8Decode,utf8Go_append_ascii _ _ _ _ hc]
    have hprev := ih fun d hd => hws d (by simp [hd])
    rw [utf8Decode] at hprev
    rw [hprev]
    cases utf8Decode bs <;> simp [asciiChars]

theorem utf8Go_eq_nil {need acc lo : Nat} {bs : List UInt8} (h : utf8Go need acc lo bs = some []) :
    need = 0 ∧ bs = [] := by
  induction bs generalizing need acc lo with
  | nil =>
    simp only [utf8Go] at h
    split at h
    · rename_i hn
      exact ⟨hn,rfl⟩
    · simp at h
  | cons b bs ih =>
    simp only [utf8Go] at h
    -- A lead byte leaves bytes missing, so the rest cannot end the text.
    have hmap : ∀ (o : Option (List Char)) (c : Char), o.map (c :: ·) ≠ some [] := by
      intro o c
      cases o <;> simp
    split at h
    · split at h
      · exact absurd h (hmap _ _)
      · repeat' split at h
        all_goals first | simp at h | exact absurd (ih h).1 (by decide)
    split at h
    · simp at h
    split at h
    · split at h
      · exact absurd h (hmap _ _)
      · simp at h
    · rename_i hneed hone
      have := (ih h).1
      omega

theorem utf8Decode_eq_nil {bs : List UInt8} (h : utf8Decode bs = some []) : bs = [] :=
  (utf8Go_eq_nil h).2

def isWhitespace (c : Char) : Bool :=
  let n := c.toNat
  (9 ≤ n && n ≤ 13) || n = 0x20 || n = 0x85 || n = 0xA0 || n = 0x1680 ||
    (0x2000 ≤ n && n ≤ 0x200A) || n = 0x2028 || n = 0x2029 || n = 0x202F || n = 0x205F ||
    n = 0x3000

def isAsciiWhitespace (b : UInt8) : Bool := b = 32 || b = 9 || b = 10 || b = 12 || b = 13

section Trim

variable {α : Type} (p : α → Bool)
variable {l : List α}

def trimBoth (l : List α) : List α := (l.dropWhile p).rdropWhile p

theorem rdropWhile_append_of_all {w : List α} (hw : ∀ c ∈ w, p c = true) :
    (l ++ w).rdropWhile p = l.rdropWhile p := by
  have hall : w.reverse.dropWhile p = [] := by
    rw [dropWhile_eq_nil_iff]
    intro c hc
    exact hw c (by simpa using hc)
  simp [List.rdropWhile,dropWhile_append,hall]

theorem trimBoth_append {w : List α} (hw : ∀ c ∈ w, p c = true) : trimBoth p (l ++ w) = trimBoth p l := by
  unfold trimBoth
  rw [dropWhile_append]
  split
  · rename_i hl
    have hnil : l.dropWhile p = [] := by simpa using hl
    have hw' : w.dropWhile p = [] := by
      rw [dropWhile_eq_nil_iff]
      exact hw
    simp [hnil,hw']
  · exact rdropWhile_append_of_all p hw

theorem trimBoth_eq_self (hhead : ∀ a ∈ l.head?, p a = false)
    (hlast : ∀ a ∈ l.getLast?, p a = false) : trimBoth p l = l := by
  have hdrop : l.dropWhile p = l := by
    cases l with
    | nil => rfl
    | cons a l => simp [hhead a (by simp)]
  rw [trimBoth,hdrop,rdropWhile_eq_self_iff]
  intro hl
  simp [hlast _ (getLast_mem_getLast? hl)]

theorem head_trimBoth {a : α} (h : a ∈ (trimBoth p l).head?) : p a = false := by
  obtain ⟨t,ht⟩ : ∃ t, trimBoth p l = a :: t := List.head?_eq_some_iff.mp h
  obtain ⟨rest,hrest⟩ := rdropWhile_prefix p (l := l.dropWhile p)
  rw [show List.rdropWhile p (l.dropWhile p) = trimBoth p l from rfl,ht,cons_append] at hrest
  have hhead := List.head?_dropWhile_not p l
  rw [← hrest] at hhead
  simpa using hhead

theorem last_trimBoth {a : α} (h : a ∈ (trimBoth p l).getLast?) : p a = false := by
  have hne : trimBoth p l ≠ [] := by
    rintro he
    simp [he] at h
  have hlast : ¬ p ((trimBoth p l).getLast hne) = true :=
    rdropWhile_last_not p (l.dropWhile p) hne
  rw [List.getLast?_eq_getLast_of_ne_nil hne] at h
  simp only [Option.mem_def,Option.some.injEq] at h
  rw [← h]
  simpa using hlast

theorem trimBoth_idem (l : List α) : trimBoth p (trimBoth p l) = trimBoth p l :=
  trimBoth_eq_self p (fun _ h => head_trimBoth p h) fun _ h => last_trimBoth p h

theorem trimBoth_join {r : List α} (m : List α) (hl : trimBoth p l = l) (hr : trimBoth p r = r)
    (hlne : l ≠ []) (hrne : r ≠ []) : trimBoth p (l ++ m ++ r) = l ++ m ++ r := by
  apply trimBoth_eq_self
  · intro a ha
    rw [append_assoc,List.head?_append_of_ne_nil _ hlne,← hl] at ha
    exact head_trimBoth p ha
  · intro a ha
    rw [List.getLast?_append_of_ne_nil _ hrne,← hr] at ha
    exact last_trimBoth p ha

end Trim

def trim (s : List Char) : List Char := trimBoth isWhitespace s

def words (s : List Char) : List (List Char) := (s.splitOnP isWhitespace).filter (· ≠ [])

def digit? (c : Char) : Option Nat :=
  if '0' ≤ c ∧ c ≤ '9' then some (c.toNat-48) else none

def digits? (s : List Char) : Option Nat :=
  if s = [] then none
  else s.foldlM (fun n c => (digit? c).map (fun d => 10*n+d)) 0

/-- `str::parse` for an unsigned type with values below `lim`; a plus sign is allowed. -/
def parseUnsigned (lim : Nat) (s : List Char) : Option Nat := do
  let n ← digits? (if s.head? = some '+' then s.tail else s)
  if n < lim then some n else none

def parseI64 (s : List Char) : Option Int := do
  if s.head? = some '-' then
    let n ← digits? s.tail
    if n ≤ 0x8000000000000000 then some (-(n : Int)) else none
  else
    let n ← parseUnsigned 0x8000000000000000 s
    some n

def asciiLower (c : Char) : Char := if 'A' ≤ c ∧ c ≤ 'Z' then Char.ofNat (c.toNat+32) else c

def eqIgnoreAsciiCase (a b : List Char) : Bool := a.map asciiLower = b.map asciiLower

section Lines

variable {α : Type}
variable {x c : α} {ls : List (List α)} {l : List α}

def unlines (x : α) (ls : List (List α)) : List α := ls.flatMap (· ++ [x])

theorem intercalate_append_of_ne_nil (x : α) (ls : List (List α)) {rest : List (List α)} (h : rest ≠ []) :
    [x].intercalate (ls ++ rest) = unlines x ls ++ [x].intercalate rest := by
  induction ls with
  | nil => rfl
  | cons l ls ih =>
    have hne : ls ++ rest ≠ [] := by simp [h]
    rw [cons_append,intercalate_cons_of_ne_nil hne,ih]
    simp [unlines]

theorem not_mem_of_mem_splitOn [DecidableEq α] {text : List α} (h : l ∈ text.splitOn x) : x ∉ l := by
  induction text generalizing l with
  | nil =>
    simp only [splitOn_nil,mem_singleton] at h
    simp [h]
  | cons a text ih =>
    rw [splitOn_cons_eq_if_modifyHead] at h
    split at h
    · rcases mem_cons.mp h with rfl | h
      · simp
      · exact ih h
    rename_i ha
    cases hs : text.splitOn x with
    | nil => exact absurd hs (splitOn_ne_nil x text)
    | cons first rest =>
      rw [hs] at h ih
      simp only [modifyHead_cons,mem_cons] at h
      rcases h with rfl | h
      · have hne : x ≠ a := fun he => ha (by simp [he])
        simp [hne,ih (l := first) (by simp)]
      · exact ih (by simp [h])

theorem splitOn_append_of_not_mem [DecidableEq α] (h : x ∉ l)
    (rest : List α) : (l ++ rest).splitOn x = (rest.splitOn x).modifyHead (l ++ ·) := by
  induction l with
  | nil =>
    show rest.splitOn x = _
    cases rest.splitOn x <;> rfl
  | cons a l ih =>
    simp only [mem_cons,not_or] at h
    rw [cons_append,splitOn_cons_eq_if_modifyHead,if_neg (by simpa using Ne.symm h.1),ih h.2]
    cases rest.splitOn x <;> simp

theorem splitOn_unlines [DecidableEq α] (h : ∀ l ∈ ls, x ∉ l) :
    (unlines x ls).splitOn x = ls ++ [[]] := by
  have hjoin := intercalate_append_of_ne_nil x ls (cons_ne_nil [] [])
  rw [intercalate_singleton,append_nil] at hjoin
  rw [← hjoin]
  exact splitOn_intercalate x (forall_mem_append.mpr ⟨h,by simp⟩) (by simp)

theorem unlines_eq_intercalate (x : α) (h : ls ≠ []) : unlines x ls = [x].intercalate ls ++ [x] := by
  induction ls with
  | nil => exact absurd rfl h
  | cons l ls ih =>
    cases ls with
    | nil => simp [unlines]
    | cons m ls =>
      have hrest := ih (by simp)
      rw [intercalate_cons_cons,unlines,flatMap_cons]
      rw [unlines] at hrest
      simp [hrest]

theorem splitOn_snoc [DecidableEq α] (hcx : x ≠ c) (text : List α) :
    ∃ init last, text.splitOn x = init ++ [last] ∧ (text ++ [c]).splitOn x = init ++ [last ++ [c]] := by
  induction text with
  | nil => exact ⟨[],[],by simp,by simp [splitOn_cons_eq_if_modifyHead,Ne.symm hcx]⟩
  | cons a text ih =>
    obtain ⟨init,last,htext,hsnoc⟩ := ih
    rw [cons_append,splitOn_cons_eq_if_modifyHead,splitOn_cons_eq_if_modifyHead,htext,hsnoc]
    split
    · exact ⟨[] :: init,last,rfl,rfl⟩
    · cases init with
      | nil => exact ⟨[],a :: last,rfl,rfl⟩
      | cons l init => exact ⟨(a :: l) :: init,last,rfl,rfl⟩

theorem map_splitOn_snoc [DecidableEq α] {β : Type} (hcx : x ≠ c) (f : List α → β)
    (hf : ∀ l, f (l ++ [c]) = f l) (text : List α) :
    ((text ++ [c]).splitOn x).map f = (text.splitOn x).map f := by
  obtain ⟨init,last,htext,hsnoc⟩ := splitOn_snoc hcx text
  simp [htext,hsnoc,hf]

theorem intercalate_pair_snoc (c x : α) (hne : ls ≠ []) :
    [c,x].intercalate ls ++ [c] = [x].intercalate (ls.map (· ++ [c])) := by
  induction ls with
  | nil => exact absurd rfl hne
  | cons l ls ih =>
    cases ls with
    | nil => simp
    | cons m ls =>
      rw [intercalate_cons_cons,append_assoc,ih (cons_ne_nil _ _)]
      simp

theorem splitOn_intercalate_pair [DecidableEq α] (hcx : x ≠ c) (hne : ls ≠ []) (h : ∀ l ∈ ls, x ∉ l) :
    ([c,x].intercalate ls ++ [c]).splitOn x = ls.map (· ++ [c]) := by
  rw [intercalate_pair_snoc c x hne]
  exact splitOn_intercalate x (by simpa [hcx] using h) (by simpa using hne)

end Lines

theorem words_join {ws : List (List Char)} (h : ∀ w ∈ ws, w ≠ [] ∧ ∀ c ∈ w, isWhitespace c = false) :
    words ([' '].intercalate ws) = ws := by
  unfold words
  induction ws with
  | nil => rfl
  | cons w ws ih =>
    obtain ⟨⟨hne,hw⟩,hws⟩ := forall_mem_cons.mp h
    cases ws with
    | nil =>
      rw [intercalate_singleton,splitOnP_eq_singleton (by simpa using hw)]
      simp [hne]
    | cons v ws =>
      rw [intercalate_cons_cons,append_assoc,singleton_append,
        splitOnP_append_cons_of_forall_mem (by simpa using hw) ' ' (by decide),
        filter_cons_of_pos (by simpa using hne),ih hws]

end PaghOS.Text
