import PaghOS.Lib.Utf8
import PaghOS.Net.Wire

/-!
The three readers of dotted-quad literals: `net/wire.rs`, `net/dns.rs` and
`net/hostname.rs`. The first leaves an octet to `u8::from_str`, the others read
one to three digits.
-/

namespace PaghOS.Net
open Text Option
open List hiding utf8Encode utf8Encode_cons pure_def

/-! ### The readers -/

variable {α β : Type}

def collectOctets (octet : List Char → Option UInt8) (parts : List (List Char)) : Option (List UInt8) :=
  parts.foldlM (fun octets part =>
    if octets.length ≥ 4 then none else (octet part).map (fun o => octets ++ [o])) []

def Wire.octet (part : List Char) : Option UInt8 := (parseUnsigned 256 part).map UInt8.ofNat

def Wire.parseIpv4Literal (s : List Char) : Option Ipv4Addr :=
  match collectOctets Wire.octet (s.splitOn '.') with
  | some [a,b,c,d] => some ⟨a,b,c,d⟩
  | _ => none

def isAsciiDigit (b : UInt8) : Bool := 0x30 ≤ b && b ≤ 0x39

def Dns.octet (part : List Char) : Option UInt8 :=
  if part = [] ∨ (utf8Encode part).length > 3 then none
  else do
    let value ← (utf8Encode part).foldlM (fun value b =>
      if !isAsciiDigit b then none else some (value*10+(b-0x30).toNat)) 0
    if value > 255 then none else some (UInt8.ofNat value)

def Dns.parseIpv4Literal (s : List Char) : Option (List UInt8) := do
  let octets ← collectOctets Dns.octet (s.splitOn '.')
  if octets.length ≠ 4 then none else some octets

def Hostname.isIpLiteral (host : List UInt8) : Bool :=
  let parts := host.splitOn 0x2E
  parts.length = 4 && parts.all (fun p => p ≠ [] && p.length ≤ 3 && p.all isAsciiDigit &&
      p.foldl (fun v d => v*10+(d-0x30).toNat) 0 ≤ 255)

def Hostname.parseIpv4Literal (host : List UInt8) : Option (List UInt8) :=
  if !Hostname.isIpLiteral host then none
  else some ((host.splitOn 0x2E).map (fun part => part.foldl (fun v d => v*10+(d-0x30)) 0))

/-! ### One part -/

theorem head_utf8Char_ge {c : Char} (hc : 0x80 ≤ c.toNat) : ∃ b bs, utf8Char c = b :: bs ∧ 0x80 ≤ b := by
  have hmax := toNat_lt_of_char c
  have hbyte : ∀ n, 0x80 ≤ n → n < 256 → (0x80 : UInt8) ≤ UInt8.ofNat n := by
    intro n h₁ h₂
    rw [UInt8.le_iff_toNat_le,toNat_byte h₂]
    exact h₁
  simp only [utf8Char]
  rw [if_neg (by omega)]
  repeat' split
  all_goals exact ⟨_,_,rfl,hbyte _ (by omega) (by omega)⟩

theorem digit_utf8Char (c : Char) : ∃ b bs, utf8Char c = b :: bs ∧ isAsciiDigit b = (digit? c).isSome ∧
      ∀ d, digit? c = some d → bs = [] ∧ (b-0x30).toNat = d := by
  have hdig : ∀ n, n < 256 → isAsciiDigit (UInt8.ofNat n) = decide (48 ≤ n ∧ n ≤ 57) := by
    intro n hn
    simp only [isAsciiDigit,UInt8.le_iff_toNat_le,toNat_byte hn,Bool.decide_and]
    rfl
  have hsome : digit? c = if 48 ≤ c.toNat ∧ c.toNat ≤ 57 then some (c.toNat-48) else none := rfl
  by_cases hc : c.toNat < 0x80
  · refine ⟨UInt8.ofNat c.toNat,[],by simp [utf8Char,hc],?_,?_⟩
    · rw [hdig _ (by omega),hsome]
      split <;> simp_all
    intro d hd
    refine ⟨rfl,?_⟩
    rw [hsome] at hd
    split at hd
    · rename_i h
      rw [← some.inj hd,UInt8.toNat_sub_of_le _ _ (by
        rw [UInt8.le_iff_toNat_le,toNat_byte (by omega)]
        exact h.1),toNat_byte (by omega)]
      rfl
    · cases hd
  · obtain ⟨b,bs,hbs,hb⟩ := head_utf8Char_ge (c := c) (by omega)
    have hnone : digit? c = none := by
      rw [hsome,if_neg (by omega)]
    refine ⟨b,bs,hbs,?_,by simp [hnone]⟩
    rw [hnone,isAsciiDigit]
    have : ¬ b ≤ 0x39 := by
      rw [UInt8.le_iff_toNat_le] at hb ⊢
      exact fun h => absurd (le_trans hb h) (by decide)
    simp [this]

theorem digits_utf8Encode (s : List Char) (n : Nat) : (utf8Encode s).foldlM (fun value b =>
        if !isAsciiDigit b then none else some (value*10+(b-0x30).toNat)) n =
      s.foldlM (fun n c => (digit? c).map (fun d => 10*n+d)) n := by
  induction s generalizing n with
  | nil => rfl
  | cons c s ih =>
    obtain ⟨b,bs,hbs,hdig,hval⟩ := digit_utf8Char c
    rw [utf8Encode_cons,hbs,cons_append,foldlM_cons,foldlM_cons,hdig]
    cases hd : digit? c with
    | none => rfl
    | some d =>
      obtain ⟨rfl,hb⟩ := hval d hd
      simp only [isSome_some,Bool.not_true,Bool.false_eq_true,if_false,map_some,
        bind_eq_bind,bind_some,nil_append,hb,Nat.mul_comm n 10]
      exact ih _

theorem length_utf8Encode_digits {s : List Char} {n v : Nat}
    (h : s.foldlM (fun n c => (digit? c).map (fun d => 10*n+d)) n = some v) :
    (utf8Encode s).length = s.length := by
  induction s generalizing n with
  | nil => rfl
  | cons c s ih =>
    obtain ⟨b,bs,hbs,-,hval⟩ := digit_utf8Char c
    rw [foldlM_cons] at h
    cases hd : digit? c with
    | none => simp [hd] at h
    | some d =>
      simp only [hd,map_some,bind_eq_bind,bind_some] at h
      obtain ⟨rfl,-⟩ := hval d hd
      rw [utf8Encode_cons,hbs,length_append,ih h]
      simp [Nat.add_comm]

/-- What `u8::from_str` takes and the others do not: a plus sign, more than three digits. -/
def LaxOctet (part : List Char) : Prop := part.head? = some '+' ∨ 3 < part.length

instance (part : List Char) : Decidable (LaxOctet part) :=
  inferInstanceAs (Decidable (_ ∨ _))

theorem digit_plus : digit? '+' = none := by decide

theorem dnsOctet_eq (part : List Char) :
    Dns.octet part = if LaxOctet part then none else Wire.octet part := by
  unfold Dns.octet Wire.octet parseUnsigned digits?
  by_cases hnil : part = []
  · subst hnil
    simp [LaxOctet]
  by_cases hplus : part.head? = some '+'
  · rw [if_pos (show LaxOctet part from .inl hplus)]
    obtain ⟨c,rest,rfl⟩ := exists_cons_of_ne_nil hnil
    obtain rfl : c = '+' := by simpa using hplus
    split
    · rfl
    · rw [digits_utf8Encode,foldlM_cons,digit_plus]
      rfl
  · rw [if_neg hplus,if_neg hnil,digits_utf8Encode]
    cases hv : part.foldlM (fun n c => (digit? c).map fun d => 10*n+d) 0 with
    | none => simp
    | some v =>
      rw [length_utf8Encode_digits hv]
      by_cases hlen : 3 < part.length
      · rw [if_pos (.inr hlen),if_pos (show LaxOctet part from .inr hlen)]
      rw [if_neg (by simp [hnil,hlen]),if_neg (by simp [LaxOctet,hplus,hlen])]
      simp only [bind_eq_bind,bind_some]
      by_cases h : v > 255
      · rw [if_pos h,if_neg (by omega)]
        rfl
      · rw [if_neg h,if_pos (by omega)]
        rfl

theorem foldlM_isAsciiDigit (p : List UInt8) (n : Nat) :
    p.foldlM (fun value b => if !isAsciiDigit b then none else some (value*10+(b-0x30).toNat)) n =
      if p.all isAsciiDigit then some (p.foldl (fun v d => v*10+(d-0x30).toNat) n) else none := by
  induction p generalizing n with
  | nil => rfl
  | cons b p ih =>
    rw [foldlM_cons,all_cons,foldl_cons]
    cases hb : isAsciiDigit b with
    | false => rfl
    | true =>
      simp only [Bool.not_true,Bool.false_eq_true,if_false,bind_eq_bind,bind_some,Bool.true_and]
      exact ih _

theorem foldl_octet (p : List UInt8) (n : Nat) : p.foldl (fun v d => v*10+(d-0x30)) (UInt8.ofNat n) =
      UInt8.ofNat (p.foldl (fun v d => v*10+(d-0x30).toNat) n) := by
  induction p generalizing n with
  | nil => rfl
  | cons d p ih =>
    have hstep : UInt8.ofNat n*10+(d-0x30) = UInt8.ofNat (n*10+(d-0x30).toNat) := by
      rw [UInt8.ofNat_add,UInt8.ofNat_mul,UInt8.ofNat_toNat]
      rfl
    rw [foldl_cons,foldl_cons,hstep]
    exact ih _

def Hostname.octet (p : List UInt8) : Option UInt8 :=
  if p ≠ [] && p.length ≤ 3 && p.all isAsciiDigit && p.foldl (fun v d => v*10+(d-0x30).toNat) 0 ≤ 255
  then some (p.foldl (fun v d => v*10+(d-0x30)) 0) else none

theorem hostnameOctet_eq (part : List Char) : Hostname.octet (utf8Encode part) = Dns.octet part := by
  unfold Hostname.octet Dns.octet
  rw [foldlM_isAsciiDigit,show (0 : UInt8) = UInt8.ofNat 0 from rfl,foldl_octet]
  by_cases h : part = [] ∨ (utf8Encode part).length > 3
  · rw [if_pos h,if_neg]
    rcases h with rfl | h
    · simp
    · simp
      omega
  rw [if_neg h]
  simp only [not_or,not_lt] at h
  have hne : utf8Encode part ≠ [] := by simpa using h.1
  by_cases hd : (utf8Encode part).all isAsciiDigit = true
  · simp only [hne,h.2,hd,ne_eq,not_false_eq_true,decide_true,Bool.and_true,Bool.true_and,if_true,
      bind_eq_bind,bind_some,decide_eq_true_eq]
    by_cases hv : (utf8Encode part).foldl (fun v d => v*10+(d-0x30).toNat) 0 ≤ 255
    · rw [if_pos hv,if_neg (by omega)]
    · rw [if_neg hv,if_pos (by omega)]
  · simp [hd]

/-! ### Four parts -/

def quad {α : Type} (octet : α → Option UInt8) (parts : List α) : Option (List UInt8) :=
  if parts.length = 4 then parts.mapM octet else none

theorem quad_map (octet : β → Option UInt8) (f : α → β) (parts : List α) :
    quad octet (parts.map f) = quad (fun a => octet (f a)) parts := by
  simp only [quad,length_map,mapM_map]
  rfl

theorem mapM_congr {f g : α → Option β} {l : List α} (h : ∀ a ∈ l, f a = g a) : l.mapM f = l.mapM g := by
  induction l with
  | nil => rfl
  | cons a l ih =>
    rw [mapM_cons,mapM_cons,h a (by simp),ih fun b hb => h b (by simp [hb])]

theorem mapM_isSome_iff {f : α → Option β} {l : List α} :
    (l.mapM f).isSome = true ↔ ∀ a ∈ l, (f a).isSome = true := by
  induction l with
  | nil => simp
  | cons a l ih =>
    rw [mapM_cons,forall_mem_cons,← ih]
    cases f a with
    | none => simp
    | some b => cases l.mapM f <;> simp

theorem collectOctets_from (octet : List Char → Option UInt8) (parts : List (List Char))
    (acc : List UInt8) (hacc : acc.length ≤ 4) : parts.foldlM (fun octets part =>
        if octets.length ≥ 4 then none else (octet part).map (fun o => octets ++ [o])) acc =
      if acc.length+parts.length ≤ 4 then (parts.mapM octet).map (acc ++ ·) else none := by
  induction parts generalizing acc with
  | nil => simp [hacc]
  | cons p parts ih =>
    rw [foldlM_cons]
    by_cases hfull : acc.length ≥ 4
    · rw [if_pos hfull,if_neg (by simp only [length_cons]; omega)]
      rfl
    rw [if_neg hfull,mapM_cons]
    cases octet p with
    | none => simp
    | some o =>
      simp only [map_some,bind_eq_bind,bind_some]
      rw [ih _ (by simp; omega)]
      simp only [length_append,length_cons,length_nil]
      rw [show acc.length+(0+1)+parts.length = acc.length+(parts.length+1) by omega]
      cases parts.mapM octet <;> simp

theorem collectOctets_eq (octet : List Char → Option UInt8) (parts : List (List Char)) :
    collectOctets octet parts = if parts.length ≤ 4 then parts.mapM octet else none := by
  have h := collectOctets_from octet parts [] (by simp)
  simpa [collectOctets] using h

theorem length_of_mapM {f : α → Option β} {l : List α} {m : List β}
    (h : l.mapM f = some m) : m.length = l.length := by
  induction l generalizing m with
  | nil =>
    cases h
    rfl
  | cons a l ih =>
    simp only [mapM_cons,bind_eq_bind,bind_eq_some_iff,pure_def,some.injEq] at h
    obtain ⟨b,-,m',hm,rfl⟩ := h
    simp [ih hm]

theorem quad_eq (octet : List Char → Option UInt8) (parts : List (List Char)) :
    quad octet parts = (collectOctets octet parts).filter (·.length = 4) := by
  rw [collectOctets_eq,quad]
  cases hm : parts.mapM octet with
  | none => simp
  | some m =>
    rw [← length_of_mapM hm]
    by_cases h4 : m.length = 4
    · simp [h4,filter_some]
    · rw [if_neg h4]
      split <;> simp [h4,filter_some]

theorem wireLiteral_eq (s : List Char) :
    (Wire.parseIpv4Literal s).map Ipv4Addr.octets = quad Wire.octet (s.splitOn '.') := by
  rw [Wire.parseIpv4Literal,quad_eq]
  split
  · rename_i heq
    rw [heq]
    rfl
  · rename_i hno
    refine (filter_eq_none_iff.mpr fun m hm h4 => ?_).symm
    obtain ⟨a,b,c,d,rfl⟩ := length_eq_four.mp (of_decide_eq_true h4)
    exact hno a b c d hm

theorem dnsLiteral_eq (s : List Char) : Dns.parseIpv4Literal s = quad Dns.octet (s.splitOn '.') := by
  rw [Dns.parseIpv4Literal,quad_eq]
  cases collectOctets Dns.octet (s.splitOn '.') with
  | none => rfl
  | some m => by_cases h4 : m.length = 4 <;> simp [h4,filter_some]

theorem splitOn_utf8Encode (s : List Char) :
    (utf8Encode s).splitOn 0x2E = (s.splitOn '.').map utf8Encode := by
  induction s with
  | nil => rfl
  | cons c s ih =>
    rw [utf8Encode_cons,splitOn_cons_eq_if_modifyHead]
    by_cases hc : c = '.'
    · subst hc
      rw [show utf8Char '.' = [0x2E] by decide,singleton_append,
        splitOn_cons_eq_if_modifyHead,if_pos (by simp),if_pos (by simp),ih]
      rfl
    have hdot : 0x2E ∉ utf8Char c := by
      intro hmem
      exact hc (Char.toNat_inj.mp (eq_of_mem_utf8Char (by decide) hmem))
    rw [splitOn_append_of_not_mem hdot,if_neg (by simpa using hc),ih]
    cases s.splitOn '.' <;> simp

theorem hostname_all_eq (parts : List (List UInt8)) :
    parts.all (fun p => p ≠ [] && p.length ≤ 3 && p.all isAsciiDigit &&
      p.foldl (fun v d => v*10+(d-0x30).toNat) 0 ≤ 255) = (parts.mapM Hostname.octet).isSome := by
  rw [Bool.eq_iff_iff,List.all_eq_true,mapM_isSome_iff]
  refine forall₂_congr fun p _ => ?_
  rw [Hostname.octet]
  split <;> simp_all

theorem hostname_mapM {parts : List (List UInt8)} {m : List UInt8} (h : parts.mapM Hostname.octet = some m) :
    m = parts.map (fun part => part.foldl (fun v d => v*10+(d-0x30)) 0) := by
  induction parts generalizing m with
  | nil =>
    cases h
    rfl
  | cons p parts ih =>
    simp only [mapM_cons,bind_eq_bind,bind_eq_some_iff,pure_def,some.injEq] at h
    obtain ⟨o,ho,m',hm,rfl⟩ := h
    rw [ih hm,map_cons]
    unfold Hostname.octet at ho
    split at ho
    · rw [← some.inj ho]
    · cases ho

theorem isIpLiteral_eq (host : List UInt8) :
    Hostname.isIpLiteral host = (quad Hostname.octet (host.splitOn 0x2E)).isSome := by
  rw [Hostname.isIpLiteral,quad,hostname_all_eq]
  by_cases h4 : (host.splitOn 0x2E).length = 4 <;> simp [h4]

theorem hostnameLiteral_eq (host : List UInt8) :
    Hostname.parseIpv4Literal host = quad Hostname.octet (host.splitOn 0x2E) := by
  rw [Hostname.parseIpv4Literal,isIpLiteral_eq]
  cases hq : quad Hostname.octet (host.splitOn 0x2E) with
  | none => rfl
  | some m =>
    unfold quad at hq
    split at hq
    · rw [hostname_mapM hq]
      rfl
    · cases hq

/-! ### Agreement -/

/-- The three readers accept the same string or refuse it, and return the same address. -/
def LiteralsAgree (s : List Char) : Prop :=
  (Wire.parseIpv4Literal s).map Ipv4Addr.octets = Dns.parseIpv4Literal s ∧
    Hostname.parseIpv4Literal (utf8Encode s) = Dns.parseIpv4Literal s ∧
    Hostname.isIpLiteral (utf8Encode s) = (Dns.parseIpv4Literal s).isSome

instance (s : List Char) : Decidable (LiteralsAgree s) :=
  inferInstanceAs (Decidable (_ ∧ _ ∧ _))

/-- Four parts that `u8::from_str` takes, one of them with a plus sign or with
more than three digits. -/
def LaxQuad (s : List Char) : Prop :=
  (s.splitOn '.').length = 4 ∧ (∀ p ∈ s.splitOn '.', (parseUnsigned 256 p).isSome = true) ∧
    ∃ p ∈ s.splitOn '.', LaxOctet p

theorem quad_agree_iff (parts : List (List Char)) : quad Wire.octet parts = quad Dns.octet parts ↔
      ¬ (parts.length = 4 ∧ (∀ p ∈ parts, (parseUnsigned 256 p).isSome = true) ∧
        ∃ p ∈ parts, LaxOctet p) := by
  by_cases h4 : parts.length = 4
  · simp only [quad,h4,if_true,true_and,not_and]
    constructor
    · rintro h hall ⟨p,hp,hlax⟩
      have hwire : (parts.mapM Wire.octet).isSome = true :=
        mapM_isSome_iff.mpr fun q hq => by simpa [Wire.octet] using hall q hq
      have hdns := mapM_isSome_iff.mp (h ▸ hwire) p hp
      rw [dnsOctet_eq,if_pos hlax] at hdns
      cases hdns
    · intro h
      by_cases hlax : ∃ p ∈ parts, LaxOctet p
      · -- One part is refused by both, or both refuse the lax part.
        have hbad : ¬ ∀ p ∈ parts, (parseUnsigned 256 p).isSome = true := fun hall => h hall hlax
        have hwire : parts.mapM Wire.octet = none := by
          rw [← not_isSome_iff_eq_none,mapM_isSome_iff]
          simpa [Wire.octet] using hbad
        have hdns : parts.mapM Dns.octet = none := by
          obtain ⟨p,hp,hl⟩ := hlax
          rw [← not_isSome_iff_eq_none,mapM_isSome_iff]
          intro hall
          have := hall p hp
          rw [dnsOctet_eq,if_pos hl] at this
          cases this
        rw [hwire,hdns]
      · refine mapM_congr (fun p hp => ?_)
        rw [dnsOctet_eq,if_neg fun hl => hlax ⟨p,hp,hl⟩]
  · simp [quad,h4]

/-- The readers agree except on the lax quads, which only `wire` takes. -/
theorem literals_agree_iff (s : List Char) : LiteralsAgree s ↔ ¬ LaxQuad s := by
  have hhost : quad Hostname.octet ((utf8Encode s).splitOn 0x2E) = Dns.parseIpv4Literal s := by
    rw [splitOn_utf8Encode,quad_map,dnsLiteral_eq]
    simp [hostnameOctet_eq]
  rw [LiteralsAgree,hostnameLiteral_eq,isIpLiteral_eq,hhost,wireLiteral_eq,dnsLiteral_eq]
  simp only [and_true]
  exact quad_agree_iff _

theorem plus_quad_disagrees : ¬ LiteralsAgree "+10.0.2.15".toList := by decide +kernel

end PaghOS.Net
