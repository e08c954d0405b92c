import PaghOS.Lib.Check
import PaghOS.Tls.X509

/-!
Certificate times against the calendar. Days are counted by going from one date to the
next; `decode_asn1_time` gives this count for the stamps of RFC 5280 and for no others.
-/

namespace PaghOS.Tls
open List Check

/-- `days_from_civil` of `linux/timeconv.rs`. -/
def timeconvDays (y : Int) (m d : Nat) : Int :=
  let y := if m ≤ 2 then y-1 else y
  let era := (if 0 ≤ y then y else y-399).tdiv 400
  let yoe := y-era*400
  let doy := (153*(if (m : Int) > 2 then (m : Int)-3 else m+9)+2)/5+d-1
  let doe := yoe*365+yoe/4-yoe/100+doy
  era*146097+doe-719468

structure Date where
  year : Nat
  month : Nat
  day : Nat

namespace Date

def Exists (d : Date) : Prop := 1 ≤ d.day ∧ d.day ≤ daysInMonth d.year d.month

def next (d : Date) : Date :=
  if d.day < daysInMonth d.year d.month then { d with day := d.day+1 }
  else if d.month < 12 then ⟨d.year,d.month+1,1⟩
  else ⟨d.year+1,1,1⟩

def epoch : Date := ⟨1970,1,1⟩

/-- It is `n` days from 1970-01-01 to the date, going forward or, for a negative `n`, back. -/
def DaysFromEpoch (d : Date) (n : Int) : Prop :=
  (∃ k : Nat, n = k ∧ next^[k] epoch = d) ∨ ∃ k : Nat, n = -k ∧ next^[k] d = epoch

def count (d : Date) : Int := daysFromCivil d.year d.month d.day

variable {d d' : Date}

theorem Exists.month (h : d.Exists) : d.month ∈ [1,2,3,4,5,6,7,8,9,10,11,12] := by
  obtain ⟨hpos,hle⟩ := h
  simp only [daysInMonth] at hle
  simp only [mem_cons,not_mem_nil,or_false] at hle ⊢
  split_ifs at hle <;> omega

/-- Counted in years that begin in March, with the leap day at their end. -/
theorem count_eq (d : Date) : ∃ y : Int, y = (if d.month ≤ 2 then (d.year : Int)-1 else d.year) ∧
    d.count = 365*y+y/4-y/100+y/400+
      (153*(if (d.month : Int) > 2 then (d.month : Int)-3 else d.month+9)+2)/5+d.day-719469 := by
  refine ⟨_,rfl,?_⟩
  have hera : ∀ y : Int, -1 ≤ y → (if 0 ≤ y then y else y-399).tdiv 400 = y/400 := by
    intro y hy
    split
    · exact Int.tdiv_eq_ediv_of_nonneg (by assumption)
    · obtain rfl : y = -1 := by omega
      rfl
  unfold count daysFromCivil
  dsimp only
  rw [hera _ (by split <;> omega)]
  generalize (if d.month ≤ 2 then (d.year : Int)-1 else d.year) = y
  omega

/-- A day of the `i`th month, with the months of all years in one row. -/
def inMonth (i day : Nat) : Date := ⟨i/12,i%12+1,day⟩

def monthLength (i : Nat) : Nat := daysInMonth (i/12) (i%12+1)

theorem Exists.inMonth (h : d.Exists) :
    ∃ i day, d = inMonth i day ∧ 1 ≤ day ∧ day ≤ monthLength i := by
  have hmonth := h.month
  simp only [mem_cons,not_mem_nil,or_false] at hmonth
  have hindex : (12*d.year+d.month-1)/12 = d.year ∧ (12*d.year+d.month-1)%12+1 = d.month := by omega
  refine ⟨12*d.year+d.month-1,d.day,?_,h.1,?_⟩
  · rw [Date.inMonth,hindex.1,hindex.2]
  · rw [monthLength,hindex.1,hindex.2]
    exact h.2

theorem monthLength_pos (i : Nat) : 0 < monthLength i := by
  have hmonth : i%12 < 12 := Nat.mod_lt _ (by decide)
  unfold monthLength
  generalize i%12 = m at *
  interval_cases m <;> simp [daysInMonth]
  split <;> decide

theorem count_inMonth (i day : Nat) : (inMonth i day).count = (inMonth i 1).count+day-1 := by
  unfold count daysFromCivil inMonth
  dsimp only
  omega

theorem count_succ (i : Nat) : (inMonth (i+1) 1).count = (inMonth i 1).count+monthLength i := by
  obtain ⟨y,hy,hcount⟩ := count_eq ⟨i/12,i%12+1,1⟩
  obtain ⟨y',hy',hcount'⟩ := count_eq ⟨(i+1)/12,(i+1)%12+1,1⟩
  rw [inMonth,inMonth,monthLength,hcount,hcount']
  clear hcount hcount'
  have hmonth : i%12 < 12 := Nat.mod_lt _ (by decide)
  obtain ⟨hm,hyear⟩ | ⟨hm,hyear⟩ : (i+1)%12 = i%12+1 ∧ (i+1)/12 = i/12 ∨
      (i+1)%12 = 0 ∧ i%12 = 11 ∧ (i+1)/12 = i/12+1 := by omega
  · simp only [hm,hyear] at hy hy' ⊢
    have hlow : i%12 < 11 := by omega
    clear hm hyear hmonth
    generalize i%12 = m at *
    generalize i/12 = year at *
    interval_cases m <;> simp [daysInMonth] at * <;> (try split) <;> omega
  · simp only [hm,hyear] at hy hy' ⊢
    simp [daysInMonth] at *
    omega

theorem count_add_le {i j : Nat} (h : i < j) : (inMonth i 1).count+monthLength i ≤ (inMonth j 1).count := by
  rw [← count_succ]
  exact monotone_nat_of_le_succ (f := fun i => (inMonth i 1).count)
    (fun i => by rw [count_succ]; omega) h

theorem count_lt {i j a b : Nat} (ha : 1 ≤ a ∧ a ≤ monthLength i) (hb : 1 ≤ b)
    (hlt : i < j ∨ i = j ∧ a < b) : (inMonth i a).count < (inMonth j b).count := by
  rw [count_inMonth i a,count_inMonth j b]
  rcases hlt with hlt | ⟨rfl,hlt⟩
  · have := count_add_le hlt
    omega
  · omega

theorem count_inj (h : d.Exists) (h' : d'.Exists) (heq : d.count = d'.count) : d = d' := by
  obtain ⟨i,a,rfl,ha⟩ := h.inMonth
  obtain ⟨j,b,rfl,hb⟩ := h'.inMonth
  have hle := mt (count_lt ha hb.1) (Int.not_lt.2 (Int.le_of_eq heq.symm))
  have hge := mt (count_lt hb ha.1) (Int.not_lt.2 (Int.le_of_eq heq))
  obtain ⟨rfl,rfl⟩ : i = j ∧ a = b := by omega
  rfl

theorem count_next (h : d.Exists) : d.next.Exists ∧ d.next.count = d.count+1 := by
  obtain ⟨i,day,rfl,hday⟩ := h.inMonth
  rw [count_inMonth i day]
  by_cases hlast : day < monthLength i
  · have hnext : (inMonth i day).next = inMonth i (day+1) := if_pos hlast
    rw [hnext,count_inMonth i (day+1)]
    exact ⟨⟨by simp [inMonth],hlast⟩,by omega⟩
  have hnext : (inMonth i day).next = inMonth (i+1) 1 := by
    rw [next,if_neg (by exact hlast)]
    split <;> rename_i hm <;> simp only [inMonth,mk.injEq,and_true] at hm ⊢ <;> omega
  rw [hnext,count_succ]
  exact ⟨⟨le_refl 1,monthLength_pos (i+1)⟩,by omega⟩

theorem count_iterate (h : d.Exists) (k : Nat) :
    (next^[k] d).Exists ∧ (next^[k] d).count = d.count+k := by
  induction k with
  | zero => exact ⟨h,by simp⟩
  | succ k ih =>
    rw [Function.iterate_succ_apply']
    obtain ⟨hexists,hcount⟩ := count_next ih.1
    exact ⟨hexists,by rw [hcount,ih.2]; omega⟩

theorem daysFromEpoch_iff (h : d.Exists) (n : Int) : d.DaysFromEpoch n ↔ n = d.count := by
  have hepoch : epoch.Exists ∧ epoch.count = 0 := ⟨⟨by decide,by decide⟩,by decide⟩
  constructor
  · rintro (⟨k,rfl,rfl⟩ | ⟨k,rfl,hk⟩)
    · have := (count_iterate hepoch.1 k).2
      omega
    · have := (count_iterate h k).2
      rw [hk] at this
      omega
  · rintro rfl
    rcases Int.le_total 0 d.count with hsign | hsign
    · obtain ⟨hexists,hcount⟩ := count_iterate hepoch.1 d.count.toNat
      exact .inl ⟨_,by omega,count_inj hexists h (by omega)⟩
    · obtain ⟨hexists,hcount⟩ := count_iterate h (-d.count).toNat
      exact .inr ⟨_,by omega,count_inj hexists hepoch.1 (by omega)⟩

end Date

/-- The two decimal digits of `n` at an offset. -/
def Reads (s : List UInt8) (off n : Nat) : Prop :=
  n < 100 ∧ s[off]? = some (.ofNat (48+n/10)) ∧ s[off+1]? = some (.ofNat (48+n%10))

theorem digit_eq_some {b : UInt8} {n : Nat} : digit b = some n ↔ n < 10 ∧ b = .ofNat (48+n) := by
  simp only [digit,← UInt8.toNat_inj,UInt8.toNat_ofNat',UInt8.le_iff_toNat_le]
  have hb := b.toNat_lt
  split
  · simp at *
    omega
  · simp at *
    omega

theorem two_eq_ok {s : List UInt8} {off n : Nat} : two s off = .ok n ↔ Reads s off n := by
  simp only [Reads,two]
  cases s[off]? with
  | none => simp
  | some a =>
    cases s[off+1]? with
    | none => simp
    | some b =>
      simp only [Option.bind_some,Option.some.injEq]
      constructor
      · intro h
        split at h
        · rename_i x y hx hy
          obtain ⟨hlt,rfl⟩ := digit_eq_some.1 hx
          obtain ⟨hlt',rfl⟩ := digit_eq_some.1 hy
          cases h
          exact ⟨by omega,by congr; omega,by congr; omega⟩
        · cases h
      · rintro ⟨hlt,rfl,rfl⟩
        rw [digit_eq_some.2 ⟨by omega,rfl⟩,digit_eq_some.2 ⟨by omega,rfl⟩]
        simp only [Except.ok.injEq]
        omega

/-- The years of RFC 5280: a UTCTime has two digits of one from 1950 to 2049. -/
def ReadsYear (tag : UInt8) (s : List UInt8) (year w : Nat) : Prop :=
  (tag = tagUtcTime ∧ w = 2 ∧ 1950 ≤ year ∧ year < 2050 ∧ Reads s 0 (year%100)) ∨
  (tag = tagGeneralizedTime ∧ w = 4 ∧ Reads s 0 (year/100) ∧ Reads s 2 (year%100))

theorem decodeYear_eq_ok {tag : UInt8} {s rest : List UInt8} {year : Nat} :
    decodeYear tag s = .ok (year,rest) ↔
      ∃ w, ReadsYear tag s year w ∧ s.length = w+11 ∧ rest = s.drop w := by
  unfold decodeYear ReadsYear
  constructor
  · intro h
    split_ifs at h with htag hlength htag' hlength
    · simp only [bind_eq_ok,two_eq_ok,pure,Except.pure,Except.ok.injEq,Prod.mk.injEq] at h
      obtain ⟨yy,hyy,hyear,rfl⟩ := h
      have hlt := hyy.1
      refine ⟨2,.inl ⟨htag,rfl,?_⟩,by omega,rfl⟩
      obtain rfl : yy = year%100 := by split at hyear <;> omega
      exact ⟨by split at hyear <;> omega,by split at hyear <;> omega,hyy⟩
    · simp only [bind_eq_ok,two_eq_ok,pure,Except.pure,Except.ok.injEq,Prod.mk.injEq] at h
      obtain ⟨hi,hhi,lo,hlo,rfl,rfl⟩ := h
      have hlt := hlo.1
      refine ⟨4,.inr ⟨htag',rfl,?_⟩,by omega,rfl⟩
      rw [show (hi*100+lo)/100 = hi by omega,show (hi*100+lo)%100 = lo by omega]
      exact ⟨hhi,hlo⟩
  · rintro ⟨w,⟨htag,rfl,hge,hlt,hyear⟩ | ⟨htag,rfl,hhi,hlo⟩,hlength,rfl⟩
    · rw [if_pos htag,if_neg (by omega),two_eq_ok.2 hyear]
      simp only [ok_bind,pure,Except.pure,Except.ok.injEq,Prod.mk.injEq,and_true]
      split <;> omega
    · rw [if_neg (by rw [htag]; decide),if_pos htag,if_neg (by omega),two_eq_ok.2 hhi,two_eq_ok.2 hlo]
      simp only [ok_bind,pure,Except.pure,Except.ok.injEq,Prod.mk.injEq,and_true]
      omega

theorem reads_drop {s : List UInt8} {w off n : Nat} : Reads (s.drop w) off n ↔ Reads s (w+off) n := by
  simp [Reads,add_assoc]

structure Stamp extends Date where
  hour : Nat
  minute : Nat
  second : Nat

namespace Stamp

/-- After the `w` digits of the year: month, day and time in two digits each, and a `Z`. -/
def Tail (t : Stamp) (s : List UInt8) (w : Nat) : Prop :=
  s.length = w+11 ∧ s[w+10]? = some 0x5a ∧ Reads s w t.month ∧ Reads s (w+2) t.day ∧
    Reads s (w+4) t.hour ∧ Reads s (w+6) t.minute ∧ Reads s (w+8) t.second

def Written (t : Stamp) (tag : UInt8) (s : List UInt8) : Prop :=
  ∃ w, ReadsYear tag s t.year w ∧ t.Tail s w

def Valid (t : Stamp) : Prop :=
  t.Exists ∧ t.hour ≤ 23 ∧ t.minute ≤ 59 ∧ t.second ≤ 60

def fields (t : Stamp) : List Nat := [t.year,t.month,t.day,t.hour,t.minute,t.second]

def unix (t : Stamp) : Int := civilToUnix t.year t.month t.day t.hour t.minute t.second

theorem decode_eq_ok {tag : UInt8} {s : List UInt8} {r : Int} :
    decodeAsn1Time tag s = .ok r ↔ ∃ t : Stamp, t.Written tag s ∧ t.Valid ∧ r = t.unix := by
  unfold decodeAsn1Time
  have hthrow {c : Prop} [Decidable c] {f : PUnit → Except DerError Int} {x : Except DerError Int} :
      (if c then throw .badTime >>= f else x) = .ok r ↔ ¬c ∧ x = .ok r := by
    split <;> simp [*]
  simp only [bind_eq_ok,hthrow,two_eq_ok,pure,Except.pure,Except.ok.injEq]
  constructor
  · rintro ⟨⟨year,rest⟩,hyear,hz,month,hmonth,day,hday,hour,hhour,minute,hminute,second,hsecond,
      hdate,htime,rfl⟩
    obtain ⟨w,hform,hlength,rfl⟩ := decodeYear_eq_ok.1 hyear
    dsimp only at hdate
    simp only [reads_drop,getElem?_drop] at hz hmonth hday hhour hminute hsecond
    refine ⟨⟨⟨year,month,day⟩,hour,minute,second⟩,
      ⟨w,hform,hlength,?_,hmonth,hday,hhour,hminute,hsecond⟩,⟨⟨?_,?_⟩,?_,?_,?_⟩,rfl⟩
    · simpa using (not_or.1 hz).2
    all_goals simp only; omega
  · rintro ⟨t,⟨w,hyear,hlength,hz,hmonth,hday,hhour,hminute,hsecond⟩,⟨⟨hpos,hlast⟩,htime⟩,rfl⟩
    have hm := Date.Exists.month (d := t.toDate) ⟨hpos,hlast⟩
    refine ⟨(t.year,s.drop w),decodeYear_eq_ok.2 ⟨w,hyear,hlength,rfl⟩,?_,_,reads_drop.2 hmonth,
      _,reads_drop.2 hday,_,reads_drop.2 hhour,_,reads_drop.2 hminute,_,reads_drop.2 hsecond,?_,?_,rfl⟩
    · rw [length_drop,getElem?_drop,hz,hlength]
      simp
    · rintro (hzero | hrest)
      · simp [hzero] at hm
      · dsimp only at hrest
        omega
    · omega

/-- A leap second is the first second of the next minute. -/
theorem unix_mono {t t' : Stamp} (h : t.Valid) (h' : t'.Valid)
    (hlt : Lex (· < ·) t.fields t'.fields) : t.unix ≤ t'.unix := by
  obtain ⟨i,a,hdate,ha⟩ := h.1.inMonth
  obtain ⟨j,b,hdate',hb⟩ := h'.1.inMonth
  obtain ⟨-,hhour,hminute,hsecond⟩ := h
  have hcount := Date.count_lt ha hb.1 (j := j)
  change t.toDate.count*86400+_+_+_ ≤ t'.toDate.count*86400+_+_+_
  rw [hdate,hdate']
  simp only [fields,cons_lex_cons_iff,not_lex_nil,and_false,or_false,hdate,hdate',Date.inMonth] at hlt
  by_cases hsame : i = j ∧ a = b
  · obtain ⟨rfl,rfl⟩ := hsame
    omega
  · have := hcount (by omega)
    omega

end Stamp

theorem certificate_time :
    (∀ (tag : UInt8) (s : List UInt8) (r : Int), decodeAsn1Time tag s = .ok r ↔
      ∃ t : Stamp, t.Written tag s ∧ t.Valid ∧
        ∃ days, t.DaysFromEpoch days ∧ r = 86400*days+(3600*t.hour+60*t.minute+t.second)) ∧
    (∀ t t' : Stamp, t.Valid → t'.Valid → Lex (· < ·) t.fields t'.fields → t.unix ≤ t'.unix) ∧
    ∀ (year : Int) (month day : Nat), daysFromCivil year month day = timeconvDays year month day := by
  refine ⟨fun tag s r => ?_,fun t t' h h' => Stamp.unix_mono h h',fun year month day => rfl⟩
  rw [Stamp.decode_eq_ok]
  refine exists_congr fun t => and_congr_right fun _ => and_congr_right fun h => ?_
  simp only [Date.daysFromEpoch_iff h.1,exists_eq_left]
  change r = t.toDate.count*86400+_+_+_ ↔ _
  omega

def leapSecond : Stamp := ⟨⟨2024,2,29⟩,23,59,60⟩

/-- `240229235960Z`, and the first second of March. -/
theorem certificate_time_leap_day : decodeAsn1Time tagUtcTime
      [0x32,0x34,0x30,0x32,0x32,0x39,0x32,0x33,0x35,0x39,0x36,0x30,0x5a] = .ok 1709251200 ∧
    leapSecond.unix ≤ Stamp.unix ⟨⟨2024,3,1⟩,0,0,0⟩ ∧
    daysFromCivil 2024 2 29 = timeconvDays 2024 2 29 := by
  have hvalid : leapSecond.Valid := ⟨⟨by decide,by decide⟩,by decide,by decide,by decide⟩
  refine ⟨(certificate_time.1 _ _ _).mpr ⟨leapSecond,⟨2,.inl ?_,?_⟩,hvalid,19782,?_,by decide⟩,
    certificate_time.2.1 _ _ hvalid ?_ (by decide),certificate_time.2.2 2024 2 29⟩
  · exact ⟨rfl,rfl,by decide,by decide,by decide,rfl,rfl⟩
  · exact ⟨rfl,rfl,by unfold Reads; decide⟩
  · exact (Date.daysFromEpoch_iff hvalid.1 _).mpr (by decide)
  · exact ⟨⟨by decide,by decide⟩,by decide,by decide,by decide⟩

end PaghOS.Tls
