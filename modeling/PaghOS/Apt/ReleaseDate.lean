import PaghOS.Apt.Release
import PaghOS.Tls.Calendar

/-!
The dates of a `Release` file against the calendar: `parse_date` takes every date in
Debian's form, and also days that the month does not have.
-/

namespace PaghOS.Apt
open List Text Option
open Tls (Date Stamp daysInMonth)

/-- The fields that the words of a date spell; nothing is said about their ranges. -/
def Denotes (value : List Char) (t : Stamp) : Prop :=
  ∃ day month year time zone h m s, words (afterWeekday value) = [day,month,year,time,zone] ∧
    parseUnsigned 0x100000000 day = some t.day ∧ monthNumber month = some t.month ∧
    parseI64 year = some (t.year : Int) ∧ time.splitOn ':' = [h,m,s] ∧
    parseI64 h = some (t.hour : Int) ∧ parseI64 m = some (t.minute : Int) ∧
    parseI64 s = some (t.second : Int) ∧
    (eqIgnoreAsciiCase zone "UTC".toList || eqIgnoreAsciiCase zone "GMT".toList) = true

/-- What `parse_date` checks. -/
def InRange (t : Stamp) : Prop :=
  1 ≤ t.day ∧ t.day ≤ 31 ∧ 1970 ≤ t.year ∧ t.year ≤ 9999 ∧ t.hour < 24 ∧ t.minute < 60 ∧ t.second < 61

def stampTime (t : Stamp) : Int := t.toDate.count*86400+t.hour*3600+t.minute*60+t.second

theorem daysFromCivil_eq {d : Date} (hmonth : 1 ≤ d.month ∧ d.month ≤ 12) :
    daysFromCivil d.year d.month d.day = d.count := by
  have hmp : (if (d.month : Int) > 2 then (d.month : Int)-3 else d.month+9) = ((d.month : Int)+9)%12 := by
    split <;> omega
  simp only [daysFromCivil,Date.count,Tls.daysFromCivil,hmp]

theorem monthNumber_range {s : List Char} {n : Nat} (h : monthNumber s = some n) : 1 ≤ n ∧ n ≤ 12 := by
  obtain ⟨i,hi,rfl⟩ := map_eq_some_iff.1 h
  obtain ⟨hlt,-⟩ := findIdx?_eq_some_iff_getElem.1 hi
  exact ⟨by omega,hlt⟩

theorem parseTime_eq_some {time : List Char} {hms : Int × Int × Int} : parseTime time = some hms ↔
    ∃ h m s, time.splitOn ':' = [h,m,s] ∧ parseI64 h = some hms.1 ∧ parseI64 m = some hms.2.1 ∧
      parseI64 s = some hms.2.2 ∧ 0 ≤ hms.1 ∧ hms.1 < 24 ∧ 0 ≤ hms.2.1 ∧ hms.2.1 < 60 ∧
      0 ≤ hms.2.2 ∧ hms.2.2 < 61 := by
  unfold parseTime
  constructor
  · intro h
    split at h
    · rename_i a b c hsplit
      simp only [bind_eq_bind,bind_eq_some_iff,ite_none_right_eq_some,
        Option.some.injEq] at h
      obtain ⟨h,hh,m,hm,s,hs,hrange,rfl⟩ := h
      exact ⟨a,b,c,hsplit,hh,hm,hs,hrange⟩
    · cases h
  · rintro ⟨h,m,s,hsplit,hh,hm,hs,hrange⟩
    rw [hsplit]
    simp [hh,hm,hs,if_pos hrange]

theorem parseDate_eq_parsed {value : List Char} {z : Int} :
    parseDate value = .parsed z ↔ ∃ t, Denotes value t ∧ InRange t ∧ z = stampTime t := by
  have hparts : parseDate value = .parsed z ↔ parseParts (words (afterWeekday value)) = some z := by
    unfold parseDate
    split
    · rename_i hblank
      have hcomma : ',' ∉ value := by
        intro hmem
        have hdrop := rdropWhile_eq_nil_iff.1 hblank
        rw [← takeWhile_append_dropWhile (p := isWhitespace) (l := value),mem_append] at hmem
        exact absurd (hmem.elim mem_takeWhile_imp (hdrop _)) (by decide)
      simp [afterWeekday,hcomma,hblank,words,parseParts]
    · split <;> simp [*]
  rw [hparts]
  unfold Denotes InRange stampTime
  constructor
  · intro h
    unfold parseParts at h
    split at h
    · rename_i day month year time zone hwords
      simp only [bind_eq_bind,bind_eq_some_iff,ite_none_right_eq_some,Option.some.injEq,
        bind_none,bind_some,parseTime_eq_some] at h
      obtain ⟨d,hd,⟨hd1,hd2⟩,mo,hmo,y,hy,⟨hy1,hy2⟩,⟨ho,mi,se⟩,
        ⟨h,m,s,hsplit,hh,hm,hs,h0,h1,h2,h3,h4,h5⟩,hzone,rfl⟩ := h
      obtain ⟨y,rfl⟩ := Int.eq_ofNat_of_zero_le (by omega : 0 ≤ y)
      obtain ⟨ho,rfl⟩ := Int.eq_ofNat_of_zero_le h0
      obtain ⟨mi,rfl⟩ := Int.eq_ofNat_of_zero_le h2
      obtain ⟨se,rfl⟩ := Int.eq_ofNat_of_zero_le h4
      refine ⟨⟨⟨y,mo,d⟩,ho,mi,se⟩,
        ⟨day,month,year,time,zone,h,m,s,hwords,hd,hmo,hy,hsplit,hh,hm,hs,hzone⟩,?_,?_⟩
      · dsimp only at *
        omega
      · rw [← daysFromCivil_eq (monthNumber_range hmo)]
    · cases h
  · rintro ⟨t,⟨day,month,year,time,zone,h,m,s,hwords,hday,hmonth,hyear,hsplit,hh,hm,hs,hzone⟩,hrange,rfl⟩
    have htime : parseTime time = some ((t.hour : Int),(t.minute : Int),(t.second : Int)) :=
      parseTime_eq_some.2 ⟨h,m,s,hsplit,hh,hm,hs,by dsimp only; omega⟩
    rw [hwords,← daysFromCivil_eq (monthNumber_range hmonth)]
    simp only [parseParts,hday,hmonth,hyear,htime,bind_eq_bind,bind_some]
    rw [if_pos (by omega),if_pos (by omega),if_pos hzone]

/-- The day field is at most the length of the month, wherever the words spell a date in the checked
ranges. -/
def DayInMonth (value : List Char) : Prop :=
  ∀ t, Denotes value t → InRange t → t.day ≤ daysInMonth t.year t.month

theorem Denotes.unique {value : List Char} {t t' : Stamp} (h : Denotes value t) (h' : Denotes value t') :
    t = t' := by
  obtain ⟨day,month,year,time,zone,h,m,s,hwords,hday,hmonth,hyear,hsplit,hh,hm,hs,-⟩ := h
  obtain ⟨_,_,_,_,_,_,_,_,hwords',hday',hmonth',hyear',hsplit',hh',hm',hs',-⟩ := h'
  cases hwords.symm.trans hwords'
  cases hsplit.symm.trans hsplit'
  obtain ⟨⟨_,_,_⟩,_,_,_⟩ := t
  obtain ⟨⟨_,_,_⟩,_,_,_⟩ := t'
  simp_all

def numeral (ds : List Nat) : List Char := ds.map Nat.digitChar

def monthName (m : Nat) : List Char :=
  (["Jan","Feb","Mar","Apr","May","Jun","Jul","Aug","Sep","Oct","Nov","Dec"].getD (m-1) "").toList

def twoDigits (n : Nat) : List Char := numeral [n/10,n%10]

def dateWords (t : Stamp) : List (List Char) :=
  [twoDigits t.day,monthName t.month,numeral [t.year/1000,t.year/100%10,t.year/10%10,t.year%10],
    [':'].intercalate [twoDigits t.hour,twoDigits t.minute,twoDigits t.second],"UTC".toList]

/-- As in `Sat, 12 Sep 2026 07:55:41 UTC`. -/
def debianDate (weekday : List Char) (t : Stamp) : List Char :=
  weekday ++ ',' :: ' ' :: [' '].intercalate (dateWords t)

section Numerals

variable {ds : List Nat} (h : ∀ d ∈ ds, d < 10)
include h

theorem mem_numeral {c : Char} (hc : c ∈ numeral ds) :
    isWhitespace c = false ∧ c ≠ ':' ∧ c ≠ '+' ∧ c ≠ '-' := by
  have hdigit : ∀ d < 10, isWhitespace (Nat.digitChar d) = false ∧ Nat.digitChar d ≠ ':' ∧
      Nat.digitChar d ≠ '+' ∧ Nat.digitChar d ≠ '-' := by decide
  obtain ⟨d,hd,rfl⟩ := mem_map.1 hc
  exact hdigit d (h d hd)

theorem parseI64_numeral (hne : ds ≠ []) {n : Nat} (hn : n < 10000)
    (heq : ds.foldl (fun n d => 10*n+d) 0 = n) :
    parseUnsigned 0x100000000 (numeral ds) = some n ∧ parseI64 (numeral ds) = some (n : Int) := by
  have hdigit : ∀ d < 10, digit? (Nat.digitChar d) = some d := by decide
  have hfold : ∀ a, (numeral ds).foldlM (fun n c => (digit? c).map fun d => 10*n+d) a =
      some (ds.foldl (fun n d => 10*n+d) a) := by
    clear hne heq
    induction ds with
    | nil => intro a; rfl
    | cons d ds ih =>
      intro a
      obtain ⟨hd,hds⟩ := forall_mem_cons.1 h
      simp only [numeral,map_cons,foldlM_cons,hdigit d hd,map_some,bind_eq_bind,
        bind_some,foldl_cons]
      exact ih hds _
  have hhead : ∀ c, (numeral ds).head? = some c → c ≠ '+' ∧ c ≠ '-' := fun c hc =>
    (mem_numeral h (mem_of_mem_head? hc)).2.2
  have hdigits : digits? (numeral ds) = some n := by
    rw [digits?,if_neg (by simpa [numeral] using hne),hfold,heq]
  have hparse : ∀ lim, 10000 ≤ lim → parseUnsigned lim (numeral ds) = some n := by
    intro lim hlim
    rw [parseUnsigned,if_neg fun hc => (hhead _ hc).1 rfl,hdigits]
    exact if_pos (by omega)
  refine ⟨hparse _ (by decide),?_⟩
  rw [parseI64,if_neg fun hc => (hhead _ hc).2 rfl,hparse _ (by decide)]
  rfl

end Numerals

theorem daysInMonth_le (year month : Nat) : daysInMonth year month ≤ 31 := by
  unfold daysInMonth
  split_ifs <;> omega

theorem twoDigits_spec {n : Nat} (hn : n < 100) : (∀ c ∈ twoDigits n, isWhitespace c = false) ∧
    ':' ∉ twoDigits n ∧ parseUnsigned 0x100000000 (twoDigits n) = some n ∧
      parseI64 (twoDigits n) = some (n : Int) := by
  have hds : ∀ d ∈ [n/10,n%10], d < 10 := by
    simp
    omega
  exact ⟨fun c hc => (mem_numeral hds hc).1,fun hc => (mem_numeral hds hc).2.1 rfl,
    parseI64_numeral hds (by simp) (by omega) (by simp; omega)⟩

theorem debianDate_names {weekday : List Char} {t : Stamp} (hweekday : ',' ∉ weekday) (h : t.Valid)
    (hyear : t.year ≤ 9999) : Denotes (debianDate weekday t) t := by
  have hblank : ∀ {w : List Char}, w.all (!isWhitespace ·) = true → ∀ c ∈ w, isWhitespace c = false := by simp
  have hname : ∀ m ∈ [1,2,3,4,5,6,7,8,9,10,11,12], monthNumber (monthName m) = some m ∧
      monthName m ≠ [] ∧ (monthName m).all (!isWhitespace ·) = true := by decide
  have hlength := daysInMonth_le t.year t.month
  obtain ⟨hmonth,hne,hmonth'⟩ := hname _ h.1.month
  obtain ⟨⟨-,hlast⟩,hhour,hminute,hsecond⟩ := h
  obtain ⟨hday,-,hparse,-⟩ := twoDigits_spec (n := t.day) (by omega)
  obtain ⟨hho,hho',-,hhour⟩ := twoDigits_spec (n := t.hour) (by omega)
  obtain ⟨hmi,hmi',-,hminute⟩ := twoDigits_spec (n := t.minute) (by omega)
  obtain ⟨hse,hse',-,hsecond⟩ := twoDigits_spec (n := t.second) (by omega)
  have hds : ∀ d ∈ [t.year/1000,t.year/100%10,t.year/10%10,t.year%10], d < 10 := by
    simp
    omega
  have hjoin : words ([' '].intercalate (dateWords t)) = dateWords t := by
    refine words_join ?_
    simp only [dateWords,forall_mem_cons,not_mem_nil,false_imp_iff,implies_true,and_true,
      intercalate_cons_cons,intercalate_singleton,forall_mem_append]
    exact ⟨⟨by simp [twoDigits,numeral],hday⟩,⟨hne,hblank hmonth'⟩,
      ⟨by simp [numeral],fun c hc => (mem_numeral hds hc).1⟩,
      ⟨by simp [twoDigits,numeral],⟨hho,by decide⟩,⟨hmi,by decide⟩,hse⟩,by decide,hblank (by decide)⟩
  refine ⟨_,_,_,_,_,_,_,_,Eq.trans ?_ hjoin,hparse,hmonth,
    (parseI64_numeral hds (by simp) (by omega) (by simp; omega)).2,
    splitOn_intercalate ':' (by simp [hho',hmi',hse']) (by simp),hhour,hminute,hsecond,by decide⟩
  have hcomma : ∀ c ∈ weekday, decide (c ≠ ',') = true :=
    fun c hc => decide_eq_true (ne_of_mem_of_not_mem hc hweekday)
  rw [afterWeekday,if_pos (by simp [debianDate]),debianDate,dropWhile_append_of_pos hcomma]
  change words (trimBoth isWhitespace ([' '].intercalate (dateWords t))) = _
  rw [trimBoth_eq_self]
  · simpa [dateWords,twoDigits,numeral] using hday (Nat.digitChar (t.day/10)) (by simp [twoDigits,numeral])
  · simp [dateWords,getLast?_append,getLast?_cons]
    decide

/-- A date is read as it is written unless the month has no such day; a leap second is the
first of the next minute. -/
theorem release_date (value value' weekday : List Char) (t t' : Stamp) :
    ((∀ z, parseDate value = .parsed z → ∃ t : Stamp, Denotes value t ∧ t.Valid ∧
      ∃ days, t.DaysFromEpoch days ∧ z = 86400*days+(3600*t.hour+60*t.minute+t.second)) ↔ DayInMonth value) ∧
    (∀ z, DayInMonth value → DayInMonth value' → Denotes value t → Denotes value' t' →
      t.second < 60 → t'.second < 60 → parseDate value = .parsed z → parseDate value' = .parsed z →
      t.toDate = t'.toDate) ∧
    (',' ∉ weekday → t.Valid → 1970 ≤ t.year → t.year ≤ 9999 →
      ∃ days, t.DaysFromEpoch days ∧
        parseDate (debianDate weekday t) = .parsed (86400*days+(3600*t.hour+60*t.minute+t.second))) := by
  have htime : ∀ t : Stamp, stampTime t = 86400*t.toDate.count+(3600*t.hour+60*t.minute+t.second) := by
    intro t
    rw [stampTime]
    omega
  have hread : ∀ {value z}, DayInMonth value → parseDate value = .parsed z →
      ∃ t, Denotes value t ∧ t.Valid ∧ z = stampTime t := by
    intro value z hday h
    obtain ⟨t,hnames,hrange,rfl⟩ := parseDate_eq_parsed.1 h
    have hlast := hday t hnames hrange
    obtain ⟨hpos,-,-,-,hhour,hminute,hsecond⟩ := hrange
    exact ⟨t,hnames,⟨⟨hpos,hlast⟩,by omega,by omega,by omega⟩,rfl⟩
  refine ⟨⟨fun h t hnames hrange => ?_,fun hday z h => ?_⟩,
    fun z hday hday' hnames hnames' hs hs' h h' => ?_,fun hweekday hvalid hlow hhigh => ?_⟩
  · obtain ⟨t',hnames',hvalid,-⟩ := h _ (parseDate_eq_parsed.2 ⟨t,hnames,hrange,rfl⟩)
    cases hnames.unique hnames'
    exact hvalid.1.2
  · obtain ⟨t,hnames,hvalid,rfl⟩ := hread hday h
    exact ⟨t,hnames,hvalid,_,(Date.daysFromEpoch_iff hvalid.1 _).2 rfl,htime t⟩
  · obtain ⟨u,hu,hvalid,rfl⟩ := hread hday h
    obtain ⟨u',hu',hvalid',heq⟩ := hread hday' h'
    cases hnames.unique hu
    cases hnames'.unique hu'
    rw [htime,htime] at heq
    obtain ⟨hexists,h1,h2,-⟩ := hvalid
    obtain ⟨hexists',h1',h2',-⟩ := hvalid'
    exact Date.count_inj hexists hexists' (by omega)
  · refine ⟨_,(Date.daysFromEpoch_iff hvalid.1 _).2 rfl,?_⟩
    rw [← htime]
    refine parseDate_eq_parsed.2 ⟨t,debianDate_names hweekday hvalid hhigh,?_,rfl⟩
    obtain ⟨⟨hpos,hlast⟩,hhour,hminute,hsecond⟩ := hvalid
    have := daysInMonth_le t.year t.month
    exact ⟨by omega,by omega,by omega,by omega,by omega,by omega,by omega⟩

theorem release_date_leap_day : ∃ days, Date.DaysFromEpoch ⟨2024,2,29⟩ days ∧
    parseDate (debianDate "Thu".toList ⟨⟨2024,2,29⟩,12,0,0⟩) = .parsed (86400*days+(3600*12+60*0+0)) :=
  (release_date [] [] _ ⟨⟨2024,2,29⟩,12,0,0⟩ ⟨⟨2024,2,29⟩,12,0,0⟩).2.2 (by decide)
    ⟨⟨by decide,by decide⟩,by decide,by decide,by decide⟩
    (by decide) (by decide)

/-- The first of these days does not exist. -/
theorem thirtieth_of_february : parseDate "Mon, 30 Feb 2026 00:00:00 UTC".toList = .parsed 1772409600 ∧
    parseDate "Mon, 02 Mar 2026 00:00:00 UTC".toList = .parsed 1772409600 := by
  decide

end PaghOS.Apt
