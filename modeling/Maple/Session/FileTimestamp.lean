import Maple.Lib.Calendar
import Mathlib.Tactic.Ring

/-!
# The time in a session's file name

A file name carries the UTC time of its session in fields of fixed width. The date is
computed in years that begin in March and are counted in eras of 400.
-/

set_option autoImplicit false

namespace Maple.Session.FileTimestamp

open Calendar List

/-- A number padded with zeros behind its sign. -/
def padded (width : ℕ) (n : ℤ) : List Char :=
  let sign := if n < 0 then ['-'] else []
  let digits := Nat.toDigits 10 n.natAbs
  sign ++ (List.replicate (width-(sign.length+digits.length)) '0' ++ digits)

def layout (year month day hour minute second milli : List Char) : List Char :=
  year ++ '-'::(month ++ '-'::(day ++ 'T'::(hour ++ '-'::(minute ++ '-'::(second ++
    '-'::(milli ++ ['Z']))))))

def civilFromDays (days : ℤ) : ℤ × ℤ × ℤ :=
  let z := days+719468
  let era := z/146097
  let dayOfEra := z%146097
  let yearOfEra := (dayOfEra-dayOfEra/1460+dayOfEra/36524-dayOfEra/146096)/365
  let dayOfYear := dayOfEra-(365*yearOfEra+yearOfEra/4-yearOfEra/100)
  let shiftedMonth := (5*dayOfYear+2)/153
  let day := dayOfYear-(153*shiftedMonth+2)/5+1
  let month := if shiftedMonth < 10 then shiftedMonth+3 else shiftedMonth-9
  let year := yearOfEra+era*400+(if month ≤ 2 then 1 else 0)
  (year, month, day)

def fileTimestamp (ms : ℤ) : List Char :=
  let days := ms/86400000
  let rest := ms%86400000
  let (year, month, day) := civilFromDays days
  layout (padded 4 year) (padded 2 month) (padded 2 day) (padded 2 (rest/3600000))
    (padded 2 (rest/60000%60)) (padded 2 (rest/1000%60)) (padded 3 (rest%1000))

section Era

/-- A day of an era: its century, its four years in that, its year in those and its day. -/
theorem split_era {d : ℕ} (h : d < 146097) : ∃ c q r s : ℕ, c ≤ 3 ∧ q ≤ 24 ∧ r ≤ 3 ∧ s ≤ 365 ∧
    (s = 365 → r = 3 ∧ (q ≠ 24 ∨ c = 3)) ∧ d = 36524*c+1461*q+365*r+s := by
  have hc : ∃ c ≤ 3, 36524*c ≤ d ∧ (d < 36524*(c+1) ∨ c = 3) := by
    by_cases h3 : d/36524 = 4
    · exact ⟨3,by omega⟩
    · exact ⟨d/36524,by omega⟩
  obtain ⟨c,hc,hle,hlt⟩ := hc
  obtain ⟨e,rfl⟩ := Nat.exists_eq_add_of_le hle
  have hr : ∃ r ≤ 3, 365*r ≤ e%1461 ∧ (e%1461 < 365*(r+1) ∨ r = 3) := by
    by_cases h3 : e%1461/365 = 4
    · exact ⟨3,by omega⟩
    · exact ⟨e%1461/365,by omega⟩
  obtain ⟨r,hr,hle',hlt'⟩ := hr
  exact ⟨c,e/1461,r,e%1461-365*r,hc,by omega,hr,by omega,by omega,by omega⟩

theorem year_of_era {c q r s : ℕ} (hc : c ≤ 3) (hq : q ≤ 24) (hr : r ≤ 3) (hs : s ≤ 365)
    (hleap : s = 365 → r = 3 ∧ (q ≠ 24 ∨ c = 3)) {d : ℤ} (hd : d = 36524*c+1461*q+365*r+s) :
    (d-d/1460+d/36524-d/146096)/365 = 100*c+4*q+r := by
  have hlast : d/146096 = if d = 146096 then 1 else 0 := by split_ifs <;> omega
  have hcentury : d/36524 = if d = 146096 then 4 else (c:ℤ) := by split_ifs <;> omega
  have hfour : d/1460 = 25*c+q ∨ d/1460 = 25*c+q+1 ∧ r = 3 ∧ 365 ≤ s+24*c+q := by omega
  rw [hlast, hcentury]
  split_ifs <;> omega

theorem through_era {c q r : ℕ} (hc : c ≤ 3) (hq : q ≤ 24) (hr : r ≤ 3) (era : ℕ) :
    daysThrough (400*era+100*c+4*q+r) = 146097*era+36524*c+1461*q+365*r := by
  have hclosed := daysThrough_closed (400*era+100*c+4*q+r)
  have hfour : (400*era+100*c+4*q+r)/4 = 100*era+25*c+q := by omega
  have hcentury : (400*era+100*c+4*q+r)/100 = 4*era+c := by omega
  have hera : (400*era+100*c+4*q+r)/400 = era := by omega
  rw [hfour, hcentury, hera] at hclosed
  generalize daysThrough (400*era+100*c+4*q+r) = through at hclosed ⊢
  omega

/-- The date of a day of a year that begins in March. -/
theorem march_date {year s shift : ℕ} (hs : s ≤ 365) (hleap : s = 365 → isLeap (year+1))
    (hfirst : year = 0 → 306 ≤ s) (hshift : shift = (5*s+2)/153) : ∃ date : Date,
      date.year = (if shift < 10 then year else year+1) ∧
      date.month = (if shift < 10 then shift+3 else shift-9) ∧
      date.day = s-(153*shift+2)/5+1 ∧ date.number+306 = daysThrough year+s := by
  have hline : (153*shift+2)/5 ≤ s := by omega
  have hnumber := number_from_march (show shift ≤ 11 by omega)
    (show 10 ≤ shift ∨ 1 ≤ year by omega) (s-(153*shift+2)/5+1)
  refine ⟨⟨if shift < 10 then year else year+1,if shift < 10 then shift+3 else shift-9,
    s-(153*shift+2)/5+1,?_,?_,?_,?_,?_⟩,rfl,rfl,rfl,?_⟩
  · split_ifs <;> omega
  · split_ifs <;> omega
  · split_ifs <;> omega
  · exact Nat.le_add_left 1 _
  · have hbound : shift ≤ 11 := by omega
    by_cases hlast : s = 365
    · subst hlast
      have hfeb : shift = 11 := by omega
      simp [hfeb, daysInMonth, hleap rfl]
    · clear hnumber hleap hfirst
      simp only [daysInMonth]
      split_ifs <;> omega
  · simp only [Date.number]
    omega

/-- The source's integers against the parts of an era. -/
theorem civil_parts {days : ℤ} {n c q r s shift : ℕ} (hn : days+719468 = n)
    (hd : n%146097 = 36524*c+1461*q+365*r+s) (hc : c ≤ 3) (hq : q ≤ 24) (hr : r ≤ 3)
    (hs : s ≤ 365) (hleap : s = 365 → r = 3 ∧ (q ≠ 24 ∨ c = 3)) (hshift : shift = (5*s+2)/153) :
    civilFromDays days =
      (↑(if shift < 10 then 400*(n/146097)+100*c+4*q+r else 400*(n/146097)+100*c+4*q+r+1),
        ↑(if shift < 10 then shift+3 else shift-9), ↑(s-(153*shift+2)/5+1)) := by
  have hday : (n:ℤ)%146097 = 36524*c+1461*q+365*r+s := by omega
  have hyear : (365*(100*c+4*q+r)+(100*c+4*q+r)/4-(100*c+4*q+r)/100:ℤ) = 36524*c+1461*q+365*r := by
    have hfour : (100*c+4*q+r:ℤ)/4 = 25*c+q := by omega
    have hcentury : (100*c+4*q+r:ℤ)/100 = c := by omega
    rw [hfour, hcentury]
    ring
  have hrest : (36524*c+1461*q+365*r+s-(36524*c+1461*q+365*r):ℤ) = s :=
    add_sub_cancel_left _ _
  have hmonth : (5*s+2:ℤ)/153 = shift := by omega
  simp only [civilFromDays, hn, hday, year_of_era hc hq hr hs hleap rfl, hyear, hrest, hmonth]
  clear hday hyear hrest hmonth
  have hline : (153*shift+2)/5 ≤ s := by omega
  by_cases hten : shift < 10
  · have hten' : (shift:ℤ) < 10 := by omega
    simp only [if_pos hten, if_pos hten', Prod.mk.injEq]
    refine ⟨?_,by omega,by omega⟩
    rw [if_neg (by omega)]
    push_cast
    omega
  · have hten' : ¬(shift:ℤ) < 10 := by omega
    simp only [if_neg hten, if_neg hten', Prod.mk.injEq]
    refine ⟨?_,by omega,by omega⟩
    rw [if_pos (by omega)]
    push_cast
    omega

/-- From the first of January of the year 1 on the computed date has the given day number. -/
theorem civil_date {days : ℤ} (h : -719162 ≤ days) : ∃ date : Date,
    civilFromDays days = (↑date.year, ↑date.month, ↑date.day) ∧
      (date.number : ℤ) = days+719162 := by
  obtain ⟨n,hn⟩ : ∃ n : ℕ, days+719468 = n := ⟨(days+719468).toNat,by omega⟩
  have hlt : n%146097 < 146097 := Nat.mod_lt n (by norm_num)
  obtain ⟨c,q,r,s,hc,hq,hr,hs,hleap,hd⟩ := split_era hlt
  have hthrough : daysThrough (400*(n/146097)+100*c+4*q+r)+s = n := by
    rw [through_era hc hq hr]
    omega
  have hlong : s = 365 → isLeap (400*(n/146097)+100*c+4*q+r+1) := by
    intro hlast
    obtain ⟨rfl,hnot⟩ := hleap hlast
    unfold isLeap
    omega
  have hfirst : 400*(n/146097)+100*c+4*q+r = 0 → 306 ≤ s := by
    intro hzero
    rw [hzero, daysThrough] at hthrough
    omega
  obtain ⟨date,hyear,hmonth,hday,hnumber⟩ := march_date hs hlong hfirst rfl
  refine ⟨date,?_,?_⟩
  · rw [hyear, hmonth, hday]
    exact civil_parts hn hd hc hq hr hs hleap rfl
  · rw [hthrough] at hnumber
    omega

end Era
section Digits

def pad : ℕ → ℕ → List Char
  | 0, _ => []
  | width+1, n => pad width (n/10) ++ [Nat.digitChar (n%10)]

@[simp] theorem pad_length (width n : ℕ) : (pad width n).length = width := by
  induction width generalizing n with
  | zero => rfl
  | succ width ih => simp [pad, ih]

theorem pad_zero (width : ℕ) : pad width 0 = List.replicate width '0' := by
  induction width with
  | zero => rfl
  | succ width ih =>
    rw [pad, Nat.zero_div, ih, replicate_succ']
    rfl

theorem padded_eq {width n : ℕ} (h : n < 10^width) (hpos : 0 < width) :
    padded width n = pad width n := by
  have hpadded : ∀ m : ℕ, padded width m =
      List.replicate (width-(Nat.toDigits 10 m).length) '0' ++ Nat.toDigits 10 m := by
    intro m
    have hsign : ¬(m:ℤ) < 0 := by omega
    simp [padded, hsign]
  rw [hpadded]
  clear hpadded
  induction width generalizing n with
  | zero => exact absurd hpos (Nat.lt_irrefl 0)
  | succ width ih =>
    rw [pad]
    by_cases hsmall : n < 10
    · rw [Nat.toDigits_of_lt_base hsmall, Nat.div_eq_of_lt hsmall, Nat.mod_eq_of_lt hsmall, pad_zero]
      rfl
    have hquot : n/10 < 10^width := by
      rw [Nat.pow_succ] at h
      omega
    have hwidth : 0 < width := by
      by_contra hzero
      obtain rfl : width = 0 := by omega
      omega
    rw [← ih hquot hwidth, Nat.toDigits_eq_if (by decide), if_neg hsmall]
    simp

theorem append_lt_iff {x y : List Char} (h : x.length = y.length) (s t : List Char) :
    x ++ s < y ++ t ↔ x < y ∨ x = y ∧ s < t := by
  induction x generalizing y with
  | nil =>
    obtain rfl := eq_nil_of_length_eq_zero h.symm
    simp
  | cons a x ih =>
    cases y with
    | nil => cases h
    | cons b y =>
      simp only [cons_append, cons_lt_cons_iff, ih (Nat.succ.inj h), List.cons.injEq]
      tauto

theorem digit_lt {a b : ℕ} (ha : a < 10) (hb : b < 10) :
    (Nat.digitChar a < Nat.digitChar b ↔ a < b) ∧ (Nat.digitChar a = Nat.digitChar b ↔ a = b) := by
  have hall : ∀ a b : Fin 10, (Nat.digitChar a < Nat.digitChar b ↔ a.val < b.val) ∧
      (Nat.digitChar a = Nat.digitChar b ↔ a.val = b.val) := by decide
  exact hall ⟨a,ha⟩ ⟨b,hb⟩

/-- Numbers of one width are in the order of their texts. -/
theorem pad_lt {width a b : ℕ} (ha : a < 10^width) (hb : b < 10^width) :
    (pad width a < pad width b ↔ a < b) ∧ (pad width a = pad width b ↔ a = b) := by
  induction width generalizing a b with
  | zero => simp_all [pad]
  | succ width ih =>
    rw [Nat.pow_succ] at ha hb
    obtain ⟨hlt,heq⟩ := @ih (a/10) (b/10) (by omega) (by omega)
    obtain ⟨hdlt,hdeq⟩ := digit_lt (Nat.mod_lt a (by decide)) (Nat.mod_lt b (by decide))
    have hlast : [Nat.digitChar (a%10)] < [Nat.digitChar (b%10)] ↔ a%10 < b%10 := by
      simp [cons_lt_cons_iff, hdlt]
    constructor
    · rw [pad, pad, append_lt_iff (by simp), hlt, heq, hlast]
      omega
    · have hsplit : pad (width+1) a = pad (width+1) b ↔ a/10 = b/10 ∧ a%10 = b%10 := by
        simp only [pad, ← concat_eq_append, concat_inj, heq, hdeq]
      rw [hsplit]
      omega

/-- A field decides unless it is equal. -/
theorem field_lt {width a b : ℕ} (ha : a < 10^width) (hb : b < 10^width) (mark : Char)
    (s t : List Char) :
    pad width a ++ mark::s < pad width b ++ mark::t ↔ a < b ∨ a = b ∧ s < t := by
  rw [append_lt_iff (by simp), (pad_lt ha hb).1, (pad_lt ha hb).2, cons_lt_cons_iff]
  simp

end Digits

section Moments

/-- A date of the years with four digits, and the milliseconds since its midnight. -/
structure Moment extends Date where
  clock : ℕ
  year_le : year ≤ 9999
  clock_lt : clock < 86400000

/-- The milliseconds since 1970. -/
def Moment.millis (moment : Moment) : ℤ :=
  ((moment.number : ℤ)-dayNumber 1970 1 1)*86400000+moment.clock

def Moment.text (moment : Moment) : List Char :=
  layout (pad 4 moment.year) (pad 2 moment.month) (pad 2 moment.day) (pad 2 (moment.clock/3600000))
    (pad 2 (moment.clock/60000%60)) (pad 2 (moment.clock/1000%60)) (pad 3 (moment.clock%1000))

theorem date_lt (date : Date) : date.month < 10^2 ∧ date.day < 10^2 := by
  have hmonth := date.month_le
  have hday := date.day_le
  have hmax : daysInMonth date.year date.month ≤ 31 := by
    unfold daysInMonth
    split_ifs <;> decide
  omega

theorem text_lt (a b : Moment) : a.text < b.text ↔ a.millis < b.millis := by
  have ha := date_lt a.toDate
  have hb := date_lt b.toDate
  have hyear := a.year_le
  have hyear' := b.year_le
  have hclock := a.clock_lt
  have hclock' := b.clock_lt
  have hend : ¬([] : List Char) < [] := by simp
  have hbefore : a.text < b.text ↔ a.toDate.Before b.toDate ∨
      a.year = b.year ∧ a.month = b.month ∧ a.day = b.day ∧ a.clock < b.clock := by
    unfold Moment.text layout Date.Before
    rw [field_lt (by omega) (by omega), field_lt ha.1 hb.1, field_lt ha.2 hb.2,
      field_lt (by omega) (by omega), field_lt (by omega) (by omega),
      field_lt (by omega) (by omega), field_lt (by omega) (by omega)]
    simp only [hend, and_false, or_false]
    omega
  rw [hbefore, before_iff, Moment.millis, Moment.millis]
  constructor
  · rintro (hdate | ⟨hyear,hmonth,hday,hlt⟩)
    · omega
    · have hnumber : a.number = b.number := by
        rw [Date.number, Date.number, hyear, hmonth, hday]
      omega
  · intro hlt
    by_cases hdate : a.number < b.number
    · exact .inl hdate
    · obtain ⟨hyear,hmonth,hday⟩ := number_inj (show a.number = b.number by omega)
      exact .inr ⟨hyear,hmonth,hday,by omega⟩

theorem epoch_number : dayNumber 1970 1 1 = 719162 := by
  have hclosed := daysThrough_closed 1969
  simp only [dayNumber, Nat.reduceSub, daysOfMonths]
  omega

theorem through_last : daysThrough 9999 = 3652059 := by
  have hclosed := daysThrough_closed 9999
  omega

/-- The milliseconds of the years from 1 to 9999. -/
def InYears (ms : ℤ) : Prop := -719162*86400000 ≤ ms ∧ ms < (3652059-719162)*86400000

theorem moment_of {ms : ℤ} (h : InYears ms) :
    ∃ moment : Moment, moment.millis = ms ∧ fileTimestamp ms = moment.text := by
  unfold InYears at h
  obtain ⟨date,hcivil,hnumber⟩ := @civil_date (ms/86400000) (by omega)
  have hyear : date.year ≤ 9999 := by
    by_contra hlate
    have hle := daysThrough_mono (show 9999 ≤ date.year-1 by omega)
    rw [through_last] at hle
    unfold Date.number dayNumber at hnumber
    omega
  obtain ⟨clock,hclock⟩ : ∃ clock : ℕ, ms%86400000 = clock := ⟨(ms%86400000).toNat,by omega⟩
  refine ⟨⟨date,clock,hyear,by omega⟩,?_,?_⟩
  · simp only [Moment.millis, epoch_number]
    omega
  obtain ⟨hmonth,hday⟩ := date_lt date
  have hhour : (clock:ℤ)/3600000 = ↑(clock/3600000) := by omega
  have hminute : (clock:ℤ)/60000%60 = ↑(clock/60000%60) := by omega
  have hsecond : (clock:ℤ)/1000%60 = ↑(clock/1000%60) := by omega
  have hmilli : (clock:ℤ)%1000 = ↑(clock%1000) := by omega
  simp only [fileTimestamp, hcivil, hclock, Moment.text, hhour, hminute, hsecond, hmilli]
  rw [padded_eq (show date.year < 10^4 by omega) (by decide), padded_eq hmonth (by decide),
    padded_eq hday (by decide), padded_eq (show clock/3600000 < 10^2 by omega) (by decide),
    padded_eq (show clock/60000%60 < 10^2 by omega) (by decide),
    padded_eq (show clock/1000%60 < 10^2 by omega) (by decide),
    padded_eq (show clock%1000 < 10^3 by omega) (by decide)]

theorem moment_inYears (moment : Moment) : InYears moment.millis := by
  have hnumber : moment.number < daysThrough 9999 :=
    (year_end moment.toDate).trans_le (daysThrough_mono moment.year_le)
  have hclock := moment.clock_lt
  rw [through_last] at hnumber
  simp only [InYears, Moment.millis, epoch_number]
  omega

theorem millis_inj {a b : Moment} (h : a.millis = b.millis) : a.text = b.text := by
  have ha := a.clock_lt
  have hb := b.clock_lt
  unfold Moment.millis at h
  obtain ⟨hyear,hmonth,hday⟩ := number_inj (show a.number = b.number by omega)
  have hclock : a.clock = b.clock := by omega
  rw [Moment.text, Moment.text, hyear, hmonth, hday, hclock]

/-- Every millisecond of the years 1 to 9999 is a moment of the calendar, the file name
carries the date and time of that moment, and names are in the order of the times. -/
theorem file_timestamp_civil :
    (∀ ms, InYears ms → ∃ moment : Moment, moment.millis = ms) ∧
      (∀ moment : Moment, fileTimestamp moment.millis = moment.text) ∧
      ∀ ms other, InYears ms → InYears other →
        (fileTimestamp ms < fileTimestamp other ↔ ms < other) := by
  refine ⟨?_, ?_, ?_⟩
  · intro ms h
    obtain ⟨moment,hmoment,_⟩ := moment_of h
    exact ⟨moment, hmoment⟩
  · intro moment
    obtain ⟨found,hmillis,htext⟩ := moment_of (moment_inYears moment)
    rw [htext, millis_inj hmillis]
  · intro ms other h hother
    obtain ⟨a,rfl,ha⟩ := moment_of h
    obtain ⟨b,rfl,hb⟩ := moment_of hother
    rw [ha, hb, text_lt]

end Moments

end Maple.Session.FileTimestamp
