import Mathlib.Tactic.IntervalCases
import Blacklink.Base.Calendar
import Blacklink.Http.Message

/-!
# Dates

Model of `Http::printDateTime` and `parseDateTime` (`client/HttpMessage.cpp:411-551`) and of
`Util::gmtToUnixTime` (`client/TimeUtil.cpp:70-98`). `gmtime` is the Gregorian calendar. There is no
outcome where an `int` overflows. A position in the text that is parsed is an `int`.
-/

namespace Blacklink.Http

open Blacklink.Base Blacklink.Text

/-! ### Days and seconds -/

/-- `struct tm`, what is read of it. -/
structure Tm where
  sec : Int
  min : Int
  hour : Int
  mday : Int
  mon : Int
  year : Int
  wday : Int
  deriving DecidableEq

/-- The fields of a date and a time; `wday` counts from Sunday, and the first day is a Thursday. -/
def Tm.of (d : Date) (t : TimeOfDay) : Tm where
  sec := t.second
  min := t.minute
  hour := t.hour
  mday := d.day
  mon := d.month - 1
  year := d.year - 1900
  wday := (d.dayNumber 1970 + 4 : Nat) % 7

/-- `gmtime`, of a time that is not in front of the first day; not where the year is no `int`. -/
def gmtime (t : Nat) : Option Tm :=
  let tm := Tm.of ((Date.newYear 1970).after (t / 86400)) (TimeOfDay.ofSeconds t)
  if tm.year < 2 ^ 31 then some tm else none

/-- The value of an `int`. -/
def IsInt (n : Int) : Prop := -2 ^ 31 ≤ n ∧ n < 2 ^ 31

instance (n : Int) : Decidable (IsInt n) := inferInstanceAs (Decidable (_ ∧ _))

/-- A value that is calculated from others, all of them an `int`. -/
def ints {α : Type*} (ns : List Int) (a : α) : Option α :=
  if ∀ n ∈ ns, IsInt n then some a else none

/-- `isLeapYear`. -/
def isLeapYear (year : Int) : Bool :=
  if year.tmod 400 = 0 then true
  else if year.tmod 100 = 0 then false
  else year.tmod 4 = 0

/-- `daysFromYear`. -/
def daysFromYear : List Int := [0, 31, 59, 90, 120, 151, 181, 212, 243, 273, 304, 334]

/-- The year and the month that `gmtToUnixTime` goes on with. -/
def yearAndMonth (t : Tm) : Option (Int × Int) :=
  if 11 < t.mon then
    let year := t.year + t.mon.tdiv 12
    ints [year] (year, t.mon.tmod 12)
  else if t.mon < 0 then
    let dy := (-t.mon + 11).tdiv 12
    ints [-t.mon, -t.mon + 11, t.year - dy] (t.year - dy, t.mon + 12 * dy)
  else some (t.year, t.mon)

/-- `gmtToUnixTime`. -/
def gmtToUnixTime (t : Tm) : Option Int :=
  (yearAndMonth t).bind fun (year, month) =>
  let years := 365 * (year - 70)
  let leaps := (year - 1 - 68).tdiv 4 - (year - 1).tdiv 100
  let all := leaps + (year - 1 + 300).tdiv 400
  let inYear := daysFromYear.getD month.toNat 0 + t.mday
  (ints [year - 70, years, year - 1, year - 1 - 68, leaps, year - 1 + 300, all, years + all,
      inYear, inYear - 1, years + all + (inYear - 1), year + 1900]
    (years + all + (inYear - 1))).bind fun days =>
  let days := if isLeapYear (year + 1900) && 2 ≤ month then days + 1 else days
  let minutes := 60 * t.hour + t.min
  ints [days, 60 * t.hour, minutes, 60 * minutes] (86400 * days + 60 * minutes + t.sec)

/-! ### Texts -/

/-- `strWeekDay`. -/
def strWeekDay : List (List UInt8) := ["Sun", "Mon", "Tue", "Wed", "Thu", "Fri", "Sat"].map ascii

/-- `strMonth`. -/
def strMonth : List (List UInt8) :=
  ["Jan", "Feb", "Mar", "Apr", "May", "Jun", "Jul", "Aug", "Sep", "Oct", "Nov", "Dec"].map ascii

/-- Zeros in front, up to a number of characters. -/
def zeroPad (n : Nat) (s : List UInt8) : List UInt8 := List.replicate (n - s.length) 0x30 ++ s

/-- `%02d`: the sign counts. -/
def formatWidth2 (n : Int) : List UInt8 :=
  if n < 0 then 0x2d :: zeroPad 1 (natToString n.natAbs) else zeroPad 2 (natToString n.natAbs)

/-- `%.2d`: the sign does not count. -/
def formatPrecision2 (n : Int) : List UInt8 :=
  if n < 0 then 0x2d :: zeroPad 2 (natToString n.natAbs) else zeroPad 2 (natToString n.natAbs)

/-- What `sprintf` makes of the fields. -/
def printTm (pt : Tm) : List UInt8 :=
  let weekDay := if pt.wday < 0 ∨ 6 < pt.wday then 0 else pt.wday
  let month := if pt.mon < 0 ∨ 11 < pt.mon then 0 else pt.mon
  strWeekDay.getD weekDay.toNat [] ++ ascii ", " ++ formatWidth2 pt.mday ++ ascii " " ++
    strMonth.getD month.toNat [] ++ ascii " " ++ intToString (pt.year + 1900) ++ ascii " " ++
    formatPrecision2 pt.hour ++ ascii ":" ++ formatPrecision2 pt.min ++ ascii ":" ++
    formatPrecision2 pt.sec ++ ascii " GMT"

/-- `printDateTime`. -/
def printDateTime (t : Nat) : Option (List UInt8) :=
  match gmtime t with
  | none => some []
  | some pt => ints [pt.year + 1900] (printTm pt)

/-- `isLetter`. -/
def isLetter (c : UInt8) : Bool := 0x41 ≤ c && c ≤ 0x5a || 0x61 ≤ c && c ≤ 0x7a

/-- `findMonth`. -/
def findMonth (s : List UInt8) : Option Nat :=
  if s.length ≠ 3 then none else strMonth.findIdx? (· = s)

/-- The variables of `parseDateTime`; of `hms` what has been set. -/
structure DateScan where
  year : Nat
  mday : Nat
  month : Nat
  value : Nat
  digits : Nat
  hms : List Nat
  wordStart : Option Nat
  deriving DecidableEq

/-- A character of the text `s`. -/
def DateScan.next (s : List UInt8) (i : Nat) (c : UInt8) (d : DateScan) : Option DateScan :=
  if isDigit c then
    if 6 < d.digits + 1 then none
    else some { d with digits := d.digits + 1, value := d.value * 10 + (c.toNat - 0x30) }
  else if c = 0x3a then
    if d.digits = 0 then none
    else if 2 ≤ d.hms.length then none
    else some { d with hms := d.hms ++ [d.value], value := 0, digits := 0 }
  else if c = 0x20 then
    if d.digits ≠ 0 then
      if d.hms.length = 2 then
        some { d with hms := d.hms ++ [d.value], value := 0, digits := 0 }
      else if d.mday = 0 then some { d with mday := d.value, value := 0, digits := 0 }
      else if d.year = 0 ∧ d.month ≠ 0 then
        some { d with year := d.value, value := 0, digits := 0 }
      else none
    else
      match d.wordStart with
      | none => some d
      | some w =>
        match findMonth ((s.drop w).take (i - w)) with
        | none => some { d with wordStart := none }
        | some m => if d.month ≠ 0 then none else some { d with month := m + 1, wordStart := none }
  else if c = 0x2d then
    if d.digits ≠ 0 then
      if d.mday ≠ 0 then none else some { d with mday := d.value, value := 0, digits := 0 }
    else
      match d.wordStart with
      | none => some d
      | some w =>
        if d.month ≠ 0 then none
        else
          match findMonth ((s.drop w).take (i - w)) with
          | none => none
          | some m => some { d with month := m + 1, wordStart := none }
  else if isLetter c then
    some { d with wordStart := some (d.wordStart.getD i), value := 0, digits := 0 }
  else if c ≠ 0x2c ∧ isBlankOrEnd c = false then none
  else some { d with wordStart := none, value := 0, digits := 0 }

/-- The loop of `parseDateTime`, over the characters of `s` from `i` on. -/
def scanDate (s : List UInt8) : Nat → List UInt8 → DateScan → Option DateScan
  | _, [], d => some d
  | i, c :: rest, d =>
    match d.next s i c with
    | none => none
    | some d => scanDate s (i + 1) rest d

/-- What is behind the loop. -/
def DateScan.finish (d : DateScan) : Option (Option Int) :=
  let year := if d.digits ≠ 0 ∧ d.year = 0 then d.value else d.year
  match d.hms with
  | [hour, min, sec] =>
    if d.mday ≠ 0 ∧ d.month ≠ 0 ∧ year ≠ 0 ∧ d.mday < 32 ∧ d.month < 13 ∧ hour < 24 ∧ min < 60 ∧
        sec ≤ 60 then
      let year := if year < 100 then year + if year < 70 then 2000 else 1900 else year
      let arg : Tm := ⟨sec, min, hour, d.mday, d.month - 1, year - 1900, 0⟩
      (gmtToUnixTime arg).map fun result => if 0 ≤ result then some result else none
    else some none
  | _ => some none

/-- `parseDateTime`: the time, if there is one. -/
def parseDateTime (s : List UInt8) : Option (Option Int) :=
  match scanDate s 0 s ⟨0, 0, 0, 0, 0, [], none⟩ with
  | none => some none
  | some d => d.finish

example : parseDateTime (ascii "Sunday, 06-Nov-94 08:49:37 GMT") = some (some 784111777) := by
  decide

/-! ### Leap years -/

theorem isLeapYear_natCast (year : Nat) : isLeapYear year = isLeap year := by
  have htmod : ∀ n : Nat, (year : Int).tmod n = 0 ↔ year % n = 0 := by
    intro n
    rw [Int.tmod_eq_emod_of_nonneg (Int.natCast_nonneg year)]
    omega
  have h400 := htmod 400
  have h100 := htmod 100
  have h4 := htmod 4
  simp only [Nat.cast_ofNat] at h400 h100 h4
  rw [isLeapYear, Bool.eq_iff_iff, isLeap]
  simp only [h400, h100, h4]
  split_ifs with hq hc
  · simp only [Bool.and_eq_true, Bool.or_eq_true, decide_eq_true_eq, true_iff]
    omega
  · simp only [Bool.and_eq_true, Bool.or_eq_true, decide_eq_true_eq, false_iff]
    omega
  · simp only [Bool.and_eq_true, Bool.or_eq_true, decide_eq_true_eq]
    omega

/-- The leap years are counted. -/
theorem yearsLength_eq {year : Nat} (h : 1970 ≤ year) :
    (yearsLength 1970 year : Int) = 365 * ((year - 1900 : Int) - 70)
      + (((year - 1900 - 1 - 68 : Int).tdiv 4 - (year - 1900 - 1 : Int).tdiv 100)
        + (year - 1900 - 1 + 300 : Int).tdiv 400) := by
  rw [Int.tdiv_eq_ediv_of_nonneg (by omega), Int.tdiv_eq_ediv_of_nonneg (by omega),
    Int.tdiv_eq_ediv_of_nonneg (by omega)]
  induction year, h using Nat.le_induction with
  | base =>
    rw [yearsLength_self]
    rfl
  | succ year h ih =>
    rw [yearsLength_succ h, Nat.cast_add, ih]
    unfold yearLength
    cases hleap : isLeap year with
    | false =>
      simp only [isLeap, Bool.and_eq_false_iff, Bool.or_eq_false_iff, decide_eq_false_iff_not]
        at hleap
      simp only [Bool.false_eq_true, if_false]
      omega
    | true =>
      simp only [isLeap, Bool.and_eq_true, Bool.or_eq_true, decide_eq_true_eq] at hleap
      simp only [if_true]
      omega

theorem monthsLength_eq_daysFromYear (year : Nat) {month : Nat} (hpos : 0 < month)
    (hle : month ≤ 12) :
    (monthsLength year month : Int)
      = daysFromYear.getD (month - 1) 0 + if isLeap year && 2 < month then 1 else 0 := by
  have h1 := monthsLength_one year
  have hsucc := fun m (hm : 0 < m) => monthsLength_succ year hm
  cases hleap : isLeap year <;> interval_cases month <;>
    simp [hsucc, h1, monthLength, hleap, daysFromYear]

theorem ints_eq_some {α : Type*} {ns : List Int} (h : ∀ n ∈ ns, IsInt n) (a : α) :
    ints ns a = some a := if_pos h

theorem ints_eq_none {α : Type*} {ns : List Int} {n : Int} (hn : n ∈ ns) (h : ¬IsInt n) (a : α) :
    ints ns a = none := if_neg fun hall => h (hall n hn)

theorem yearAndMonth_of (d : Date) (t : TimeOfDay) :
    yearAndMonth (Tm.of d t) = some ((d.year : Int) - 1900, (d.month : Int) - 1) := by
  have hpos := d.month_pos
  have hle := d.month_le
  rw [yearAndMonth, if_neg (by simp only [Tm.of]; omega), if_neg (by simp only [Tm.of]; omega)]
  rfl

/-- The days and the seconds, as long as the days are an `int`. -/
theorem gmtToUnixTime_of {d : Date} (h : 1970 ≤ d.year) (t : TimeOfDay) :
    gmtToUnixTime (Tm.of d t) =
      if d.dayNumber 1970 < 2 ^ 31 then some ((86400 * d.dayNumber 1970 + t.seconds : Nat) : Int)
      else none := by
  have hyears := yearsLength_eq h
  have hmonths := monthsLength_eq_daysFromYear d.year d.month_pos d.month_le
  have hdays : (d.dayNumber 1970 : Int)
      = yearsLength 1970 d.year + monthsLength d.year d.month + (d.day - 1) := by
    have := d.day_pos
    rw [Date.dayNumber]
    omega
  have hleap : isLeapYear ((d.year : Int) - 1900 + 1900) = isLeap d.year := by
    rw [Int.sub_add_cancel, isLeapYear_natCast]
  have hmonth : ((d.month : Int) - 1).toNat = d.month - 1 := by omega
  have htwo : decide (2 ≤ (d.month : Int) - 1) = decide (2 < d.month) :=
    decide_eq_decide.mpr (by omega)
  rw [gmtToUnixTime, yearAndMonth_of, Option.bind_some]
  dsimp only
  rw [hleap, hmonth, htwo]
  obtain ⟨e, he⟩ : ∃ e, daysFromYear.getD (d.month - 1) 0 = e := ⟨_, rfl⟩
  have hbound : 0 ≤ e ∧ e ≤ 334 := by
    have hpos := d.month_pos
    have hle := d.month_le
    rw [← he]
    generalize d.month = m at hpos hle
    interval_cases m <;> decide
  have h4 : ((d.year : Int) - 1900 - 1 - 68).tdiv 4 = ((d.year : Int) - 1900 - 1 - 68) / 4 :=
    Int.tdiv_eq_ediv_of_nonneg (by omega)
  have h100 : ((d.year : Int) - 1900 - 1).tdiv 100 = ((d.year : Int) - 1900 - 1) / 100 :=
    Int.tdiv_eq_ediv_of_nonneg (by omega)
  have h400 : ((d.year : Int) - 1900 - 1 + 300).tdiv 400
      = ((d.year : Int) - 1900 - 1 + 300) / 400 := Int.tdiv_eq_ediv_of_nonneg (by omega)
  have hday := d.day_le.trans (monthLength_le d.year d.month)
  have hpos := d.day_pos
  -- The days, with the one of a leap year.
  obtain ⟨k, hk, hk0, hk1⟩ : ∃ k : Int,
      (if isLeap d.year && decide (2 < d.month) then 1 else 0) = k ∧ 0 ≤ k ∧ k ≤ 1 := by
    refine ⟨_, rfl, ?_⟩
    split_ifs <;> decide
  have hfinal : ∀ n : Int,
      (if isLeap d.year && decide (2 < d.month) then n + 1 else n) = n + k := by
    intro n
    rw [← hk]
    split_ifs
    · rfl
    · rw [Int.add_zero]
  rw [he, hk] at hmonths
  rw [h4, h100, h400] at hyears
  rw [h4, h100, h400, he]
  simp only [hfinal, Tm.of]
  by_cases hlt : d.dayNumber 1970 < 2 ^ 31
  · have hhour := t.hour.isLt
    have hminute := t.minute.isLt
    rw [if_pos hlt, ints_eq_some, Option.bind_some, ints_eq_some]
    rotate_left
    · simp only [List.forall_mem_cons, List.not_mem_nil, IsEmpty.forall_iff, implies_true, and_true,
        IsInt]
      omega
    · simp only [List.forall_mem_cons, List.not_mem_nil, IsEmpty.forall_iff, implies_true, and_true,
        IsInt]
      omega
    refine congrArg some ?_
    rw [TimeOfDay.seconds]
    omega
  · have hbig : ∀ n : Int, n = d.dayNumber 1970 → ¬IsInt n := by
      rintro n rfl ⟨-, hn⟩
      omega
    rw [if_neg hlt, Option.bind_eq_none_iff]
    intro days hdays
    rw [ints, Option.ite_none_right_eq_some] at hdays
    obtain ⟨-, hdays⟩ := hdays
    cases hdays
    exact ints_eq_none (List.mem_cons_self ..) (hbig _ (by omega)) _

/-! ### Round trip -/

section Scan

variable {s : List UInt8} {d : DateScan}

/-- Digits are taken into the value. -/
theorem scanDate_digits {ds : List UInt8} (h : ∀ c ∈ ds, isDigit c = true)
    (hlen : d.digits + ds.length ≤ 6) (i : Nat) (rest : List UInt8) :
    scanDate s i (ds ++ rest) d = scanDate s (i + ds.length) rest { d with
      digits := d.digits + ds.length
      value := ds.foldl (fun n c => n * 10 + (c.toNat - 0x30)) d.value } := by
  induction ds generalizing i d with
  | nil => rfl
  | cons c ds ih =>
    obtain ⟨hc, hds⟩ := List.forall_mem_cons.mp h
    rw [List.length_cons] at hlen
    have hnext : d.next s i c = some { d with
        digits := d.digits + 1, value := d.value * 10 + (c.toNat - 0x30) } := by
      rw [DateScan.next, if_pos hc, if_neg (by omega)]
    rw [List.cons_append, scanDate, hnext]
    dsimp only
    rw [ih hds (by dsimp only; omega)]
    simp only [List.length_cons, List.foldl_cons, Nat.add_assoc, Nat.add_comm 1]

theorem not_isDigit_of_isLetter {c : UInt8} (h : isLetter c = true) : isDigit c = false := by
  simp only [isLetter, isDigit, Bool.or_eq_true, Bool.and_eq_true, decide_eq_true_eq,
    UInt8.le_iff_toNat_le, Bool.and_eq_false_iff, decide_eq_false_iff_not] at h ⊢
  simp only [UInt8.reduceToNat] at h ⊢
  omega

theorem next_letter {c : UInt8} (h : isLetter c = true) (i : Nat) (d : DateScan) :
    d.next s i c
      = some { d with wordStart := some (d.wordStart.getD i), value := 0, digits := 0 } := by
  have hne : ∀ a, isLetter a = false → c ≠ a := by
    rintro a ha rfl
    rw [h] at ha
    cases ha
  rw [DateScan.next, not_isDigit_of_isLetter h, if_neg Bool.false_ne_true,
    if_neg (hne 0x3a (by decide)), if_neg (hne 0x20 (by decide)), if_neg (hne 0x2d (by decide)),
    if_pos h]

private theorem scanDate_inWord {w : List UInt8} (h : ∀ c ∈ w, isLetter c = true) (i k : Nat)
    (rest : List UInt8) (d : DateScan) :
    scanDate s i (w ++ rest) { d with wordStart := some k, value := 0, digits := 0 }
      = scanDate s (i + w.length) rest
        { d with wordStart := some k, value := 0, digits := 0 } := by
  induction w generalizing i with
  | nil => rfl
  | cons c w ih =>
    obtain ⟨hc, hw⟩ := List.forall_mem_cons.mp h
    rw [List.cons_append, scanDate, next_letter hc]
    dsimp only
    rw [Option.getD_some, ih hw, List.length_cons, Nat.add_assoc, Nat.add_comm 1]

/-- Letters are a word. -/
theorem scanDate_letters {w : List UInt8} (h : ∀ c ∈ w, isLetter c = true) (hne : w ≠ [])
    (hd : d.wordStart = none) (i : Nat) (rest : List UInt8) :
    scanDate s i (w ++ rest) d = scanDate s (i + w.length) rest
      { d with wordStart := some i, value := 0, digits := 0 } := by
  obtain ⟨c, w, rfl⟩ := List.exists_cons_of_ne_nil hne
  obtain ⟨hc, hw⟩ := List.forall_mem_cons.mp h
  rw [List.cons_append, scanDate, next_letter hc, hd, Option.getD_none]
  dsimp only
  rw [scanDate_inWord hw, List.length_cons, Nat.add_assoc, Nat.add_comm 1]

/-- A number that is written with six digits at most. -/
structure IsNumber (ds : List UInt8) (n : Nat) : Prop where
  digits : ∀ c ∈ ds, isDigit c = true
  length_pos : 0 < ds.length
  length_le : ds.length ≤ 6
  value : ds.foldl (fun n c => n * 10 + (c.toNat - 0x30)) 0 = n

theorem scanDate_number {ds : List UInt8} {n : Nat} (h : IsNumber ds n) (hdigits : d.digits = 0)
    (hvalue : d.value = 0) (i : Nat) (rest : List UInt8) :
    scanDate s i (ds ++ rest) d
      = scanDate s (i + ds.length) rest { d with digits := ds.length, value := n } := by
  have hle := h.length_le
  rw [scanDate_digits h.digits (by omega), hdigits, hvalue, h.value, Nat.zero_add]

theorem scanDate_cons {i : Nat} {c : UInt8} {d' : DateScan} (h : d.next s i c = some d')
    (rest : List UInt8) : scanDate s i (c :: rest) d = scanDate s (i + 1) rest d' := by
  rw [scanDate, h]

theorem next_comma (i : Nat) :
    d.next s i 0x2c = some { d with wordStart := none, value := 0, digits := 0 } := rfl

theorem next_blank (hdigits : d.digits = 0) (hword : d.wordStart = none) (i : Nat) :
    d.next s i 0x20 = some d := by
  change (if d.digits ≠ 0 then _ else _) = _
  rw [if_neg (not_not_intro hdigits), hword]

variable {year mday month value digits : Nat} {hms : List Nat} {word : Option Nat}

theorem next_mday (hdigits : digits ≠ 0) (i : Nat) :
    DateScan.next s i 0x20 ⟨year, 0, month, value, digits, [], word⟩
      = some ⟨year, value, month, 0, 0, [], word⟩ := by
  change (if digits ≠ 0 then _ else _) = _
  rw [if_pos hdigits]
  rfl

theorem next_year (hdigits : digits ≠ 0) (hmday : mday ≠ 0) (i : Nat) :
    DateScan.next s i 0x20 ⟨0, mday, month + 1, value, digits, [], word⟩
      = some ⟨value, mday, month + 1, 0, 0, [], word⟩ := by
  change (if digits ≠ 0 then (if (0 : Nat) = 2 then _ else if mday = 0 then _ else _) else _) = _
  rw [if_pos hdigits, if_neg (by decide), if_neg hmday]
  exact if_pos ⟨rfl, month.succ_ne_zero⟩

theorem next_month {w m i : Nat} (hm : findMonth ((s.drop w).take (i - w)) = some m) :
    DateScan.next s i 0x20 ⟨year, mday, 0, value, 0, hms, some w⟩
      = some ⟨year, mday, m + 1, value, 0, hms, none⟩ := by
  change (match findMonth ((s.drop w).take (i - w)) with
    | none => _
    | some m => if (0 : Nat) ≠ 0 then none else some _) = _
  rw [hm]
  rfl

theorem next_colon (hdigits : digits ≠ 0) (hlen : hms.length < 2) (i : Nat) :
    DateScan.next s i 0x3a ⟨year, mday, month, value, digits, hms, word⟩
      = some ⟨year, mday, month, 0, 0, hms ++ [value], word⟩ := by
  change (if digits = 0 then _ else if 2 ≤ hms.length then _ else _) = _
  rw [if_neg hdigits, if_neg (Nat.not_le.mpr hlen)]

theorem next_sec {h m : Nat} (hdigits : digits ≠ 0) (i : Nat) :
    DateScan.next s i 0x20 ⟨year, mday, month, value, digits, [h, m], word⟩
      = some ⟨year, mday, month, 0, 0, [h, m, value], word⟩ := by
  change (if digits ≠ 0 then _ else _) = _
  rw [if_pos hdigits]
  rfl

/-- What the parser has found in a text of the form that is printed. -/
theorem scanDate_text {w day mon year hour min sec zone : List UInt8} {D m Y H M S : Nat}
    (hw : ∀ c ∈ w, isLetter c = true) (hwne : w ≠ []) (hday : IsNumber day D) (hD : D ≠ 0)
    (hmon : ∀ c ∈ mon, isLetter c = true) (hmonne : mon ≠ []) (hm : findMonth mon = some m)
    (hyear : IsNumber year Y) (hhour : IsNumber hour H) (hmin : IsNumber min M)
    (hsec : IsNumber sec S) (hzone : ∀ c ∈ zone, isLetter c = true) (hzonene : zone ≠ [])
    (hs : s = w ++ (0x2c :: 0x20 :: (day ++ 0x20 :: (mon ++ 0x20 :: (year ++ 0x20 ::
      (hour ++ 0x3a :: (min ++ 0x3a :: (sec ++ 0x20 :: zone)))))))) :
    ∃ k, scanDate s 0 s ⟨0, 0, 0, 0, 0, [], none⟩ = some ⟨Y, D, m + 1, 0, 0, [H, M, S], k⟩ := by
  obtain ⟨i, hi⟩ : ∃ i, 0 + w.length + 1 + 1 + day.length + 1 = i := ⟨_, rfl⟩
  have hmonth : findMonth ((s.drop i).take (i + mon.length - i)) = some m := by
    have hfront : (w ++ 0x2c :: 0x20 :: (day ++ [0x20])).length = i := by
      rw [← hi]
      simp only [List.length_append, List.length_cons, List.length_nil]
      omega
    have hsplit : s = (w ++ 0x2c :: 0x20 :: (day ++ [0x20])) ++ (mon ++ 0x20 :: (year ++ 0x20 ::
        (hour ++ 0x3a :: (min ++ 0x3a :: (sec ++ 0x20 :: zone))))) := by
      rw [hs]
      simp only [List.append_assoc, List.cons_append, List.nil_append]
    rw [Nat.add_sub_cancel_left, hsplit, List.drop_left' hfront, List.take_left, hm]
  conv => enter [1, k, 1, 3]; rw [hs]
  -- The day.
  rw [scanDate_letters hw hwne rfl, scanDate_cons (next_comma _),
    scanDate_cons (next_blank rfl rfl _), scanDate_number hday rfl rfl]
  dsimp only
  rw [scanDate_cons (next_mday hday.length_pos.ne' _), hi]
  -- The month and the year.
  rw [scanDate_letters hmon hmonne rfl, scanDate_cons (next_month hmonth),
    scanDate_number hyear rfl rfl]
  dsimp only
  rw [scanDate_cons (next_year hyear.length_pos.ne' hD _)]
  -- The time.
  have hnone : ([] : List Nat).length < 2 := by decide
  have hone : [H].length < 2 := Nat.one_lt_two
  rw [scanDate_number hhour rfl rfl]
  dsimp only
  rw [scanDate_cons (next_colon hhour.length_pos.ne' hnone _),
    scanDate_number hmin rfl rfl]
  dsimp only
  rw [List.nil_append, scanDate_cons (next_colon hmin.length_pos.ne' hone _),
    scanDate_number hsec rfl rfl]
  dsimp only
  rw [List.singleton_append, scanDate_cons (next_sec hsec.length_pos.ne' _)]
  -- The zone is a word.
  rw [← List.append_nil zone, scanDate_letters hzone hzonene rfl]
  exact ⟨_, rfl⟩

end Scan

private theorem digitsValue_eq {s : List UInt8} (h : ∀ c ∈ s, isDigit c = true) :
    digitsValue s = s.foldl (fun n c => n * 10 + (c.toNat - 0x30)) 0 := by
  have hall : s.takeWhile (fun c => 0x30 ≤ c && c ≤ 0x39) = s :=
    List.takeWhile_eq_self_iff.mpr h
  rw [digitsValue, hall]

theorem isNumber_natToString {n : Nat} (h : n < 10 ^ 6) : IsNumber (natToString n) n := by
  have hdigits : ∀ c ∈ natToString n, isDigit c = true := by
    intro c hc
    obtain ⟨hlow, hhigh⟩ := digit_of_mem_natToString hc
    rw [isDigit, decide_eq_true hlow, decide_eq_true hhigh, Bool.and_self]
  refine ⟨hdigits, List.length_pos_of_ne_nil (natToString_ne_nil n), ?_, ?_⟩
  · rw [natToString, List.length_map]
    exact (Nat.length_toDigits_le_iff (by decide) (by decide)).mpr h
  · rw [← digitsValue_eq hdigits]
    have hvalue := digitsValue_natToString_append n (s := []) (by simp)
    rwa [List.append_nil] at hvalue

/-- Zeros in front do not count. -/
theorem isNumber_zeroPad {n k : Nat} (h : n < 10 ^ 6) (hk : k ≤ 6) :
    IsNumber (zeroPad k (natToString n)) n := by
  have hn := isNumber_natToString h
  have hpos := hn.length_pos
  have hle := hn.length_le
  have hzeros : ∀ k, (List.replicate k (0x30 : UInt8)).foldl
      (fun n c => n * 10 + (c.toNat - 0x30)) 0 = 0 := by
    intro k
    induction k with
    | zero => rfl
    | succ k ih => rw [List.replicate_succ, List.foldl_cons]; exact ih
  refine ⟨fun c hc => ?_, ?_, ?_, ?_⟩
  · rcases List.mem_append.mp hc with hc | hc
    · rw [List.eq_of_mem_replicate hc]
      rfl
    · exact hn.digits c hc
  · rw [zeroPad, List.length_append, List.length_replicate]
    omega
  · rw [zeroPad, List.length_append, List.length_replicate]
    omega
  · rw [zeroPad, List.foldl_append, hzeros, hn.value]

private theorem strMonth_eq : strMonth =
    [[0x4a, 0x61, 0x6e], [0x46, 0x65, 0x62], [0x4d, 0x61, 0x72], [0x41, 0x70, 0x72], [0x4d, 0x61,
    0x79], [0x4a, 0x75, 0x6e], [0x4a, 0x75, 0x6c], [0x41, 0x75, 0x67], [0x53, 0x65, 0x70], [0x4f,
    0x63, 0x74], [0x4e, 0x6f, 0x76], [0x44, 0x65, 0x63]] := by
  simp [strMonth, ascii, Char.toUInt8]

private theorem strWeekDay_eq : strWeekDay =
    [[0x53, 0x75, 0x6e], [0x4d, 0x6f, 0x6e], [0x54, 0x75, 0x65], [0x57, 0x65, 0x64], [0x54, 0x68,
    0x75], [0x46, 0x72, 0x69], [0x53, 0x61, 0x74]] := by
  simp [strWeekDay, ascii, Char.toUInt8]

private theorem month_word {m : Nat} (h : m < 12) :
    (∀ c ∈ strMonth.getD m [], isLetter c = true) ∧ strMonth.getD m [] ≠ [] ∧
      findMonth (strMonth.getD m []) = some m := by
  unfold findMonth
  rw [strMonth_eq, ← List.all_eq_true]
  interval_cases m <;> exact ⟨rfl, List.cons_ne_nil _ _, rfl⟩

private theorem weekDay_word {n : Nat} (h : n < 7) :
    (∀ c ∈ strWeekDay.getD n [], isLetter c = true) ∧ strWeekDay.getD n [] ≠ [] := by
  rw [strWeekDay_eq, ← List.all_eq_true]
  interval_cases n <;> exact ⟨rfl, List.cons_ne_nil _ _⟩

/-- What is printed of a date and a time. -/
theorem printTm_of (d : Date) (t : TimeOfDay) :
    printTm (Tm.of d t) = strWeekDay.getD ((d.dayNumber 1970 + 4) % 7) [] ++
      (0x2c :: 0x20 :: (zeroPad 2 (natToString d.day) ++ 0x20 ::
      (strMonth.getD (d.month - 1) [] ++ 0x20 :: (natToString d.year ++ 0x20 ::
      (zeroPad 2 (natToString t.hour) ++ 0x3a :: (zeroPad 2 (natToString t.minute) ++ 0x3a ::
      (zeroPad 2 (natToString t.second) ++ 0x20 :: ascii "GMT"))))))) := by
  have hpos := d.month_pos
  have hle := d.month_le
  have hpad : ∀ n : Nat, formatWidth2 n = zeroPad 2 (natToString n) ∧
      formatPrecision2 n = zeroPad 2 (natToString n) := fun n =>
    ⟨if_neg (by omega), if_neg (by omega)⟩
  have hyear : intToString ((Tm.of d t).year + 1900) = natToString d.year := by
    rw [Tm.of, Int.sub_add_cancel]
    exact if_neg (by omega)
  obtain ⟨hweek, hweekDay⟩ : (Tm.of d t).wday.toNat = (d.dayNumber 1970 + 4) % 7 ∧
      ¬((Tm.of d t).wday < 0 ∨ 6 < (Tm.of d t).wday) := by
    simp only [Tm.of]
    omega
  obtain ⟨hmonth, hmon⟩ : (Tm.of d t).mon.toNat = d.month - 1 ∧
      ¬((Tm.of d t).mon < 0 ∨ 11 < (Tm.of d t).mon) := by
    simp only [Tm.of]
    omega
  have hcomma : ascii ", " = [0x2c, 0x20] := by decide
  have hblank : ascii " " = [0x20] := by decide
  have hcolon : ascii ":" = [0x3a] := by decide
  have hzone : ascii " GMT" = 0x20 :: ascii "GMT" := by decide
  unfold printTm
  dsimp only
  rw [if_neg hweekDay, if_neg hmon, hmonth, hweek, hyear, Tm.of]
  simp only [(hpad _).1, (hpad _).2, hcomma, hblank, hcolon, hzone, List.append_assoc,
    List.cons_append, List.nil_append]

theorem finish_of {d : Date} (hd : 1970 ≤ d.year) (t : TimeOfDay) (k : Option Nat) :
    DateScan.finish ⟨d.year, d.day, d.month - 1 + 1, 0, 0, [t.hour, t.minute, t.second], k⟩
      = (gmtToUnixTime (Tm.of d t)).map fun result => if 0 ≤ result then some result else none := by
  have hpos := d.month_pos
  have hle := d.month_le
  have hdpos := d.day_pos
  have hday := d.day_le.trans (monthLength_le d.year d.month)
  have hhour := t.hour.isLt
  have hminute := t.minute.isLt
  have hsecond := t.second.isLt
  rw [DateScan.finish]
  simp only [ne_eq, not_true_eq_false, false_and, if_false]
  rw [if_pos ⟨hdpos.ne', Nat.succ_ne_zero _, by omega, by omega, by omega, by omega, by omega,
    by omega⟩, if_neg (by omega)]
  have hmonth : ((d.month - 1 + 1 : Nat) : Int) - 1 = (d.month : Int) - 1 := by omega
  rw [hmonth]
  rfl

/-! ### The time -/

/-- A time that is printed and read again. -/
def RoundTrips (t : Nat) : Prop :=
  ∃ s, printDateTime t = some s ∧ parseDateTime s = some (some (t : Int))

/-- The seconds of a date and a time since the first day. -/
def CountsSeconds (d : Date) (t : TimeOfDay) : Prop :=
  gmtToUnixTime (Tm.of d t) = some ((86400 * d.dayNumber 1970 + t.seconds : Nat) : Int)

theorem yearsLength_end : yearsLength 1970 10000 = 2932897 := by
  have hfirst : 1970 ≤ 10000 := by decide
  have h := yearsLength_eq hfirst
  have hvalue : 365 * (((10000 : Nat) : Int) - 1900 - 70)
      + (((((10000 : Nat) : Int) - 1900 - 1 - 68).tdiv 4
        - (((10000 : Nat) : Int) - 1900 - 1).tdiv 100)
        + (((10000 : Nat) : Int) - 1900 - 1 + 300).tdiv 400) = 2932897 := by decide
  rw [hvalue] at h
  exact Int.ofNat.inj h

/-- The days of so many years are no `int`. -/
theorem two_pow_le_yearsLength {year : Nat} (h : 6000000 ≤ year) :
    2 ^ 31 ≤ yearsLength 1970 year := by
  have hyears := yearsLength_eq ((by decide : 1970 ≤ 6000000).trans h)
  rw [Int.tdiv_eq_ediv_of_nonneg (by omega), Int.tdiv_eq_ediv_of_nonneg (by omega),
    Int.tdiv_eq_ediv_of_nonneg (by omega)] at hyears
  omega

/-- A time up to the end of the year 9999 is read as it was printed. -/
theorem roundTrips {t : Nat} (h : t < 86400 * yearsLength 1970 10000) : RoundTrips t := by
  obtain ⟨d, hd⟩ : ∃ d, (Date.newYear 1970).after (t / 86400) = d := ⟨_, rfl⟩
  have hnumber : d.dayNumber 1970 = t / 86400 := by
    rw [← hd]
    exact Date.dayNumber_newYear_after 1970 _
  have hfirst : 1970 ≤ d.year := by
    rw [← hd]
    exact Date.year_le_after (Date.newYear 1970) _
  have hlast : d.year < 10000 := by
    have hlt : d.dayNumber 1970 < yearsLength 1970 10000 := by
      rw [hnumber]
      omega
    exact Date.year_lt_of_dayNumber_lt hlt
  have hseconds := TimeOfDay.seconds_ofSeconds t
  obtain ⟨tod, htod⟩ : ∃ tod, TimeOfDay.ofSeconds t = tod := ⟨_, rfl⟩
  rw [htod] at hseconds
  have hyear : (Tm.of d tod).year = d.year - 1900 := rfl
  have htm : gmtime t = some (Tm.of d tod) := by
    rw [gmtime, hd, htod]
    exact if_pos (by omega)
  refine ⟨printTm (Tm.of d tod), ?_, ?_⟩
  · rw [printDateTime, htm]
    refine ints_eq_some (fun n hn => ?_) _
    rw [List.mem_singleton.mp hn, hyear, IsInt]
    omega
  · have hmonth_pos := d.month_pos
    have hmonth_le := d.month_le
    have hday_pos := d.day_pos
    have hday := d.day_le.trans (monthLength_le d.year d.month)
    obtain ⟨hmon, hmonne, hfind⟩ := month_word (m := d.month - 1) (by omega)
    obtain ⟨hweek, hweekne⟩ := weekDay_word (Nat.mod_lt (d.dayNumber 1970 + 4) (y := 7) (by decide))
    have hzone : ∀ c ∈ ascii "GMT", isLetter c = true := List.all_eq_true.mp rfl
    obtain ⟨k, hscan⟩ := scanDate_text hweek hweekne (isNumber_zeroPad (by omega) (by decide))
      hday_pos.ne' hmon hmonne hfind (isNumber_natToString (by omega))
      (isNumber_zeroPad (tod.hour.isLt.trans (by decide)) (by decide))
      (isNumber_zeroPad (tod.minute.isLt.trans (by decide)) (by decide))
      (isNumber_zeroPad (tod.second.isLt.trans (by decide)) (by decide)) hzone (by decide)
      (printTm_of d tod)
    rw [parseDateTime, hscan]
    dsimp only
    have hdays : d.dayNumber 1970 < 2 ^ 31 := by
      rw [hnumber]
      rw [yearsLength_end] at h
      omega
    rw [finish_of hfirst, gmtToUnixTime_of hfirst, if_pos hdays, Option.map_some, hnumber,
      hseconds, Nat.div_add_mod, if_pos (Int.natCast_nonneg t)]

end Blacklink.Http
