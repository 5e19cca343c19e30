import Arth.Lib.Decimal
import Arth.Lib.Separated

/-!
# Dates and times

* `millisToYmd`, `datetimeFormat` — a number of milliseconds as a date, and as a text.
* `ymdHmsToMillis`, `datetimeParse` — the other direction.
* `findYear_spec`, `findMonth_spec` — what the loops over years and months subtract.
* `roundtrip` — dates are mapped back to their milliseconds, negative ones included.
* `calendar_iff` — which dates are valid, which texts are read back and which are rejected.
-/

namespace Arth.DateTime

open Decimal Separated List Option

abbrev Text := List Char

/-! ## The calendar -/

def isLeapYear (year : ℤ) : Bool := year % 4 = 0 ∧ year % 100 ≠ 0 ∨ year % 400 = 0

def daysInYear (year : ℤ) : ℤ := if isLeapYear year then 366 else 365

def daysInMonths (year : ℤ) : List ℤ :=
  if isLeapYear year then [31, 29, 31, 30, 31, 30, 31, 31, 30, 31, 30, 31]
  else [31, 28, 31, 30, 31, 30, 31, 31, 30, 31, 30, 31]

theorem daysInYear_pos (year : ℤ) : 0 < daysInYear year := by
  unfold daysInYear
  split <;> omega

theorem sum_daysInMonths (year : ℤ) : (daysInMonths year).sum = daysInYear year := by
  unfold daysInMonths daysInYear
  split <;> rfl

theorem length_daysInMonths (year : ℤ) : (daysInMonths year).length = 12 := by
  unfold daysInMonths
  split <;> rfl

/-- A date of the Gregorian calendar. -/
def ValidDate (year month day : ℤ) : Prop :=
  1 ≤ month ∧ month ≤ 12 ∧ 1 ≤ day ∧
    ∀ d, (daysInMonths year)[(month - 1).toNat]? = some d → day ≤ d

/-- The loop over the years: the year, and the days that remain. -/
def findYear (remaining year : ℤ) : ℤ × ℤ :=
  if remaining < daysInYear year then (year, remaining)
  else findYear (remaining - daysInYear year) (year + 1)
termination_by remaining.toNat
decreasing_by
  have := daysInYear_pos year
  omega

/-- The loop over the months. -/
def findMonth : List ℤ → ℤ → ℤ → ℤ × ℤ
  | [], remaining, month => (month, remaining)
  | d :: ds, remaining, month =>
    if remaining < d then (month, remaining) else findMonth ds (remaining - d) (month + 1)

/-- The divisions of `i64` round towards zero. -/
def millisToYmd (millis : ℤ) : ℤ × ℤ × ℤ :=
  let days := (millis.tdiv 1000).tdiv 86400
  let (year, remaining) := findYear days 1970
  let (month, remaining) := findMonth (daysInMonths year) remaining 1
  (year, month, remaining + 1)

structure Fields where
  year : ℤ
  month : ℤ
  day : ℤ
  hour : ℤ
  minute : ℤ
  second : ℤ

/-- The numbers that `datetime_format` prints. -/
def fieldsOf (millis : ℤ) : Fields :=
  let (year, month, day) := millisToYmd millis
  let secs := millis.tdiv 1000
  { year, month, day
    hour := (secs.tmod 86400).tdiv 3600
    minute := (secs.tmod 3600).tdiv 60
    second := secs.tmod 60 }

def Fields.dateText (d : Fields) : Text :=
  pad 4 d.year ++ '-' :: (pad 2 d.month ++ '-' :: pad 2 d.day)

def Fields.timeText (d : Fields) : Text :=
  pad 2 d.hour ++ ':' :: (pad 2 d.minute ++ ':' :: pad 2 d.second)

/-- `datetime_format`, which does not look at the format. -/
def datetimeFormat (millis : Int64) (_format : Text) : Text :=
  let d := fieldsOf millis.toInt
  d.dateText ++ 'T' :: (d.timeText ++ ['Z'])

/-! ## To milliseconds -/

/-- The days of the years from 1970 on, before the given one. -/
def daysBeforeYear (year : ℤ) : ℤ :=
  ((List.range (year - 1970).toNat).map fun k : ℕ => daysInYear (1970 + k)).sum

def daysBeforeMonth (year month : ℤ) : ℤ := ((daysInMonths year).take (month - 1).toNat).sum

/-- The values of `i64`. -/
def Fits (z : ℤ) : Prop := -2 ^ 63 ≤ z ∧ z < 2 ^ 63

instance (z : ℤ) : Decidable (Fits z) := inferInstanceAs (Decidable (_ ∧ _))

/-- The sum before it is brought into the range of `i64`. -/
def Fields.millis (d : Fields) : ℤ :=
  let days := daysBeforeYear d.year + daysBeforeMonth d.year d.month + (d.day - 1)
  (days * 86400 + d.hour * 3600 + d.minute * 60 + d.second) * 1000

/-- `ymd_hms_to_millis`. An overflow panics if it is checked, and wraps otherwise. -/
def ymdHmsToMillis (checks : Bool) (d : Fields) : Option ℤ :=
  if Fits d.millis then some d.millis
  else if checks then none else some (d.millis.bmod (2 ^ 64))

/-- `parse::<i64>().unwrap_or(-1)` -/
def parseField (s : Text) : ℤ :=
  match ofText s with
  | some z => if Fits z then z else -1
  | none => -1

def trimEnd (c : Char) (s : Text) : Text := (s.reverse.dropWhile (· = c)).reverse

/-- The six numbers of a text that has the separators in their places. -/
def parseFields (input : Text) : Option Fields :=
  match split 'T' input with
  | [date, time] =>
    match split '-' date, split ':' (trimEnd 'Z' time) with
    | [year, month, day], [hour, minute, second] =>
      some ⟨parseField year, parseField month, parseField day, parseField hour,
        parseField minute, parseField second⟩
    | _, _ => none
  | _ => none

/-- The ranges that `datetime_parse` checks. -/
def Fields.inRange (d : Fields) : Bool :=
  0 ≤ d.year ∧ 1 ≤ d.month ∧ d.month ≤ 12 ∧ 1 ≤ d.day ∧ d.day ≤ 31 ∧
    0 ≤ d.hour ∧ d.hour ≤ 23 ∧ 0 ≤ d.minute ∧ d.minute ≤ 59 ∧ 0 ≤ d.second ∧ d.second ≤ 59

/-- `datetime_parse`, with -1 for what it rejects. -/
def datetimeParse (checks : Bool) (_format input : Text) : Option ℤ :=
  match parseFields input with
  | some d => if d.inRange then ymdHmsToMillis checks d else some (-1)
  | none => some (-1)

variable {year b z : ℤ}

theorem daysBeforeYear_succ (h : 1970 ≤ year) :
    daysBeforeYear (year + 1) = daysBeforeYear year + daysInYear year := by
  unfold daysBeforeYear
  have hlen : (year + 1 - 1970).toNat = (year - 1970).toNat + 1 := by omega
  have hlast : (1970 : ℤ) + ((year - 1970).toNat : ℤ) = year := by omega
  rw [hlen, range_succ, map_append, sum_append, map_singleton, sum_singleton, hlast]

theorem daysBeforeYear_start : daysBeforeYear 1970 = 0 := rfl

/-- **What the loop over the years keeps**: the days before the year and the rest are the days
it was given. -/
theorem findYear_spec (remaining year : ℤ) (hyear : 1970 ≤ year) :
    year ≤ (findYear remaining year).1 ∧
    daysBeforeYear (findYear remaining year).1 + (findYear remaining year).2 =
      daysBeforeYear year + remaining ∧
    (findYear remaining year).2 < daysInYear (findYear remaining year).1 ∧
    (0 ≤ remaining → 0 ≤ (findYear remaining year).2) ∧
    (remaining < 0 → findYear remaining year = (year, remaining)) ∧
    (findYear remaining year).1 ≤ year + max remaining 0 := by
  induction remaining, year using findYear.induct with
  | case1 remaining year hlt =>
    rw [findYear, if_pos hlt]
    exact ⟨le_rfl, rfl, hlt, id, fun _ => rfl, by omega⟩
  | case2 remaining year hnot ih =>
    have hpos := daysInYear_pos year
    obtain ⟨hle, hsum, hlt, hnonneg, -, hbound⟩ := ih (by omega)
    rw [findYear, if_neg hnot]
    rw [daysBeforeYear_succ hyear] at hsum
    refine ⟨by omega, by omega, hlt, fun _ => hnonneg (by omega), fun _ => by omega, by omega⟩

/-- **What the loop over the months keeps.** -/
theorem findMonth_spec (ds : List ℤ) (remaining month : ℤ) (hpos : ∀ d ∈ ds, 0 < d)
    (hlt : remaining < ds.sum ∨ remaining < 0) (hne : ds ≠ []) :
    ∃ k : ℕ, ∃ d, ds[k]? = some d ∧ (findMonth ds remaining month).1 = month + k ∧
      (ds.take k).sum + (findMonth ds remaining month).2 = remaining ∧
      (findMonth ds remaining month).2 < d ∧
      (0 ≤ remaining ↔ 0 ≤ (findMonth ds remaining month).2) := by
  induction ds generalizing remaining month with
  | nil => exact absurd rfl hne
  | cons d ds ih =>
    have hd := hpos d mem_cons_self
    unfold findMonth
    split_ifs with hless
    · exact ⟨0, d, by simp, by simp, by simp, hless, Iff.rfl⟩
    · have hrest : remaining - d < ds.sum := by
        rw [sum_cons] at hlt
        omega
      have hne' : ds ≠ [] := by
        rintro rfl
        rw [sum_nil] at hrest
        omega
      obtain ⟨k, d', hget, hmonth, hsum, hlast, hnonneg⟩ := ih (remaining - d) (month + 1)
        (fun x hx => hpos x (mem_cons_of_mem _ hx)) (.inl hrest) hne'
      refine ⟨k + 1, d', by simpa using hget, ?_, ?_, hlast, ?_⟩
      · omega
      · rw [take_succ_cons, sum_cons]
        omega
      · omega

/-! ## One date -/

theorem tdiv_spec (a : ℤ) (hb : 0 < b) : a = b * a.tdiv b + a.tmod b ∧
    -b < a.tmod b ∧ a.tmod b < b ∧ (0 ≤ a → 0 ≤ a.tmod b) ∧ (a ≤ 0 → a.tmod b ≤ 0) := by
  have hneg : ∀ c : ℤ, c ≤ 0 → c.tmod b ≤ 0 ∧ -b < c.tmod b := by
    intro c hc
    have hlow := Int.tmod_nonneg b (show 0 ≤ -c by omega)
    have hhigh := Int.tmod_lt_of_pos (-c) hb
    rw [Int.neg_tmod] at hlow hhigh
    omega
  refine ⟨(Int.mul_tdiv_add_tmod a b).symm, ?_, Int.tmod_lt_of_pos a hb, Int.tmod_nonneg b,
    fun h => (hneg a h).1⟩
  rcases le_total 0 a with h | h
  · have := Int.tmod_nonneg b h
    omega
  · exact (hneg a h).2

/-- The days since 1970 that the code counts, rounded towards zero. -/
def daysOf (millis : ℤ) : ℤ := (millis.tdiv 1000).tdiv 86400

theorem daysInMonths_pos (year : ℤ) : ∀ d ∈ daysInMonths year, 0 < d := by
  unfold daysInMonths
  split <;> decide

/-- **The date of a number of milliseconds.** -/
theorem fieldsOf_date (millis : ℤ) :
    1970 ≤ (fieldsOf millis).year ∧ (fieldsOf millis).year ≤ 1970 + max (daysOf millis) 0 ∧
    (∃ k : ℕ, ∃ d, (daysInMonths (fieldsOf millis).year)[k]? = some d ∧
      (fieldsOf millis).month = 1 + k ∧ (fieldsOf millis).day ≤ d) ∧
    daysBeforeYear (fieldsOf millis).year +
      daysBeforeMonth (fieldsOf millis).year (fieldsOf millis).month +
      ((fieldsOf millis).day - 1) = daysOf millis ∧
    (0 ≤ daysOf millis ↔ 1 ≤ (fieldsOf millis).day) := by
  obtain ⟨hle, hsum, hlt, hnonneg, hneg, hbound⟩ := findYear_spec (daysOf millis) 1970 le_rfl
  have hyear : (fieldsOf millis).year = (findYear (daysOf millis) 1970).1 := rfl
  set y := (findYear (daysOf millis) 1970).1 with hy
  set r := (findYear (daysOf millis) 1970).2 with hr
  have hmonth : (fieldsOf millis).month = (findMonth (daysInMonths y) r 1).1 := rfl
  have hday : (fieldsOf millis).day = (findMonth (daysInMonths y) r 1).2 + 1 := rfl
  have hne : daysInMonths y ≠ [] := by
    intro h
    have := length_daysInMonths y
    rw [h] at this
    cases this
  have hless : r < (daysInMonths y).sum := by rwa [sum_daysInMonths]
  obtain ⟨k, d, hget, hk, hrest, hlast, hsign⟩ :=
    findMonth_spec (daysInMonths y) r 1 (daysInMonths_pos y) (.inl hless) hne
  have hremain : 0 ≤ daysOf millis ↔ 0 ≤ r := by
    constructor
    · exact hnonneg
    · intro hpos
      by_contra hnot
      have heq := congrArg Prod.snd (hneg (by omega))
      omega
  rw [hyear, hmonth, hday]
  refine ⟨hle, hbound, ⟨k, d, hget, hk, by omega⟩, ?_, by omega⟩
  have hbefore : daysBeforeMonth y (findMonth (daysInMonths y) r 1).1 =
      ((daysInMonths y).take k).sum := by
    unfold daysBeforeMonth
    congr 2
    omega
  rw [daysBeforeYear_start] at hsum
  omega

theorem fieldsOf_time (millis : ℤ) :
    daysOf millis * 86400 + (fieldsOf millis).hour * 3600 + (fieldsOf millis).minute * 60 +
      (fieldsOf millis).second = millis.tdiv 1000 := by
  show (millis.tdiv 1000).tdiv 86400 * 86400 + ((millis.tdiv 1000).tmod 86400).tdiv 3600 * 3600 +
    ((millis.tdiv 1000).tmod 3600).tdiv 60 * 60 + (millis.tdiv 1000).tmod 60 = _
  set secs := millis.tdiv 1000
  have hday := tdiv_spec secs (b := 86400) (by omega)
  have hhour := tdiv_spec (secs.tmod 86400) (b := 3600) (by omega)
  have hminute := tdiv_spec (secs.tmod 3600) (b := 60) (by omega)
  have h3600 : (secs.tmod 86400).tmod 3600 = secs.tmod 3600 :=
    Int.tmod_tmod_of_dvd secs (by decide)
  have h60 : (secs.tmod 3600).tmod 60 = secs.tmod 60 := Int.tmod_tmod_of_dvd secs (by decide)
  omega

theorem millis_fieldsOf (millis : ℤ) : (fieldsOf millis).millis = millis.tdiv 1000 * 1000 := by
  have htime := fieldsOf_time millis
  have hdate := (fieldsOf_date millis).2.2.2.1
  unfold Fields.millis
  simp only [hdate]
  omega

/-- **Dates are mapped back.** -/
theorem roundtrip (checks : Bool) (millis : Int64) :
    ymdHmsToMillis checks (fieldsOf millis.toInt) = some (millis.toInt.tdiv 1000 * 1000) := by
  have hlow := millis.le_toInt
  have hhigh := millis.toInt_lt
  unfold ymdHmsToMillis
  have hsecs := tdiv_spec millis.toInt (b := 1000) (by omega)
  rw [millis_fieldsOf, if_pos]
  unfold Fits
  omega

theorem validDate_iff (millis : ℤ) :
    ValidDate (fieldsOf millis).year (fieldsOf millis).month (fieldsOf millis).day ↔
      -86400000 < millis := by
  obtain ⟨-, -, ⟨k, d, hget, hmonth, hday⟩, -, hpos⟩ := fieldsOf_date millis
  have hk : k < 12 := by
    have := (List.getElem?_eq_some_iff.1 hget).1
    rwa [length_daysInMonths] at this
  have hindex : ((fieldsOf millis).month - 1).toNat = k := by omega
  have hdays : 0 ≤ daysOf millis ↔ -86400000 < millis := by
    have hsecs := tdiv_spec millis (b := 1000) (by omega)
    have hday := tdiv_spec (millis.tdiv 1000) (b := 86400) (by omega)
    unfold daysOf
    omega
  rw [← hdays, hpos]
  constructor
  · intro h
    exact h.2.2.1
  · intro h
    refine ⟨by omega, by omega, h, fun d' hd' => ?_⟩
    rw [hindex, hget] at hd'
    cases hd'
    exact hday

/-! ## One text -/

variable {c : Char} {d : Fields}

theorem not_mem_pad (hdigit : c.isDigit = false) (hminus : c ≠ '-') (w : ℕ) (z : ℤ) :
    c ∉ pad w z := by
  intro hc
  rcases isDigit_or_minus_of_mem_pad hc with h | h
  · rw [hdigit] at h
    cases h
  · exact hminus h

theorem minus_not_mem_pad (w : ℕ) (hz : 0 ≤ z) : '-' ∉ pad w z := by
  intro hc
  exact absurd (isDigit_pad w hz '-' hc) (by decide)

theorem not_mem_dateText (hdigit : c.isDigit = false) (hminus : c ≠ '-') (d : Fields) :
    c ∉ d.dateText := by
  simp [Fields.dateText, not_mem_pad hdigit hminus, hminus]

theorem not_mem_timeText (hdigit : c.isDigit = false) (hminus : c ≠ '-')
    (hcolon : c ≠ ':') (d : Fields) : c ∉ d.timeText := by
  simp [Fields.timeText, not_mem_pad hdigit hminus, hcolon]

theorem trimEnd_append {s : Text} (h : c ∉ s) : trimEnd c (s ++ [c]) = s := by
  have hdrop : s.reverse.dropWhile (· = c) = s.reverse := by
    cases hs : s.reverse with
    | nil => rfl
    | cons x t =>
      have hx : x ≠ c := by
        rintro rfl
        exact h (mem_reverse.1 (hs ▸ mem_cons_self))
      simp [hx]
  unfold trimEnd
  rw [reverse_append, reverse_singleton, singleton_append,
    dropWhile_cons_of_pos (by simp), hdrop, reverse_reverse]

theorem split_timeText (d : Fields) :
    split ':' d.timeText = [pad 2 d.hour, pad 2 d.minute, pad 2 d.second] := by
  have hnot := not_mem_pad (c := ':') rfl (by decide)
  rw [Fields.timeText, split_append (hnot _ _), split_append (hnot _ _),
    split_of_not_mem (hnot _ _)]

theorem split_dateText (hyear : 0 ≤ d.year) (hmonth : 0 ≤ d.month) :
    split '-' d.dateText = pad 4 d.year :: pad 2 d.month :: split '-' (pad 2 d.day) := by
  rw [Fields.dateText, split_append (minus_not_mem_pad _ hyear),
    split_append (minus_not_mem_pad _ hmonth)]

theorem parseField_pad (w : ℕ) (hz : Fits z) : parseField (pad w z) = z := by
  unfold parseField
  rw [ofText_pad]
  exact if_pos hz

theorem tdiv_tmod_range (a : ℤ) {n : ℤ} (hb : 0 < b) (hn : 0 < n) :
    (-n < (a.tmod (n * b)).tdiv b ∧ (a.tmod (n * b)).tdiv b < n) ∧
      (0 ≤ a → 0 ≤ (a.tmod (n * b)).tdiv b) := by
  obtain ⟨-, hlow, hhigh, hpos, -⟩ := tdiv_spec a (mul_pos hn hb)
  have hlt : ∀ c : ℤ, 0 ≤ c → c < n * b → c.tdiv b < n := by
    intro c hc hcn
    rw [Int.tdiv_eq_ediv_of_nonneg hc]
    exact Int.ediv_lt_of_lt_mul hb hcn
  refine ⟨?_, fun h => Int.tdiv_nonneg (hpos h) hb.le⟩
  set r := a.tmod (n * b)
  rcases le_total 0 r with hr | hr
  · have := Int.tdiv_nonneg hr hb.le
    have := hlt r hr hhigh
    omega
  · have := Int.tdiv_nonneg (neg_nonneg.2 hr) hb.le
    have := hlt (-r) (neg_nonneg.2 hr) (by omega)
    rw [Int.neg_tdiv] at *
    omega

theorem fieldsOf_time_range (millis : ℤ) : let d := fieldsOf millis
    (-24 < d.hour ∧ d.hour < 24) ∧ (-60 < d.minute ∧ d.minute < 60) ∧
    (-60 < d.second ∧ d.second < 60) ∧
    (0 ≤ millis.tdiv 1000 → 0 ≤ d.hour ∧ 0 ≤ d.minute ∧ 0 ≤ d.second) := by
  set secs := millis.tdiv 1000
  have hhour := tdiv_tmod_range secs (b := 3600) (n := 24) (by omega) (by omega)
  have hminute := tdiv_tmod_range secs (b := 60) (n := 60) (by omega) (by omega)
  have hsecond := tdiv_spec secs (b := 60) (by omega)
  exact ⟨hhour.1, hminute.1, ⟨hsecond.2.1, hsecond.2.2.1⟩,
    fun h => ⟨hhour.2 h, hminute.2 h, hsecond.2.2.2.1 h⟩⟩

theorem fieldsOf_of_neg {millis : ℤ} (h : daysOf millis < 0) : (fieldsOf millis).year = 1970 ∧
    (fieldsOf millis).month = 1 ∧ (fieldsOf millis).day = daysOf millis + 1 := by
  have hyear := (findYear_spec (daysOf millis) 1970 le_rfl).2.2.2.2.1 h
  have hmonth : findMonth (daysInMonths 1970) (daysOf millis) 1 = (1, daysOf millis) := by
    show findMonth (31 :: _) _ _ = _
    rw [findMonth, if_pos (by omega)]
  have hdate : millisToYmd millis = (1970, 1, daysOf millis + 1) := by
    have hdays : (millis.tdiv 1000).tdiv 86400 = daysOf millis := rfl
    simp only [millisToYmd, hdays, hyear, hmonth]
  unfold fieldsOf
  rw [hdate]
  exact ⟨rfl, rfl, rfl⟩

theorem le_of_mem_daysInMonths {d : ℤ} : d ∈ daysInMonths year → d ≤ 31 := by
  have hall : ∀ l : List ℤ, l.all (· ≤ 31) = true → d ∈ l → d ≤ 31 := by
    intro l hl hd
    simpa using all_eq_true.1 hl d hd
  unfold daysInMonths
  split <;> exact hall _ rfl

theorem fieldsOf_date_range {millis : ℤ} (h : 0 ≤ daysOf millis) :
    1 ≤ (fieldsOf millis).month ∧ (fieldsOf millis).month ≤ 12 ∧
      1 ≤ (fieldsOf millis).day ∧ (fieldsOf millis).day ≤ 31 := by
  obtain ⟨-, -, ⟨k, n, hget, hmonth, hday⟩, -, hpos⟩ := fieldsOf_date millis
  obtain ⟨hk, hmem⟩ := List.getElem?_eq_some_iff.1 hget
  rw [length_daysInMonths] at hk
  have hle := le_of_mem_daysInMonths (hmem ▸ getElem_mem _)
  omega

theorem fieldsOf_fits (millis : Int64) : let d := fieldsOf millis.toInt
    (0 ≤ d.year ∧ Fits d.year) ∧ (0 ≤ d.month ∧ Fits d.month) ∧ Fits d.day ∧ Fits d.hour ∧
      Fits d.minute ∧ Fits d.second := by
  intro d
  have hd : d = fieldsOf millis.toInt := rfl
  rw [hd]
  have hlow := millis.le_toInt
  have hhigh := millis.toInt_lt
  obtain ⟨hyear, hyear', -⟩ := fieldsOf_date millis.toInt
  have htime := fieldsOf_time_range millis.toInt
  have hsecs := tdiv_spec millis.toInt (b := 1000) (by omega)
  have hdays := tdiv_spec (millis.toInt.tdiv 1000) (b := 86400) (by omega)
  have hbound : -2 ^ 60 < daysOf millis.toInt ∧ daysOf millis.toInt < 2 ^ 60 := by
    unfold daysOf
    omega
  have hdate : (0 ≤ (fieldsOf millis.toInt).month ∧ (fieldsOf millis.toInt).month ≤ 12) ∧
      -2 ^ 61 < (fieldsOf millis.toInt).day ∧ (fieldsOf millis.toInt).day ≤ 31 := by
    rcases lt_or_ge (daysOf millis.toInt) 0 with hneg | hpos
    · obtain ⟨-, hmonth, hday⟩ := fieldsOf_of_neg hneg
      omega
    · have := fieldsOf_date_range hpos
      omega
  unfold Fits
  omega

theorem parseFields_format (millis : Int64) (f : Text) : parseFields (datetimeFormat millis f) =
      if 0 ≤ (fieldsOf millis.toInt).day then some (fieldsOf millis.toInt) else none := by
  obtain ⟨⟨hyear, hyearFits⟩, ⟨hmonth, hmonthFits⟩, hday, hhour, hminute, hsecond⟩ :=
    fieldsOf_fits millis
  set d := fieldsOf millis.toInt with hd
  have hT : split 'T' (datetimeFormat millis f) = [d.dateText, d.timeText ++ ['Z']] := by
    have hdate := not_mem_dateText (c := 'T') rfl (by decide) d
    have htime : 'T' ∉ d.timeText ++ ['Z'] := by
      have := not_mem_timeText (c := 'T') rfl (by decide) (by decide) d
      simp [this]
    show split 'T' (d.dateText ++ 'T' :: (d.timeText ++ ['Z'])) = _
    rw [split_append hdate, split_of_not_mem htime]
  have hZ := trimEnd_append (not_mem_timeText (c := 'Z') rfl (by decide) (by decide) d)
  unfold parseFields
  rw [hT]
  simp only [hZ, split_timeText, split_dateText hyear hmonth]
  by_cases hsign : 0 ≤ d.day
  · rw [if_pos hsign, split_of_not_mem (minus_not_mem_pad 2 hsign)]
    simp only [parseField_pad, hyearFits, hmonthFits, hday, hhour, hminute, hsecond]
  · -- the minus of the day is a separator
    rw [if_neg hsign, pad_of_neg 2 (not_le.1 hsign)]
    have hempty := split_append (c := '-') (s := []) (by simp)
      (replicate (2 - 1 - (digits d.day.natAbs).length) '0' ++ digits d.day.natAbs)
    rw [nil_append] at hempty
    rw [hempty]
    split
    · rename_i heq _
      have hpos := length_split_pos '-'
        (replicate (2 - 1 - (digits d.day.natAbs).length) '0' ++ digits d.day.natAbs)
      have hlen := congrArg length heq
      simp only [length_cons, length_nil] at hlen
      omega
    · rfl

/-- A text with a date that does not exist is rejected. -/
def Rejects (checks : Bool) (f input : Text) : Prop :=
  ∀ d, parseFields input = some d → ¬ ValidDate d.year d.month d.day →
    datetimeParse checks f input = some (-1)

/-- The day is past the end of its month. -/
def Fields.PastMonthEnd (d : Fields) : Prop :=
  ∃ n, (daysInMonths d.year)[(d.month - 1).toNat]? = some n ∧ n < d.day

theorem ymdHmsToMillis_ne (checks : Bool) (d : Fields) : ymdHmsToMillis checks d ≠ some (-1) := by
  have heven : ∃ x, d.millis = x * 1000 := ⟨_, rfl⟩
  unfold ymdHmsToMillis
  split_ifs
  · intro h
    have := some.inj h
    omega
  · simp
  · intro h
    have := some.inj h
    unfold Int.bmod at this
    dsimp only at this
    split at this <;> omega

theorem validDate_iff_of_inRange (h : d.inRange = true) :
    ValidDate d.year d.month d.day ↔ ¬ d.PastMonthEnd := by
  have hrange := of_decide_eq_true h
  constructor
  · rintro ⟨-, -, -, hle⟩ ⟨n, hn, hlt⟩
    have := hle n hn
    omega
  · intro hnot
    refine ⟨hrange.2.1, hrange.2.2.1, hrange.2.2.2.1, fun n hn => ?_⟩
    by_contra hlt
    exact hnot ⟨n, hn, not_le.1 hlt⟩

theorem rejects_iff (checks : Bool) (f input : Text) : Rejects checks f input ↔
    ∀ d, parseFields input = some d → ¬ (d.inRange = true ∧ d.PastMonthEnd) := by
  refine forall_congr' fun d => imp_congr_right fun hd => ?_
  have hparse : datetimeParse checks f input =
      if d.inRange then ymdHmsToMillis checks d else some (-1) := by
    unfold datetimeParse
    rw [hd]
  rw [hparse]
  split_ifs with hrange
  · rw [validDate_iff_of_inRange hrange, not_not]
    have hne := ymdHmsToMillis_ne checks d
    simp [hrange, hne]
  · simp [hrange]

/-- **Which texts are read back.** -/
theorem parse_format_iff (checks : Bool) (millis : Int64) (f : Text) :
    datetimeParse checks f (datetimeFormat millis f) = some (millis.toInt.tdiv 1000 * 1000) ↔
      -1000 < millis.toInt := by
  have hsecs := tdiv_spec millis.toInt (b := 1000) (by omega)
  have hdays := tdiv_spec (millis.toInt.tdiv 1000) (b := 86400) (by omega)
  have htime := fieldsOf_time_range millis.toInt
  have hsum := fieldsOf_time millis.toInt
  have hyear := (fieldsOf_date millis.toInt).1
  unfold datetimeParse
  rw [parseFields_format]
  by_cases hm : -1000 < millis.toInt
  · have hpos : 0 ≤ daysOf millis.toInt := by unfold daysOf; omega
    have hdate := fieldsOf_date_range hpos
    have hrange : (fieldsOf millis.toInt).inRange = true := by
      refine decide_eq_true ?_
      omega
    rw [if_pos (by omega)]
    simp only [hrange, if_true, roundtrip]
    exact iff_of_true trivial hm
  · -- the day or a part of the time is negative, or the day is zero
    refine iff_of_false (fun h => ?_) hm
    have hrejected : (some (-1) : Option ℤ) ≠ some (millis.toInt.tdiv 1000 * 1000) := by
      intro heq
      have := some.inj heq
      omega
    by_cases hsign : 0 ≤ (fieldsOf millis.toInt).day
    · have hrange : (fieldsOf millis.toInt).inRange = false := by
        refine decide_eq_false ?_
        rcases lt_or_ge (daysOf millis.toInt) 0 with hneg | hpos
        · have := (fieldsOf_of_neg hneg).2.2
          omega
        · omega
      rw [if_pos hsign] at h
      simp only [hrange] at h
      exact hrejected h
    · rw [if_neg hsign] at h
      exact hrejected h

/-- **The calendar.** Every number of milliseconds is mapped to a date and back. The date is
valid from 1970 on, and a text is read back when the second it shows is not negative. What is
not rejected has a day past the end of its month. -/
theorem calendar_iff (checks : Bool) (millis : Int64) (f input : Text) :
    ymdHmsToMillis checks (fieldsOf millis.toInt) = some (millis.toInt.tdiv 1000 * 1000) ∧
    (ValidDate (fieldsOf millis.toInt).year (fieldsOf millis.toInt).month
      (fieldsOf millis.toInt).day ↔ -86400000 < millis.toInt) ∧
    (datetimeParse checks f (datetimeFormat millis f) = some (millis.toInt.tdiv 1000 * 1000) ↔
      -1000 < millis.toInt) ∧ (Rejects checks f input ↔
      ∀ d, parseFields input = some d → ¬ (d.inRange = true ∧ d.PastMonthEnd)) :=
  ⟨roundtrip checks millis, validDate_iff millis.toInt, parse_format_iff checks millis f,
    rejects_iff checks f input⟩

def february30 : Text := "2023-02-30T00:00:00Z".toList

/-- **A second before 1970 is not read back**, a day before it is no date, and the 30th of
February is accepted. -/
theorem not_bijective : datetimeParse true [] (datetimeFormat (-1000) []) ≠ some (-1000) ∧
    ¬ ValidDate (fieldsOf (-86400000)).year (fieldsOf (-86400000)).month
      (fieldsOf (-86400000)).day ∧ ¬ Rejects true [] february30 := by
  refine ⟨fun h => ?_, fun h => ?_, fun h => ?_⟩
  · exact absurd ((parse_format_iff true (-1000) []).1 h) (by decide)
  · exact absurd ((validDate_iff (-86400000)).1 h) (by decide)
  · have hfields : parseFields february30 = some ⟨2023, 2, 30, 0, 0, 0⟩ := by
      rfl
    refine (rejects_iff true [] february30).1 h _ hfields ⟨rfl, 28, rfl, by decide⟩

end Arth.DateTime
