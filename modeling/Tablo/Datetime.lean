import Mathlib.Tactic.Linarith

/-! Dates of `datetime.tblo`, and the local offset found from two wall clocks. -/

namespace Tablo.Datetime

structure Date where
  year : Int
  month : Int
  day : Int
  deriving DecidableEq

/-- The remainders are only compared with 0, so their sign does not matter. -/
def datetimeDaysInMonthUnchecked (year month : Int) : Int :=
  if month = 1 ∨ month = 3 ∨ month = 5 ∨ month = 7 ∨ month = 8 ∨ month = 10 ∨ month = 12 then 31
  else if month = 4 ∨ month = 6 ∨ month = 9 ∨ month = 11 then 30
  else if year % 400 = 0 then 29
  else if year % 100 = 0 then 28
  else if year % 4 = 0 then 29
  else 28

def datetimeNextDate (parts : Date) : Date :=
  if parts.day + 1 > datetimeDaysInMonthUnchecked parts.year parts.month then
    if parts.month + 1 > 12 then ⟨parts.year + 1, 1, 1⟩ else ⟨parts.year, parts.month + 1, 1⟩
  else ⟨parts.year, parts.month, parts.day + 1⟩

def datetimePrevDate (parts : Date) : Date :=
  if parts.day - 1 < 1 then
    if parts.month - 1 < 1 then ⟨parts.year - 1, 12, datetimeDaysInMonthUnchecked (parts.year - 1) 12⟩
    else ⟨parts.year, parts.month - 1, datetimeDaysInMonthUnchecked parts.year (parts.month - 1)⟩
  else ⟨parts.year, parts.month, parts.day - 1⟩

structure Wall extends Date where
  hour : Int
  minute : Int

def lowerLoop (offset : Int) : Int := if offset > 840 then lowerLoop (offset - 1440) else offset
termination_by offset.toNat

def raiseLoop (offset : Int) : Int := if offset < -720 then raiseLoop (offset + 1440) else offset
termination_by (-offset).toNat

def datetimeComputeLocalOffsetMinutes (localParts utcParts : Wall) : Int :=
  let base := (localParts.hour * 60 + localParts.minute) - (utcParts.hour * 60 + utcParts.minute)
  let offset :=
    if localParts.toDate = utcParts.toDate then base
    else if localParts.toDate = datetimeNextDate utcParts.toDate then base + 1440
    else if localParts.toDate = datetimePrevDate utcParts.toDate then base - 1440
    else base
  raiseLoop (lowerLoop offset)

/-! ### The calendar -/

variable (year : Int)

def Leap : Prop := year % 4 = 0 ∧ (year % 100 ≠ 0 ∨ year % 400 = 0)

instance (year : Int) : Decidable (Leap year) := by
  unfold Leap
  infer_instance

def monthLength (year month : Int) : Int :=
  if month = 2 then if Leap year then 29 else 28
  else if month = 4 ∨ month = 6 ∨ month = 9 ∨ month = 11 then 30 else 31

def Date.Valid (d : Date) : Prop :=
  1 ≤ d.month ∧ d.month ≤ 12 ∧ 1 ≤ d.day ∧ d.day ≤ monthLength d.year d.month

/-- The days before the first of January of `year`, counted from the year 1. -/
def yearStart : Int :=
  365 * (year - 1) + (year - 1) / 4 - (year - 1) / 100 + (year - 1) / 400

/-- The days of the first `months` months of `year`. -/
def monthStart (months : Nat) : Int :=
  ((List.range months).map fun m : Nat => monthLength year (m + 1)).sum

def Date.number (d : Date) : Int := yearStart d.year + monthStart d.year (d.month - 1).toNat + d.day

theorem daysInMonth_eq {year month : Int} (hm : 1 ≤ month) (hm' : month ≤ 12) :
    datetimeDaysInMonthUnchecked year month = monthLength year month := by
  unfold datetimeDaysInMonthUnchecked monthLength Leap
  split_ifs <;> omega

theorem monthLength_pos (year month : Int) : 1 ≤ monthLength year month := by
  unfold monthLength
  split_ifs <;> decide

theorem monthStart_succ (months : Nat) :
    monthStart year (months + 1) = monthStart year months + monthLength year (months + 1) := by
  simp [monthStart, List.range_succ]

theorem monthStart_mono {m n : Nat} (h : m ≤ n) : monthStart year m ≤ monthStart year n := by
  induction h with
  | refl => exact Int.le_refl _
  | @step n _ ih =>
    have := monthLength_pos year (n + 1)
    rw [monthStart_succ]
    omega

theorem yearStart_succ : yearStart (year + 1) = yearStart year + monthStart year 12 := by
  norm_num [yearStart, monthStart, List.range_succ, monthLength, Leap]
  split_ifs <;> omega

theorem yearStart_mono {y y' : Int} (h : y ≤ y') : yearStart y ≤ yearStart y' := by
  unfold yearStart
  omega

section
variable {d e : Date}

theorem Date.Valid.number_le (h : d.Valid) :
    d.number ≤ yearStart d.year + monthStart d.year ((d.month - 1).toNat + 1) := by
  obtain ⟨hm, _, _, hd⟩ := h
  rw [monthStart_succ, Int.toNat_of_nonneg (by omega), sub_add_cancel, Date.number]
  omega

theorem year_le (hd : d.Valid) (he : e.Valid) (h : d.number ≤ e.number) : d.year ≤ e.year := by
  by_contra hlt
  have hend := he.number_le
  have hyear := monthStart_mono e.year (show (e.month - 1).toNat + 1 ≤ 12 by have := he.2.1; omega)
  have hstart := yearStart_mono (show e.year + 1 ≤ d.year by omega)
  have hfirst := monthStart_mono d.year (Nat.zero_le (d.month - 1).toNat)
  rw [yearStart_succ] at hstart
  have hzero : monthStart d.year 0 = 0 := rfl
  have := hd.2.2.1
  rw [Date.number] at h
  omega

theorem month_le (hd : d.Valid) (he : e.Valid) (hyear : d.year = e.year) (h : d.number ≤ e.number) :
    d.month ≤ e.month := by
  by_contra hlt
  have hend := he.number_le
  have hstart := monthStart_mono e.year (show (e.month - 1).toNat + 1 ≤ (d.month - 1).toNat by have := he.1; omega)
  have := hd.2.2.1
  rw [Date.number, hyear] at h
  omega

theorem number_inj (hd : d.Valid) (he : e.Valid) (h : d.number = e.number) : d = e := by
  have hyear := le_antisymm (year_le hd he h.le) (year_le he hd h.ge)
  have hmonth := le_antisymm (month_le hd he hyear h.le) (month_le he hd hyear.symm h.ge)
  obtain ⟨year, month, day⟩ := d
  obtain rfl : year = e.year := hyear
  obtain rfl : month = e.month := hmonth
  exact congrArg (Date.mk _ _) (by simpa [Date.number] using h)

theorem number_next (h : d.Valid) : (datetimeNextDate d).Valid ∧ (datetimeNextDate d).number = d.number + 1 := by
  obtain ⟨hm, hm', hd, hd'⟩ := h
  rw [datetimeNextDate, daysInMonth_eq hm hm']
  have hlen := monthStart_succ d.year (d.month - 1).toNat
  rw [Int.toNat_of_nonneg (by omega), sub_add_cancel] at hlen
  split_ifs with hlast hyear
  · have hstart := yearStart_succ d.year
    rw [show (d.month - 1).toNat + 1 = 12 by omega] at hlen
    refine ⟨⟨le_rfl, by simp, le_rfl, monthLength_pos _ _⟩, ?_⟩
    show yearStart (d.year + 1) + 0 + 1 = _
    rw [Date.number]
    omega
  · refine ⟨⟨by simp; omega, by simp; omega, le_rfl, monthLength_pos _ _⟩, ?_⟩
    show yearStart d.year + monthStart d.year (d.month + 1 - 1).toNat + 1 = _
    rw [show (d.month + 1 - 1).toNat = (d.month - 1).toNat + 1 by omega, Date.number]
    omega
  · exact ⟨⟨hm, hm', by simp; omega, by simp; omega⟩, by simp only [Date.number]; omega⟩

theorem prev_next (h : d.Valid) : datetimePrevDate (datetimeNextDate d) = d := by
  obtain ⟨hm, hm', hd, hd'⟩ := h
  obtain ⟨year, month, day⟩ := d
  dsimp only at hm hm' hd hd'
  have hlen : datetimeDaysInMonthUnchecked year month = _ := daysInMonth_eq hm hm'
  rw [datetimeNextDate]
  dsimp only
  split_ifs with hlast hyear
  · obtain rfl : month = 12 := by omega
    rw [datetimePrevDate, if_pos (by simp), if_pos (by simp)]
    simp only [add_sub_cancel_right, hlen]
    exact congrArg _ (by omega)
  · rw [datetimePrevDate, if_pos (by simp), if_neg (by simp; omega)]
    simp only [add_sub_cancel_right, hlen]
    exact congrArg _ (by omega)
  · rw [datetimePrevDate, if_neg (by simp; omega)]
    simp

end

def Wall.Valid (w : Wall) : Prop :=
  w.toDate.Valid ∧ 0 ≤ w.hour ∧ w.hour < 24 ∧ 0 ≤ w.minute ∧ w.minute < 60

/-- The minutes since the first of January of the year 1. -/
def Wall.minutes (w : Wall) : Int := w.number * 1440 + w.hour * 60 + w.minute

theorem lowerLoop_eq {offset : Int} (h : offset ≤ 840) : lowerLoop offset = offset := by
  rw [lowerLoop, if_neg (by omega)]

theorem raiseLoop_eq {offset : Int} (h : -720 ≤ offset) : raiseLoop offset = offset := by
  rw [raiseLoop, if_neg (by omega)]

/-- Two clocks that show the same instant at a distance of `offset` minutes. Their dates are at most one
day apart, and the day between them is told by the successor of the earlier date. -/
theorem local_offset_recovered {localParts utcParts : Wall} {offset : Int} (hlocal : localParts.Valid)
    (hutc : utcParts.Valid) (hlo : -720 ≤ offset) (hhi : offset ≤ 840)
    (hshift : localParts.minutes = utcParts.minutes + offset) :
    datetimeComputeLocalOffsetMinutes localParts utcParts = offset := by
  obtain ⟨hl, hl1, hl2, hl3, hl4⟩ := hlocal
  obtain ⟨hu, hu1, hu2, hu3, hu4⟩ := hutc
  unfold Wall.minutes at hshift
  -- less than a day of shift, and less than a day of clock time on either side
  have hday : localParts.number = utcParts.number ∨ localParts.number = utcParts.number + 1 ∨
      localParts.number + 1 = utcParts.number := by omega
  have apart {d e : Date} (h : d.number ≠ e.number) : d ≠ e := fun heq => h (congrArg Date.number heq)
  have hoffset : datetimeComputeLocalOffsetMinutes localParts utcParts = raiseLoop (lowerLoop offset) := by
    rw [datetimeComputeLocalOffsetMinutes]
    refine congrArg (fun x => raiseLoop (lowerLoop x)) ?_
    obtain ⟨hvalid, hnext⟩ := number_next hu
    rcases hday with heq | heq | heq
    · rw [if_pos (number_inj hl hu heq)]
      omega
    · rw [if_neg (apart (by omega)), if_pos (number_inj hl hvalid (by omega))]
      omega
    · obtain ⟨hvalid', hnext'⟩ := number_next hl
      have hback : datetimeNextDate localParts.toDate = utcParts.toDate := number_inj hvalid' hu (by omega)
      rw [if_neg (apart (by omega)), if_neg (apart (by omega)), if_pos (hback ▸ (prev_next hl).symm)]
      omega
  rw [hoffset, lowerLoop_eq hhi, raiseLoop_eq hlo]

/-- Noon of the last day of February 2024, seen from fourteen hours further east. -/
theorem local_offset_leap_day : datetimeComputeLocalOffsetMinutes ⟨⟨2024, 3, 1⟩, 2, 0⟩ ⟨⟨2024, 2, 29⟩, 12, 0⟩ = 840 :=
  local_offset_recovered (by unfold Wall.Valid Date.Valid; decide) (by unfold Wall.Valid Date.Valid; decide)
    (by decide) (by decide) (by decide)

end Tablo.Datetime
