import Mathlib

/-!
# The days of the archive

The archive of the host's samples has a directory for each day, named by its date. Dates are computed from day
numbers in closed form, from years that start in March, so that the leap day is the last of its year, and in
eras of 400 years, which all have as many days. They are shown to be those of the calendar, which is given by its
next day. A name is read by its three fields, and counts only if it is the name of the day it leads to.
-/

namespace Virtkit.Atop

open List

/-- A date: year, month and day. -/
structure Date where
  year : ℤ
  month : ℤ
  day : ℤ
  deriving DecidableEq

/-- The Gregorian date of a day number. -/
def civilFromDays (days : ℤ) : Date :=
  let z := days + 719468 -- days since 0000-03-01
  let era := z / 146097
  let doe := z % 146097
  let yoe := (doe - doe / 1460 + doe / 36524 - doe / 146096) / 365
  let doy := doe - (365 * yoe + yoe / 4 - yoe / 100)
  let mp := (5 * doy + 2) / 153 -- the month, 0 for March
  let day := doy - (153 * mp + 2) / 5 + 1
  let month := if mp < 10 then mp + 3 else mp - 9
  ⟨era * 400 + yoe + (if month ≤ 2 then 1 else 0), month, day⟩

/-- The day number of a Gregorian date. -/
def daysFromCivil (date : Date) : ℤ :=
  let y := if date.month ≤ 2 then date.year - 1 else date.year
  let era := y / 400
  let yoe := y - era * 400
  let mp := if date.month > 2 then date.month - 3 else date.month + 9
  let doy := (153 * mp + 2) / 5 + date.day - 1
  let doe := yoe * 365 + yoe / 4 - yoe / 100 + doy
  era * 146097 + doe - 719468

def isLeap (y : ℤ) : Bool := y % 4 = 0 && (y % 100 ≠ 0 || y % 400 = 0)

def daysIn (y m : ℤ) : ℤ :=
  if m = 2 then (if isLeap y then 29 else 28)
  else if m = 4 ∨ m = 6 ∨ m = 9 ∨ m = 11 then 30 else 31

structure Date.Valid (d : Date) : Prop where
  month : 1 ≤ d.month ∧ d.month ≤ 12
  day : 1 ≤ d.day ∧ d.day ≤ daysIn d.year d.month

/-- The calendar's next day. -/
def Date.next (d : Date) : Date :=
  if d.day < daysIn d.year d.month then { d with day := d.day + 1 }
  else if d.month < 12 then ⟨d.year, d.month + 1, 1⟩ else ⟨d.year + 1, 1, 1⟩

/-- The days of an era before a March-based year of it. -/
def yearStart (y : ℤ) : ℤ := 365 * y + y / 4 - y / 100 + y / 400

/-- A year of an era and a day of that year. -/
structure Within (yoe doy : ℤ) : Prop where
  year : 0 ≤ yoe ∧ yoe ≤ 399
  day : 0 ≤ doy ∧ doy < yearStart (yoe + 1) - yearStart yoe

/-- The date of a day of a March-based year. -/
def marchDate (era yoe doy : ℤ) : Date :=
  let mp := (5 * doy + 2) / 153
  let month := if mp < 10 then mp + 3 else mp - 9
  ⟨era * 400 + yoe + (if month ≤ 2 then 1 else 0), month, doy - (153 * mp + 2) / 5 + 1⟩

/-- The year of an era, as it is computed from the day, is the year the day lies in. -/
theorem within_yearOfEra {doe : ℤ} (h0 : 0 ≤ doe) (h : doe < 146097) :
    let yoe := (doe - doe / 1460 + doe / 36524 - doe / 146096) / 365
    Within yoe (doe - yearStart yoe) := by
  intro yoe
  have hc : doe / 36524 = 0 ∨ doe / 36524 = 1 ∨ doe / 36524 = 2 ∨ doe / 36524 = 3 ∨ doe / 36524 = 4 := by
    omega
  have hend : doe < yearStart (yoe + 1) := by
    by_contra hlt
    have hf : (yoe + 1) / 4 = doe / 1460 ∨ (yoe + 1) / 4 = doe / 1460 + 1 := by omega
    have hg : (yoe + 1) / 100 = doe / 36524 ∨ (yoe + 1) / 100 = doe / 36524 + 1 := by omega
    dsimp only [yearStart] at hlt
    rcases hc with hc | hc | hc | hc | hc <;> rcases hf with hf | hf <;> rcases hg with hg | hg <;> omega
  have hyoe : 0 ≤ yoe ∧ yoe ≤ 399 := by omega
  have hera : yoe / 400 = 0 := by omega
  have hstart : yearStart yoe ≤ doe := by
    have hf : yoe / 4 = doe / 1460 ∨ yoe / 4 = doe / 1460 - 1 := by omega
    dsimp only [yearStart]
    rcases hc with hc | hc | hc | hc | hc <;> rcases hf with hf | hf <;> omega
  exact ⟨hyoe, by omega, by omega⟩

theorem monotone_yearStart : Monotone yearStart :=
  monotone_int_of_le_succ fun y => by
    dsimp only [yearStart]
    omega

/-- A day lies in one year. -/
theorem Within.unique {y y' d d' : ℤ} (h : Within y d) (h' : Within y' d')
    (heq : yearStart y + d = yearStart y' + d') : y = y' := by
  have hd := h.day
  have hd' := h'.day
  rcases lt_trichotomy y y' with hlt | heq | hgt
  · have := monotone_yearStart (show y + 1 ≤ y' from hlt)
    omega
  · exact heq
  · have := monotone_yearStart (show y' + 1 ≤ y from hgt)
    omega

theorem civilFromDays_eq {days era yoe doy : ℤ} (h : Within yoe doy)
    (hdays : days + 719468 = era * 146097 + yearStart yoe + doy) : civilFromDays days = marchDate era yoe doy := by
  have hbound : 0 ≤ yearStart yoe + doy ∧ yearStart yoe + doy < 146097 := by
    obtain ⟨hy, hd⟩ := h
    dsimp only [yearStart] at *
    omega
  have hera : (days + 719468) / 146097 = era := by omega
  have hdoe : (days + 719468) % 146097 = yearStart yoe + doy := by omega
  have hyoe := (within_yearOfEra hbound.1 hbound.2).unique h (by omega)
  unfold civilFromDays marchDate
  simp only [hera, hdoe, hyoe]
  have hdoy : yearStart yoe + doy - (365 * yoe + yoe / 4 - yoe / 100) = doy := by
    dsimp only [yearStart]
    omega
  rw [hdoy]

theorem exists_within (days : ℤ) :
    ∃ era yoe doy, Within yoe doy ∧ days + 719468 = era * 146097 + yearStart yoe + doy := by
  have hdoe : 0 ≤ (days + 719468) % 146097 ∧ (days + 719468) % 146097 < 146097 := by omega
  exact ⟨(days + 719468) / 146097, _, _, within_yearOfEra hdoe.1 hdoe.2, by omega⟩

theorem isLeap_iff {y : ℤ} : isLeap y = true ↔ y % 4 = 0 ∧ (y % 100 ≠ 0 ∨ y % 400 = 0) := by simp [isLeap]

theorem Within.month {yoe doy : ℤ} (h : Within yoe doy) : 0 ≤ (5 * doy + 2) / 153 ∧ (5 * doy + 2) / 153 ≤ 11 := by
  obtain ⟨hy, hd⟩ := h
  dsimp only [yearStart] at hd
  omega

/-- A date counted from March gives its day back. -/
theorem daysFromCivil_marchDate {era yoe doy : ℤ} (h : Within yoe doy) :
    daysFromCivil (marchDate era yoe doy) = era * 146097 + yearStart yoe + doy - 719468 := by
  have hm := h.month
  unfold daysFromCivil marchDate
  dsimp only [yearStart]
  generalize (5 * doy + 2) / 153 = mp at hm ⊢
  split_ifs <;> omega

/-- Within a year, the next day's date is the next date. -/
theorem next_marchDate {era yoe doy : ℤ} (h : Within yoe doy) (hlast : doy + 1 < yearStart (yoe + 1) - yearStart yoe) :
    (marchDate era yoe doy).next = marchDate era yoe (doy + 1) := by
  have hm := h.month
  obtain ⟨hy, hd⟩ := h
  unfold Date.next marchDate daysIn
  dsimp only [yearStart] at *
  simp only [isLeap_iff]
  obtain ⟨mp, hmp⟩ : ∃ mp, (5 * doy + 2) / 153 = mp := ⟨_, rfl⟩
  have hmp' : (5 * (doy + 1) + 2) / 153 = mp ∨ (5 * (doy + 1) + 2) / 153 = mp + 1 := by omega
  rw [hmp] at hm ⊢
  obtain ⟨h0, h11⟩ := hm
  interval_cases mp <;> rcases hmp' with h' | h' <;> simp [h'] <;> (try split_ifs) <;> (try simp) <;> omega

/-- After a year's last day comes the first of March. -/
theorem next_marchDate_last {era yoe doy : ℤ} (h : Within yoe doy)
    (hlast : yearStart (yoe + 1) - yearStart yoe = doy + 1) :
    (marchDate era yoe doy).next = marchDate (era + (yoe + 1) / 400) ((yoe + 1) % 400) 0 := by
  have hm : (5 * doy + 2) / 153 = 11 := by
    dsimp only [yearStart] at *
    omega
  obtain ⟨hy, hd⟩ := h
  unfold Date.next marchDate daysIn
  dsimp only [yearStart] at *
  simp [isLeap_iff, hm]
  split_ifs <;> simp <;> omega

theorem valid_marchDate {era yoe doy : ℤ} (h : Within yoe doy) : (marchDate era yoe doy).Valid := by
  have hm := h.month
  obtain ⟨hy, hd⟩ := h
  constructor <;> unfold marchDate
  · dsimp only
    split_ifs <;> omega
  · dsimp only [daysIn, yearStart] at *
    simp only [isLeap_iff]
    obtain ⟨mp, hmp⟩ : ∃ mp, (5 * doy + 2) / 153 = mp := ⟨_, rfl⟩
    rw [hmp] at hm ⊢
    obtain ⟨h0, h11⟩ := hm
    interval_cases mp <;> simp <;> (try split_ifs) <;> omega

/-- Every day has a valid date, and the next day the next date. -/
theorem civilFromDays_next (d : ℤ) : (civilFromDays d).Valid ∧ civilFromDays (d + 1) = (civilFromDays d).next := by
  obtain ⟨era, yoe, doy, h, hd⟩ := exists_within d
  have hyear := h.year
  have hday := h.day
  rw [civilFromDays_eq h hd]
  refine ⟨valid_marchDate h, ?_⟩
  by_cases hlast : doy + 1 < yearStart (yoe + 1) - yearStart yoe
  · rw [next_marchDate h hlast]
    exact civilFromDays_eq ⟨hyear, by omega, hlast⟩ (by omega)
  · rw [next_marchDate_last h (by omega)]
    refine civilFromDays_eq ⟨by omega, by omega, ?_⟩ ?_ <;> dsimp only [yearStart] at * <;> omega

theorem daysFromCivil_civilFromDays (d : ℤ) : daysFromCivil (civilFromDays d) = d := by
  obtain ⟨era, yoe, doy, h, hd⟩ := exists_within d
  rw [civilFromDays_eq h hd, daysFromCivil_marchDate h]
  omega

/-- Dates in the order of the calendar. -/
def Date.key (d : Date) : ℤ ×ₗ ℤ ×ₗ ℤ := toLex (d.year, toLex (d.month, d.day))

theorem strictMono_civilFromDays : StrictMono fun d => (civilFromDays d).key := by
  refine strictMono_int_of_lt_succ fun d => ?_
  rw [(civilFromDays_next d).2]
  unfold Date.next Date.key
  split_ifs <;> simp [Prod.Lex.toLex_lt_toLex]

/-!
## Names of days

A name has fields of fixed width, so names are in the order of their dates.
-/

/-- A number in decimal, padded with zeros to a width. -/
def padded (width : ℕ) (n : ℤ) : List Char :=
  if n < 0 then '-' :: (Nat.toDigits 10 n.natAbs).leftpad (width - 1) '0'
  else (Nat.toDigits 10 n.natAbs).leftpad width '0'

/-- The archive directory name of a day number. -/
def dateDirOfDay (day : ℤ) : List Char :=
  let date := civilFromDays day
  ['-'].intercalate [padded 4 date.year, padded 2 date.month, padded 2 date.day]

/-- Whole days since 1970-01-01. -/
def dayOf (epoch : ℤ) : ℤ := epoch / 86400

/-- The archive directory name for the day a time falls in. -/
def dateDir (epoch : ℤ) : List Char := dateDirOfDay (dayOf epoch)

/-- A field of a name: digits, as many as its width. -/
def dateField (part : List Char) (width : ℕ) : Option ℤ :=
  if part.length = width ∧ part.all Char.isDigit then some (Nat.ofDigitChars 10 part 0) else none

/-- The day an archive directory name stands for. -/
def parseDateDir (name : List Char) : Option ℤ :=
  match name.splitOn '-' with
  | [year, month, day] => do
    let y ← dateField year 4
    let m ← dateField month 2
    let d ← dateField day 2
    let day := daysFromCivil ⟨y, m, d⟩
    if dateDirOfDay day = name then some day else none
  | _ => none

theorem ofDigitChars_leftpad (w : ℕ) (l : List Char) :
    Nat.ofDigitChars 10 (l.leftpad w '0') 0 = Nat.ofDigitChars 10 l 0 := by
  unfold leftpad
  induction w - l.length with
  | zero => rfl
  | succ n ih =>
    rw [replicate_succ, cons_append, Nat.ofDigitChars_cons]
    exact ih

/-- A padded number is digits, reads as the number, and keeps its width if it fits. -/
theorem padded_spec {w : ℕ} (hw : 0 < w) (n : ℕ) :
    (padded w n).all Char.isDigit ∧ Nat.ofDigitChars 10 (padded w n) 0 = n ∧
      ((padded w n).length = w ↔ n < 10 ^ w) := by
  have hpad : padded w n = (Nat.toDigits 10 n).leftpad w '0' := if_neg (by omega)
  rw [hpad, ofDigitChars_leftpad, Nat.ofDigitChars_toDigits (by decide) (by decide), length_leftpad,
    ← Nat.length_toDigits_le_iff (b := 10) (by decide) hw]
  refine ⟨all_eq_true.mpr fun c hc => ?_, rfl, by omega⟩
  rcases mem_append.mp hc with hc | hc
  · rw [eq_of_mem_replicate hc]
    rfl
  · exact Nat.isDigit_of_mem_toDigits (by decide) (by decide) hc

theorem lt_of_ofDigitChars_lt {a b : List Char} (hlen : a.length = b.length) (ha : a.all Char.isDigit)
    (hb : b.all Char.isDigit) {i j : ℕ} (h : Nat.ofDigitChars 10 a i < Nat.ofDigitChars 10 b j) :
    i < j ∨ i = j ∧ a < b := by
  induction a generalizing b i j with
  | nil =>
    cases b with
    | nil => exact .inl h
    | cons => simp at hlen
  | cons c a ih =>
    cases b with
    | nil => simp at hlen
    | cons d b =>
      simp only [all_cons, Bool.and_eq_true, Char.isDigit_iff_toNat] at ha hb
      rw [Nat.ofDigitChars_cons, Nat.ofDigitChars_cons] at h
      rw [cons_lt_cons_iff]
      have hzero : '0'.toNat = 48 := rfl
      have hnine : '9'.toNat = 57 := rfl
      have hlt : c < d ↔ c.toNat < d.toNat := Iff.rfl
      have heq : c.toNat = d.toNat → c = d := Char.toNat_inj.mp
      rcases ih (by simpa using hlen) ha.2 hb.2 h with h | ⟨h, hab⟩
      · rcases Nat.lt_trichotomy i j with hij | hij | hij
        · exact .inl hij
        · exact .inr ⟨hij, .inl (hlt.mpr (by omega))⟩
        · omega
      · exact (Nat.lt_or_ge i j).imp id fun hij => ⟨by omega, .inr ⟨heq (by omega), hab⟩⟩

theorem padded_lt {w m n : ℕ} (hw : 0 < w) (hn : n < 10 ^ w) (h : m < n) : padded w m < padded w n := by
  obtain ⟨hmd, hmv, hm⟩ := padded_spec hw m
  obtain ⟨hnd, hnv, hn'⟩ := padded_spec hw n
  have hlen := (hm.mpr (h.trans hn)).trans (hn'.mpr hn).symm
  rcases lt_of_ofDigitChars_lt hlen hmd hnd (by rwa [hmv, hnv]) with hlt | ⟨-, hlt⟩
  · exact absurd hlt (Nat.lt_irrefl 0)
  · exact hlt

theorem append_lt_append {a b : List Char} (hlen : a.length = b.length) (h : a < b) (c d : List Char) :
    a ++ c < b ++ d := by
  induction a generalizing b with
  | nil =>
    cases b with
    | nil => exact absurd h (by simp)
    | cons => simp at hlen
  | cons x a ih =>
    cases b with
    | nil => simp at hlen
    | cons y b =>
      rw [cons_append, cons_append, cons_lt_cons_iff] at *
      exact h.imp id (And.imp id (ih (by simpa using hlen)))

def InRange (day : ℤ) : Prop := 0 ≤ (civilFromDays day).year ∧ (civilFromDays day).year ≤ 9999

theorem exists_civilFromDays (d : ℤ) :
    ∃ m n : ℕ, m < 10 ^ 2 ∧ n < 10 ^ 2 ∧ civilFromDays d = ⟨(civilFromDays d).year, m, n⟩ := by
  obtain ⟨⟨hm, hn⟩, -⟩ := civilFromDays_next d
  have hdays : ∀ y m, daysIn y m ≤ 31 := by
    intro y m
    unfold daysIn
    split_ifs <;> omega
  have hn' := hn.2.trans (hdays _ _)
  refine ⟨(civilFromDays d).month.toNat, (civilFromDays d).day.toNat, by omega, by omega, ?_⟩
  rw [Int.toNat_of_nonneg (by omega), Int.toNat_of_nonneg (by omega)]

theorem splitOn_dateDirOfDay {d : ℤ} {y m n : ℕ} (h : civilFromDays d = ⟨y, m, n⟩) :
    (dateDirOfDay d).splitOn '-' = [padded 4 y, padded 2 m, padded 2 n] := by
  have hdash : ∀ {w k : ℕ}, 0 < w → '-' ∉ padded w k := fun hw hmem =>
    absurd (all_eq_true.mp (padded_spec hw _).1 _ hmem) (by decide)
  rw [dateDirOfDay, h]
  refine splitOn_intercalate '-' (fun l hl => ?_) (by simp)
  simp only [mem_cons, not_mem_nil, or_false] at hl
  rcases hl with rfl | rfl | rfl <;> exact hdash (by decide)

/-- A day's directory name is parsed as the day. -/
theorem parseDateDir_dateDirOfDay {d : ℤ} (h : InRange d) : parseDateDir (dateDirOfDay d) = some d := by
  obtain ⟨m, n, hm, hn, hdate⟩ := exists_civilFromDays d
  obtain ⟨y, hy⟩ := Int.eq_ofNat_of_zero_le h.1
  have hy' : y < 10 ^ 4 := by
    have := h.2
    omega
  rw [hy] at hdate
  have hfield : ∀ {w k : ℕ}, 0 < w → k < 10 ^ w → dateField (padded w k) w = some (k : ℤ) := by
    intro w k hw hk
    obtain ⟨hdigit, hvalue, hlen⟩ := padded_spec hw k
    rw [dateField, if_pos ⟨hlen.mpr hk, hdigit⟩, hvalue]
  have hday : daysFromCivil ⟨y, m, n⟩ = d := hdate ▸ daysFromCivil_civilFromDays d
  rw [parseDateDir, splitOn_dateDirOfDay hdate]
  dsimp only
  rw [hfield (by decide) hy', hfield (by decide) hm, hfield (by decide) hn]
  simp [hday]

/-- A name that parses is the day's own. -/
theorem of_parseDateDir {name : List Char} {d : ℤ} (h : parseDateDir name = some d) :
    InRange d ∧ name = dateDirOfDay d := by
  unfold parseDateDir at h
  split at h
  · rename_i year month day hsplit
    simp only [Option.bind_eq_bind, Option.bind_eq_some_iff, Option.ite_none_right_eq_some, Option.some.injEq] at h
    obtain ⟨y, hy, _, -, _, -, hname, rfl⟩ := h
    refine ⟨?_, hname.symm⟩
    have hlen : year.length = 4 := by
      by_contra hne
      simp [dateField, hne] at hy
    rw [← hname] at hsplit
    generalize daysFromCivil _ = d at *
    obtain ⟨m, n, -, -, hdate⟩ := exists_civilFromDays d
    by_cases hneg : (civilFromDays d).year < 0
    · simp only [dateDirOfDay, padded, hneg, if_true, intercalate_cons_cons, cons_append, splitOn,
        splitOnP_cons_eq_if_modifyHead, beq_self_eq_true] at hsplit
      rw [← (cons.inj hsplit).1] at hlen
      nomatch hlen
    · obtain ⟨k, hk⟩ := Int.eq_ofNat_of_zero_le (not_lt.mp hneg)
      rw [hk] at hdate
      rw [splitOn_dateDirOfDay hdate] at hsplit
      cases hsplit
      have := (padded_spec (by decide) k).2.2.mp hlen
      exact ⟨not_lt.mp hneg, by omega⟩
  · nomatch h

/-- Names sort as their days do. -/
theorem dateDirOfDay_lt {d d' : ℤ} (h : InRange d) (h' : InRange d') (hlt : d < d') :
    dateDirOfDay d < dateDirOfDay d' := by
  have hkey := strictMono_civilFromDays hlt
  obtain ⟨m, n, hm, hn, hdate⟩ := exists_civilFromDays d
  obtain ⟨m', n', hm', hn', hdate'⟩ := exists_civilFromDays d'
  obtain ⟨y, hy⟩ := Int.eq_ofNat_of_zero_le h.1
  obtain ⟨y', hy'⟩ := Int.eq_ofNat_of_zero_le h'.1
  have hyear : y < 10 ^ 4 ∧ y' < 10 ^ 4 := by
    have := h.2
    have := h'.2
    omega
  rw [hy] at hdate
  rw [hy'] at hdate'
  have hfirst : ∀ {w k k' : ℕ} {a b : List Char}, 0 < w → k' < 10 ^ w → k < k' →
      padded w k ++ a < padded w k' ++ b := by
    intro w k k' a b hw hk' hlt
    refine append_lt_append ?_ (padded_lt hw hk' hlt) a b
    rw [(padded_spec hw k).2.2.mpr (hlt.trans hk'), (padded_spec hw k').2.2.mpr hk']
  simp only [Date.key, hdate, hdate', Prod.Lex.toLex_lt_toLex, Nat.cast_lt, Nat.cast_inj] at hkey
  simp only [dateDirOfDay, hdate, hdate', intercalate_cons_cons, intercalate_singleton, append_assoc]
  rcases hkey with hlt | ⟨rfl, hlt | ⟨rfl, hlt⟩⟩
  · exact hfirst (by decide) hyear.2 hlt
  · exact append_left_lt (append_left_lt (hfirst (by decide) hm' hlt))
  · exact append_left_lt (append_left_lt (append_left_lt (append_left_lt (padded_lt (by decide) hn' hlt))))

/-- The dates of the days are the calendar's, from 1970-01-01 on and back, and lead back to the days. The name
of every time whose year has four digits reads back as its day, names are in the order of their days, and
nothing but these names is read. -/
theorem archive_days_convert :
    (civilFromDays 0 = ⟨1970, 1, 1⟩ ∧
      ∀ d, (civilFromDays d).Valid ∧ civilFromDays (d + 1) = (civilFromDays d).next) ∧
    (∀ d, daysFromCivil (civilFromDays d) = d) ∧
    (∀ e, InRange (dayOf e) → parseDateDir (dateDir e) = some (dayOf e)) ∧
    (∀ d d', InRange d → InRange d' → d < d' → dateDirOfDay d < dateDirOfDay d') ∧
    ∀ name day, parseDateDir name = some day → InRange day ∧ name = dateDirOfDay day :=
  ⟨⟨by decide, civilFromDays_next⟩, daysFromCivil_civilFromDays, fun _ => parseDateDir_dateDirOfDay,
    fun _ _ => dateDirOfDay_lt, fun _ _ => of_parseDateDir⟩

end Virtkit.Atop
