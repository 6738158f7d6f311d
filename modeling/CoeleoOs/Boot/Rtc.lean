import CoeleoOs.Lib.Calendar
import Mathlib.Data.Nat.Bitwise
import Mathlib.Tactic.IntervalCases

/-!
# The clock

A snapshot of the clock's registers is decoded by the format bits among them. The fields are checked
one by one, each against its own range, and the length of the month is not looked at.
-/

namespace CoeleoOs.Boot
open CoeleoOs.Lib.Calendar

def statB24h : UInt8 := 1 <<< (1 : UInt8)
def statBBin : UInt8 := 1 <<< (2 : UInt8)
def hourPm : UInt8 := 1 <<< (7 : UInt8)

structure Civil where
  year : ℕ
  month : ℕ
  day : ℕ
  hour : ℕ
  min : ℕ
  sec : ℕ
  deriving DecidableEq

def bcd (v : UInt8) : Option ℕ :=
  let hi := (v >>> 4).toNat
  let lo := (v &&& 0x0F).toNat
  if 9 < hi ∨ 9 < lo then none else some (hi * 10 + lo)

def decodeU8 (v : UInt8) (bin : Bool) : Option ℕ := if bin then some v.toNat else bcd v

def hour12 (h : ℕ) (pm : Bool) : Option ℕ :=
  if h < 1 ∨ 12 < h then none
  else
    match h, pm with
    | 12, false => some 0
    | 12, true => some 12
    | n, true => some (n + 12)
    | n, false => some n

def decodeHour (hour : UInt8) (bin h24 : Bool) : Option ℕ :=
  let pm := hour &&& hourPm ≠ 0
  if bin then if h24 then some hour.toNat else hour12 (hour &&& ~~~hourPm).toNat pm
  else do
    let h ← bcd (hour &&& ~~~hourPm)
    if h24 then some h else hour12 h pm

def fullYear (century : Option ℕ) (year : ℕ) : ℕ :=
  match century with
  | some c => c * 100 + year
  | none => if year < 100 then year + 2000 else year

def decode (raw : Vector UInt8 8) : Option Civil := do
  let statB := raw[6]
  let bin : Bool := statB &&& statBBin ≠ 0
  let sec ← decodeU8 raw[0] bin
  let min ← decodeU8 raw[1] bin
  let day ← decodeU8 raw[3] bin
  let month ← decodeU8 raw[4] bin
  let year ← decodeU8 raw[5] bin
  let hour ← decodeHour raw[2] bin (statB &&& statB24h ≠ 0)
  if 59 < sec ∨ 59 < min ∨ 23 < hour ∨ day < 1 ∨ 31 < day ∨ month < 1 ∨ 12 < month then none
  else
    let century := (decodeU8 raw[7] bin).filter fun c => 19 ≤ c ∧ c ≤ 21
    let y := fullYear century year
    if ¬ (2000 ≤ y ∧ y ≤ 2099) then none else some ⟨y, month, day, hour, min, sec⟩

def unixDays (date : Date) : ℤ :=
  let m : ℤ := date.month
  let d : ℤ := date.day
  let y : ℤ := date.year - if m ≤ 2 then 1 else 0
  let era := (if 0 ≤ y then y else y - 399).tdiv 400
  let yoe := y - era * 400
  let doy := (153 * (if 2 < m then m - 3 else m + 9) + 2).tdiv 5 + d - 1
  let doe := yoe * 365 + yoe.tdiv 4 - yoe.tdiv 100 + doy
  era * 146097 + doe - 719468

def Civil.date (c : Civil) : Date := ⟨c.year, c.month, c.day⟩

def unixTimestamp (c : Civil) : Option ℕ :=
  let days := unixDays c.date
  if days < 0 then none else some (days.toNat * 86400 + c.hour * 3600 + c.min * 60 + c.sec)

/-- A date of the calendar, and a time of the day. -/
structure Civil.Exists (c : Civil) : Prop where
  date : c.date.Valid
  hour : c.hour < 24
  min : c.min < 60
  sec : c.sec < 60

/-- The number `v` in a register, in binary or as two decimal digits. -/
def Coded (bin : Bool) (b v : ℕ) : Prop := if bin then b = v else v < 100 ∧ b = v / 10 * 16 + v % 10

/-- The hour `h` in its register. The highest bit tells the half of the day where the clock counts
to twelve; in decimal digits it is no part of the hour. -/
def HourCoded (bin h24 : Bool) (b h : ℕ) : Prop :=
  if h24 then Coded bin (if bin then b else b % 128) h
  else ∃ n, Coded bin (b % 128) n ∧ 1 ≤ n ∧ n ≤ 12 ∧ h = n % 12 + if 128 ≤ b then 12 else 0

/-- The year in its register and the register of the century, which may show none. -/
def YearCoded (bin : Bool) (b c y : ℕ) : Prop :=
  ∃ n, Coded bin b n ∧ ((∃ k, Coded bin c k ∧ 19 ≤ k ∧ k ≤ 21 ∧ y = k * 100 + n) ∨
    (¬ ∃ k, Coded bin c k ∧ 19 ≤ k ∧ k ≤ 21) ∧ n < 100 ∧ y = 2000 + n)

def snapBin (raw : Vector UInt8 8) : Bool := raw[6] &&& statBBin ≠ 0
def snap24h (raw : Vector UInt8 8) : Bool := raw[6] &&& statB24h ≠ 0

/-- A snapshot of a clock that shows `c`, in the format its own bits tell. -/
structure Shows (raw : Vector UInt8 8) (c : Civil) : Prop where
  sec : Coded (snapBin raw) raw[0].toNat c.sec
  min : Coded (snapBin raw) raw[1].toNat c.min
  hour : HourCoded (snapBin raw) (snap24h raw) raw[2].toNat c.hour
  day : Coded (snapBin raw) raw[3].toNat c.day
  month : Coded (snapBin raw) raw[4].toNat c.month
  year : YearCoded (snapBin raw) raw[5].toNat raw[7].toNat c.year

/-- Each field in its own range. -/
structure Civil.InRange (c : Civil) : Prop where
  sec : c.sec ≤ 59
  min : c.min ≤ 59
  hour : c.hour ≤ 23
  day : 1 ≤ c.day ∧ c.day ≤ 31
  month : 1 ≤ c.month ∧ c.month ≤ 12
  year : 2000 ≤ c.year ∧ c.year ≤ 2099

variable {raw : Vector UInt8 8} {c : Civil} {bin h24 : Bool} {b : UInt8} {v : ℕ}

theorem bcd_eq_some : bcd b = some v ↔ Coded false b.toNat v := by
  have hhi : (b >>> 4).toNat = b.toNat / 16 := by
    rw [UInt8.toNat_shiftRight]
    exact Nat.shiftRight_eq_div_pow _ 4
  have hlo : (b &&& 0x0F).toNat = b.toNat % 16 := by
    rw [UInt8.toNat_and]
    exact Nat.and_two_pow_sub_one_eq_mod _ 4
  have hb := b.toNat_lt
  rw [bcd, hhi, hlo, Coded, if_neg Bool.false_ne_true]
  split
  · simp only [reduceCtorEq, false_iff]
    omega
  · rw [Option.some.injEq]
    omega

theorem decodeU8_eq_some : decodeU8 b bin = some v ↔ Coded bin b.toNat v := by
  cases bin with
  | true => rw [decodeU8, if_pos rfl, Option.some.injEq, Coded, if_pos rfl]
  | false => rw [decodeU8, if_neg Bool.false_ne_true, bcd_eq_some]

theorem hour12_eq_some {n h : ℕ} {pm : Bool} :
    hour12 n pm = some h ↔ 1 ≤ n ∧ n ≤ 12 ∧ h = n % 12 + if pm then 12 else 0 := by
  rw [hour12.eq_def]
  by_cases hn : n < 1 ∨ 12 < n
  · rw [if_pos hn]
    simp only [reduceCtorEq, false_iff]
    omega
  · rw [if_neg hn]
    have hlo : 1 ≤ n := by omega
    have hhi : n ≤ 12 := by omega
    interval_cases n <;> cases pm <;> simp [eq_comm]

theorem hour_bits (b : UInt8) :
    (b &&& ~~~hourPm).toNat = b.toNat % 128 ∧ (b &&& hourPm ≠ 0 ↔ 128 ≤ b.toNat) := by
  have hb := b.toNat_lt
  constructor
  · rw [UInt8.toNat_and]
    exact Nat.and_two_pow_sub_one_eq_mod _ 7
  · have hbit : (b &&& hourPm).toNat = (b.toNat.testBit 7).toNat * 128 := by
      rw [UInt8.toNat_and]
      exact Nat.and_two_pow _ 7
    have htest : b.toNat.testBit 7 = decide (128 ≤ b.toNat) := by
      rw [Nat.testBit_eq_decide_div_mod_eq, decide_eq_decide]
      omega
    rw [Ne, ← UInt8.toNat_inj, hbit, htest]
    by_cases h : 128 ≤ b.toNat
    · simp [h]
    · simp [h]

theorem decodeHour_eq_some {h : ℕ} :
    decodeHour b bin h24 = some h ↔ HourCoded bin h24 b.toNat h := by
  obtain ⟨hlow, hpm⟩ := hour_bits b
  cases bin with
  | true =>
    cases h24 with
    | true => simp [decodeHour, HourCoded, Coded]
    | false =>
      simp only [decodeHour, HourCoded, Coded, if_true, Bool.false_eq_true, if_false,
        hour12_eq_some, hlow, decide_eq_true_eq, hpm, exists_eq_left']
  | false =>
    simp only [decodeHour, HourCoded, Bool.false_eq_true, if_false, Option.bind_eq_bind,
      Option.bind_eq_some_iff, bcd_eq_some, hlow]
    cases h24 with
    | true => simp
    | false =>
      simp only [Bool.false_eq_true, if_false, hour12_eq_some, decide_eq_true_eq, hpm]

theorem fullYear_eq {b' : UInt8} {y : ℕ} (hy : 2000 ≤ y ∧ y ≤ 2099) :
    (∃ n, decodeU8 b bin = some n ∧ fullYear ((decodeU8 b' bin).filter fun c => 19 ≤ c ∧ c ≤ 21) n =
      y) ↔ YearCoded bin b.toNat b'.toNat y := by
  simp only [YearCoded, ← decodeU8_eq_some]
  refine exists_congr fun n => and_congr_right fun hn => ?_
  have hbyte : n < 256 := by
    rw [decodeU8_eq_some, Coded] at hn
    have hb := b.toNat_lt
    split at hn
    · omega
    · omega
  cases hc : (decodeU8 b' bin).filter fun c => 19 ≤ c ∧ c ≤ 21 with
  | some k =>
    simp only [Option.filter_eq_some_iff, decide_eq_true_eq] at hc
    rw [fullYear]
    constructor
    · intro h
      exact .inl ⟨k, hc.1, hc.2.1, hc.2.2, h.symm⟩
    · rintro (⟨k', hk', -, -, h⟩ | ⟨hnone, -⟩)
      · obtain rfl := Option.some.inj (hc.1.symm.trans hk')
        exact h.symm
      · exact absurd ⟨k, hc⟩ hnone
  | none =>
    simp only [Option.filter_eq_none_iff, decide_eq_true_eq] at hc
    have hnone : ¬ ∃ k, decodeU8 b' bin = some k ∧ 19 ≤ k ∧ k ≤ 21 := by
      rintro ⟨k, hk, hrange⟩
      exact hc k hk hrange
    rw [fullYear]
    constructor
    · intro h
      split at h
      · exact .inr ⟨hnone, by omega, by omega⟩
      · omega
    · rintro (⟨k, hk⟩ | ⟨-, hlt, h⟩)
      · exact absurd ⟨k, hk.1, hk.2.1, hk.2.2.1⟩ hnone
      · rw [if_pos hlt]
        omega

theorem decode_eq_some : decode raw = some c ↔ Shows raw c ∧ c.InRange := by
  simp only [decode, Option.bind_eq_bind, Option.bind_eq_some_iff]
  constructor
  · rintro ⟨sec, hsec, min, hmin, day, hday, month, hmonth, year, hyear, hour, hhour, h⟩
    split at h
    · cases h
    rename_i hrange
    split at h
    · cases h
    rename_i hy
    rw [Option.some.injEq] at h
    subst h
    rw [not_not] at hy
    refine ⟨⟨decodeU8_eq_some.mp hsec, decodeU8_eq_some.mp hmin, decodeHour_eq_some.mp hhour,
      decodeU8_eq_some.mp hday,
      decodeU8_eq_some.mp hmonth, (fullYear_eq hy).mp ⟨year, hyear, rfl⟩⟩, ?_⟩
    constructor <;> dsimp only <;> omega
  · rintro ⟨hshows, hrange⟩
    obtain ⟨year, hyear, hfull⟩ := (fullYear_eq hrange.year).mpr hshows.year
    refine ⟨c.sec, decodeU8_eq_some.mpr hshows.sec, c.min, decodeU8_eq_some.mpr hshows.min, c.day,
      decodeU8_eq_some.mpr hshows.day, c.month, decodeU8_eq_some.mpr hshows.month, year, hyear,
      c.hour, decodeHour_eq_some.mpr hshows.hour, ?_⟩
    obtain ⟨hsec, hmin, hhour, hday, hmonth, hy⟩ := hrange
    rw [if_neg (by omega)]
    rw [snapBin] at hfull
    rw [hfull, if_neg (not_not.mpr hy)]

def code (bin : Bool) (v : ℕ) : UInt8 := .ofNat (if bin then v else v / 10 * 16 + v % 10)

def clock12 (h : ℕ) : ℕ := if h % 12 = 0 then 12 else h % 12

def registers (bin h24 : Bool) (century : UInt8) (c : Civil) : Vector UInt8 8 :=
  let hour :=
    if h24 then code bin c.hour else code bin (clock12 c.hour) ||| if 12 ≤ c.hour then hourPm else 0
  #v[code bin c.sec, code bin c.min, hour, code bin c.day, code bin c.month,
    code bin (c.year % 100), (if bin then statBBin else 0) ||| (if h24 then statB24h
      else 0), century]

theorem coded_code (bin : Bool) (hv : v < 100) : Coded bin (code bin v).toNat v := by
  cases bin with
  | true =>
    rw [Coded, if_pos rfl, code, if_pos rfl, UInt8.toNat_ofNat']
    omega
  | false =>
    rw [Coded, if_neg Bool.false_ne_true, code, if_neg Bool.false_ne_true, UInt8.toNat_ofNat']
    omega

theorem registers_format (bin h24 : Bool) (century : UInt8) (c : Civil) :
    snapBin (registers bin h24 century c) = bin ∧ snap24h (registers bin h24 century c) = h24 := by
  have hbits : ∀ bin h24 : Bool,
      decide (((if bin then statBBin else 0) ||| (if h24 then statB24h else 0)) &&& statBBin ≠ 0) =
        bin ∧ decide (((if bin then statBBin else 0) ||| (if h24 then statB24h else 0)) &&&
          statB24h ≠ 0) = h24 := by
    decide
  exact hbits bin h24

theorem clock12_spec (h : ℕ) : 1 ≤ clock12 h ∧ clock12 h ≤ 12 ∧ clock12 h % 12 = h % 12 := by
  rw [clock12]
  split
  · omega
  · omega

theorem hourCoded_code (bin h24 : Bool) {h : ℕ} (hh : h < 24) :
    HourCoded bin h24 (if h24 then code bin h else code bin (clock12 h) ||| if 12 ≤ h then hourPm
      else 0).toNat h := by
  have hsmall : ∀ bin : Bool, ∀ h < 24, (code bin h).toNat < 128 := by decide
  cases h24 with
  | true =>
    rw [HourCoded, if_pos rfl, if_pos rfl, Nat.mod_eq_of_lt (hsmall bin h hh), ite_self]
    exact coded_code bin (Nat.lt_trans hh (by decide))
  | false =>
    have hbits :
        ∀ bin : Bool, ∀ h < 24, (code bin (clock12 h) ||| if 12 ≤ h then hourPm else 0).toNat =
        (code bin (clock12 h)).toNat + if 12 ≤ h then 128 else 0 := by
      decide
    obtain ⟨hpos, hle, hmod⟩ := clock12_spec h
    have hlow := hsmall bin (clock12 h) (Nat.lt_of_le_of_lt hle (by decide))
    have hcoded := coded_code bin (Nat.lt_of_le_of_lt hle (by decide : 12 < 100))
    rw [HourCoded, if_neg Bool.false_ne_true, if_neg Bool.false_ne_true, hbits bin h hh]
    refine ⟨clock12 h, ?_, hpos, hle, ?_⟩
    · split
      · rwa [Nat.add_mod_right, Nat.mod_eq_of_lt hlow]
      · rwa [Nat.add_zero, Nat.mod_eq_of_lt hlow]
    · rw [hmod]
      by_cases hpm : 12 ≤ h
      · rw [if_pos hpm, if_pos (Nat.le_add_left _ _)]
        omega
      · rw [if_neg hpm, Nat.add_zero, if_neg (Nat.not_le.mpr hlow)]
        omega

theorem shows_registers (bin h24 : Bool) {century : UInt8} (h : c.Exists) (hlo : 2000 ≤ c.year)
    (hhi : c.year ≤ 2099) (hcentury : ∀ k, Coded bin century.toNat k → 19 ≤ k ∧ k ≤ 21 → k = 20) :
    Shows (registers bin h24 century c) c := by
  obtain ⟨hbin, hh24⟩ := registers_format bin h24 century c
  have hday := Nat.le_trans h.date.day_le (Date.monthDays_ge c.year c.month).2
  have hmonth := h.date.month_le
  constructor
  · rw [hbin]
    exact coded_code bin (Nat.lt_trans h.sec (by decide))
  · rw [hbin]
    exact coded_code bin (Nat.lt_trans h.min (by decide))
  · rw [hbin, hh24]
    exact hourCoded_code bin h24 h.hour
  · rw [hbin]
    exact coded_code bin (Nat.lt_of_le_of_lt hday (by decide))
  · rw [hbin]
    exact coded_code bin (Nat.lt_of_le_of_lt hmonth (by decide))
  · rw [hbin]
    refine ⟨c.year % 100, coded_code bin (Nat.mod_lt _ (by decide)), ?_⟩
    by_cases hshown : ∃ k, Coded bin century.toNat k ∧ 19 ≤ k ∧ k ≤ 21
    · obtain ⟨k, hk, hrange⟩ := hshown
      obtain rfl := hcentury k hk hrange
      exact .inl ⟨20, hk, by decide, by decide, by omega⟩
    · exact .inr ⟨hshown, Nat.mod_lt _ (by decide), by omega⟩

def marchDays (y m d : ℤ) : ℤ :=
  y * 365 + y / 4 - y / 100 + y / 400 + (153 * m + 2) / 5 + d - 719469

theorem unixDays_eq {d : Date} (hyear : 0 < d.year) (hmonth : 1 ≤ d.month) :
    (d.month ≤ 2 → unixDays d = marchDays (d.year - 1) (d.month + 9) d.day) ∧
      (2 < d.month → unixDays d = marchDays d.year (d.month - 3) d.day) := by
  have hera : ∀ y : ℤ, 0 ≤ y → (if 0 ≤ y then y else y - 399).tdiv 400 = y / 400 := by
    intro y hy
    rw [if_pos hy, Int.tdiv_eq_ediv_of_nonneg hy]
  have hyoe : ∀ y : ℤ, 0 ≤ y - y / 400 * 400 := by omega
  rw [unixDays, marchDays, marchDays]
  constructor
  · intro hm
    have hm1 : (d.month : ℤ) ≤ 2 := by omega
    have hm2 : ¬ 2 < (d.month : ℤ) := by omega
    simp only [hm1, hm2, if_true, if_false]
    rw [hera _ (by omega), Int.tdiv_eq_ediv_of_nonneg (hyoe _), Int.tdiv_eq_ediv_of_nonneg (hyoe _),
      Int.tdiv_eq_ediv_of_nonneg (by omega)]
    omega
  · intro hm
    have hm1 : ¬ (d.month : ℤ) ≤ 2 := by omega
    have hm2 : 2 < (d.month : ℤ) := by omega
    simp only [hm1, hm2, if_true, if_false, Int.sub_zero]
    rw [hera _ (by omega), Int.tdiv_eq_ediv_of_nonneg (hyoe _), Int.tdiv_eq_ediv_of_nonneg (hyoe _),
      Int.tdiv_eq_ediv_of_nonneg (by omega)]
    omega

theorem marchDays_leap {year : ℕ} :
    marchDays year 0 1 = marchDays (year - 1) 11 (monthDays year 2) + 1 := by
  have hlen : (monthDays year 2 : ℤ) = if isLeap year then 29 else 28 := by
    rw [monthDays, if_pos rfl]
    split <;> rfl
  rw [hlen, marchDays, marchDays]
  by_cases hleap : isLeap year
  · rw [if_pos hleap]
    obtain ⟨h4, h100⟩ := hleap
    omega
  · rw [if_neg hleap]
    rw [isLeap] at hleap
    omega

theorem marchDays_month (y : ℤ) {k : ℤ} {year m : ℕ}
    (h : (m = 1 ∧ k = 10) ∨ (2 < m ∧ m < 12 ∧ k = m - 3)) :
    marchDays y (k + 1) 1 = marchDays y k (monthDays year m) + 1 := by
  rw [marchDays, marchDays]
  rcases h with ⟨rfl, rfl⟩ | ⟨hlo, hhi, rfl⟩
  · have hlen : monthDays year 1 = 31 := rfl
    omega
  · interval_cases m <;> simp [monthDays] <;> omega

theorem unixDays_next {d : Date} (h : d.Valid) (hyear : 0 < d.year) :
    unixDays d.next = unixDays d + 1 := by
  have hmonth := h.month_pos
  obtain ⟨hearly, hlate⟩ := unixDays_eq hyear hmonth
  rcases h.next_cases with ⟨hday, heq⟩ | ⟨hday, hm, heq⟩ | ⟨hday, hm, heq⟩
  · obtain ⟨hearly', hlate'⟩ := unixDays_eq (d := ⟨d.year, d.month, d.day + 1⟩) hyear hmonth
    rw [heq]
    rcases Nat.lt_or_ge 2 d.month with hm | hm
    · rw [hlate' hm, hlate hm, marchDays, marchDays]
      dsimp only
      omega
    · rw [hearly' hm, hearly hm, marchDays, marchDays]
      dsimp only
      omega
  · obtain ⟨hearly', hlate'⟩ :=
      unixDays_eq (d := ⟨d.year, d.month + 1, 1⟩) hyear (Nat.le_add_left 1 _)
    rw [heq]
    rcases Nat.lt_or_ge 2 d.month with hlt | hle
    · rw [hlate' (Nat.lt_succ_of_lt hlt), hlate hlt, hday]
      have hstep := @marchDays_month d.year (d.month - 3) d.year d.month (.inr ⟨hlt, hm, rfl⟩)
      rw [← hstep]
      congr 1
      dsimp only
      omega
    · rcases Nat.lt_or_ge 1 d.month with hfeb | hjan
      · have htwo : d.month = 2 := by omega
        rw [hlate' (Nat.succ_lt_succ hfeb), hearly hle, hday, htwo]
        exact marchDays_leap
      · have hone : d.month = 1 := by omega
        rw [hearly' (Nat.succ_le_succ hjan), hearly hle, hday, hone]
        exact marchDays_month (d.year - 1) (k := 10) (.inl ⟨rfl, rfl⟩)
  · obtain ⟨hearly', -⟩ := unixDays_eq (d := ⟨d.year + 1, 1, 1⟩) (Nat.succ_pos _) (Nat.le_refl 1)
    rw [heq, hearly' (by simp), hlate (by omega), hm, hday, marchDays, marchDays]
    dsimp only
    omega

def unixEpoch : Date := ⟨1970, 1, 1⟩

theorem unixDays_iterate (n : ℕ) : unixDays (Date.next^[n] unixEpoch) = n := by
  have hepoch : unixEpoch.Valid := by constructor <;> decide
  induction n with
  | zero => decide
  | succ n ih =>
    have hyear := Date.year_le_iterate unixEpoch n
    rw [Function.iterate_succ_apply',
      unixDays_next (hepoch.iterate n) (Nat.lt_of_lt_of_le (by decide) hyear), ih]
    rfl

/-- The time is told as the seconds that passed since the epoch, where a day has 86400 of them. -/
def Civil.SecondsSince (c : Civil) (n : ℕ) : Prop :=
  ∃ days, Date.next^[days] unixEpoch = c.date ∧
    n = days * 86400 + c.hour * 3600 + c.min * 60 + c.sec

theorem unixTimestamp_eq (h : c.Exists) (hyear : 1970 ≤ c.year) :
    ∃ n, unixTimestamp c = some n ∧ c.SecondsSince n := by
  obtain ⟨days, hdays⟩ := h.date.reached (show 1970 ≤ c.date.year from hyear)
  have hcount : unixDays c.date = days := by
    rw [← hdays]
    exact unixDays_iterate days
  refine ⟨_, ?_, days, hdays, rfl⟩
  rw [unixTimestamp, hcount, if_neg (by omega), Int.toNat_natCast]

/-- Only dates and times that exist are decoded, and each of this century is decoded from every
format and told in seconds. -/
structure Exact (raw : Vector UInt8 8) : Prop where
  sound : ∀ c, decode raw = some c → c.Exists
  complete : ∀ c : Civil, c.Exists → 2000 ≤ c.year → c.year ≤ 2099 → Shows raw c →
    decode raw = some c ∧ ∃ n, unixTimestamp c = some n ∧ c.SecondsSince n

/-- No day past the end of its month is shown. -/
def InMonth (raw : Vector UInt8 8) : Prop :=
  ∀ c : Civil, Shows raw c → c.InRange → c.day ≤ monthDays c.year c.month

theorem Civil.Exists.inRange (h : c.Exists) (hlo : 2000 ≤ c.year) (hhi : c.year ≤ 2099) :
    c.InRange where
  sec := Nat.le_of_lt_succ h.sec
  min := Nat.le_of_lt_succ h.min
  hour := Nat.le_of_lt_succ h.hour
  day := ⟨h.date.day_pos, Nat.le_trans h.date.day_le (Date.monthDays_ge c.year c.month).2⟩
  month := ⟨h.date.month_pos, h.date.month_le⟩
  year := ⟨hlo, hhi⟩

theorem decode_exact_iff (raw : Vector UInt8 8) : Exact raw ↔ InMonth raw := by
  constructor
  · intro h c hshows hrange
    exact (h.sound c (decode_eq_some.mpr ⟨hshows, hrange⟩)).date.day_le
  · intro h
    constructor
    · intro c hc
      obtain ⟨hshows, hrange⟩ := decode_eq_some.mp hc
      have hday := h c hshows hrange
      exact ⟨⟨hrange.month.1, hrange.month.2, hrange.day.1, hday⟩, Nat.lt_succ_of_le hrange.hour,
        Nat.lt_succ_of_le hrange.min, Nat.lt_succ_of_le hrange.sec⟩
    · intro c hc hlo hhi hshows
      exact ⟨decode_eq_some.mpr ⟨hshows, hc.inRange hlo hhi⟩,
        unixTimestamp_eq hc (Nat.le_trans (by decide) hlo)⟩

def february31 : Vector UInt8 8 := #v[0x00, 0x00, 0x00, 0x31, 0x02, 0x23, 0x02, 0x20]

theorem decode_february : ¬ ∀ raw, Exact raw := by
  intro h
  have hread : decode february31 = some ⟨2023, 2, 31, 0, 0, 0⟩ := by decide
  exact absurd ((h february31).sound _ hread).date.day_le (by decide)

end CoeleoOs.Boot
