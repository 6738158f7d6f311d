import Mathlib.Logic.Function.Iterate

/-!
# Calendar

The Gregorian calendar, given by the day that follows each day.
-/

namespace CoeleoOs.Lib.Calendar

structure Date where
  year : ℕ
  month : ℕ
  day : ℕ
  deriving DecidableEq

def isLeap (year : ℕ) : Prop := year % 4 = 0 ∧ (year % 100 ≠ 0 ∨ year % 400 = 0)

instance (year : ℕ) : Decidable (isLeap year) := inferInstanceAs (Decidable (_ ∧ _))

def monthDays (year month : ℕ) : ℕ :=
  if month = 2 then if isLeap year then 29 else 28
  else if month = 4 ∨ month = 6 ∨ month = 9 ∨ month = 11 then 30
  else 31

namespace Date

structure Valid (d : Date) : Prop where
  month_pos : 1 ≤ d.month
  month_le : d.month ≤ 12
  day_pos : 1 ≤ d.day
  day_le : d.day ≤ monthDays d.year d.month

def next (d : Date) : Date :=
  if d.day < monthDays d.year d.month then { d with day := d.day + 1 }
  else if d.month < 12 then ⟨d.year, d.month + 1, 1⟩
  else ⟨d.year + 1, 1, 1⟩

variable {d e : Date}

theorem monthDays_ge (year month : ℕ) : 28 ≤ monthDays year month ∧ monthDays year month ≤ 31 := by
  rw [monthDays]
  split
  · split <;> decide
  · split <;> decide

theorem Valid.next_cases (h : d.Valid) :
    (d.day < monthDays d.year d.month ∧ d.next = ⟨d.year, d.month, d.day + 1⟩) ∨
      (d.day = monthDays d.year d.month ∧ d.month < 12 ∧ d.next = ⟨d.year, d.month + 1, 1⟩) ∨
      (d.day = 31 ∧ d.month = 12 ∧ d.next = ⟨d.year + 1, 1, 1⟩) := by
  have hmonth := h.month_le
  have hday := h.day_le
  rw [next]
  split
  · rename_i hlt
    exact .inl ⟨hlt, rfl⟩
  · rename_i hlast
    split
    · rename_i hm
      exact .inr (.inl ⟨by omega, hm, rfl⟩)
    · rename_i hm
      have hdec : d.month = 12 := by omega
      rw [hdec] at hday hlast
      have hlen : monthDays d.year 12 = 31 := rfl
      exact .inr (.inr ⟨by omega, hdec, rfl⟩)

theorem Valid.next (h : d.Valid) : d.next.Valid := by
  have hlen := fun month => (monthDays_ge d.year month).1
  rcases h.next_cases with ⟨hday, heq⟩ | ⟨-, hmonth, heq⟩ | ⟨-, -, heq⟩
  · rw [heq]
    exact ⟨h.month_pos, h.month_le, Nat.le_add_left 1 _, hday⟩
  · rw [heq]
    exact ⟨Nat.le_add_left 1 _, hmonth, Nat.le_refl 1, Nat.le_trans (by simp) (hlen (d.month + 1))⟩
  · rw [heq]
    exact ⟨Nat.le_refl 1, by simp, Nat.le_refl 1, by simp [monthDays]⟩

theorem year_le_next (d : Date) : d.year ≤ d.next.year := by
  rw [Date.next]
  split
  · exact Nat.le_refl _
  · split
    · exact Nat.le_refl _
    · exact Nat.le_succ _

theorem year_le_iterate (d : Date) (n : ℕ) : d.year ≤ (Date.next^[n] d).year := by
  induction n with
  | zero => exact Nat.le_refl _
  | succ n ih =>
    rw [Function.iterate_succ_apply']
    exact Nat.le_trans ih (year_le_next _)

theorem Valid.iterate (h : d.Valid) (n : ℕ) : (Date.next^[n] d).Valid := by
  induction n with
  | zero => exact h
  | succ n ih =>
    rw [Function.iterate_succ_apply']
    exact ih.next

def Reached (s d : Date) : Prop := ∃ n, Date.next^[n] s = d

variable {s : Date} {year month : ℕ}

theorem Reached.next (h : Reached s d) : Reached s d.next := by
  obtain ⟨n, rfl⟩ := h
  exact ⟨n + 1, Function.iterate_succ_apply' ..⟩

theorem Reached.days (h : Reached s ⟨year, month, 1⟩) {k : ℕ} (hk : k < monthDays year month) :
    Reached s ⟨year, month, k + 1⟩ := by
  induction k with
  | zero => exact h
  | succ k ih =>
    have hnext := (ih (Nat.lt_of_succ_lt hk)).next
    rwa [Date.next, if_pos hk] at hnext

theorem Reached.lastDay (h : Reached s ⟨year, month, 1⟩) :
    Reached s ⟨year, month, monthDays year month⟩ := by
  have hlen := (monthDays_ge year month).1
  have hlast := h.days (k := monthDays year month - 1) (by omega)
  rwa [Nat.sub_add_cancel (by omega)] at hlast

theorem Reached.months (h : Reached s ⟨year, 1, 1⟩) {k : ℕ} (hk : k < 12) :
    Reached s ⟨year, k + 1, 1⟩ := by
  induction k with
  | zero => exact h
  | succ k ih =>
    have hnext := (ih (Nat.lt_of_succ_lt hk)).lastDay.next
    rwa [Date.next, if_neg (Nat.lt_irrefl _), if_pos hk] at hnext

theorem Reached.years (k : ℕ) (h : Reached s ⟨year, 1, 1⟩) : Reached s ⟨year + k, 1, 1⟩ := by
  induction k with
  | zero => exact h
  | succ k ih =>
    have hnext := (ih.months (k := 11) (by decide)).lastDay.next
    rwa [Date.next, if_neg (Nat.lt_irrefl _), if_neg (by simp)] at hnext

theorem Valid.reached (h : d.Valid) (hyear : year ≤ d.year) : Reached ⟨year, 1, 1⟩ d := by
  obtain ⟨y, m, dd⟩ := d
  obtain ⟨hm, hm', hd, hd'⟩ := h
  dsimp only at hm hm' hd hd' hyear
  have hstart : Reached ⟨year, 1, 1⟩ ⟨year, 1, 1⟩ := ⟨0, rfl⟩
  have hmonth : Reached ⟨year, 1, 1⟩ ⟨y, m, 1⟩ := by
    have hfirst := (hstart.years (y - year)).months (k := m - 1) (by omega)
    rwa [Nat.add_sub_cancel' hyear, Nat.sub_add_cancel hm] at hfirst
  have hday := hmonth.days (k := dd - 1) (by omega)
  rwa [Nat.sub_add_cancel hd] at hday

end Date

end CoeleoOs.Lib.Calendar
