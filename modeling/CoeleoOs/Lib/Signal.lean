import Mathlib.Data.List.Basic

/-!
# Sampled signals

A signal of one bit that was `b` is sampled some more times. Its edges are read off the samples
alone, so that what a sampler misses hides some edges and never adds one.
-/

namespace CoeleoOs.Lib.Signal

def rises : Bool → List Bool → Bool
  | _, [] => false
  | b, x :: xs => (x && !b) || rises x xs

def falls : Bool → List Bool → Bool
  | _, [] => false
  | b, x :: xs => (!x && b) || falls x xs

def level : Bool → List Bool → Bool
  | b, [] => b
  | _, x :: xs => level x xs

variable {b : Bool} {xs ys : List Bool}

theorem level_append (b : Bool) (xs ys : List Bool) :
    level b (xs ++ ys) = level (level b xs) ys := by
  induction xs generalizing b with
  | nil => rfl
  | cons x xs ih => exact ih x

theorem rises_append (b : Bool) (xs ys : List Bool) :
    rises b (xs ++ ys) = (rises b xs || rises (level b xs) ys) := by
  induction xs generalizing b with
  | nil => rfl
  | cons x xs ih => rw [List.cons_append, rises, rises, level, ih, Bool.or_assoc]

theorem falls_append (b : Bool) (xs ys : List Bool) :
    falls b (xs ++ ys) = (falls b xs || falls (level b xs) ys) := by
  induction xs generalizing b with
  | nil => rfl
  | cons x xs ih => rw [List.cons_append, falls, falls, level, ih, Bool.or_assoc]

theorem level_of_not_rises (h : rises b xs = false) : level b xs = (b && !falls b xs) := by
  induction xs generalizing b with
  | nil => simp [level, falls]
  | cons x xs ih =>
    simp only [rises, Bool.or_eq_false_iff] at h
    rw [level, falls, ih h.2]
    have hx := h.1
    cases b <;> cases x <;> simp_all

theorem rises_of_level (h : level false xs = true) : rises false xs = true := by
  by_contra hr
  rw [Bool.not_eq_true] at hr
  rw [level_of_not_rises hr] at h
  cases h

theorem rises_cons_of_rises (x : Bool) (h : rises b xs = true) : rises b (x :: xs) = true := by
  cases b with
  | false =>
    cases x with
    | false => exact h
    | true => rfl
  | true =>
    cases x with
    | false =>
      cases xs with
      | nil => cases h
      | cons y ys =>
        simp only [rises, Bool.or_eq_true] at h ⊢
        simp only [Bool.not_true, Bool.and_false] at h
        rcases h with h | h
        · cases h
        · exact .inr (.inr h)
    | true => exact h

theorem rises_of_sublist (hs : xs.Sublist ys) (h : rises b xs = true) : rises b ys = true := by
  induction hs generalizing b with
  | slnil => exact h
  | cons x _ ih => exact rises_cons_of_rises x (ih h)
  | cons_cons x _ ih =>
    simp only [rises, Bool.or_eq_true] at h ⊢
    exact h.imp_right ih

end CoeleoOs.Lib.Signal
