import Mathlib.Data.List.Basic
import Mathlib.Order.Bounds.Basic
import Mathlib.Order.MinMax

/-!
# Edit distance

`Edits n a b` says that `n` insertions, deletions and substitutions of single elements turn `a`
into `b`. The recursion `distance` gives the least such number.
-/

namespace CoeleoOs.Lib.EditDistance

variable {α : Type*} {a b c : List α} {n : ℕ}

inductive Edit : List α → List α → Prop
  | insert (pre suf : List α) (x : α) : Edit (pre ++ suf) (pre ++ x :: suf)
  | delete (pre suf : List α) (x : α) : Edit (pre ++ x :: suf) (pre ++ suf)
  | substitute (pre suf : List α) (x y : α) : Edit (pre ++ x :: suf) (pre ++ y :: suf)

inductive Edits : ℕ → List α → List α → Prop
  | refl (a : List α) : Edits 0 a a
  | tail {n : ℕ} {a b c : List α} : Edits n a b → Edit b c → Edits (n + 1) a c

theorem Edit.cons (x : α) (h : Edit a b) : Edit (x :: a) (x :: b) := by
  cases h with
  | insert pre suf y => exact .insert (x :: pre) suf y
  | delete pre suf y => exact .delete (x :: pre) suf y
  | substitute pre suf y z => exact .substitute (x :: pre) suf y z

theorem Edit.reverse (h : Edit a b) : Edit a.reverse b.reverse := by
  cases h with
  | insert pre suf x => simpa using Edit.insert suf.reverse pre.reverse x
  | delete pre suf x => simpa using Edit.delete suf.reverse pre.reverse x
  | substitute pre suf x y => simpa using Edit.substitute suf.reverse pre.reverse x y

theorem Edits.cons (x : α) (h : Edits n a b) : Edits n (x :: a) (x :: b) := by
  induction h with
  | refl a => exact .refl _
  | tail _ he ih => exact ih.tail (he.cons x)

theorem Edits.reverse (h : Edits n a b) : Edits n a.reverse b.reverse := by
  induction h with
  | refl a => exact .refl _
  | tail _ he ih => exact ih.tail he.reverse

theorem edits_reverse : Edits n a.reverse b.reverse ↔ Edits n a b := by
  refine ⟨fun h => ?_, Edits.reverse⟩
  simpa using h.reverse

theorem edits_nil_left (b : List α) : Edits b.length [] b := by
  induction b with
  | nil => exact .refl _
  | cons x b ih => exact ih.tail (.insert [] b x)

theorem Edits.head {m : ℕ} (he : Edit a b) (h : Edits m b c) : Edits (m + 1) a c := by
  induction h with
  | refl b => exact (Edits.refl a).tail he
  | tail _ hlast ih => exact (ih he).tail hlast

theorem edits_nil_right (a : List α) : Edits a.length a [] := by
  induction a with
  | nil => exact .refl _
  | cons x a ih => exact Edits.head (.delete [] a x) ih

section Distance

variable [DecidableEq α]

def distance : List α → List α → ℕ
  | [], b => b.length
  | a, [] => a.length
  | x :: a, y :: b =>
    min (min (distance a (y :: b) + 1) (distance (x :: a) b + 1)) (distance a b + if x = y then 0
      else 1)
  termination_by a b => a.length + b.length

theorem distance_nil_left (b : List α) : distance [] b = b.length := by
  rw [distance]

theorem distance_nil_right (a : List α) : distance a [] = a.length := by
  cases a with
  | nil => rw [distance]
  | cons x a =>
    rw [distance]
    exact nofun

theorem distance_cons (x y : α) (a b : List α) : distance (x :: a) (y :: b) =
    min (min (distance a (y :: b) + 1) (distance (x :: a) b + 1)) (distance a b + if x = y then 0
      else 1) := by
  rw [distance]

theorem edits_distance (a b : List α) : Edits (distance a b) a b := by
  induction a generalizing b with
  | nil =>
    rw [distance_nil_left]
    exact edits_nil_left b
  | cons x a iha =>
    induction b with
    | nil =>
      rw [distance_nil_right]
      exact edits_nil_right (x :: a)
    | cons y b ihb =>
      have hdelete : Edits (distance a (y :: b) + 1) (x :: a) (y :: b) :=
        Edits.head (.delete [] a x) (iha _)
      have hinsert : Edits (distance (x :: a) b + 1) (x :: a) (y :: b) := ihb.tail (.insert [] b y)
      have hboth : Edits (distance a b + if x = y then 0 else 1) (x :: a) (y :: b) := by
        split
        · rename_i hxy
          exact hxy ▸ (iha b).cons x
        · exact ((iha b).cons x).tail (.substitute [] b x y)
      rw [distance_cons]
      rcases min_choice (min (distance a (y :: b) + 1) (distance (x :: a) b + 1))
        (distance a b + if x = y then 0 else 1) with h | h
      · rw [h]
        rcases min_choice (distance a (y :: b) + 1) (distance (x :: a) b + 1) with h' | h'
        · rwa [h']
        · rwa [h']
      · rwa [h]

theorem distance_cons_right (a b : List α) (y : α) : distance a (y :: b) ≤ distance a b + 1 := by
  cases a with
  | nil => simp [distance_nil_left]
  | cons x a =>
    rw [distance_cons]
    exact (min_le_left _ _).trans (min_le_right _ _)

theorem distance_cons_left (a b : List α) (x : α) : distance (x :: a) b ≤ distance a b + 1 := by
  cases b with
  | nil => simp [distance_nil_right]
  | cons y b =>
    rw [distance_cons]
    exact (min_le_left _ _).trans (min_le_left _ _)

theorem distance_cons_cons_le (a b : List α) (x y : α) :
    distance (x :: a) (y :: b) ≤ distance a b + 1 := by
  rw [distance_cons]
  refine (min_le_right _ _).trans (Nat.add_le_add_left ?_ _)
  split
  · exact Nat.zero_le 1
  · exact le_rfl

theorem distance_tail_right (a b : List α) (y : α) : distance a b ≤ distance a (y :: b) + 1 := by
  induction a with
  | nil =>
    simp only [distance_nil_left, List.length_cons]
    omega
  | cons x a ih =>
    have hleft := distance_cons_left a b x
    rw [distance_cons]
    omega

theorem distance_head_right (a b : List α) (y z : α) :
    distance a (z :: b) ≤ distance a (y :: b) + 1 := by
  induction a with
  | nil => simp [distance_nil_left]
  | cons x a ih =>
    have hleft := distance_cons_left a (z :: b) x
    have hright := distance_cons_right (x :: a) b z
    have hboth := distance_cons_cons_le a b x z
    rw [distance_cons x y]
    omega

theorem distance_cons_congr (h : ∀ a, distance a c ≤ distance a b + 1) (a : List α) (y : α) :
    distance a (y :: c) ≤ distance a (y :: b) + 1 := by
  induction a with
  | nil => simpa [distance_nil_left] using h []
  | cons x a ih =>
    have hskip := h (x :: a)
    have hboth := h a
    rw [distance_cons, distance_cons]
    omega

theorem Edit.distance_le (he : Edit b c) (a : List α) : distance a c ≤ distance a b + 1 := by
  have hpre : ∀ (pre : List α) {s t : List α}, (∀ a, distance a t ≤ distance a s + 1) →
      ∀ a, distance a (pre ++ t) ≤ distance a (pre ++ s) + 1 := by
    intro pre s t h
    induction pre with
    | nil => exact h
    | cons y pre ih => exact fun a => distance_cons_congr ih a y
  cases he with
  | insert pre suf x => exact hpre pre (fun a => distance_cons_right a suf x) a
  | delete pre suf x => exact hpre pre (fun a => distance_tail_right a suf x) a
  | substitute pre suf x y => exact hpre pre (fun a => distance_head_right a suf x y) a

theorem distance_self (a : List α) : distance a a = 0 := by
  induction a with
  | nil => rw [distance_nil_left, List.length_nil]
  | cons x a ih =>
    rw [distance_cons, ih, if_pos rfl]
    omega

theorem Edits.distance_le (h : Edits n a b) : distance a b ≤ n := by
  induction h with
  | refl a => exact (distance_self a).le
  | tail _ he ih => exact (he.distance_le _).trans (Nat.add_le_add_right ih 1)

theorem distance_isLeast (a b : List α) : IsLeast {n | Edits n a b} (distance a b) :=
  ⟨edits_distance a b, fun _ h => Edits.distance_le h⟩

theorem distance_reverse (a b : List α) : distance a.reverse b.reverse = distance a b := by
  apply Nat.le_antisymm
  · exact (edits_reverse.mpr (edits_distance a b)).distance_le
  · exact (edits_reverse.mp (edits_distance a.reverse b.reverse)).distance_le

end Distance

end CoeleoOs.Lib.EditDistance
