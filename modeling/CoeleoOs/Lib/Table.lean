import Mathlib.Algebra.BigOperators.Fin
import Mathlib.Algebra.Order.BigOperators.Group.Finset
import Mathlib.Data.List.FinRange

/-!
# Fixed tables of optional entries

A table is a function from a finite index type to optional entries. The first
index with a property is found by a left-to-right scan, and a weight of the
entries is summed over the whole table. Both are tracked through the update of
a single entry.
-/

open scoped BigOperators
namespace CoeleoOs.Lib.Table

variable {n : ℕ} {α : Type*}

def position (p : Fin n → Bool) : Option (Fin n) := (List.finRange n).find? p

theorem position_none {p : Fin n → Bool} (h : position p = none) (i : Fin n) : p i = false := by
  have hi := List.find?_eq_none.mp h i (List.mem_finRange i)
  simpa using hi

theorem position_some {p : Fin n → Bool} {i : Fin n} (h : position p = some i) : p i = true :=
  List.find?_some h

theorem position_any {t : Fin n → Option α} {q : α → Bool} {i : Fin n}
    (h : position (fun i => (t i).any q) = some i) : ∃ x, t i = some x ∧ q x = true :=
  (Option.any_eq_true q (t i)).mp (position_some h)

theorem position_any_none {t : Fin n → Option α} {q : α → Bool}
    (h : position (fun i => (t i).any q) = none) {i : Fin n} {x : α} (hx : t i = some x) :
    q x = false := by
  simpa [hx] using position_none h i

theorem position_eq_none_iff {p : Fin n → Bool} : position p = none ↔ ∀ i, p i = false := by
  refine ⟨position_none, fun h => List.find?_eq_none.mpr fun i _ => ?_⟩
  simp [h i]

def total (w : α → ℕ) (t : Fin n → Option α) : ℕ := ∑ i, (t i).elim 0 w

theorem total_update (w : α → ℕ) (t : Fin n → Option α) (i : Fin n) (x : Option α) :
    total w (Function.update t i x) + (t i).elim 0 w = total w t + x.elim 0 w := by
  have hrest : ∑ j ∈ Finset.univ.erase i, (Function.update t i x j).elim 0 w =
      ∑ j ∈ Finset.univ.erase i, (t j).elim 0 w := by
    apply Finset.sum_congr rfl
    intro j hj
    rw [Function.update_of_ne (Finset.ne_of_mem_erase hj)]
  have hu := Finset.add_sum_erase Finset.univ
    (fun j => (Function.update t i x j).elim 0 w) (Finset.mem_univ i)
  have ht := Finset.add_sum_erase Finset.univ (fun j => (t j).elim 0 w) (Finset.mem_univ i)
  simp only [Function.update_self] at hu
  unfold total
  omega

theorem total_eq_sum_filterMap (w : α → ℕ) (t : Fin n → Option α) :
    total w t = (((List.finRange n).filterMap t).map w).sum := by
  have hlist : ∀ l : List (Fin n),
      (l.map fun i => (t i).elim 0 w).sum = ((l.filterMap t).map w).sum := by
    intro l
    induction l with
    | nil => rfl
    | cons i l ih =>
      cases hi : t i with
      | none => simp [hi, ih]
      | some a => simp [hi, ih]
  rw [← hlist, total, ← List.ofFn_eq_map, List.sum_ofFn]

theorem total_congr {w : α → ℕ} {t u : Fin n → Option α}
    (h : ∀ i, (t i).elim 0 w = (u i).elim 0 w) : total w t = total w u :=
  Finset.sum_congr rfl fun i _ => h i

theorem total_mono {w : α → ℕ} {t u : Fin n → Option α}
    (h : ∀ i, (t i).elim 0 w ≤ (u i).elim 0 w) : total w t ≤ total w u :=
  Finset.sum_le_sum fun i _ => h i

theorem total_none (w : α → ℕ) : total w (fun _ : Fin n => none) = 0 := by simp [total]

theorem le_total (w : α → ℕ) (t : Fin n → Option α) (i : Fin n) :
    (t i).elim 0 w ≤ total w t :=
  Finset.single_le_sum (f := fun j => (t j).elim 0 w) (fun _ _ => Nat.zero_le _)
    (Finset.mem_univ i)

end CoeleoOs.Lib.Table
