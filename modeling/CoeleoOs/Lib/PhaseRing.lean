import Mathlib.Data.Nat.ModEq
import Mathlib.Logic.Function.Basic
import Mathlib.Tactic.Ring

/-!
# Rings with a phase

A producer fills the cells of a ring lap after lap, and a consumer tells a new cell
from an old one by a bit of the cell, its phase. Cells are numbered through: cell `x`
sits at index `x % n` and has the phase of lap `x / n`. A cell has words `0` to
`last`. The last one holds the phase and is written last.
-/

namespace CoeleoOs.Lib.PhaseRing

variable {W : Type*} {n last F k x : ℕ} {bit : W → Bool} {content content' : ℕ → ℕ → W}
    {mem : ℕ → ℕ → W}

def phase (n x : ℕ) : Bool := x / n % 2 = 0

def write (mem : ℕ → ℕ → W) (i d : ℕ) (v : W) : ℕ → ℕ → W :=
  Function.update mem i (Function.update (mem i) d v)

/-- All cells below `F` are written, and the words below `k` of cell `F`. -/
structure Filled (n last : ℕ) (bit : W → Bool) (content : ℕ → ℕ → W) (F k : ℕ) (mem : ℕ → ℕ → W) :
    Prop where
  kept : ∀ x, x < F → F < x + n → ∀ d ≤ last, mem (x % n) d = content x d
  begun : ∀ d < k, mem (F % n) d = content F d
  stale : ∀ x, F ≤ x → x < F + n → bit (mem (x % n) last) ≠ phase n x

theorem phase_add (hn : 0 < n) (x : ℕ) : phase n (x + n) = !phase n x := by
  have hlap : (x + n) / n = x / n + 1 := Nat.add_div_right x hn
  simp only [phase, hlap]
  rcases Nat.mod_two_eq_zero_or_one (x / n) with h | h
  · have hnext : (x / n + 1) % 2 = 1 := by omega
    simp [h, hnext]
  · have hnext : (x / n + 1) % 2 = 0 := by omega
    simp [h, hnext]

theorem mod_ne_of_lt {y : ℕ} (hlt : x < y) (hlap : y < x + n) : x % n ≠ y % n := by
  intro heq
  have hdvd : n ∣ y - x := (Nat.modEq_iff_dvd' hlt.le).mp heq
  have hle := Nat.le_of_dvd (by omega) hdvd
  omega

theorem write_self (mem : ℕ → ℕ → W) (i d : ℕ) (v : W) : write mem i d v i d = v := by
  simp [write]

theorem write_word {i d d' : ℕ} (h : d' ≠ d) (v : W) : write mem i d v i d' = mem i d' := by
  simp [write, Function.update_of_ne h]

theorem write_cell {i i' : ℕ} (h : i' ≠ i) (d : ℕ) (v : W) : write mem i d v i' = mem i' := by
  simp [write, Function.update_of_ne h]

theorem Filled.congr (h : Filled n last bit content F k mem) (heq : ∀ x < F, content' x = content x)
    (hbegun : k = 0) : Filled n last bit content' F k mem where
  kept := fun x hx hlap d hd => by
    rw [heq x hx]
    exact h.kept x hx hlap d hd
  begun := by
    subst hbegun
    intro d hd
    omega
  stale := h.stale

theorem Filled.word (h : Filled n last bit content F k mem) (hk : k < last) :
    Filled n last bit content F (k + 1) (write mem (F % n) k (content F k)) where
  kept := by
    intro x hx hlap d hd
    rw [write_cell (mod_ne_of_lt hx hlap)]
    exact h.kept x hx hlap d hd
  begun := by
    intro d hd
    by_cases heq : d = k
    · rw [heq, write_self]
    · rw [write_word heq]
      exact h.begun d (by omega)
  stale := by
    intro x hx hlap
    by_cases heq : x % n = F % n
    · rw [heq, write_word (by omega), ← heq]
      exact h.stale x hx hlap
    · rw [write_cell heq]
      exact h.stale x hx hlap

theorem Filled.publish (hn : 0 < n) (h : Filled n last bit content F last mem)
    (hphase : bit (content F last) = phase n F) :
    Filled n last bit content (F + 1) 0 (write mem (F % n) last (content F last)) where
  kept := by
    intro x hx hlap d hd
    rcases Nat.lt_succ_iff_lt_or_eq.mp hx with hlt | rfl
    · rw [write_cell (mod_ne_of_lt hlt (by omega))]
      exact h.kept x hlt (by omega) d hd
    · by_cases heq : d = last
      · rw [heq, write_self]
      · rw [write_word heq]
        exact h.begun d (by omega)
  begun := by
    intro d hd
    omega
  stale := by
    intro x hx hlap
    by_cases hnext : x = F + n
    · subst hnext
      rw [Nat.add_mod_right, write_self, hphase, phase_add hn]
      simp
    · rw [write_cell (mod_ne_of_lt (by omega) (by omega)).symm]
      exact h.stale x (by omega) (by omega)

theorem Filled.ready_iff (hphase : ∀ x < F, bit (content x last) = phase n x)
    (h : Filled n last bit content F k mem) {K : ℕ} (hle : K ≤ F) (hlap : F < K + n) :
    bit (mem (K % n) last) = phase n K ↔ K < F := by
  constructor
  · intro hbit
    by_contra hnot
    obtain rfl : K = F := by omega
    exact h.stale K le_rfl hlap hbit
  · intro hlt
    rw [h.kept K hlt hlap last le_rfl, hphase K hlt]

theorem phase_succ (hn : 0 < n) (x : ℕ) :
    phase n (x + 1) = if x % n + 1 = n then !phase n x else phase n x := by
  have hlt := Nat.mod_lt x hn
  have hdiv := Nat.div_add_mod x n
  by_cases hend : x % n + 1 = n
  · rw [if_pos hend]
    have hlap : (x + 1) / n = (x + n) / n := by
      rw [Nat.add_div_right x hn]
      refine Nat.div_eq_of_lt_le ?_ ?_
      · rw [Nat.add_mul, Nat.mul_comm (x / n)]
        omega
      · rw [Nat.add_mul, Nat.add_mul, Nat.mul_comm (x / n)]
        omega
    rw [← phase_add hn x]
    simp only [phase, hlap]
  · rw [if_neg hend]
    have hlap : (x + 1) / n = x / n := by
      refine Nat.div_eq_of_lt_le ?_ ?_
      · rw [Nat.mul_comm]
        omega
      · rw [Nat.add_mul, Nat.mul_comm (x / n)]
        omega
    simp only [phase, hlap]

end CoeleoOs.Lib.PhaseRing
