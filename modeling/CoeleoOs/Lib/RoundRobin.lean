import Mathlib.Data.Fin.Basic
import Mathlib.Data.List.Basic
import Mathlib.Tactic.ByContra

/-!
# Scanning a table in a circle

`gap c j` is the number of places from `c` forward to `j`, a full round when they are
the same. A scan that starts behind `c` finds the entry with the smallest gap, and
every time it finds another entry than `j` the gap to `j` gets smaller.
-/

namespace CoeleoOs.Lib.RoundRobin

variable {n : ℕ}

def gap (c j : Fin n) : ℕ := (if c.val < j.val then j.val else j.val + n) - c.val

/-- The first place behind `c` with the property. -/
structure FirstAfter (c : Fin n) (P : Fin n → Prop) (i : Fin n) : Prop where
  holds : P i
  first : ∀ j, gap c j < gap c i → ¬P j

section Gap

variable {c i j : Fin n}

theorem gap_pos (c j : Fin n) : 0 < gap c j := by
  have hc := c.isLt
  simp only [gap]
  split <;> omega

theorem gap_le (c j : Fin n) : gap c j ≤ n := by
  have hj := j.isLt
  simp only [gap]
  split <;> omega

theorem gap_self (c : Fin n) : gap c c = n := by
  simp [gap]

theorem gap_lt (h : c ≠ j) : gap c j < n := by
  have hj := j.isLt
  have hne : c.val ≠ j.val := Fin.val_ne_of_ne h
  simp only [gap]
  split <;> omega

theorem gap_injective (h : gap c i = gap c j) : i = j := by
  have hi := i.isLt
  have hj := j.isLt
  apply Fin.ext
  simp only [gap] at h
  split at h <;> split at h <;> omega

theorem add_gap_mod (c j : Fin n) : (c.val + gap c j) % n = j.val := by
  have hc := c.isLt
  have hj := j.isLt
  simp only [gap]
  split
  · rw [Nat.add_sub_cancel' (by omega), Nat.mod_eq_of_lt hj]
  · rw [Nat.add_sub_cancel' (by omega), Nat.add_mod_right, Nat.mod_eq_of_lt hj]

theorem gap_eq_iff {k : ℕ} (hpos : 0 < k) (hle : k ≤ n) :
    gap c j = k ↔ (c.val + k) % n = j.val := by
  constructor
  · rintro rfl
    exact add_gap_mod c j
  · intro h
    have hc := c.isLt
    have hj := j.isLt
    simp only [gap]
    by_cases hlt : c.val + k < n
    · rw [Nat.mod_eq_of_lt hlt] at h
      rw [if_pos (by omega)]
      omega
    · rw [Nat.mod_eq_sub_mod (by omega), Nat.mod_eq_of_lt (by omega)] at h
      rw [if_neg (by omega)]
      omega

theorem gap_add (h : gap c i < gap c j) : gap c i + gap i j = gap c j := by
  have hi := i.isLt
  have hj := j.isLt
  have hc := c.isLt
  simp only [gap] at h ⊢
  split_ifs at h ⊢ <;> omega

end Gap

section First

variable {c i j : Fin n} {P : Fin n → Prop}

theorem FirstAfter.gap_add (h : FirstAfter c P i) (hj : P j) (hne : i ≠ j) :
    gap c i + gap i j = gap c j := by
  have hle : gap c i ≤ gap c j := not_lt.mp fun hlt => h.first j hlt hj
  have hlt : gap c i < gap c j := lt_of_le_of_ne hle fun heq => hne (gap_injective heq)
  exact RoundRobin.gap_add hlt

end First

section Scan

variable {c i : Fin n} {p : Fin n → Bool} {place : ℕ → Fin n} {m : ℕ}

theorem find_eq_some_iff (hm : m ≤ n) (hplace : ∀ k, (place k).val = (c.val + k) % n) :
    ((List.range' 1 m).map place).find? p = some i ↔
      gap c i ≤ m ∧ FirstAfter c (fun j => p j = true) i := by
  rw [List.find?_map, Option.map_eq_some_iff]
  simp only [List.find?_range'_eq_some, List.mem_range'_1, Function.comp_apply, Bool.not_eq_true']
  constructor
  · rintro ⟨k, ⟨hp, ⟨hk, hkm⟩, hbefore⟩, rfl⟩
    have hgap : gap c (place k) = k := (gap_eq_iff (by omega) (by omega)).mpr (hplace k).symm
    refine ⟨by omega, hp, ?_⟩
    intro j hj
    have hpos := gap_pos c j
    have hat : place (gap c j) = j := Fin.ext ((hplace _).trans (add_gap_mod c j))
    have hfalse := hbefore (gap c j) (by omega) (by omega)
    rw [hat] at hfalse
    simp [hfalse]
  · rintro ⟨hle, hp, hfirst⟩
    have hpos := gap_pos c i
    have hat : place (gap c i) = i := Fin.ext ((hplace _).trans (add_gap_mod c i))
    refine ⟨gap c i, ⟨by rwa [hat], by omega, ?_⟩, hat⟩
    intro k hk hki
    have hgap : gap c (place k) = k := (gap_eq_iff (by omega) (by omega)).mpr (hplace k).symm
    have hnot := hfirst (place k) (by omega)
    simpa using hnot

theorem find_eq_none_iff (hm : m ≤ n) (hplace : ∀ k, (place k).val = (c.val + k) % n) :
    ((List.range' 1 m).map place).find? p = none ↔ ∀ j, gap c j ≤ m → p j = false := by
  rw [List.find?_map, Option.map_eq_none_iff, List.find?_range'_eq_none]
  simp only [Function.comp_apply, Bool.not_eq_true']
  constructor
  · intro h j hj
    have hpos := gap_pos c j
    have hat : place (gap c j) = j := Fin.ext ((hplace _).trans (add_gap_mod c j))
    have hfalse := h (gap c j) (by omega) (by omega)
    rwa [hat] at hfalse
  · intro h k hk hkm
    have hgap : gap c (place k) = k := (gap_eq_iff (by omega) (by omega)).mpr (hplace k).symm
    exact h (place k) (by omega)

end Scan

end CoeleoOs.Lib.RoundRobin
