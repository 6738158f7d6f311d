import Mathlib.Data.List.Basic

/-!
# The first run of `n` good positions

A scan from left to right counts the good positions in a row and stops as soon as
it has seen `n`. It finds the run that starts lowest.
-/

namespace CoeleoOs.Lib.FirstRun

variable {p : ℕ → Bool} {n N : ℕ}

def IsRun (p : ℕ → Bool) (N n s : ℕ) : Prop := s + n ≤ N ∧ ∀ i, s ≤ i → i < s + n → p i = true

def scan (p : ℕ → Bool) (n : ℕ) : ℕ → ℕ → ℕ → ℕ → Option ℕ
  | 0, _, _, _ => none
  | fuel + 1, i, run, start =>
    if p i = false then scan p n fuel (i + 1) 0 start
    else
      let start := if run = 0 then i else start
      if run + 1 = n then some start else scan p n fuel (i + 1) (run + 1) start

structure Scanned (p : ℕ → Bool) (N n i run start : ℕ) : Prop where
  run_lt : run < n
  run_le : run ≤ i
  start_eq : run ≠ 0 → start = i - run
  good : ∀ j, i - run ≤ j → j < i → p j = true
  none_before : ∀ s, s < i - run → ¬IsRun p N n s

theorem Scanned.reset {i run start : ℕ} (h : Scanned p N n i run start) (hp : p i = false) :
    Scanned p N n (i + 1) 0 start where
  run_lt := Nat.zero_lt_of_lt h.run_lt
  run_le := Nat.zero_le _
  start_eq := fun h0 => absurd rfl h0
  good := by
    intro j hj hj'
    omega
  none_before := by
    intro s hs hrun
    have hlt := h.run_lt
    by_cases hbefore : s < i - run
    · exact h.none_before s hbefore hrun
    · have hi := hrun.2 i (by omega) (by omega)
      rw [hp] at hi
      cases hi

theorem Scanned.start_next {i run start : ℕ} (h : Scanned p N n i run start) :
    (if run = 0 then i else start) = i - run := by
  split
  · omega
  · rename_i h0
    exact h.start_eq h0

theorem Scanned.good_next {i run start : ℕ} (h : Scanned p N n i run start) (hp : p i = true) :
    ∀ j, i - run ≤ j → j < i + 1 → p j = true := by
  intro j hj hj'
  by_cases hlast : j = i
  · rw [hlast]
    exact hp
  · exact h.good j hj (by omega)

theorem Scanned.extend {i run start : ℕ} (h : Scanned p N n i run start) (hp : p i = true)
    (hn : run + 1 ≠ n) :
    Scanned p N n (i + 1) (run + 1) (if run = 0 then i else start) where
  run_lt := by
    have hlt := h.run_lt
    omega
  run_le := Nat.succ_le_succ h.run_le
  start_eq := fun _ => by
    rw [h.start_next]
    omega
  good := by
    intro j hj hj'
    exact h.good_next hp j (by omega) hj'
  none_before := by
    intro s hs
    exact h.none_before s (by omega)

theorem scan_spec {fuel i run start : ℕ} (h : Scanned p N n i run start) (hfuel : i + fuel = N) :
    match scan p n fuel i run start with
    | none => ∀ s, ¬IsRun p N n s
    | some s => IsRun p N n s ∧ ∀ s' < s, ¬IsRun p N n s' := by
  induction fuel generalizing i run start with
  | zero =>
    intro s hrun
    have hlt := h.run_lt
    have hle := h.run_le
    have hend := hrun.1
    exact h.none_before s (by omega) hrun
  | succ fuel ih =>
    simp only [scan]
    cases hp : p i with
    | false =>
      simp only [if_true]
      exact ih (h.reset hp) (by omega)
    | true =>
      simp only [Bool.true_eq_false, if_false]
      by_cases hn : run + 1 = n
      · simp only [hn, if_true, h.start_next]
        have hle := h.run_le
        refine ⟨⟨by omega, ?_⟩, h.none_before⟩
        intro j hj hj'
        exact h.good_next hp j hj (by omega)
      · simp only [hn, if_false]
        exact ih (h.extend hp hn) (by omega)

def firstRun (p : ℕ → Bool) (N n : ℕ) : Option ℕ := scan p n N 0 0 0

theorem scanned_zero (hn : 0 < n) : Scanned p N n 0 0 0 where
  run_lt := hn
  run_le := Nat.le_refl 0
  start_eq := fun h0 => absurd rfl h0
  good := by
    intro j _ hj
    omega
  none_before := by
    intro s hs
    omega

theorem firstRun_spec (hn : 0 < n) :
    match firstRun p N n with
    | none => ∀ s, ¬IsRun p N n s
    | some s => IsRun p N n s ∧ ∀ s' < s, ¬IsRun p N n s' :=
  scan_spec (scanned_zero hn) (Nat.zero_add N)

theorem firstRun_eq_none_iff (hn : 0 < n) : firstRun p N n = none ↔ ∀ s, ¬IsRun p N n s := by
  have hspec := firstRun_spec (p := p) (N := N) hn
  cases hrun : firstRun p N n with
  | none =>
    rw [hrun] at hspec
    exact ⟨fun _ => hspec, fun _ => rfl⟩
  | some s =>
    rw [hrun] at hspec
    exact ⟨fun h => (by cases h), fun h => absurd hspec.1 (h s)⟩

theorem firstRun_eq_some_iff (hn : 0 < n) {s : ℕ} :
    firstRun p N n = some s ↔ IsRun p N n s ∧ ∀ s' < s, ¬IsRun p N n s' := by
  have hspec := firstRun_spec (p := p) (N := N) hn
  cases hrun : firstRun p N n with
  | none =>
    rw [hrun] at hspec
    exact ⟨fun h => (by cases h), fun h => absurd h.1 (hspec s)⟩
  | some t =>
    rw [hrun] at hspec
    constructor
    · intro h
      obtain rfl := Option.some.inj h
      exact hspec
    · intro h
      rcases Nat.lt_trichotomy s t with hlt | rfl | hlt
      · exact absurd h.1 (hspec.2 s hlt)
      · rfl
      · exact absurd hspec.1 (h.2 t hlt)

end CoeleoOs.Lib.FirstRun
