import Mathlib.Data.List.Basic

/-!
# Loops with an early exit

`run` takes one step for each element of a list and stops at the first step whose
answer is not `ok`. `Steps` says that every step of a list was taken. `visit` counts the
elements it passes and returns the one with a given number.
-/

namespace CoeleoOs.Lib.EarlyExit

variable {ρ σ ι : Type} {ok r : ρ} {step : σ → ι → ρ × σ} {s s' : σ} {is : List ι}

def run [DecidableEq ρ] (ok : ρ) (step : σ → ι → ρ × σ) : List ι → σ → ρ × σ
  | [], s => (ok, s)
  | i :: is, s => if (step s i).1 = ok then run ok step is (step s i).2 else step s i

inductive Steps (ok : ρ) (step : σ → ι → ρ × σ) : List ι → σ → σ → Prop
  | nil (s : σ) : Steps ok step [] s s
  | cons {i : ι} {is : List ι} {s s₁ s₂ : σ} :
      step s i = (ok, s₁) → Steps ok step is s₁ s₂ → Steps ok step (i :: is) s s₂

section Run

variable [DecidableEq ρ]

theorem run_cons_ok {i : ι} {s₁ : σ} (h : step s i = (ok, s₁)) :
    run ok step (i :: is) s = run ok step is s₁ := by
  simp [run, h]

theorem run_cons_stop {i : ι} (h : step s i = (r, s')) (hr : r ≠ ok) :
    run ok step (i :: is) s = (r, s') := by
  simp [run, h, hr]

theorem run_of_steps (h : Steps ok step is s s') : run ok step is s = (ok, s') := by
  induction h with
  | nil s => rfl
  | cons hstep _ ih => rw [run_cons_ok hstep, ih]

theorem run_cases (h : run ok step is s = (r, s')) :
    (r = ok ∧ Steps ok step is s s') ∨
      ∃ done i rest s₁, is = done ++ i :: rest ∧ Steps ok step done s s₁ ∧ step s₁ i = (r, s') ∧
      r ≠ ok := by
  induction is generalizing s with
  | nil =>
    obtain ⟨rfl, rfl⟩ := Prod.mk.inj h
    exact .inl ⟨rfl, .nil s⟩
  | cons i is ih =>
    rcases hstep : step s i with ⟨r₁, s₁⟩
    by_cases hr : r₁ = ok
    · subst hr
      rw [run_cons_ok hstep] at h
      rcases ih h with ⟨rfl, hsteps⟩ | ⟨done, j, rest, s₂, rfl, hsteps, hlast⟩
      · exact .inl ⟨rfl, .cons hstep hsteps⟩
      · exact .inr ⟨i :: done, j, rest, s₂, rfl, .cons hstep hsteps, hlast⟩
    · rw [run_cons_stop hstep hr] at h
      obtain ⟨rfl, rfl⟩ := Prod.mk.inj h
      exact .inr ⟨[], i, is, s, rfl, .nil s, hstep, hr⟩

end Run

theorem Steps.invariant {I : List ι → σ → Prop} {all pre post : List ι}
    (hstep : ∀ done i rest s s', all = done ++ i :: rest → I done s → step s i = (ok, s') →
      I (done ++ [i]) s')
    (h : Steps ok step pre s s') (hall : all = pre ++ post) (hs : I [] s) : I pre s' := by
  suffices hgen : ∀ done, all = done ++ (pre ++ post) → I done s → I (done ++ pre) s' from
    hgen [] hall hs
  clear hall hs
  induction h with
  | nil s =>
    intro done _ hI
    rwa [List.append_nil]
  | @cons i is s s₁ s₂ hs _ ih =>
    intro done hall hI
    have hnext := ih (done ++ [i]) (by simp [hall]) (hstep done i (is ++ post) s s₁ hall hI hs)
    rwa [List.append_assoc, List.singleton_append] at hnext

theorem exists_steps {I : List ι → σ → Prop}
    (hstep : ∀ done i rest s, is = done ++ i :: rest → I done s → ∃ s', step s i = (ok, s') ∧
      I (done ++ [i]) s') (hs : I [] s) : ∃ s', Steps ok step is s s' ∧ I is s' := by
  suffices hgen : ∀ rest done s, is = done ++ rest → I done s →
      ∃ s', Steps ok step rest s s' ∧ I is s' from hgen is [] s rfl hs
  intro rest
  induction rest with
  | nil =>
    intro done s heq hI
    rw [List.append_nil] at heq
    exact ⟨s, .nil s, heq ▸ hI⟩
  | cons i rest ih =>
    intro done s heq hI
    obtain ⟨s₁, hs₁, hI₁⟩ := hstep done i rest s heq hI
    obtain ⟨s', hsteps, hI'⟩ := ih (done ++ [i]) s₁ (by simp [heq]) hI₁
    exact ⟨s', .cons hs₁ hsteps, hI'⟩

section Visit

def visit (k : ℕ) : List ι → ℕ → Except ι ℕ
  | [], n => .ok n
  | i :: is, n => if n = k then .error i else visit k is (n + 1)

variable {k n : ℕ}

theorem visit_append (is js : List ι) (n : ℕ) :
    visit k (is ++ js) n = (visit k is n).bind (visit k js) := by
  induction is generalizing n with
  | nil => rfl
  | cons i is ih =>
    rw [List.cons_append, visit, visit]
    split
    · rfl
    · exact ih (n + 1)

theorem visit_eq (h : n ≤ k) : visit k is n =
    match is[k - n]? with
    | some i => .error i
    | none => .ok (n + is.length) := by
  induction is generalizing n with
  | nil => rfl
  | cons i is ih =>
    rw [visit]
    split
    · next heq =>
      rw [heq, Nat.sub_self]
      rfl
    · next hne =>
      have hsub : k - n = (k - (n + 1)) + 1 := by omega
      rw [ih (by omega), hsub, List.getElem?_cons_succ, List.length_cons, Nat.add_right_comm,
        Nat.add_assoc]

end Visit

end CoeleoOs.Lib.EarlyExit
