import Mathlib.Order.Filter.AtTopBot.Basic

/-!
# Budgets

A computation with a budget gives nothing while the budget is too small. It ends when every budget
from some point on gives the same. What a computation does to its state is a preorder: a step that
ends with a related state can be followed by the next.
-/

namespace CoeleoOs.Lib.Budget
open Filter

universe u
variable {α β σ : Type u}

def Gives (x : ℕ → Option α) (a : α) : Prop := ∀ᶠ n in atTop, x n = some a

theorem gives_some (a : α) : Gives (fun _ => some a) a := Eventually.of_forall fun _ => rfl

theorem Gives.bind {x : ℕ → Option α} {f : ℕ → α → Option β} {a : α} {b : β} (hx : Gives x a)
    (hf : Gives (fun n => f n a) b) : Gives (fun n => x n >>= f n) b := by
  filter_upwards [hx, hf] with n hn hb
  rw [hn, Option.bind_eq_bind, Option.bind_some, hb]

theorem Gives.of_succ {x : ℕ → Option α} {a : α} (h : Gives (fun n => x (n + 1)) a) :
    Gives x a := by
  rw [Gives, ← map_add_atTop_eq_nat 1, eventually_map]
  exact h

theorem Gives.exists_budget {x : ℕ → Option α} {a : α} (h : Gives x a) : ∃ n, ∀ m, n ≤ m →
    x m = some a := eventually_atTop.mp h

def Ends (R : σ → σ → Prop) (x : ℕ → Option σ) (s : σ) : Prop := ∃ s', Gives x s' ∧ R s s'

variable {R : σ → σ → Prop} {s : σ}

theorem Ends.then {x : ℕ → Option σ} {f : ℕ → σ → Option σ}
    (hR : ∀ {a b c : σ}, R a b → R b c → R a c) (hx : Ends R x s)
    (hf : ∀ s', R s s' → Ends R (fun n => f n s') s') : Ends R (fun n => x n >>= f n) s := by
  obtain ⟨s', hs', hrel⟩ := hx
  obtain ⟨s'', hs'', hrel'⟩ := hf s' hrel
  exact ⟨s'', hs'.bind hs'', hR hrel hrel'⟩

theorem ends_foldlM {f : ℕ → σ → α → Option σ} (hrefl : ∀ a : σ, R a a)
    (hR : ∀ {a b c : σ}, R a b → R b c → R a c)
    (hf : ∀ s', R s s' → ∀ a, Ends R (fun n => f n s' a) s') (as : List α) :
    Ends R (fun n => as.foldlM (f n) s) s := by
  induction as generalizing s with
  | nil => exact ⟨s, gives_some s, hrefl s⟩
  | cons a as ih =>
    simp only [List.foldlM_cons]
    exact (hf s (hrefl s) a).then hR fun s' hs' => ih fun s'' hs'' => hf s'' (hR hs' hs'')

end CoeleoOs.Lib.Budget
