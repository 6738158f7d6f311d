import Mathlib.Data.List.Basic

/-!
# Clients of a server

A client asks for answers of type `α`, as often as it likes and depending on the
answers before, and ends with a result. `run` serves it from a state; `Ends` says
which results are possible whatever the answers.
-/

namespace CoeleoOs.Lib

inductive Client (α β : Type)
  | done (b : β)
  | ask (k : α → Client α β)

namespace Client

variable {α β σ : Type}

def run (serve : σ → α × σ) : Client α β → σ → β × σ
  | .done b, s => (b, s)
  | .ask k, s => run serve (k (serve s).1) (serve s).2

inductive Ends : Client α β → β → Prop
  | done (b : β) : Ends (.done b) b
  | ask {k : α → Client α β} {b : β} (a : α) : Ends (k a) b → Ends (.ask k) b

theorem run_ends (serve : σ → α × σ) (c : Client α β) (s : σ) : c.Ends (c.run serve s).1 := by
  induction c generalizing s with
  | done b => exact .done b
  | ask k ih => exact .ask (serve s).1 (ih (serve s).1 (serve s).2)

theorem run_invariant (serve : σ → α × σ) {I : σ → Prop} (hserve : ∀ s, I s → I (serve s).2)
    (c : Client α β) {s : σ} (hs : I s) : I (c.run serve s).2 := by
  induction c generalizing s with
  | done b => exact hs
  | ask k ih => exact ih (serve s).1 (hserve s hs)

end Client

end CoeleoOs.Lib
