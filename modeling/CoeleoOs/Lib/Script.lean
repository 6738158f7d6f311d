import Mathlib.Data.List.Basic

/-!
# Scripts

A deterministic machine answers each input with an output. `run` feeds it a list
of inputs. Two machines whose answers agree step by step under a relation agree
on every script.
-/

namespace CoeleoOs.Lib.Script

variable {σ τ ι ω : Type*} {step : σ → ι → ω × σ} {step' : τ → ι → ω × τ}

def run (step : σ → ι → ω × σ) : σ → List ι → List ω × σ
  | s, [] => ([], s)
  | s, i :: is => ((step s i).1 :: (run step (step s i).2 is).1, (run step (step s i).2 is).2)

theorem run_simulates {R : σ → τ → Prop}
    (hstep : ∀ s t i, R s t → (step s i).1 = (step' t i).1 ∧ R (step s i).2 (step' t i).2)
    {s : σ} {t : τ} (h : R s t) (is : List ι) :
    (run step s is).1 = (run step' t is).1 ∧ R (run step s is).2 (run step' t is).2 := by
  induction is generalizing s t with
  | nil => exact ⟨rfl, h⟩
  | cons i is ih =>
    obtain ⟨hout, hnext⟩ := hstep s t i h
    obtain ⟨houts, hlast⟩ := ih hnext
    simp only [run]
    exact ⟨by rw [hout, houts], hlast⟩

end CoeleoOs.Lib.Script
