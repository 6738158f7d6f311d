import Mathlib.Algebra.Group.Nat.Defs
import Mathlib.Data.List.Basic

/-!
# Checked programs

Sums and products that must fit a width, differences that must not go below zero, places that must
lie in their array: `none` is a program that stops there. A loop whose steps keep an invariant comes
to its end.
-/

namespace CoeleoOs.Lib.Checked

variable {σ α : Type*}

/-- The program comes to its end. -/
def Runs (x : Option α) : Prop := ∃ a, x = some a

def usizeMax : ℕ := 2 ^ 64 - 1

def fit (width n : ℕ) : Option ℕ := if n < 2 ^ width then some n else none

def less (a b : ℕ) : Option ℕ := if b ≤ a then some (a - b) else none

def store (out : List α) (i : ℕ) (v : α) : Option (List α) :=
  if i < out.length then some (out.set i v) else none

def readIf (c : Prop) [Decidable c] (x : Option α) (d : α) : Option α := if c then x else some d

def loop (a b : ℕ) (f : ℕ → σ → Option σ) (s : σ) : Option σ :=
  (List.range' a (b - a)).foldlM (fun s i => f i s) s

section Runs

variable {β : Type*} {x : Option α} {f : α → Option β}

@[simp] theorem runs_some (a : α) : Runs (some a) := ⟨a, rfl⟩

@[simp] theorem not_runs_none : ¬ Runs (none : Option α) := by
  rintro ⟨a, ha⟩
  cases ha

theorem Runs.bind (h : Runs x) (hf : ∀ a, x = some a → Runs (f a)) : Runs (x.bind f) := by
  obtain ⟨a, ha⟩ := h
  rw [ha]
  exact hf a ha

theorem Runs.map {g : α → β} (h : Runs x) : Runs (x.map g) := by
  obtain ⟨a, ha⟩ := h
  exact ⟨g a, by rw [ha, Option.map_some]⟩

theorem Runs.ite {c : Prop} [Decidable c] {y : Option α} (hx : c → Runs x) (hy : ¬ c → Runs y) :
    Runs (if c then x else y) := by
  split
  · exact hx ‹c›
  · exact hy ‹¬ c›

theorem Runs.readIf {c : Prop} [Decidable c] {d : α} (hx : c → Runs x) : Runs (readIf c x d) :=
  .ite hx fun _ => runs_some d

end Runs

theorem fit_eq {width n : ℕ} (h : n < 2 ^ width) : fit width n = some n := if_pos h

theorem less_eq {a b : ℕ} (h : b ≤ a) : less a b = some (a - b) := if_pos h

theorem loop_done {a b : ℕ} (h : b ≤ a) (f : ℕ → σ → Option σ) (s : σ) : loop a b f s = some s := by
  rw [loop, Nat.sub_eq_zero_of_le h]
  rfl

theorem loop_step {a b : ℕ} (h : a < b) (f : ℕ → σ → Option σ) (s : σ) :
    loop a b f s = (f a s).bind (loop (a + 1) b f) := by
  obtain ⟨k, rfl⟩ : ∃ k, b = a + (k + 1) := ⟨b - a - 1, by omega⟩
  have hk : a + (k + 1) - (a + 1) = k := by omega
  rw [loop, Nat.add_sub_cancel_left, List.range'_succ, List.foldlM_cons]
  congr 1
  funext s'
  rw [loop, hk]

theorem loop_rule {a b : ℕ} {f : ℕ → σ → Option σ} (I : ℕ → σ → Prop) (hab : a ≤ b)
    (hstep : ∀ i s, a ≤ i → i < b → I i s → ∃ s', f i s = some s' ∧ I (i + 1) s') {s : σ}
    (hs : I a s) : ∃ s', loop a b f s = some s' ∧ I b s' := by
  induction hk : b - a generalizing a s with
  | zero =>
    obtain rfl : a = b := by omega
    exact ⟨s, loop_done (Nat.le_refl _) f s, hs⟩
  | succ k ih =>
    have hlt : a < b := by omega
    obtain ⟨s₁, hf, hs₁⟩ := hstep a s (Nat.le_refl a) hlt hs
    obtain ⟨s₂, hloop, hs₂⟩ :=
      ih hlt (fun i s hi => hstep i s (Nat.le_of_succ_le hi)) hs₁ (by omega)
    refine ⟨s₂, ?_, hs₂⟩
    rw [loop_step hlt, hf]
    exact hloop

/-- An array whose first cells are written. -/
structure Filled (cell : ℕ → α) (n k : ℕ) (out : List α) : Prop where
  length : out.length = n
  cells : ∀ i, i < k → out[i]? = some (cell i)

variable {cell : ℕ → α} {n k : ℕ} {out : List α}

theorem Filled.store (h : Filled cell n k out) (hk : k < n) :
    ∃ out', store out k (cell k) = some out' ∧ Filled cell n (k + 1) out' := by
  have hlen : k < out.length := by rwa [h.length]
  refine ⟨out.set k (cell k), if_pos hlen, ?_, ?_⟩
  · rw [List.length_set, h.length]
  · intro i hi
    rcases Nat.lt_succ_iff_lt_or_eq.mp hi with hlt | rfl
    · rw [List.getElem?_set_ne (Nat.ne_of_gt hlt), h.cells i hlt]
    · rw [List.getElem?_set_self hlen]

theorem Filled.eq (h : Filled cell n n out) : out = (List.range n).map cell := by
  apply List.ext_getElem?
  intro i
  rw [List.getElem?_map]
  rcases Nat.lt_or_ge i n with hi | hi
  · rw [h.cells i hi, List.getElem?_range hi, Option.map_some]
  · rw [List.getElem?_eq_none (by rwa [h.length]),
      List.getElem?_eq_none (by rwa [List.length_range]), Option.map_none]

theorem filled_rows {w rows : ℕ} {row : ℕ → List α → Option (List α)}
    (hrow : ∀ y out, y < rows → Filled cell (rows * w) (y * w) out →
      ∃ out', row y out = some out' ∧ Filled cell (rows * w) ((y + 1) * w) out') (hlen :
      out.length = rows * w) :
    loop 0 rows row out = some ((List.range (rows * w)).map cell) := by
  obtain ⟨out', hloop, hout⟩ :=
    loop_rule (fun y => Filled cell (rows * w) (y * w)) (Nat.zero_le rows)
    (fun y out _ => hrow y out) ⟨hlen, fun i hi => absurd hi (by simp)⟩
  rw [hloop, hout.eq]

end CoeleoOs.Lib.Checked
