import Mathlib.Data.List.Basic

/-!
# Programs that fail and keep their state

A program changes a state `σ` and returns a result or fails. What it did before it
failed stays done. `Within R` says that no run leaves the relation `R`, which should be
reflexive and transitive; an invariant `I` is the relation `I s → I s'`. `Returns P` says
that every result has the property `P`.
-/

namespace CoeleoOs.Lib

def Fallible (σ α : Type) := σ → Option α × σ

namespace Fallible

variable {σ α β ι : Type}

def run (m : Fallible σ α) (s : σ) : Option α × σ := m s

instance : Monad (Fallible σ) where
  pure a := fun s => (some a, s)
  bind m f := fun s =>
    match m s with
    | (some a, s') => f a s'
    | (none, s') => (none, s')

def fail : Fallible σ α := fun s => (none, s)
def get : Fallible σ σ := fun s => (some s, s)
def modify (f : σ → σ) : Fallible σ Unit := fun s => (some (), f s)
def ofOption (o : Option α) : Fallible σ α := fun s => (o, s)
def attempt (m : Fallible σ α) : Fallible σ (Option α) := fun s => (some (m.run s).1, (m.run s).2)

def each (f : ι → Fallible σ Unit) : List ι → Fallible σ Unit
  | [] => pure ()
  | i :: is => do
    f i
    each f is

def all (f : ι → Fallible σ Bool) : List ι → Fallible σ Bool
  | [] => pure true
  | i :: is => do
    if ← f i then all f is else pure false

@[simp] theorem run_pure (a : α) (s : σ) : (pure a : Fallible σ α).run s = (some a, s) := rfl
@[simp] theorem run_fail (s : σ) : (fail : Fallible σ α).run s = (none, s) := rfl
@[simp] theorem run_get (s : σ) : (get : Fallible σ σ).run s = (some s, s) := rfl
@[simp] theorem run_modify (f : σ → σ) (s : σ) : (modify f).run s = (some (), f s) := rfl
@[simp] theorem run_ofOption (o : Option α) (s : σ) : (ofOption o).run s = (o, s) := rfl

@[simp] theorem run_attempt (m : Fallible σ α) (s : σ) :
    m.attempt.run s = (some (m.run s).1, (m.run s).2) := rfl

theorem run_bind (m : Fallible σ α) (f : α → Fallible σ β) (s : σ) :
    (m >>= f).run s = (m.run s).1.elim (none, (m.run s).2) fun a => (f a).run (m.run s).2 := by
  change (match m s with
    | (some a, s') => f a s'
    | (none, s') => (none, s') : Option β × σ) = _
  unfold run
  rcases m s with ⟨_ | a, s'⟩ <;> rfl

theorem run_bind_some {m : Fallible σ α} (f : α → Fallible σ β) {s s' : σ} {a : α}
    (h : m.run s = (some a, s')) : (m >>= f).run s = (f a).run s' := by
  rw [run_bind, h]
  rfl

def Within (R : σ → σ → Prop) (m : Fallible σ α) : Prop := ∀ s, R s (m.run s).2

def Returns (P : α → Prop) (m : Fallible σ α) : Prop := ∀ s a, (m.run s).1 = some a → P a

section Returns

variable {P : α → Prop} {Q : β → Prop}

theorem returns_pure {a : α} (h : P a) : Returns P (pure a : Fallible σ α) := by
  intro s b hb
  obtain rfl := Option.some.inj hb
  exact h

theorem returns_trivial (m : Fallible σ α) : Returns (fun _ => True) m := fun _ _ _ => trivial

theorem Returns.bind {m : Fallible σ α} {f : α → Fallible σ β} (hm : Returns P m)
    (hf : ∀ a, P a → Returns Q (f a)) : Returns Q (m >>= f) := by
  intro s b hb
  rw [run_bind] at hb
  rcases hr : (m.run s).1 with _ | a
  · rw [hr] at hb
    cases hb
  · rw [hr] at hb
    exact hf a (hm s a hr) _ b hb

theorem returns_bind {m : Fallible σ α} {f : α → Fallible σ β} (hf : ∀ a, Returns Q (f a)) :
    Returns Q (m >>= f) :=
  (returns_trivial m).bind fun a _ => hf a

end Returns

section Within

variable {R : σ → σ → Prop}

theorem within_pure (hrefl : ∀ s, R s s) (a : α) : Within R (pure a) := hrefl

theorem within_fail (hrefl : ∀ s, R s s) : Within R (fail : Fallible σ α) := hrefl

theorem within_get (hrefl : ∀ s, R s s) : Within R get := hrefl

theorem within_ofOption (hrefl : ∀ s, R s s) (o : Option α) : Within R (ofOption o) := hrefl

theorem Within.attempt {m : Fallible σ α} (h : Within R m) : Within R m.attempt := h

theorem Within.mono {R' : σ → σ → Prop} {m : Fallible σ α} (h : Within R m)
    (hle : ∀ s s', R s s' → R' s s') : Within R' m := fun s => hle s _ (h s)

theorem Within.bind_of (htrans : ∀ s₁ s₂ s₃, R s₁ s₂ → R s₂ s₃ → R s₁ s₃) {m : Fallible σ α}
    {f : α → Fallible σ β} {P : α → Prop} (hm : Within R m) (hP : Returns P m)
    (hf : ∀ a, P a → Within R (f a)) : Within R (m >>= f) := by
  intro s
  rw [run_bind]
  have hfirst := hm s
  rcases hr : (m.run s).1 with _ | a
  · exact hfirst
  · exact htrans _ _ _ hfirst (hf a (hP s a hr) _)

theorem Within.bind (htrans : ∀ s₁ s₂ s₃, R s₁ s₂ → R s₂ s₃ → R s₁ s₃) {m : Fallible σ α}
    {f : α → Fallible σ β} (hm : Within R m) (hf : ∀ a, Within R (f a)) : Within R (m >>= f) :=
  Within.bind_of htrans hm (returns_trivial m) fun a _ => hf a

theorem Within.each (hrefl : ∀ s, R s s) (htrans : ∀ s₁ s₂ s₃, R s₁ s₂ → R s₂ s₃ → R s₁ s₃)
    {f : ι → Fallible σ Unit} {is : List ι} (hf : ∀ i ∈ is, Within R (f i)) :
    Within R (each f is) := by
  induction is with
  | nil => exact within_pure hrefl ()
  | cons i is ih =>
    have hrest := ih fun j hj => hf j (List.mem_cons_of_mem i hj)
    exact Within.bind htrans (hf i List.mem_cons_self) fun _ => hrest

theorem Within.all (hrefl : ∀ s, R s s) (htrans : ∀ s₁ s₂ s₃, R s₁ s₂ → R s₂ s₃ → R s₁ s₃)
    {f : ι → Fallible σ Bool} {is : List ι} (hf : ∀ i ∈ is, Within R (f i)) :
    Within R (all f is) := by
  induction is with
  | nil => exact within_pure hrefl true
  | cons i is ih =>
    have hrest := ih fun j hj => hf j (List.mem_cons_of_mem i hj)
    refine Within.bind htrans (hf i List.mem_cons_self) fun b => ?_
    cases b with
    | true => exact hrest
    | false => exact within_pure hrefl false

end Within

end Fallible

end CoeleoOs.Lib
