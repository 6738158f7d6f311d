import Mathlib.Data.List.Basic

/-!
# Programs that make calls

A program makes calls and goes on with the answers. Whoever serves them changes a state, and
between two calls the state may drift. `Runs` relates a program to the calls of a run, each
with the state in which it was served; a triple says what holds after every run.
-/

namespace CoeleoOs.Lib

inductive Calls (C : Type) (A : C → Type) (β : Type)
  | done (b : β)
  | call (c : C) (k : A c → Calls C A β)

namespace Calls

variable {C : Type} {A : C → Type} {α β σ ι : Type}

def bind : Calls C A α → (α → Calls C A β) → Calls C A β
  | .done a, f => f a
  | .call c k, f => .call c fun a => (k a).bind f

instance : Monad (Calls C A) where
  pure := .done
  bind := bind

def ask (c : C) : Calls C A (A c) := .call c .done

structure Served (C σ : Type) where
  call : C
  pre : σ

inductive Runs (drift : σ → σ → Prop) (serve : (c : C) → σ → A c → σ → Prop) :
    Calls C A β → σ → List (Served C σ) → β → σ → Prop
  | done (b : β) (s : σ) : Runs drift serve (.done b) s [] b s
  | call {c : C} {k : A c → Calls C A β} {s s₀ s₁ s' : σ} {a : A c} {es : List (Served C σ)}
    {b : β} : drift s s₀ → serve c s₀ a s₁ → Runs drift serve (k a) s₁ es b s' →
      Runs drift serve (.call c k) s (⟨c, s₀⟩ :: es) b s'

variable {drift : σ → σ → Prop} {serve : (c : C) → σ → A c → σ → Prop}

theorem Runs.bind_split {m : Calls C A α} {f : α → Calls C A β} {s s' : σ} {es : List (Served C σ)}
    {b : β} (h : Runs drift serve (m >>= f) s es b s') :
    ∃ es₁ es₂ a s₁, Runs drift serve m s es₁ a s₁ ∧ Runs drift serve (f a) s₁ es₂ b s' ∧
    es = es₁ ++ es₂ := by
  induction m generalizing s es with
  | done a => exact ⟨[], es, a, s, .done a s, h, rfl⟩
  | call c k ih =>
    change Runs drift serve (.call c fun a => (k a).bind f) s es b s' at h
    cases h with
    | call hdrift hserve hrest =>
      obtain ⟨es₁, es₂, a, s₁, hm, hf, rfl⟩ := ih _ hrest
      exact ⟨_, es₂, a, s₁, .call hdrift hserve hm, hf, rfl⟩

theorem Runs.count_iff {count : σ → ℕ} {bad : C → σ → Bool}
    (hdrift : ∀ s s', drift s s' → count s' = count s) (hserve : ∀ c s a s', serve c s a s' →
      count s' = count s + if bad c s then 1 else 0) {m : Calls C A β} {s s' : σ}
        {es : List (Served C σ)} {b : β} (h : Runs drift serve m s es b s') :
    count s' = count s ↔ ∀ e ∈ es, bad e.call e.pre = false := by
  have hcount : count s' = count s + es.countP fun e => bad e.call e.pre := by
    induction h with
    | done b s => rfl
    | call hd hs _ ih =>
      rw [ih, hserve _ _ _ _ hs, hdrift _ _ hd, List.countP_cons, Nat.add_assoc,
        Nat.add_comm (List.countP _ _)]
  rw [hcount, Nat.add_eq_left, List.countP_eq_zero]
  simp only [Bool.not_eq_true]

def Triple (drift : σ → σ → Prop) (serve : (c : C) → σ → A c → σ → Prop) (P : σ → Prop)
    (m : Calls C A β) (Q : β → σ → Prop) : Prop :=
  ∀ s es b s', Runs drift serve m s es b s' → P s → Q b s'

section Triples

variable {P : σ → Prop} {Q : β → σ → Prop}

theorem triple_pure {b : β} (h : ∀ s, P s → Q b s) : Triple drift serve P (pure b) Q := by
  intro s es b' s' hrun hP
  cases hrun with
  | done => exact h s hP

theorem triple_ask {c : C} {R : A c → σ → Prop} (hdrift : ∀ s s', P s → drift s s' → P s')
    (hserve : ∀ s a s', P s → serve c s a s' → R a s') : Triple drift serve P (ask c) R := by
  intro s es a s' hrun hP
  cases hrun with
  | call hd hs hrest =>
    cases hrest with
    | done => exact hserve _ a _ (hdrift s _ hP hd) hs

theorem Triple.bind {m : Calls C A α} {f : α → Calls C A β} {R : α → σ → Prop}
    (hm : Triple drift serve P m R) (hf : ∀ a, Triple drift serve (R a) (f a) Q) :
    Triple drift serve P (m >>= f) Q := by
  intro s es b s' hrun hP
  obtain ⟨es₁, es₂, a, s₁, hfirst, hrest, -⟩ := hrun.bind_split
  exact hf a s₁ es₂ b s' hrest (hm s es₁ a s₁ hfirst hP)

end Triples

def replay (reply : ι → (c : C) → σ → Option (A c × σ)) :
    Calls C A β → List ι → σ → Option (List (Served C σ) × β × σ)
  | .done b, _, s => some ([], b, s)
  | .call _ _, [], _ => none
  | .call c k, i :: is, s =>
    match reply i c s with
    | none => none
    | some (a, s₁) => (replay reply (k a) is s₁).map fun r => (⟨c, s⟩ :: r.1, r.2)

theorem replay_runs {reply : ι → (c : C) → σ → Option (A c × σ)} (hrefl : ∀ s, drift s s)
    (hreply : ∀ i c s a s', reply i c s = some (a, s') → serve c s a s') {m : Calls C A β}
    {is : List ι} {s : σ} {r : List (Served C σ) × β × σ} (h : replay reply m is s = some r) :
    Runs drift serve m s r.1 r.2.1 r.2.2 := by
  induction m generalizing is s r with
  | done b =>
    obtain rfl := Option.some.inj h
    exact .done b s
  | call c k ih =>
    cases is with
    | nil => cases h
    | cons i is =>
      rw [replay] at h
      rcases hr : reply i c s with _ | ⟨a, s₁⟩
      · rw [hr] at h
        cases h
      · rw [hr] at h
        obtain ⟨r', hr', rfl⟩ := Option.map_eq_some_iff.mp h
        exact .call (hrefl s) (hreply i c s a s₁ hr) (ih a hr')

end Calls

end CoeleoOs.Lib
