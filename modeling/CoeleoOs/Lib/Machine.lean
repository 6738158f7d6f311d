import Mathlib.Data.List.Basic
import Mathlib.Data.List.Induction

/-!
# Guarded machines and their runs

A machine is a partial step function: `step s a` is `none` when the action `a`
is not enabled in `s`. A path keeps every transition it took, so that a
statement about a whole run can speak of the state before and after each step.
Invariants are proved once per step and lifted to runs here.
-/

namespace CoeleoOs.Lib.Machine

variable {σ α : Type*}

structure Trans (σ α : Type*) where
  pre : σ
  act : α
  post : σ

inductive Path (step : σ → α → Option σ) (s₀ : σ) : List (Trans σ α) → σ → Prop
  | nil : Path step s₀ [] s₀
  | snoc {ts : List (Trans σ α)} {s s' : σ} (a : α) :
      Path step s₀ ts s → step s a = some s' → Path step s₀ (ts ++ [⟨s, a, s'⟩]) s'

def Reachable (step : σ → α → Option σ) (s₀ s : σ) : Prop := ∃ ts, Path step s₀ ts s

variable {step : σ → α → Option σ} {s₀ s : σ} {ts : List (Trans σ α)}

theorem Path.step_of_mem (h : Path step s₀ ts s) :
    ∀ t ∈ ts, step t.pre t.act = some t.post := by
  induction h with
  | nil => simp
  | snoc a _ hs ih =>
    intro t ht
    rcases List.mem_append.mp ht with ht | ht
    · exact ih t ht
    · rw [List.mem_singleton.mp ht]
      exact hs

theorem Path.invariant {I : σ → Prop} {C : Trans σ α → Prop} (h₀ : I s₀)
    (hstep : ∀ t, step t.pre t.act = some t.post → I t.pre → C t → I t.post)
    (h : Path step s₀ ts s) (hc : ∀ t ∈ ts, C t) : I s := by
  induction h with
  | nil => exact h₀
  | @snoc ts s s' a _ hs ih =>
    refine hstep ⟨s, a, s'⟩ hs (ih fun t ht => hc t (List.mem_append_left _ ht)) ?_
    exact hc ⟨s, a, s'⟩ (by simp)

theorem Path.invariant_pre {I : σ → Prop} {C : Trans σ α → Prop} (h₀ : I s₀)
    (hstep : ∀ t, step t.pre t.act = some t.post → I t.pre → C t → I t.post)
    (h : Path step s₀ ts s) (hc : ∀ t ∈ ts, C t) : ∀ t ∈ ts, I t.pre := by
  induction h with
  | nil => simp
  | snoc a hp _ ih =>
    have hc' := fun t ht => hc t (List.mem_append_left _ ht)
    intro t ht
    rcases List.mem_append.mp ht with ht | ht
    · exact ih hc' t ht
    · rw [List.mem_singleton.mp ht]
      exact hp.invariant h₀ hstep hc'

theorem Path.forall_iff {I : σ → Prop} {P C : Trans σ α → Prop} (h₀ : I s₀)
    (hiff : ∀ t, step t.pre t.act = some t.post → I t.pre → (P t ↔ C t))
    (hstep : ∀ t, step t.pre t.act = some t.post → I t.pre → C t → I t.post)
    (h : Path step s₀ ts s) : (∀ t ∈ ts, P t) ↔ ∀ t ∈ ts, C t := by
  have hboth : ((∀ t ∈ ts, P t) ↔ ∀ t ∈ ts, C t) ∧ ((∀ t ∈ ts, C t) → I s) := by
    induction h with
    | nil => exact ⟨by simp, fun _ => h₀⟩
    | @snoc ts s s' a _ hs ih =>
      obtain ⟨ih, hI⟩ := ih
      simp only [List.mem_append, List.mem_singleton, or_imp, forall_and, forall_eq]
      refine ⟨⟨fun hp => ?_, fun hc => ?_⟩, fun hc => hstep ⟨s, a, s'⟩ hs (hI hc.1) hc.2⟩
      · have hc := ih.mp hp.1
        exact ⟨hc, (hiff ⟨s, a, s'⟩ hs (hI hc)).mp hp.2⟩
      · exact ⟨ih.mpr hc.1, (hiff ⟨s, a, s'⟩ hs (hI hc.1)).mpr hc.2⟩
  exact hboth.1

theorem Reachable.invariant {I : σ → Prop} (h₀ : I s₀)
    (hstep : ∀ s a s', I s → step s a = some s' → I s') (h : Reachable step s₀ s) : I s := by
  obtain ⟨ts, hp⟩ := h
  exact hp.invariant (C := fun _ => True) h₀ (fun t ht hI _ => hstep _ _ _ hI ht) (by simp)

theorem Reachable.tail {s' : σ} {a : α} (h : Reachable step s₀ s) (hs : step s a = some s') :
    Reachable step s₀ s' := by
  obtain ⟨ts, hp⟩ := h
  exact ⟨_, hp.snoc a hs⟩

def replay (step : σ → α → Option σ) : σ → List α → Option (List (Trans σ α) × σ)
  | s, [] => some ([], s)
  | s, a :: as =>
    match step s a with
    | none => none
    | some s' => (replay step s' as).map fun r => (⟨s, a, s'⟩ :: r.1, r.2)

theorem Path.append {s' : σ} {us : List (Trans σ α)} (h : Path step s₀ ts s)
    (h' : Path step s us s') : Path step s₀ (ts ++ us) s' := by
  induction h' with
  | nil => simpa using h
  | snoc a _ hs ih => simpa only [List.append_assoc] using ih.snoc a hs

theorem Path.of_append {us vs : List (Trans σ α)} (h : Path step s₀ (us ++ vs) s) :
    ∃ m, Path step s₀ us m ∧ Path step m vs s := by
  induction vs using List.reverseRecOn generalizing s with
  | nil => exact ⟨s, by simpa using h, .nil⟩
  | append_singleton vs t ih =>
    rw [← List.append_assoc] at h
    generalize hts : us ++ vs ++ [t] = ts at h
    cases h with
    | nil => simp at hts
    | @snoc ts' s₁ _ a hp hs =>
      obtain ⟨hinit, hlast⟩ := List.append_inj' hts rfl
      subst hinit
      obtain rfl := List.singleton_inj.mp hlast
      obtain ⟨m, hus, hvs⟩ := ih hp
      exact ⟨m, hus, hvs.snoc a hs⟩

theorem Path.of_split {us vs : List (Trans σ α)} {t : Trans σ α}
    (h : Path step s₀ (us ++ t :: vs) s) :
    Path step s₀ us t.pre ∧ step t.pre t.act = some t.post := by
  rw [List.append_cons] at h
  obtain ⟨m, hus, -⟩ := Path.of_append h
  generalize hts : us ++ [t] = ts at hus
  cases hus with
  | nil => simp at hts
  | @snoc ts' s₁ _ a hp hs =>
    obtain ⟨rfl, hlast⟩ := List.append_inj' hts rfl
    obtain rfl := List.singleton_inj.mp hlast
    exact ⟨hp, hs⟩

theorem replay_path {as : List α} {r : List (Trans σ α) × σ} (h : replay step s as = some r) :
    Path step s r.1 r.2 := by
  induction as generalizing s r with
  | nil =>
    obtain rfl := Option.some.inj h
    exact .nil
  | cons a as ih =>
    simp only [replay] at h
    cases hs : step s a with
    | none => simp [hs] at h
    | some s' =>
      simp only [hs, Option.map_eq_some_iff] at h
      obtain ⟨q, hq, rfl⟩ := h
      exact Path.append (.snoc a .nil hs) (ih hq)

theorem exists_path_of_replay (step : σ → α → Option σ) (s : σ) (as : List α)
    (p : List (Trans σ α) × σ → Bool) (h : (replay step s as).any p = true) :
    ∃ r, Path step s r.1 r.2 ∧ p r = true := by
  obtain ⟨r, hr, hp⟩ := (Option.any_eq_true p _).mp h
  exact ⟨r, replay_path hr, hp⟩

theorem replay_reachable (as : List α) {r : List (Trans σ α) × σ}
    (h : replay step s as = some r) : Reachable step s r.2 :=
  ⟨r.1, replay_path h⟩

end CoeleoOs.Lib.Machine
