import Mathlib.Data.List.Basic
import Mathlib.Order.Defs.Unbundled

/-!
# Programs with a log

A program reads an environment `ρ`, changes a state `σ`, logs operations `ω` in
order and may abort. The log survives an abort, the state does not. `out` and
`log` are the two observations; each combinator has one rewriting rule for each.
-/

namespace CoeleoOs.Lib

def Eff (ρ ω σ α : Type) := ρ → σ → List ω × Option (α × σ)

namespace Eff

variable {ρ ω σ τ α β : Type}

def log (m : Eff ρ ω σ α) (e : ρ) (s : σ) : List ω := (m e s).1

def out (m : Eff ρ ω σ α) (e : ρ) (s : σ) : Option (α × σ) := (m e s).2

instance : Monad (Eff ρ ω σ) where
  pure a := fun _ s => ([], some (a, s))
  bind m f := fun e s =>
    match m e s with
    | (l, none) => (l, none)
    | (l, some (a, s')) => (l ++ (f a e s').1, (f a e s').2)

def get : Eff ρ ω σ σ := fun _ s => ([], some (s, s))
def set (s : σ) : Eff ρ ω σ Unit := fun _ _ => ([], some ((), s))
def ask : Eff ρ ω σ ρ := fun e s => ([], some (e, s))
def tell (o : ω) : Eff ρ ω σ Unit := fun _ s => ([o], some ((), s))
def abort : Eff ρ ω σ α := fun _ _ => ([], none)

def zoom (part : σ → τ) (put : τ → σ → σ) (m : Eff ρ ω τ α) : Eff ρ ω σ α := fun e s =>
  (m.log e (part s), (m.out e (part s)).map fun r => (r.1, put r.2 s))

variable (e : ρ) (s : σ)

@[simp] theorem out_pure (a : α) : (pure a : Eff ρ ω σ α).out e s = some (a, s) := rfl
@[simp] theorem log_pure (a : α) : (pure a : Eff ρ ω σ α).log e s = [] := rfl
@[simp] theorem out_get : (get : Eff ρ ω σ σ).out e s = some (s, s) := rfl
@[simp] theorem log_get : (get : Eff ρ ω σ σ).log e s = [] := rfl
@[simp] theorem out_set (s' : σ) : (set s' : Eff ρ ω σ Unit).out e s = some ((), s') := rfl
@[simp] theorem log_set (s' : σ) : (set s' : Eff ρ ω σ Unit).log e s = [] := rfl
@[simp] theorem out_ask : (ask : Eff ρ ω σ ρ).out e s = some (e, s) := rfl
@[simp] theorem log_ask : (ask : Eff ρ ω σ ρ).log e s = [] := rfl
@[simp] theorem out_tell (o : ω) : (tell o : Eff ρ ω σ Unit).out e s = some ((), s) := rfl
@[simp] theorem log_tell (o : ω) : (tell o : Eff ρ ω σ Unit).log e s = [o] := rfl
@[simp] theorem out_abort : (abort : Eff ρ ω σ α).out e s = none := rfl
@[simp] theorem log_abort : (abort : Eff ρ ω σ α).log e s = [] := rfl

@[simp] theorem out_bind (m : Eff ρ ω σ α) (f : α → Eff ρ ω σ β) :
    (m >>= f).out e s = (m.out e s).bind fun r => (f r.1).out e r.2 := by
  change (match m e s with
    | (l, none) => (l, none)
    | (l, some (a, s')) => (l ++ (f a e s').1, (f a e s').2) : List ω × Option (β × σ)).2 = _
  unfold out
  rcases m e s with ⟨l, _ | ⟨a, s'⟩⟩ <;> rfl

@[simp] theorem log_bind (m : Eff ρ ω σ α) (f : α → Eff ρ ω σ β) :
    (m >>= f).log e s =
      m.log e s ++ (m.out e s).elim [] fun r => (f r.1).log e r.2 := by
  change (match m e s with
    | (l, none) => (l, none)
    | (l, some (a, s')) => (l ++ (f a e s').1, (f a e s').2) : List ω × Option (β × σ)).1 = _
  unfold log out
  rcases m e s with ⟨l, _ | ⟨a, s'⟩⟩ <;> simp

@[simp] theorem out_zoom (part : σ → τ) (put : τ → σ → σ) (m : Eff ρ ω τ α) :
    (zoom part put m).out e s = (m.out e (part s)).map fun r => (r.1, put r.2 s) := rfl

@[simp] theorem log_zoom (part : σ → τ) (put : τ → σ → σ) (m : Eff ρ ω τ α) :
    (zoom part put m).log e s = m.log e (part s) := rfl

@[simp] theorem out_ite {c : Prop} [Decidable c] (m n : Eff ρ ω σ α) :
    (if c then m else n).out e s = if c then m.out e s else n.out e s := by
  split <;> rfl

@[simp] theorem log_ite {c : Prop} [Decidable c] (m n : Eff ρ ω σ α) :
    (if c then m else n).log e s = if c then m.log e s else n.log e s := by
  split <;> rfl

def wp (m : Eff ρ ω σ α) (e : ρ) (s : σ) (Q : α → σ → Prop) : Prop :=
  ∀ a s', m.out e s = some (a, s') → Q a s'

section wp

variable {e : ρ} {s : σ} {Q : α → σ → Prop}

@[simp] theorem wp_pure {a : α} : (pure a : Eff ρ ω σ α).wp e s Q ↔ Q a s := by
  simp [wp]

@[simp] theorem wp_get {Q : σ → σ → Prop} : (get : Eff ρ ω σ σ).wp e s Q ↔ Q s s := by
  simp [wp]

@[simp] theorem wp_set {s₁ : σ} {Q : Unit → σ → Prop} :
    (set s₁ : Eff ρ ω σ Unit).wp e s Q ↔ Q () s₁ := by
  refine ⟨fun h => h () s₁ rfl, fun h a s' ho => ?_⟩
  cases ho
  exact h

@[simp] theorem wp_ask {Q : ρ → σ → Prop} : (ask : Eff ρ ω σ ρ).wp e s Q ↔ Q e s := by
  simp [wp]

@[simp] theorem wp_tell {o : ω} {Q : Unit → σ → Prop} :
    (tell o : Eff ρ ω σ Unit).wp e s Q ↔ Q () s := by
  refine ⟨fun h => h () s rfl, fun h a s' ho => ?_⟩
  cases ho
  exact h

@[simp] theorem wp_abort : (abort : Eff ρ ω σ α).wp e s Q ↔ True := by
  simp [wp]

@[simp] theorem wp_bind {m : Eff ρ ω σ α} {f : α → Eff ρ ω σ β} {Q : β → σ → Prop} :
    (m >>= f).wp e s Q ↔ m.wp e s fun a s' => (f a).wp e s' Q := by
  simp only [wp, out_bind, Option.bind_eq_some_iff, Prod.exists]
  constructor
  · intro h a s₁ hm b s₂ hf
    exact h b s₂ ⟨a, s₁, hm, hf⟩
  · rintro h b s₂ ⟨a, s₁, hm, hf⟩
    exact h a s₁ hm b s₂ hf

@[simp] theorem wp_ite {c : Prop} [Decidable c] {m n : Eff ρ ω σ α} :
    (if c then m else n).wp e s Q ↔ if c then m.wp e s Q else n.wp e s Q := by
  split <;> rfl

@[simp] theorem wp_zoom {part : σ → τ} {put : τ → σ → σ} {m : Eff ρ ω τ α} :
    (zoom part put m).wp e s Q ↔ m.wp e (part s) fun a t => Q a (put t s) := by
  simp only [wp, out_zoom, Option.map_eq_some_iff, Prod.exists, Prod.mk.injEq]
  constructor
  · intro h a t hm
    exact h a _ ⟨a, t, hm, rfl, rfl⟩
  · rintro h a s' ⟨b, t, hm, rfl, rfl⟩
    exact h b t hm

theorem wp_of_out {m : Eff ρ ω σ α} {a : α} {s₁ : σ} (h : m.out e s = some (a, s₁)) :
    m.wp e s Q ↔ Q a s₁ := by
  simp [wp, h]

theorem wp_mono {m : Eff ρ ω σ α} {R : α → σ → Prop} (h : m.wp e s Q)
    (hQR : ∀ a s', Q a s' → R a s') : m.wp e s R :=
  fun a s' ho => hQR a s' (h a s' ho)

end wp

def wpLog (m : Eff ρ ω σ α) (e : ρ) (s : σ) (Q : List ω → α → σ → Prop) (A : List ω → Prop) :
    Prop :=
  match m.out e s with
  | some (a, s') => Q (m.log e s) a s'
  | none => A (m.log e s)

section wpLog

variable {e : ρ} {s : σ} {Q : List ω → α → σ → Prop} {A : List ω → Prop}

@[simp] theorem wpLog_pure {a : α} : (pure a : Eff ρ ω σ α).wpLog e s Q A ↔ Q [] a s := Iff.rfl

@[simp] theorem wpLog_get {Q : List ω → σ → σ → Prop} :
    (get : Eff ρ ω σ σ).wpLog e s Q A ↔ Q [] s s := Iff.rfl

@[simp] theorem wpLog_set {s₁ : σ} {Q : List ω → Unit → σ → Prop} :
    (set s₁ : Eff ρ ω σ Unit).wpLog e s Q A ↔ Q [] () s₁ := Iff.rfl

@[simp] theorem wpLog_ask {Q : List ω → ρ → σ → Prop} :
    (ask : Eff ρ ω σ ρ).wpLog e s Q A ↔ Q [] e s := Iff.rfl

@[simp] theorem wpLog_tell {o : ω} {Q : List ω → Unit → σ → Prop} :
    (tell o : Eff ρ ω σ Unit).wpLog e s Q A ↔ Q [o] () s := Iff.rfl

@[simp] theorem wpLog_abort : (abort : Eff ρ ω σ α).wpLog e s Q A ↔ A [] := Iff.rfl

@[simp] theorem wpLog_bind {m : Eff ρ ω σ α} {f : α → Eff ρ ω σ β} {Q : List ω → β → σ → Prop} :
    (m >>= f).wpLog e s Q A ↔ m.wpLog e s (fun l a s' => (f a).wpLog e s' (fun l' => Q (l ++ l'))
      fun l' => A (l ++ l')) A := by
  simp only [wpLog, out_bind, log_bind]
  rcases m.out e s with _ | ⟨a, s'⟩
  · simp
  · rfl

@[simp] theorem wpLog_ite {c : Prop} [Decidable c] {m n : Eff ρ ω σ α} :
    (if c then m else n).wpLog e s Q A ↔ if c then m.wpLog e s Q A else n.wpLog e s Q A := by
  split <;> rfl

@[simp] theorem wpLog_zoom {part : σ → τ} {put : τ → σ → σ} {m : Eff ρ ω τ α} :
    (zoom part put m).wpLog e s Q A ↔ m.wpLog e (part s) (fun l a t => Q l a (put t s)) A := by
  simp only [wpLog, out_zoom, log_zoom]
  rcases m.out e (part s) with _ | ⟨a, t⟩ <;> rfl

theorem wpLog_of_out {m : Eff ρ ω σ α} {a : α} {s₁ : σ} {l : List ω} (h : m.out e s = some (a, s₁))
    (hl : m.log e s = l) : m.wpLog e s Q A ↔ Q l a s₁ := by
  rw [wpLog, h, hl]

theorem wpLog_and {m : Eff ρ ω σ α} {P : Prop} :
    m.wpLog e s (fun l a s' => P ∧ Q l a s') (fun l => P ∧ A l) ↔ P ∧ m.wpLog e s Q A := by
  simp only [wpLog]
  split <;> rfl

end wpLog

def Within (R : σ → σ → Prop) (m : Eff ρ ω σ α) : Prop := ∀ e s, m.wp e s fun _ => R s

section Within

variable {R : σ → σ → Prop} {m : Eff ρ ω σ α}

theorem Within.pure [Std.Refl R] (a : α) : Within R (pure a : Eff ρ ω σ α) :=
  fun _ s => wp_pure.mpr (Std.Refl.refl s)

theorem Within.ask [Std.Refl R] : Within R (ask : Eff ρ ω σ ρ) :=
  fun _ s => wp_ask.mpr (Std.Refl.refl s)

theorem Within.abort : Within R (abort : Eff ρ ω σ α) := fun _ _ => wp_abort.mpr trivial

theorem Within.ite {c : Prop} [Decidable c] {n : Eff ρ ω σ α} (hm : Within R m) (hn : Within R n) :
    Within R (if c then m else n) := by
  split
  · exact hm
  · exact hn

theorem wp_within [IsTrans σ R] {e : ρ} {s : σ} {f : α → Eff ρ ω σ β} (hm : m.wp e s fun _ => R s)
    (hf : ∀ a, Within R (f a)) : (m >>= f).wp e s fun _ => R s := by
  rw [wp_bind]
  refine wp_mono hm fun a s₁ h₁ => wp_mono (hf a e s₁) fun _ s₂ h₂ => ?_
  exact IsTrans.trans s s₁ s₂ h₁ h₂

theorem Within.bind [IsTrans σ R] {f : α → Eff ρ ω σ β} (hm : Within R m)
    (hf : ∀ a, Within R (f a)) : Within R (m >>= f) :=
  fun e s => wp_within (hm e s) hf

theorem within_get {f : σ → Eff ρ ω σ β} (h : ∀ e s, (f s).wp e s fun _ => R s) :
    Within R (get >>= f) := by
  intro e s
  rw [wp_bind, wp_get]
  exact h e s

theorem wp_set_within [IsTrans σ R] {e : ρ} {s s₁ : σ} {f : Unit → Eff ρ ω σ β} (hR : R s s₁)
    (hf : Within R (f ())) : (set s₁ >>= f).wp e s fun _ => R s :=
  wp_within (wp_set.mpr hR) fun _ => hf

end Within

def Yields (P : α → Prop) (m : Eff ρ ω σ α) : Prop := ∀ e s, m.wp e s fun a _ => P a

section Yields

variable {P : β → Prop} {m n : Eff ρ ω σ β}

theorem Yields.pure {b : β} (h : P b) : Yields P (pure b : Eff ρ ω σ β) := fun _ _ => wp_pure.mpr h

theorem Yields.bind {l : Eff ρ ω σ α} {f : α → Eff ρ ω σ β} (h : ∀ a, Yields P (f a)) :
    Yields P (l >>= f) :=
  fun e _ => wp_bind.mpr fun a s₁ _ => h a e s₁

theorem Yields.ite {c : Prop} [Decidable c] (hm : Yields P m) (hn : Yields P n) :
    Yields P (if c then m else n) := by
  split
  · exact hm
  · exact hn

end Yields

end Eff

end CoeleoOs.Lib
