import Mathlib.Data.List.Basic

/-!
# A cell for one item

A cell holds at most one item. Putting an item in, taking it out and dropping it
are noted one after the other; `Follows` says which sequences of notes fit a cell
into which nothing is put while it is full. Then each item that was put in is the
one that the next note takes out or drops.
-/

namespace CoeleoOs.Lib.Cell

variable {α β : Type*}

inductive Note (α β : Type*)
  | put (a : α)
  | took (a : α) (b : β)
  | dropped

/-- The notes lead the cell from one content to another. -/
inductive Follows : Option α → List (Note α β) → Option α → Prop
  | nil (c : Option α) : Follows c [] c
  | put {a : α} {l : List (Note α β)} {c : Option α} :
    Follows (some a) l c → Follows none (.put a :: l) c
  | took {a : α} (b : β) {l : List (Note α β)} {c : Option α} :
    Follows none l c → Follows (some a) (.took a b :: l) c
  | dropped (x : Option α) {l : List (Note α β)} {c : Option α} :
    Follows none l c → Follows x (.dropped :: l) c

variable {c c' c'' : Option α} {l l' : List (Note α β)} {a : α}

theorem Follows.append (h : Follows c l c') (h' : Follows c' l' c'') : Follows c (l ++ l') c'' := by
  induction h with
  | nil _ => exact h'
  | put _ ih => exact .put (ih h')
  | took b _ ih => exact .took b (ih h')
  | dropped x _ ih => exact .dropped x (ih h')

theorem Follows.of_append (h : Follows c (l ++ l') c'') :
    ∃ c', Follows c l c' ∧ Follows c' l' c'' := by
  induction l generalizing c with
  | nil => exact ⟨c, .nil c, h⟩
  | cons n l ih =>
    cases h with
    | put h =>
      obtain ⟨c', hl, hl'⟩ := ih h
      exact ⟨c', .put hl, hl'⟩
    | took b h =>
      obtain ⟨c', hl, hl'⟩ := ih h
      exact ⟨c', .took b hl, hl'⟩
    | dropped _ h =>
      obtain ⟨c', hl, hl'⟩ := ih h
      exact ⟨c', .dropped c hl, hl'⟩

theorem Follows.put_settled (h : Follows c (l ++ .put a :: l') c') :
    (l' = [] ∧ c' = some a) ∨ (∃ b l'', l' = .took a b :: l'') ∨ ∃ l'', l' = .dropped :: l'' := by
  obtain ⟨_, -, hput⟩ := h.of_append
  cases hput with
  | put h =>
    cases h with
    | nil _ => exact .inl ⟨rfl, rfl⟩
    | took b _ => exact .inr (.inl ⟨b, _, rfl⟩)
    | dropped _ _ => exact .inr (.inr ⟨_, rfl⟩)

theorem Follows.last_put (h : Follows none l (some a)) : ∃ l₀, l = l₀ ++ [.put a] := by
  generalize hn : (none : Option α) = c at h
  generalize hs : some a = c' at h
  have hlast : ∀ {c c' : Option α} {l : List (Note α β)}, Follows c l c' → ∀ a, c' = some a →
      (l = [] ∧ c = some a) ∨ ∃ l₀, l = l₀ ++ [.put a] := by
    intro c c' l h
    induction h with
    | nil c => exact fun a ha => .inl ⟨rfl, ha⟩
    | put _ ih =>
      intro a ha
      rcases ih a ha with ⟨rfl, hx⟩ | ⟨l₀, rfl⟩
      · obtain rfl := Option.some.inj hx
        exact .inr ⟨[], rfl⟩
      · exact .inr ⟨_ :: l₀, rfl⟩
    | took _ _ ih | dropped _ _ ih =>
      intro a ha
      rcases ih a ha with ⟨-, hx⟩ | ⟨l₀, rfl⟩
      · cases hx
      · exact .inr ⟨_ :: l₀, rfl⟩
  rcases hlast h a hs.symm with ⟨-, hx⟩ | h
  · rw [← hn] at hx
    cases hx
  · exact h

theorem Follows.stays_empty (h : Follows none l c) (hl : ∀ a, .put a ∉ l) : c = none := by
  cases c with
  | none => rfl
  | some a =>
    obtain ⟨l₀, rfl⟩ := h.last_put
    exact absurd (List.mem_append_right _ (List.mem_singleton_self _)) (hl a)

theorem Follows.took_put {b : β} (h : Follows none (l ++ .took a b :: l') c') :
    ∃ l₀, l = l₀ ++ [.put a] := by
  obtain ⟨_, hl, htook⟩ := h.of_append
  cases htook with
  | took _ _ => exact hl.last_put

end CoeleoOs.Lib.Cell
