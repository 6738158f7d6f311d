import CoeleoOs.Task.ElfSegment

/-!
# A mapper with four levels of tables

Which tables below the root exist, and the leaves. `map_to` walks down from the
root and asks for a frame wherever a table is missing; tables made before a
failure stay.
-/

namespace CoeleoOs.Task
open CoeleoOs.Lib

structure PageTables where
  tables : List (ℕ × ℕ)
  leaf : ℕ → Option Leaf

namespace PageTables

instance : LawfulBEq (ℕ × ℕ) := inferInstance

def descend (key : ℕ × ℕ) (t : PageTables)
    (k : PageTables → Client (Option ℕ) (Bool × PageTables)) :
    Client (Option ℕ) (Bool × PageTables) :=
  if key ∈ t.tables then k t
  else .ask fun
    | none => .done (false, t)
    | some _ => k { t with tables := key :: t.tables }

def place (va : ℕ) (leaf : Leaf) (t : PageTables) : Client (Option ℕ) (Bool × PageTables) :=
  if (t.leaf va).isSome then .done (false, t)
  else .done (true, { t with leaf := Function.update t.leaf va (some leaf) })

def mapper : PageMapper PageTables where
  empty := ⟨[], fun _ => none⟩
  mapTo t va leaf :=
    descend (3, va / 2 ^ 39) t fun t =>
      descend (2, va / 2 ^ 30) t fun t =>
        descend (1, va / 2 ^ 21) t fun t => place va leaf t

theorem descend_ends {key : ℕ × ℕ} {t t' : PageTables} {ok : Bool}
    {k : PageTables → Client (Option ℕ) (Bool × PageTables)} (h : (descend key t k).Ends (ok, t')) :
    (ok = false ∧ t' = t) ∨ ∃ t₁, t₁.leaf = t.leaf ∧ (k t₁).Ends (ok, t') := by
  simp only [descend] at h
  split at h
  · exact .inr ⟨t, rfl, h⟩
  · cases h with
    | ask a hrest =>
      cases a with
      | none =>
        cases hrest
        exact .inl ⟨rfl, rfl⟩
      | some f => exact .inr ⟨{ t with tables := key :: t.tables }, rfl, hrest⟩

theorem place_ends {va : ℕ} {leaf : Leaf} {t t' : PageTables} {ok : Bool}
    (h : (place va leaf t).Ends (ok, t')) : (ok = false ∧ t' = t) ∨
      (ok = true ∧ t.leaf va = none ∧ t'.leaf = Function.update t.leaf va (some leaf)) := by
  simp only [place] at h
  split at h
  · cases h
    exact .inl ⟨rfl, rfl⟩
  · rename_i hnone
    cases h
    exact .inr ⟨rfl, by simpa using hnone, rfl⟩

theorem mapTo_ends {va : ℕ} {leaf : Leaf} {t t' : PageTables} {ok : Bool}
    (h : (mapper.mapTo t va leaf).Ends (ok, t')) :
    (ok = false ∧ t'.leaf = t.leaf) ∨
      (ok = true ∧ t.leaf va = none ∧ t'.leaf = Function.update t.leaf va (some leaf)) := by
  simp only [mapper] at h
  rcases descend_ends h with ⟨rfl, rfl⟩ | ⟨t₁, h₁, h⟩
  · exact .inl ⟨rfl, rfl⟩
  rcases descend_ends h with ⟨rfl, rfl⟩ | ⟨t₂, h₂, h⟩
  · exact .inl ⟨rfl, h₁⟩
  rcases descend_ends h with ⟨rfl, rfl⟩ | ⟨t₃, h₃, h⟩
  · exact .inl ⟨rfl, h₂.trans h₁⟩
  have hleaf : t₃.leaf = t.leaf := h₃.trans (h₂.trans h₁)
  rcases place_ends h with ⟨rfl, rfl⟩ | ⟨rfl, hnone, hset⟩
  · exact .inl ⟨rfl, hleaf⟩
  · rw [hleaf] at hnone hset
    exact .inr ⟨rfl, hnone, hset⟩

theorem mapper_lawful : mapper.Lawful leaf where
  empty := fun _ => rfl
  map_ok := by
    intro t t' va leaf h
    rcases mapTo_ends h with ⟨hf, -⟩ | ⟨-, hspec⟩
    · cases hf
    · exact hspec
  map_err := by
    intro t t' va leaf h
    rcases mapTo_ends h with ⟨-, hsame⟩ | ⟨ht, -⟩
    · exact hsame
    · cases ht

end PageTables

end CoeleoOs.Task
