import Mathlib.Data.List.Basic

/-!
# Visited places

A list of places in the order of the visits, and the position of the one that is shown. A
visit forgets the places after it; going back and forward moves the position only. The place
that is shown may be remembered anew before it is left.
-/

namespace CoeleoOs.Lib

structure Visits (α : Type*) where
  places : List α
  pos : ℕ

namespace Visits

variable {α : Type*} {v : Visits α} {a b : α}

def Inside (v : Visits α) : Prop := v.pos < v.places.length

def here (v : Visits α) : Option α := v.places[v.pos]?

def remember (v : Visits α) (a : α) : Visits α := { v with places := v.places.set v.pos a }

def visit (v : Visits α) (a : α) : Visits α :=
  ⟨v.places.take (v.pos + 1) ++ [a], (v.places.take (v.pos + 1)).length⟩

def back (v : Visits α) : Visits α := { v with pos := v.pos - 1 }

def forward (v : Visits α) : Visits α := { v with pos := v.pos + 1 }

theorem inside_remember : (v.remember a).Inside ↔ v.Inside := by
  simp only [Inside, remember, List.length_set]

theorem visit_inside : (v.visit a).Inside := by
  simp [Inside, visit]

theorem here_remember (h : v.Inside) : (v.remember a).here = some a := by
  simp only [here, remember, List.getElem?_set_self h]

theorem here_visit : (v.visit a).here = some a := by
  simp only [here, visit, List.getElem?_concat_length]

theorem visit_pos (h : v.Inside) : (v.visit a).pos = v.pos + 1 := by
  simp only [Inside] at h
  simp only [visit, List.length_take]
  omega

theorem remember_other {i : ℕ} (hi : i ≠ v.pos) : (v.remember a).places[i]? = v.places[i]? := by
  simp only [remember, List.getElem?_set_ne hi.symm]

theorem visit_before {i : ℕ} (hi : i ≤ v.pos) (h : v.Inside) :
    (v.visit a).places[i]? = v.places[i]? := by
  have hlen : i < (v.places.take (v.pos + 1)).length := by
    simp only [Inside] at h
    simp only [List.length_take]
    omega
  simp only [visit, List.getElem?_append_left hlen, List.getElem?_take_of_lt (Nat.lt_succ_of_le hi)]

theorem mem_remember (h : b ∈ (v.remember a).places) : b ∈ v.places ∨ b = a :=
  List.mem_or_eq_of_mem_set h

theorem mem_visit (h : b ∈ (v.visit a).places) : b ∈ v.places ∨ b = a := by
  rcases List.mem_append.mp h with h | h
  · exact .inl (List.mem_of_mem_take h)
  · exact .inr (List.mem_singleton.mp h)

end Visits

end CoeleoOs.Lib
