import Mathlib.Data.List.Basic

/-!
# Stores of named files

A name leads to a file or to none, several names may lead to one file, and a file holds a
list. A change is confined to a name when every file that the name does not lead to keeps
its names and what it holds, and every new name leads where this one does.
-/

namespace CoeleoOs.Lib

structure FileStore (ν ι α : Type*) where
  node : ν → Option ι
  data : ι → List α

namespace FileStore

variable {ν ι α : Type*} {s t u : FileStore ν ι α} {p q : ν} {i j : ι} {b : List α}

def empty : FileStore ν ι α := ⟨fun _ => none, fun _ => []⟩

def content (s : FileStore ν ι α) (p : ν) : Option (List α) := (s.node p).map s.data

def SameFile (s : FileStore ν ι α) (p q : ν) : Prop := ∃ i, s.node p = some i ∧ s.node q = some i

structure Confined (p : ν) (s t : FileStore ν ι α) : Prop where
  other : ∀ {q j}, s.node q = some j → s.node p ≠ some j → t.node q = some j ∧ t.data j = s.data j
  names : ∀ {q}, s.node q = s.node p ∨ s.node q = none → t.node q = t.node p ∨ t.node q = none
  fresh : ∀ {j}, t.node p = some j → s.node p = some j ∨ ∀ q, s.node q ≠ some j

/-- Only what one file holds may change. -/
structure Writes (i : ι) (s t : FileStore ν ι α) : Prop where
  node : t.node = s.node
  data : ∀ {j}, j ≠ i → t.data j = s.data j

theorem content_eq_some : s.content p = some b ↔ ∃ i, s.node p = some i ∧ s.data i = b :=
  Option.map_eq_some_iff

theorem content_of_node (h : s.node p = some i) : s.content p = some (s.data i) := by
  rw [content, h]
  rfl

theorem SameFile.symm (h : SameFile s p q) : SameFile s q p := by
  obtain ⟨i, hp, hq⟩ := h
  exact ⟨i, hq, hp⟩

theorem SameFile.content_eq (h : SameFile s p q) : s.content p = s.content q := by
  obtain ⟨i, hp, hq⟩ := h
  rw [content_of_node hp, content_of_node hq]

theorem Writes.refl (i : ι) (s : FileStore ν ι α) : Writes i s s := ⟨rfl, fun _ => rfl⟩

theorem Writes.trans (h : Writes i s t) (h' : Writes i t u) : Writes i s u :=
  ⟨h'.node.trans h.node, fun hj => (h'.data hj).trans (h.data hj)⟩

theorem Writes.confined (h : Writes i s t) (hp : s.node p = some i) : Confined p s t where
  other := by
    intro q j hq hne
    refine ⟨(congrFun h.node q).trans hq, h.data ?_⟩
    rintro rfl
    exact hne hp
  names := by
    intro q hq
    rw [h.node]
    exact hq
  fresh := by
    intro j hj
    rw [h.node] at hj
    exact .inl hj

theorem Confined.refl (p : ν) (s : FileStore ν ι α) : Confined p s s :=
  ⟨fun h _ => ⟨h, rfl⟩, id, .inl⟩

theorem Confined.trans (h : Confined p s t) (h' : Confined p t u) : Confined p s u where
  other := by
    intro q j hq hne
    obtain ⟨ht, hd⟩ := h.other hq hne
    have hne' : t.node p ≠ some j := by
      intro hp
      rcases h.fresh hp with hold | hnew
      · exact hne hold
      · exact hnew q hq
    obtain ⟨hu, hd'⟩ := h'.other ht hne'
    exact ⟨hu, hd'.trans hd⟩
  names hq := h'.names (h.names hq)
  fresh := by
    intro j hj
    rcases h'.fresh hj with hmid | hnew
    · exact h.fresh hmid
    · by_cases hold : s.node p = some j
      · exact .inl hold
      · exact .inr fun q hq => hnew q (h.other hq hold).1

theorem Confined.content_other (h : Confined p s t) (hne : ¬SameFile s q p)
    (hq : s.content q = some b) : t.content q = some b := by
  obtain ⟨j, hj, rfl⟩ := content_eq_some.mp hq
  obtain ⟨ht, hd⟩ := h.other hj fun hp => hne ⟨j, hj, hp⟩
  rw [content_of_node ht, hd]

theorem Confined.not_same (h : Confined p s t) (hq : s.node q = some j) (hne : ¬SameFile s q p) :
    ¬SameFile t q p := by
  have hp : s.node p ≠ some j := fun hp => hne ⟨j, hq, hp⟩
  rintro ⟨k, hk, hpk⟩
  obtain rfl := Option.some.inj ((h.other hq hp).1.symm.trans hk)
  rcases h.fresh hpk with hold | hnew
  · exact hp hold
  · exact hnew q hq

end FileStore

def overwrite {α : Type*} (d : List α) (off : ℕ) (src : List α) : List α :=
  d.take off ++ src ++ d.drop (off + src.length)

theorem overwrite_length {α : Type*} (d src : List α) : overwrite d d.length src = d ++ src := by
  rw [overwrite, List.take_length, List.drop_of_length_le (Nat.le_add_right _ _), List.append_nil]

theorem overwrite_nil {α : Type*} (d : List α) (off : ℕ) : overwrite d off [] = d := by
  rw [overwrite, List.append_nil, List.length_nil, Nat.add_zero, List.take_append_drop]

end CoeleoOs.Lib
