import Mathlib.Order.MinMax

/-!
# Rectangles of pixels

Half-open rectangles as the compositor has them. A rectangle may be turned inside out, and is then
empty like one without width or height. Taking a hole out of one leaves up to four.
-/

namespace CoeleoOs.Ui

structure Rect where
  x0 : ℕ
  y0 : ℕ
  x1 : ℕ
  y1 : ℕ
  deriving DecidableEq

namespace Rect

def empty : Rect := ⟨0, 0, 0, 0⟩

def IsEmpty (r : Rect) : Prop := r.x1 ≤ r.x0 ∨ r.y1 ≤ r.y0

instance (r : Rect) : Decidable r.IsEmpty := inferInstanceAs (Decidable (_ ∨ _))

def intersect (a b : Rect) : Rect := ⟨max a.x0 b.x0, max a.y0 b.y0, min a.x1 b.x1, min a.y1 b.y1⟩

def union (a b : Rect) : Rect :=
  if a.IsEmpty then b
  else if b.IsEmpty then a
  else ⟨min a.x0 b.x0, min a.y0 b.y0, max a.x1 b.x1, max a.y1 b.y1⟩

def Intersects (a b : Rect) : Prop := ¬ (a.intersect b).IsEmpty

instance (a b : Rect) : Decidable (a.Intersects b) := inferInstanceAs (Decidable (¬ _))

def Contains (r : Rect) (x y : ℕ) : Prop := r.x0 ≤ x ∧ x < r.x1 ∧ r.y0 ≤ y ∧ y < r.y1

instance (r : Rect) (x y : ℕ) : Decidable (r.Contains x y) := inferInstanceAs (Decidable (_ ∧ _))

/-- What a hole leaves of a rectangle: strips above, below, to the left and to the right of it. -/
def sub (a hole : Rect) : List Rect :=
  let i := a.intersect hole
  if i.IsEmpty then [a]
  else
    (if a.y0 < i.y0 then [⟨a.x0, a.y0, a.x1, i.y0⟩] else []) ++
      (if i.y1 < a.y1 then [⟨a.x0, i.y1, a.x1, a.y1⟩] else []) ++
        (if a.x0 < i.x0 then [⟨a.x0, i.y0, i.x0, i.y1⟩] else []) ++
          (if i.x1 < a.x1 then [⟨i.x1, i.y0, a.x1, i.y1⟩] else [])

/-- A rectangle that is not turned inside out lies within another. -/
structure Inside (a b : Rect) : Prop where
  left : b.x0 ≤ a.x0
  top : b.y0 ≤ a.y0
  right : a.x1 ≤ b.x1
  bottom : a.y1 ≤ b.y1

variable {a b c : Rect} {x y : ℕ}

theorem contains_intersect : (a.intersect b).Contains x y ↔ a.Contains x y ∧ b.Contains x y := by
  simp only [Contains, intersect]
  omega

theorem not_isEmpty_iff : ¬ a.IsEmpty ↔ ∃ x y, a.Contains x y := by
  simp only [IsEmpty, Contains]
  constructor
  · intro h
    exact ⟨a.x0, a.y0, by omega⟩
  · rintro ⟨x, y, h⟩
    omega

theorem intersects_iff : a.Intersects b ↔ ∃ x y, a.Contains x y ∧ b.Contains x y := by
  rw [Intersects, not_isEmpty_iff]
  simp only [contains_intersect]

theorem intersects_comm : a.Intersects b ↔ b.Intersects a := by
  simp only [intersects_iff, and_comm]

theorem Inside.refl (a : Rect) : Inside a a :=
  ⟨Nat.le_refl _, Nat.le_refl _, Nat.le_refl _, Nat.le_refl _⟩

theorem Inside.trans (h : Inside a b) (h' : Inside b c) : Inside a c :=
  ⟨h'.left.trans h.left, h'.top.trans h.top, h.right.trans h'.right, h.bottom.trans h'.bottom⟩

theorem Inside.contains (h : Inside a b) (hc : a.Contains x y) : b.Contains x y :=
  ⟨h.left.trans hc.1, hc.2.1.trans_le h.right, h.top.trans hc.2.2.1, hc.2.2.2.trans_le h.bottom⟩

theorem inside_union_left (ha : ¬ a.IsEmpty) : Inside a (a.union b) := by
  rw [union, if_neg ha]
  split
  · exact .refl a
  · exact ⟨min_le_left _ _, min_le_left _ _, le_max_left _ _, le_max_left _ _⟩

theorem inside_union_right (hb : ¬ b.IsEmpty) : Inside b (a.union b) := by
  rw [union, if_neg hb]
  split
  · exact .refl b
  · exact ⟨min_le_right _ _, min_le_right _ _, le_max_right _ _, le_max_right _ _⟩

theorem mem_strip {g : Prop} [Decidable g] {s r : Rect} :
    r ∈ (if g then [s] else []) ↔ g ∧ r = s := by
  by_cases h : g
  · rw [if_pos h, List.mem_singleton, and_iff_right h]
  · rw [if_neg h]
    exact ⟨fun hr => absurd hr List.not_mem_nil, fun hr => absurd hr.1 h⟩

theorem mem_sub (hi : ¬ (a.intersect b).IsEmpty) {r : Rect} : r ∈ a.sub b ↔
    (a.y0 < (a.intersect b).y0 ∧ r = ⟨a.x0, a.y0, a.x1, (a.intersect b).y0⟩) ∨
      ((a.intersect b).y1 < a.y1 ∧ r = ⟨a.x0, (a.intersect b).y1, a.x1, a.y1⟩) ∨
        (a.x0 < (a.intersect b).x0 ∧ r = ⟨a.x0, (a.intersect b).y0, (a.intersect b).x0,
          (a.intersect b).y1⟩) ∨ ((a.intersect b).x1 < a.x1 ∧
          r = ⟨(a.intersect b).x1, (a.intersect b).y0, a.x1, (a.intersect b).y1⟩) := by
  rw [sub, if_neg hi]
  simp only [List.mem_append, mem_strip, or_assoc]

theorem sub_covers : (∃ r ∈ a.sub b, r.Contains x y) ↔ a.Contains x y ∧ ¬ b.Contains x y := by
  by_cases hi : (a.intersect b).IsEmpty
  · rw [sub, if_pos hi]
    simp only [List.mem_singleton, exists_eq_left]
    refine ⟨fun ha => ⟨ha, fun hb => ?_⟩, And.left⟩
    exact not_isEmpty_iff.mpr ⟨x, y, contains_intersect.mpr ⟨ha, hb⟩⟩ hi
  · simp only [mem_sub hi, or_and_right, and_assoc, exists_or, exists_and_left, exists_eq_left]
    simp only [IsEmpty, intersect] at hi
    simp only [Contains, intersect]
    omega

theorem sub_inside {r : Rect} (hr : r ∈ a.sub b) : Inside r a := by
  by_cases hi : (a.intersect b).IsEmpty
  · rw [sub, if_pos hi, List.mem_singleton] at hr
    rw [hr]
    exact .refl a
  · rw [mem_sub hi] at hr
    simp only [IsEmpty, intersect] at hi hr
    rcases hr with ⟨h, rfl⟩ | ⟨h, rfl⟩ | ⟨h, rfl⟩ | ⟨h, rfl⟩ <;>
      exact ⟨by dsimp only; omega, by dsimp only; omega, by dsimp only; omega, by dsimp only; omega⟩

theorem union_inside (ha : Inside a c) (hb : Inside b c) : Inside (a.union b) c := by
  rw [union]
  split
  · exact hb
  split
  · exact ha
  · exact ⟨le_min ha.left hb.left, le_min ha.top hb.top, max_le ha.right hb.right,
      max_le ha.bottom hb.bottom⟩

theorem union_not_isEmpty (ha : ¬ a.IsEmpty) : ¬ (a.union b).IsEmpty := by
  rw [not_isEmpty_iff] at ha ⊢
  obtain ⟨x, y, h⟩ := ha
  exact ⟨x, y, (inside_union_left (not_isEmpty_iff.mpr ⟨x, y, h⟩)).contains h⟩

theorem intersect_inside_left (a b : Rect) : Inside (a.intersect b) a :=
  ⟨le_max_left _ _, le_max_left _ _, min_le_left _ _, min_le_left _ _⟩

theorem intersect_inside_right (a b : Rect) : Inside (a.intersect b) b :=
  ⟨le_max_right _ _, le_max_right _ _, min_le_right _ _, min_le_right _ _⟩

end Rect

end CoeleoOs.Ui
