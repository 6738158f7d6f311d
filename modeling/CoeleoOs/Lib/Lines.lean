import Mathlib.Data.List.Basic
import Mathlib.Data.List.TakeWhile

/-!
# Lines

A text is cut into lines behind each separator; what is left behind the last one counts as a
line. The first lines and the rest of a text can be taken piece by piece.
-/

namespace CoeleoOs.Lib.Lines

variable {α : Type*} [DecidableEq α] {sep : α}

/-- The lines of a text, each with its separator. -/
def lines (sep : α) : List α → List (List α)
  | [] => []
  | x :: xs =>
    if x = sep then [x] :: lines sep xs
    else
      match lines sep xs with
      | [] => [[x]]
      | l :: ls => (x :: l) :: ls

def firstLines (sep : α) : ℕ → List α → List α
  | 0, _ => []
  | _ + 1, [] => []
  | n + 1, x :: xs => if x = sep then x :: firstLines sep n xs else x :: firstLines sep (n + 1) xs

def restLines (sep : α) : ℕ → List α → List α
  | 0, xs => xs
  | _ + 1, [] => []
  | n + 1, x :: xs => if x = sep then restLines sep n xs else restLines sep (n + 1) xs

theorem lines_sep (xs : List α) : lines sep (sep :: xs) = [sep] :: lines sep xs := by
  rw [lines, if_pos rfl]

theorem lines_eq_nil {xs : List α} (h : lines sep xs = []) : xs = [] := by
  cases xs with
  | nil => rfl
  | cons x xs =>
    rw [lines] at h
    split at h
    · cases h
    · split at h <;> cases h

theorem lines_cons {x : α} (hx : x ≠ sep) (xs : List α) : (xs = [] ∧ lines sep (x :: xs) = [[x]]) ∨
    ∃ l ls, lines sep xs = l :: ls ∧ lines sep (x :: xs) = (x :: l) :: ls := by
  cases hls : lines sep xs with
  | nil =>
    obtain rfl := lines_eq_nil hls
    exact .inl ⟨rfl, by rw [lines, if_neg hx, lines]⟩
  | cons l ls => exact .inr ⟨l, ls, rfl, by rw [lines, if_neg hx, hls]⟩

theorem flatten_lines (xs : List α) : (lines sep xs).flatten = xs := by
  induction xs with
  | nil => rfl
  | cons x xs ih =>
    by_cases hx : x = sep
    · rw [hx, lines_sep, List.flatten_cons, ih]
      rfl
    · rcases lines_cons hx xs with ⟨rfl, h⟩ | ⟨l, ls, hls, h⟩
      · rw [h, List.flatten_singleton]
      · rw [hls, List.flatten_cons] at ih
        rw [h, List.flatten_cons, List.cons_append, ih]

theorem firstLines_eq (n : ℕ) (xs : List α) :
    firstLines sep n xs = ((lines sep xs).take n).flatten := by
  induction xs generalizing n with
  | nil => cases n <;> rfl
  | cons x xs ih =>
    cases n with
    | zero => rfl
    | succ n =>
      rw [firstLines]
      by_cases hx : x = sep
      · rw [if_pos hx, hx, lines_sep, ih]
        rfl
      · rw [if_neg hx, ih]
        rcases lines_cons hx xs with ⟨rfl, -⟩ | ⟨l, ls, hls, h⟩
        · simp [lines]
        · simp [h, hls]

theorem restLines_eq (n : ℕ) (xs : List α) :
    restLines sep n xs = ((lines sep xs).drop n).flatten := by
  induction xs generalizing n with
  | nil => cases n <;> rfl
  | cons x xs ih =>
    cases n with
    | zero => exact (flatten_lines _).symm
    | succ n =>
      rw [restLines]
      by_cases hx : x = sep
      · rw [if_pos hx, hx, lines_sep, ih]
        rfl
      · rw [if_neg hx, ih]
        rcases lines_cons hx xs with ⟨rfl, -⟩ | ⟨l, ls, hls, h⟩
        · simp [lines]
        · simp [h, hls]

theorem firstLines_append (n : ℕ) (xs ys : List α) :
    firstLines sep n (xs ++ ys) = firstLines sep n xs ++ firstLines sep (n - xs.count sep) ys := by
  induction xs generalizing n with
  | nil => cases n <;> simp [firstLines]
  | cons x xs ih =>
    cases n with
    | zero => simp [firstLines]
    | succ n =>
      rw [List.cons_append, firstLines, firstLines]
      by_cases hx : x = sep
      · simp [hx, ih]
      · simp [hx, ih]

theorem restLines_append (n : ℕ) (xs ys : List α) :
    restLines sep n (xs ++ ys) = restLines sep n xs ++ restLines sep (n - xs.count sep) ys := by
  induction xs generalizing n with
  | nil => cases n <;> simp [restLines]
  | cons x xs ih =>
    cases n with
    | zero => simp [restLines]
    | succ n =>
      rw [List.cons_append, restLines, restLines]
      by_cases hx : x = sep
      · simp [hx, ih]
      · simp [hx, ih]

theorem length_lines (xs : List α) :
    (lines sep xs).length = xs.count sep + if xs = [] ∨ xs.getLast? = some sep then 0 else 1 := by
  induction xs with
  | nil => rfl
  | cons x xs ih =>
    by_cases hx : x = sep
    · subst hx
      rw [lines_sep, List.length_cons, ih, List.count_cons_self]
      cases xs with
      | nil => simp
      | cons y ys => simp [Nat.add_right_comm]
    · rw [List.count_cons_of_ne hx]
      rcases lines_cons hx xs with ⟨rfl, h⟩ | ⟨l, ls, hls, h⟩
      · simp [h, hx]
      · cases xs with
        | nil => cases hls
        | cons y ys =>
          rw [hls] at ih
          rw [h]
          simpa using ih

theorem lines_ne_nil (xs : List α) : ∀ l ∈ lines sep xs, l ≠ [] := by
  induction xs with
  | nil => exact nofun
  | cons x xs ih =>
    by_cases hx : x = sep
    · rw [hx, lines_sep, List.forall_mem_cons]
      exact ⟨List.cons_ne_nil _ _, ih⟩
    · rcases lines_cons hx xs with ⟨-, h⟩ | ⟨l, ls, hls, h⟩
      · rw [h, List.forall_mem_singleton]
        exact List.cons_ne_nil _ _
      · rw [hls, List.forall_mem_cons] at ih
        rw [h, List.forall_mem_cons]
        exact ⟨List.cons_ne_nil _ _, ih.2⟩

theorem lines_of_not_mem {p : List α} (hp : sep ∉ p) (hne : p ≠ []) : lines sep p = [p] := by
  induction p with
  | nil => exact absurd rfl hne
  | cons x p ih =>
    rw [List.mem_cons, not_or] at hp
    rcases lines_cons (Ne.symm hp.1) p with ⟨rfl, h⟩ | ⟨l, ls, hls, h⟩
    · exact h
    · cases p with
      | nil => cases hls
      | cons y p =>
        obtain ⟨rfl, rfl⟩ := List.cons_eq_cons.mp ((ih hp.2 (List.cons_ne_nil y p)).symm.trans hls)
        exact h

theorem lines_append_sep {p : List α} (hp : sep ∉ p) (xs : List α) :
    lines sep (p ++ sep :: xs) = (p ++ [sep]) :: lines sep xs := by
  induction p with
  | nil => exact lines_sep xs
  | cons x p ih =>
    rw [List.mem_cons, not_or] at hp
    rcases lines_cons (Ne.symm hp.1) (p ++ sep :: xs) with ⟨hnil, -⟩ | ⟨l, ls, hls, h⟩
    · exact absurd hnil (List.append_ne_nil_of_right_ne_nil _ (List.cons_ne_nil _ _))
    · obtain ⟨rfl, rfl⟩ := List.cons_eq_cons.mp ((ih hp.2).symm.trans hls)
      exact h

theorem lines_flatten {ls : List (List α)} (h : ∀ l ∈ ls, ∃ p, l = p ++ [sep] ∧ sep ∉ p) :
    lines sep ls.flatten = ls := by
  induction ls with
  | nil => rfl
  | cons l ls ih =>
    rw [List.forall_mem_cons] at h
    obtain ⟨⟨p, rfl, hp⟩, hrest⟩ := h
    rw [List.flatten_cons, List.append_assoc, List.singleton_append, lines_append_sep hp, ih hrest]

def contents (sep : α) (xs : List α) : List (List α) :=
  (lines sep xs).map fun l => l.takeWhile fun x => x ≠ sep

theorem takeWhile_of_not_mem {p : List α} (hp : sep ∉ p) (xs : List α) :
    (p ++ sep :: xs).takeWhile (fun x => x ≠ sep) = p ∧ p.takeWhile (fun x => x ≠ sep) = p := by
  have hall : ∀ x ∈ p, decide (x ≠ sep) = true := fun x hx => decide_eq_true fun h => hp (h ▸ hx)
  refine ⟨?_, List.takeWhile_eq_self_iff.mpr hall⟩
  rw [List.takeWhile_append_of_pos hall, List.takeWhile_cons_of_neg (by simp), List.append_nil]

theorem contents_append_sep {p : List α} (hp : sep ∉ p) (xs : List α) :
    contents sep (p ++ sep :: xs) = p :: contents sep xs := by
  rw [contents, lines_append_sep hp, List.map_cons, (takeWhile_of_not_mem hp []).1]
  rfl

theorem contents_of_not_mem {p : List α} (hp : sep ∉ p) (hne : p ≠ []) : contents sep p = [p] := by
  rw [contents, lines_of_not_mem hp hne, List.map_singleton, (takeWhile_of_not_mem hp []).2]

theorem not_mem_contents {xs l : List α} (h : l ∈ contents sep xs) : sep ∉ l := by
  obtain ⟨m, -, rfl⟩ := List.mem_map.mp h
  intro hmem
  have hsep := List.mem_takeWhile_imp hmem
  exact of_decide_eq_true hsep rfl

end CoeleoOs.Lib.Lines
