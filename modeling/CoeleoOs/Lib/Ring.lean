import Mathlib.Data.List.Basic
import Mathlib.Data.Nat.ModEq
import Mathlib.Logic.Function.Basic

/-!
# Circular buffers

A buffer of `c` cells holds `len` elements from index `head` on, indices taken
modulo `c`. `contents` reads them in order; a consumer advances `head`, and a
producer stores behind the last element. Within capacity the buffer is a queue.
-/

namespace CoeleoOs.Lib.Ring

variable {α : Type*} {c : ℕ} [NeZero c]

def cell (c : ℕ) [NeZero c] (i : ℕ) : Fin c := ⟨i % c, Nat.mod_lt i (Nat.pos_of_neZero c)⟩

def contents (buf : Fin c → α) (head len : ℕ) : List α :=
  (List.range len).map fun i => buf (cell c (head + i))

def store (buf : Fin c → α) (tail : ℕ) : List α → Fin c → α
  | [] => buf
  | x :: xs => store (Function.update buf (cell c tail) x) (tail + 1) xs

theorem cell_mod (a b : ℕ) : cell c (a % c + b) = cell c (a + b) := by
  simp [cell]

theorem cell_ne {head i k : ℕ} (hik : i < k) (hk : k < c) :
    cell c (head + i) ≠ cell c (head + k) := by
  intro he
  have hm : (head + i) ≡ (head + k) [MOD c] := congrArg Fin.val he
  have hc := Nat.ModEq.add_left_cancel' head hm
  rw [Nat.ModEq, Nat.mod_eq_of_lt (by omega), Nat.mod_eq_of_lt hk] at hc
  omega

theorem contents_length (buf : Fin c → α) (head len : ℕ) :
    (contents buf head len).length = len := by
  simp [contents]

theorem contents_mod (buf : Fin c → α) (head len : ℕ) :
    contents buf (head % c) len = contents buf head len := by
  simp only [contents, cell_mod]

theorem contents_add (buf : Fin c → α) (head m n : ℕ) :
    contents buf head (m + n) = contents buf head m ++ contents buf (head + m) n := by
  simp only [contents, List.range_add, List.map_append, List.map_map, Function.comp_def,
    Nat.add_assoc]

theorem store_mod (buf : Fin c → α) (tail : ℕ) (xs : List α) :
    store buf (tail % c) xs = store buf tail xs := by
  induction xs generalizing buf tail with
  | nil => rfl
  | cons x xs ih =>
    have hcell : cell c (tail % c) = cell c tail := by simpa using cell_mod tail 0
    simp only [store, hcell]
    rw [← ih _ (tail % c + 1), ← ih _ (tail + 1)]
    congr 1
    simp

theorem contents_store_before (buf : Fin c → α) (head k : ℕ) (xs : List α)
    (h : k + xs.length ≤ c) :
    contents (store buf (head + k) xs) head k = contents buf head k := by
  induction xs generalizing buf k with
  | nil => rfl
  | cons x xs ih =>
    rw [List.length_cons] at h
    have hnext : contents (store (Function.update buf (cell c (head + k)) x)
        (head + (k + 1)) xs) head (k + 1) =
        contents (Function.update buf (cell c (head + k)) x) head (k + 1) :=
      ih _ (k + 1) (by omega)
    have hfirst := congrArg (List.take k) hnext
    rw [contents_add, contents_add, List.take_left' (contents_length _ _ _),
      List.take_left' (contents_length _ _ _)] at hfirst
    rw [store, Nat.add_assoc, hfirst]
    apply List.map_congr_left
    intro i hi
    exact Function.update_of_ne (cell_ne (List.mem_range.mp hi) (by omega)) _ _

theorem contents_store_new (buf : Fin c → α) (head k : ℕ) (xs : List α)
    (h : k + xs.length ≤ c) :
    contents (store buf (head + k) xs) (head + k) xs.length = xs := by
  induction xs generalizing buf k with
  | nil => rfl
  | cons x xs ih =>
    rw [List.length_cons] at h
    have hrest := ih (Function.update buf (cell c (head + k)) x) (k + 1) (by omega)
    have hkept := contents_store_before (Function.update buf (cell c (head + k)) x)
      head (k + 1) xs (by omega)
    have hcell := congrArg List.getLast? hkept
    rw [contents_add, contents_add] at hcell
    simp only [contents, List.range_one, List.map_cons, List.map_nil, Nat.add_zero,
      List.getLast?_append, List.getLast?_singleton, Option.some_or, Option.some.injEq,
      Function.update_self] at hcell
    rw [store, List.length_cons, Nat.add_comm xs.length 1, contents_add, Nat.add_assoc, hrest]
    simp [contents, hcell]

theorem contents_store (buf : Fin c → α) (head len : ℕ) (xs : List α)
    (h : len + xs.length ≤ c) :
    contents (store buf (head + len) xs) head (len + xs.length) = contents buf head len ++ xs := by
  rw [contents_add, contents_store_before buf head len xs h, contents_store_new buf head len xs h]

end CoeleoOs.Lib.Ring
