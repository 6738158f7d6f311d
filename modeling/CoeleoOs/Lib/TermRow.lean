import CoeleoOs.Lib.InPlace
import Mathlib.Order.Nat

/-!
# A row of a terminal

A row of cells without an end and a cursor on it. A visible byte overwrites the cell under the
cursor, which moves on; a backspace moves it back, a carriage return to the start. `ESC [ 2 J`
clears the row, `ESC [ H` goes to its start, and `ESC [ K` clears from the cursor on. A newline
begins a new row. Other sequences leave the row as it is.
-/

namespace CoeleoOs.Lib.TermRow
open CoeleoOs.Lib.InPlace CoeleoOs.Lib.FileStore

inductive Mode
  | ground
  | esc
  | csi (params : List UInt8)
  deriving DecidableEq

structure Term where
  cell : ℕ → UInt8
  col : ℕ
  mode : Mode

def blank : UInt8 := 0x20

def printable (b : UInt8) : Bool := 0x20 ≤ b ∧ b ≠ 0x7F

def cells (s : List UInt8) : ℕ → UInt8 := fun i => s[i]?.getD blank

namespace Term

variable (t : Term)

def final (params : List UInt8) (b : UInt8) : Term :=
  if b = 0x4A ∧ params = [0x32] then { t with cell := cells [] }
  else if b = 0x48 ∧ params = [] then { t with col := 0 }
  else if b = 0x4B ∧ params = []
    then { t with cell := fun i => if i < t.col then t.cell i else blank }
  else t

def put (b : UInt8) : Term :=
  match t.mode with
  | .esc => { t with mode := if b = 0x5B then .csi [] else .ground }
  | .csi params =>
    if 0x40 ≤ b ∧ b ≤ 0x7E then { t.final params b with mode := .ground }
      else { t with mode := .csi (params ++ [b]) }
  | .ground =>
    if b = 0x1B then { t with mode := .esc }
    else if b = 0x08 then { t with col := t.col - 1 }
    else if b = 0x0D then { t with col := 0 }
    else if b = 0x0A then ⟨cells [], 0, .ground⟩
    else if printable b then ⟨Function.update t.cell t.col b, t.col + 1, .ground⟩
    else t

def feed (bs : List UInt8) : Term := bs.foldl put t

end Term

def showing (s : List UInt8) (k : ℕ) : Term := ⟨cells s, k, .ground⟩

def Visible (xs : List UInt8) : Prop := ∀ b ∈ xs, printable b = true

instance (xs : List UInt8) : Decidable (Visible xs) := List.decidableBAll (printable · = true) xs

def Whole (xs : List UInt8) : Prop := ∀ t : Term, t.mode = .ground → (t.feed xs).mode = .ground

variable {t : Term} {s xs ys : List UInt8} {b : UInt8} {i j k : ℕ}

section Text

theorem Visible.append (hx : Visible xs) (hy : Visible ys) : Visible (xs ++ ys) :=
  List.forall_mem_append.mpr ⟨hx, hy⟩

theorem Visible.sub (hx : Visible xs) (h : ys ⊆ xs) : Visible ys := fun b hb => hx b (h hb)

theorem Visible.take (hx : Visible xs) (i : ℕ) : Visible (xs.take i) :=
  hx.sub (List.take_subset i xs)

theorem Visible.drop (hx : Visible xs) (i : ℕ) : Visible (xs.drop i) :=
  hx.sub (List.drop_subset i xs)

theorem visible_blanks (k : ℕ) : Visible (List.replicate k blank) := fun b hb => by
  rw [List.eq_of_mem_replicate hb]
  rfl

theorem cells_blanks (s : List UInt8) (k : ℕ) : cells (s ++ List.replicate k blank) = cells s := by
  funext i
  rw [cells, cells]
  by_cases hi : i < s.length
  · rw [List.getElem?_append_left hi]
  · rw [List.getElem?_append_right (Nat.le_of_not_lt hi),
      List.getElem?_eq_none (Nat.le_of_not_lt hi), List.getElem?_replicate]
    split
    · rfl
    · rfl

theorem update_cells (hk : k ≤ s.length) (b : UInt8) :
    Function.update (cells s) k b = cells (overwrite s k [b]) := by
  have hlen : (s.take k).length = k := by
    rw [List.length_take, Nat.min_eq_left hk]
  funext i
  rw [cells, overwrite, List.append_assoc, List.singleton_append, List.length_singleton]
  rcases Nat.lt_trichotomy i k with hi | rfl | hi
  · rw [Function.update_of_ne hi.ne, List.getElem?_append_left (hlen.symm ▸ hi),
      List.getElem?_take_of_lt hi, cells]
  · rw [Function.update_self, List.getElem?_append_right hlen.le, hlen, Nat.sub_self]
    rfl
  · have hnext : i - k = i - (k + 1) + 1 := by omega
    have hback : k + 1 + (i - (k + 1)) = i := by omega
    rw [Function.update_of_ne hi.ne', List.getElem?_append_right (hlen.trans_le hi.le), hlen, hnext,
      List.getElem?_cons_succ, List.getElem?_drop, hback, cells]

end Text

section Feed

theorem feed_append (t : Term) (xs ys : List UInt8) : t.feed (xs ++ ys) = (t.feed xs).feed ys :=
  List.foldl_append

theorem feed_cons (t : Term) (b : UInt8) (xs : List UInt8) : t.feed (b :: xs) = (t.put b).feed xs :=
  rfl

theorem put_visible (ht : t.mode = .ground) (hb : printable b = true) :
    t.put b = ⟨Function.update t.cell t.col b, t.col + 1, .ground⟩ := by
  have hne : ∀ c, printable c = false → b ≠ c := by
    rintro c hc rfl
    rw [hb] at hc
    cases hc
  rw [Term.put, ht]
  dsimp only
  rw [if_neg (hne 0x1B rfl), if_neg (hne 0x08 rfl), if_neg (hne 0x0D rfl),
    if_neg (hne 0x0A rfl), if_pos hb]

theorem showing_blanks (s : List UInt8) (i k : ℕ) :
    showing (s ++ List.replicate k blank) i = showing s i := by
  rw [showing, showing, cells_blanks]

theorem feed_visible (hk : k ≤ s.length) (hx : Visible xs) :
    (showing s k).feed xs = showing (overwrite s k xs) (k + xs.length) := by
  induction xs generalizing s k with
  | nil =>
    rw [overwrite, List.append_nil, List.length_nil, Nat.add_zero, List.take_append_drop]
    rfl
  | cons b xs ih =>
    have hlen : k + 1 ≤ (overwrite s k [b]).length := by
      rw [overwrite, List.length_append, List.length_append, List.length_take,
        List.length_singleton, Nat.min_eq_left hk]
      exact Nat.le_add_right _ _
    have hjoin : overwrite (overwrite s k [b]) (k + 1) xs = overwrite s k ([b] ++ xs) :=
      overwrite_append hk
    have hput : (showing s k).put b = showing (overwrite s k [b]) (k + 1) := by
      rw [put_visible rfl (hx b List.mem_cons_self), showing, update_cells hk]
      rfl
    rw [feed_cons, hput, ih hlen fun c hc => hx c (List.mem_cons_of_mem b hc), hjoin,
      List.length_cons]
    congr 1
    omega

theorem feed_backs (s : List UInt8) (k j : ℕ) :
    (showing s (k + j)).feed (List.replicate j 0x08) = showing s k := by
  induction j with
  | zero => rfl
  | succ j ih => exact ih

theorem feed_erase (n : ℕ) (hs : s.length = k + n) :
    (showing s (k + n)).feed (List.replicate n [0x08, blank, 0x08]).flatten =
      showing (s.take k) k := by
  induction n generalizing s with
  | zero =>
    have hlen : s.length ≤ k := hs.le
    rw [List.take_of_length_le hlen]
    rfl
  | succ n ih =>
    have hback : (showing s (k + (n + 1))).put 0x08 = showing s (k + n) := rfl
    have hcut : overwrite s (k + n) [blank] = s.take (k + n) ++ List.replicate 1 blank := by
      rw [overwrite, List.drop_of_length_le (by rw [List.length_singleton]; omega), List.append_nil]
      rfl
    have hwrite := feed_visible (show k + n ≤ s.length by omega) (visible_blanks 1)
    rw [List.replicate_one, hcut, showing_blanks] at hwrite
    have hrest := ih (s := s.take (k + n)) (by rw [List.length_take]; omega)
    rw [List.take_take, Nat.min_eq_left (Nat.le_add_right k n)] at hrest
    rw [List.replicate_succ, List.flatten_cons, feed_append, feed_cons, hback, feed_cons, ← hrest]
    exact congrArg (fun t => ((t.put 0x08).feed (List.replicate n [0x08, blank, 0x08]).flatten))
      hwrite

theorem feed_clearHome (ht : t.mode = .ground) :
    t.feed [0x1B, 0x5B, 0x32, 0x4A, 0x1B, 0x5B, 0x48] = showing [] 0 := by
  obtain ⟨cell, col, mode⟩ := t
  obtain rfl : mode = .ground := ht
  rfl

theorem put_newline (ht : t.mode = .ground) : t.put 0x0A = showing [] 0 := by
  obtain ⟨cell, col, mode⟩ := t
  obtain rfl : mode = .ground := ht
  rfl

theorem feed_eraseLine (ht : t.mode = .ground) :
    t.feed [0x0D, 0x1B, 0x5B, 0x4B] = showing [] 0 := by
  obtain ⟨cell, col, mode⟩ := t
  obtain rfl : mode = .ground := ht
  have hcell : (fun i => if i < 0 then cell i else blank) = cells [] := by
    funext i
    exact if_neg (Nat.not_lt_zero i)
  exact congrArg (Term.mk · 0 .ground) hcell

theorem Whole.append (hx : Whole xs) (hy : Whole ys) : Whole (xs ++ ys) := fun t ht => by
  rw [feed_append]
  exact hy _ (hx t ht)

theorem whole_nil : Whole [] := fun _ ht => ht

theorem Visible.whole (hx : Visible xs) : Whole xs := by
  induction xs with
  | nil => exact whole_nil
  | cons b xs ih =>
    intro t ht
    rw [feed_cons, put_visible ht (hx b List.mem_cons_self)]
    exact ih (fun c hc => hx c (List.mem_cons_of_mem b hc)) _ rfl

theorem whole_intercalate {xss : List (List UInt8)} (hys : Whole ys) (hx : ∀ xs ∈ xss, Whole xs) :
    Whole (ys.intercalate xss) := by
  induction xss with
  | nil => exact whole_nil
  | cons xs xss ih =>
    rw [List.forall_mem_cons] at hx
    cases xss with
    | nil =>
      rw [List.intercalate_singleton]
      exact hx.1
    | cons xs' xss =>
      rw [List.intercalate_cons_cons]
      exact (hx.1.append hys).append (ih hx.2)

end Feed

end CoeleoOs.Lib.TermRow
