import CoeleoOs.Lib.FileStore

/-!
# Copies within a buffer

The loops that move a part of a buffer cell by cell, with every access checked. Where the loop
runs away from the part that it still has to read, it moves the part as it was.
-/

namespace CoeleoOs.Lib.InPlace

variable {α : Type*} {b b' : List α} {dst src k : ℕ}

def copyCell (b : List α) (dst src : ℕ) : Option (List α) :=
  match b[src]? with
  | some x => if dst < b.length then some (b.set dst x) else none
  | none => none

def copyUp (b : List α) (dst src : ℕ) : ℕ → Option (List α)
  | 0 => some b
  | k + 1 => (copyCell b dst src).bind fun b => copyUp b (dst + 1) (src + 1) k

def copyDown (b : List α) (dst src : ℕ) : ℕ → Option (List α)
  | 0 => some b
  | k + 1 => (copyCell b (dst + k) (src + k)).bind fun b => copyDown b dst src k

def copyFrom (b : List α) (dst : ℕ) (xs : List α) : Option (List α) :=
  if dst + xs.length ≤ b.length then some (overwrite b dst xs) else none

def slice (b : List α) (i j : ℕ) : Option (List α) :=
  if i ≤ j ∧ j ≤ b.length then some ((b.take j).drop i) else none

def backWhile (p : α → Bool) (b : List α) : ℕ → Option ℕ
  | 0 => some 0
  | i + 1 =>
    match b[i]? with
    | some x => if p x then backWhile p b i else some (i + 1)
    | none => none

def foreWhile (p : α → Bool) (b : List α) : ℕ → ℕ → Option ℕ
  | 0, i => some i
  | k + 1, i =>
    match b[i]? with
    | some x => if p x then foreWhile p b k (i + 1) else some i
    | none => none

theorem overwrite_size (h : dst + k ≤ b.length) {xs : List α} (hxs : xs.length = k) :
    (overwrite b dst xs).length = b.length := by
  rw [overwrite, List.length_append, List.length_append, List.length_take, List.length_drop]
  omega

theorem copyCell_some (hs : src < b.length) (hd : dst < b.length) :
    copyCell b dst src = some (b.set dst b[src]) := by
  rw [copyCell, List.getElem?_eq_getElem hs]
  exact if_pos hd

theorem copyCell_length (h : copyCell b dst src = some b') : b'.length = b.length := by
  rw [copyCell] at h
  split at h
  · split at h
    · rw [← Option.some.inj h, List.length_set]
    · cases h
  · cases h

theorem copyUp_length (h : copyUp b dst src k = some b') : b'.length = b.length := by
  induction k generalizing b dst src with
  | zero => rw [← Option.some.inj h]
  | succ k ih =>
    obtain ⟨b₁, hcell, hrest⟩ := Option.bind_eq_some_iff.mp h
    rw [ih hrest, copyCell_length hcell]

theorem copyUp_eq (hd : dst ≤ src) (hs : src + k ≤ b.length) :
    copyUp b dst src k = some (overwrite b dst ((b.drop src).take k)) := by
  induction k generalizing b dst src with
  | zero => rw [copyUp, List.take_zero, overwrite_nil]
  | succ k ih =>
    have hlt : src < b.length := by omega
    have hfront : (b.set dst b[src]).take (dst + 1) = b.take dst ++ [b[src]] := by
      rw [List.take_succ_eq_append_getElem (by rw [List.length_set]; omega),
        List.take_set_of_le (Nat.le_refl _), List.getElem_set_self]
    have hread : (b.set dst b[src]).drop (src + 1) = b.drop (src + 1) :=
      List.drop_set_of_lt (by omega)
    have hback : (b.set dst b[src]).drop (dst + 1 + ((b.drop (src + 1)).take k).length) =
        b.drop (dst + 1 + ((b.drop (src + 1)).take k).length) := List.drop_set_of_lt (by omega)
    have hpart : (b.drop src).take (k + 1) = b[src] :: (b.drop (src + 1)).take k := by
      rw [List.drop_eq_getElem_cons hlt, List.take_succ_cons]
    rw [copyUp, copyCell_some hlt (by omega), Option.bind_some,
      ih (by omega) (by rw [List.length_set]; omega), overwrite, overwrite, hread, hfront, hback,
      hpart, List.length_cons, List.append_assoc (b.take dst), List.singleton_append]
    congr 3
    omega

theorem copyDown_eq (hd : src ≤ dst) (hs : dst + k ≤ b.length) :
    copyDown b dst src k = some (overwrite b dst ((b.drop src).take k)) := by
  induction k generalizing b with
  | zero => rw [copyDown, List.take_zero, overwrite_nil]
  | succ k ih =>
    have hlt : src + k < b.length := by omega
    have hread : ((b.set (dst + k) b[src + k]).drop src).take k = (b.drop src).take k := by
      rw [List.drop_set, if_neg (by omega), List.take_set_of_le (by omega)]
    have hfront : (b.set (dst + k) b[src + k]).take dst = b.take dst :=
      List.take_set_of_le (by omega)
    have hlen : ((b.drop src).take k).length = k := by
      rw [List.length_take, List.length_drop]
      omega
    have hback :
        (b.set (dst + k) b[src + k]).drop (dst + k) = b[src + k] :: b.drop (dst + k + 1) := by
      rw [List.drop_eq_getElem_cons (by rw [List.length_set]; omega), List.getElem_set_self,
        List.drop_set_of_lt (by omega)]
    have hpart : (b.drop src).take (k + 1) = (b.drop src).take k ++ [b[src + k]] := by
      rw [List.take_succ_eq_append_getElem (by rw [List.length_drop]; omega), List.getElem_drop]
    rw [copyDown, copyCell_some hlt (by omega), Option.bind_some,
      ih (by rw [List.length_set]; omega), overwrite, overwrite, hread, hfront, hlen, hback, hpart,
      List.length_append, hlen, List.length_singleton]
    simp [Nat.add_assoc]

theorem copyFrom_eq {xs : List α} (h : dst + xs.length ≤ b.length) :
    copyFrom b dst xs = some (overwrite b dst xs) :=
  if_pos h

theorem slice_eq {i j : ℕ} (hij : i ≤ j) (hj : j ≤ b.length) :
    slice b i j = some ((b.take j).drop i) :=
  if_pos ⟨hij, hj⟩

theorem take_overwrite {xs : List α} {m : ℕ} (hd : dst ≤ b.length) (hm : dst + xs.length = m) :
    (overwrite b dst xs).take m = b.take dst ++ xs := by
  rw [overwrite, List.take_left']
  rw [List.length_append, List.length_take, Nat.min_eq_left hd, hm]

theorem overwrite_take {xs : List α} {m : ℕ} (hm : dst + xs.length ≤ m) (hb : m ≤ b.length) :
    (overwrite b dst xs).take m = overwrite (b.take m) dst xs := by
  have hlen : (b.take dst ++ xs).length = dst + xs.length := by
    rw [List.length_append, List.length_take, Nat.min_eq_left (by omega)]
  rw [overwrite, overwrite, List.take_append, hlen, List.take_of_length_le (by omega),
    List.take_take, Nat.min_eq_left (by omega), List.drop_take]

theorem overwrite_append {xs ys : List α} (h : dst ≤ b.length) :
    overwrite (overwrite b dst xs) (dst + xs.length) ys = overwrite b dst (xs ++ ys) := by
  have hlen : (b.take dst ++ xs).length = dst + xs.length := by
    rw [List.length_append, List.length_take, Nat.min_eq_left h]
  have hoff : dst + xs.length + (dst + xs.length + ys.length - (dst + xs.length)) =
      dst + (xs.length + ys.length) := by omega
  rw [overwrite, take_overwrite h rfl, overwrite, overwrite, List.drop_append, hlen,
    List.drop_of_length_le (by omega), List.nil_append, List.drop_drop, hoff, List.length_append]
  simp only [List.append_assoc]

section While

variable {p : α → Bool} {i : ℕ}

theorem backWhile_eq (h : i ≤ b.length) :
    backWhile p b i = some ((b.take i).reverse.dropWhile p).length := by
  induction i with
  | zero => rfl
  | succ i ih =>
    have hlast : (b.take (i + 1)).reverse = b[i] :: (b.take i).reverse := by
      rw [List.take_succ_eq_append_getElem (by omega), List.reverse_append, List.reverse_singleton,
        List.singleton_append]
    rw [backWhile, List.getElem?_eq_getElem (by omega), hlast, List.dropWhile_cons]
    by_cases hp : p b[i] = true
    · rw [if_pos hp]
      dsimp only
      rw [if_pos hp, ih (by omega)]
    · rw [if_neg hp]
      dsimp only
      rw [if_neg hp, List.length_cons, List.length_reverse, List.length_take,
        Nat.min_eq_left (by omega)]

theorem foreWhile_eq (h : i + k ≤ b.length) :
    foreWhile p b k i = some (i + (((b.drop i).take k).takeWhile p).length) := by
  induction k generalizing i with
  | zero => rfl
  | succ k ih =>
    rw [foreWhile, List.getElem?_eq_getElem (by omega), List.drop_eq_getElem_cons (by omega),
      List.take_succ_cons, List.takeWhile_cons]
    by_cases hp : p b[i] = true
    · rw [if_pos hp]
      dsimp only
      rw [if_pos hp, ih (by omega), List.length_cons]
      congr 1
      omega
    · rw [if_neg hp]
      dsimp only
      rw [if_neg hp, List.length_nil, Nat.add_zero]

end While

end CoeleoOs.Lib.InPlace
