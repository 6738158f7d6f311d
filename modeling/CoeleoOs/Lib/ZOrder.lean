import Mathlib.Data.List.Basic
import Mathlib.Data.List.Perm.Basic
import Mathlib.Logic.Function.Iterate

/-!
# Stacking order

A list in stacking order, its last element on top. `rposition` finds the topmost element
with a property, `raise` moves an element to the top. `showNext` brings forward the element
above the topmost one, from the bottom again after the last.
-/

namespace CoeleoOs.Lib.ZOrder

variable {α β : Type*}

def rposition (p : α → Bool) : List α → Option ℕ
  | [] => none
  | a :: l =>
    match rposition p l with
    | some i => some (i + 1)
    | none => if p a then some 0 else none

def raise (l : List α) (i : ℕ) : List α := l.eraseIdx i ++ l[i]?.toList

variable {p : α → Bool} {l : List α} {a : α} {i : ℕ}

theorem rposition_concat (ha : p a = true) : rposition p (l ++ [a]) = some l.length := by
  induction l with
  | nil => simp [rposition, ha]
  | cons b l ih => simp only [List.cons_append, rposition, ih, List.length_cons]

theorem rposition_map (f : β → α) (l : List β) :
    rposition p (l.map f) = rposition (fun b => p (f b)) l := by
  induction l with
  | nil => rfl
  | cons b l ih => simp only [List.map_cons, rposition, ih]

theorem rposition_some (h : rposition p l = some i) : ∃ a, l[i]? = some a ∧ p a = true := by
  induction l generalizing i with
  | nil => cases h
  | cons b l ih =>
    rw [rposition] at h
    split at h
    · rename_i j hj
      obtain rfl := Option.some.inj h
      exact ih hj
    · split at h
      · rename_i hb
        obtain rfl := Option.some.inj h
        exact ⟨b, rfl, hb⟩
      · cases h

theorem raise_eq (h : l[i]? = some a) : raise l i = l.eraseIdx i ++ [a] := by
  rw [raise, h, Option.toList_some]

theorem raise_perm (l : List α) (i : ℕ) : (raise l i).Perm l := by
  rw [raise]
  by_cases hi : i < l.length
  · rw [List.getElem?_eq_getElem hi]
    exact List.perm_append_comm.trans (List.getElem_cons_eraseIdx_perm hi)
  · rw [List.getElem?_eq_none (Nat.le_of_not_lt hi),
      List.eraseIdx_of_length_le (Nat.le_of_not_lt hi)]
    simp

theorem perm_of_getElem? (h : l[i]? = some a) : l.Perm (a :: l.eraseIdx i) := by
  obtain ⟨hi, rfl⟩ := List.getElem?_eq_some_iff.mp h
  exact (List.getElem_cons_eraseIdx_perm hi).symm

theorem modify_perm (g : α → α) (h : l[i]? = some a) :
    (l.modify i g).Perm (g a :: l.eraseIdx i) := by
  have hget : (l.modify i g)[i]? = some (g a) := by simp [h]
  rw [← List.eraseIdx_modify_of_eq g i l]
  exact perm_of_getElem? hget

theorem length_raise (l : List α) (i : ℕ) : (raise l i).length = l.length := by
  by_cases hi : i < l.length
  · rw [raise_eq (List.getElem?_eq_getElem hi), List.length_append, List.length_eraseIdx_of_lt hi,
      List.length_singleton]
    omega
  · rw [raise, List.eraseIdx_of_length_le (Nat.le_of_not_lt hi),
      List.getElem?_eq_none (Nat.le_of_not_lt hi), Option.toList_none, List.append_nil]

theorem raise_getElem? (h : i + 1 < l.length) : (raise l i)[i]? = l[i + 1]? := by
  have hlt : i < (l.eraseIdx i).length := by
    rw [List.length_eraseIdx_of_lt (by omega)]
    omega
  rw [raise, List.getElem?_append_left hlt, List.getElem?_eraseIdx_of_ge (Nat.le_refl i)]

theorem raise_last (h : i + 1 = l.length) : raise l i = l := by
  have hi : i < l.length := by omega
  rw [raise_eq (List.getElem?_eq_getElem hi), List.eraseIdx_eq_take_drop_succ, h, List.drop_length,
    List.append_nil, List.take_append_getElem]
  simp [h]

theorem raise_top (ha : l[i]? = some a) (hp : p a = true) :
    rposition p (raise l i) = some (l.length - 1) ∧ (raise l i)[l.length - 1]? = some a := by
  have hlen : (l.eraseIdx i).length = l.length - 1 := by
    obtain ⟨hi, -⟩ := List.getElem?_eq_some_iff.mp ha
    exact List.length_eraseIdx_of_lt hi
  rw [raise_eq ha, rposition_concat hp, hlen, ← hlen]
  exact ⟨rfl, List.getElem?_concat_length⟩

def top (p : α → Bool) (l : List α) : Option α := (rposition p l).bind fun i => l[i]?

def showNext (p : α → Bool) (s : α → α) (l : List α) : List α :=
  let i := ((rposition p l).getD 0 + 1) % l.length
  raise (l.modify i s) i

variable {s : α → α}

theorem top_concat (ha : p a = true) : top p (l ++ [a]) = some a := by
  rw [top, rposition_concat ha, Option.bind_some]
  exact List.getElem?_concat_length

theorem showNext_eq (hl : l ≠ []) :
    ∃ i b, l[i]? = some b ∧ showNext p s l = l.eraseIdx i ++ [s b] := by
  have hi : ((rposition p l).getD 0 + 1) % l.length < l.length :=
    Nat.mod_lt _ (List.length_pos_of_ne_nil hl)
  refine ⟨_, _, List.getElem?_eq_getElem hi, ?_⟩
  have hget :
      (l.modify (((rposition p l).getD 0 + 1) % l.length) s)[((rposition p l).getD 0 + 1) %
        l.length]? = some (s (l[((rposition p l).getD 0 + 1) % l.length])) := by
    rw [List.getElem?_modify_eq, List.getElem?_eq_getElem hi]
    rfl
  rw [showNext, raise_eq hget, List.eraseIdx_modify_of_eq]

theorem showNext_rotates (ha : p a = true) (b : α) :
    showNext p s (b :: l ++ [a]) = l ++ [a] ++ [s b] := by
  have hlen : (b :: l ++ [a]).length = (b :: l).length + 1 := List.length_append
  rw [showNext, rposition_concat ha, Option.getD_some, hlen, Nat.mod_self]
  rfl

theorem tops_of_top (hs : ∀ b, p (s b) = true) (v : List α) (ha : p a = true) :
    ((List.range l.length).map fun k => top p ((showNext p s)^[k + 1] (l ++ v ++ [a]))) =
      l.map fun b => some (s b) := by
  induction l generalizing v a with
  | nil => rfl
  | cons b l ih =>
    have hnext : showNext p s (b :: l ++ v ++ [a]) = l ++ (v ++ [a]) ++ [s b] := by
      rw [List.cons_append, showNext_rotates ha b, List.append_assoc l v [a]]
    have htail :
        ((List.range l.length).map fun k =>
          top p ((showNext p s)^[k + 1 + 1] (b :: l ++ v ++ [a]))) = l.map fun b => some (s b) := by
      simp only [Function.iterate_succ_apply _ (_ + 1), hnext]
      exact ih (v ++ [a]) (hs b)
    rw [List.length_cons, List.range_succ_eq_map, List.map_cons, List.map_map, List.map_cons]
    refine congrArg₂ _ ?_ htail
    rw [Function.iterate_one, hnext, top_concat (hs b)]

theorem tops_perm (hs : ∀ b, p (s b) = true) (l : List α) :
    ((List.range l.length).map fun k => top p ((showNext p s)^[k + 1] l)).Perm (l.map fun b =>
      some (s b)) := by
  by_cases hl : l = []
  · rw [hl]
    exact List.Perm.nil
  · obtain ⟨i, b, hb, hnext⟩ := showNext_eq (p := p) (s := s) hl
    have hperm : l.Perm (b :: l.eraseIdx i) := perm_of_getElem? hb
    have htail :
        ((List.range (l.eraseIdx i).length).map fun k => top p ((showNext p s)^[k + 1 + 1] l)) =
        (l.eraseIdx i).map fun b => some (s b) := by
      simp only [Function.iterate_succ_apply _ (_ + 1), hnext]
      simpa only [List.append_nil] using tops_of_top hs [] (hs b)
    have htops : ((List.range l.length).map fun k => top p ((showNext p s)^[k + 1] l)) =
        (b :: l.eraseIdx i).map fun b => some (s b) := by
      rw [hperm.length_eq, List.length_cons, List.range_succ_eq_map, List.map_cons, List.map_map,
        List.map_cons]
      refine congrArg₂ _ ?_ htail
      rw [Function.iterate_one, hnext, top_concat (hs b)]
    rw [htops]
    exact (hperm.map _).symm

end CoeleoOs.Lib.ZOrder
