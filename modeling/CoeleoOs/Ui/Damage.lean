import CoeleoOs.Ui.Frames
import CoeleoOs.Ui.Rect
import Mathlib.Data.List.Induction
import Mathlib.Data.List.Perm.Basic

/-!
# Damage

Rectangles noted since the last flush, at most eight. A new one absorbs what it intersects; when
there is no place left the nearest or the closest pair is merged, where the rectangle of the
panel is spared.
-/

namespace CoeleoOs.Ui
open Rect

abbrev damageCap : ℕ := 8

def fbRect (scr : Screen) : Rect := ⟨0, 0, scr.w, scr.h⟩

def strutRect (scr : Screen) (mode : PanelMode) : Rect := ⟨0, workH scr mode, scr.w, scr.h⟩

def gap2 (a b : Rect) : ℕ :=
  if a.Intersects b then 0
  else
    let gx := if a.x1 < b.x0 then b.x0 - a.x1 else if b.x1 < a.x0 then a.x0 - b.x1 else 0
    let gy := if a.y1 < b.y0 then b.y0 - a.y1 else if b.y1 < a.y0 then a.y0 - b.y1 else 0
    min (min (gx * gx) (2 ^ 64 - 1) + min (gy * gy) (2 ^ 64 - 1)) (2 ^ 64 - 1)

section Tables

variable {α : Type*}

def pendingRemove (l : List α) (i : ℕ) : List α :=
  match l.getLast? with
  | none => l
  | some last => if i < l.length then (l.set i last).dropLast else l

def best (cands : List (α × ℕ)) : Option (α × ℕ) :=
  cands.foldl (fun b c => match b with
    | none => some c
    | some b => if c.2 < b.2 then some c else some b) none

def indexPairs (n : ℕ) : List (ℕ × ℕ) :=
  (List.range n).flatMap fun i => (List.range n).filterMap fun j => if i < j then some (i, j)
    else none

theorem mem_indexPairs {n : ℕ} {p : ℕ × ℕ} : p ∈ indexPairs n ↔ p.1 < p.2 ∧ p.2 < n := by
  simp only [indexPairs, List.mem_flatMap, List.mem_filterMap, List.mem_range,
    Option.ite_none_right_eq_some, Option.some.injEq]
  constructor
  · rintro ⟨i, hi, j, hj, hij, rfl⟩
    exact ⟨hij, hj⟩
  · rintro ⟨hij, hj⟩
    exact ⟨p.1, hij.trans hj, p.2, hj, hij, rfl⟩

theorem pendingRemove_perm {l : List α} {i : ℕ} (h : i < l.length) :
    (pendingRemove l i).Perm (l.eraseIdx i) := by
  obtain ⟨t, last, rfl⟩ :=
    (List.eq_nil_or_concat l).resolve_left (List.ne_nil_of_length_pos (Nat.zero_lt_of_lt h))
  rw [List.concat_eq_append] at h ⊢
  rw [pendingRemove, List.getLast?_concat]
  dsimp only
  rw [if_pos h]
  rw [List.length_append, List.length_singleton] at h
  by_cases hi : i < t.length
  · rw [List.set_append_left _ _ hi, List.dropLast_concat, List.eraseIdx_append_of_lt_length hi]
    exact (List.set_perm_cons_eraseIdx hi last).trans (List.perm_append_singleton last _).symm
  · obtain rfl : i = t.length := by omega
    rw [List.set_append_right _ _ (Nat.le_refl _), Nat.sub_self, List.set_cons_zero,
      List.dropLast_concat, List.eraseIdx_append_of_length_le (Nat.le_refl _), Nat.sub_self]
    simp

theorem pendingRemove_length {l : List α} {i : ℕ} (h : i < l.length) :
    (pendingRemove l i).length + 1 = l.length := by
  rw [(pendingRemove_perm h).length_eq, List.length_eraseIdx_of_lt h]
  omega

theorem best_mem {cands : List (α × ℕ)} {c : α × ℕ} (h : best cands = some c) : c ∈ cands := by
  induction cands using List.reverseRecOn generalizing c with
  | nil => cases h
  | append_singleton cands d ih =>
    rw [best, List.foldl_append, List.foldl_cons, List.foldl_nil, ← best] at h
    rw [List.mem_append, List.mem_singleton]
    split at h
    · exact .inr (Option.some.inj h).symm
    · rename_i b hb
      split at h
      · exact .inr (Option.some.inj h).symm
      · obtain rfl := Option.some.inj h
        exact .inl (ih hb)

theorem best_eq_none {cands : List (α × ℕ)} (h : best cands = none) : cands = [] := by
  rcases List.eq_nil_or_concat cands with rfl | ⟨cands, d, rfl⟩
  · rfl
  · rw [best, List.concat_eq_append, List.foldl_append, List.foldl_cons, List.foldl_nil] at h
    split at h
    · cases h
    · split at h <;> cases h

end Tables

section Merging

variable {l l' : List Rect} {a b c : Rect} {i j : ℕ}

def pendingAt (l : List Rect) (i : ℕ) : Rect := l.getD i Rect.empty

def mergeAt (l : List Rect) (i j : ℕ) : List Rect :=
  pendingRemove (l.set i ((pendingAt l i).union (pendingAt l j))) j

def Merges (l l' : List Rect) : Prop :=
  ∃ a b rest, l.Perm (a :: b :: rest) ∧ l'.Perm (a.union b :: rest)

theorem pendingAt_of_lt (h : i < l.length) : pendingAt l i = l[i] := by
  simp [pendingAt, h]

theorem merges_mergeAt (hij : i < j) (hj : j < l.length) : Merges l (mergeAt l i j) := by
  have hi : i < l.length := hij.trans hj
  have hi' : i < (l.eraseIdx j).length := by
    rw [List.length_eraseIdx_of_lt hj]
    omega
  have hget : (l.eraseIdx j)[i] = l[i] := by rw [List.getElem_eraseIdx_of_lt _ hij]
  refine ⟨l[i], l[j], (l.eraseIdx j).eraseIdx i, ?_, ?_⟩
  · have h1 : (l[j] :: l.eraseIdx j).Perm l := List.getElem_cons_eraseIdx_perm hj
    have h2 : (l[i] :: (l.eraseIdx j).eraseIdx i).Perm (l.eraseIdx j) := by
      rw [← hget]
      exact List.getElem_cons_eraseIdx_perm hi'
    exact h1.symm.trans ((h2.symm.cons l[j]).trans (.swap _ _ _))
  · rw [mergeAt, pendingAt_of_lt hi, pendingAt_of_lt hj]
    refine (pendingRemove_perm (by rwa [List.length_set])).trans ?_
    rw [List.eraseIdx_set_gt hij]
    exact List.set_perm_cons_eraseIdx hi' _

theorem Merges.length (h : Merges l l') : l'.length + 1 = l.length := by
  obtain ⟨a, b, rest, hl, hl'⟩ := h
  rw [hl.length_eq, hl'.length_eq]
  rfl

theorem Merges.forall {Q : Rect → Prop} (hQ : ∀ a b, Q a → Q b → Q (a.union b)) (h : Merges l l')
    (hl : ∀ p ∈ l, Q p) : ∀ p ∈ l', Q p := by
  obtain ⟨a, b, rest, hp, hp'⟩ := h
  intro p hpl
  rcases List.mem_cons.mp (hp'.mem_iff.mp hpl) with rfl | hr
  · exact hQ a b (hl a (hp.mem_iff.mpr (by simp))) (hl b (hp.mem_iff.mpr (by simp)))
  · exact hl p (hp.mem_iff.mpr (by simp [hr]))

def Covered (l : List Rect) (x y : ℕ) : Prop := ∃ p ∈ l, p.Contains x y

theorem Covered.of_mem {x y : ℕ} (hl : ∀ p ∈ l, p ∈ l') (h : Covered l x y) : Covered l' x y := by
  obtain ⟨p, hp, hc⟩ := h
  exact ⟨p, hl p hp, hc⟩

theorem Merges.covered {x y : ℕ} (h : Merges l l') (hc : Covered l x y) : Covered l' x y := by
  obtain ⟨a, b, rest, hp, hp'⟩ := h
  obtain ⟨p, hpl, hxy⟩ := hc
  have hne : ¬ p.IsEmpty := not_isEmpty_iff.mpr ⟨x, y, hxy⟩
  rcases List.mem_cons.mp (hp.mem_iff.mp hpl) with rfl | hpl
  · exact ⟨p.union b, hp'.mem_iff.mpr (by simp), (inside_union_left hne).contains hxy⟩
  rcases List.mem_cons.mp hpl with rfl | hpl
  · exact ⟨a.union p, hp'.mem_iff.mpr (by simp), (inside_union_right hne).contains hxy⟩
  · exact ⟨p, hp'.mem_iff.mpr (by simp [hpl]), hxy⟩

/-- Any number of mergers, one after the other. -/
inductive Merged : List Rect → List Rect → Prop
  | perm {l l' : List Rect} : l.Perm l' → Merged l l'
  | head {l l₁ l' : List Rect} : Merges l l₁ → Merged l₁ l' → Merged l l'

theorem Merged.refl (l : List Rect) : Merged l l := .perm (.refl l)

theorem Merged.trans {l₁ : List Rect} (h : Merged l l₁) (h' : Merged l₁ l') : Merged l l' := by
  induction h with
  | perm hp =>
    cases h' with
    | perm hp' => exact .perm (hp.trans hp')
    | head hm h' =>
      obtain ⟨a, b, rest, ha, hb⟩ := hm
      exact .head ⟨a, b, rest, hp.trans ha, hb⟩ h'
  | head hm _ ih => exact .head hm (ih h')

theorem Merged.length_le (h : Merged l l') : l'.length ≤ l.length := by
  induction h with
  | perm hp => exact hp.length_eq.ge
  | head hm _ ih =>
    have := hm.length
    omega

theorem Merged.forall {Q : Rect → Prop} (hQ : ∀ a b, Q a → Q b → Q (a.union b)) (h : Merged l l')
    (hl : ∀ p ∈ l, Q p) : ∀ p ∈ l', Q p := by
  induction h with
  | perm hp => exact fun p h => hl p (hp.mem_iff.mpr h)
  | head hm _ ih => exact ih (hm.forall hQ hl)

theorem Merged.notEmpty (h : Merged l l') (hl : ∀ p ∈ l, ¬ p.IsEmpty) : ∀ p ∈ l', ¬ p.IsEmpty :=
  h.forall (Q := fun p => ¬ p.IsEmpty) (fun _ _ ha _ => union_not_isEmpty ha) hl

theorem Merged.inside (h : Merged l l') (hl : ∀ p ∈ l, Inside p c) : ∀ p ∈ l', Inside p c :=
  h.forall (Q := fun p => Inside p c) (fun _ _ ha hb => union_inside ha hb) hl

theorem Merged.covered {x y : ℕ} (h : Merged l l') (hc : Covered l x y) : Covered l' x y := by
  induction h with
  | perm hp => exact hc.of_mem fun p h => hp.mem_iff.mp h
  | head hm _ ih => exact ih (hm.covered hc)

theorem Merges.cons (h : Merges l l') (c : Rect) : Merges (c :: l) (c :: l') := by
  obtain ⟨a, b, rest, hl, hl'⟩ := h
  refine ⟨a, b, c :: rest, (hl.cons c).trans ?_, (hl'.cons c).trans (.swap _ _ _)⟩
  exact (List.Perm.swap _ _ _).trans ((List.Perm.swap _ _ _).cons a)

theorem Merged.cons (h : Merged l l') (c : Rect) : Merged (c :: l) (c :: l') := by
  induction h with
  | perm hp => exact .perm (hp.cons c)
  | head hm _ ih => exact .head (hm.cons c) ih

def Apart (l : List Rect) : Prop := l.Pairwise fun a b => ¬ a.Intersects b

theorem Apart.perm (h : Apart l) (hp : l.Perm l') : Apart l' :=
  hp.pairwise h fun {_ _} hab hba => hab (intersects_comm.mp hba)

theorem apart_concat : Apart (l ++ [c]) ↔ Apart l ∧ ∀ p ∈ l, ¬ p.Intersects c := by
  rw [Apart, List.pairwise_append]
  simp [Apart]

theorem Apart.pendingRemove (h : Apart l) (hi : i < l.length) : Apart (pendingRemove l i) :=
  Apart.perm (List.Pairwise.sublist (List.eraseIdx_sublist l i) h) (pendingRemove_perm hi).symm

def meetingPair (l : List Rect) : Option (ℕ × ℕ) :=
  (indexPairs l.length).find? fun p => decide ((pendingAt l p.1).Intersects (pendingAt l p.2))

theorem meetingPair_some {p : ℕ × ℕ} (h : meetingPair l = some p) : p.1 < p.2 ∧ p.2 < l.length :=
  mem_indexPairs.mp (List.mem_of_find?_eq_some h)

theorem meetingPair_none (h : meetingPair l = none) : Apart l := by
  refine List.pairwise_iff_getElem.mpr ?_
  intro i j hi hj hij
  have := List.find?_eq_none.mp h (i, j) (mem_indexPairs.mpr ⟨hij, hj⟩)
  rw [decide_eq_true_eq, pendingAt_of_lt hi, pendingAt_of_lt hj] at this
  exact this

def coalesce (l : List Rect) : List Rect :=
  match _h : meetingPair l with
  | none => l
  | some p => coalesce (mergeAt l p.1 p.2)
termination_by l.length
decreasing_by
  have := (merges_mergeAt (meetingPair_some _h).1 (meetingPair_some _h).2).length
  omega

theorem coalesce_spec (l : List Rect) : Merged l (coalesce l) ∧ Apart (coalesce l) := by
  fun_induction coalesce l with
  | case1 l h => exact ⟨.refl l, meetingPair_none h⟩
  | case2 l p h ih =>
    have hp := meetingPair_some h
    exact ⟨.head (merges_mergeAt hp.1 hp.2) ih.1, ih.2⟩

def absorb (l : List Rect) (cur : Rect) : List Rect × Rect :=
  match _h : l.findIdx? fun p => decide (p.Intersects cur) with
  | none => (l, cur)
  | some i => absorb (pendingRemove l i) ((pendingAt l i).union cur)
termination_by l.length
decreasing_by
  have := pendingRemove_length (List.findIdx?_eq_some_iff_findIdx_eq.mp _h).1
  omega

theorem merges_absorb (hi : i < l.length) :
    Merges (c :: l) ((pendingAt l i).union c :: pendingRemove l i) := by
  refine ⟨l[i], c, l.eraseIdx i, ?_, ?_⟩
  · exact ((List.getElem_cons_eraseIdx_perm hi).symm.cons c).trans (.swap _ _ _)
  · rw [pendingAt_of_lt hi]
    exact (pendingRemove_perm hi).cons _

theorem absorb_spec (hl : Apart l) : Merged (c :: l) ((absorb l c).2 :: (absorb l c).1) ∧
    Apart ((absorb l c).1 ++ [(absorb l c).2]) := by
  fun_induction absorb l c with
  | case1 l c h =>
    refine ⟨.refl (c :: l), apart_concat.mpr ⟨hl, ?_⟩⟩
    intro p hp
    simpa using List.findIdx?_eq_none_iff.mp h p hp
  | case2 l c i h ih =>
    have hi : i < l.length := (List.findIdx?_eq_some_iff_findIdx_eq.mp h).1
    have hrest := ih (hl.pendingRemove hi)
    exact ⟨.head (merges_absorb hi) hrest.1, hrest.2⟩

end Merging

section Noting

variable (scr : Screen) (mode : PanelMode) {l l' : List Rect} {a b cur r : Rect} {x y : ℕ}

def PairOk (a b : Rect) : Prop :=
  a.Intersects b ∨ ¬ (a = strutRect scr mode ∨ b = strutRect scr mode)

instance (a b : Rect) : Decidable (PairOk scr mode a b) := inferInstanceAs (Decidable (_ ∨ _))

def mergeClosestPair (l : List Rect) : List Rect :=
  if l.length < 2 then l
  else
    let pairs :=
      (indexPairs l.length).filter fun p =>
        decide (PairOk scr mode (pendingAt l p.1) (pendingAt l p.2))
    match best (pairs.map fun p => (p, gap2 (pendingAt l p.1) (pendingAt l p.2))) with
    | none => l
    | some (p, _) => coalesce (mergeAt l p.1 p.2)

def push (l : List Rect) (cur : Rect) : List Rect × Bool :=
  if l.length < damageCap then (l ++ [cur], false) else (l, true)

def mergeIntoNearest (l : List Rect) (cur : Rect) : List Rect × Bool :=
  let near := (List.range l.length).filter fun i => decide (PairOk scr mode (pendingAt l i) cur)
  match best (near.map fun i => (i, gap2 (pendingAt l i) cur)) with
  | some (i, _) => (coalesce (l.set i ((pendingAt l i).union cur)), false)
  | none => push (mergeClosestPair scr mode l) cur

def note (l : List Rect) (r : Rect) : List Rect × Bool :=
  let cur := r.intersect (fbRect scr)
  if cur.IsEmpty then (l, false)
  else
    let (l, cur) := absorb l cur
    if l.length < damageCap then (l ++ [cur], false)
    else if cur = strutRect scr mode then
      let l := mergeClosestPair scr mode l
      if l.length < damageCap then (l ++ [cur], false) else mergeIntoNearest scr mode l cur
    else mergeIntoNearest scr mode l cur

/-- What the table of rectangles keeps. -/
structure Good (l : List Rect) : Prop where
  short : l.length ≤ damageCap
  apart : Apart l
  notEmpty : ∀ p ∈ l, ¬ p.IsEmpty
  inside : ∀ p ∈ l, Inside p (fbRect scr)

theorem good_nil : Good scr [] :=
  ⟨Nat.zero_le _, .nil, fun _ h => absurd h List.not_mem_nil, fun _ h => absurd h List.not_mem_nil⟩

variable {scr}

theorem Good.of_merged (h : Merged l l') (hs : l'.length ≤ damageCap) (ha : Apart l')
    (hn : ∀ p ∈ l, ¬ p.IsEmpty) (hi : ∀ p ∈ l, Inside p (fbRect scr)) : Good scr l' :=
  ⟨hs, ha, h.notEmpty hn, h.inside hi⟩

theorem mergeClosestPair_merged (l : List Rect) : Merged l (mergeClosestPair scr mode l) := by
  rw [mergeClosestPair]
  split
  · exact .refl l
  dsimp only
  split
  · exact .refl l
  · rename_i p d hbest
    obtain ⟨q, hq, hqp⟩ := List.mem_map.mp (best_mem hbest)
    obtain rfl : q = p := congrArg Prod.fst hqp
    have hmem := mem_indexPairs.mp (List.mem_filter.mp hq).1
    exact .head (merges_mergeAt hmem.1 hmem.2) (coalesce_spec _).1

theorem mergeClosestPair_apart (h : Apart l) : Apart (mergeClosestPair scr mode l) := by
  rw [mergeClosestPair]
  split
  · exact h
  dsimp only
  split
  · exact h
  · exact (coalesce_spec _).2

theorem mergeClosestPair_length (h2 : 2 ≤ l.length) (hs : ∀ p ∈ l, p ≠ strutRect scr mode) :
    (mergeClosestPair scr mode l).length < l.length := by
  rw [mergeClosestPair, if_neg (by omega)]
  dsimp only
  split
  · rename_i hbest
    have hnil := List.map_eq_nil_iff.mp (best_eq_none hbest)
    have h0 : (0, 1) ∈ indexPairs l.length := mem_indexPairs.mpr ⟨Nat.zero_lt_one, h2⟩
    have hok : PairOk scr mode (pendingAt l 0) (pendingAt l 1) := by
      refine .inr ?_
      rw [pendingAt_of_lt (by omega), pendingAt_of_lt (by omega)]
      rintro (h | h)
      · exact hs _ (List.getElem_mem _) h
      · exact hs _ (List.getElem_mem _) h
    exact absurd (decide_eq_true hok) (List.filter_eq_nil_iff.mp hnil _ h0)
  · rename_i p d hbest
    obtain ⟨q, hq, hqp⟩ := List.mem_map.mp (best_mem hbest)
    obtain rfl : q = p := congrArg Prod.fst hqp
    have hmem := mem_indexPairs.mp (List.mem_filter.mp hq).1
    have hlen := (merges_mergeAt hmem.1 hmem.2).length
    have hle := (coalesce_spec (mergeAt l q.1 q.2)).1.length_le
    omega

theorem intersects_self (h : ¬ a.IsEmpty) : a.Intersects a := by
  obtain ⟨x, y, h⟩ := not_isEmpty_iff.mp h
  exact intersects_iff.mpr ⟨x, y, h, h⟩

theorem mergeIntoNearest_spec (hg : Good scr l) (h2 : 2 ≤ l.length)
    (hcs : cur ≠ strutRect scr mode) :
    (mergeIntoNearest scr mode l cur).2 = false ∧
      Merged (cur :: l) (mergeIntoNearest scr mode l cur).1 ∧
      Apart (mergeIntoNearest scr mode l cur).1 ∧
      (mergeIntoNearest scr mode l cur).1.length ≤ l.length := by
  rw [mergeIntoNearest]
  split
  · rename_i i d hbest
    obtain ⟨q, hq, hqp⟩ := List.mem_map.mp (best_mem hbest)
    obtain rfl : q = i := congrArg Prod.fst hqp
    have hi : q < l.length := List.mem_range.mp (List.mem_filter.mp hq).1
    have hspec := coalesce_spec (l.set q ((pendingAt l q).union cur))
    have hone : Merges (cur :: l) (l.set q ((pendingAt l q).union cur)) := by
      refine ⟨l[q], cur, l.eraseIdx q, ?_, ?_⟩
      · exact ((List.getElem_cons_eraseIdx_perm hi).symm.cons cur).trans (.swap _ _ _)
      · rw [pendingAt_of_lt hi]
        exact List.set_perm_cons_eraseIdx hi _
    refine ⟨rfl, .head hone hspec.1, hspec.2, ?_⟩
    have hlen := hspec.1.length_le
    rwa [List.length_set] at hlen
  · rename_i hbest
    exfalso
    have hnil := List.map_eq_nil_iff.mp (best_eq_none hbest)
    have hall : ∀ i, (hi : i < l.length) → l[i] = strutRect scr mode := by
      intro i hi
      by_contra hne
      have hok : PairOk scr mode (pendingAt l i) cur := by
        rw [pendingAt_of_lt hi]
        exact .inr (not_or.mpr ⟨hne, hcs⟩)
      exact List.filter_eq_nil_iff.mp hnil i (List.mem_range.mpr hi) (decide_eq_true hok)
    have h01 := List.pairwise_iff_getElem.mp hg.apart 0 1 (by omega) (by omega) Nat.zero_lt_one
    rw [hall 1, ← hall 0 (by omega)] at h01
    exact h01 (intersects_self (hg.notEmpty _ (List.getElem_mem _)))

theorem above_strut (ha : ¬ a.IsEmpty)
    (hi : Inside a (fbRect scr)) (h : ¬ a.Intersects (strutRect scr mode)) :
    a.y1 ≤ workH scr mode := by
  simp only [Intersects, Rect.IsEmpty, intersect, strutRect, not_not] at h ha
  have hr : a.x1 ≤ scr.w := hi.right
  have hb : a.y1 ≤ scr.h := hi.bottom
  omega

theorem union_above {w : ℕ} (ha : a.y1 ≤ w) (hb : b.y1 ≤ w) : (a.union b).y1 ≤ w := by
  rw [union]
  split
  · exact hb
  split
  · exact ha
  · exact max_le ha hb

theorem not_intersects_strut (h : a.y1 ≤ workH scr mode) : ¬ a.Intersects (strutRect scr mode) := by
  simp only [Intersects, Rect.IsEmpty, intersect, strutRect]
  omega

theorem note_of_isEmpty (h : (r.intersect (fbRect scr)).IsEmpty) :
    note scr mode l r = (l, false) := by
  rw [note]
  exact if_pos h

theorem note_spec (hg : Good scr l) (h : ¬ (r.intersect (fbRect scr)).IsEmpty) :
    (note scr mode l r).2 = false ∧ Good scr (note scr mode l r).1 ∧
      Merged (r.intersect (fbRect scr) :: l) (note scr mode l r).1 := by
  rw [note]
  dsimp only
  rw [if_neg h]
  obtain ⟨hm, hap⟩ := absorb_spec (c := r.intersect (fbRect scr)) hg.apart
  generalize absorb l (r.intersect (fbRect scr)) = out at hm hap ⊢
  obtain ⟨l₁, cur⟩ := out
  dsimp only at hm hap ⊢
  have hn : ∀ p ∈ r.intersect (fbRect scr) :: l, ¬ p.IsEmpty :=
    List.forall_mem_cons.mpr ⟨h, hg.notEmpty⟩
  have hi : ∀ p ∈ r.intersect (fbRect scr) :: l, Inside p (fbRect scr) :=
    List.forall_mem_cons.mpr ⟨intersect_inside_right _ _, hg.inside⟩
  have hlen : l₁.length ≤ damageCap := by
    have := hm.length_le
    simp only [List.length_cons] at this
    exact (Nat.le_of_succ_le_succ this).trans hg.short
  have hn₁ := hm.notEmpty hn
  have hi₁ := hm.inside hi
  have hg₁ : Good scr l₁ :=
    ⟨hlen, (apart_concat.mp hap).1, fun p hp => hn₁ p (by simp [hp]),
      fun p hp => hi₁ p (by simp [hp])⟩
  have hpush {l₂ : List Rect} (h₂ : Merged l₁ l₂) (hlt : l₂.length < damageCap)
      (ha : Apart (l₂ ++ [cur])) : Good scr (l₂ ++ [cur]) ∧ Merged (r.intersect (fbRect scr) :: l)
      (l₂ ++ [cur]) := by
    have hmm := (hm.trans (h₂.cons cur)).trans (.perm (List.perm_append_singleton cur l₂).symm)
    exact ⟨.of_merged hmm (by rw [List.length_append]; exact hlt) ha hn hi, hmm⟩
  by_cases hlt : l₁.length < damageCap
  · rw [if_pos hlt]
    exact ⟨rfl, hpush (.refl l₁) hlt hap⟩
  rw [if_neg hlt]
  have hcap : l₁.length = damageCap := by omega
  have h2 : 2 ≤ l₁.length := hcap ▸ by decide
  by_cases hs : cur = strutRect scr mode
  · subst hs
    have hcur := hn₁ _ (List.mem_cons_self ..)
    have hfar := (apart_concat.mp hap).2
    have habove : ∀ p ∈ l₁, p.y1 ≤ workH scr mode := by
      intro p hp
      exact above_strut mode (hg₁.notEmpty p hp) (hg₁.inside p hp) (hfar p hp)
    have hshort : (mergeClosestPair scr mode l₁).length < damageCap := by
      have := mergeClosestPair_length mode (l := l₁) h2 (by
        rintro p hp rfl
        exact hfar _ hp (intersects_self hcur))
      omega
    have hmerged : Merged l₁ (mergeClosestPair scr mode l₁) := mergeClosestPair_merged mode l₁
    have hsep := hmerged.forall (fun _ _ ha hb => union_above ha hb) habove
    rw [if_pos rfl, if_pos hshort]
    exact ⟨rfl, hpush hmerged hshort (apart_concat.mpr
      ⟨mergeClosestPair_apart mode hg₁.apart, fun p hp => not_intersects_strut mode (hsep p hp)⟩)⟩
  · rw [if_neg hs]
    obtain ⟨h1, hm₂, h3, h4⟩ :=
      mergeIntoNearest_spec mode hg₁ h2 hs
    have hmm := hm.trans hm₂
    exact ⟨h1, .of_merged hmm (h4.trans hlen) h3 hn hi, hmm⟩

end Noting

/-- What happens to the table: a rectangle is noted, with the panel as it then is, or the
rectangles are flushed. -/
inductive DamageEvent
  | note (mode : PanelMode) (r : Rect)
  | flush

structure Table where
  pending : List Rect
  dropped : Bool

def Table.step (scr : Screen) (t : Table) : DamageEvent → Table
  | .note mode r =>
    let out := note scr mode t.pending r
    ⟨out.1, t.dropped || out.2⟩
  | .flush => ⟨[], t.dropped⟩

def Table.run (scr : Screen) (es : List DamageEvent) : Table :=
  es.foldl (Table.step scr) ⟨[], false⟩

def noted : List DamageEvent → List Rect :=
  List.foldl (fun rs e => match e with
    | .note _ r => rs ++ [r]
    | .flush => []) []

/-- The rectangles that were noted, as far as they are on the framebuffer, lie in those that are
pending. -/
structure Table.Keeps (scr : Screen) (rs : List Rect) (t : Table) : Prop where
  good : Good scr t.pending
  covers : ∀ r ∈ rs, ∀ x y, (r.intersect (fbRect scr)).Contains x y → Covered t.pending x y
  dropsNothing : t.dropped = false

theorem Table.Keeps.note {scr : Screen} {rs : List Rect} {t : Table} (h : t.Keeps scr rs)
    (mode : PanelMode) (r : Rect) : (t.step scr (.note mode r)).Keeps scr (rs ++ [r]) := by
  rw [Table.step]
  by_cases hr : (r.intersect (fbRect scr)).IsEmpty
  · rw [note_of_isEmpty mode hr]
    refine ⟨h.good, ?_, by rw [h.dropsNothing]; rfl⟩
    intro q hq x y hc
    rcases List.mem_append.mp hq with hq | hq
    · exact h.covers q hq x y hc
    · obtain rfl := List.mem_singleton.mp hq
      exact absurd hr (Rect.not_isEmpty_iff.mpr ⟨x, y, hc⟩)
  · obtain ⟨hd, hg, hm⟩ := note_spec mode h.good hr
    refine ⟨hg, ?_, by rw [h.dropsNothing, hd]; rfl⟩
    intro q hq x y hc
    apply hm.covered
    rcases List.mem_append.mp hq with hq | hq
    · exact (h.covers q hq x y hc).of_mem fun p hp => List.mem_cons_of_mem _ hp
    · obtain rfl := List.mem_singleton.mp hq
      exact ⟨_, List.mem_cons_self .., hc⟩

/-- No damage is lost between two flushes, and what waits is apart and fits the table. -/
theorem damage_kept (scr : Screen) (es : List DamageEvent) :
    (Table.run scr es).Keeps scr (noted es) := by
  induction es using List.reverseRecOn with
  | nil => exact ⟨good_nil scr, fun _ h => absurd h List.not_mem_nil, rfl⟩
  | append_singleton es e ih =>
    rw [Table.run, noted, List.foldl_concat, List.foldl_concat]
    cases e with
    | note mode r => exact ih.note mode r
    | flush => exact ⟨good_nil scr, fun _ h => absurd h List.not_mem_nil, ih.dropsNothing⟩

end CoeleoOs.Ui
