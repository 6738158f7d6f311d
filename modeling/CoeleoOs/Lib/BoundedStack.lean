import Mathlib.Data.List.Induction

/-!
# A stack with a bound

Operations push an element or pop the newest one; a pop of the empty stack does nothing.
`run` never refuses a push, `runIn cap` drops every push onto `cap` elements. The two end
with the same stack exactly when every stack of more than `cap` elements is emptied later.
Stacks grow to the right.
-/

namespace CoeleoOs.Lib.BoundedStack

variable {α : Type} {cap : ℕ} {ops : List (Option α)}

def apply (s : List α) : Option α → List α
  | none => s.dropLast
  | some a => s ++ [a]

def applyIn (cap : ℕ) (s : List α) : Option α → List α
  | none => s.dropLast
  | some a => if s.length < cap then s ++ [a] else s

def run (ops : List (Option α)) : List α := ops.foldl apply []

def runIn (cap : ℕ) (ops : List (Option α)) : List α := ops.foldl (applyIn cap) []

def heightIn (cap : ℕ) (ops : List (Option α)) : ℕ :=
  ops.foldl (fun d op => if op.isSome then min cap (d + 1) else d - 1) 0

/-- Every stack above the bound is emptied later. -/
def Emptied (cap : ℕ) (ops : List (Option α)) : Prop :=
  ∀ n, cap < (run (ops.take n)).length → ∃ m, n ≤ m ∧ run (ops.take m) = []

/-- `a` is the last push onto a stack of `cap` that is empty, and stays to the end. -/
def Lowest (cap : ℕ) (ops : List (Option α)) (a : α) : Prop :=
  ∃ n, ops[n]? = some (some a) ∧ heightIn cap (ops.take n) = 0 ∧
    ∀ m, n < m → m ≤ ops.length → 0 < heightIn cap (ops.take m)

theorem run_snoc (ops : List (Option α)) (op : Option α) :
    run (ops ++ [op]) = apply (run ops) op := by
  rw [run, List.foldl_append]
  rfl

theorem runIn_snoc (ops : List (Option α)) (op : Option α) :
    runIn cap (ops ++ [op]) = applyIn cap (runIn cap ops) op := by
  rw [runIn, List.foldl_append]
  rfl

theorem mem_run {a : α} (h : a ∈ run ops) : some a ∈ ops := by
  induction ops using List.reverseRecOn with
  | nil => cases h
  | append_singleton ops op ih =>
    rw [run_snoc] at h
    cases op with
    | none => exact List.mem_append_left _ (ih (List.dropLast_subset _ h))
    | some b =>
      rcases List.mem_append.mp h with h | h
      · exact List.mem_append_left _ (ih h)
      · rw [List.mem_singleton.mp h]
        exact List.mem_append_right _ (List.mem_singleton_self _)

theorem mem_runIn {a : α} (h : a ∈ runIn cap ops) : some a ∈ ops := by
  induction ops using List.reverseRecOn with
  | nil => cases h
  | append_singleton ops op ih =>
    rw [runIn_snoc] at h
    cases op with
    | none => exact List.mem_append_left _ (ih (List.dropLast_subset _ h))
    | some b =>
      rw [applyIn] at h
      split at h
      · rcases List.mem_append.mp h with h | h
        · exact List.mem_append_left _ (ih h)
        · rw [List.mem_singleton.mp h]
          exact List.mem_append_right _ (List.mem_singleton_self _)
      · exact List.mem_append_left _ (ih h)

theorem runIn_length_le (cap : ℕ) (ops : List (Option α)) : (runIn cap ops).length ≤ cap := by
  induction ops using List.reverseRecOn with
  | nil => exact Nat.zero_le cap
  | append_singleton ops op ih =>
    rw [runIn_snoc]
    cases op with
    | none =>
      rw [applyIn, List.length_dropLast]
      omega
    | some a =>
      rw [applyIn]
      split
      · rw [List.length_append, List.length_singleton]
        omega
      · exact ih

theorem runIn_length (cap : ℕ) (ops : List (Option α)) :
    (runIn cap ops).length = heightIn cap ops := by
  induction ops using List.reverseRecOn with
  | nil => rfl
  | append_singleton ops op ih =>
    have hle := runIn_length_le cap ops
    rw [runIn_snoc, heightIn, List.foldl_append]
    change _ = if op.isSome then min cap (heightIn cap ops + 1) else heightIn cap ops - 1
    rw [← ih]
    cases op with
    | none => exact List.length_dropLast
    | some a =>
      simp only [applyIn, Option.isSome_some, if_true]
      split
      · rw [List.length_append, List.length_singleton]
        omega
      · omega

theorem take_snoc_of_le {n : ℕ} {op : Option α} (h : n ≤ ops.length) :
    (ops ++ [op]).take n = ops.take n :=
  List.take_append_of_le_length h

theorem take_snoc_of_lt {n : ℕ} {op : Option α} (h : ops.length < n) :
    (ops ++ [op]).take n = ops ++ [op] := by
  apply List.take_of_length_le
  rw [List.length_append, List.length_singleton]
  omega

theorem emptied_snoc (op : Option α) : Emptied cap (ops ++ [op]) ↔
    run (ops ++ [op]) = [] ∨ Emptied cap ops ∧ (run (ops ++ [op])).length ≤ cap := by
  by_cases hend : run (ops ++ [op]) = []
  · refine iff_of_true (fun n _ => ?_) (.inl hend)
    refine ⟨max n (ops.length + 1), Nat.le_max_left _ _, ?_⟩
    rw [take_snoc_of_lt (by omega)]
    exact hend
  · rw [or_iff_right hend]
    constructor
    · intro h
      refine ⟨fun n hn => ?_, ?_⟩
      · have hn' : cap < (run ((ops ++ [op]).take (min n ops.length))).length := by
          rw [take_snoc_of_le (Nat.min_le_right _ _)]
          rwa [List.take_eq_take_min] at hn
        obtain ⟨m, hm, hempty⟩ := h _ hn'
        rcases Nat.lt_or_ge ops.length m with hlt | hle
        · rw [take_snoc_of_lt hlt] at hempty
          exact absurd hempty hend
        · rw [take_snoc_of_le hle] at hempty
          rcases Nat.le_total n ops.length with hnl | hnl
          · exact ⟨m, by omega, hempty⟩
          · refine ⟨n, Nat.le_refl n, ?_⟩
            rw [List.take_of_length_le hnl, ← List.take_of_length_le (show ops.length ≤ m by omega)]
            exact hempty
      · by_contra hlong
        have hfull : cap < (run ((ops ++ [op]).take (ops.length + 1))).length := by
          rw [take_snoc_of_lt (Nat.lt_succ_self _)]
          omega
        obtain ⟨m, hm, hempty⟩ := h _ hfull
        rw [take_snoc_of_lt (by omega)] at hempty
        exact hend hempty
    · rintro ⟨h, hshort⟩ n hn
      rcases Nat.lt_or_ge ops.length n with hlt | hle
      · rw [take_snoc_of_lt hlt] at hn
        omega
      · rw [take_snoc_of_le hle] at hn
        obtain ⟨m, hm, hempty⟩ := h n hn
        refine ⟨min m ops.length, by omega, ?_⟩
        rw [take_snoc_of_le (Nat.min_le_right _ _), ← List.take_eq_take_min]
        exact hempty

theorem runIn_cases (cap : ℕ) (ops : List (Option α)) :
    (Emptied cap ops ∧ runIn cap ops = run ops) ∨
      (¬Emptied cap ops ∧ (runIn cap ops).length < (run ops).length) := by
  induction ops using List.reverseRecOn with
  | nil => exact .inl ⟨fun n hn => by simp [run] at hn, rfl⟩
  | append_singleton ops op ih =>
    have hcap := runIn_length_le cap ops
    have hend : run (ops ++ [op]) = [] ↔ (run (ops ++ [op])).length = 0 :=
      List.length_eq_zero_iff.symm
    rw [emptied_snoc, runIn_snoc]
    cases op with
    | none =>
      have hrun : run (ops ++ [none]) = (run ops).dropLast := run_snoc ops none
      rw [hend, hrun, applyIn, List.length_dropLast, List.length_dropLast]
      rcases ih with ⟨hgood, heq⟩ | ⟨hbad, hlt⟩
      · rw [heq] at hcap ⊢
        exact .inl ⟨.inr ⟨hgood, by omega⟩, rfl⟩
      · rcases Nat.lt_or_ge 1 (run ops).length with hlong | hshort
        · refine .inr ⟨?_, by omega⟩
          rintro (hzero | ⟨hgood, -⟩)
          · omega
          · exact hbad hgood
        · refine .inl ⟨.inl (by omega), ?_⟩
          rw [List.eq_nil_of_length_eq_zero (show (runIn cap ops).length = 0 by omega)]
          exact (List.eq_nil_of_length_eq_zero (by rw [List.length_dropLast]; omega)).symm
    | some a =>
      have hrun : run (ops ++ [some a]) = run ops ++ [a] := run_snoc ops (some a)
      rw [hend, hrun, applyIn, List.length_append, List.length_singleton]
      rcases ih with ⟨hgood, heq⟩ | ⟨hbad, hlt⟩
      · rw [heq] at hcap ⊢
        split
        · exact .inl ⟨.inr ⟨hgood, by omega⟩, rfl⟩
        · exact .inr ⟨by omega, by omega⟩
      · refine .inr ⟨?_, ?_⟩
        · rintro (hzero | ⟨hgood, -⟩)
          · omega
          · exact hbad hgood
        · split
          · rw [List.length_append, List.length_singleton]
            omega
          · omega

theorem runIn_eq_iff (cap : ℕ) (ops : List (Option α)) :
    runIn cap ops = run ops ↔ Emptied cap ops := by
  rcases runIn_cases cap ops with ⟨hgood, heq⟩ | ⟨hbad, hlt⟩
  · exact iff_of_true heq hgood
  · refine iff_of_false (fun heq => ?_) hbad
    rw [heq] at hlt
    omega

theorem heightIn_snoc_pos (hcap : 0 < cap) (ops : List (Option α)) (a : α) :
    0 < heightIn cap (ops ++ [some a]) := by
  rw [heightIn, List.foldl_append]
  change 0 < min cap (heightIn cap ops + 1)
  omega

theorem lowest_snoc_of_le {n : ℕ} {op : Option α} {a : α} (hn : n < ops.length)
    (hend : 0 < heightIn cap (ops ++ [op])) :
    ((ops ++ [op])[n]? = some (some a) ∧ heightIn cap ((ops ++ [op]).take n) = 0 ∧
        ∀ m, n < m → m ≤ (ops ++ [op]).length → 0 < heightIn cap ((ops ++ [op]).take m)) ↔
      ops[n]? = some (some a) ∧ heightIn cap (ops.take n) = 0 ∧
        ∀ m, n < m → m ≤ ops.length → 0 < heightIn cap (ops.take m) := by
  rw [List.getElem?_append_left hn, take_snoc_of_le (Nat.le_of_lt hn)]
  refine and_congr_right fun _ => and_congr_right fun _ =>
    ⟨fun h m hm hle => ?_, fun h m hm hle => ?_⟩
  · have hpos := h m hm (by rw [List.length_append]; omega)
    rwa [take_snoc_of_le hle] at hpos
  · rcases Nat.lt_or_ge ops.length m with hlt | hle
    · rwa [take_snoc_of_lt hlt]
    · rw [take_snoc_of_le hle]
      exact h m hm hle

theorem lowest_snoc_empty (hcap : 0 < cap) (h : heightIn cap ops = 0) (op : Option α) (a : α) :
    Lowest cap (ops ++ [op]) a ↔ op = some a := by
  constructor
  · rintro ⟨n, hn, -, hpos⟩
    rcases Nat.lt_trichotomy n ops.length with hlt | rfl | hgt
    · have hzero := hpos ops.length hlt (by rw [List.length_append]; omega)
      rw [take_snoc_of_le (Nat.le_refl _), List.take_length, h] at hzero
      omega
    · simpa using hn
    · rw [List.getElem?_eq_none (by rw [List.length_append, List.length_singleton]; omega)] at hn
      cases hn
  · rintro rfl
    refine ⟨ops.length, by simp, ?_, fun m hm _ => ?_⟩
    · rw [take_snoc_of_le (Nat.le_refl _), List.take_length, h]
    · rw [take_snoc_of_lt hm]
      exact heightIn_snoc_pos hcap ops a

theorem lowest_snoc_of_pos {op : Option α} {a : α} (h : 0 < heightIn cap ops)
    (hend : 0 < heightIn cap (ops ++ [op])) : Lowest cap (ops ++ [op]) a ↔ Lowest cap ops a := by
  constructor
  · rintro ⟨n, hn, hzero, hpos⟩
    rcases Nat.lt_trichotomy n ops.length with hlt | rfl | hgt
    · exact ⟨n, (lowest_snoc_of_le hlt hend).mp ⟨hn, hzero, hpos⟩⟩
    · rw [take_snoc_of_le (Nat.le_refl _), List.take_length] at hzero
      omega
    · rw [List.getElem?_eq_none (by rw [List.length_append, List.length_singleton]; omega)] at hn
      cases hn
  · rintro ⟨n, hn⟩
    have hlt : n < ops.length := (List.getElem?_eq_some_iff.mp hn.1).1
    exact ⟨n, (lowest_snoc_of_le hlt hend).mpr hn⟩

theorem not_lowest_of_zero {a : α} (h : heightIn cap ops = 0) : ¬Lowest cap ops a := by
  rintro ⟨n, hn, -, hpos⟩
  have hlt : n < ops.length := (List.getElem?_eq_some_iff.mp hn).1
  have hend := hpos ops.length hlt (Nat.le_refl _)
  rw [List.take_length, h] at hend
  omega

theorem runIn_head_iff (hcap : 0 < cap) (ops : List (Option α)) (a : α) :
    (runIn cap ops).head? = some a ↔ Lowest cap ops a := by
  induction ops using List.reverseRecOn with
  | nil => exact iff_of_false (by simp [runIn]) (not_lowest_of_zero rfl)
  | append_singleton ops op ih =>
    rcases Nat.eq_zero_or_pos (heightIn cap (ops ++ [op])) with hend | hend
    · refine iff_of_false ?_ (not_lowest_of_zero hend)
      rw [← runIn_length, List.length_eq_zero_iff] at hend
      rw [hend]
      simp
    rcases Nat.eq_zero_or_pos (heightIn cap ops) with h | h
    · rw [lowest_snoc_empty hcap h, runIn_snoc,
        List.eq_nil_of_length_eq_zero ((runIn_length cap ops).trans h)]
      cases op with
      | none => simp [applyIn]
      | some b => simp [applyIn, hcap]
    · rw [lowest_snoc_of_pos h hend, ← ih, runIn_snoc]
      have hlen := runIn_length cap (ops ++ [op])
      rw [runIn_snoc] at hlen
      rw [← runIn_length] at h
      rcases hs : runIn cap ops with _ | ⟨x, s⟩
      · rw [hs] at h
        exact absurd h (Nat.lt_irrefl 0)
      · cases op with
        | none =>
          rcases s with _ | ⟨y, s⟩
          · rw [hs] at hlen
            simp only [applyIn, List.dropLast_singleton, List.length_nil] at hlen
            omega
          · rfl
        | some b =>
          rw [applyIn]
          split <;> rfl

theorem runIn_pushes {as : List α} (h : as.length ≤ cap) : runIn cap (as.map some) = as := by
  induction as using List.reverseRecOn with
  | nil => rfl
  | append_singleton as a ih =>
    rw [List.length_append, List.length_singleton] at h
    rw [List.map_append, List.map_singleton, runIn_snoc, ih (by omega), applyIn, if_pos (by omega)]

end CoeleoOs.Lib.BoundedStack
