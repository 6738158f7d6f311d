import Mathlib.Data.List.Basic

/-!
# Common prefixes

The longest common prefix of two lists and of a list of lists. A list is a prefix of it exactly
when it is one of all of them.
-/

namespace CoeleoOs.Lib

variable {α : Type*} [DecidableEq α]

def meet : List α → List α → List α
  | x :: xs, y :: ys => if x = y then x :: meet xs ys else []
  | _, _ => []

def commonPrefix : List (List α) → List α
  | [] => []
  | l :: ls => ls.foldl meet l

variable {p l a b : List α} {ls : List (List α)}

theorem prefix_meet : p <+: meet a b ↔ p <+: a ∧ p <+: b := by
  induction a generalizing p b with
  | nil =>
    rw [meet, List.prefix_nil]
    · exact ⟨fun h => ⟨h, h ▸ List.nil_prefix⟩, And.left⟩
    · exact nofun
  | cons x xs ih =>
    cases b with
    | nil =>
      rw [meet, List.prefix_nil]
      · exact ⟨fun h => ⟨h ▸ List.nil_prefix, h⟩, And.right⟩
      · exact nofun
    | cons y ys =>
      cases p with
      | nil => exact iff_of_true List.nil_prefix ⟨List.nil_prefix, List.nil_prefix⟩
      | cons z p =>
        rw [meet, List.cons_prefix_cons, List.cons_prefix_cons]
        by_cases hxy : x = y
        · rw [if_pos hxy, List.cons_prefix_cons, ih, ← hxy]
          exact and_and_left
        · rw [if_neg hxy, List.prefix_nil]
          exact iff_of_false nofun fun h => hxy (h.1.1.symm.trans h.2.1)

theorem prefix_foldl_meet : p <+: ls.foldl meet l ↔ p <+: l ∧ ∀ c ∈ ls, p <+: c := by
  induction ls generalizing l with
  | nil => exact ⟨fun h => ⟨h, nofun⟩, And.left⟩
  | cons c ls ih => rw [List.foldl_cons, ih, prefix_meet, List.forall_mem_cons, and_assoc]

theorem prefix_commonPrefix (h : ls ≠ []) : p <+: commonPrefix ls ↔ ∀ c ∈ ls, p <+: c := by
  obtain ⟨l, ls, rfl⟩ := List.exists_cons_of_ne_nil h
  rw [commonPrefix, prefix_foldl_meet, List.forall_mem_cons]

theorem commonPrefix_prefix (h : l ∈ ls) : commonPrefix ls <+: l :=
  (prefix_commonPrefix (List.ne_nil_of_mem h)).mp (List.prefix_refl _) l h

theorem eq_commonPrefix (h : ls ≠ []) (hp : ∀ c ∈ ls, p <+: c)
    (hlong : ∀ q, (∀ c ∈ ls, q <+: c) → q.length ≤ p.length) : p = commonPrefix ls :=
  ((prefix_commonPrefix h).mpr hp).eq_of_length_le (hlong _ fun _ hc => commonPrefix_prefix hc)

theorem commonPrefix_congr {ls' : List (List α)} (h : ∀ c, c ∈ ls ↔ c ∈ ls') :
    commonPrefix ls = commonPrefix ls' := by
  by_cases hne : ls = []
  · have hne' : ls' = [] := List.eq_nil_iff_forall_not_mem.mpr fun c hc => by
      rw [hne] at h
      exact List.not_mem_nil ((h c).mpr hc)
    rw [hne, hne']
  have hne' : ls' ≠ [] := fun hnil => by
    obtain ⟨c, hc⟩ := List.exists_mem_of_ne_nil ls hne
    rw [hnil] at h
    exact List.not_mem_nil ((h c).mp hc)
  refine eq_commonPrefix hne' (fun c hc => commonPrefix_prefix ((h c).mpr hc)) fun q hq => ?_
  exact ((prefix_commonPrefix hne).mpr fun c hc => hq c ((h c).mp hc)).length_le

end CoeleoOs.Lib
