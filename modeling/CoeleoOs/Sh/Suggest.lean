import CoeleoOs.Lib.Checked
import CoeleoOs.Lib.EditDistance
import CoeleoOs.Task.UserAccess
import Mathlib.Data.List.Induction

/-!
# Suggestions for a mistyped command

`levenshtein` keeps one row of the table of distances and writes over it, and `suggest_command`
takes the first of the nearest candidates.
-/

namespace CoeleoOs.Sh
open CoeleoOs.Lib.Checked (usizeMax)
open CoeleoOs.Lib.EditDistance
open CoeleoOs.Task (Bytes)

def distanceCap : ℕ := 32

abbrev DistRow := ℕ → ℕ

def startRow (bb : Bytes) : DistRow := fun j => if j ≤ bb.length then j else 0

def fillRow (x : UInt8) : ℕ → Bytes → DistRow → ℕ → DistRow
  | _, [], d, _ => d
  | j, y :: bb, d, prev =>
    let cost := if x = y then 0 else 1
    fillRow x (j + 1) bb (Function.update d j (min (min (d j + 1) (d (j - 1) + 1)) (prev + cost)))
      (d j)

def fillRows (bb : Bytes) : ℕ → Bytes → DistRow → DistRow
  | _, [], d => d
  | i, x :: ab, d => fillRows bb (i + 1) ab (fillRow x 1 bb (Function.update d 0 i) (d 0))

def levenshtein (ab bb : Bytes) : ℕ :=
  if ab = [] then bb.length
  else if bb = [] then ab.length
  else if distanceCap < ab.length ∨ distanceCap < bb.length then usizeMax
  else fillRows bb 1 ab (startRow bb) bb.length

def suggestStep (typed : Bytes) (best : ℕ × Option Bytes) (cand : Bytes) : ℕ × Option Bytes :=
  let dist := levenshtein typed cand
  if dist < best.1 then (dist, some cand) else best

def suggestCommand (typed : Bytes) (candidates : List Bytes) : Option Bytes :=
  (candidates.foldl (suggestStep typed) (3, none)).2

section Rows

variable {pre ab bb : Bytes} {x : UInt8} {d : DistRow}

def IsRow (pre bb : Bytes) (d : DistRow) : Prop :=
  ∀ j, j ≤ bb.length → d j = distance pre.reverse (bb.take j).reverse

theorem startRow_isRow (bb : Bytes) : IsRow [] bb (startRow bb) := by
  intro j hj
  rw [startRow, if_pos hj, List.reverse_nil, distance_nil_left, List.length_reverse,
    List.length_take, min_eq_left hj]

theorem distance_next {k : ℕ} {y : UInt8} {rest : Bytes} (hdrop : bb.drop k = y :: rest) :
    distance (pre ++ [x]).reverse (bb.take (k + 1)).reverse =
      min (min (distance pre.reverse (bb.take (k + 1)).reverse + 1)
        (distance (pre ++ [x]).reverse (bb.take k).reverse + 1))
          (distance pre.reverse (bb.take k).reverse + if x = y then 0 else 1) := by
  have htake : (bb.take (k + 1)).reverse = y :: (bb.take k).reverse := by
    rw [List.take_add, hdrop]
    simp
  rw [htake, List.reverse_append, List.reverse_singleton, List.singleton_append, distance_cons]

theorem fillRow_isRow {k : ℕ} {rest : Bytes} {prev : ℕ} (hdrop : bb.drop k = rest)
    (hk : k ≤ bb.length)
    (hnew : ∀ j, j ≤ k → d j = distance (pre ++ [x]).reverse (bb.take j).reverse)
    (hold : ∀ j, k < j → j ≤ bb.length → d j = distance pre.reverse (bb.take j).reverse)
    (hprev : prev = distance pre.reverse (bb.take k).reverse) :
    IsRow (pre ++ [x]) bb (fillRow x (k + 1) rest d prev) := by
  induction rest generalizing k d prev with
  | nil =>
    have hend : k = bb.length := Nat.le_antisymm hk (List.drop_eq_nil_iff.mp hdrop)
    intro j hj
    exact hnew j (hend ▸ hj)
  | cons y rest ih =>
    have hlt : k < bb.length := by
      have hlen := congrArg List.length hdrop
      rw [List.length_drop, List.length_cons] at hlen
      omega
    have hcell : min (min (d (k + 1) + 1) (d (k + 1 - 1) + 1)) (prev + if x = y then 0 else 1) =
        distance (pre ++ [x]).reverse (bb.take (k + 1)).reverse := by
      rw [distance_next hdrop, hold (k + 1) (Nat.lt_succ_self k) hlt, Nat.add_sub_cancel,
        hnew k le_rfl, hprev]
    refine ih ?_ hlt ?_ ?_ (hold (k + 1) (Nat.lt_succ_self k) hlt)
    · rw [← List.drop_drop, hdrop]
      rfl
    · intro j hj
      by_cases hjk : j = k + 1
      · subst hjk
        rw [Function.update_self]
        exact hcell
      · rw [Function.update_of_ne hjk]
        exact hnew j (by omega)
    · intro j hj hjb
      rw [Function.update_of_ne (by omega)]
      exact hold j (by omega) hjb

theorem fillRows_isRow {i : ℕ} (hi : i = pre.length + 1) (h : IsRow pre bb d) :
    IsRow (pre ++ ab) bb (fillRows bb i ab d) := by
  induction ab generalizing pre i d with
  | nil =>
    rw [List.append_nil]
    exact h
  | cons x ab ih =>
    have hzero : d 0 = distance pre.reverse (bb.take 0).reverse := h 0 (Nat.zero_le _)
    have hrow : IsRow (pre ++ [x]) bb (fillRow x (0 + 1) bb (Function.update d 0 i) (d 0)) := by
      refine fillRow_isRow List.drop_zero (Nat.zero_le _) ?_ ?_ hzero
      · intro j hj
        obtain rfl := Nat.le_zero.mp hj
        rw [Function.update_self, List.take_zero, List.reverse_nil, distance_nil_right, hi]
        simp
      · intro j hj hjb
        rw [Function.update_of_ne (by omega)]
        exact h j hjb
    rw [List.append_cons]
    refine ih ?_ hrow
    rw [List.length_append, List.length_singleton, hi]

end Rows

theorem levenshtein_eq_distance {ab bb : Bytes}
    (h : ab = [] ∨ bb = [] ∨ ab.length ≤ distanceCap ∧ bb.length ≤ distanceCap) :
    levenshtein ab bb = distance ab bb := by
  by_cases ha : ab = []
  · rw [levenshtein, if_pos ha, ha, distance_nil_left]
  by_cases hb : bb = []
  · rw [levenshtein, if_neg ha, if_pos hb, hb, distance_nil_right]
  obtain ⟨hab, hbb⟩ := (h.resolve_left ha).resolve_left hb
  have hrow : IsRow ([] ++ ab) bb (fillRows bb 1 ab (startRow bb)) :=
    fillRows_isRow rfl (startRow_isRow bb)
  have hlast := hrow bb.length le_rfl
  rw [levenshtein, if_neg ha, if_neg hb, if_neg (not_or.mpr ⟨hab.not_gt, hbb.not_gt⟩), hlast,
    List.take_length, List.nil_append, distance_reverse]

section Suggest

variable {typed c : Bytes} {cs : List Bytes}

/-- Nearer than every candidate before it, and at least as near as those behind it. -/
def FirstNearest (typed : Bytes) (cs : List Bytes) (c : Bytes) : Prop :=
  ∃ before behind, cs = before ++ c :: behind ∧
    (∀ x ∈ before, levenshtein typed c < levenshtein typed x) ∧ ∀ x ∈ behind, levenshtein typed c ≤
      levenshtein typed x

def Best (typed : Bytes) (cs : List Bytes) (best : ℕ × Option Bytes) : Prop :=
  (best = (3, none) ∧ ∀ x ∈ cs, 3 ≤ levenshtein typed x) ∨
    ∃ c, best = (levenshtein typed c, some c) ∧ levenshtein typed c < 3 ∧ FirstNearest typed cs c

theorem Best.snoc {best : ℕ × Option Bytes} (h : Best typed cs best) (c : Bytes) :
    Best typed (cs ++ [c]) (suggestStep typed best c) := by
  rcases h with ⟨rfl, hfar⟩ | ⟨b, rfl, hb, before, behind, rfl, hbefore, hbehind⟩
  · by_cases hc : levenshtein typed c < 3
    · refine .inr ⟨c, if_pos hc, hc, cs, [], rfl, fun x hx => hc.trans_le (hfar x hx), nofun⟩
    · refine .inl ⟨if_neg hc, fun x hx => ?_⟩
      rcases List.mem_append.mp hx with hx | hx
      · exact hfar x hx
      · rw [List.mem_singleton.mp hx]
        exact Nat.le_of_not_lt hc
  · by_cases hc : levenshtein typed c < levenshtein typed b
    · refine .inr ⟨c, if_pos hc, hc.trans hb, before ++ b :: behind, [], rfl, fun x hx => ?_, nofun⟩
      rcases List.mem_append.mp hx with hx | hx
      · exact hc.trans (hbefore x hx)
      rcases List.mem_cons.mp hx with rfl | hx
      · exact hc
      · exact hc.trans_le (hbehind x hx)
    · refine .inr ⟨b, if_neg hc, hb, before, behind ++ [c], by simp, hbefore, fun x hx => ?_⟩
      rcases List.mem_append.mp hx with hx | hx
      · exact hbehind x hx
      · rw [List.mem_singleton.mp hx]
        exact Nat.le_of_not_lt hc

theorem best_foldl (typed : Bytes) (cs : List Bytes) :
    Best typed cs (cs.foldl (suggestStep typed) (3, none)) := by
  induction cs using List.reverseRecOn with
  | nil => exact .inl ⟨rfl, nofun⟩
  | append_singleton cs c ih =>
    rw [List.foldl_append, List.foldl_cons, List.foldl_nil]
    exact ih.snoc c

theorem FirstNearest.le (h : FirstNearest typed cs c) :
    ∀ x ∈ cs, levenshtein typed c ≤ levenshtein typed x := by
  obtain ⟨before, behind, rfl, hbefore, hbehind⟩ := h
  intro x hx
  rcases List.mem_append.mp hx with hx | hx
  · exact (hbefore x hx).le
  rcases List.mem_cons.mp hx with rfl | hx
  · exact le_rfl
  · exact hbehind x hx

theorem FirstNearest.mem (h : FirstNearest typed cs c) : c ∈ cs := by
  obtain ⟨before, behind, rfl, -, -⟩ := h
  simp

theorem FirstNearest.eq {b : Bytes} (hb : FirstNearest typed cs b) (hc : FirstNearest typed cs c) :
    b = c := by
  have hsame : levenshtein typed b = levenshtein typed c :=
    Nat.le_antisymm (hb.le c hc.mem) (hc.le b hb.mem)
  obtain ⟨before, behind, rfl, hbefore, -⟩ := hb
  obtain ⟨before', behind', heq, hbefore', -⟩ := hc
  rcases List.append_eq_append_iff.mp heq with ⟨mid, rfl, hmid⟩ | ⟨mid, rfl, hmid⟩
  · cases mid with
    | nil => exact (List.cons.inj hmid).1
    | cons m mid =>
      obtain ⟨rfl, -⟩ := List.cons.inj hmid
      exact absurd (hbefore' b (by simp)) (by omega)
  · cases mid with
    | nil => exact (List.cons.inj hmid).1.symm
    | cons m mid =>
      obtain ⟨rfl, -⟩ := List.cons.inj hmid
      exact absurd (hbefore c (by simp)) (by omega)

theorem suggestCommand_some :
    suggestCommand typed cs = some c ↔ FirstNearest typed cs c ∧ levenshtein typed c ≤ 2 := by
  rw [suggestCommand]
  rcases best_foldl typed cs with ⟨hbest, hfar⟩ | ⟨b, hbest, hb, hnearest⟩
  · rw [hbest]
    refine iff_of_false nofun ?_
    rintro ⟨hc, hle⟩
    have := hfar c hc.mem
    omega
  · rw [hbest]
    constructor
    · intro h
      obtain rfl := Option.some.inj h
      exact ⟨hnearest, Nat.le_of_lt_succ hb⟩
    · rintro ⟨hc, -⟩
      exact congrArg some (hnearest.eq hc)

theorem suggestCommand_none :
    suggestCommand typed cs = none ↔ ∀ x ∈ cs, 2 < levenshtein typed x := by
  rw [suggestCommand]
  rcases best_foldl typed cs with ⟨hbest, hfar⟩ | ⟨b, hbest, hb, hnearest⟩
  · rw [hbest]
    exact iff_of_true rfl hfar
  · rw [hbest]
    refine iff_of_false nofun fun h => ?_
    have := h b hnearest.mem
    omega

end Suggest

/-- `levenshtein` counts the least edits, and the suggestion is the first of the nearest
candidates when it is near enough. -/
theorem levenshtein_suggest :
    (∀ a b : Bytes, a = [] ∨ b = [] ∨ a.length ≤ distanceCap ∧ b.length ≤ distanceCap →
      IsLeast {n | Edits n a b} (levenshtein a b)) ∧
    ∀ (t : Bytes) (cs : List Bytes),
      (∀ c, suggestCommand t cs = some c ↔ FirstNearest t cs c ∧ levenshtein t c ≤ 2) ∧
        (suggestCommand t cs = none ↔ ∀ x ∈ cs, 2 < levenshtein t x) := by
  refine ⟨fun a b h => ?_, fun t cs => ⟨fun c => suggestCommand_some, suggestCommand_none⟩⟩
  rw [levenshtein_eq_distance h]
  exact distance_isLeast a b

def slText : Bytes := [0x73, 0x6C]
def lsText : Bytes := [0x6C, 0x73]
def pwdText : Bytes := [0x70, 0x77, 0x64]
def psText : Bytes := [0x70, 0x73]

theorem levenshtein_suggest_ls : IsLeast {n | Edits n slText lsText} 2 ∧
    suggestCommand slText [pwdText, lsText, psText] = some lsText := by
  have hdist : levenshtein slText lsText = 2 := by decide
  refine ⟨hdist ▸ levenshtein_suggest.1 slText lsText (.inr (.inr (by decide))), ?_⟩
  exact ((levenshtein_suggest.2 _ _).1 _).mpr ⟨⟨[pwdText], [psText], rfl, by decide, by decide⟩,
    by decide⟩

end CoeleoOs.Sh
