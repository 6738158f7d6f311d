import Mathlib.Data.List.Basic
import Mathlib.Data.List.TakeWhile
import Mathlib.Data.UInt

/-!
# Chains of records that begin with their length

A scan goes from record to record through the first bytes of a buffer and hands each of them to
a function that reads the buffer itself. It is the fold of the records; in the second part
records stand in sections, each opened by a header.
-/

namespace CoeleoOs.Lib.RecordChain

def byteAt (bs : List UInt8) (total j : ℕ) : Option UInt8 := if j < total then bs[j]? else none

/-- The byte at `j` of a record. -/
def byte (r : List UInt8) (j : ℕ) : UInt8 := r.getD j 0

def chain (bs : List UInt8) : List (List UInt8) :=
  match bs with
  | [] => []
  | n :: rest =>
    if 2 ≤ n.toNat ∧ n.toNat ≤ rest.length + 1
      then (n :: rest).take n.toNat :: chain (rest.drop (n.toNat - 1))
    else []
termination_by bs.length
decreasing_by
  rw [List.length_drop, List.length_cons]
  omega

def scan {σ : Type*} (bs : List UInt8) (total : ℕ) (f : σ → ℕ → ℕ → Option σ) : ℕ → ℕ → σ → Option σ
  | 0, _, _ => none
  | fuel + 1, i, s =>
    if i + 2 ≤ total then
      (byteAt bs total i).bind fun len =>
        if len.toNat < 2 ∨ total < i + len.toNat then some s
        else (f s i len.toNat).bind (scan bs total f fuel (i + len.toNat))
    else some s

section Scan

variable {σ : Type*} {bs : List UInt8} {total i len j : ℕ}

theorem byteAt_eq (hj : j < total) : byteAt bs total j = bs[j]? := if_pos hj

theorem byteAt_record (hlen : total ≤ bs.length) (hrec : i + len ≤ total) (hj : j < len) :
    byteAt bs total (i + j) = some (byte ((bs.drop i).take len) j) := by
  rw [byteAt_eq (by omega), List.getElem?_eq_getElem (by omega), byte, List.getD_eq_getElem?_getD,
    List.getElem?_take_of_lt hj, List.getElem?_drop, List.getElem?_eq_getElem (by omega)]
  rfl

theorem length_record (hlen : total ≤ bs.length) (hrec : i + len ≤ total) :
    ((bs.drop i).take len).length = len := by
  rw [List.length_take, List.length_drop]
  omega

theorem exists_record (hlen : total ≤ bs.length) (hrec : i + len ≤ total) :
    ∃ r, (bs.drop i).take len = r ∧ r.length = len ∧ ∀ j < len, byteAt bs total (i + j) =
      some (byte r j) :=
  ⟨_, rfl, length_record hlen hrec, fun _ hj => byteAt_record hlen hrec hj⟩

theorem chain_cons {n : UInt8} {rest : List UInt8} (h : 2 ≤ n.toNat ∧ n.toNat ≤ rest.length + 1) :
    chain (n :: rest) = (n :: rest).take n.toNat :: chain ((n :: rest).drop n.toNat) := by
  obtain ⟨k, hk⟩ : ∃ k, n.toNat = k + 1 := ⟨n.toNat - 1, by omega⟩
  rw [chain, if_pos h, hk]
  rfl

theorem chain_stop {n : UInt8} {rest : List UInt8}
    (h : ¬(2 ≤ n.toNat ∧ n.toNat ≤ rest.length + 1)) : chain (n :: rest) = [] := by
  rw [chain, if_neg h]

theorem chain_short (h : bs.length < 2) : chain bs = [] := by
  cases bs with
  | nil => rw [chain]
  | cons n rest =>
    rw [List.length_cons] at h
    exact chain_stop (by omega)

theorem scan_eq {f : σ → ℕ → ℕ → Option σ} {g : σ → List UInt8 → σ} (hlen : total ≤ bs.length)
    (hf : ∀ s i len, 2 ≤ len → i + len ≤ total → f s i len = some (g s ((bs.drop i).take len)))
    (fuel i : ℕ) (s : σ) (hfuel : total ≤ fuel + i) :
    scan bs total f (fuel + 1) i s = some ((chain ((bs.take total).drop i)).foldl g s) := by
  induction fuel generalizing i s with
  | zero =>
    rw [scan, if_neg (by omega), chain_short, List.foldl_nil]
    rw [List.length_drop, List.length_take]
    omega
  | succ fuel ih =>
    rw [scan]
    split
    · next hi =>
      have hcut : i < (bs.take total).length := by
        rw [List.length_take]
        omega
      have hcons := List.drop_eq_getElem_cons hcut
      rw [List.getElem_take] at hcons
      have hrest : ((bs.take total).drop (i + 1)).length + 1 = total - i := by
        rw [List.length_drop, List.length_take]
        omega
      rw [byteAt_eq (by omega), List.getElem?_eq_getElem (by omega), Option.bind_some]
      generalize hn : bs[i] = n at hcons ⊢
      split
      · rw [hcons, chain_stop (by omega), List.foldl_nil]
      · next hfit =>
        have hrec : 2 ≤ n.toNat ∧ n.toNat ≤ ((bs.take total).drop (i + 1)).length + 1 := by omega
        have htake : ((bs.take total).drop i).take n.toNat = (bs.drop i).take n.toNat := by
          rw [List.drop_take, List.take_take, min_eq_left (by omega)]
        rw [hf s i n.toNat (by omega) (by omega), Option.bind_some, ih _ _ (by omega)]
        rw [hcons, chain_cons hrec, List.foldl_cons, ← hcons, htake, List.drop_drop]
    · rw [chain_short, List.foldl_nil]
      rw [List.length_drop, List.length_take]
      omega

end Scan

section Sections

variable {α σ τ β : Type*} {opens wanted : α → Bool}

def sections (opens : α → Bool) : List α → List (α × List α)
  | [] => []
  | r :: rs =>
    if opens r then (r, rs.takeWhile fun x => !opens x) :: sections opens rs else sections opens rs

def under (opens wanted : α → Bool) : Bool → List α → List α
  | _, [] => []
  | want, r :: rs =>
    if opens r then under opens wanted (wanted r) rs
    else if want then r :: under opens wanted want rs
    else under opens wanted want rs

theorem foldl_under {g : σ → α → σ} {want : σ → Bool} {val : σ → τ} {h : τ → α → τ}
    (hopen : ∀ s r, opens r = true → want (g s r) = wanted r ∧ val (g s r) = val s)
    (hrec : ∀ s r, opens r = false → want (g s r) = want s ∧ val (g s r) = if want s
      then h (val s) r else val s) (rs : List α) (s : σ) : val (rs.foldl g s) =
        (under opens wanted (want s) rs).foldl h (val s) := by
  induction rs generalizing s with
  | nil => rfl
  | cons r rs ih =>
    rw [List.foldl_cons, ih, under]
    cases hr : opens r with
    | true =>
      obtain ⟨hwant, hval⟩ := hopen s r hr
      rw [hwant, hval, if_pos rfl]
    | false =>
      obtain ⟨hwant, hval⟩ := hrec s r hr
      rw [hwant, hval, if_neg Bool.false_ne_true]
      cases want s <;> rfl

theorem foldl_last {g : σ → α → σ} {val : σ → β} {p : α → Bool} {v : α → β}
    (hg : ∀ s r, val (g s r) = if p r then v r else val s) (rs : List α) (s : σ) :
    val (rs.foldl g s) = ((rs.filter p).getLast?.map v).getD (val s) := by
  induction rs using List.reverseRecOn with
  | nil => rfl
  | append_singleton rs r ih =>
    rw [List.foldl_append, List.foldl_cons, List.foldl_nil, hg, ih, List.filter_append,
      List.getLast?_append]
    cases hr : p r <;> simp [hr]

end Sections

end CoeleoOs.Lib.RecordChain
