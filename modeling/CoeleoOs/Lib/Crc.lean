import Mathlib.Data.List.Basic
import Mathlib.Data.UInt
import Mathlib.Logic.Function.Iterate

/-!
# Reflected cyclic redundancy checks

The check as a shift register of `w` bits: each message bit is added to the lowest bit
of the register, which then moves down by one. A byte can be added at once and the
register moved eight times, because a move is linear.
-/

namespace CoeleoOs.Lib.Crc

variable {w : ℕ} (poly : BitVec w)

def shift (c : BitVec w) : BitVec w := if c.getLsbD 0 then (c >>> 1) ^^^ poly else c >>> 1

def addBit (c : BitVec w) (b : Bool) : BitVec w :=
  shift poly (c ^^^ if b then BitVec.twoPow w 0 else 0)

def run (c : BitVec w) (bits : List Bool) : BitVec w := bits.foldl (addBit poly) c

def byteBits (b : UInt8) : List Bool := (List.range 8).map fun i => b.toBitVec.getLsbD i

def messageBits (bytes : List UInt8) : List Bool := bytes.flatMap byteBits

variable {poly}

theorem shift_xor (a b : BitVec w) : shift poly (a ^^^ b) = shift poly a ^^^ shift poly b := by
  have hcancel : ∀ x y : BitVec w, x ^^^ poly ^^^ (y ^^^ poly) = x ^^^ y := by
    intro x y
    rw [BitVec.xor_assoc, ← BitVec.xor_assoc poly, BitVec.xor_comm poly, BitVec.xor_assoc,
      BitVec.xor_self, BitVec.xor_zero]
  simp only [shift, BitVec.getLsbD_xor, BitVec.ushiftRight_xor_distrib]
  cases a.getLsbD 0 <;> cases b.getLsbD 0
  · rfl
  · simp [BitVec.xor_assoc]
  · simp only [Bool.xor_false, if_true, Bool.false_eq_true, if_false]
    rw [BitVec.xor_assoc, BitVec.xor_comm _ poly, ← BitVec.xor_assoc]
  · simp [hcancel]

theorem shift_iterate_xor (n : ℕ) (a b : BitVec w) :
    (shift poly)^[n] (a ^^^ b) = (shift poly)^[n] a ^^^ (shift poly)^[n] b := by
  induction n generalizing a b with
  | zero => rfl
  | succ n ih =>
    rw [Function.iterate_succ_apply, Function.iterate_succ_apply, Function.iterate_succ_apply,
      shift_xor, ih]

theorem shift_iterate_twoPow {n : ℕ} (hn : n < w) :
    (shift poly)^[n] (BitVec.twoPow w n) = BitVec.twoPow w 0 := by
  induction n with
  | zero => rfl
  | succ n ih =>
    have hlow : (BitVec.twoPow w (n + 1)).getLsbD 0 = false := by
      simp [BitVec.getLsbD_twoPow]
    have hdown : BitVec.twoPow w (n + 1) >>> 1 = BitVec.twoPow w n := by
      apply BitVec.eq_of_getLsbD_eq
      intro i hi
      have hnext : n + 1 = 1 + i ↔ n = i := by omega
      simp only [BitVec.getLsbD_ushiftRight, BitVec.getLsbD_twoPow, hnext, show n < w by omega, hn]
    rw [Function.iterate_succ_apply, shift, hlow, if_neg (by decide), hdown]
    exact ih (by omega)

theorem shift_iterate_zero (n : ℕ) : (shift poly)^[n] (0 : BitVec w) = 0 := by
  induction n with
  | zero => rfl
  | succ n ih =>
    rw [Function.iterate_succ_apply]
    have hzero : shift poly (0 : BitVec w) = 0 := by simp [shift]
    rw [hzero, ih]

theorem run_append (c : BitVec w) (xs ys : List Bool) :
    run poly c (xs ++ ys) = run poly (run poly c xs) ys :=
  List.foldl_append

def bitOf (x : BitVec w) (n : ℕ) : BitVec w := if x.getLsbD n then BitVec.twoPow w n else 0

def low (x : BitVec w) : ℕ → BitVec w
  | 0 => 0
  | n + 1 => low x n ^^^ bitOf x n

theorem getLsbD_bitOf (x : BitVec w) (n : ℕ) {i : ℕ} (hi : i < w) :
    (bitOf x n).getLsbD i = (decide (n = i) && x.getLsbD i) := by
  rw [bitOf]
  split
  · rename_i hx
    rw [BitVec.getLsbD_twoPow]
    by_cases hn : n = i
    · subst hn
      simp [hx, hi]
    · simp [hn]
  · rename_i hx
    by_cases hn : n = i
    · subst hn
      simp [hx]
    · simp [hn]

theorem getLsbD_low (x : BitVec w) (n : ℕ) {i : ℕ} (hi : i < w) :
    (low x n).getLsbD i = (decide (i < n) && x.getLsbD i) := by
  induction n with
  | zero => simp [low]
  | succ n ih =>
    rw [low, BitVec.getLsbD_xor, ih, getLsbD_bitOf x n hi]
    rcases Nat.lt_trichotomy i n with hlt | rfl | hgt
    · simp [hlt, hlt.ne', show i < n + 1 by omega]
    · simp
    · simp [hgt.ne, show ¬ i < n by omega, show ¬ i < n + 1 by omega]

theorem run_bits (c x : BitVec w) {n : ℕ} (hn : n ≤ w) :
    run poly c ((List.range n).map x.getLsbD) = (shift poly)^[n] (c ^^^ low x n) := by
  induction n with
  | zero => simp [run, low]
  | succ n ih =>
    have hbit : (shift poly)^[n] (bitOf x n) = if x.getLsbD n then BitVec.twoPow w 0 else 0 := by
      rw [bitOf]
      split
      · exact shift_iterate_twoPow (by omega)
      · exact shift_iterate_zero n
    have hmove : (shift poly)^[n] (c ^^^ low x (n + 1)) =
        (shift poly)^[n] (c ^^^ low x n) ^^^ if x.getLsbD n then BitVec.twoPow w 0 else 0 := by
      rw [low, ← BitVec.xor_assoc, shift_iterate_xor, hbit]
    rw [List.range_succ, List.map_append, run_append, ih (by omega), Function.iterate_succ_apply',
      hmove]
    rfl

theorem run_byte (poly c : BitVec w) (b : UInt8) (hw : 8 ≤ w) :
    run poly c (byteBits b) = (shift poly)^[8] (c ^^^ b.toBitVec.setWidth w) := by
  have hbits : byteBits b = (List.range 8).map (b.toBitVec.setWidth w).getLsbD := by
    refine List.map_congr_left fun i hi => ?_
    have hlt := List.mem_range.mp hi
    rw [BitVec.getLsbD_setWidth, decide_eq_true (by omega), Bool.true_and]
  have hlow : low (b.toBitVec.setWidth w) 8 = b.toBitVec.setWidth w := by
    refine BitVec.eq_of_getLsbD_eq fun i hi => ?_
    rw [getLsbD_low _ _ hi, BitVec.getLsbD_setWidth]
    by_cases h8 : i < 8
    · simp [h8]
    · rw [BitVec.getLsbD_of_ge b.toBitVec i (by omega), Bool.and_false, Bool.and_false]
  rw [hbits, run_bits _ _ hw, hlow]

end CoeleoOs.Lib.Crc
