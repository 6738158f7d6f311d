import Mathlib.Data.List.Basic
import Mathlib.Data.UInt
import Mathlib.Tactic.Ring

/-!
# Block commands

`read_blocks` and `write_blocks` of the USB stick and of an AHCI disk cut a
transfer into commands of at most eight sectors. A command is logged as the bytes
that reach the device (the command block wrapper, the command FIS) with the part
of the caller's buffer it moves. `ok i` says whether the device completes the
`i`-th command of a call; the call returns at the first failure. The kernel is
built with wrapping arithmetic.
-/

namespace CoeleoOs.Fs

abbrev sectorSize : ℕ := 512
abbrev chunk : ℕ := 8 * sectorSize

structure Cmd where
  frame : List UInt8
  off : ℕ
  len : ℕ
  deriving DecidableEq

def blockLoop (enc : ℕ → ℕ → ℕ → ℕ → List UInt8) (ok : ℕ → Bool) (len : ℕ) :
    ℕ → ℕ → ℕ → ℕ → List Cmd × Bool
  | 0, _, _, _ => ([], true)
  | fuel + 1, i, done, lba =>
    if done < len then
      let n := min (len - done) chunk
      let blocks := n / sectorSize % 2 ^ 16
      let cmd : Cmd := ⟨enc i lba blocks n, done, n⟩
      if ok i then
        let r := blockLoop enc ok len fuel (i + 1) (done + n) ((lba + blocks) % 2 ^ 64)
        (cmd :: r.1, r.2)
      else ([cmd], false)
    else ([], true)

-- A write of nothing is an error, a read of nothing is not.
def transfer (enc : ℕ → ℕ → ℕ → ℕ → List UInt8) (allowEmpty : Bool) (ok : ℕ → Bool)
    (start : UInt64) (len : ℕ) : List Cmd × Bool :=
  if (allowEmpty = false ∧ len = 0) ∨ len % sectorSize ≠ 0 then ([], false)
  else blockLoop enc ok len len 0 0 start.toNat

def beByte (x k : ℕ) : UInt8 := UInt8.ofNat (x >>> (8 * k))

namespace UsbMsc

def cdb10 (op : UInt8) (lba blocks : ℕ) : List UInt8 :=
  let l := lba % 2 ^ 32
  [op, 0, beByte l 3, beByte l 2, beByte l 1, beByte l 0, 0, beByte blocks 1, beByte blocks 0,
    0, 0, 0, 0, 0, 0, 0]

def cdbRead10 : ℕ → ℕ → List UInt8 := cdb10 0x28
def cdbWrite10 : ℕ → ℕ → List UInt8 := cdb10 0x2A

def leWord (x : ℕ) : List UInt8 := [beByte x 0, beByte x 1, beByte x 2, beByte x 3]

def cbwSig : ℕ := 0x43425355

def cbw (tag : ℕ) (cdb : List UInt8) (len : ℕ) (din : Bool) (cblen : UInt8) : List UInt8 :=
  leWord cbwSig ++ leWord tag ++ leWord len ++ [if din then 0x80 else 0, 0, cblen] ++ cdb

def readBlocks (tag : ℕ) : (ℕ → Bool) → UInt64 → ℕ → List Cmd × Bool :=
  transfer (fun i lba blocks n => cbw (tag + i) (cdbRead10 lba blocks) n true 10) true

def writeBlocks (tag : ℕ) : (ℕ → Bool) → UInt64 → ℕ → List Cmd × Bool :=
  transfer (fun i lba blocks n => cbw (tag + i) (cdbWrite10 lba blocks) n false 10) false

end UsbMsc

namespace Ahci

def ataReadDmaExt : UInt8 := 0x25
def ataWriteDmaExt : UInt8 := 0x35

def fis (cmd : UInt8) (lba count : ℕ) : List UInt8 :=
  [0x27, 0x80, cmd, 0, beByte lba 0, beByte lba 1, beByte lba 2, 0x40, beByte lba 3, beByte lba 4,
    beByte lba 5, 0, beByte count 0, beByte count 1, 0, 0, 0, 0, 0, 0]

def readBlocks : (ℕ → Bool) → UInt64 → ℕ → List Cmd × Bool :=
  transfer (fun _ lba count _ => fis ataReadDmaExt lba count) true

def writeBlocks : (ℕ → Bool) → UInt64 → ℕ → List Cmd × Bool :=
  transfer (fun _ lba count _ => fis ataWriteDmaExt lba count) false

end Ahci

abbrev Decoder := List UInt8 → Option (UInt8 × ℕ × ℕ)

def beNat (bs : List UInt8) : ℕ := bs.foldl (fun acc b => 256 * acc + b.toNat) 0

def scsiRange : Decoder := fun p =>
  match p.drop 15 with
  | [op, _, l3, l2, l1, l0, _, c1, c0, _, _, _, _, _, _, _] =>
    some (op, beNat [l3, l2, l1, l0], beNat [c1, c0])
  | _ => none

def ataRange : Decoder
  | [_, _, op, _, l0, l1, l2, _, l3, l4, l5, _, c0, c1, _, _, _, _, _, _] =>
    some (op, beNat [l5, l4, l3, l2, l1, l0], beNat [c1, c0])
  | _ => none

def Cmd.placed (dec : Decoder) (op : UInt8) (c : Cmd) : List (ℕ × ℕ) :=
  match dec c.frame with
  | some (op', lba, count) =>
    if op' = op ∧ c.len = count * sectorSize then
      (List.range count).map fun j => (lba + j, c.off + j * sectorSize)
    else []
  | none => []

/-- Every sector from `start` on, once, in order and at its place in the buffer. -/
def Covers (dec : Decoder) (op : UInt8) (start count : ℕ) (cmds : List Cmd) : Prop :=
  cmds.flatMap (Cmd.placed dec op) = (List.range count).map fun j => (start + j, j * sectorSize)

theorem beByte_toNat (x k : ℕ) : (beByte x k).toNat = x / 2 ^ (8 * k) % 256 := by
  simp [beByte, Nat.shiftRight_eq_div_pow]

theorem scsiRange_cbw (tag len lba blocks : ℕ) (din : Bool) (op : UInt8) (hb : blocks < 2 ^ 16) :
    scsiRange (UsbMsc.cbw tag (UsbMsc.cdb10 op lba blocks) len din 10) =
      some (op, lba % 2 ^ 32, blocks) := by
  have hl : lba % 2 ^ 32 < 2 ^ 32 := Nat.mod_lt _ (by decide)
  simp only [scsiRange, UsbMsc.cbw, UsbMsc.leWord, UsbMsc.cdb10, List.cons_append, List.nil_append,
    List.drop_succ_cons, List.drop_zero, beNat, List.foldl_cons, List.foldl_nil, beByte_toNat]
  congr 3 <;> omega

theorem ataRange_fis (lba count : ℕ) (op : UInt8) (hc : count < 2 ^ 16) :
    ataRange (Ahci.fis op lba count) = some (op, lba % 2 ^ 48, count) := by
  simp only [ataRange, Ahci.fis, beNat, List.foldl_cons, List.foldl_nil, beByte_toNat]
  congr 3 <;> omega

section Loop

variable {enc : ℕ → ℕ → ℕ → ℕ → List UInt8} {dec : Decoder} {op : UInt8} {B : ℕ} {ok : ℕ → Bool}

theorem blockLoop_of_ok {len fuel i done lba : ℕ}
    (h : (blockLoop enc ok len fuel i done lba).2 = true) :
    blockLoop enc ok len fuel i done lba = blockLoop enc (fun _ => true) len fuel i done lba := by
  induction fuel generalizing i done lba with
  | zero => rfl
  | succ fuel ih =>
    by_cases hd : done < len
    · by_cases hi : ok i = true
      · simp only [blockLoop, hd, hi, if_true] at h ⊢
        rw [ih h]
      · simp [blockLoop, hd, hi] at h
    · simp [blockLoop, hd]

theorem blockLoop_true {len fuel i done lba : ℕ} :
    (blockLoop enc (fun _ => true) len fuel i done lba).2 = true := by
  induction fuel generalizing i done lba with
  | zero => rfl
  | succ fuel ih =>
    by_cases hd : done < len
    · simp only [blockLoop, hd, if_true]
      exact ih
    · simp [blockLoop, hd]

theorem range_split {rem b s done : ℕ} (hb : b ≤ rem) :
    ((List.range rem).map fun j => (s + j, done + j * sectorSize)) =
      ((List.range b).map fun j => (s + j, done + j * sectorSize)) ++
        (List.range (rem - b)).map fun j =>
          (s + b + j, done + b * sectorSize + j * sectorSize) := by
  rw [show rem = b + (rem - b) by omega, List.range_add, List.map_append, List.map_map]
  simp only [Nat.add_sub_cancel_left]
  congr 2
  funext j
  simp only [Function.comp, Prod.mk.injEq]
  constructor
  · omega
  · ring

theorem append_eq_iff {α : Type*} {a b c d : List α} (h : a.length = b.length) :
    a ++ c = b ++ d ↔ a = b ∧ c = d := by
  constructor
  · intro he
    exact List.append_inj he h
  · rintro ⟨rfl, rfl⟩
    rfl

theorem placed_eq_iff (hpos : 0 < B) (hB : B ≤ 2 ^ 64) {c : Cmd} {s b : ℕ} (hb : 0 < b)
    (hdec : dec c.frame = some (op, s % 2 ^ 64 % B, b)) (hlen : c.len = b * sectorSize) :
    c.placed dec op = ((List.range b).map fun j => (s + j, c.off + j * sectorSize)) ↔ s < B := by
  simp only [Cmd.placed, hdec, hlen, and_self, if_true]
  constructor
  · intro he
    have hfirst := congrArg (fun l => l[0]?) he
    simp only [List.getElem?_map, List.getElem?_range hb, Option.map_some, Option.some.injEq,
      Prod.mk.injEq, Nat.add_zero] at hfirst
    have := Nat.mod_lt (s % 2 ^ 64) hpos
    omega
  · intro hs
    rw [Nat.mod_eq_of_lt (by omega : s < 2 ^ 64), Nat.mod_eq_of_lt hs]

theorem blockLoop_placed_iff (h0 : 0 < B) (hB : B ≤ 2 ^ 64)
    (henc : ∀ i lba blocks n, blocks < 2 ^ 16 → dec (enc i lba blocks n) =
      some (op, lba % B, blocks)) {len fuel : ℕ} (i done s : ℕ) (hfuel : len ≤ done + fuel) (hlen :
      len % sectorSize = 0) (hdone :
      done % sectorSize = 0) : (blockLoop enc (fun _ => true) len fuel i done
        (s % 2 ^ 64)).1.flatMap (Cmd.placed dec op) =
          ((List.range ((len - done) / sectorSize)).map fun j => (s + j, done + j * sectorSize)) ↔
      len ≤ done ∨ s + 8 * (((len - done) / sectorSize - 1) / 8) < B := by
  induction fuel generalizing i done s with
  | zero =>
    have hend : len - done = 0 := by omega
    simp [blockLoop, hend]
    omega
  | succ fuel ih =>
    by_cases hd : done < len
    · obtain ⟨rem, hrem⟩ : ∃ rem, len - done = rem * sectorSize := by
        refine ⟨(len - done) / sectorSize, ?_⟩
        simp only [sectorSize] at *
        omega
      have hpos : 0 < rem := by
        rcases Nat.eq_zero_or_pos rem with hz | hpos
        · simp [hz] at hrem
          omega
        · exact hpos
      have hn : min (len - done) chunk = min rem 8 * sectorSize := by
        simp only [chunk, sectorSize] at *
        omega
      have hblocks : min (len - done) chunk / sectorSize % 2 ^ 16 = min rem 8 := by
        rw [hn, Nat.mul_div_cancel _ (by decide), Nat.mod_eq_of_lt (by omega)]
      have hnext : (s % 2 ^ 64 + min rem 8) % 2 ^ 64 = (s + min rem 8) % 2 ^ 64 := by omega
      have hleft : (len - (done + min rem 8 * sectorSize)) / sectorSize = rem - min rem 8 := by
        simp only [sectorSize] at *
        omega
      have hih := ih (i + 1) (done + min rem 8 * sectorSize) (s + min rem 8)
        (by simp only [sectorSize] at *; omega) (by simp only [sectorSize] at *; omega)
      rw [hleft] at hih
      rw [hrem, Nat.mul_div_cancel _ (by decide), range_split (Nat.min_le_left rem 8)]
      simp only [blockLoop, hd, if_true, hblocks, hnext, List.flatMap_cons]
      rw [hn, append_eq_iff (by simp [Cmd.placed, henc _ _ _ _ (by omega : min rem 8 < 2 ^ 16)]),
        hih, placed_eq_iff h0 hB (by omega) (henc _ _ _ _ (by omega)) rfl]
      simp only [sectorSize] at *
      omega
    · have hend : len - done = 0 := by omega
      simp [blockLoop, hd, hend]
      omega

theorem blockLoop_covers_iff (h0 : 0 < B) (hB : B ≤ 2 ^ 64)
    (henc : ∀ i lba blocks n, blocks < 2 ^ 16 → dec (enc i lba blocks n) =
      some (op, lba % B, blocks)) {len : ℕ} (start : UInt64) (hlen : len % sectorSize = 0) :
    (∀ ok, (blockLoop enc ok len len 0 0 start.toNat).2 = true →
        Covers dec op start.toNat (len / sectorSize) (blockLoop enc ok len len 0 0 start.toNat).1) ↔
      len = 0 ∨ start.toNat + 8 * ((len / sectorSize - 1) / 8) < B := by
  have hplaced := blockLoop_placed_iff h0 hB henc 0 0 start.toNat
    (show len ≤ 0 + len by omega) hlen (show 0 % sectorSize = 0 from rfl)
  rw [Nat.mod_eq_of_lt start.toNat_lt] at hplaced
  simp only [Nat.sub_zero, Nat.zero_add, Nat.le_zero] at hplaced
  rw [← hplaced]
  constructor
  · intro h
    exact h _ blockLoop_true
  · intro h ok hok
    rw [blockLoop_of_ok hok]
    exact h

end Loop

/-- Whatever the device answers, a transfer that succeeds has moved the sectors asked for. -/
def Exact (dec : Decoder) (op : UInt8) (f : (ℕ → Bool) → UInt64 → ℕ → List Cmd × Bool)
    (start : UInt64) (len : ℕ) : Prop :=
  ∀ ok, (f ok start len).2 = true →
    Covers dec op start.toNat (len / sectorSize) (f ok start len).1

/-- The buffer is refused or empty, or the last command starts below `2 ^ bits`. -/
def FitsLba (bits : ℕ) (start : UInt64) (len : ℕ) : Prop :=
  len % sectorSize ≠ 0 ∨ len = 0 ∨ start.toNat + 8 * ((len / sectorSize - 1) / 8) < 2 ^ bits

theorem transfer_exact_iff {enc : ℕ → ℕ → ℕ → ℕ → List UInt8} {dec : Decoder} {op : UInt8}
    {bits : ℕ} (hbits : bits ≤ 64) (henc : ∀ i lba blocks n, blocks < 2 ^ 16 →
      dec (enc i lba blocks n) = some (op, lba % 2 ^ bits, blocks))
    (allowEmpty : Bool) (start : UInt64) (len : ℕ) :
    Exact dec op (transfer enc allowEmpty) start len ↔ FitsLba bits start len := by
  by_cases hlen : len % sectorSize = 0
  · by_cases hempty : allowEmpty = false ∧ len = 0
    · simp [Exact, FitsLba, transfer, hempty]
    · simp only [Exact, FitsLba, transfer, hlen, hempty, ne_eq, not_true_eq_false, or_self,
        if_false, false_or]
      exact blockLoop_covers_iff (Nat.two_pow_pos bits) (Nat.pow_le_pow_right (by decide) hbits)
        henc start hlen
  · simp [Exact, FitsLba, transfer, hlen]

abbrev UsbMsc.ReadExact (tag : ℕ) := Exact scsiRange 0x28 (readBlocks tag)
abbrev UsbMsc.WriteExact (tag : ℕ) := Exact scsiRange 0x2A (writeBlocks tag)
abbrev Ahci.ReadExact := Exact ataRange ataReadDmaExt readBlocks
abbrev Ahci.WriteExact := Exact ataRange ataWriteDmaExt writeBlocks

theorem UsbMsc.exact_iff (tag : ℕ) (start : UInt64) (len : ℕ) :
    (ReadExact tag start len ↔ FitsLba 32 start len) ∧
      (WriteExact tag start len ↔ FitsLba 32 start len) :=
  ⟨transfer_exact_iff (by decide) (fun _ _ _ _ hb => scsiRange_cbw _ _ _ _ _ _ hb) _ start len,
    transfer_exact_iff (by decide) (fun _ _ _ _ hb => scsiRange_cbw _ _ _ _ _ _ hb) _ start len⟩

theorem Ahci.exact_iff (start : UInt64) (len : ℕ) :
    (ReadExact start len ↔ FitsLba 48 start len) ∧ (WriteExact start len ↔ FitsLba 48 start len) :=
  ⟨transfer_exact_iff (by decide) (fun _ _ _ _ hb => ataRange_fis _ _ _ hb) _ start len,
    transfer_exact_iff (by decide) (fun _ _ _ _ hb => ataRange_fis _ _ _ hb) _ start len⟩

/-- Each backend addresses the sectors it was asked for exactly while its encoding holds them. -/
theorem block_addressing_iff (tag : ℕ) (start : UInt64) (len : ℕ) :
    (UsbMsc.ReadExact tag start len ∧ UsbMsc.WriteExact tag start len ↔ FitsLba 32 start len) ∧
      (Ahci.ReadExact start len ∧ Ahci.WriteExact start len ↔ FitsLba 48 start len) := by
  obtain ⟨hur, huw⟩ := UsbMsc.exact_iff tag start len
  obtain ⟨har, haw⟩ := Ahci.exact_iff start len
  rw [hur, huw, har, haw]
  exact ⟨and_self_iff, and_self_iff⟩

-- Sector `2 ^ 32` of a stick and sector `2 ^ 48` of a disk are written as sector zero.
theorem block_addressing_wraps : ¬ UsbMsc.WriteExact 1 0x100000000 512 ∧
    ¬ Ahci.WriteExact 0x1000000000000 512 := by
  rw [(UsbMsc.exact_iff _ _ _).2, (Ahci.exact_iff _ _).2]
  simp [FitsLba]

end CoeleoOs.Fs
