import CoeleoOs.Fs.FatLoop

/-!
# A volume is a byte array with a cursor

On a disk without errors every script of seeks, reads and writes answers as on a
flat array, leaves the array's bytes on the disk and changes no other byte.
-/

namespace CoeleoOs.Fs

structure Flat where
  bytes : List UInt8
  pos : ℕ

namespace Flat

def target (f : Flat) : SeekFrom → ℤ
  | .start n => n.toNat
  | .current off => f.pos + off.toInt
  | .fromEnd off => f.bytes.length + off.toInt

def step (f : Flat) : FatOp → FatOut × Flat
  | .seek p =>
    if f.target p < 0 then (.err, f)
    else
      let pos := min (f.target p).toNat f.bytes.length
      (.pos pos, { f with pos := pos })
  | .read n =>
    let out := (f.bytes.drop f.pos).take n
    (.data out, { f with pos := f.pos + out.length })
  | .write src =>
    let k := min src.length (f.bytes.length - f.pos)
    (.wrote k, ⟨f.bytes.take f.pos ++ src.take k ++ f.bytes.drop (f.pos + k), f.pos + k⟩)

end Flat

open FatDisk

def devBytes (disk : ℕ → Sector) (a n : ℕ) : List UInt8 :=
  (List.range n).map fun i => devByte disk (a + i)

theorem devBytes_length (disk : ℕ → Sector) (a n : ℕ) : (devBytes disk a n).length = n := by
  simp [devBytes]

theorem devBytes_getElem (disk : ℕ → Sector) (a n i : ℕ) (h : i < (devBytes disk a n).length) :
    (devBytes disk a n)[i] = devByte disk (a + i) := by
  simp [devBytes]

theorem devBytes_drop_take (disk : ℕ → Sector) (a n i k : ℕ) :
    ((devBytes disk a n).drop i).take k = devBytes disk (a + i) (min k (n - i)) := by
  refine List.ext_getElem (by simp [devBytes_length]) ?_
  intro j h _
  simp [devBytes_getElem, Nat.add_assoc]

theorem getElem?_overwrite {bs src : List UInt8} {p k : ℕ} (hk : k ≤ src.length)
    (hp : p + k ≤ bs.length) (i : ℕ) :
    (bs.take p ++ src.take k ++ bs.drop (p + k))[i]? =
      if p ≤ i ∧ i < p + k then some (src.getD (i - p) 0) else bs[i]? := by
  have hlen : (bs.take p).length = p := by rw [List.length_take]; omega
  have hmid : (src.take k).length = k := by rw [List.length_take]; omega
  rw [List.getElem?_append, List.getElem?_append, List.length_append, hlen, hmid]
  by_cases hfirst : i < p
  · rw [if_pos (by omega), if_pos hfirst, if_neg (by omega), List.getElem?_take_of_lt hfirst]
  · by_cases hsecond : i < p + k
    · rw [if_pos hsecond, if_neg hfirst, if_pos (by omega), List.getElem?_take_of_lt (by omega),
        List.getD_eq_getElem?_getD, List.getElem?_eq_getElem (by omega), Option.getD_some]
    · rw [if_neg hsecond, if_neg (by omega), List.getElem?_drop]
      congr 1
      omega

theorem FatDisk.bytes_eq_devBytes {d : FatDisk} (hwrap : d.startLba + d.size / sectorSize < 2 ^ 64)
    {i n : ℕ} (h : i + n ≤ d.size) :
    d.bytes i n = devBytes d.disk (d.startLba * sectorSize + i) n := by
  apply List.map_congr_left
  intro j hj
  have hj := List.mem_range.mp hj
  have hle : (i + j) / sectorSize ≤ d.size / sectorSize := Nat.div_le_div_right (by omega)
  have hdiv :
      (d.startLba * sectorSize + i + j) / sectorSize = d.startLba + (i + j) / sectorSize := by
    simp only [sectorSize]
    omega
  have hmod : (d.startLba * sectorSize + i + j) % sectorSize = (i + j) % sectorSize := by
    simp only [sectorSize]
    omega
  rw [byteAt, devByte, sectorAt, Nat.mod_eq_of_lt (by omega), hdiv, hmod]

structure Holds (disk₀ : ℕ → Sector) (start size : ℕ) (d : FatDisk) (f : Flat) : Prop where
  start_eq : d.startLba = start
  size_eq : d.size = size
  pos_eq : f.pos = d.pos
  pos_le : d.pos ≤ d.size
  coherent : d.Coherent
  contents : f.bytes = devBytes d.disk (start * sectorSize) size
  outside : ∀ a, ¬(start * sectorSize ≤ a ∧ a < start * sectorSize + size) →
    devByte d.disk a = devByte disk₀ a

section Refinement

variable {disk₀ : ℕ → Sector} {start size : ℕ} {d : FatDisk} {f : Flat} {io : ℕ → Io}

theorem Holds.length (h : Holds disk₀ start size d f) : f.bytes.length = d.size := by
  rw [h.contents, devBytes_length, h.size_eq]

theorem seek_refines (h : Holds disk₀ start size d f) (hsize : size < 2 ^ 63) (p : SeekFrom) :
    (d.step io (.seek p)).1 = (f.step (.seek p)).1 ∧
      Holds disk₀ start size (d.step io (.seek p)).2 (f.step (.seek p)).2 := by
  have hto : d.seekTo p = if f.target p < 0 then none else some (f.target p).toNat := by
    have hpos := h.pos_le
    have hsz := h.size_eq
    cases p with
    | start n =>
      have hn : ¬((n.toNat : ℤ) < 0) := by omega
      simp [seekTo, Flat.target, hn]
    | current off =>
      have hoff := off.toInt_lt
      simp only [seekTo, Flat.target, h.pos_eq]
      split
      · rfl
      · rw [Nat.mod_eq_of_lt (by omega)]
    | fromEnd off =>
      have hoff := off.toInt_lt
      simp only [seekTo, Flat.target, h.length]
      split
      · rfl
      · rw [Nat.mod_eq_of_lt (by omega)]
  by_cases hneg : f.target p < 0
  · simp only [hneg, if_true] at hto
    simp only [FatDisk.step, FatDisk.seek, hto, Flat.step, hneg, if_true]
    exact ⟨rfl, h⟩
  · simp only [hneg, if_false] at hto
    simp only [FatDisk.step, FatDisk.seek, hto, Flat.step, hneg, if_false, h.length]
    exact ⟨rfl, ⟨h.start_eq, h.size_eq, rfl, Nat.min_le_right _ _, h.coherent,
      h.contents, h.outside⟩⟩

theorem read_refines (h : Holds disk₀ start size d f) (hio : ∀ i, io i = .ok)
    (hwrap : start + size / sectorSize < 2 ^ 64) (n : ℕ) :
    (d.step io (.read n)).1 = (f.step (.read n)).1 ∧
      Holds disk₀ start size (d.step io (.read n)).2 (f.step (.read n)).2 := by
  have hwrap' : d.startLba + d.size / sectorSize < 2 ^ 64 := by
    rw [h.start_eq, h.size_eq]; exact hwrap
  have hle := h.pos_le
  obtain ⟨bs, hbs⟩ := readLoop_ok hio n 0 n d
  obtain ⟨hdata, hend, hco⟩ := readLoop_some h.coherent le_rfl hbs
  have hsame := readLoop_same io n 0 n d
  have hout : (f.bytes.drop f.pos).take n = bs := by
    rw [hdata, bytes_eq_devBytes hwrap' (by omega), h.contents, h.pos_eq, devBytes_drop_take,
      h.start_eq, h.size_eq]
  have hlen : bs.length = min n (d.size - d.pos) := by rw [hdata, bytes_length]
  simp only [FatDisk.step, FatDisk.read, hbs, Flat.step, hout]
  refine ⟨rfl, ⟨hsame.start.trans h.start_eq, hsame.size.trans h.size_eq, ?_, ?_, hco, ?_, ?_⟩⟩
  · rw [hend, hlen, h.pos_eq]
  · rw [hend, hsame.size]
    omega
  · rw [hsame.disk]
    exact h.contents
  · rw [hsame.disk]
    exact h.outside

theorem write_refines (h : Holds disk₀ start size d f) (hio : ∀ i, io i = .ok)
    (hwrap : start + size / sectorSize < 2 ^ 64) (src : List UInt8) :
    (d.step io (.write src)).1 = (f.step (.write src)).1 ∧
      Holds disk₀ start size (d.step io (.write src)).2 (f.step (.write src)).2 := by
  have hwrap' : d.startLba + d.size / sectorSize < 2 ^ 64 := by
    rw [h.start_eq, h.size_eq]; exact hwrap
  have hle := h.pos_le
  have hrange : ∀ a, ¬(start * sectorSize ≤ a ∧ a < start * sectorSize + size) →
      ¬(d.startLba * sectorSize + d.pos ≤ a ∧
        a < d.startLba * sectorSize + d.pos + min src.length (d.size - d.pos)) := by
    have hsz := h.size_eq
    rw [h.start_eq]
    generalize start * sectorSize = base
    clear hwrap hwrap'
    intro a ha
    omega
  obtain ⟨hout, hend, hstart, hsize, hco, hbytes⟩ :=
    writeLoop_ok hio h.coherent 0 (le_refl src.length) hwrap'
  simp only [FatDisk.step, FatDisk.write, hout, Flat.step, h.length, h.pos_eq]
  refine ⟨rfl, ⟨hstart.trans h.start_eq, hsize.trans h.size_eq, hend.symm, ?_, hco, ?_, ?_⟩⟩
  · rw [hend, hsize]
    omega
  · refine List.ext_getElem? ?_
    intro i
    have hfit : d.pos + min src.length (d.size - d.pos) ≤ f.bytes.length := by
      rw [h.length]
      omega
    rw [getElem?_overwrite (Nat.min_le_left _ _) hfit]
    have hlen := h.length
    rw [h.contents] at hlen ⊢
    by_cases hi : i < size
    · rw [List.getElem?_eq_getElem (by rw [devBytes_length]; exact hi), devBytes_getElem,
        List.getElem?_eq_getElem (by rw [devBytes_length]; exact hi), devBytes_getElem,
        hbytes, h.start_eq]
      split
      · rw [if_pos (by omega), Nat.add_sub_add_left]
      · rw [if_neg (by omega)]
    · have hsz := h.size_eq
      rw [if_neg (by omega), List.getElem?_eq_none (by rw [devBytes_length]; omega),
        List.getElem?_eq_none (by rw [devBytes_length]; omega)]
  · intro a ha
    rw [hbytes a, if_neg (hrange a ha), h.outside a ha]

theorem step_refines (hio : ∀ i, io i = .ok) (h : Holds disk₀ start size d f)
    (hsize : size < 2 ^ 63) (hwrap : start + size / sectorSize < 2 ^ 64) (op : FatOp) :
    (d.step io op).1 = (f.step op).1 ∧ Holds disk₀ start size (d.step io op).2 (f.step op).2 := by
  cases op with
  | seek p => exact seek_refines h hsize p
  | read n => exact read_refines h hio hwrap n
  | write src => exact write_refines h hio hwrap src

end Refinement

theorem volume_holds (disk : ℕ → Sector) (startLba size : UInt64) :
    Holds disk startLba.toNat size.toNat (volume disk startLba size)
      ⟨devBytes disk (startLba.toNat * sectorSize) size.toNat, 0⟩ where
  start_eq := rfl
  size_eq := rfl
  pos_eq := rfl
  pos_le := Nat.zero_le _
  coherent := by
    intro l hl
    simp [volume] at hl
  contents := rfl
  outside := fun _ _ => rfl

/-- On a device of `capacity` sectors that answers every request, a volume is a flat array. -/
theorem fatDisk_refines_flat (disk : ℕ → Sector) (startLba size capacity : UInt64)
    (hsize : size.toNat < 2 ^ 63)
    (hcap : startLba.toNat + size.toNat / sectorSize ≤ capacity.toNat) (script : List FatOp) :
    let real := Lib.Script.run (FatDisk.step fun _ => .ok) (volume disk startLba size) script
    let flat :=
  Lib.Script.run Flat.step ⟨devBytes disk (startLba.toNat * sectorSize) size.toNat, 0⟩ script
    real.1 = flat.1 ∧
      real.2.pos = flat.2.pos ∧
      devBytes real.2.disk (startLba.toNat * sectorSize) size.toNat = flat.2.bytes ∧
      ∀ a, a < startLba.toNat * sectorSize ∨ startLba.toNat * sectorSize + size.toNat ≤ a →
        devByte real.2.disk a = devByte disk a := by
  have hwrap : startLba.toNat + size.toNat / sectorSize < 2 ^ 64 :=
    lt_of_le_of_lt hcap capacity.toNat_lt
  obtain ⟨hout, hlast⟩ := Lib.Script.run_simulates
    (R := Holds disk startLba.toNat size.toNat)
    (fun _ _ op h => step_refines (fun _ => rfl) h hsize hwrap op)
    (volume_holds disk startLba size) script
  refine ⟨hout, hlast.pos_eq.symm, hlast.contents.symm, ?_⟩
  intro a ha
  exact hlast.outside a (by omega)

theorem fatDisk_refines_flat_across :
    (Lib.Script.run (FatDisk.step fun _ => .ok) (volume (fun _ _ => 0) 2 514)
      [.seek (.start 511), .write [1, 2, 3, 4], .seek (.current (-2)), .read 5]).1 =
      [.pos 511, .wrote 3, .pos 512, .data [2, 3]] := by
  rw [(fatDisk_refines_flat (fun _ _ => 0) 2 514 4 (by decide) (by decide) _).1]
  decide +kernel

end CoeleoOs.Fs
