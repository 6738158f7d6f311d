import CoeleoOs.Fs.FatLoop
import CoeleoOs.Fs.Part
import CoeleoOs.Lib.Crc
import Mathlib.Data.List.GetD
import Mathlib.Data.Nat.Digits.Lemmas

/-!
# The installer's partition table

`write_esp` writes a protective MBR and a GPT with one ESP. `ok i` says whether the
`i`-th write of the call succeeds; a write that fails ends the call. The disk keeps what
was written last to each sector. The two readings of the clock are parameters.
-/

namespace CoeleoOs.Fs.Gpt
open CoeleoOs.Lib

def espStartLba : UInt64 := 2048
def entries : ℕ := 128
def entrySize : ℕ := 128
def arraySectors : UInt64 := 32
def headerSize : ℕ := 92
def minSectors : UInt64 := 64 * 1024 * 1024 / 512

structure Media where
  capacity : UInt64
  data : ℕ → Sector
  writes : ℕ

abbrev Install := Eff (ℕ → Bool) Unit Media

def writeBlocksAt (lba : UInt64) (sector : Sector) : Install Unit := do
  let ok ← Eff.ask
  let m ← Eff.get
  if ok m.writes ∧ lba < m.capacity then
    Eff.set { m with data := Function.update m.data lba.toNat sector, writes := m.writes + 1 }
  else Eff.abort

def leBytes (n x : ℕ) : List UInt8 := (List.range n).map (beByte x)

def crcStep (crc : UInt32) : UInt32 :=
  if crc &&& 1 ≠ 0 then (crc >>> 1) ^^^ 0xEDB88320 else crc >>> 1

def crc32Update (crc : UInt32) (data : List UInt8) : UInt32 :=
  data.foldl (fun crc b => crcStep^[8] (crc ^^^ b.toUInt32)) crc

def efiCrc32 (data : List UInt8) : UInt32 := ~~~crc32Update 0xFFFFFFFF data

def lastUsable (sectors : UInt64) : Option UInt64 :=
  if sectors < minSectors then none
  else
    let last := sectors - 1
    if last < arraySectors + 1 then none else some (last - (arraySectors + 1))

def fillSector (pieces : List (ℕ × List UInt8)) : Sector :=
  pieces.foldl (fun b piece => b.splice piece.1 piece.2) emptySector

def protectiveMbr (sectors : UInt64) : Sector :=
  let size := min (sectors.toNat - 1) (2 ^ 32 - 1)
  fillSector [(446, [0x00, 0x00, 0x02, 0x00, 0xEE, 0xFF, 0xFF, 0xFF]), (454, leBytes 4 1),
    (458, leBytes 4 size), (510, [0x55, 0xAA])]

def headerPieces (myLba altLba partLba lastUsable : UInt64) (diskGuid : List UInt8)
    (arrayCrc : UInt32) : List (ℕ × List UInt8) :=
  [(0, efiPart), (8, leBytes 4 0x10000), (12, leBytes 4 headerSize), (24, leBytes 8 myLba.toNat),
    (32, leBytes 8 altLba.toNat), (40, leBytes 8 34), (48, leBytes 8 lastUsable.toNat),
    (56, diskGuid), (72, leBytes 8 partLba.toNat), (80, leBytes 4 entries),
    (84, leBytes 4 entrySize), (88, leBytes 4 arrayCrc.toNat)]

def fillHeader (myLba altLba partLba lastUsable : UInt64) (diskGuid : List UInt8)
    (arrayCrc : UInt32) : Sector :=
  let buf := fillSector (headerPieces myLba altLba partLba lastUsable diskGuid arrayCrc)
  buf.splice 16 (leBytes 4 (efiCrc32 (buf.slice 0 headerSize)).toNat)

-- "COELEO" in UTF-16.
def espName : List UInt8 := [0x43, 0, 0x4F, 0, 0x45, 0, 0x4C, 0, 0x45, 0, 0x4F, 0]

def partitionEntry (unique : List UInt8) (first last : UInt64) : List UInt8 :=
  guidEsp ++ unique ++ leBytes 8 first.toNat ++ leBytes 8 last.toNat ++
    List.replicate 8 0 ++ espName ++ List.replicate 60 0

def arraySector (entry : List UInt8) (i : ℕ) : Sector :=
  if i = 0 then emptySector.splice 0 entry else emptySector

def arrayLoop (start : UInt64) (entry : List UInt8) : ℕ → ℕ → Install Unit
  | 0, _ => pure ()
  | n + 1, i => do
    writeBlocksAt (start + UInt64.ofNat i) (arraySector entry i)
    arrayLoop start entry n (i + 1)

def writeArray (start : UInt64) (entry : List UInt8) : Install Unit :=
  arrayLoop start entry arraySectors.toNat 0

def arrayCrc32 (entry : List UInt8) : UInt32 :=
  ~~~(List.range arraySectors.toNat).foldl
    (fun crc i => crc32Update crc ((arraySector entry i).slice 0 sectorSize)) 0xFFFFFFFF

def makeGuid (t disk tag : UInt64) : List UInt8 :=
  let mix := (tag + disk) * 0x9E3779B97F4A7C15 + t
  let g := leBytes 8 t.toNat ++ leBytes 8 mix.toNat
  let g := g.set 6 ((g[6]?.getD 0 &&& 0x0F) ||| 0x40)
  let g := g.set 8 ((g[8]?.getD 0 &&& 0x3F) ||| 0x80)
  if g.all (· = 0) then g.set 0 1 else g

def writeEsp (t₁ t₂ disk : UInt64) : Install Unit := do
  let m ← Eff.get
  match lastUsable m.capacity with
  | none => Eff.abort
  | some usable =>
    if usable < espStartLba then Eff.abort
    else do
      let last := m.capacity - 1
      let backupArray := last - arraySectors
      let diskGuid := makeGuid t₁ disk 0xD15C
      let partGuid := makeGuid t₂ disk 0xE5F
      let entry := partitionEntry partGuid espStartLba usable
      let arrayCrc := arrayCrc32 entry
      writeBlocksAt 0 (protectiveMbr m.capacity)
      writeBlocksAt 1 (fillHeader 1 last 2 usable diskGuid arrayCrc)
      writeArray 2 entry
      writeArray backupArray entry
      writeBlocksAt last (fillHeader last 1 backupArray usable diskGuid arrayCrc)

def Media.dev (m : Media) (kind : DiskKind) : BlockDev :=
  ⟨kind, fun lba => if lba < m.capacity then some (m.data lba.toNat) else none⟩

def Media.bytes (m : Media) (lba n : ℕ) : List UInt8 :=
  (List.range n).map fun j => (m.data (lba + j / sectorSize)).get (j % sectorSize)

def crc32 (bytes : List UInt8) : BitVec 32 :=
  ~~~Crc.run 0xEDB88320#32 (BitVec.allOnes 32) (Crc.messageBits bytes)

example : crc32 [0x31, 0x32, 0x33, 0x34, 0x35, 0x36, 0x37, 0x38, 0x39] = 0xCBF43926#32 := by
  decide +kernel

/-- The checksum of a header, taken with its own field zero. -/
def HeaderVerifies (h : Sector) : Prop :=
  h.le 16 4 = (crc32 ((h.splice 16 [0, 0, 0, 0]).slice 0 (h.le 12 4))).toNat

/-- The checksum of the entry array that a header points to. -/
def ArrayVerifies (m : Media) (h : Sector) : Prop :=
  h.le 88 4 = (crc32 (m.bytes (h.le 72 8) (h.le 80 4 * h.le 84 4))).toNat

/-- First sector and number of sectors. -/
structure Extent where
  start : ℕ
  count : ℕ

def Extent.Apart (a b : Extent) : Prop := a.start + a.count ≤ b.start ∨ b.start + b.count ≤ a.start

def headerExtents (h : Sector) : List Extent :=
  [⟨h.le 24 8, 1⟩, ⟨h.le 72 8, h.le 80 4 * h.le 84 4 / sectorSize⟩]

def Media.extents (m : Media) (esp : Volume) : List Extent :=
  ⟨0, 1⟩ :: headerExtents (m.data 1) ++ ⟨esp.startLba.toNat, esp.sectors.toNat⟩ ::
    headerExtents (m.data (m.capacity.toNat - 1))

/-- Own and alternate sector numbers of the two headers. -/
def Media.HeadersPaired (m : Media) : Prop :=
  (m.data 1).le 24 8 = 1 ∧ (m.data 1).le 32 8 = m.capacity.toNat - 1 ∧
    (m.data (m.capacity.toNat - 1)).le 24 8 = m.capacity.toNat - 1 ∧
    (m.data (m.capacity.toNat - 1)).le 32 8 = 1

/-- The table of a disk with one ESP, as the firmware and the kernel want it. -/
structure Media.Partitioned (m : Media) (kind : DiskKind) (esp : Volume) : Prop where
  mounts : volumes.out (m.dev kind) () = some ([esp], ())
  start : esp.startLba = 2048
  sectors : esp.sectors.toNat = m.capacity.toNat - 34 - 2048 + 1
  headers : HeaderVerifies (m.data 1) ∧ HeaderVerifies (m.data (m.capacity.toNat - 1))
  arrays : ArrayVerifies m (m.data 1) ∧ ArrayVerifies m (m.data (m.capacity.toNat - 1))
  paired : m.HeadersPaired
  apart : (m.extents esp).Pairwise Extent.Apart
  inside : ∀ e ∈ m.extents esp, e.start + e.count ≤ m.capacity.toNat

section Checksum

theorem crcStep_toBitVec (c : UInt32) :
    (crcStep c).toBitVec = Crc.shift 0xEDB88320#32 c.toBitVec := by
  have hlow : c &&& 1 ≠ 0 ↔ c.toBitVec.getLsbD 0 = true := by
    rw [← UInt32.toBitVec_inj.ne, UInt32.toBitVec_and]
    constructor
    · intro hne
      by_contra hbit
      refine hne (BitVec.eq_of_getLsbD_eq fun i hi => ?_)
      rw [BitVec.getLsbD_and]
      by_cases h0 : i = 0
      · subst h0
        rw [Bool.eq_false_of_not_eq_true hbit, Bool.false_and]
        rfl
      · simp [h0]
    · intro hbit heq
      have hzero := congrArg (fun w => w.getLsbD 0) heq
      rw [BitVec.getLsbD_and, hbit] at hzero
      exact absurd hzero (by decide)
  rw [crcStep, Crc.shift]
  by_cases hbit : c.toBitVec.getLsbD 0 = true
  · rw [if_pos (hlow.mpr hbit), if_pos hbit]
    rfl
  · rw [if_neg (fun h => hbit (hlow.mp h)), if_neg hbit]
    rfl

theorem crcStep_iterate_toBitVec (n : ℕ) (c : UInt32) :
    (crcStep^[n] c).toBitVec = (Crc.shift 0xEDB88320#32)^[n] c.toBitVec := by
  induction n generalizing c with
  | zero => rfl
  | succ n ih => rw [Function.iterate_succ_apply, Function.iterate_succ_apply, ih, crcStep_toBitVec]

theorem crc32Update_toBitVec (crc : UInt32) (data : List UInt8) :
    (crc32Update crc data).toBitVec = Crc.run 0xEDB88320#32 crc.toBitVec
      (Crc.messageBits data) := by
  induction data generalizing crc with
  | nil => rfl
  | cons b data ih =>
    have hbyte := Crc.run_byte 0xEDB88320#32 crc.toBitVec b (by decide)
    rw [Crc.messageBits, List.flatMap_cons, Crc.run_append, hbyte, crc32Update, List.foldl_cons]
    refine (ih _).trans ?_
    rw [crcStep_iterate_toBitVec]
    rfl

theorem efiCrc32_toNat (data : List UInt8) : (efiCrc32 data).toNat = (crc32 data).toNat := by
  rw [efiCrc32, ← UInt32.toNat_toBitVec, UInt32.toBitVec_not, crc32Update_toBitVec]
  rfl

theorem crc32Update_append (crc : UInt32) (xs ys : List UInt8) :
    crc32Update crc (xs ++ ys) = crc32Update (crc32Update crc xs) ys := by
  rw [crc32Update, List.foldl_append]
  rfl

theorem arrayCrc32_toNat (entry : List UInt8) : (arrayCrc32 entry).toNat =
    (crc32 ((List.range arraySectors.toNat).flatMap fun i => (arraySector entry i).slice 0
      sectorSize)).toNat := by
  have hfold : ∀ (n : ℕ) (crc : UInt32),
      (List.range n).foldl (fun crc i => crc32Update crc ((arraySector entry i).slice 0 sectorSize))
        crc = crc32Update crc ((List.range n).flatMap fun i => (arraySector entry i).slice 0
          sectorSize) := by
    intro n crc
    induction n with
    | zero => rfl
    | succ n ih =>
      rw [List.range_succ, List.foldl_append, ih, List.flatMap_append, crc32Update_append,
        List.flatMap_singleton, List.foldl_cons, List.foldl_nil]
  have hcrc : arrayCrc32 entry =
      efiCrc32 ((List.range arraySectors.toNat).flatMap fun i => (arraySector entry i).slice 0
        sectorSize) :=
    congrArg (~~~·) (hfold arraySectors.toNat 0xFFFFFFFF)
  exact (congrArg UInt32.toNat hcrc).trans (efiCrc32_toNat _)

end Checksum

section Fields

variable {b : Sector} {off n x : ℕ} {src : List UInt8}

theorem slice_splice_same (b : Sector) (h : off + src.length ≤ sectorSize) :
    (b.splice off src).slice off src.length = src := by
  apply List.ext_getElem
  · simp [Sector.slice]
  · intro i hi hlen
    simp only [Sector.slice, List.getElem_map, List.getElem_range]
    rw [Sector.get_splice b off src (by omega), if_pos (by omega), Nat.add_sub_cancel_left,
      List.getD_eq_getElem _ _ hlen]

theorem slice_splice_apart {off' : ℕ} (hin : off' + n ≤ sectorSize)
    (h : off' + n ≤ off ∨ off + src.length ≤ off') :
    (b.splice off src).slice off' n = b.slice off' n := by
  refine List.map_congr_left fun j hj => ?_
  have hlt := List.mem_range.mp hj
  rw [Sector.get_splice b off src (by omega), if_neg (by omega)]

theorem slice_empty (off n : ℕ) : emptySector.slice off n = List.replicate n 0 := by
  rw [Sector.slice, List.eq_replicate_iff]
  refine ⟨by simp, fun y hy => ?_⟩
  obtain ⟨j, -, rfl⟩ := List.mem_map.mp hy
  rw [Sector.get]
  split <;> rfl

def PieceApart (p q : ℕ × List UInt8) : Prop := p.1 + p.2.length ≤ q.1 ∨ q.1 + q.2.length ≤ p.1

theorem fillSector_piece {pieces : List (ℕ × List UInt8)} {p : ℕ × List UInt8}
    (hin : ∀ q ∈ pieces, q.1 + q.2.length ≤ sectorSize) (hapart : pieces.Pairwise PieceApart)
    (hp : p ∈ pieces) : (fillSector pieces).slice p.1 p.2.length = p.2 := by
  induction pieces using List.reverseRecOn with
  | nil => cases hp
  | append_singleton pieces q ih =>
    rw [fillSector, List.foldl_append]
    change ((fillSector pieces).splice q.1 q.2).slice p.1 p.2.length = p.2
    obtain ⟨hfront, -, hlast⟩ := List.pairwise_append.mp hapart
    rcases List.mem_append.mp hp with hp | hp
    · rw [slice_splice_apart (hin p (List.mem_append_left _ hp))
        (hlast p hp q (List.mem_singleton_self q))]
      exact ih (fun r hr => hin r (List.mem_append_left _ hr)) hfront hp
    · obtain rfl := List.mem_singleton.mp hp
      exact slice_splice_same _ (hin p (List.mem_append_right _ (List.mem_singleton_self p)))

theorem fillSector_gap {pieces : List (ℕ × List UInt8)} (off n : ℕ) (hin : off + n ≤ sectorSize)
    (hgap : ∀ q ∈ pieces, PieceApart (off, List.replicate n 0) q) :
    (fillSector pieces).slice off n = List.replicate n 0 := by
  induction pieces using List.reverseRecOn with
  | nil => exact slice_empty off n
  | append_singleton pieces q ih =>
    have hq := hgap q (List.mem_append_right _ (List.mem_singleton_self q))
    simp only [PieceApart, List.length_replicate] at hq
    rw [fillSector, List.foldl_append]
    change ((fillSector pieces).splice q.1 q.2).slice off n = List.replicate n 0
    rw [slice_splice_apart hin hq]
    exact ih fun r hr => hgap r (List.mem_append_left _ hr)

theorem get_of_slice (h : b.slice off n = src) {i : ℕ} (hi : i < n) :
    b.get (off + i) = src.getD i 0 := by
  rw [← h, Sector.slice, List.getD_eq_getElem _ _ (by simpa using hi), List.getElem_map,
    List.getElem_range]

theorem leBytes_length (n x : ℕ) : (leBytes n x).length = n := by
  simp [leBytes]

theorem ofDigits_leBytes (hx : x < 256 ^ n) :
    Nat.ofDigits 256 ((leBytes n x).map UInt8.toNat) = x := by
  have hgen : ∀ n x, Nat.ofDigits 256 ((leBytes n x).map UInt8.toNat) = x % 256 ^ n := by
    intro n
    induction n with
    | zero =>
      intro x
      simp [leBytes, Nat.mod_one]
    | succ n ih =>
      intro x
      have hcons : leBytes (n + 1) x = beByte x 0 :: leBytes n (x / 256) := by
        simp only [leBytes, List.range_succ_eq_map, List.map_cons, List.map_map]
        congr 1
        refine List.map_congr_left fun k _ => ?_
        apply UInt8.toNat_inj.mp
        rw [Function.comp, beByte_toNat, beByte_toNat, Nat.div_div_eq_div_mul]
        congr 2
        rw [Nat.mul_succ, Nat.pow_add, Nat.mul_comm]
      rw [hcons, List.map_cons, Nat.ofDigits_cons, ih, beByte_toNat, Nat.mul_zero, Nat.pow_zero,
        Nat.div_one, Nat.pow_succ', Nat.mod_mul]
  rw [hgen, Nat.mod_eq_of_lt hx]

theorem le_of_slice (hx : x < 256 ^ n) (h : b.slice off n = leBytes n x) : b.le off n = x := by
  rw [Sector.le, h, ofDigits_leBytes hx]

end Fields

section Header

variable (my alt part usable : UInt64) {guid : List UInt8} (crc : UInt32) (hguid : guid.length = 16)
include hguid

theorem headerPieces_in :
    ∀ q ∈ headerPieces my alt part usable guid crc, q.1 + q.2.length ≤ sectorSize := by
  simp [headerPieces, leBytes_length, hguid, efiPart, sectorSize]

theorem headerPieces_apart : (headerPieces my alt part usable guid crc).Pairwise PieceApart := by
  simp [headerPieces, PieceApart, leBytes_length, hguid, efiPart]

theorem headerPieces_gap :
    ∀ q ∈ headerPieces my alt part usable guid crc, PieceApart (16, List.replicate 4 0) q := by
  simp [headerPieces, PieceApart, leBytes_length, hguid, efiPart]

theorem fillHeader_piece {q : ℕ × List UInt8} (hq : q ∈ headerPieces my alt part usable guid crc) :
    (fillHeader my alt part usable guid crc).slice q.1 q.2.length = q.2 := by
  have hapart := headerPieces_gap my alt part usable crc hguid q hq
  have hin := headerPieces_in my alt part usable crc hguid
  simp only [PieceApart, List.length_replicate] at hapart
  rw [fillHeader, slice_splice_apart (hin q hq)]
  · exact fillSector_piece hin (headerPieces_apart my alt part usable crc hguid) hq
  · rw [leBytes_length]
    exact hapart.symm

theorem fillHeader_number {off n x : ℕ}
    (hq : (off, leBytes n x) ∈ headerPieces my alt part usable guid crc)
    (hx : x < 256 ^ n) : (fillHeader my alt part usable guid crc).le off n = x := by
  have hslice := fillHeader_piece my alt part usable crc hguid hq
  rw [leBytes_length] at hslice
  exact le_of_slice hx hslice

omit hguid in
/-- What a header says when it is read back. -/
structure HeaderReads (h : Sector) (my alt part : UInt64) (crc : UInt32) : Prop where
  signature : h.slice 0 8 = efiPart
  size : h.le 12 4 = headerSize
  my : h.le 24 8 = my.toNat
  alt : h.le 32 8 = alt.toNat
  part : h.le 72 8 = part.toNat
  entries : h.le 80 4 = entries
  entrySize : h.le 84 4 = entrySize
  crc : h.le 88 4 = crc.toNat

theorem fillHeader_reads :
    HeaderReads (fillHeader my alt part usable guid crc) my alt part crc := by
  have hnumber : ∀ {off n x : ℕ}, (off, leBytes n x) ∈ headerPieces my alt part usable guid crc →
      x < 256 ^ n → (fillHeader my alt part usable guid crc).le off n = x := fun hq hx =>
    fillHeader_number my alt part usable crc hguid hq hx
  refine ⟨?_, ?_, ?_, ?_, ?_, ?_, ?_, ?_⟩
  · exact fillHeader_piece my alt part usable crc hguid (show (0, efiPart) ∈
      _ by simp [headerPieces])
  · exact hnumber (by simp [headerPieces]) (by decide)
  · exact hnumber (by simp [headerPieces]) my.toNat_lt
  · exact hnumber (by simp [headerPieces]) alt.toNat_lt
  · exact hnumber (by simp [headerPieces]) part.toNat_lt
  · exact hnumber (by simp [headerPieces]) (by decide)
  · exact hnumber (by simp [headerPieces]) (by decide)
  · exact hnumber (by simp [headerPieces]) crc.toNat_lt

theorem fillHeader_cleared :
    ((fillHeader my alt part usable guid crc).splice 16 [0, 0, 0, 0]).slice 0 headerSize =
      (fillSector (headerPieces my alt part usable guid crc)).slice 0 headerSize := by
  refine List.map_congr_left fun j hj => ?_
  have hlt : j < headerSize := List.mem_range.mp hj
  have hin : j < sectorSize := hlt.trans (by decide)
  have hgap := fillSector_gap 16 4 (by decide) (headerPieces_gap my alt part usable crc hguid)
  rw [Nat.zero_add, Sector.get_splice _ _ _ hin, show 16 + ([0, 0, 0, 0] : List UInt8).length =
    20 from rfl]
  by_cases hfield : 16 ≤ j ∧ j < 20
  · have hzero := get_of_slice hgap (show j - 16 < 4 by omega)
    rw [if_pos hfield, ← Nat.add_sub_of_le hfield.1, hzero, Nat.add_sub_cancel_left]
    rfl
  · rw [if_neg hfield, fillHeader, Sector.get_splice _ _ _ hin, leBytes_length, if_neg hfield]

theorem fillHeader_verifies : HeaderVerifies (fillHeader my alt part usable guid crc) := by
  have hcrc := slice_splice_same (fillSector (headerPieces my alt part usable guid crc))
    (show 16 + (leBytes 4 (efiCrc32 ((fillSector (headerPieces my alt part usable guid crc)).slice 0
      headerSize)).toNat).length ≤ sectorSize by rw [leBytes_length]; decide)
  rw [leBytes_length] at hcrc
  rw [HeaderVerifies, (fillHeader_reads my alt part usable crc hguid).size,
    fillHeader_cleared my alt part usable crc hguid, ← efiCrc32_toNat]
  exact le_of_slice (UInt32.toNat_lt _) hcrc

end Header

section Writes

variable {ok : ℕ → Bool} {m m' : Media}

theorem writeBlocksAt_some {lba : UInt64} {sector : Sector}
    (h : (writeBlocksAt lba sector).out ok m = some ((), m')) :
    m'.capacity = m.capacity ∧ m'.data = Function.update m.data lba.toNat sector := by
  simp only [writeBlocksAt, Eff.out_bind, Eff.out_ask, Eff.out_get, Option.bind_some] at h
  split at h
  · obtain ⟨-, rfl⟩ := Prod.mk.inj (Option.some.inj h)
    exact ⟨rfl, rfl⟩
  · cases h

theorem arrayLoop_some {start : UInt64} {entry : List UInt8} {n i : ℕ}
    (hfit : start.toNat + i + n ≤ 2 ^ 64)
    (h : (arrayLoop start entry n i).out ok m = some ((), m')) :
    m'.capacity = m.capacity ∧ ∀ x, m'.data x = if start.toNat + i ≤ x ∧ x < start.toNat + i + n
      then arraySector entry (x - start.toNat) else m.data x := by
  induction n generalizing i m with
  | zero =>
    obtain ⟨-, rfl⟩ := Prod.mk.inj (Option.some.inj h)
    refine ⟨rfl, fun x => ?_⟩
    rw [if_neg (by omega)]
  | succ n ih =>
    simp only [arrayLoop, Eff.out_bind, Option.bind_eq_some_iff] at h
    obtain ⟨⟨⟨⟩, m₁⟩, hwrite, hrest⟩ := h
    obtain ⟨hcap, hdata⟩ := writeBlocksAt_some hwrite
    obtain ⟨hcap', hdata'⟩ := ih (by omega) hrest
    refine ⟨hcap'.trans hcap, fun x => ?_⟩
    have haddr : (start + UInt64.ofNat i).toNat = start.toNat + i := by
      rw [UInt64.toNat_add, UInt64.toNat_ofNat_of_lt' (show i < 2 ^ 64 by omega),
        Nat.mod_eq_of_lt (by omega)]
    rw [hdata' x, hdata, haddr]
    by_cases hx : x = start.toNat + i
    · subst hx
      rw [if_neg (by omega), Function.update_self, if_pos (by omega), Nat.add_sub_cancel_left]
    · rw [Function.update_of_ne hx]
      by_cases hin : start.toNat + i ≤ x ∧ x < start.toNat + i + (n + 1)
      · rw [if_pos hin, if_pos (by omega)]
      · rw [if_neg hin, if_neg (by omega)]

theorem makeGuid_length (t disk tag : UInt64) : (makeGuid t disk tag).length = 16 := by
  simp only [makeGuid]
  split <;> simp [leBytes_length]

theorem lastUsable_some {sectors usable : UInt64} (h : lastUsable sectors = some usable) :
    131072 ≤ sectors.toNat ∧ usable.toNat = sectors.toNat - 34 := by
  simp only [lastUsable] at h
  split at h
  · cases h
  · rename_i hmin
    split at h
    · cases h
    · obtain rfl := Option.some.inj h
      have hbig : 131072 ≤ sectors.toNat := by
        have hle := UInt64.le_iff_toNat_le.mp (UInt64.not_lt.mp hmin)
        exact hle
      have hlast : (sectors - 1).toNat = sectors.toNat - 1 := by
        rw [UInt64.toNat_sub_of_le _ _ (UInt64.le_iff_toNat_le.mpr (by simp; omega))]
        rfl
      refine ⟨hbig, ?_⟩
      rw [UInt64.toNat_sub_of_le _ _
        (UInt64.le_iff_toNat_le.mpr (by rw [hlast]; simp [arraySectors]; omega)), hlast]
      simp [arraySectors]
      omega

theorem last_toNat {sectors : UInt64} (hbig : 131072 ≤ sectors.toNat) :
    (sectors - 1).toNat = sectors.toNat - 1 := by
  rw [UInt64.toNat_sub_of_le _ _ (UInt64.le_iff_toNat_le.mpr (by simp; omega))]
  rfl

theorem backupArray_toNat {sectors : UInt64} (hbig : 131072 ≤ sectors.toNat) :
    (sectors - 1 - arraySectors).toNat = sectors.toNat - 33 := by
  have hlast := last_toNat hbig
  rw [UInt64.toNat_sub_of_le _ _
    (UInt64.le_iff_toNat_le.mpr (by rw [hlast]; simp [arraySectors]; omega)), hlast]
  simp [arraySectors]
  omega

/-- What is on the disk after a call that succeeded. -/
structure Written (m m' : Media) (usable last backupArray : UInt64)
    (diskGuid partGuid : List UInt8) : Prop where
  capacity : m'.capacity = m.capacity
  big : 131072 ≤ m.capacity.toNat
  usable_eq : usable.toNat = m.capacity.toNat - 34
  last_eq : last.toNat = m.capacity.toNat - 1
  backup_eq : backupArray.toNat = m.capacity.toNat - 33
  primaryHeader : m'.data 1 =
    fillHeader 1 last 2 usable diskGuid (arrayCrc32 (partitionEntry partGuid espStartLba usable))
  backupHeader : m'.data (m.capacity.toNat - 1) =
    fillHeader last 1 backupArray usable diskGuid
      (arrayCrc32 (partitionEntry partGuid espStartLba usable))
  primaryEntries :
    ∀ i < 32, m'.data (2 + i) = arraySector (partitionEntry partGuid espStartLba usable) i
  backupEntries : ∀ i < 32,
    m'.data (m.capacity.toNat - 33 + i) = arraySector (partitionEntry partGuid espStartLba usable) i
  diskGuid_length : diskGuid.length = 16
  partGuid_length : partGuid.length = 16

theorem writeEsp_some {t₁ t₂ disk : UInt64} (h : (writeEsp t₁ t₂ disk).out ok m = some ((), m')) :
    ∃ usable last backupArray diskGuid partGuid, Written m m' usable last backupArray diskGuid
      partGuid := by
  simp only [writeEsp, Eff.out_bind, Eff.out_get, Option.bind_some] at h
  cases husable : lastUsable m.capacity with
  | none => simp [husable] at h
  | some usable =>
    obtain ⟨hbig, hlen⟩ := lastUsable_some husable
    simp only [husable] at h
    split at h
    · cases h
    · simp only [Eff.out_bind, Option.bind_eq_some_iff] at h
      obtain ⟨⟨⟨⟩, m₁⟩, h₁, ⟨⟨⟩, m₂⟩, h₂, ⟨⟨⟩, m₃⟩, h₃, ⟨⟨⟩, m₄⟩, h₄, h₅⟩ := h
      obtain ⟨c₁, d₁⟩ := writeBlocksAt_some h₁
      obtain ⟨c₂, d₂⟩ := writeBlocksAt_some h₂
      have hlast := last_toNat hbig
      have hbackup := backupArray_toNat hbig
      obtain ⟨c₃, d₃⟩ := arrayLoop_some (by decide) h₃
      have hcap := m.capacity.toNat_lt
      have hsize : arraySectors.toNat = 32 := rfl
      obtain ⟨c₄, d₄⟩ := arrayLoop_some (by rw [hbackup, hsize]; omega) h₄
      obtain ⟨c₅, d₅⟩ := writeBlocksAt_some h₅
      rw [hbackup, hsize] at d₄
      rw [hlast] at d₅
      have hother : ∀ x, x ≠ m.capacity.toNat - 1 → m'.data x = m₄.data x := by
        intro x hx
        rw [d₅, Function.update_of_ne hx]
      refine ⟨usable, m.capacity - 1, m.capacity - 1 - arraySectors, _, _,
        ⟨?_, hbig, hlen, hlast, hbackup, ?_, ?_, ?_, ?_, makeGuid_length t₁ disk 0xD15C,
          makeGuid_length t₂ disk 0xE5F⟩⟩
      · rw [c₅, c₄, c₃, c₂, c₁]
      · rw [hother 1 (by omega), d₄, if_neg (by omega), d₃, if_neg (by simp), d₂]
        exact Function.update_self ..
      · rw [d₅, Function.update_self]
      · intro i hi
        rw [hother _ (by omega), d₄, if_neg (by omega), d₃, if_pos]
        · simp
        · simp [hsize]
          omega
      · intro i hi
        rw [hother _ (by omega), d₄, if_pos (by omega)]
        congr 1
        omega

end Writes

section Read

variable {m m' : Media} {usable last backupArray : UInt64} {diskGuid partGuid : List UInt8}
    {kind : DiskKind}

theorem bytes_sectors (m : Media) (lba k : ℕ) :
    m.bytes lba (sectorSize * k) = (List.range k).flatMap fun i =>
      (m.data (lba + i)).slice 0 sectorSize := by
  induction k with
  | zero => rfl
  | succ k ih =>
    have hlast :
        (List.range sectorSize).map (fun j => (m.data (lba + (sectorSize * k + j) / sectorSize)).get
        ((sectorSize * k + j) % sectorSize)) = (m.data (lba + k)).slice 0 sectorSize := by
      refine List.map_congr_left fun j hj => ?_
      have hlt := List.mem_range.mp hj
      rw [Nat.mul_add_div (by decide), Nat.div_eq_of_lt hlt, Nat.mul_add_mod, Nat.mod_eq_of_lt hlt,
        Nat.add_zero, Nat.zero_add]
    rw [Nat.mul_succ, Media.bytes, List.range_add, List.map_append, List.map_map,
      @List.range_succ k, List.flatMap_append, List.flatMap_singleton, ← ih, ← hlast]
    rfl

theorem array_verifies {h : Sector} {my alt part : UInt64} {entry : List UInt8}
    (hreads : HeaderReads h my alt part (arrayCrc32 entry))
    (hdata : ∀ i < 32, m.data (part.toNat + i) = arraySector entry i) : ArrayVerifies m h := by
  have hsize : entries * entrySize = sectorSize * arraySectors.toNat := rfl
  have hflat :
      ((List.range arraySectors.toNat).flatMap fun i => (m.data (part.toNat + i)).slice 0
        sectorSize) = (List.range arraySectors.toNat).flatMap fun i =>
          (arraySector entry i).slice 0 sectorSize := by
    refine List.flatMap_congr fun i hi => ?_
    rw [hdata i (List.mem_range.mp hi)]
  rw [ArrayVerifies, hreads.crc, hreads.part, hreads.entries, hreads.entrySize, hsize,
    bytes_sectors, hflat, arrayCrc32_toNat]

theorem partitionEntry_length (hguid : partGuid.length = 16) (first last : UInt64) :
    (partitionEntry partGuid first last).length = 128 := by
  simp [partitionEntry, leBytes_length, hguid, guidEsp, espName]

theorem partitionEntry_reads (hguid : partGuid.length = 16) (first last : UInt64) :
    (partitionEntry partGuid first last).take 16 = guidEsp ∧
      leOf (partitionEntry partGuid first last) 32 8 = first.toNat ∧
        leOf (partitionEntry partGuid first last) 40 8 = last.toNat := by
  have hsplit :
      partitionEntry partGuid first last = (guidEsp ++ partGuid) ++ (leBytes 8 first.toNat ++
      (leBytes 8 last.toNat ++ (List.replicate 8 0 ++ espName ++ List.replicate 60 0))) := by
    simp only [partitionEntry, List.append_assoc]
  have hhead : (guidEsp ++ partGuid).length = 32 := by simp [guidEsp, hguid]
  refine ⟨?_, ?_, ?_⟩
  · rw [hsplit, List.append_assoc]
    exact List.take_left' rfl
  · rw [leOf, hsplit, List.drop_left' hhead, List.take_left' (leBytes_length 8 _)]
    exact ofDigits_leBytes first.toNat_lt
  · have hfront : (guidEsp ++ partGuid ++ leBytes 8 first.toNat).length = 40 := by
      rw [List.length_append, hhead, leBytes_length]
    rw [leOf, hsplit, ← List.append_assoc, List.drop_left' hfront,
      List.take_left' (leBytes_length 8 _)]
    exact ofDigits_leBytes last.toNat_lt

theorem entryVolume_zero (d : BlockDev) :
    (entryVolume (List.replicate 128 0)).out d () = some (none, ()) := by
  have hzero : (List.replicate 128 (0 : UInt8)).take 16 = List.replicate 16 0 := rfl
  rw [entryVolume]
  simp only [if_pos hzero, Eff.out_pure]

theorem entryVolume_esp (d : BlockDev) (hguid : partGuid.length = 16) {first last : UInt64}
    (hle : first ≤ last) : (entryVolume (partitionEntry partGuid first last)).out d () =
      some (some ⟨first, last - first + 1⟩, ()) := by
  obtain ⟨htype, hfirst, hlast⟩ := partitionEntry_reads hguid first last
  rw [entryVolume]
  simp only [htype, hfirst, hlast, UInt64.ofNat_toNat]
  rw [if_neg (by decide), if_neg (by decide), if_neg (UInt64.not_lt.mpr hle)]
  simp

theorem arraySector_entry {entry : List UInt8} (hentry : entry.length = 128) {i : ℕ} :
    (arraySector entry (i * 128 / sectorSize)).slice (i * 128 % sectorSize) 128 =
      if i = 0 then entry else List.replicate 128 0 := by
  have hin : i * 128 % sectorSize + 128 ≤ sectorSize := by
    simp only [sectorSize]
    omega
  by_cases hi : i = 0
  · subst hi
    have hsame :=
      slice_splice_same emptySector (show 0 + entry.length ≤ sectorSize by rw [hentry]; decide)
    rwa [hentry] at hsame
  · rw [if_neg hi, arraySector]
    split
    · rw [slice_splice_apart hin, slice_empty]
      right
      simp only [sectorSize] at *
      omega
    · exact slice_empty _ _

theorem entryIn_out (d : BlockDev) (sector : Sector) {within : ℕ}
    (hin : within + 128 ≤ sectorSize) :
    (entryIn sector within).out d () = (entryVolume (sector.slice within 128)).out d () := by
  rw [entryIn, if_neg (Nat.not_lt.mpr hin), Eff.out_bind, (sliceAt_inside d hin).1,
    Option.bind_some]

theorem entry_written (h : Written m m' usable last backupArray diskGuid partGuid) (d : BlockDev)
    {header : Sector} (hsize : header.le 84 4 = 128) {i : ℕ} (hi : i < 128) :
    (entryIn (m'.data (2 + i * 128 / sectorSize)) (i * header.le 84 4 % sectorSize)).out d () =
      some (if i = 0 then some ⟨espStartLba, usable - espStartLba + 1⟩ else none, ()) := by
  have hin : i * 128 % sectorSize + 128 ≤ sectorSize := by
    simp only [sectorSize]
    omega
  have hbig := h.big
  have hsector : i * 128 / sectorSize < 32 := by
    simp only [sectorSize]
    omega
  rw [hsize, entryIn_out d _ hin, h.primaryEntries _ hsector,
    arraySector_entry (partitionEntry_length h.partGuid_length _ _)]
  by_cases h0 : i = 0
  · have hle : espStartLba ≤ usable := by
      rw [UInt64.le_iff_toNat_le, h.usable_eq]
      simp [espStartLba]
      omega
    rw [if_pos h0, if_pos h0]
    exact entryVolume_esp d h.partGuid_length hle
  · rw [if_neg h0, if_neg h0]
    exact entryVolume_zero d

theorem volumes_written (h : Written m m' usable last backupArray diskGuid partGuid)
    (kind : DiskKind) :
    volumes.out (m'.dev kind) () = some ([⟨espStartLba, usable - espStartLba + 1⟩], ()) := by
  have hbig := h.big
  have hcap := m.capacity.toNat_lt
  have hread : ∀ lba : ℕ, lba < m.capacity.toNat →
      (m'.dev kind).read (UInt64.ofNat lba) = some (m'.data lba) := by
    intro lba hlba
    have hnat : (UInt64.ofNat lba).toNat = lba :=
      UInt64.toNat_ofNat_of_lt' (show lba < 2 ^ 64 by omega)
    rw [Media.dev, h.capacity]
    simp only [UInt64.lt_iff_toNat_lt, hnat, if_pos hlba]
  have hreads :
      HeaderReads (m'.data 1) 1 last 2
        (arrayCrc32 (partitionEntry partGuid espStartLba usable)) := by
    rw [h.primaryHeader]
    exact fillHeader_reads 1 last 2 usable _ h.diskGuid_length
  have hsize : (m'.data 1).le 84 4 = 128 := hreads.entrySize
  have hstart : (m'.data 1).le 72 8 = 2 := hreads.part
  have hlba : ∀ i, entryLba (m'.data 1) i = 2 + i * 128 / sectorSize := by
    intro i
    rw [entryLba, hstart, hsize]
  have hround : ∀ i < 128, (m'.dev kind).read (UInt64.ofNat (entryLba (m'.data 1) i)) =
      some (m'.data (2 + i * 128 / sectorSize)) := by
    intro i hi
    rw [hlba, hread]
    simp only [sectorSize]
    omega
  have hquiet : ∀ (n i : ℕ) (out : List Volume), 0 < i → i + n ≤ 128 →
      (entryLoop (UInt64.ofNat ((m'.data 1).le 72 8)) (UInt64.ofNat ((m'.data 1).le 84 4))
        n i out).out (m'.dev kind) () = some (out, ()) := by
    intro n
    induction n with
    | zero => exact fun _ _ _ _ => rfl
    | succ n ih =>
      intro i out hpos hfit
      have hentry := entry_written h (m'.dev kind) hsize (show i < 128 by omega)
      rw [if_neg hpos.ne'] at hentry
      rw [(entryLoop_next _ _ (by omega) (hround i (by omega)) hentry).1,
        ih (i + 1) _ (by omega) (by omega)]
      simp
  have hfirst := entry_written h (m'.dev kind) hsize (show 0 < 128 by omega)
  rw [if_pos rfl] at hfirst
  have hgpt : (gptVolumes (m'.data 1)).out (m'.dev kind) () =
      some ([⟨espStartLba, usable - espStartLba + 1⟩], ()) := by
    have hnum : min ((m'.data 1).le 80 4) 128 = 127 + 1 := by
      rw [hreads.entries]
      rfl
    rw [gptVolumes]
    rw [if_neg (by rw [hstart, hsize, hreads.entries]; decide), hnum,
      (entryLoop_next _ _ (by omega) (hround 0 (by omega)) hfirst).1, hquiet 127 1 _ (by omega)
      (by omega)]
    rfl
  rw [volumes]
  simp only [Eff.out_bind, out_readBlocksAt, Option.bind_some]
  rw [show (0 : UInt64) = UInt64.ofNat 0 from rfl, show (1 : UInt64) = UInt64.ofNat 1 from rfl,
    hread 0 (by omega)]
  simp only [Eff.out_bind, out_readBlocksAt, Option.bind_some]
  rw [hread 1 (by omega)]
  simp only [if_pos hreads.signature]
  exact hgpt

theorem partitioned_written (h : Written m m' usable last backupArray diskGuid partGuid)
    (kind : DiskKind) : m'.Partitioned kind ⟨espStartLba, usable - espStartLba + 1⟩ := by
  have hbig := h.big
  have husable := h.usable_eq
  have hfirst :
      HeaderReads (m'.data 1) 1 last 2
        (arrayCrc32 (partitionEntry partGuid espStartLba usable)) := by
    rw [h.primaryHeader]
    exact fillHeader_reads 1 last 2 usable _ h.diskGuid_length
  have hsecond : HeaderReads (m'.data (m.capacity.toNat - 1)) last 1 backupArray
      (arrayCrc32 (partitionEntry partGuid espStartLba usable)) := by
    rw [h.backupHeader]
    exact fillHeader_reads last 1 backupArray usable _ h.diskGuid_length
  have hsectors : (usable - espStartLba + 1).toNat = m.capacity.toNat - 34 - 2048 + 1 := by
    have hcap := m.capacity.toNat_lt
    have hle : espStartLba ≤ usable := by
      rw [UInt64.le_iff_toNat_le, husable]
      simp [espStartLba]
      omega
    rw [UInt64.toNat_add, UInt64.toNat_sub_of_le _ _ hle, husable]
    simp [espStartLba]
    omega
  have hextents : m'.extents ⟨espStartLba, usable - espStartLba + 1⟩ =
      [⟨0, 1⟩, ⟨1, 1⟩, ⟨2, 32⟩, ⟨2048, m.capacity.toNat - 34 - 2048 + 1⟩, ⟨m.capacity.toNat - 1, 1⟩,
        ⟨m.capacity.toNat - 33, 32⟩] := by
    rw [Media.extents, headerExtents, headerExtents, h.capacity, hfirst.my, hfirst.part,
      hfirst.entries, hfirst.entrySize, hsecond.my, hsecond.part, hsecond.entries,
      hsecond.entrySize, h.last_eq, h.backup_eq]
    simp only [hsectors]
    rfl
  refine ⟨volumes_written h kind, rfl, ?_, ?_, ?_, ?_, ?_, ?_⟩
  · rw [h.capacity]
    exact hsectors
  · rw [h.capacity, h.primaryHeader, h.backupHeader]
    exact ⟨fillHeader_verifies 1 last 2 usable _ h.diskGuid_length,
      fillHeader_verifies last 1 backupArray usable _ h.diskGuid_length⟩
  · rw [h.capacity]
    refine ⟨array_verifies hfirst h.primaryEntries, array_verifies hsecond ?_⟩
    rw [h.backup_eq]
    exact h.backupEntries
  · rw [Media.HeadersPaired, h.capacity, hfirst.my, hfirst.alt, hsecond.my, hsecond.alt, h.last_eq]
    exact ⟨rfl, rfl, rfl, rfl⟩
  · rw [hextents]
    simp [Extent.Apart]
    omega
  · rw [hextents, h.capacity]
    simp
    omega

end Read

section Install

variable {ok : ℕ → Bool} {m m' : Media} {t₁ t₂ disk : UInt64}

theorem writeBlocksAt_ok (lba : UInt64) (sector : Sector) (hok : ∀ i, ok i = true)
    (hlba : lba < m.capacity) : ∃ m', (writeBlocksAt lba sector).out ok m = some ((), m') ∧
    m'.capacity = m.capacity := by
  simp only [writeBlocksAt, Eff.out_bind, Eff.out_ask, Eff.out_get, Option.bind_some]
  rw [if_pos ⟨hok _, hlba⟩]
  exact ⟨_, rfl, rfl⟩

theorem arrayLoop_ok (start : UInt64) (n i : ℕ) (entry : List UInt8) (hok : ∀ i, ok i = true)
    (hfit : start.toNat + i + n ≤ m.capacity.toNat) :
    ∃ m', (arrayLoop start entry n i).out ok m = some ((), m') ∧ m'.capacity = m.capacity := by
  have hcap := m.capacity.toNat_lt
  induction n generalizing i m with
  | zero => exact ⟨m, rfl, rfl⟩
  | succ n ih =>
    have haddr : (start + UInt64.ofNat i).toNat = start.toNat + i := by
      rw [UInt64.toNat_add, UInt64.toNat_ofNat_of_lt' (show i < 2 ^ 64 by omega),
        Nat.mod_eq_of_lt (by omega)]
    have hlba : start + UInt64.ofNat i < m.capacity := by
      rw [UInt64.lt_iff_toNat_lt, haddr]
      omega
    obtain ⟨m₁, h₁, c₁⟩ := writeBlocksAt_ok _ (arraySector entry i) hok hlba
    obtain ⟨m₂, h₂, c₂⟩ := ih (m := m₁) (i + 1) (by rw [c₁]; omega) (c₁ ▸ hcap)
    exact ⟨m₂, by simp only [arrayLoop, Eff.out_bind, h₁, Option.bind_some, h₂], c₂.trans c₁⟩

theorem bind_ok {x f : Install Unit}
    (hx : ∃ m₁, x.out ok m = some ((), m₁) ∧ m₁.capacity = m.capacity)
    (hf : ∀ m₁, m₁.capacity = m.capacity → ∃ m₂, f.out ok m₁ = some ((), m₂)) :
    ∃ m₂, (x >>= fun _ => f).out ok m = some ((), m₂) := by
  obtain ⟨m₁, h₁, hcap⟩ := hx
  obtain ⟨m₂, h₂⟩ := hf m₁ hcap
  exact ⟨m₂, by rw [Eff.out_bind, h₁, Option.bind_some, h₂]⟩

theorem writeEsp_ok (m : Media) (t₁ t₂ disk : UInt64) (hok : ∀ i, ok i = true)
    (hbig : 131072 ≤ m.capacity.toNat) : ∃ m', (writeEsp t₁ t₂ disk).out ok m = some ((), m') := by
  have hcap := m.capacity.toNat_lt
  have hlast := last_toNat hbig
  have hbackup := backupArray_toNat hbig
  have hsize : arraySectors.toNat = 32 := rfl
  obtain ⟨usable, husable⟩ : ∃ usable, lastUsable m.capacity = some usable := by
    refine ⟨m.capacity - 1 - (arraySectors + 1), ?_⟩
    have hmin : ¬ m.capacity < minSectors := UInt64.not_lt.mpr (UInt64.le_iff_toNat_le.mpr hbig)
    have hroom : ¬ m.capacity - 1 < arraySectors + 1 := by
      rw [UInt64.lt_iff_toNat_lt, hlast]
      simp [arraySectors]
      omega
    simp only [lastUsable, if_neg hmin, if_neg hroom]
  have henough : ¬ usable < espStartLba := by
    rw [UInt64.lt_iff_toNat_lt, (lastUsable_some husable).2]
    simp [espStartLba]
    omega
  have hbelow :
      ∀ {m₁ : Media} (lba : UInt64), m₁.capacity = m.capacity → lba.toNat < m.capacity.toNat →
      lba < m₁.capacity := fun lba hc hlt => by
    rw [hc]
    exact UInt64.lt_iff_toNat_lt.mpr hlt
  simp only [writeEsp, Eff.out_bind, Eff.out_get, Option.bind_some, husable]
  rw [if_neg henough]
  refine bind_ok (writeBlocksAt_ok 0 _ hok (hbelow 0 rfl (by simp; omega))) fun m₁ c₁ => ?_
  refine bind_ok (writeBlocksAt_ok 1 _ hok (hbelow 1 c₁ (by simp; omega))) fun m₂ c₂ => ?_
  rw [c₁] at c₂
  refine bind_ok (arrayLoop_ok 2 _ 0 _ hok (by rw [c₂, hsize]; simp; omega)) fun m₃ c₃ => ?_
  rw [c₂] at c₃
  refine bind_ok (arrayLoop_ok _ _ 0 _ hok (by rw [c₃, hbackup, hsize]; omega)) fun m₄ c₄ => ?_
  rw [c₃] at c₄
  obtain ⟨m₅, h₅, -⟩ := writeBlocksAt_ok (m.capacity - 1) (fillHeader (m.capacity - 1) 1
    (m.capacity - 1 - arraySectors) usable (makeGuid t₁ disk 0xD15C)
    (arrayCrc32 (partitionEntry (makeGuid t₂ disk 0xE5F) espStartLba usable))) hok
    (hbelow _ c₄ (by rw [hlast]; omega))
  exact ⟨m₅, h₅⟩

def smallestDisk : Media := ⟨131072, fun _ => emptySector, 0⟩

end Install

end CoeleoOs.Fs.Gpt
