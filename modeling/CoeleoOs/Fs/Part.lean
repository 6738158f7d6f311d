import CoeleoOs.Fs.FatDisk
import CoeleoOs.Lib.Effect
import Mathlib.Data.Nat.Digits.Defs

/-!
# The partition scan

`volumes` reads the GPT of a disk, or its MBR where there is none. The log keeps every
addition, subtraction or multiplication that leaves its type, which wraps in this build,
and every slice outside its sector. A sector may hold anything, and every read may fail.
-/

namespace CoeleoOs.Fs
open CoeleoOs.Lib

/-- The number that `n` bytes hold, the lowest first. -/
def Sector.le (b : Sector) (off n : ℕ) : ℕ := Nat.ofDigits 256 ((b.slice off n).map UInt8.toNat)

def leOf (bytes : List UInt8) (off n : ℕ) : ℕ :=
  Nat.ofDigits 256 (((bytes.drop off).take n).map UInt8.toNat)

inductive Fault
  | overflow
  | bounds
  deriving DecidableEq

inductive DiskKind
  | virtio
  | ahci
  | usb
  deriving DecidableEq

/-- A disk as the scan sees it. -/
structure BlockDev where
  kind : DiskKind
  read : UInt64 → Option Sector

structure Volume where
  startLba : UInt64
  sectors : UInt64
  deriving DecidableEq

abbrev Scan := Eff BlockDev Fault Unit

def noting (c : Bool) : Scan Unit := if c then Eff.tell .overflow else pure ()

def addU64 (a b : UInt64) : Scan UInt64 := do
  noting (2 ^ 64 ≤ a.toNat + b.toNat)
  pure (a + b)

def subU64 (a b : UInt64) : Scan UInt64 := do
  noting (a < b)
  pure (a - b)

def mulU64 (a b : UInt64) : Scan UInt64 := do
  noting (2 ^ 64 ≤ a.toNat * b.toNat)
  pure (a * b)

def sliceAt (b : Sector) (off n : ℕ) : Scan (List UInt8) :=
  if sectorSize < off + n then do
    Eff.tell .bounds
    Eff.abort
  else pure (b.slice off n)

def readBlocksAt (lba : UInt64) : Scan (Option Sector) := do
  let d ← Eff.ask
  match d.read lba with
  | none => pure none
  | some sector => do
    if d.kind ≠ .virtio then noting (2 ^ 64 ≤ lba.toNat + 1) else pure ()
    pure (some sector)

def guidEsp : List UInt8 :=
  [0x28, 0x73, 0x2A, 0xC1, 0x1F, 0xF8, 0xD2, 0x11, 0xBA, 0x4B, 0x00, 0xA0, 0xC9, 0x3E, 0xC9, 0x3B]

def guidBasic : List UInt8 :=
  [0xA2, 0xA0, 0xD0, 0xEB, 0xE5, 0xB9, 0x33, 0x44, 0x87, 0xC0, 0x68, 0xB6, 0xB7, 0x26, 0x99, 0xC7]

-- "EFI PART"
def efiPart : List UInt8 := [0x45, 0x46, 0x49, 0x20, 0x50, 0x41, 0x52, 0x54]

def entryVolume (ent : List UInt8) : Scan (Option Volume) :=
  let ty := ent.take 16
  if ty = List.replicate 16 0 then pure none
  else if ty ≠ guidEsp ∧ ty ≠ guidBasic then pure none
  else
    let first := UInt64.ofNat (leOf ent 32 8)
    let last := UInt64.ofNat (leOf ent 40 8)
    if last < first then pure none
    else do
      let span ← subU64 last first
      let sectors ← addU64 span 1
      pure (some ⟨first, sectors⟩)

-- An entry that would cross the end of its sector is passed over.
def entryIn (sector : Sector) (within : ℕ) : Scan (Option Volume) :=
  if sectorSize < within + 128 then pure none
  else do
    let ent ← sliceAt sector within 128
    entryVolume ent

def entryLoop (partLba entSize : UInt64) : ℕ → ℕ → List Volume → Scan (List Volume)
  | 0, _, out => pure out
  | n + 1, i, out => do
    let off ← mulU64 (UInt64.ofNat i) entSize
    let lba ← addU64 partLba (off / 512)
    let within := (off % 512).toNat
    match ← readBlocksAt lba with
    | none => pure out
    | some sector => do
      let v ← entryIn sector within
      entryLoop partLba entSize n (i + 1) (out ++ v.toList)

def gptVolumes (header : Sector) : Scan (List Volume) :=
  let partLba := UInt64.ofNat (header.le 72 8)
  let num := header.le 80 4
  let entSize := header.le 84 4
  if partLba = 0 ∨ num = 0 ∨ entSize < 128 then pure []
  else entryLoop partLba (UInt64.ofNat entSize) (min num 128) 0 []

def mbrLoop (sector : Sector) : ℕ → ℕ → List Volume → Scan (List Volume)
  | 0, _, out => pure out
  | n + 1, i, out => do
    let e ← sliceAt sector (446 + i * 16) 16
    let ty := e[4]?.getD 0
    let start := leOf e 8 4
    let count := leOf e 12 4
    if ty ≠ 0x0B ∧ ty ≠ 0x0C ∧ ty ≠ 0xEF then mbrLoop sector n (i + 1) out
    else if start = 0 ∨ count = 0 then mbrLoop sector n (i + 1) out
    else mbrLoop sector n (i + 1) (out ++ [⟨UInt64.ofNat start, UInt64.ofNat count⟩])

def mbrVolumes (sector : Sector) : Scan (List Volume) :=
  if sector.get 510 ≠ 0x55 ∨ sector.get 511 ≠ 0xAA then pure [] else mbrLoop sector 4 0 []

def volumes : Scan (List Volume) := do
  match ← readBlocksAt 0 with
  | none => pure []
  | some sector =>
    match ← readBlocksAt 1 with
    | none => mbrVolumes sector
    | some header => if header.slice 0 8 = efiPart then gptVolumes header else mbrVolumes sector

def Volume.Sound (v : Volume) : Prop :=
  1 ≤ v.sectors.toNat ∧ v.startLba.toNat + v.sectors.toNat ≤ 2 ^ 64

/-- The scan ends with sound volumes, without an overflow and without leaving a sector. -/
def ScanSound (d : BlockDev) (m : Scan (List Volume)) : Prop :=
  m.log d () = [] ∧ ∃ vs, m.out d () = some (vs, ()) ∧ ∀ v ∈ vs, v.Sound

def entryLba (header : Sector) (i : ℕ) : ℕ := header.le 72 8 + i * header.le 84 4 / sectorSize

def entryAt (header sector : Sector) (i : ℕ) : List UInt8 :=
  sector.slice (i * header.le 84 4 % sectorSize) 128

def Whole (ent : List UInt8) : Prop :=
  (ent.take 16 = guidEsp ∨ ent.take 16 = guidBasic) ∧ leOf ent 32 8 = 0 ∧ leOf ent 40 8 = 2 ^ 64 - 1

/-- Entry `i` has a sector, one that the driver can step past, and not all sectors. -/
def EntryInRange (d : BlockDev) (header : Sector) (i : ℕ) : Prop :=
  entryLba header i < 2 ^ 64 ∧ ∀ sector, d.read (UInt64.ofNat (entryLba header i)) = some sector →
    (d.kind = .virtio ∨ entryLba header i + 1 < 2 ^ 64) ∧
      (i * header.le 84 4 % sectorSize + 128 ≤ sectorSize → ¬ Whole (entryAt header sector i))

def EntriesInRange (d : BlockDev) (header : Sector) : Prop :=
  ∀ i < min (header.le 80 4) 128, (∀ j < i, d.read (UInt64.ofNat (entryLba header j)) ≠ none) →
    EntryInRange d header i

/-- The condition of a sound scan: it is about the entries of a GPT only. -/
def DiskInRange (d : BlockDev) : Prop :=
  ∀ sector header, d.read 0 = some sector → d.read 1 = some header → header.slice 0 8 = efiPart →
    header.le 72 8 ≠ 0 → 128 ≤ header.le 84 4 → EntriesInRange d header

section Arithmetic

variable (d : BlockDev) (a b : UInt64) (c : Bool)

@[simp] theorem out_noting : (noting c).out d () = some ((), ()) := by
  cases c <;> rfl

@[simp] theorem log_noting : (noting c).log d () = if c then [.overflow] else [] := by
  cases c <;> rfl

@[simp] theorem out_addU64 : (addU64 a b).out d () = some (a + b, ()) := by simp [addU64]

@[simp] theorem log_addU64 : (addU64 a b).log d () = if 2 ^ 64 ≤ a.toNat + b.toNat then [.overflow]
    else [] := by
  simp [addU64]

@[simp] theorem out_subU64 : (subU64 a b).out d () = some (a - b, ()) := by simp [subU64]

@[simp] theorem log_subU64 : (subU64 a b).log d () = if a < b then [.overflow] else [] := by
  simp [subU64]

@[simp] theorem out_mulU64 : (mulU64 a b).out d () = some (a * b, ()) := by simp [mulU64]

@[simp] theorem log_mulU64 : (mulU64 a b).log d () = if 2 ^ 64 ≤ a.toNat * b.toNat then [.overflow]
    else [] := by
  simp [mulU64]

@[simp] theorem out_readBlocksAt (lba : UInt64) :
    (readBlocksAt lba).out d () = some (d.read lba, ()) := by
  cases h : d.read lba <;> simp [readBlocksAt, h]

theorem log_readBlocksAt (lba : UInt64) : (readBlocksAt lba).log d () =
    if d.read lba ≠ none ∧ d.kind ≠ .virtio ∧ 2 ^ 64 ≤ lba.toNat + 1 then [.overflow] else [] := by
  cases h : d.read lba with
  | none => simp [readBlocksAt, h]
  | some sector =>
    by_cases hk : d.kind = .virtio <;> simp [readBlocksAt, h, hk]

end Arithmetic

section Bytes

variable {b : Sector} {off n : ℕ} {ent : List UInt8}

theorem ofDigits_bytes_lt (bytes : List UInt8) :
    Nat.ofDigits 256 (bytes.map UInt8.toNat) < 256 ^ bytes.length := by
  induction bytes with
  | nil => simp
  | cons x xs ih =>
    have hx := x.toNat_lt
    rw [List.map_cons, Nat.ofDigits_cons, List.length_cons, Nat.pow_succ]
    omega

theorem slice_length : (b.slice off n).length = n := by
  simp [Sector.slice]

theorem le_lt (b : Sector) (off n : ℕ) : b.le off n < 256 ^ n := by
  have hlt := ofDigits_bytes_lt (b.slice off n)
  rwa [slice_length] at hlt

theorem leOf_lt (ent : List UInt8) (off n : ℕ) : leOf ent off n < 256 ^ n := by
  refine (ofDigits_bytes_lt _).trans_le (Nat.pow_le_pow_right (by decide) ?_)
  rw [List.length_take]
  exact min_le_left _ _

theorem sliceAt_inside (d : BlockDev) (h : off + n ≤ sectorSize) :
    (sliceAt b off n).out d () = some (b.slice off n, ()) ∧ (sliceAt b off n).log d () = [] := by
  rw [sliceAt, if_neg (Nat.not_lt.mpr h)]
  exact ⟨rfl, rfl⟩

end Bytes

theorem scanSound_bind {d : BlockDev} {α : Type} {m : Scan α} {f : α → Scan (List Volume)} {a : α}
    (hout : m.out d () = some (a, ())) (hlog : m.log d () = []) : ScanSound d (m >>= f) ↔
    ScanSound d (f a) := by
  rw [ScanSound, ScanSound, Eff.log_bind, Eff.out_bind, hout, hlog]
  rfl

section Entries

variable {d : BlockDev} {ent : List UInt8}

theorem entryVolume_spec (d : BlockDev) (ent : List UInt8) :
    ∃ v : Option Volume, (entryVolume ent).out d () = some (v, ()) ∧
      ((entryVolume ent).log d () = [] ↔ ¬ Whole ent) ∧ (¬ Whole ent → ∀ w ∈ v, w.Sound) := by
  have hfirst : (UInt64.ofNat (leOf ent 32 8)).toNat = leOf ent 32 8 :=
    UInt64.toNat_ofNat_of_lt' (leOf_lt ent 32 8)
  have hlast : (UInt64.ofNat (leOf ent 40 8)).toNat = leOf ent 40 8 :=
    UInt64.toNat_ofNat_of_lt' (leOf_lt ent 40 8)
  have hbound := leOf_lt ent 40 8
  by_cases hzero : ent.take 16 = List.replicate 16 0
  · have hnot : ¬ Whole ent := by
      rintro ⟨htype, -⟩
      rw [hzero] at htype
      exact absurd htype (by decide)
    refine ⟨none, ?_, ?_, by simp⟩
    · simp only [entryVolume, if_pos hzero, Eff.out_pure]
    · simp only [entryVolume, if_pos hzero, Eff.log_pure, hnot, not_false_eq_true]
  · by_cases htype : ent.take 16 ≠ guidEsp ∧ ent.take 16 ≠ guidBasic
    · have hnot : ¬ Whole ent := fun hw => hw.1.elim htype.1 htype.2
      refine ⟨none, ?_, ?_, by simp⟩
      · simp only [entryVolume, if_neg hzero, if_pos htype, Eff.out_pure]
      · simp only [entryVolume, if_neg hzero, if_pos htype, Eff.log_pure, hnot, not_false_eq_true]
    · by_cases hlt : UInt64.ofNat (leOf ent 40 8) < UInt64.ofNat (leOf ent 32 8)
      · have hnot : ¬ Whole ent := by
          rintro ⟨-, h0, -⟩
          rw [h0] at hlt
          exact absurd hlt (by simp)
        refine ⟨none, ?_, ?_, by simp⟩
        · simp only [entryVolume, if_neg hzero, if_neg htype, if_pos hlt, Eff.out_pure]
        · simp only [entryVolume, if_neg hzero, if_neg htype, if_pos hlt, Eff.log_pure, hnot,
            not_false_eq_true]
      · have hle : UInt64.ofNat (leOf ent 32 8) ≤ UInt64.ofNat (leOf ent 40 8) :=
          UInt64.not_lt.mp hlt
        have hspan : (UInt64.ofNat (leOf ent 40 8) - UInt64.ofNat (leOf ent 32 8)).toNat =
            leOf ent 40 8 - leOf ent 32 8 := by
          rw [UInt64.toNat_sub_of_le _ _ hle, hfirst, hlast]
        have hle' : leOf ent 32 8 ≤ leOf ent 40 8 := by
          rw [← hfirst, ← hlast]
          exact UInt64.le_iff_toNat_le.mp hle
        have hwhole : Whole ent ↔ 2 ^ 64 ≤ leOf ent 40 8 - leOf ent 32 8 + 1 := by
          constructor
          · rintro ⟨-, h0, h1⟩
            omega
          · intro hspan
            refine ⟨?_, by omega, by omega⟩
            by_contra hneither
            exact htype (not_or.mp hneither)
        refine ⟨some ⟨UInt64.ofNat (leOf ent 32 8),
          UInt64.ofNat (leOf ent 40 8) - UInt64.ofNat (leOf ent 32 8) + 1⟩,
          ?_, ?_, ?_⟩
        · simp only [entryVolume, if_neg hzero, if_neg htype, if_neg hlt, Eff.out_bind,
            out_subU64, out_addU64, Option.bind_some, Eff.out_pure]
        · simp only [entryVolume, if_neg hzero, if_neg htype, if_neg hlt, Eff.log_bind,
            Eff.log_pure, out_subU64, out_addU64, log_subU64, log_addU64, Option.elim_some,
            List.nil_append, List.append_nil, hspan, hwhole, UInt64.toNat_one]
          split_ifs <;> simp_all
        · intro hnot w hw
          obtain rfl := Option.some.inj hw
          rw [hwhole] at hnot
          simp only [Volume.Sound, UInt64.toNat_add, hspan, hfirst, UInt64.toNat_one]
          omega

/-- What round `i` computes before its read. -/
structure Round (header : Sector) (i : ℕ) (off lba : UInt64) : Prop where
  mul : UInt64.ofNat i * UInt64.ofNat (header.le 84 4) = off
  fits : ¬ 2 ^ 64 ≤ (UInt64.ofNat i).toNat * (UInt64.ofNat (header.le 84 4)).toNat
  add : UInt64.ofNat (header.le 72 8) + off / 512 = lba
  sum : (UInt64.ofNat (header.le 72 8)).toNat + (off / 512).toNat = entryLba header i
  within : (off % 512).toNat = i * header.le 84 4 % sectorSize
  lba : lba = UInt64.ofNat (entryLba header i)

theorem round_spec (header : Sector) {i : ℕ} (hi : i < 128) :
    ∃ off lba, Round header i off lba := by
  have hsize := le_lt header 84 4
  have hstart := le_lt header 72 8
  have hi' : (UInt64.ofNat i).toNat = i := UInt64.toNat_ofNat_of_lt' (show _ < 2 ^ 64 by omega)
  have hs' : (UInt64.ofNat (header.le 84 4)).toNat = header.le 84 4 :=
    UInt64.toNat_ofNat_of_lt' (show _ < 2 ^ 64 by omega)
  have hp' : (UInt64.ofNat (header.le 72 8)).toNat = header.le 72 8 :=
    UInt64.toNat_ofNat_of_lt' hstart
  have hprod : i * header.le 84 4 < 2 ^ 64 := by
    calc i * header.le 84 4 ≤ 128 * 256 ^ 4 := Nat.mul_le_mul hi.le hsize.le
      _ < 2 ^ 64 := by decide
  have hoff : (UInt64.ofNat i * UInt64.ofNat (header.le 84 4)).toNat = i * header.le 84 4 := by
    rw [UInt64.toNat_mul, hi', hs', Nat.mod_eq_of_lt hprod]
  have hdiv : ((UInt64.ofNat i * UInt64.ofNat (header.le 84 4)) / 512).toNat =
      i * header.le 84 4 / sectorSize := by
    rw [UInt64.toNat_div, hoff]
    rfl
  refine ⟨_, _, rfl, ?_, rfl, ?_, ?_, ?_⟩
  · rw [hi', hs']
    omega
  · rw [hp', hdiv, entryLba]
  · rw [UInt64.toNat_mod, hoff]
    rfl
  · apply UInt64.toNat_inj.mp
    rw [UInt64.toNat_add, hp', hdiv, UInt64.toNat_ofNat', entryLba]

theorem entryIn_spec (d : BlockDev) (sector : Sector) (within : ℕ) :
    ∃ v : Option Volume, (entryIn sector within).out d () = some (v, ()) ∧
      ((entryIn sector within).log d () = [] ↔
        (within + 128 ≤ sectorSize → ¬ Whole (sector.slice within 128))) ∧
      ((entryIn sector within).log d () = [] → ∀ w ∈ v, w.Sound) := by
  by_cases hcross : sectorSize < within + 128
  · refine ⟨none, ?_, ?_, by simp⟩
    · rw [entryIn, if_pos hcross, Eff.out_pure]
    · rw [entryIn, if_pos hcross, Eff.log_pure]
      exact iff_of_true rfl fun hle => absurd hcross (Nat.not_lt.mpr hle)
  · have hle := Nat.not_lt.mp hcross
    obtain ⟨hout, hlog⟩ := sliceAt_inside (b := sector) d hle
    obtain ⟨v, hv, hwhole, hsound⟩ := entryVolume_spec d (sector.slice within 128)
    refine ⟨v, ?_, ?_, ?_⟩
    · rw [entryIn, if_neg hcross, Eff.out_bind, hout, Option.bind_some, hv]
    · rw [entryIn, if_neg hcross, Eff.log_bind, hlog, hout, Option.elim_some,
        List.nil_append, hwhole]
      exact ⟨fun h _ => h, fun h => h hle⟩
    · rw [entryIn, if_neg hcross, Eff.log_bind, hlog, hout, Option.elim_some,
        List.nil_append, hwhole]
      exact hsound

theorem entryLoop_stop {header : Sector} {i : ℕ} (n : ℕ) (out : List Volume) (hi : i < 128)
    (hread : d.read (UInt64.ofNat (entryLba header i)) = none) :
    (entryLoop (UInt64.ofNat (header.le 72 8)) (UInt64.ofNat (header.le 84 4))
        (n + 1) i out).out d () = some (out, ()) ∧
      (entryLoop (UInt64.ofNat (header.le 72 8)) (UInt64.ofNat (header.le 84 4))
        (n + 1) i out).log d () = if 2 ^ 64 ≤ entryLba header i then [.overflow] else [] := by
  obtain ⟨off, lba, hround⟩ := round_spec header hi
  rw [← hround.lba] at hread
  constructor
  · simp only [entryLoop, Eff.out_bind, out_mulU64, out_addU64, Option.bind_some,
      hround.mul, hround.add, out_readBlocksAt, hread, Eff.out_pure]
  · simp only [entryLoop, Eff.log_bind, out_mulU64, out_addU64, log_mulU64, log_addU64,
      log_readBlocksAt, Option.elim_some, hround.mul, hround.add, hround.fits, hround.sum,
      out_readBlocksAt, hread, Eff.log_pure, if_false, ne_eq, not_true_eq_false, false_and,
      List.nil_append, List.append_nil]

theorem entryLoop_next {header sector : Sector} {i : ℕ} (n : ℕ) (out : List Volume)
    {v : Option Volume} (hi : i < 128)
    (hread : d.read (UInt64.ofNat (entryLba header i)) = some sector)
    (hv : (entryIn sector (i * header.le 84 4 % sectorSize)).out d () = some (v, ())) :
    (entryLoop (UInt64.ofNat (header.le 72 8)) (UInt64.ofNat (header.le 84 4))
        (n + 1) i out).out d () =
        (entryLoop (UInt64.ofNat (header.le 72 8)) (UInt64.ofNat (header.le 84 4))
          n (i + 1) (out ++ v.toList)).out d () ∧
      (entryLoop (UInt64.ofNat (header.le 72 8)) (UInt64.ofNat (header.le 84 4))
        (n + 1) i out).log d () =
        (if 2 ^ 64 ≤ entryLba header i then [.overflow] else []) ++
          ((if d.kind ≠ .virtio ∧ 2 ^ 64 ≤ (UInt64.ofNat (entryLba header i)).toNat + 1
            then [.overflow] else []) ++
            ((entryIn sector (i * header.le 84 4 % sectorSize)).log d () ++
              (entryLoop (UInt64.ofNat (header.le 72 8)) (UInt64.ofNat (header.le 84 4))
                n (i + 1) (out ++ v.toList)).log d ())) := by
  obtain ⟨off, lba, hround⟩ := round_spec header hi
  rw [← hround.lba] at hread ⊢
  constructor
  · simp only [entryLoop, Eff.out_bind, out_mulU64, out_addU64, Option.bind_some,
      hround.mul, hround.add, hround.within, out_readBlocksAt, hread, hv]
  · simp only [entryLoop, Eff.log_bind, out_mulU64, out_addU64, log_mulU64, log_addU64,
      log_readBlocksAt, Option.elim_some, hround.mul, hround.add, hround.fits, hround.sum,
      hround.within, out_readBlocksAt, hread, hv, if_false, ne_eq, reduceCtorEq, not_false_eq_true,
      true_and, List.nil_append]

theorem overflow_eq_nil {c : Prop} [Decidable c] :
    (if c then [Fault.overflow] else []) = [] ↔ ¬ c := by
  split <;> simp [*]

theorem entryInRange_iff {header sector : Sector} {i : ℕ}
    (hread : d.read (UInt64.ofNat (entryLba header i)) = some sector) :
    EntryInRange d header i ↔ ¬ 2 ^ 64 ≤ entryLba header i ∧
      ¬ (d.kind ≠ .virtio ∧ 2 ^ 64 ≤ (UInt64.ofNat (entryLba header i)).toNat + 1) ∧
        (entryIn sector (i * header.le 84 4 % sectorSize)).log d () = [] := by
  obtain ⟨v, -, hwhole, -⟩ := entryIn_spec d sector (i * header.le 84 4 % sectorSize)
  rw [hwhole, Nat.not_le]
  refine and_congr_right fun hfits => ?_
  rw [UInt64.toNat_ofNat_of_lt' hfits, not_and_or, not_not, Nat.not_le]
  constructor
  · exact fun h => h sector hread
  · intro h sector' hs
    obtain rfl := Option.some.inj (hread.symm.trans hs)
    exact h

theorem entryLoop_sound {header : Sector} {n i : ℕ} {out : List Volume} (hi : i + n ≤ 128) :
    ScanSound d (entryLoop (UInt64.ofNat (header.le 72 8)) (UInt64.ofNat (header.le 84 4)) n i
      out) ↔ (∀ v ∈ out, v.Sound) ∧ ∀ k < n, (∀ j, i ≤ j → j < i + k →
      d.read (UInt64.ofNat (entryLba header j)) ≠ none) → EntryInRange d header (i + k) := by
  induction n generalizing i out with
  | zero =>
    constructor
    · rintro ⟨-, vs, hout, hsound⟩
      obtain ⟨rfl, -⟩ := Prod.mk.inj (Option.some.inj hout)
      exact ⟨hsound, fun k hk => absurd hk (Nat.not_lt_zero k)⟩
    · rintro ⟨hsound, -⟩
      exact ⟨rfl, out, rfl, hsound⟩
  | succ n ih =>
    cases hread : d.read (UInt64.ofNat (entryLba header i)) with
    | none =>
      obtain ⟨hout, hlog⟩ := entryLoop_stop n out (by omega) hread
      rw [ScanSound, hout, hlog, overflow_eq_nil]
      constructor
      · rintro ⟨hfits, vs, hvs, hsound⟩
        obtain ⟨rfl, -⟩ := Prod.mk.inj (Option.some.inj hvs)
        refine ⟨hsound, fun k _ hreached => ?_⟩
        rcases Nat.eq_zero_or_pos k with rfl | hk
        · refine ⟨Nat.not_le.mp hfits, fun sector hs => ?_⟩
          rw [Nat.add_zero, hread] at hs
          cases hs
        · exact absurd hread (hreached i le_rfl (by omega))
      · rintro ⟨hsound, hrange⟩
        have hfirst := hrange 0 (by omega) (fun j hj hlt => absurd hlt (by omega))
        exact ⟨Nat.not_le.mpr hfirst.1, out, rfl, hsound⟩
    | some sector =>
      obtain ⟨v, hv, hwhole, hgood⟩ := entryIn_spec d sector (i * header.le 84 4 % sectorSize)
      obtain ⟨hout, hlog⟩ := entryLoop_next n out (by omega) hread hv
      have hsplit :
          ScanSound d (entryLoop (UInt64.ofNat (header.le 72 8)) (UInt64.ofNat (header.le 84 4))
            (n + 1) i out) ↔ EntryInRange d header i ∧
            ScanSound d (entryLoop (UInt64.ofNat (header.le 72 8)) (UInt64.ofNat (header.le 84 4)) n
              (i + 1) (out ++ v.toList)) := by
        rw [ScanSound, ScanSound, hout, hlog, entryInRange_iff hread]
        simp only [List.append_eq_nil_iff, overflow_eq_nil, and_assoc]
      rw [hsplit, ih (by omega)]
      constructor
      · rintro ⟨hhere, hsound, hrange⟩
        refine ⟨fun w hw => hsound w (List.mem_append_left _ hw), fun k hk hreached => ?_⟩
        cases k with
        | zero => exact hhere
        | succ k =>
          rw [show i + (k + 1) = i + 1 + k by omega]
          exact hrange k (by omega) fun j hj hlt => hreached j (by omega) (by omega)
      · rintro ⟨hsound, hrange⟩
        have hhere : EntryInRange d header i :=
          hrange 0 (by omega) (fun j hj hlt => absurd hlt (by omega))
        refine ⟨hhere, ?_, fun k hk hreached => ?_⟩
        · intro w hw
          rcases List.mem_append.mp hw with hw | hw
          · exact hsound w hw
          · exact hgood ((entryInRange_iff hread).mp hhere).2.2 w (Option.mem_toList.mp hw)
        · rw [show i + 1 + k = i + (k + 1) by omega]
          refine hrange (k + 1) (by omega) fun j hj hlt => ?_
          rcases Nat.eq_or_lt_of_le hj with rfl | hj
          · rw [hread]
            exact Option.some_ne_none sector
          · exact hreached j hj (by omega)

theorem gptVolumes_sound (header : Sector) : ScanSound d (gptVolumes header) ↔
    (header.le 72 8 ≠ 0 → 128 ≤ header.le 84 4 → EntriesInRange d header) := by
  have hstart : UInt64.ofNat (header.le 72 8) = 0 ↔ header.le 72 8 = 0 := by
    rw [← UInt64.toNat_inj, UInt64.toNat_ofNat_of_lt' (le_lt header 72 8)]
    rfl
  by_cases hno : header.le 72 8 = 0 ∨ header.le 80 4 = 0 ∨ header.le 84 4 < 128
  · rw [gptVolumes, if_pos (hno.imp_left hstart.mpr)]
    refine iff_of_true ⟨rfl, [], rfl, by simp⟩ fun hlba hsize i hi => ?_
    rcases hno with h | h | h
    · exact absurd h hlba
    · rw [h, Nat.zero_min] at hi
      exact absurd hi (Nat.not_lt_zero i)
    · omega
  · rw [gptVolumes, if_neg (fun h => hno (h.imp_left hstart.mp)), entryLoop_sound (by omega)]
    rw [not_or, not_or] at hno
    constructor
    · rintro ⟨-, hrange⟩ - - i hi hreached
      have hthis := hrange i hi fun j _ hj => hreached j (by omega)
      rwa [Nat.zero_add] at hthis
    · intro hrange
      refine ⟨by simp, fun k hk hreached => ?_⟩
      rw [Nat.zero_add]
      exact hrange hno.1 (by omega) k hk fun j hj => hreached j (Nat.zero_le j) (by omega)

theorem mbrLoop_sound {sector : Sector} {n i : ℕ} {out : List Volume} (hi : i + n ≤ 4)
    (hout : ∀ v ∈ out, v.Sound) : ScanSound d (mbrLoop sector n i out) := by
  induction n generalizing i out with
  | zero => exact ⟨rfl, out, rfl, hout⟩
  | succ n ih =>
    have hslice := sliceAt_inside (b := sector) (n := 16) d (show 446 + i * 16 + 16 ≤ sectorSize by
      simp only [sectorSize]
      omega)
    have hnext : ∀ out', (∀ v ∈ out', v.Sound) → ScanSound d (mbrLoop sector n (i + 1) out') :=
      fun _ => ih (by omega)
    rw [mbrLoop, scanSound_bind hslice.1 hslice.2]
    dsimp only
    split
    · exact hnext out hout
    · split
      · exact hnext out hout
      · rename_i hpos
        refine hnext _ fun v hv => ?_
        rcases List.mem_append.mp hv with hv | hv
        · exact hout v hv
        · obtain rfl := List.mem_singleton.mp hv
          have hstart := leOf_lt (sector.slice (446 + i * 16) 16) 8 4
          have hcount := leOf_lt (sector.slice (446 + i * 16) 16) 12 4
          rw [not_or] at hpos
          rw [Volume.Sound, UInt64.toNat_ofNat_of_lt' (show _ < 2 ^ 64 by omega),
            UInt64.toNat_ofNat_of_lt' (show _ < 2 ^ 64 by omega)]
          omega

theorem mbrVolumes_sound (sector : Sector) : ScanSound d (mbrVolumes sector) := by
  rw [mbrVolumes]
  split
  · exact ⟨rfl, [], rfl, by simp⟩
  · exact mbrLoop_sound (by omega) (by simp)

/-- The scan of a disk is sound if and only if no entry of a GPT leads it out of range. -/
theorem volumes_sound_iff (d : BlockDev) : ScanSound d volumes ↔ DiskInRange d := by
  have hlog : ∀ lba : UInt64, lba.toNat < 2 → (readBlocksAt lba).log d () = [] := by
    intro lba hlba
    rw [log_readBlocksAt, overflow_eq_nil]
    rintro ⟨-, -, hlast⟩
    omega
  rw [volumes, scanSound_bind (out_readBlocksAt d 0) (hlog 0 (by decide))]
  cases h0 : d.read 0 with
  | none =>
    refine iff_of_true ⟨rfl, [], rfl, by simp⟩ fun sector header hs => ?_
    cases h0.symm.trans hs
  | some sector =>
    dsimp only
    rw [scanSound_bind (out_readBlocksAt d 1) (hlog 1 (by decide))]
    cases h1 : d.read 1 with
    | none =>
      refine iff_of_true (mbrVolumes_sound sector) fun _ header _ hs => ?_
      cases h1.symm.trans hs
    | some header =>
      dsimp only
      split
      · rename_i hefi
        rw [gptVolumes_sound]
        constructor
        · intro h s hd hs hh _
          obtain rfl := Option.some.inj (h1.symm.trans hh)
          exact h
        · intro h
          exact h sector header h0 h1 hefi
      · rename_i hefi
        refine iff_of_true (mbrVolumes_sound sector) fun s hd hs hh hsig => ?_
        obtain rfl := Option.some.inj (h1.symm.trans hh)
        exact absurd hsig hefi

end Entries

def emptySector : Sector := fun _ => 0

def wholeDisk : BlockDev where
  kind := .usb
  read lba :=
    if lba = 1
      then some ((((emptySector.splice 0 efiPart).splice 72 [2]).splice 80 [1]).splice 84 [128])
    else if lba = 2 then some ((emptySector.splice 0 guidEsp).splice 40 (List.replicate 8 0xFF))
    else some emptySector

/-- The volume that is found has no sectors. -/
theorem volumes_wholeDisk :
    volumes.out wholeDisk () = some ([⟨0, 0⟩], ()) ∧ ¬ ScanSound wholeDisk volumes := by
  have hout : volumes.out wholeDisk () = some ([⟨0, 0⟩], ()) := by decide
  refine ⟨hout, ?_⟩
  rintro ⟨-, vs, hvs, hsound⟩
  obtain ⟨rfl, -⟩ := Prod.mk.inj (Option.some.inj (hout.symm.trans hvs))
  exact absurd (hsound ⟨0, 0⟩ (List.mem_singleton_self _)).1 (by decide)

end CoeleoOs.Fs
