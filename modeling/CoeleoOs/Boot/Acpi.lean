import CoeleoOs.Lib.Checked
import CoeleoOs.Lib.InPlace
import CoeleoOs.Mem.Vmm
import Mathlib.Algebra.Group.Nat.Defs
import Mathlib.Data.Nat.Init

/-!
# ACPI tables

The tables of the firmware are walked from the root pointer to the DSDT. Every access to the bytes
of a table is checked, and so is the translation of an address: `none` is a walk that the kernel
does not survive.
-/

namespace CoeleoOs.Boot.Acpi
open CoeleoOs.Lib.Checked CoeleoOs.Lib.InPlace
open CoeleoOs.Mem.Vmm

abbrev Bytes := List UInt8

def sdtHdr : ℕ := 36
def tableCap : ℕ := 1024 * 1024
def rsdpSig : Bytes := [0x52, 0x53, 0x44, 0x20, 0x50, 0x54, 0x52, 0x20]
def facp : Bytes := [0x46, 0x41, 0x43, 0x50]
def resetRegSup : ℕ := 1 <<< 10
def nameOp : UInt8 := 0x08
def dualName : UInt8 := 0x2E
def multiName : UInt8 := 0x2F
def rootChar : UInt8 := 0x5C
def packageOp : UInt8 := 0x12

/-- The direct map and the byte that is read there for each physical address. -/
structure Machine extends DirectMap where
  mem : ℕ → UInt8

structure GasReg where
  mem : Bool
  addr : ℕ
  deriving DecidableEq

structure AcpiPm where
  reset : Option (GasReg × UInt8)
  pm1a : Option GasReg
  pm1b : Option GasReg
  smiCmd : ℕ
  acpiEnable : UInt8
  slpTypa : UInt8
  slpTypb : Option UInt8
  haveS5 : Bool

/-- What is kept of the tables, with the register of the century, which is kept first. -/
structure Parsed where
  century : Option UInt8
  pm : Option AcpiPm

section Memory

variable (m : Machine)

def bytesAt (phys len : ℕ) : Bytes := (List.range len).map fun i => m.mem (phys + i)

def mapBytes (phys len : ℕ) : Option (Option Bytes) :=
  if phys = 0 ∨ ¬ (1 ≤ len ∧ len ≤ tableCap) ∨ 2 ^ 52 ≤ phys then some none
  else do
    let v ← tryMapMmioRange m.toDirectMap phys len
    some (v.map fun _ => bytesAt m phys len)

end Memory

def fromLeBytes (b : Bytes) : ℕ := b.foldr (fun x n => x.toNat + 256 * n) 0

def u32At (b : Bytes) (off : ℕ) : Option ℕ := (slice b off (off + 4)).map fromLeBytes

def u64At (b : Bytes) (off : ℕ) : Option ℕ := (slice b off (off + 8)).map fromLeBytes

def checksum (b : Bytes) : UInt8 := b.foldl (· + ·) 0

def io32 (fadt : Bytes) (off : ℕ) : Option (Option GasReg) :=
  if fadt.length < off + 4 then some none
  else do
    let a ← u32At fadt off
    some (if a = 0 then none else some ⟨false, a⟩)

def gasAt (tab : Bytes) (off : ℕ) : Option (Option GasReg) :=
  if tab.length < off + 12 then some none
  else do
    let space ← tab[off]?
    let addr ← u64At tab (off + 4)
    some (if addr = 0 then none else if space = 1 then some ⟨false, addr⟩
      else if space = 0 then some ⟨true, addr⟩ else none)

def dsdtPhys (fadt : Bytes) : Option (Option ℕ) := do
  let x ← readIf (148 ≤ fadt.length) (u64At fadt 140) 0
  if x ≠ 0 then some (some x)
  else do
    let d ← u32At fadt 40
    some (if d = 0 then none else some d)

section S5

def parseInt (data : Bytes) (off : ℕ) : Option (Option (UInt8 × ℕ)) :=
  if data.length ≤ off then some none
  else do
    let op ← data[off]?
    let next := fun width => some (data[off + 1]?.map fun v => (v, off + 1 + width))
    if op = 0x00 then some (some (0, off + 1))
    else if op = 0x01 then some (some (1, off + 1))
    else if op = 0x0A then next 1
    else if op = 0x0B then next 2
    else if op = 0x0C then next 4
    else some none

def pkgLength (data : Bytes) : Option ℕ :=
  data.head?.bind fun b0 =>
    let extra := (b0 >>> 6).toNat
    if extra = 0 then some 1 else if data.length < 1 + extra then none else some (1 + extra)

def parsePkgInts (data : Bytes) : Option (Option (UInt8 × Option UInt8)) :=
  if data.head? ≠ some packageOp then some none
  else do
    let tail ← slice data 1 data.length
    match pkgLength tail with
    | none => some none
    | some after =>
      let off := 1 + after
      if data.length ≤ off then some none
      else do
        let n ← data[off]?
        match ← parseInt data (off + 1) with
        | none => some none
        | some (a, off) => do
          let b ← readIf (2 ≤ n) (parseInt data off) none
          some (some (a, b.map Prod.fst))

def s5Pkg (rest : Bytes) (j : ℕ) : Option (Option (UInt8 × Option UInt8)) :=
  if j < min rest.length 16 then do
    let op ← rest[j]?
    if op = packageOp then do
      let data ← slice rest j rest.length
      parsePkgInts data
    else s5Pkg rest (j + 1)
  else some none
termination_by 16 - j

def parseS5Pkg (rest : Bytes) : Option (Option (UInt8 × Option UInt8)) := s5Pkg rest 0

def prevOk (body : Bytes) (i : ℕ) : Option Bool :=
  if i = 0 then some true
  else do
    let c ← body[i - 1]?
    some (c = nameOp ∨ c = dualName ∨ c = multiName ∨ c = rootChar)

def s5Name : Bytes := [0x5F, 0x53, 0x35, 0x5F]

def s5Scan (body : Bytes) (i : ℕ) : Option (Option (UInt8 × Option UInt8)) :=
  if i + 4 ≤ body.length then do
    let name ← slice body i (i + 4)
    if name = s5Name then do
      if ← prevOk body i then do
        let rest ← slice body (i + 4) body.length
        match ← parseS5Pkg rest with
        | some r => some (some r)
        | none => s5Scan body (i + 1)
      else s5Scan body (i + 1)
    else s5Scan body (i + 1)
  else some none
termination_by body.length - i

def parseS5 (dsdt : Bytes) : Option (Option (UInt8 × Option UInt8)) :=
  if dsdt.length ≤ sdtHdr + 4 then some none
  else do
    let body ← slice dsdt sdtHdr dsdt.length
    s5Scan body 0

end S5

section Walk

variable (m : Machine)

def rsdpPhys (addr : ℕ) : ℕ := if m.hhdm ≤ addr then addr - m.hhdm else addr

def rsdpBytes (addr : ℕ) : Option (Option Bytes) := do
  match ← mapBytes m (rsdpPhys m addr) 36 with
  | none => some none
  | some head => do
    let sig ← slice head 0 8
    if sig ≠ rsdpSig then some none
    else do
      let rev ← head[15]?
      let n ← readIf (2 ≤ rev) ((u32At head 20).map fun len => if 20 ≤ len ∧ len ≤ 36 then len
          else 36) 20
      let rsdp ← slice head 0 n
      some (some rsdp)

def sdt (phys : ℕ) : Option (Option Bytes) := do
  match ← mapBytes m phys sdtHdr with
  | none => some none
  | some hdr => do
    let len ← u32At hdr 4
    if len < sdtHdr ∨ tableCap < len then some none
    else do
      match ← mapBytes m phys len with
      | none => some none
      | some all => some (if checksum all ≠ 0 then none else some all)

def ptrSz (xsdt : Bool) : ℕ := if xsdt then 8 else 4

theorem ptrSz_pos (xsdt : Bool) : 0 < ptrSz xsdt := by cases xsdt <;> decide

def pointerAt (tab : Bytes) (xsdt : Bool) (off : ℕ) : Option ℕ :=
  if xsdt then u64At tab off else u32At tab off

def findFrom (tab : Bytes) (xsdt : Bool) (sig : Bytes) (off : ℕ) : Option (Option Bytes) :=
  if off + ptrSz xsdt ≤ tab.length then do
    let p ← pointerAt tab xsdt off
    match ← sdt m p with
    | none => findFrom tab xsdt sig (off + ptrSz xsdt)
    | some entry => do
      let found ← readIf (4 ≤ entry.length) ((slice entry 0 4).map fun s => decide (s = sig)) false
      if found then some (some entry) else findFrom tab xsdt sig (off + ptrSz xsdt)
  else some none
termination_by tab.length - off
decreasing_by
  all_goals
    have hpos := ptrSz_pos xsdt
    omega

def findSig (root : ℕ) (xsdt : Bool) (sig : Bytes) : Option (Option Bytes) := do
  match ← sdt m root with
  | none => some none
  | some tab => if tab.length < sdtHdr then some none else findFrom m tab xsdt sig sdtHdr

def resetAt (fadt : Bytes) : Option (Option (GasReg × UInt8)) := do
  match ← gasAt fadt 116 with
  | none => some none
  | some g => fadt[128]?.map fun v => some (g, v)

def fadtPm (fadt : Bytes) : Option Parsed :=
  if fadt.length < 88 then some ⟨none, none⟩
  else do
    let century ← readIf (109 ≤ fadt.length) (fadt[108]?.map some) none
    let flags ← readIf (116 ≤ fadt.length) (u32At fadt 112) 0
    let reset ← readIf (flags &&& resetRegSup ≠ 0 ∧ 129 ≤ fadt.length) (resetAt fadt) none
    let io1a ← io32 fadt 64
    let io1b ← io32 fadt 68
    let mmio := io1a = none ∧ 184 ≤ fadt.length
    let pm1a ← readIf mmio (gasAt fadt 172) io1a
    let pm1b ← readIf mmio (gasAt fadt 184) io1b
    let smiCmd ← u32At fadt 48
    let acpiEnable ← fadt[52]?
    match ← dsdtPhys fadt with
    | none => some ⟨century, none⟩
    | some dsdt => do
      let s5 ← (← sdt m dsdt).elim (some none) parseS5
      some ⟨century, some (match s5 with
        | some (a, b) => ⟨reset, pm1a, pm1b, smiCmd, acpiEnable, a &&& 7, b.map (· &&& 7), true⟩
        | none => ⟨reset, pm1a, pm1b, smiCmd, acpiEnable, 0, none, false⟩)⟩

def xsdtAt (rsdp : Bytes) : Option (Option ℕ) := do
  let whole ← slice rsdp 0 36
  if checksum whole ≠ 0 then some none
  else do
    let x ← u64At rsdp 24
    some (some x)

def findRsdt (rsdp : Bytes) : Option (Option Bytes) := do
  let rsdt ← u32At rsdp 16
  findSig m rsdt false facp

def parse (addr : ℕ) : Option Parsed := do
  match ← rsdpBytes m addr with
  | none => some ⟨none, none⟩
  | some rsdp =>
    if rsdp.length < 20 then some ⟨none, none⟩
    else do
      let sig ← slice rsdp 0 8
      if sig ≠ rsdpSig then some ⟨none, none⟩
      else do
        let head ← slice rsdp 0 20
        if checksum head ≠ 0 then some ⟨none, none⟩
        else do
          let rev ← rsdp[15]?
          match ← readIf (2 ≤ rev ∧ 36 ≤ rsdp.length) (xsdtAt rsdp) (some 0) with
          | none => some ⟨none, none⟩
          | some xsdt =>
            match ← if xsdt ≠ 0 then findSig m xsdt true facp else findRsdt m rsdp with
            | none => some ⟨none, none⟩
            | some fadt => fadtPm m fadt

end Walk

section Reads

variable {b data rest body : Bytes} {off i j : ℕ}

theorem runs_slice (hij : i ≤ j) (hj : j ≤ b.length) : Runs (slice b i j) := ⟨_, slice_eq hij hj⟩

theorem runs_get (h : i < b.length) : Runs b[i]? := ⟨b[i], List.getElem?_eq_getElem h⟩

theorem runs_u32At (h : off + 4 ≤ b.length) : Runs (u32At b off) :=
  (runs_slice (Nat.le_add_right _ _) h).map

theorem runs_u64At (h : off + 8 ≤ b.length) : Runs (u64At b off) :=
  (runs_slice (Nat.le_add_right _ _) h).map

theorem runs_io32 (b : Bytes) (off : ℕ) : Runs (io32 b off) := by
  refine .ite (fun _ => runs_some _) fun h => ?_
  exact (runs_u32At (by omega)).bind fun _ _ => runs_some _

theorem runs_gasAt (b : Bytes) (off : ℕ) : Runs (gasAt b off) := by
  refine .ite (fun _ => runs_some _) fun h => ?_
  exact (runs_get (by omega)).bind fun _ _ => (runs_u64At (by omega)).bind fun _ _ => runs_some _

theorem runs_parseInt (data : Bytes) (off : ℕ) : Runs (parseInt data off) := by
  refine .ite (fun _ => runs_some _) fun h => (runs_get (by omega)).bind fun op _ => ?_
  refine .ite (fun _ => runs_some _) fun _ => .ite (fun _ => runs_some _) fun _ =>
    .ite (fun _ => runs_some _) fun _ => ?_
  exact .ite (fun _ => runs_some _) fun _ => .ite (fun _ => runs_some _) fun _ => runs_some _

theorem runs_parsePkgInts (data : Bytes) : Runs (parsePkgInts data) := by
  refine .ite (fun _ => runs_some _) fun hop => ?_
  have hpos : 1 ≤ data.length := by
    cases data with
    | nil => simp at hop
    | cons x data => exact Nat.le_add_left 1 _
  refine (runs_slice hpos (Nat.le_refl _)).bind fun tail _ => ?_
  cases pkgLength tail with
  | none => exact runs_some _
  | some after =>
    refine .ite (fun _ => runs_some _) fun h => (runs_get (by omega)).bind fun n _ =>
      (runs_parseInt _ _).bind fun r _ => ?_
    cases r with
    | none => exact runs_some _
    | some r => exact (Runs.readIf fun _ => runs_parseInt _ _).bind fun _ _ => runs_some _

theorem runs_s5Pkg (rest : Bytes) (j : ℕ) : Runs (s5Pkg rest j) := by
  induction hk : 16 - j generalizing j with
  | zero =>
    rw [s5Pkg, if_neg (by omega)]
    exact runs_some _
  | succ k ih =>
    rw [s5Pkg]
    refine .ite (fun h => (runs_get (by omega)).bind fun op _ => ?_) fun _ => runs_some _
    refine .ite (fun _ => ?_) fun _ => ih (j + 1) (by omega)
    exact (runs_slice (by omega) (Nat.le_refl _)).bind fun data _ => runs_parsePkgInts data

theorem runs_prevOk (h : i < body.length) : Runs (prevOk body i) :=
  .ite (fun _ => runs_some _) fun _ => (runs_get (by omega)).bind fun _ _ => runs_some _

theorem runs_s5Scan (body : Bytes) (i : ℕ) : Runs (s5Scan body i) := by
  induction hk : body.length - i generalizing i with
  | zero =>
    rw [s5Scan, if_neg (by omega)]
    exact runs_some _
  | succ k ih =>
    have hnext := ih (i + 1) (by omega)
    rw [s5Scan]
    refine .ite (fun h => (runs_slice (Nat.le_add_right _ _) h).bind fun name _ => ?_) fun _ =>
      runs_some _
    refine .ite (fun _ => (runs_prevOk (by omega)).bind fun ok _ => ?_) fun _ => hnext
    refine .ite (fun _ => (runs_slice h (Nat.le_refl _)).bind fun rest _ => (runs_s5Pkg rest 0).bind
      fun r _ => ?_) fun _ => hnext
    cases r with
    | none => exact hnext
    | some r => exact runs_some _

theorem runs_parseS5 (dsdt : Bytes) : Runs (parseS5 dsdt) := by
  refine .ite (fun _ => runs_some _) fun h => ?_
  exact (runs_slice (by simp only [sdtHdr] at *; omega) (Nat.le_refl _)).bind fun body _ =>
    runs_s5Scan body 0

end Reads

section Tables

/-- A range that is asked for does no harm: where its addresses are physical ones at all, the first
one and those of the frames, up to one that cannot be mapped, are in the direct map. -/
structure Harmless (m : Machine) (phys len : ℕ) : Prop where
  first : phys ≠ 0 → phys < 2 ^ 52 → Direct m.toDirectMap phys
  frames : phys ≠ 0 → phys + (len - 1) < 2 ^ 52 → m.mapper = true →
    ∀ k, frameOf phys + k * frameSize ≤ frameOf (phys + (len - 1)) →
    (∀ j < k, m.maps (frameOf phys + j * frameSize) = true) →
    Direct m.toDirectMap (frameOf phys + k * frameSize)

/-- A range that is mapped. -/
structure Mapped (m : Machine) (phys len : ℕ) : Prop where
  place : phys ≠ 0 ∧ phys + (len - 1) < 2 ^ 52
  mapper : m.mapper = true
  frames : ∀ k, frameOf phys + k * frameSize ≤ frameOf (phys + (len - 1)) →
    m.maps (frameOf phys + k * frameSize) = true

variable {m : Machine} {phys len addr stop : ℕ}

theorem mapBytes_spec (m : Machine) (phys : ℕ) (hlen : 1 ≤ len ∧ len ≤ tableCap) :
    (Runs (mapBytes m phys len) ↔ Harmless m phys len) ∧ ∀ r, mapBytes m phys len = some r →
    (Mapped m phys len ∧ r = some (bytesAt m phys len)) ∨ (¬ Mapped m phys len ∧ r = none) := by
  have hrefused :
      (phys = 0 ∨ 2 ^ 52 ≤ phys + (len - 1) ∨ m.mapper = false) → ¬ Mapped m phys len := by
    intro h hm
    rcases h with h | h | h
    · exact hm.place.1 h
    · exact absurd hm.place.2 (Nat.not_lt.mpr h)
    · rw [hm.mapper] at h
      cases h
  rw [mapBytes]
  by_cases hbad : phys = 0 ∨ ¬ (1 ≤ len ∧ len ≤ tableCap) ∨ 2 ^ 52 ≤ phys
  · rw [if_pos hbad]
    refine ⟨iff_of_true (runs_some _) ⟨fun h0 hlt => ?_, fun h0 hlt => ?_⟩, fun r hr =>
      .inr ⟨hrefused ?_, (Option.some.inj hr).symm⟩⟩
    · omega
    · omega
    · omega
  rw [if_neg hbad, tryMapMmioRange]
  have hphys : phys ≠ 0 ∧ phys < 2 ^ 52 := by omega
  by_cases hdirect : Direct m.toDirectMap phys
  swap
  · rw [physToVirt_eq_none hdirect]
    exact ⟨iff_of_false not_runs_none fun h => hdirect (h.first hphys.1 hphys.2),
      fun r hr => by cases hr⟩
  obtain ⟨v, hv⟩ := runs_physToVirt.mpr hdirect
  have hsize : len ≠ 0 := by omega
  simp only [hv, Option.bind_eq_bind, Option.bind_some, if_neg hsize]
  by_cases hout : 2 ^ 64 ≤ phys + (len - 1) ∨ 2 ^ 52 ≤ phys + (len - 1) ∨ ¬ m.mapper
  · rw [if_pos hout]
    have hout' : 2 ^ 52 ≤ phys + (len - 1) ∨ m.mapper = false := by
      rcases hout with h | h | h
      · exact .inl (by omega)
      · exact .inl h
      · exact .inr (eq_false_of_ne_true h)
    refine ⟨iff_of_true (runs_some _) ⟨fun _ _ => hdirect, fun _ hlt hmap => ?_⟩,
      fun r hr => .inr ⟨hrefused (.inr hout'), (Option.some.inj hr).symm⟩⟩
    rcases hout' with h | h
    · exact absurd hlt (Nat.not_lt.mpr h)
    · rw [hmap] at h
      cases h
  rw [if_neg hout]
  simp only [not_or, Nat.not_le, not_not] at hout
  obtain ⟨-, hlast, hmapper⟩ := hout
  obtain ⟨i, hi, hk⟩ := range_frames (Nat.le_add_right phys (len - 1))
  have hstop : frameOf (phys + (len - 1)) < 2 ^ 52 :=
    Nat.lt_of_le_of_lt (Nat.div_mul_le_self _ _) hlast
  have hframe : frameOf (frameOf phys) = frameOf phys := by simpa using frameOf_add phys 0
  obtain ⟨hruns, hres⟩ := mapFrames_spec (d := m.toDirectMap) hframe hi hstop
  simp only [hk] at hruns hres
  have hharmless : Harmless m phys len ↔
      Runs (mapFrames m.toDirectMap (frameOf phys) (frameOf (phys + (len - 1)))) := by
    rw [hruns]
    exact ⟨fun h => h.frames hphys.1 hlast hmapper, fun h => ⟨fun _ _ => hdirect, fun _ _ _ => h⟩⟩
  rw [hharmless]
  cases hmap : mapFrames m.toDirectMap (frameOf phys) (frameOf (phys + (len - 1))) with
  | none =>
    have hnone :
        mapFrames m.toDirectMap (phys / frameSize * frameSize)
          ((phys + (len - 1)) / frameSize * frameSize) = none := hmap
    rw [hnone]
    exact ⟨iff_of_false not_runs_none not_runs_none, fun r hr => by cases hr⟩
  | some ok =>
    have hsome :
        mapFrames m.toDirectMap (phys / frameSize * frameSize)
          ((phys + (len - 1)) / frameSize * frameSize) = some ok := hmap
    rw [hsome, Option.bind_some]
    have hmapped : ok = true ↔ Mapped m phys len :=
      (hres ok hmap).trans ⟨fun h => ⟨⟨hphys.1, hlast⟩, hmapper, h⟩, fun h => h.frames⟩
    cases ok with
    | true =>
      refine ⟨iff_of_true (runs_some _) (runs_some _),
        fun r hr => .inl ⟨hmapped.mp rfl, (Option.some.inj hr).symm⟩⟩
    | false =>
      refine ⟨iff_of_true (runs_some _) (runs_some _),
        fun r hr => .inr ⟨fun h => ?_, (Option.some.inj hr).symm⟩⟩
      cases hmapped.mpr h

def leAt (b : Bytes) (off n : ℕ) : ℕ := fromLeBytes ((b.take (off + n)).drop off)

def tableLen (m : Machine) (phys : ℕ) : ℕ := leAt (bytesAt m phys sdtHdr) 4 4

def tableBytes (m : Machine) (phys : ℕ) : Bytes := bytesAt m phys (tableLen m phys)

/-- A table stands there. -/
structure Table (m : Machine) (phys : ℕ) : Prop where
  header : Mapped m phys sdtHdr
  length : sdtHdr ≤ tableLen m phys ∧ tableLen m phys ≤ tableCap
  whole : Mapped m phys (tableLen m phys)
  sum : checksum (tableBytes m phys) = 0

/-- A table can be looked for there. -/
structure SdtHarmless (m : Machine) (phys : ℕ) : Prop where
  header : Harmless m phys sdtHdr
  whole : Mapped m phys sdtHdr → sdtHdr ≤ tableLen m phys → tableLen m phys ≤ tableCap →
    Harmless m phys (tableLen m phys)

theorem length_bytesAt (m : Machine) (phys len : ℕ) : (bytesAt m phys len).length = len := by
  rw [bytesAt, List.length_map, List.length_range]

theorem length_tableBytes (m : Machine) (phys : ℕ) : (tableBytes m phys).length = tableLen m phys :=
  length_bytesAt ..

theorem u32At_eq {b : Bytes} {off : ℕ} (h : off + 4 ≤ b.length) :
    u32At b off = some (leAt b off 4) := by
  rw [u32At, slice_eq (Nat.le_add_right _ _) h]
  rfl

theorem u64At_eq {b : Bytes} {off : ℕ} (h : off + 8 ≤ b.length) :
    u64At b off = some (leAt b off 8) := by
  rw [u64At, slice_eq (Nat.le_add_right _ _) h]
  rfl

theorem sdt_spec (m : Machine) (phys : ℕ) : (Runs (sdt m phys) ↔ SdtHarmless m phys) ∧
    ∀ r, sdt m phys = some r → (Table m phys ∧ r = some (tableBytes m phys)) ∨
    (¬ Table m phys ∧ r = none) := by
  obtain ⟨hruns, hres⟩ := mapBytes_spec m phys (show 1 ≤ sdtHdr ∧ sdtHdr ≤ tableCap by decide)
  rw [sdt]
  cases hhdr : mapBytes m phys sdtHdr with
  | none =>
    rw [hhdr] at hruns
    exact ⟨iff_of_false not_runs_none fun h => not_runs_none (hruns.mpr h.header),
      fun r hr => by cases hr⟩
  | some r =>
    have hharmless := hruns.mp ⟨r, hhdr⟩
    rcases hres r hhdr with ⟨hmapped, rfl⟩ | ⟨hmapped, rfl⟩
    swap
    · exact ⟨iff_of_true (runs_some _) ⟨hharmless, fun h => absurd h hmapped⟩,
        fun r hr => .inr ⟨fun h => hmapped h.header, (Option.some.inj hr).symm⟩⟩
    have hlen : u32At (bytesAt m phys sdtHdr) 4 = some (tableLen m phys) :=
      u32At_eq (by rw [length_bytesAt]; decide)
    simp only [Option.bind_eq_bind, Option.bind_some, hlen]
    by_cases hcap : tableLen m phys < sdtHdr ∨ tableCap < tableLen m phys
    · rw [if_pos hcap]
      refine ⟨iff_of_true (runs_some _) ⟨hharmless, fun _ hlo hhi => by omega⟩,
        fun r hr => .inr ⟨fun h => ?_, (Option.some.inj hr).symm⟩⟩
      have hlength := h.length
      omega
    · rw [if_neg hcap]
      have hbounds : sdtHdr ≤ tableLen m phys ∧ tableLen m phys ≤ tableCap := by omega
      have hpos : 1 ≤ tableLen m phys := Nat.le_trans (by decide) hbounds.1
      obtain ⟨hruns', hres'⟩ := mapBytes_spec m phys ⟨hpos, hbounds.2⟩
      have hiff : SdtHarmless m phys ↔ Runs (mapBytes m phys (tableLen m phys)) :=
        ⟨fun h => hruns'.mpr (h.whole hmapped hbounds.1 hbounds.2),
          fun h => ⟨hharmless, fun _ _ _ => hruns'.mp h⟩⟩
      rw [hiff]
      cases hall : mapBytes m phys (tableLen m phys) with
      | none => exact ⟨iff_of_false not_runs_none not_runs_none, fun r hr => by cases hr⟩
      | some r =>
        rcases hres' r hall with ⟨hwhole, rfl⟩ | ⟨hwhole, rfl⟩
        · refine ⟨iff_of_true (runs_some _) (runs_some _), fun r hr => ?_⟩
          obtain rfl := Option.some.inj hr
          by_cases hsum : checksum (tableBytes m phys) = 0
          · exact .inl ⟨⟨hmapped, hbounds, hwhole, hsum⟩, if_neg (not_not.mpr hsum)⟩
          · exact .inr ⟨fun h => hsum h.sum, if_pos hsum⟩
        · exact ⟨iff_of_true (runs_some _) (runs_some _),
            fun r hr => .inr ⟨fun h => hwhole h.whole, (Option.some.inj hr).symm⟩⟩

/-- The pointer in the `i`th place behind the header. -/
def entryAt (tab : Bytes) (xsdt : Bool) (i : ℕ) : ℕ :=
  leAt tab (sdtHdr + i * ptrSz xsdt) (ptrSz xsdt)

def HasEntry (tab : Bytes) (xsdt : Bool) (i : ℕ) : Prop :=
  sdtHdr + i * ptrSz xsdt + ptrSz xsdt ≤ tab.length

/-- A table of the right signature stands there. -/
structure Signed (m : Machine) (sig : Bytes) (phys : ℕ) : Prop where
  table : Table m phys
  sig : (tableBytes m phys).take 4 = sig

variable {tab sig : Bytes} {xsdt : Bool} {i : ℕ}

theorem pointerAt_eq (h : HasEntry tab xsdt i) :
    pointerAt tab xsdt (sdtHdr + i * ptrSz xsdt) = some (entryAt tab xsdt i) := by
  cases xsdt with
  | true => exact u64At_eq h
  | false => exact u32At_eq h

theorem findFrom_step (h : HasEntry tab xsdt i) :
    (¬ SdtHarmless m (entryAt tab xsdt i) → findFrom m tab xsdt sig (sdtHdr + i * ptrSz xsdt) =
      none) ∧ (SdtHarmless m (entryAt tab xsdt i) → Signed m sig (entryAt tab xsdt i) →
        findFrom m tab xsdt sig (sdtHdr + i * ptrSz xsdt) =
          some (some (tableBytes m (entryAt tab xsdt i)))) ∧
      (SdtHarmless m (entryAt tab xsdt i) → ¬ Signed m sig (entryAt tab xsdt i) →
        findFrom m tab xsdt sig (sdtHdr + i * ptrSz xsdt) =
          findFrom m tab xsdt sig (sdtHdr + (i + 1) * ptrSz xsdt)) := by
  have hnext : sdtHdr + (i + 1) * ptrSz xsdt = sdtHdr + i * ptrSz xsdt + ptrSz xsdt := by
    rw [Nat.add_mul, Nat.one_mul, Nat.add_assoc]
  obtain ⟨hruns, hres⟩ := sdt_spec m (entryAt tab xsdt i)
  have hpointer := pointerAt_eq h
  rw [HasEntry] at h
  rw [hnext, findFrom, if_pos h, hpointer]
  constructor
  · intro hharm
    cases hsdt : sdt m (entryAt tab xsdt i) with
    | none => simp only [Option.bind_eq_bind, Option.bind_some, hsdt, Option.bind_none]
    | some r => exact absurd (hruns.mp ⟨r, hsdt⟩) hharm
  · rw [← imp_and]
    intro hharm
    obtain ⟨r, hsdt⟩ := hruns.mpr hharm
    simp only [Option.bind_eq_bind, Option.bind_some, hsdt]
    rcases hres r hsdt with ⟨htable, rfl⟩ | ⟨htable, rfl⟩
    · have hlen : 4 ≤ (tableBytes m (entryAt tab xsdt i)).length := by
        rw [length_tableBytes]
        exact Nat.le_trans (by decide) htable.length.1
      have hfound : readIf (4 ≤ (tableBytes m (entryAt tab xsdt i)).length)
          ((slice (tableBytes m (entryAt tab xsdt i)) 0 4).map fun s => decide (s = sig)) false =
          some (decide ((tableBytes m (entryAt tab xsdt i)).take 4 = sig)) := by
        rw [readIf, if_pos hlen, slice_eq (Nat.zero_le 4) hlen, List.drop_zero, Option.map_some]
      simp only [hfound, Option.bind_some, decide_eq_true_eq]
      exact ⟨fun hs => if_pos hs.sig, fun hs => if_neg fun hsig => hs ⟨htable, hsig⟩⟩
    · exact ⟨fun hs => absurd hs.table htable, fun _ => rfl⟩

theorem findFrom_end (h : ¬ HasEntry tab xsdt i) :
    findFrom m tab xsdt sig (sdtHdr + i * ptrSz xsdt) = some none := by
  rw [HasEntry] at h
  rw [findFrom, if_neg h]

/-- The entry found first, after others that are not it. -/
structure FirstSigned (m : Machine) (tab : Bytes) (xsdt : Bool) (sig : Bytes) (i k : ℕ) : Prop where
  le : i ≤ k
  entry : HasEntry tab xsdt k
  before : ∀ j, i ≤ j → j < k → ¬ Signed m sig (entryAt tab xsdt j)

theorem findFrom_spec (m : Machine) (tab : Bytes) (xsdt : Bool) (sig : Bytes) (i : ℕ) :
    (Runs (findFrom m tab xsdt sig (sdtHdr + i * ptrSz xsdt)) ↔
      ∀ k, FirstSigned m tab xsdt sig i k → SdtHarmless m (entryAt tab xsdt k)) ∧
    ∀ r, findFrom m tab xsdt sig (sdtHdr + i * ptrSz xsdt) = some r →
      (∃ k, FirstSigned m tab xsdt sig i k ∧ Signed m sig (entryAt tab xsdt k) ∧
        r = some (tableBytes m (entryAt tab xsdt k))) ∨
        ((∀ k, FirstSigned m tab xsdt sig i k → ¬ Signed m sig (entryAt tab xsdt k)) ∧
          r = none) := by
  induction hn :
    tab.length - (sdtHdr + i * ptrSz xsdt) using Nat.strong_induction_on generalizing i with
  | _ n ih =>
    have hpos := ptrSz_pos xsdt
    by_cases hentry : HasEntry tab xsdt i
    swap
    · have hnone : ∀ k, ¬ FirstSigned m tab xsdt sig i k := by
        intro k hk
        have hle : i * ptrSz xsdt ≤ k * ptrSz xsdt := Nat.mul_le_mul_right _ hk.le
        have hlast := hk.entry
        rw [HasEntry] at hentry hlast
        omega
      rw [findFrom_end hentry]
      refine ⟨iff_of_true (runs_some _) fun k hk => absurd hk (hnone k),
        fun r hr => .inr ⟨fun k hk => absurd hk (hnone k), ?_⟩⟩
      exact (Option.some.inj hr).symm
    have hhere : FirstSigned m tab xsdt sig i i :=
      ⟨Nat.le_refl i, hentry, fun j hle hlt => absurd hlt (Nat.not_lt.mpr hle)⟩
    obtain ⟨hbad, hfound, hnext⟩ := @findFrom_step m tab sig xsdt i hentry
    by_cases hharm : SdtHarmless m (entryAt tab xsdt i)
    swap
    · rw [hbad hharm]
      exact ⟨iff_of_false not_runs_none fun h => hharm (h i hhere), fun r hr => by cases hr⟩
    by_cases hsigned : Signed m sig (entryAt tab xsdt i)
    · have honly : ∀ k, FirstSigned m tab xsdt sig i k → k = i := by
        intro k hk
        rcases Nat.lt_or_ge i k with hlt | hge
        · exact absurd hsigned (hk.before i (Nat.le_refl i) hlt)
        · exact Nat.le_antisymm hge hk.le
      rw [hfound hharm hsigned]
      refine ⟨iff_of_true (runs_some _) fun k hk => by rwa [honly k hk], fun r hr => .inl ⟨i, hhere,
        hsigned, ?_⟩⟩
      exact (Option.some.inj hr).symm
    · have hshift :
          ∀ k, FirstSigned m tab xsdt sig (i + 1) k ↔ FirstSigned m tab xsdt sig i k ∧ k ≠ i := by
        intro k
        constructor
        · intro hk
          refine ⟨⟨Nat.le_of_succ_le hk.le, hk.entry, fun j hle hlt => ?_⟩, Nat.ne_of_gt hk.le⟩
          rcases Nat.eq_or_lt_of_le hle with rfl | hlt'
          · exact hsigned
          · exact hk.before j hlt' hlt
        · rintro ⟨hk, hne⟩
          exact ⟨Nat.lt_of_le_of_ne hk.le (Ne.symm hne), hk.entry,
            fun j hle hlt => hk.before j (Nat.le_of_succ_le hle) hlt⟩
      rw [hnext hharm hsigned]
      have hless : tab.length - (sdtHdr + (i + 1) * ptrSz xsdt) < n := by
        rw [HasEntry] at hentry
        rw [Nat.add_mul, Nat.one_mul]
        omega
      obtain ⟨hruns, hres⟩ := ih _ hless (i + 1) rfl
      constructor
      · rw [hruns]
        constructor
        · intro h k hk
          by_cases hki : k = i
          · rwa [hki]
          · exact h k ((hshift k).mpr ⟨hk, hki⟩)
        · exact fun h k hk => h k ((hshift k).mp hk).1
      · intro r hr
        rcases hres r hr with ⟨k, hk, hsig, hr'⟩ | ⟨hnone, hr'⟩
        · exact .inl ⟨k, ((hshift k).mp hk).1, hsig, hr'⟩
        · refine .inr ⟨fun k hk => ?_, hr'⟩
          by_cases hki : k = i
          · rwa [hki]
          · exact hnone k ((hshift k).mpr ⟨hk, hki⟩)

def dsdtOf (fadt : Bytes) : ℕ :=
  if 148 ≤ fadt.length ∧ leAt fadt 140 8 ≠ 0 then leAt fadt 140 8 else leAt fadt 40 4

variable {fadt : Bytes}

theorem dsdtPhys_eq (h : 88 ≤ fadt.length) :
    dsdtPhys fadt = some (if dsdtOf fadt = 0 then none else some (dsdtOf fadt)) := by
  have hold : u32At fadt 40 = some (leAt fadt 40 4) := u32At_eq (by omega)
  rw [dsdtPhys, readIf]
  by_cases hlen : 148 ≤ fadt.length
  · rw [if_pos hlen, u64At_eq (by omega)]
    by_cases hx : leAt fadt 140 8 = 0
    · have hd : dsdtOf fadt = leAt fadt 40 4 := if_neg fun hnew => hnew.2 hx
      simp [hx, hold, hd]
    · have hd : dsdtOf fadt = leAt fadt 140 8 := if_pos ⟨hlen, hx⟩
      simp [hx, hd]
  · have hd : dsdtOf fadt = leAt fadt 40 4 := if_neg fun hnew => hlen hnew.1
    rw [if_neg hlen]
    simp [hold, hd]

theorem runs_resetAt (h : 129 ≤ fadt.length) : Runs (resetAt fadt) := by
  refine (runs_gasAt fadt 116).bind fun r _ => ?_
  cases r with
  | none => exact runs_some _
  | some g => exact (runs_get h).map

theorem fadtPm_runs (m : Machine) (fadt : Bytes) :
    Runs (fadtPm m fadt) ↔ (88 ≤ fadt.length → dsdtOf fadt ≠ 0 → SdtHarmless m (dsdtOf fadt)) := by
  rw [fadtPm]
  by_cases hlen : fadt.length < 88
  · rw [if_pos hlen]
    exact iff_of_true (runs_some _) fun h => absurd hlen (Nat.not_lt.mpr h)
  rw [if_neg hlen]
  obtain ⟨century, hcentury⟩ : Runs (readIf (109 ≤ fadt.length) (fadt[108]?.map some) none) :=
    .readIf fun h => (runs_get h).map
  obtain ⟨flags, hflags⟩ : Runs (readIf (116 ≤ fadt.length) (u32At fadt 112) 0) :=
    .readIf fun h => runs_u32At h
  obtain ⟨reset, hreset⟩ :
      Runs (readIf (flags &&& resetRegSup ≠ 0 ∧ 129 ≤ fadt.length) (resetAt fadt) none) :=
    .readIf fun h => runs_resetAt h.2
  obtain ⟨io1a, hio1a⟩ := runs_io32 fadt 64
  obtain ⟨io1b, hio1b⟩ := runs_io32 fadt 68
  obtain ⟨pm1a, hpm1a⟩ : Runs (readIf (io1a = none ∧ 184 ≤ fadt.length) (gasAt fadt 172) io1a) :=
    .readIf fun _ => runs_gasAt fadt 172
  obtain ⟨pm1b, hpm1b⟩ : Runs (readIf (io1a = none ∧ 184 ≤ fadt.length) (gasAt fadt 184) io1b) :=
    .readIf fun _ => runs_gasAt fadt 184
  obtain ⟨smiCmd, hsmi⟩ := runs_u32At (show 48 + 4 ≤ fadt.length by omega)
  obtain ⟨acpiEnable, hacpi⟩ := runs_get (b := fadt) (i := 52) (by omega)
  simp only [Option.bind_eq_bind, Option.bind_some, hcentury, hflags, hreset, hio1a, hio1b, hpm1a,
    hpm1b, hsmi, hacpi, dsdtPhys_eq (Nat.le_of_not_lt hlen)]
  by_cases hdsdt : dsdtOf fadt = 0
  · rw [if_pos hdsdt]
    exact iff_of_true (runs_some _) fun _ h => absurd hdsdt h
  rw [if_neg hdsdt]
  obtain ⟨hruns, -⟩ := sdt_spec m (dsdtOf fadt)
  constructor
  · rintro ⟨p, hp⟩ _ _
    refine hruns.mp ?_
    cases hsdt : sdt m (dsdtOf fadt) with
    | none => simp [hsdt] at hp
    | some r => exact runs_some r
  · intro h
    refine (hruns.mpr (h (Nat.le_of_not_lt hlen) hdsdt)).bind fun r _ => Runs.bind ?_ fun _ _ =>
      runs_some _
    cases r with
    | none => exact runs_some none
    | some body => exact runs_parseS5 body

variable {root k : ℕ}

theorem findSig_spec (m : Machine) (root : ℕ) (xsdt : Bool) (sig : Bytes) :
    (Runs (findSig m root xsdt sig) ↔ SdtHarmless m root ∧
      (Table m root → ∀ k, FirstSigned m (tableBytes m root) xsdt sig 0 k →
        SdtHarmless m (entryAt (tableBytes m root) xsdt k))) ∧
    ∀ r, findSig m root xsdt sig = some r →
      (∃ k, Table m root ∧ FirstSigned m (tableBytes m root) xsdt sig 0 k ∧
        Signed m sig (entryAt (tableBytes m root) xsdt k) ∧
        r = some (tableBytes m (entryAt (tableBytes m root) xsdt k))) ∨
      ((Table m root → ∀ k, FirstSigned m (tableBytes m root) xsdt sig 0 k →
        ¬ Signed m sig (entryAt (tableBytes m root) xsdt k)) ∧ r = none) := by
  obtain ⟨hruns, hres⟩ := sdt_spec m root
  rw [findSig]
  cases hsdt : sdt m root with
  | none =>
    rw [hsdt] at hruns
    exact ⟨iff_of_false not_runs_none fun h => not_runs_none (hruns.mpr h.1),
      fun r hr => by cases hr⟩
  | some r =>
    have hharm := hruns.mp ⟨r, hsdt⟩
    rcases hres r hsdt with ⟨htable, rfl⟩ | ⟨htable, rfl⟩
    · have hlen : ¬ (tableBytes m root).length < sdtHdr := by
        rw [length_tableBytes]
        exact Nat.not_lt.mpr htable.length.1
      obtain ⟨hfind, hfound⟩ := findFrom_spec m (tableBytes m root) xsdt sig 0
      rw [Nat.zero_mul, Nat.add_zero] at hfind hfound
      simp only [Option.bind_eq_bind, Option.bind_some, if_neg hlen]
      constructor
      · rw [hfind]
        exact ⟨fun h => ⟨hharm, fun _ => h⟩, fun h => h.2 htable⟩
      · intro r hr
        rcases hfound r hr with ⟨k, hk, hsig, hr'⟩ | ⟨hnone, hr'⟩
        · exact .inl ⟨k, htable, hk, hsig, hr'⟩
        · exact .inr ⟨fun _ => hnone, hr'⟩
    · exact ⟨iff_of_true (runs_some _) ⟨hharm, fun h => absurd h htable⟩,
        fun r hr => .inr ⟨fun h => absurd h htable, (Option.some.inj hr).symm⟩⟩

def rsdpHead (m : Machine) (addr : ℕ) : Bytes := bytesAt m (rsdpPhys m addr) 36

/-- A root pointer of the second revision, of full length. -/
def IsLong (head : Bytes) : Prop :=
  2 ≤ head.getD 15 0 ∧ ¬ (20 ≤ leAt head 20 4 ∧ leAt head 20 4 < 36)

/-- The root table that the root pointer names, and whether it holds long pointers. -/
structure Root (m : Machine) (addr : ℕ) (xsdt : Bool) (root : ℕ) : Prop where
  mapped : Mapped m (rsdpPhys m addr) 36
  sig : (rsdpHead m addr).take 8 = rsdpSig
  sum : checksum ((rsdpHead m addr).take 20) = 0
  long : IsLong (rsdpHead m addr) → checksum (rsdpHead m addr) = 0
  root :
    (IsLong (rsdpHead m addr) ∧ leAt (rsdpHead m addr) 24 8 ≠ 0 ∧ xsdt = true ∧
      root = leAt (rsdpHead m addr) 24 8) ∨
      (¬ (IsLong (rsdpHead m addr) ∧ leAt (rsdpHead m addr) 24 8 ≠ 0) ∧ xsdt = false ∧
        root = leAt (rsdpHead m addr) 16 4)

/-- The places where the walk looks for a table. -/
inductive Follows (m : Machine) (addr : ℕ) : ℕ → Prop
  | root {xsdt : Bool} {root : ℕ} (h : Root m addr xsdt root) : Follows m addr root
  | entry {xsdt : Bool} {root k : ℕ} (h : Root m addr xsdt root) (ht : Table m root)
      (hk : FirstSigned m (tableBytes m root) xsdt facp 0 k) :
      Follows m addr (entryAt (tableBytes m root) xsdt k)
  | dsdt {xsdt : Bool} {root k : ℕ} {fadt : Bytes} (h : Root m addr xsdt root) (ht : Table m root)
      (hk : FirstSigned m (tableBytes m root) xsdt facp 0 k)
      (hs : Signed m facp (entryAt (tableBytes m root) xsdt k))
      (hf : fadt = tableBytes m (entryAt (tableBytes m root) xsdt k)) (hlen : 88 ≤ fadt.length)
      (h0 : dsdtOf fadt ≠ 0) : Follows m addr (dsdtOf fadt)

def fromRoot (m : Machine) (xsdt : Bool) (root : ℕ) : Option Parsed :=
  (findSig m root xsdt facp).bind fun r =>
    match r with
    | none => some ⟨none, none⟩
    | some fadt => fadtPm m fadt

theorem Root.unique {root' : ℕ} {xsdt' : Bool} (h : Root m addr xsdt root)
    (h' : Root m addr xsdt' root') : xsdt = xsdt' ∧ root = root' := by
  rcases h.root with ⟨hl, h0, hx, hr⟩ | ⟨hn, hx, hr⟩
  · rcases h'.root with ⟨-, -, hx', hr'⟩ | ⟨hn, -⟩
    · exact ⟨hx.trans hx'.symm, hr.trans hr'.symm⟩
    · exact absurd ⟨hl, h0⟩ hn
  · rcases h'.root with ⟨hl, h0, -⟩ | ⟨-, hx', hr'⟩
    · exact absurd ⟨hl, h0⟩ hn
    · exact ⟨hx.trans hx'.symm, hr.trans hr'.symm⟩

theorem FirstSigned.unique {k' : ℕ} (h : FirstSigned m tab xsdt sig i k)
    (h' : FirstSigned m tab xsdt sig i k') (hs : Signed m sig (entryAt tab xsdt k))
    (hs' : Signed m sig (entryAt tab xsdt k')) : k = k' := by
  rcases Nat.lt_trichotomy k k' with hlt | heq | hgt
  · exact absurd hs (h'.before k h.le hlt)
  · exact heq
  · exact absurd hs' (h.before k' h'.le hgt)

theorem fromRoot_runs (h : Root m addr xsdt root) :
    Runs (fromRoot m xsdt root) ↔ ∀ p, Follows m addr p → SdtHarmless m p := by
  obtain ⟨hruns, hres⟩ := findSig_spec m root xsdt facp
  rw [fromRoot]
  constructor
  · rintro hrun p hp
    obtain ⟨r, hr⟩ : Runs (findSig m root xsdt facp) := by
      cases hfind : findSig m root xsdt facp with
      | none =>
        rw [hfind] at hrun
        exact absurd hrun not_runs_none
      | some r => exact runs_some r
    obtain ⟨hroot, hentries⟩ := hruns.mp ⟨r, hr⟩
    rw [hr, Option.bind_some] at hrun
    cases hp with
    | root h' =>
      obtain ⟨rfl, rfl⟩ := h.unique h'
      exact hroot
    | entry h' ht hk =>
      obtain ⟨rfl, rfl⟩ := h.unique h'
      exact hentries ht _ hk
    | dsdt h' ht hk hs hf hlen h0 =>
      obtain ⟨rfl, rfl⟩ := h.unique h'
      rcases hres r hr with ⟨k', -, hk', hs', rfl⟩ | ⟨hnone, -⟩
      · obtain rfl := hk.unique hk' hs hs'
        subst hf
        exact (fadtPm_runs m _).mp hrun hlen h0
      · exact absurd hs (hnone ht _ hk)
  · intro hall
    obtain ⟨r, hr⟩ := hruns.mpr ⟨hall _ (.root h), fun ht k hk => hall _ (.entry h ht hk)⟩
    rw [hr, Option.bind_some]
    rcases hres r hr with ⟨k, ht, hk, hs, rfl⟩ | ⟨-, rfl⟩
    · exact (fadtPm_runs m _).mpr fun hlen h0 => hall _ (.dsdt h ht hk hs rfl hlen h0)
    · exact runs_some _

section Head

variable {head : Bytes} {n off : ℕ}

def rsdpLen (head : Bytes) : ℕ :=
  if 2 ≤ head.getD 15 0 then if 20 ≤ leAt head 20 4 ∧ leAt head 20 4 ≤ 36 then leAt head 20 4
    else 36 else 20

theorem rsdpLen_bounds (head : Bytes) : 20 ≤ rsdpLen head ∧ rsdpLen head ≤ 36 := by
  rw [rsdpLen]
  split
  · split
    · assumption
    · decide
  · decide

theorem isLong_iff (head : Bytes) : IsLong head ↔ 2 ≤ head.getD 15 0 ∧ 36 ≤ rsdpLen head := by
  rw [IsLong, rsdpLen]
  refine and_congr_right fun h => ?_
  rw [if_pos h]
  split
  · omega
  · omega

theorem get_eq {i : ℕ} (h : i < head.length) : head[i]? = some (head.getD i 0) := by
  rw [List.getD_eq_getElem?_getD, List.getElem?_eq_getElem h, Option.getD_some]

theorem slice_take (hn : n ≤ head.length) (ho : off ≤ n) :
    slice (head.take n) 0 off = some (head.take off) := by
  have hlen : off ≤ (head.take n).length := by rwa [List.length_take_of_le hn]
  rw [slice_eq (Nat.zero_le _) hlen, List.drop_zero, List.take_take, Nat.min_eq_left ho]

theorem rsdpBytes_eq {addr : ℕ} (hmap : mapBytes m (rsdpPhys m addr) 36 = some (some head))
    (hlen : head.length = 36) :
    rsdpBytes m addr = some (if head.take 8 = rsdpSig then some (head.take (rsdpLen head))
      else none) := by
  have hsig : slice head 0 8 = some (head.take 8) := by
    rw [slice_eq (Nat.zero_le 8) (by omega), List.drop_zero]
  rw [rsdpBytes, hmap]
  simp only [Option.bind_eq_bind, Option.bind_some, hsig]
  by_cases h : head.take 8 = rsdpSig
  · have hn : readIf (2 ≤ head.getD 15 0) ((u32At head 20).map fun len => if 20 ≤ len ∧ len ≤ 36
        then len else 36) 20 = some (rsdpLen head) := by
      rw [readIf, u32At_eq (by omega), Option.map_some, rsdpLen]
      split <;> rfl
    have hbounds := rsdpLen_bounds head
    rw [if_pos h, if_neg (not_not.mpr h), get_eq (by omega), Option.bind_some, hn, Option.bind_some,
      slice_eq (Nat.zero_le _) (by omega), List.drop_zero, Option.bind_some]
  · rw [if_neg h, if_pos h]

theorem xsdtAt_eq (h : head.length = 36) :
    xsdtAt head = some (if checksum head ≠ 0 then none else some (leAt head 24 8)) := by
  have hwhole : slice head 0 36 = some head := by
    rw [slice_eq (Nat.zero_le _) (by omega), List.drop_zero, List.take_of_length_le (by omega)]
  have hptr : u64At head 24 = some (leAt head 24 8) := u64At_eq (by omega)
  simp only [xsdtAt, hwhole, hptr, Option.bind_eq_bind, Option.bind_some]
  split <;> rfl

theorem leAt_take (h : off + i ≤ n) : leAt (head.take n) off i = leAt head off i := by
  rw [leAt, leAt, List.take_take, Nat.min_eq_left h]

end Head

theorem parse_cases (m : Machine) (addr : ℕ) :
    (¬ Harmless m (rsdpPhys m addr) 36 ∧ parse m addr = none) ∨
    (Harmless m (rsdpPhys m addr) 36 ∧ (∀ x root, ¬ Root m addr x root) ∧ Runs (parse m addr)) ∨
    (Harmless m (rsdpPhys m addr) 36 ∧ ∃ xsdt root, Root m addr xsdt root ∧
      parse m addr = fromRoot m xsdt root) := by
  obtain ⟨hruns, hres⟩ := mapBytes_spec m (rsdpPhys m addr) (show 1 ≤ 36 ∧ 36 ≤ tableCap by decide)
  cases hmap : mapBytes m (rsdpPhys m addr) 36 with
  | none =>
    rw [hmap] at hruns
    refine .inl ⟨fun h => not_runs_none (hruns.mpr h), ?_⟩
    rw [parse, rsdpBytes, hmap]
    rfl
  | some r =>
    have hharm := hruns.mp ⟨r, hmap⟩
    rcases hres r hmap with ⟨hmapped, rfl⟩ | ⟨hmapped, rfl⟩
    swap
    · refine .inr (.inl ⟨hharm, fun x root h => hmapped h.mapped, ?_⟩)
      rw [parse, rsdpBytes, hmap]
      exact runs_some _
    have hlen : (rsdpHead m addr).length = 36 := length_bytesAt ..
    have hbytes := rsdpBytes_eq hmap hlen
    rw [← rsdpHead] at hbytes
    by_cases hsig : (rsdpHead m addr).take 8 = rsdpSig
    swap
    · refine .inr (.inl ⟨hharm, fun x root h => hsig h.sig, ?_⟩)
      rw [parse, hbytes, if_neg hsig]
      exact runs_some _
    rw [if_pos hsig] at hbytes
    obtain ⟨hlo, hhi⟩ := rsdpLen_bounds (rsdpHead m addr)
    have hn : ((rsdpHead m addr).take (rsdpLen (rsdpHead m addr))).length =
        rsdpLen (rsdpHead m addr) := by
      rw [List.length_take_of_le (by omega)]
    have hshort : ¬ rsdpLen (rsdpHead m addr) < 20 := Nat.not_lt.mpr hlo
    have hread :
        ∀ off ≤ rsdpLen (rsdpHead m addr),
        slice ((rsdpHead m addr).take (rsdpLen (rsdpHead m addr))) 0 off =
        some ((rsdpHead m addr).take off) := fun off ho => slice_take (by omega) ho
    have hrev : ((rsdpHead m addr).take (rsdpLen (rsdpHead m addr)))[15]? =
        some ((rsdpHead m addr).getD 15 0) := by
      rw [List.getElem?_take_of_lt (by omega), get_eq (by omega)]
    rw [parse, hbytes]
    simp only [Option.bind_eq_bind, Option.bind_some, if_neg hshort, hread 8 (by omega),
      hread 20 hlo, hrev, hn, if_neg (not_not.mpr hsig), ne_eq]
    by_cases hsum : checksum ((rsdpHead m addr).take 20) = 0
    swap
    · refine .inr (.inl ⟨hharm, fun x root h => hsum h.sum, ?_⟩)
      rw [if_pos hsum]
      exact runs_some _
    have hrsdt : findRsdt m ((rsdpHead m addr).take (rsdpLen (rsdpHead m addr))) =
        findSig m (leAt (rsdpHead m addr) 16 4) false facp := by
      rw [findRsdt, u32At_eq (by omega), leAt_take (by omega)]
      rfl
    rw [if_neg (not_not.mpr hsum), hrsdt]
    by_cases hlong : 2 ≤ (rsdpHead m addr).getD 15 0 ∧ 36 ≤ rsdpLen (rsdpHead m addr)
    swap
    · have hnot : ¬ (IsLong (rsdpHead m addr) ∧ leAt (rsdpHead m addr) 24 8 ≠ 0) :=
        fun h => hlong ((isLong_iff _).mp h.1)
      refine .inr (.inr ⟨hharm, false, leAt (rsdpHead m addr) 16 4,
        ⟨hmapped, hsig, hsum, fun h => absurd ((isLong_iff _).mp h) hlong, .inr ⟨hnot, rfl, rfl⟩⟩,
        ?_⟩)
      rw [readIf, if_neg hlong, Option.bind_some]
      rfl
    have hislong := (isLong_iff _).mpr hlong
    have hall : (rsdpHead m addr).take (rsdpLen (rsdpHead m addr)) = rsdpHead m addr :=
      List.take_of_length_le (by omega)
    rw [readIf, if_pos hlong, hall, xsdtAt_eq hlen, Option.bind_some]
    by_cases hsumAll : checksum (rsdpHead m addr) = 0
    swap
    · refine .inr (.inl ⟨hharm, fun x root h => hsumAll (h.long hislong), ?_⟩)
      rw [if_pos hsumAll]
      exact runs_some _
    rw [if_neg (not_not.mpr hsumAll)]
    by_cases h0 : leAt (rsdpHead m addr) 24 8 = 0
    · refine .inr (.inr ⟨hharm, false, leAt (rsdpHead m addr) 16 4,
        ⟨hmapped, hsig, hsum, fun _ => hsumAll, .inr ⟨fun h => h.2 h0, rfl, rfl⟩⟩, ?_⟩)
      simp only [h0]
      rfl
    · refine .inr (.inr ⟨hharm, true, leAt (rsdpHead m addr) 24 8,
        ⟨hmapped, hsig, hsum, fun _ => hsumAll, .inl ⟨hislong, h0, rfl, rfl⟩⟩, ?_⟩)
      simp only [h0]
      rfl

/-- The walk survives exactly the tables whose pointers have a place in the direct map wherever it
looks. -/
theorem parse_total_iff (m : Machine) (addr : ℕ) :
    Runs (parse m addr) ↔ Harmless m (rsdpPhys m addr) 36 ∧ ∀ p, Follows m addr p →
    SdtHarmless m p := by
  rcases parse_cases m addr with ⟨hharm, hp⟩ | ⟨hharm, hno, hp⟩ | ⟨hharm, xsdt, root, hroot, hp⟩
  · rw [hp]
    exact iff_of_false not_runs_none fun h => hharm h.1
  · refine iff_of_true hp ⟨hharm, fun p hf => ?_⟩
    cases hf with
    | root h => exact absurd h (hno _ _)
    | entry h => exact absurd h (hno _ _)
    | dsdt h => exact absurd h (hno _ _)
  · rw [hp, fromRoot_runs hroot]
    exact ⟨fun h => ⟨hharm, h⟩, fun h => h.2⟩

def farRsdp : Bytes :=
  rsdpSig ++ [0xDF, 0, 0, 0, 0, 0, 0, 2, 0, 0, 0, 0, 36, 0, 0, 0, 0, 0, 0, 0, 0, 0, 8, 0,
    0xD4, 0, 0, 0]

def farMachine : Machine where
  hhdm := 0xFFFF800000000000
  mapper := true
  maps _ := true
  mem p := if 0x1000 ≤ p then farRsdp.getD (p - 0x1000) 0 else 0

theorem farRoot : Root farMachine 0x1000 true (2 ^ 51) where
  mapped := ⟨by decide, rfl, fun _ _ => rfl⟩
  sig := by decide
  sum := by decide
  long _ := by decide
  root := .inl ⟨by unfold IsLong; decide, by decide, rfl, by decide⟩

/-- The kernel does not survive a pointer that no memory has. -/
theorem parse_far : ¬ ∀ (m : Machine) (addr : ℕ), Runs (parse m addr) := by
  intro h
  have hfar : ¬ Direct farMachine.toDirectMap (2 ^ 51) := by unfold Direct; decide
  have hrun := h farMachine 0x1000
  rcases parse_cases farMachine 0x1000 with ⟨-, hp⟩ | ⟨-, hno, -⟩ | ⟨-, xsdt, root, hroot, hp⟩
  · rw [hp] at hrun
    exact not_runs_none hrun
  · exact hno _ _ farRoot
  · rw [hp, fromRoot_runs hroot] at hrun
    exact hfar ((hrun _ (.root farRoot)).header.first (by decide) (by decide))

end Tables

end CoeleoOs.Boot.Acpi
