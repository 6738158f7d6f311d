import CoeleoOs.Lib.Machine
import CoeleoOs.Lib.Script
import CoeleoOs.Fs.Blk
import Mathlib.Data.Int.Basic

/-!
# The byte view of a FAT volume

`FatDisk` turns byte reads and writes at a cursor into reads and writes of whole
sectors through one bounce sector. `io i` is the outcome of the `i`-th block
operation of a call: a failed read leaves anything in the bounce sector, a failed
write leaves the sector as it was.
-/

namespace CoeleoOs.Fs

abbrev Sector := Fin sectorSize → UInt8

namespace Sector

def get (b : Sector) (i : ℕ) : UInt8 := if h : i < sectorSize then b ⟨i, h⟩ else 0

def slice (b : Sector) (off n : ℕ) : List UInt8 := (List.range n).map fun j => b.get (off + j)

def splice (b : Sector) (off : ℕ) (src : List UInt8) : Sector := fun i =>
  if off ≤ i.val ∧ i.val < off + src.length then src.getD (i.val - off) 0 else b i

end Sector

inductive Io
  | ok
  | fail (junk : Sector)

/-- A volume and the disk under it. -/
structure FatDisk where
  pos : ℕ
  startLba : ℕ
  size : ℕ
  bounce : Sector
  cachedLba : Option ℕ
  disk : ℕ → Sector

inductive SeekFrom
  | start (n : UInt64)
  | current (off : Int64)
  | fromEnd (off : Int64)

namespace FatDisk

def volume (disk : ℕ → Sector) (startLba size : UInt64) : FatDisk :=
  ⟨0, startLba.toNat, size.toNat, fun _ => 0, none, disk⟩

def sectorAt (d : FatDisk) (lba : ℕ) : ℕ := (d.startLba + lba) % 2 ^ 64

def fetch (d : FatDisk) (lba : ℕ) : Io → Bool × FatDisk
  | .ok => (true, { d with bounce := d.disk (d.sectorAt lba) })
  | .fail junk => (false, { d with bounce := junk })

def store (d : FatDisk) (lba : ℕ) : Io → Bool × FatDisk
  | .ok => (true, { d with disk := Function.update d.disk (d.sectorAt lba) d.bounce })
  | .fail _ => (false, d)

def cache (d : FatDisk) (lba : ℕ) (o : Io) : Bool × FatDisk :=
  if d.cachedLba = some lba then (true, d)
  else
    match d.fetch lba o with
    | (true, d) => (true, { d with cachedLba := some lba })
    | (false, d) => (false, d)

def readLoop (io : ℕ → Io) : ℕ → ℕ → FatDisk → ℕ → Option (List UInt8) × FatDisk
  | 0, _, d, _ => (some [], d)
  | fuel + 1, i, d, want =>
    if 0 < want ∧ d.pos < d.size then
      let lba := d.pos / sectorSize
      let off := d.pos % sectorSize
      match d.cache lba (io i) with
      | (false, d') => (none, d')
      | (true, d') =>
        let n := min (min (sectorSize - off) want) (d'.size - d'.pos)
        let i' := if d.cachedLba = some lba then i else i + 1
        let r := readLoop io fuel i' { d' with pos := d'.pos + n } (want - n)
        (r.1.map (d'.bounce.slice off n ++ ·), r.2)
    else (some [], d)

/-- `n` is the length of the buffer. -/
def read (io : ℕ → Io) (d : FatDisk) (n : ℕ) : Option (List UInt8) × FatDisk := readLoop io n 0 d n

def prepare (io : ℕ → Io) (i : ℕ) (d : FatDisk) (lba off : ℕ) (src : List UInt8) :
    Bool × FatDisk × ℕ :=
  if off = 0 ∧ src.length = sectorSize then (true, { d with bounce := d.bounce.splice 0 src }, i)
  else if d.cachedLba = some lba then (true, { d with bounce := d.bounce.splice off src }, i)
  else
    match d.fetch lba (io i) with
    | (true, d) => (true, { d with bounce := d.bounce.splice off src }, i + 1)
    | (false, d) => (false, d, i + 1)

def writeLoop (io : ℕ → Io) : ℕ → ℕ → FatDisk → List UInt8 → Option ℕ × FatDisk
  | 0, _, d, _ => (some 0, d)
  | fuel + 1, i, d, src =>
    if src ≠ [] ∧ d.pos < d.size then
      let lba := d.pos / sectorSize
      let off := d.pos % sectorSize
      let n := min (min (sectorSize - off) src.length) (d.size - d.pos)
      match prepare io i d lba off (src.take n) with
      | (false, d, _) => (none, d)
      | (true, d, i) =>
        match d.store lba (io i) with
        | (false, d) => (none, d)
        | (true, d) =>
          let r := writeLoop io fuel (i + 1) { d with cachedLba := some lba, pos := d.pos + n }
            (src.drop n)
          (r.1.map (n + ·), r.2)
    else (some 0, d)

def write (io : ℕ → Io) (d : FatDisk) (src : List UInt8) : Option ℕ × FatDisk :=
  writeLoop io src.length 0 d src

def seekTo (d : FatDisk) : SeekFrom → Option ℕ
  | .start n => some n.toNat
  | .current off =>
    if (d.pos : ℤ) + off.toInt < 0 then none else some (((d.pos : ℤ) + off.toInt).toNat % 2 ^ 64)
  | .fromEnd off =>
    if (d.size : ℤ) + off.toInt < 0 then none else some (((d.size : ℤ) + off.toInt).toNat % 2 ^ 64)

def seek (d : FatDisk) (p : SeekFrom) : Option ℕ × FatDisk :=
  match d.seekTo p with
  | none => (none, d)
  | some new => (some (min new d.size), { d with pos := min new d.size })

end FatDisk

inductive FatOp
  | seek (p : SeekFrom)
  | read (n : ℕ)
  | write (src : List UInt8)

inductive FatOut
  | err
  | pos (n : ℕ)
  | data (bytes : List UInt8)
  | wrote (n : ℕ)
  deriving DecidableEq

def FatDisk.step (io : ℕ → Io) (d : FatDisk) : FatOp → FatOut × FatDisk
  | .seek p => ((d.seek p).1.elim .err .pos, (d.seek p).2)
  | .read n => ((FatDisk.read io d n).1.elim .err .data, (FatDisk.read io d n).2)
  | .write src => ((FatDisk.write io d src).1.elim .err .wrote, (FatDisk.write io d src).2)

end CoeleoOs.Fs
