import CoeleoOs.Lib.Effect
import CoeleoOs.Mem.Vmm

/-!
# System call programs and user memory

System call handlers are programs over the kernel state that log each use of a
user pointer. What a handler learns from outside the process and pipe tables is
read from an `Env`: the caller's address space and memory, the results of the
file system, of the network, of the disks and of the clock. Paths and names are
byte strings; `utf8Valid` is the acceptance test of `core::str::from_utf8`.
-/

namespace CoeleoOs.Task
open CoeleoOs.Lib CoeleoOs.Mem

abbrev Bytes := List UInt8

/-- `u64::MAX`. -/
abbrev err : ℕ := 2 ^ 64 - 1

inductive FsError
  | noFs | notFound | notDir | isDir | notText | io
  deriving DecidableEq

structure DirEnt where
  name : Bytes
  isDir : Bool
  deriving DecidableEq

/-- A loaded executable: entry point, page-table root and the frames it owns. -/
structure Image where
  entry : UInt64
  l4 : ℕ
  pages : List (ℕ × ℕ)
  ptFrames : List ℕ
  deriving DecidableEq

structure ArgvSetup where
  rsp : UInt64
  argc : UInt64
  argvPtr : UInt64
  deriving DecidableEq

inductive PingError
  | noNet | failed
  deriving DecidableEq

inductive HttpError
  | badUrl | noNet | timeout | https | failed
  deriving DecidableEq

structure Env where
  space : Vmm.AddrSpace
  mem : ℕ → UInt8
  list : Bytes → Except FsError (List DirEnt)
  /-- Whether `fs::write_file`, `fs::touch`, `fs::remove`, `fs::mkdir`, `fs::sync` succeed. -/
  writeFile : Bytes → Bool
  touch : Bytes → Bool
  remove : Bytes → Bool
  mkdir : Bytes → Bool
  sync : Bool
  readAt : Bytes → ℕ → Option Bytes
  writeAt : Bytes → ℕ → Bytes → Option ℕ
  /-- `fs::read_file`, `elfload::load` and `argv_setup` for a path and an argument blob. -/
  load : Bytes → Bytes → Option (Image × ArgvSetup)
  millis : ℕ
  /-- The texts of `sys_sysinfo`; the last one for the bytes of an install argument. -/
  memText : Bytes
  diskText : Bytes
  installText : Bytes → Bytes
  install : ℕ → ℕ
  ping : Bytes → Except PingError (List (Fin 8 → UInt8))
  httpGet : Bytes → Except HttpError Bytes
  isoDate : Option (Fin 20 → UInt8)
  disks : List (Fin 24 → UInt8)
  reserve : ℕ → Bool

inductive UserOp
  | read (ptr len : ℕ)
  | write (ptr : ℕ) (src : Bytes)
  | refused (ptr len : ℕ)
  | panicked (ptr len : ℕ)
  deriving DecidableEq

abbrev KernM (σ α : Type) := Eff Env UserOp σ α

structure Utf8State where
  need : ℕ
  lo : UInt8
  hi : UInt8

def utf8Step (st : Utf8State) (b : UInt8) : Option Utf8State :=
  if st.need = 0 then
    if b < 0x80 then some ⟨0, 0, 0⟩
    else if 0xC2 ≤ b ∧ b ≤ 0xDF then some ⟨1, 0x80, 0xBF⟩
    else if b = 0xE0 then some ⟨2, 0xA0, 0xBF⟩
    else if b = 0xED then some ⟨2, 0x80, 0x9F⟩
    else if 0xE1 ≤ b ∧ b ≤ 0xEF then some ⟨2, 0x80, 0xBF⟩
    else if b = 0xF0 then some ⟨3, 0x90, 0xBF⟩
    else if 0xF1 ≤ b ∧ b ≤ 0xF3 then some ⟨3, 0x80, 0xBF⟩
    else if b = 0xF4 then some ⟨3, 0x80, 0x8F⟩
    else none
  else if st.lo ≤ b ∧ b ≤ st.hi then some ⟨st.need - 1, 0x80, 0xBF⟩
  else none

def utf8Valid (bs : Bytes) : Bool :=
  match bs.foldlM utf8Step ⟨0, 0, 0⟩ with
  | some st => st.need == 0
  | none => false

theorem utf8Valid_ascii {bytes : Bytes} (h : ∀ b ∈ bytes, b < 0x80) : utf8Valid bytes = true := by
  have hfold : bytes.foldlM utf8Step ⟨0, 0, 0⟩ = some ⟨0, 0, 0⟩ := by
    induction bytes with
    | nil => rfl
    | cons b bs ih =>
      rw [List.foldlM_cons, utf8Step, if_pos rfl, if_pos (h b List.mem_cons_self)]
      exact ih fun c hc => h c (List.mem_cons_of_mem b hc)
  rw [utf8Valid, hfold]
  rfl

def leNat (bs : Bytes) : ℕ := bs.foldr (fun b acc => b.toNat + 256 * acc) 0

def word (raw : Bytes) (i : ℕ) : ℕ := leNat ((raw.drop (8 * i)).take 8)

def leBytes : ℕ → ℕ → Bytes
  | 0, _ => []
  | k + 1, n => UInt8.ofNat n :: leBytes k (n / 256)

theorem leBytes_length (i n : ℕ) : (leBytes i n).length = i := by
  induction i generalizing n with
  | zero => rfl
  | succ i ih => simp [leBytes, ih]

def userBytes (e : Env) (buf n : ℕ) : Bytes := (List.range n).map fun i => e.mem (buf + i)

variable {σ : Type}

def userSliceOk (ptr len : ℕ) : KernM σ Bool := do
  let e ← Eff.ask
  match Vmm.userSliceOk e.space ptr len with
  | none =>
    Eff.tell (.panicked ptr len)
    Eff.abort
  | some true => return true
  | some false =>
    Eff.tell (.refused ptr len)
    return false

def copyFromUser (ptr len cap : ℕ) : KernM σ (Option Bytes) := do
  if cap < len then return none
  let e ← Eff.ask
  Eff.tell (.read ptr len)
  return some ((List.range len).map fun i => e.mem (ptr + i))

def copyToUser (ptr : ℕ) (src : Bytes) : KernM σ (Option Unit) := do
  Eff.tell (.write ptr src)
  return some ()

abbrev pathMax : ℕ := 256

def copyPath (ptr len : ℕ) : KernM σ (Option Bytes) := do
  if len = 0 ∨ pathMax < len then return none
  unless ← userSliceOk ptr len do return none
  let some tmp ← copyFromUser ptr len pathMax | return none
  return if utf8Valid tmp then some tmp else none

end CoeleoOs.Task
