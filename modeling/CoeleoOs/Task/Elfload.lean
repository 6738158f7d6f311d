import CoeleoOs.Lib.Client
import CoeleoOs.Mem.Pmm
import CoeleoOs.Task.UserAccess

/-!
# The ELF loader

`elfload::load` and `unload` over the frame allocator. The parser of the `elf`
crate and the mapper of the `x86_64` crate are parameters: a mapper keeps its
tables in a state of its own and asks the allocator for the frames of new tables.
Sums that do not fit in 64 bits are logged and wrap around, as in the release
build; a bad slice and a non-canonical address are logged and end the kernel.
-/

namespace CoeleoOs.Task
open CoeleoOs.Lib CoeleoOs.Mem

structure ProgramHeader where
  pType : UInt32
  pFlags : UInt32
  pOffset : UInt64
  pVaddr : UInt64
  pFilesz : UInt64
  pMemsz : UInt64
  deriving DecidableEq

structure ElfFile where
  eMachine : UInt16
  eType : UInt16
  eEntry : UInt64
  segments : Option (List ProgramHeader)
  deriving DecidableEq

def emX8664 : UInt16 := 62
def etExec : UInt16 := 2
def ptLoad : UInt32 := 1
def ptDynamic : UInt32 := 2
def pfX : UInt32 := 1
def pfW : UInt32 := 2

def userStackBase : ℕ := 0x7FFF0000
def userStackPages : ℕ := 16
def userStackTop : ℕ := userStackBase + userStackPages * frameSize
def userCanonMax : ℕ := 2 ^ 47

namespace ProgramHeader

def writable (ph : ProgramHeader) : Bool := ph.pFlags &&& pfW != 0

def executable (ph : ProgramHeader) : Bool := ph.pFlags &&& pfX != 0

def start (ph : ProgramHeader) : ℕ := ph.pVaddr.toNat

def filesz (ph : ProgramHeader) : ℕ := ph.pFilesz.toNat

def memsz (ph : ProgramHeader) : ℕ := ph.pMemsz.toNat

end ProgramHeader

structure Leaf where
  frame : ℕ
  writable : Bool
  executable : Bool
  deriving DecidableEq

/-- The page tables of one address space and `Mapper::map_to`. Pages are given by their address. -/
structure PageMapper (τ : Type) where
  empty : τ
  mapTo : τ → ℕ → Leaf → Client (Option ℕ) (Bool × τ)

inductive Fault
  | overflow
  | slice
  | nonCanonical
  deriving DecidableEq

structure LoadState (τ : Type) where
  pmm : Pmm
  ram : ℕ → ℕ → UInt8
  table : τ
  pages : List (ℕ × ℕ)
  ptFrames : List ℕ
  faults : List Fault

inductive Res
  | ok
  | err
  | panic
  deriving DecidableEq

inductive Loaded
  | ok (image : Image)
  | err
  | panic
  deriving DecidableEq

def recAlloc (st : Pmm × List ℕ) : Option ℕ × (Pmm × List ℕ) :=
  match st.1.alloc with
  | (none, pmm) => (none, (pmm, st.2))
  | (some f, pmm) => (some f, (pmm, st.2 ++ [f]))

def zeroFrame (ram : ℕ → ℕ → UInt8) (frame : ℕ) : ℕ → ℕ → UInt8 :=
  Function.update ram frame fun _ => 0

def copyIntoFrame (ram : ℕ → ℕ → UInt8) (frame off : ℕ) (src : Bytes) : ℕ → ℕ → UInt8 :=
  Function.update ram frame fun i =>
    if off ≤ i ∧ i < off + src.length then src.getD (i - off) 0 else ram frame i

namespace LoadState

variable {τ : Type}

def fault (s : LoadState τ) (f : Fault) : LoadState τ := { s with faults := s.faults ++ [f] }

def add (s : LoadState τ) (a b : ℕ) : ℕ × LoadState τ :=
  if a + b < 2 ^ 64 then (a + b, s) else ((a + b) % 2 ^ 64, s.fault .overflow)

def mapUserIn (m : PageMapper τ) (s : LoadState τ) (va frame : ℕ) (writable executable : Bool) :
    Bool × LoadState τ :=
  if userCanonMax ≤ va ∨ va % frameSize ≠ 0 then (false, s)
  else
    let r := (m.mapTo s.table va ⟨frame, writable, executable⟩).run recAlloc (s.pmm, [])
    (r.1.1, { s with pmm := r.2.1, table := r.1.2, ptFrames := s.ptFrames ++ r.2.2 })

def mapFrame (m : PageMapper τ) (s : LoadState τ) (va frame : ℕ) (writable executable : Bool) :
    Res × LoadState τ :=
  if Vmm.canonical va then
    match s.mapUserIn m va frame writable executable with
    | (true, s) => (.ok, { s with pages := s.pages ++ [(va, frame)] })
    | (false, s) => (.err, { s with pmm := s.pmm.free frame })
  else (.panic, s.fault .nonCanonical)

def copyPage (bytes : Bytes) (ph : ProgramHeader) (s : LoadState τ) (va frame : ℕ) :
    Res × LoadState τ :=
  let (pageEnd, s) := s.add va frameSize
  let (fileEnd, s) := s.add ph.start ph.filesz
  let copyLo := max ph.start va
  let copyHi := min fileEnd pageEnd
  if copyLo < copyHi then
    let (fileOff, s) := s.add ph.pOffset.toNat (copyLo - ph.start)
    let n := copyHi - copyLo
    let (srcEnd, s) := s.add fileOff n
    if bytes.length < srcEnd then (.err, s)
    else if srcEnd < fileOff then (.panic, s.fault .slice)
    else
      let src := (bytes.drop fileOff).take (srcEnd - fileOff)
      (.ok, { s with ram := copyIntoFrame s.ram frame (copyLo - va) src })
  else (.ok, s)

def mapPage (m : PageMapper τ) (bytes : Bytes) (ph : ProgramHeader) (s : LoadState τ) (va : ℕ) :
    Res × LoadState τ :=
  match s.pmm.alloc with
  | (none, pmm) => (.err, { s with pmm := pmm })
  | (some frame, pmm) =>
    match copyPage bytes ph { s with pmm := pmm, ram := zeroFrame s.ram frame } va frame with
    | (.ok, s) => s.mapFrame m va frame ph.writable ph.executable
    | (.err, s) => (.err, { s with pmm := s.pmm.free frame })
    | (.panic, s) => (.panic, s)

def mapPages (m : PageMapper τ) (bytes : Bytes) (ph : ProgramHeader) (stop : ℕ) :
    ℕ → LoadState τ → ℕ → Res × LoadState τ
  | 0, s, _ => (.ok, s)
  | fuel + 1, s, va =>
    if va < stop then
      match s.mapPage m bytes ph va with
      | (.ok, s) => mapPages m bytes ph stop fuel s ((va + frameSize) % 2 ^ 64)
      | r => r
    else (.ok, s)

def mapSegment (m : PageMapper τ) (bytes : Bytes) (ph : ProgramHeader) (s : LoadState τ) :
    Res × LoadState τ :=
  if ph.memsz < ph.filesz then (.err, s)
  else if ph.writable && ph.executable then (.err, s)
  else if 2 ^ 64 ≤ ph.start + ph.memsz then (.err, s)
  else if userCanonMax < ph.start + ph.memsz then (.err, s)
  else
    s.mapPages m bytes ph (ph.start + ph.memsz) (ph.memsz / frameSize + 2)
      (ph.start - ph.start % frameSize)

def mapStackPage (m : PageMapper τ) (s : LoadState τ) (va : ℕ) : Res × LoadState τ :=
  match s.pmm.alloc with
  | (none, pmm) => (.err, { s with pmm := pmm })
  | (some frame, pmm) =>
    { s with pmm := pmm, ram := zeroFrame s.ram frame }.mapFrame m va frame true false

def mapStackPages (m : PageMapper τ) : List ℕ → LoadState τ → Res × LoadState τ
  | [], s => (.ok, s)
  | i :: is, s =>
    match s.mapStackPage m (userStackBase + i * frameSize) with
    | (.ok, s) => mapStackPages m is s
    | r => r

def mapStack (m : PageMapper τ) (s : LoadState τ) : Res × LoadState τ :=
  mapStackPages m (List.range userStackPages) s

def loadSegments (m : PageMapper τ) (bytes : Bytes) :
    List ProgramHeader → Bool → LoadState τ → Res × Bool × LoadState τ
  | [], ok, s => (.ok, ok, s)
  | ph :: phs, ok, s =>
    if ph.pType = ptDynamic then (.err, ok, s)
    else if ph.pType ≠ ptLoad then loadSegments m bytes phs ok s
    else
      match s.mapSegment m bytes ph with
      | (.ok, s) => loadSegments m bytes phs true s
      | (r, s) => (r, true, s)

end LoadState

def freeImage (pmm : Pmm) (l4 : ℕ) (pages : List (ℕ × ℕ)) (ptFrames : List ℕ) : Pmm :=
  let pmm := pages.foldl (fun pmm p => pmm.free p.2) pmm
  let pmm := ptFrames.foldl Pmm.free pmm
  pmm.free l4

def unload (pmm : Pmm) (image : Image) : Pmm := freeImage pmm image.l4 image.pages image.ptFrames

def LoadState.fail {τ : Type} (s : LoadState τ) (l4 : ℕ) : LoadState τ :=
  { s with pmm := freeImage s.pmm l4 s.pages s.ptFrames }

def loadPhdrs {τ : Type} (m : PageMapper τ) (bytes : Bytes) (eEntry : UInt64) (l4 : ℕ)
    (phdrs : List ProgramHeader) (s : LoadState τ) : Loaded × LoadState τ :=
  match s.loadSegments m bytes phdrs false with
  | (.panic, _, s) => (.panic, s)
  | (.err, _, s) => (.err, s.fail l4)
  | (.ok, false, s) => (.err, s.fail l4)
  | (.ok, true, s) =>
    match s.mapStack m with
    | (.panic, s) => (.panic, s)
    | (.err, s) => (.err, s.fail l4)
    | (.ok, s) =>
      if Vmm.canonical eEntry.toNat then (.ok ⟨eEntry, l4, s.pages, s.ptFrames⟩, s)
      else (.panic, s.fault .nonCanonical)

/-- `minimalParse` is `ElfBytes::minimal_parse`, with the headers that `segments` gives. -/
def load {τ : Type} (m : PageMapper τ) (minimalParse : Bytes → Option ElfFile) (bytes : Bytes)
    (pmm : Pmm) (ram : ℕ → ℕ → UInt8) : Loaded × LoadState τ :=
  match pmm.alloc with
  | (none, pmm) => (.err, ⟨pmm, ram, m.empty, [], [], []⟩)
  | (some l4, pmm) =>
    let s : LoadState τ := ⟨pmm, ram, m.empty, [], [], []⟩
    match minimalParse bytes with
    | none => (.err, s)
    | some file =>
      if file.eMachine ≠ emX8664 ∨ file.eType ≠ etExec then (.err, { s with pmm := s.pmm.free l4 })
      else
        match file.segments with
        | none => (.err, s)
        | some phdrs => loadPhdrs m bytes file.eEntry l4 phdrs s

def parsePhdr (raw : Bytes) : ProgramHeader :=
  ⟨UInt32.ofNat (leNat (raw.take 4)), UInt32.ofNat (leNat ((raw.drop 4).take 4)),
    UInt64.ofNat (word raw 1), UInt64.ofNat (word raw 2), UInt64.ofNat (word raw 4),
    UInt64.ofNat (word raw 5)⟩

def parseElf64 (bytes : Bytes) : Option ElfFile :=
  let half := fun i => leNat ((bytes.drop i).take 2)
  let phoff := word bytes 4
  let phnum := half 56
  let file := fun segments =>
    ElfFile.mk (UInt16.ofNat (half 18)) (UInt16.ofNat (half 16)) (UInt64.ofNat (word bytes 3))
      segments
  if bytes.length < 64 ∨ bytes.take 6 ≠ [0x7F, 0x45, 0x4C, 0x46, 2, 1] then none
  else if phoff = 0 then some (file none)
  else if half 54 ≠ 56 ∨ bytes.length < phoff + 56 * phnum then none
  else some (file
    (some ((List.range phnum).map fun i => parsePhdr ((bytes.drop (phoff + 56 * i)).take 56))))

def sampleElf (pOffset entry : ℕ) : Bytes :=
  [0x7F, 0x45, 0x4C, 0x46, 2, 1, 1, 0, 0, 0, 0, 0, 0, 0, 0, 0] ++ leBytes 2 2 ++ leBytes 2 62 ++
    leBytes 4 1 ++ leBytes 8 entry ++ leBytes 8 64 ++ leBytes 8 0 ++ leBytes 4 0 ++ leBytes 2 64 ++
      leBytes 2 56 ++ leBytes 2 1 ++ leBytes 6 0 ++ leBytes 4 1 ++ leBytes 4 5 ++
        leBytes 8 pOffset ++ leBytes 8 0x400078 ++ leBytes 8 0x400078 ++
    leBytes 8 4 ++ leBytes 8 8 ++ leBytes 8 4096 ++ [0x90, 0x90, 0xF4, 0xC3]

section Inversion

variable {τ : Type} {m : PageMapper τ} {minimalParse : Bytes → Option ElfFile} {bytes : Bytes}
  {pmm : Pmm} {ram : ℕ → ℕ → UInt8} {r : Loaded} {s : LoadState τ}

def Executable (minimalParse : Bytes → Option ElfFile) (bytes : Bytes) (file : ElfFile)
    (phdrs : List ProgramHeader) : Prop :=
  minimalParse bytes = some file ∧ file.eMachine = emX8664 ∧ file.eType = etExec ∧
    file.segments = some phdrs

theorem load_executable {file : ElfFile} {phdrs : List ProgramHeader} {l4 : ℕ} {pmm' : Pmm}
    (hfile : Executable minimalParse bytes file phdrs) (hal : pmm.alloc = (some l4, pmm')) :
    load m minimalParse bytes pmm ram =
      loadPhdrs m bytes file.eEntry l4 phdrs ⟨pmm', ram, m.empty, [], [], []⟩ := by
  obtain ⟨hparse, hmachine, htype, hsegs⟩ := hfile
  simp [load, hal, hparse, hmachine, htype, hsegs]

theorem load_cases (h : load m minimalParse bytes pmm ram = (r, s)) :
    (r = .err ∧ s.faults = []) ∨
      ∃ file phdrs l4 pmm', Executable minimalParse bytes file phdrs ∧ pmm.alloc = (some l4, pmm') ∧
        loadPhdrs m bytes file.eEntry l4 phdrs ⟨pmm', ram, m.empty, [], [], []⟩ = (r, s) := by
  simp only [load] at h
  rcases hal : pmm.alloc with ⟨_ | l4, pmm'⟩
  · simp only [hal, Prod.mk.injEq] at h
    obtain ⟨rfl, rfl⟩ := h
    exact .inl ⟨rfl, rfl⟩
  · simp only [hal] at h
    cases hparse : minimalParse bytes with
    | none =>
      simp only [hparse, Prod.mk.injEq] at h
      obtain ⟨rfl, rfl⟩ := h
      exact .inl ⟨rfl, rfl⟩
    | some file =>
      simp only [hparse] at h
      by_cases hfile : file.eMachine ≠ emX8664 ∨ file.eType ≠ etExec
      · simp only [hfile, if_true, Prod.mk.injEq] at h
        obtain ⟨rfl, rfl⟩ := h
        exact .inl ⟨rfl, rfl⟩
      · simp only [hfile, if_false] at h
        cases hsegs : file.segments with
        | none =>
          simp only [hsegs, Prod.mk.injEq] at h
          obtain ⟨rfl, rfl⟩ := h
          exact .inl ⟨rfl, rfl⟩
        | some phdrs =>
          simp only [hsegs] at h
          push Not at hfile
          exact .inr ⟨file, phdrs, l4, pmm', ⟨hparse, hfile.1, hfile.2, hsegs⟩, rfl, h⟩

end Inversion

end CoeleoOs.Task
