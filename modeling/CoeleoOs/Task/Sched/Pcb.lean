import CoeleoOs.Task.Fd
import CoeleoOs.Ui.Win

/-!
# Process table and kernel state

`State`, `Pcb` and `Sched` follow `pcb.rs`. A slot of the process table is a
`Slot`, so that `current` can only name one of them. Pids are natural numbers
below `2 ^ 32`.

A kernel continuation is what the saved registers make of it: the point of the
system call at which `yield_block` was entered. It also records the stack
pointer the process had when it entered that system call; no function of the
kernel reads this record. Of the processor state only `CPU_LOCAL.user_rsp` is
kept: the FPU areas, page-table root and kernel stacks that `apply_hw` switches
with it are left out.
-/

namespace CoeleoOs.Task
open CoeleoOs.Lib CoeleoOs.Ui

abbrev maxProc : ℕ := 8
abbrev Slot := Fin maxProc

/-- `u32::MAX`. -/
abbrev u32Max : ℕ := 2 ^ 32 - 1

inductive State
  | runnable
  | running
  | blockedStdin
  | blockedWait
  | blockedPipeRead
  | blockedPipeWrite
  | zombie
  deriving DecidableEq, Repr

structure TrapFrame where
  rax : UInt64 := 0
  rbx : UInt64 := 0
  rcx : UInt64 := 0
  rdx : UInt64 := 0
  rsi : UInt64 := 0
  rdi : UInt64 := 0
  rbp : UInt64 := 0
  r8 : UInt64 := 0
  r9 : UInt64 := 0
  r10 : UInt64 := 0
  r11 : UInt64 := 0
  r12 : UInt64 := 0
  r13 : UInt64 := 0
  r14 : UInt64 := 0
  r15 : UInt64 := 0
  rip : UInt64 := 0
  cs : UInt64 := 0
  rflags : UInt64 := 0
  rsp : UInt64 := 0
  ss : UInt64 := 0
  deriving DecidableEq

structure Pcb where
  pid : ℕ
  parent : ℕ
  state : State
  name : Fin 12 → UInt8
  l4 : ℕ
  trap : TrapFrame
  kcontValid : Bool
  userRsp : UInt64
  fds : FdTable
  image : Option Image
  spawnedChild : Bool
  lastSpawned : ℕ
  fault : Bool

structure Sched where
  procs : Slot → Option Pcb
  current : Option Slot
  nextPid : ℕ
  exclusive : Bool
  initPid : ℕ

inductive Outcome
  | exited
  | fault
  deriving DecidableEq

/-- Where a system call stands: at `syscall_dispatch` after its poll, at the head
of a blocking loop, or inside one. -/
inductive Point
  | dispatch (num a0 a1 a2 : UInt64)
  | readStdin (buf : ℕ)
  | stdinPolled (buf : ℕ)
  | readPipe (id : PipeId) (buf n : ℕ)
  | writePipe (id : PipeId) (buf n : ℕ)
  | wait
  | netPing (name : Bytes) (buf len : ℕ)
  | httpGet (url : Bytes) (buf len : ℕ)
  deriving DecidableEq

structure KernelCont where
  point : Point
  entryRsp : UInt64
  deriving DecidableEq

structure Kernel where
  sched : Sched
  pipes : Pipes
  keys : Bytes
  userRsp : UInt64
  /-- `CURRENT_SLOT`, which also selects the continuation that `save_kcont` fills. -/
  currentSlot : Slot
  /-- `none` is the zeroed record of a fresh process. -/
  kconts : Slot → Option KernelCont
  win : Win
  clipboard : Bytes
  /-- Whether the compositor is up. -/
  ready : Bool
  outcome : Outcome

def Sched.init : Sched := ⟨fun _ => none, none, 1, false, 0⟩

namespace Sched

variable (s : Sched)

def setProc (i : Slot) (p : Pcb) : Sched := { s with procs := Function.update s.procs i (some p) }

def clearProc (i : Slot) : Sched := { s with procs := Function.update s.procs i none }

def mapProcs (f : Pcb → Pcb) : Sched := { s with procs := fun i => (s.procs i).map f }

def currentPcb : Option Pcb := s.current.bind s.procs

def Live (i : Slot) (p : Pcb) : Prop := s.procs i = some p ∧ p.state ≠ .zombie

@[simp] theorem setProc_current (i : Slot) (p : Pcb) : (s.setProc i p).current = s.current := rfl
@[simp] theorem setProc_nextPid (i : Slot) (p : Pcb) : (s.setProc i p).nextPid = s.nextPid := rfl
@[simp] theorem setProc_initPid (i : Slot) (p : Pcb) : (s.setProc i p).initPid = s.initPid := rfl
@[simp] theorem setProc_self (i : Slot) (p : Pcb) : (s.setProc i p).procs i = some p := by
  simp [setProc]
@[simp] theorem clearProc_current (i : Slot) : (s.clearProc i).current = s.current := rfl
@[simp] theorem clearProc_nextPid (i : Slot) : (s.clearProc i).nextPid = s.nextPid := rfl
@[simp] theorem clearProc_self (i : Slot) : (s.clearProc i).procs i = none := by simp [clearProc]
@[simp] theorem mapProcs_current (f : Pcb → Pcb) : (s.mapProcs f).current = s.current := rfl
@[simp] theorem mapProcs_nextPid (f : Pcb → Pcb) : (s.mapProcs f).nextPid = s.nextPid := rfl
@[simp] theorem mapProcs_procs (f : Pcb → Pcb) (i : Slot) :
    (s.mapProcs f).procs i = (s.procs i).map f := rfl

theorem setProc_of_ne {i j : Slot} (h : j ≠ i) (p : Pcb) : (s.setProc i p).procs j = s.procs j :=
  Function.update_of_ne h _ _

theorem clearProc_of_ne {i j : Slot} (h : j ≠ i) : (s.clearProc i).procs j = s.procs j :=
  Function.update_of_ne h _ _

variable {s} in
theorem setProc_eq_self {i : Slot} {p : Pcb} (h : s.procs i = some p) : s.setProc i p = s := by
  unfold setProc
  rw [← h, Function.update_eq_self]

end Sched

end CoeleoOs.Task
