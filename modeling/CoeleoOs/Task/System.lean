import CoeleoOs.Lib.Machine
import CoeleoOs.Task.Syscall

/-!
# The running system

One processor runs the kernel shell, a process, a system call, the compositor
poll, a keyboard interrupt or the scheduler loop. `Mode` says which; a step
takes it to the next place where another party can act. Keys reach the process
table only inside a poll (USB) or a keyboard interrupt (PS/2), and interrupts are
taken in user code, in `hlt`, in the kernel shell and in the parts of a system
call that open them. Every other timer tick only counts.
-/

namespace CoeleoOs.Task
open CoeleoOs.Lib CoeleoOs.Ui

inductive Back
  | host
  | idle
  | user
  | call (c : KernelCont)
  deriving DecidableEq

inductive Mode
  | host
  | user
  | kernel (c : KernelCont)
  /-- A system call with interrupts enabled. -/
  | irqOpen (c : KernelCont)
  /-- Inside `comp::poll`, after `reap_orphans`. -/
  | polling (b : Back)
  /-- Inside `keyboard_interrupt`. -/
  | irq (b : Back)
  /-- At the head of the loop of `schedule_next`. -/
  | sched
  | idle
  | halted
  deriving DecidableEq

structure Sys where
  k : Kernel
  mode : Mode

inductive Act
  | runWith (image : Image) (name : Bytes) (exclusive : Bool) (argv : Option ArgvSetup)
  | shellByte
  | poll
  | syscall (rsp num a0 a1 a2 : UInt64)
  | timer (frame : TrapFrame)
  | fault
  | keyboard
  | key (b : UInt8)
  | launch (load : Option (Image × ArgvSetup)) (path : Bytes)
  | compositor (w : Win)
  | pollEnd
  | irqEnd
  | run (e : Env)
  | schedule
  | wake

def Back.afterPoll : Back → Mode
  | .host => .host
  | .idle => .idle
  | .user => .user
  | .call c => .kernel c

def Back.afterIrq : Back → Mode
  | .host => .host
  | .idle => .idle
  | .user => .user
  | .call c => .irqOpen c

def enterPoll (k : Kernel) (b : Back) : Sys :=
  if k.ready then ⟨reapOrphans k, .polling b⟩ else ⟨k, b.afterPoll⟩

def orHalt (k : Kernel) (r : Option Sys) : Sys := r.getD ⟨k, .halted⟩

def resumed : Kernel × Resume → Sys
  | (k, .kcont c) => ⟨k, .kernel c⟩
  | (k, .user _) => ⟨k, .user⟩

def exited (r : Kernel × Bool) : Sys := ⟨r.1, if r.2 then .host else .sched⟩

@[simp] theorem resumed_k (r : Kernel × Resume) : (resumed r).k = r.1 := by
  obtain ⟨k, _ | _⟩ := r <;> rfl

@[simp] theorem exited_k (r : Kernel × Bool) : (exited r).k = r.1 := rfl

def proceed (rsp : UInt64) (k : Kernel) : Next → Option Sys
  | .ret _ => some ⟨k, .user⟩
  | .goto p => some ⟨k, .kernel ⟨p, rsp⟩⟩
  | .pollThen p => some (enterPoll k (.call ⟨p, rsp⟩))
  | .irqOpen p => some ⟨k, .irqOpen ⟨p, rsp⟩⟩
  | .block st p => (yieldBlock k st ⟨p, rsp⟩).map (⟨·, .sched⟩)
  | .exit o => (userExit k o).map exited

def runCall (k : Kernel) (c : KernelCont) (e : Env) : Sys :=
  match (runPoint c.point).out e k with
  | none => ⟨k, .halted⟩
  | some (next, k') => orHalt k' (proceed c.entryRsp k' next)

def timerStep (k : Kernel) (frame : TrapFrame) : Sys :=
  match timerFromUser k frame with
  | none => ⟨k, .halted⟩
  | some .same => ⟨k, .user⟩
  | some .schedule => ⟨k, .sched⟩
  | some (.switch r) => resumed r

def scheduleStep (k : Kernel) : Sys :=
  match pickRunnable k.sched with
  | none => enterPoll k .idle
  | some slot => orHalt k ((switchTo k slot).map resumed)

def runWithStep (k : Kernel) (image : Image) (name : Bytes) (exclusive : Bool)
    (argv : Option ArgvSetup) : Sys :=
  orHalt k ((runWith k image name exclusive argv).map fun r =>
    ⟨r.1, if r.2.isSome then .user else .host⟩)

namespace Sys

def step (s : Sys) (a : Act) : Option Sys :=
  match s.mode, a with
  | .host, .runWith image name exclusive argv => some (runWithStep s.k image name exclusive argv)
  | .host, .shellByte => some { s with k := { s.k with keys := s.k.keys.tail } }
  | .host, .poll => some (enterPoll s.k .host)
  | .host, .keyboard => some { s with mode := .irq .host }
  | .user, .syscall rsp num a0 a1 a2 =>
    some (enterPoll { s.k with userRsp := rsp } (.call ⟨.dispatch num a0 a1 a2, rsp⟩))
  | .user, .timer frame => some (timerStep s.k frame)
  | .user, .fault => some (orHalt s.k ((userExit s.k .fault).map exited))
  | .user, .keyboard => some { s with mode := .irq .user }
  | .kernel c, .run e => some (runCall s.k c e)
  | .irqOpen c, .keyboard => some { s with mode := .irq (.call c) }
  | .irqOpen c, .wake => some { s with mode := .kernel c }
  | .polling _, .key b => some { s with k := enqueueOrKill s.k b }
  | .polling _, .launch load path => some { s with k := (spawnWith s.k load path 0 err err).2 }
  | .polling _, .compositor w => some { s with k := { s.k with win := w } }
  | .polling b, .pollEnd => some { s with mode := b.afterPoll }
  | .irq _, .key b => some { s with k := enqueueOrKill s.k b }
  | .irq b, .irqEnd =>
    some { s with mode := if s.k.sched.currentIsZombie then .sched else b.afterIrq }
  | .sched, .schedule => some (scheduleStep s.k)
  | .idle, .keyboard => some { s with mode := .irq .idle }
  | .idle, .wake => some { s with mode := .sched }
  | _, _ => none

end Sys

def Kernel.init (ready : Bool) : Kernel where
  sched := Sched.init
  pipes := fun _ => Pipe.empty
  keys := []
  userRsp := 0
  currentSlot := 0
  kconts := fun _ => none
  win := Win.init
  clipboard := []
  ready := ready
  outcome := .exited

/-- `kmain` before its first `try_sh`. -/
def Sys.boot (ready : Bool) : Sys := ⟨Kernel.init ready, .host⟩

abbrev Run (ready : Bool) (ts : List (Machine.Trans Sys Act)) (s : Sys) : Prop :=
  Machine.Path Sys.step (Sys.boot ready) ts s

abbrev Reach (ready : Bool) (s : Sys) : Prop := Machine.Reachable Sys.step (Sys.boot ready) s

namespace Sample

/-!
Concrete runs use one program that always loads and a user memory that holds an
argument record at 4096 and the letter `a` elsewhere.
-/

def image : Image := ⟨0x400000, 1, [], []⟩
def argv : ArgvSetup := ⟨0x7000, 1, 0x7000⟩

def spawnRecord (stdinFd stdoutFd : ℕ) : Bytes :=
  leBytes 8 0x2000 ++ leBytes 8 1 ++ leBytes 8 0 ++ leBytes 8 0 ++ leBytes 8 stdinFd ++
    leBytes 8 stdoutFd

def env (record : Bytes) : Env where
  space := ⟨fun _ => some ⟨true, true⟩⟩
  mem a := record.getD (a - 0x1000) 0x61
  list _ := .error .notFound
  writeFile _ := false
  touch _ := false
  remove _ := false
  mkdir _ := false
  sync := false
  readAt _ _ := none
  writeAt _ _ _ := none
  load _ _ := some (image, argv)
  millis := 0
  memText := []
  diskText := []
  installText _ := []
  install _ := 0
  ping _ := .error .noNet
  httpGet _ := .error .noNet
  isoDate := none
  disks := []
  reserve _ := true

def run : Act := .run (env (spawnRecord err err))
def init : Act := .runWith image [0x73, 0x68] false (some argv)

def call (rsp num a0 a1 a2 : UInt64) : List Act := [.syscall rsp num a0 a1 a2, .pollEnd]

end Sample

end CoeleoOs.Task
