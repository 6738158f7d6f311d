import CoeleoOs.Task.Sched.Switch

/-!
# Spawn, wait, kill

The process-table half of `spawn.rs`, and the keyboard entry points of `kbd.rs`
that reach it. `killForeground` returns the new state when it found a process to
end and `none` when the source returns `false`, which leaves the table as it was.
-/

namespace CoeleoOs.Task
open CoeleoOs.Lib

namespace Sched

variable (s : Sched)

def currentPid : Option ℕ := s.currentPcb.map (·.pid)

def hasRunnableOther : Bool :=
  (List.finRange maxProc).any fun i => some i ≠ s.current && (s.procs i).any Pcb.eligible

def currentIsZombie : Bool := s.currentPcb.any fun p => p.state = .zombie

def wakeStdin : Sched :=
  s.mapProcs fun p => if p.state = .blockedStdin then { p with state := .runnable } else p

def wakePipeLocked : Sched :=
  s.mapProcs fun p => if p.state = .blockedPipeRead ∨ p.state = .blockedPipeWrite then
    { p with state := .runnable } else p

def wakeParent (parent : ℕ) : Sched :=
  s.mapProcs fun p => if p.pid = parent ∧ p.state = .blockedWait then
    { p with state := .runnable } else p

def wakeParentOfSlot (slot : Slot) : Sched :=
  let parent := (s.procs slot).elim 0 (·.parent)
  if parent = 0 then s else s.wakeParent parent

def findPid (pid : ℕ) : Option Slot := Table.position fun i => (s.procs i).any fun p => p.pid = pid

end Sched

def makeZombieLocked (k : Kernel) (slot : Slot) (fault : Bool) : Kernel :=
  match k.sched.procs slot with
  | some p =>
    let (fds, pipes) := p.fds.closeAll k.pipes
    let p := { p with fds := fds, state := .zombie, fault := fault, kcontValid := false }
    { k with pipes := pipes, sched := (k.sched.setProc slot p).wakePipeLocked }
  | none => { k with sched := k.sched.wakePipeLocked }

def foreground (s : Sched) : Option Slot := do
  let w ← Table.position fun i => (s.procs i).any fun p => p.state = .blockedWait
  let p ← s.procs w
  let last := p.lastSpawned
  if last = 0 ∨ last = s.initPid then none
  else Table.position fun i => (s.procs i).any fun p => p.pid = last ∧ p.state ≠ .zombie

def killForeground (k : Kernel) : Option Kernel :=
  match foreground k.sched with
  | none => none
  | some v =>
    let k := makeZombieLocked k v false
    let parent := (k.sched.procs v).elim 0 (·.parent)
    some { k with sched := k.sched.wakeParent parent }

abbrev queueCap : ℕ := 64

def enqueue (keys : Bytes) (b : UInt8) : Bytes :=
  if keys.length + 1 < queueCap then keys ++ [b] else keys

def enqueueOrKill (k : Kernel) (b : UInt8) : Kernel :=
  match (if b = 3 then killForeground k else none) with
  | some k => k
  | none => { k with keys := enqueue k.keys b, sched := k.sched.wakeStdin }

def basename (path : Bytes) : Bytes :=
  let base := ((path.splitOn 0x2F).getLast?).getD path
  if base = [] then path else base

def nameFromPath (path : Bytes) : Fin 12 → UInt8 := fun i => (basename path).getD i 0

def userCode : UInt64 := 0x2B
def userData : UInt64 := 0x23

def newPcb (pid parent : ℕ) (image : Image) (name : Bytes) (argv : ArgvSetup) (fds : FdTable) :
    Pcb where
  pid := pid
  parent := parent
  state := .runnable
  name := nameFromPath name
  l4 := image.l4
  trap := { rsi := argv.argvPtr, rdi := argv.argc, rip := image.entry, cs := userCode,
            rflags := 0x202, rsp := argv.rsp, ss := userData }
  kcontValid := false
  userRsp := 0
  fds := fds
  image := some image
  spawnedChild := false
  lastSpawned := 0
  fault := false

def childFds (k : Kernel) (parent stdinFd stdoutFd : ℕ) : Option FdTable × Pipes :=
  if parent = 0 then (some .newStdio, k.pipes)
  else
    match (k.sched.findPid parent).bind k.sched.procs with
    | some p => p.fds.inheritFrom stdinFd stdoutFd k.pipes
    | none => (none, k.pipes)

def Sched.markParent (s : Sched) (parent pid : ℕ) : Sched :=
  if parent = 0 then s
  else
    match s.findPid parent with
    | none => s
    | some i =>
      match s.procs i with
      | some p => s.setProc i { p with spawnedChild := true, lastSpawned := pid }
      | none => s

def insertPcb (k : Kernel) (image : Image) (name : Bytes) (parent : ℕ) (argv : ArgvSetup)
    (stdinFd stdoutFd : ℕ) : Option Slot × Kernel :=
  match Table.position fun i => (k.sched.procs i).isNone with
  | none => (none, k)
  | some slot =>
    match childFds k parent stdinFd stdoutFd with
    | (none, pipes) => (none, { k with pipes := pipes })
    | (some fds, pipes) =>
      let pid := k.sched.nextPid
      let s := { k.sched with nextPid := min (pid + 1) u32Max }
      let s := s.setProc slot (newPcb pid parent image name argv fds)
      (some slot, { k with
        pipes := pipes
        sched := s.markParent parent pid
        kconts := Function.update k.kconts slot none })

def spawnWith (k : Kernel) (load : Option (Image × ArgvSetup)) (path : Bytes)
    (parent stdinFd stdoutFd : ℕ) : Option ℕ × Kernel :=
  match load with
  | none => (none, k)
  | some (image, argv) =>
    match insertPcb k image path parent argv stdinFd stdoutFd with
    | (none, k) => (none, k)
    | (some slot, k) => ((k.sched.procs slot).map (·.pid), k)

def runWith (k : Kernel) (image : Image) (name : Bytes) (exclusive : Bool)
    (argv : Option ArgvSetup) : Option (Kernel × Option TrapFrame) :=
  let k := { k with sched :=
    { k.sched with exclusive := exclusive, nextPid := 1, initPid := 0, current := none } }
  match argv with
  | none => some (k, none)
  | some argv =>
    match insertPcb k image name 0 argv err err with
    | (none, k) => some (k, none)
    | (some slot, k) => do
      let p ← k.sched.procs slot
      let s := { k.sched with initPid := p.pid, current := some slot }
      let s := s.setProc slot { p with state := .running }
      let k ← applyHw { k with sched := s, currentSlot := slot } slot
      return (k, some p.trap)

def userExit (k : Kernel) (outcome : Outcome) : Option (Kernel × Bool) := do
  let k := match k.sched.currentPid with
    | some pid => { k with win := k.win.dropPid pid }
    | none => k
  let slot ← k.sched.current
  let k := makeZombieLocked k slot (outcome = .fault)
  let p ← k.sched.procs slot
  if k.sched.exclusive ∨ p.pid = k.sched.initPid then
    return (leaveScheduler k outcome, true)
  return ({ k with sched := k.sched.wakeParentOfSlot slot }, false)

def orphan (s : Sched) : Option Slot :=
  Table.position fun i => (s.procs i).any fun p => p.parent = 0 ∧ p.state = .zombie

def reapLoop : ℕ → Kernel → Kernel
  | 0, k => k
  | fuel + 1, k =>
    match orphan k.sched with
    | none => k
    | some i => reapLoop fuel (removeSlot k i)

def reapOrphans (k : Kernel) : Kernel := reapLoop maxProc k

inductive WaitResult
  | pid (p : ℕ)
  | neverHadChildren
  | mustBlock
  deriving DecidableEq

def zombieChild (s : Sched) (pid : ℕ) : Option Slot :=
  Table.position fun i => (s.procs i).any fun p => p.parent = pid ∧ p.state = .zombie

def tryReap (k : Kernel) : Option (WaitResult × Kernel) :=
  match k.sched.current with
  | none => some (.neverHadChildren, k)
  | some cur => do
    let p ← k.sched.procs cur
    match zombieChild k.sched p.pid with
    | some i =>
      let z ← k.sched.procs i
      return (.pid z.pid, removeSlot k i)
    | none => return (if p.spawnedChild then .mustBlock else .neverHadChildren, k)

def sysKill (k : Kernel) (pid : ℕ) : Option (ℕ × Kernel) :=
  let pid := pid % 2 ^ 32
  match k.sched.current with
  | none => some (err, k)
  | some cur => do
    let p ← k.sched.procs cur
    if pid = k.sched.initPid then return (err, k)
    match k.sched.findPid pid with
    | none => return (err, k)
    | some v =>
      let q ← k.sched.procs v
      if q.parent ≠ p.pid then return (err, k)
      if q.state = .zombie then return (err, k)
      return (0, makeZombieLocked k v false)

end CoeleoOs.Task
