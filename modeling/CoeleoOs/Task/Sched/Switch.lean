import CoeleoOs.Task.Sched.Pcb

/-!
# Context switch

The scheduler half of `switch.rs`. A function that unwraps an absent entry
panics; it returns `none` here. `switchTo` and `timerFromUser` end by resuming a
process, either through its kernel continuation or through its trap frame.
-/

namespace CoeleoOs.Task
open CoeleoOs.Lib

def Pcb.eligible (p : Pcb) : Bool := p.state = .runnable ∨ p.state = .running

def cyclic (start k : ℕ) : Slot := ⟨(start + k) % maxProc, Nat.mod_lt _ (by decide)⟩

def pickRunnable (s : Sched) : Option Slot :=
  let start := s.current.elim 0 fun c => c.val + 1
  ((List.range maxProc).map (cyclic start)).find? fun i => (s.procs i).any Pcb.eligible

def pickRunnableOther (s : Sched) (cur : Slot) : Option Slot :=
  ((List.range' 1 (maxProc - 1)).map (cyclic cur)).find? fun i =>
    (s.procs i).any fun p => p.state = .runnable

inductive Resume
  | kcont (c : KernelCont)
  | user (trap : TrapFrame)

def applyHw (k : Kernel) (slot : Slot) : Option Kernel :=
  (k.sched.procs slot).map fun p => { k with userRsp := p.userRsp }

def resume (k : Kernel) (slot : Slot) : Option (Kernel × Resume) :=
  match k.sched.procs slot with
  | none => none
  | some p =>
    if p.kcontValid then
      (k.kconts slot).map fun c =>
        ({ k with sched := k.sched.setProc slot { p with kcontValid := false } }, .kcont c)
    else some (k, .user p.trap)

def saveOutgoing (k : Kernel) (slot : Slot) : Sched :=
  match k.sched.current with
  | none => k.sched
  | some c =>
    if c ≠ slot then
      match k.sched.procs c with
      | some p => k.sched.setProc c { p with
          state := if p.state = .running then .runnable else p.state
          userRsp := k.userRsp }
      | none => k.sched
    else k.sched

def makeCurrent (k : Kernel) (s : Sched) (slot : Slot) : Option (Kernel × Resume) := do
  let p ← s.procs slot
  let s := { s.setProc slot { p with state := .running } with current := some slot }
  let k ← applyHw { k with sched := s, currentSlot := slot } slot
  resume k slot

def switchTo (k : Kernel) (slot : Slot) : Option (Kernel × Resume) :=
  makeCurrent k (saveOutgoing k slot) slot

inductive TimerNext
  | same
  | schedule
  | switch (r : Kernel × Resume)

def timerFromUser (k : Kernel) (frame : TrapFrame) : Option TimerNext :=
  match k.sched.current with
  | none => some .same
  | some cur =>
    if (k.sched.procs cur).all fun p => p.state = .zombie then some .schedule
    else
      match pickRunnableOther k.sched cur with
      | none => some .same
      | some n =>
        let s := match k.sched.procs cur with
          | some p => k.sched.setProc cur { p with
              trap := frame, state := .runnable, kcontValid := false, userRsp := k.userRsp }
          | none => k.sched
        (makeCurrent k s n).map .switch

def yieldBlock (k : Kernel) (state : State) (c : KernelCont) : Option Kernel := do
  let k := { k with kconts := Function.update k.kconts k.currentSlot (some c) }
  let i ← k.sched.current
  let p ← k.sched.procs i
  return { k with sched := k.sched.setProc i { p with state := state, kcontValid := true } }

def dropPcb (k : Kernel) (p : Pcb) : Kernel := { k with pipes := (p.fds.closeAll k.pipes).2 }

def removeSlot (k : Kernel) (slot : Slot) : Kernel :=
  match k.sched.procs slot with
  | some p => dropPcb { k with sched := k.sched.clearProc slot } p
  | none => k

def unloadAll (k : Kernel) : Kernel := (List.finRange maxProc).foldl removeSlot k

def leaveScheduler (k : Kernel) (outcome : Outcome) : Kernel :=
  let k := unloadAll k
  { k with
    sched := { k.sched with current := none, exclusive := false, initPid := 0 }
    outcome := outcome }

end CoeleoOs.Task
