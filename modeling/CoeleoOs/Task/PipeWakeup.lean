import CoeleoOs.Task.Blocked
import CoeleoOs.Task.PipeData
import CoeleoOs.Task.PipeRefs

/-!
# Pipe wakeups

A process blocked on a pipe has found nothing to do there. Whatever gives it
something to do wakes all processes blocked on pipes, with one exception:
removing a zombie closes its descriptors without a wakeup. A zombie that ran on
after it was ended may have opened a pipe in the meantime.
-/

namespace CoeleoOs.Task
open CoeleoOs.Lib CoeleoOs.Lib.Machine
open Pipe (DataKept)

/-- A process in state `st` with continuation `c` has to wait for one of the pipes `ps`, if it
is blocked on a pipe at all. -/
def MustWait (ps : Pipes) (st : State) (c : Option KernelCont) : Prop :=
  (st = .blockedPipeRead → ∃ id buf n rsp, c = some ⟨.readPipe id buf n, rsp⟩ ∧
    (ps id).len = 0 ∧ 0 < (ps id).nWriters) ∧
  (st = .blockedPipeWrite → ∃ id buf n rsp, c = some ⟨.writePipe id buf n, rsp⟩ ∧
    (ps id).len = pipeCap ∧ 0 < (ps id).nReaders)

/-- Nobody is blocked reading from a pipe with data or without writers, or writing to a pipe
with free space or without readers. -/
def Kernel.NoLostWakeup (k : Kernel) : Prop :=
  ∀ i p, k.sched.procs i = some p → MustWait k.pipes p.state (k.kconts i)

def Kernel.waitsFor (k : Kernel) (i : Slot) (id : PipeId) (w : Bool) : Bool :=
  match k.sched.procs i, k.kconts i with
  | some p, some ⟨.readPipe j _ _, _⟩ => p.state = .blockedPipeRead && j = id && w
  | some p, some ⟨.writePipe j _ _, _⟩ => p.state = .blockedPipeWrite && j = id && !w
  | _, _ => false

/-- A process removed by the step, while others stay, holds no descriptor for an end that a
blocked process waits for. -/
def closesUnawaited (t : Trans Sys Act) : Bool :=
  t.post.k.sched.empty || (List.finRange maxProc).all fun i =>
    match t.pre.k.sched.procs i, t.post.k.sched.procs i with
    | some p, none => (List.finRange fdMax).all fun fd =>
      match p.fds.slots fd with
      | some (.pipe id w) => (List.finRange maxProc).all fun j => !t.pre.k.waitsFor j id w
      | _ => true
    | _, _ => true

def Sched.Woken (s : Sched) : Prop :=
  ∀ i p, s.procs i = some p → p.state ≠ .blockedPipeRead ∧ p.state ≠ .blockedPipeWrite

inductive WaiterCase (k k' : Kernel) : Prop
  | same : k'.pipes = k.pipes → WaiterCase k k'
  | woken : k'.sched.Woken → WaiterCase k k'
  | opened {id : PipeId} : Pipe.alloc k.pipes = some (id, k'.pipes) → WaiterCase k k'
  | kept : DataKept k.pipes k'.pipes → (∀ i p, k.sched.procs i = some p →
      k'.sched.procs i = none ∨ ∃ p', k'.sched.procs i = some p' ∧ p'.fds = p.fds) → WaiterCase k k'

section Functions

variable {k k' : Kernel}

theorem mapProcs_woken {s : Sched} {f : Pcb → Pcb} (hf : ∀ p, (f p).state ≠ .blockedPipeRead ∧
    (f p).state ≠ .blockedPipeWrite) : (s.mapProcs f).Woken := by
  intro i p' hp'
  simp only [Sched.mapProcs_procs, Option.map_eq_some_iff] at hp'
  obtain ⟨p, -, rfl⟩ := hp'
  exact hf p

theorem wakePipeLocked_woken (s : Sched) : s.wakePipeLocked.Woken :=
  mapProcs_woken fun p => by
    split
    · simp
    · rename_i h
      exact not_or.mp h

theorem Sched.Woken.wakeParent {s : Sched} (h : s.Woken) (pid : ℕ) : (s.wakeParent pid).Woken := by
  intro i p' hp'
  simp only [Sched.wakeParent, Sched.mapProcs_procs, Option.map_eq_some_iff] at hp'
  obtain ⟨p, hp, rfl⟩ := hp'
  split
  · simp
  · exact h i p hp

theorem Sched.Woken.wakeParentOfSlot {s : Sched} (h : s.Woken) (i : Slot) :
    (s.wakeParentOfSlot i).Woken := by
  unfold Sched.wakeParentOfSlot
  simp only
  split
  · exact h
  · exact h.wakeParent _

theorem makeZombieLocked_woken (k : Kernel) (v : Slot) (fault : Bool) :
    (makeZombieLocked k v fault).sched.Woken := by
  unfold makeZombieLocked
  split <;> exact wakePipeLocked_woken _

theorem spawnWith_waiters (k : Kernel) (load : Option (Image × ArgvSetup)) (path : Bytes)
    (parent stdinFd stdoutFd : ℕ) :
    WaiterCase k (spawnWith k load path parent stdinFd stdoutFd).2 := by
  refine .kept (spawnWith_dataKept k load path parent stdinFd stdoutFd) fun i p hp => Or.inr ?_
  rcases spawnWith_cases k load path parent stdinFd stdoutFd with
    ⟨ps, -, h⟩ | ⟨slot, image, argv, fds, ps, hfree, -, h⟩
  · rw [h]
    exact ⟨p, hp, rfl⟩
  · have hi : i ≠ slot := by
      rintro rfl
      simp [hp] at hfree
    rw [h]
    have hset : (Sched.setProc { k.sched with nextPid := min (k.sched.nextPid + 1) u32Max } slot
        (newPcb k.sched.nextPid parent image path argv fds)).procs i = some p :=
      (Sched.setProc_of_ne _ hi _).trans hp
    rcases Sched.markParent_procs _ parent k.sched.nextPid i with hm | ⟨q, hq, -, -, hm⟩
    · exact ⟨p, hm.trans hset, rfl⟩
    · obtain rfl := Option.some.inj (hset.symm.trans hq)
      exact ⟨_, hm, rfl⟩

theorem enqueueOrKill_waiters (k : Kernel) (b : UInt8) : WaiterCase k (enqueueOrKill k b) := by
  rcases enqueueOrKill_cases k b with ⟨v, -, -, he⟩ | ⟨-, he⟩
  · rw [he]
    exact .woken ((makeZombieLocked_woken k v false).wakeParent _)
  · rw [he]
    exact .same rfl

theorem reapOrphans_waiters (k : Kernel) : WaiterCase k (reapOrphans k) := by
  refine .kept (reapLoop_dataKept maxProc k) fun i p hp => ?_
  rcases reapLoop_procs maxProc k i with h | ⟨-, -, -, -, h⟩
  · exact Or.inr ⟨p, h.trans hp, rfl⟩
  · exact Or.inl h

theorem Touch.waiters (h : Touch k k') : WaiterCase k k' := by
  cases h with
  | quiet hq => exact .same hq.pipes
  | fds _ _ _ => exact .same rfl
  | pipe _ _ ha _ => exact .opened ha
  | noPipe ha => exact .kept (noPipe_dataKept ha) fun i p hp => Or.inr ⟨p, hp, rfl⟩
  | close _ _ _ => exact .woken (wakePipeLocked_woken _)
  | spawn => exact spawnWith_waiters k _ _ _ _ _
  | @kill _ v _ _ _ _ _ _ _ _ => exact .woken (makeZombieLocked_woken k v false)
  | @reap _ i _ _ _ _ _ _ =>
    refine .kept (removeSlot_dataKept k i) fun j p hp => ?_
    rw [removeSlot_procs]
    split
    · exact Or.inl rfl
    · exact Or.inr ⟨p, hp, rfl⟩

theorem Calm.waiters {moves : Bool} (h : Calm k moves k') : WaiterCase k k' := by
  cases h with
  | touch ht => exact ht.waiters
  | wake => exact .same rfl
  | orphans => exact reapOrphans_waiters k
  | key b => exact enqueueOrKill_waiters k b
  | launch load path => exact spawnWith_waiters k _ _ _ _ _
  | read _ | write _ => exact .woken (wakePipeLocked_woken _)

theorem step_waiters {s s' : Sys} {a : Act} (h : s.step a = some s') : WaiterCase s.k s'.k := by
  cases step_cases h with
  | calm hc _ | halt hc => exact hc.waiters
  | @entry rsp _ _ _ _ _ _ _ hc _ =>
    cases hc.calm.waiters with
    | same hp => exact .same hp
    | woken hw => exact .woken hw
    | opened ha => exact .opened ha
    | kept hd hp => exact .kept hd hp
  | ret _ ht => exact ht.waiters
  | read _ hr => exact (Calm.read hr).waiters
  | write _ _ hw => exact (Calm.write hw).waiters
  | block _ ho hy =>
    obtain ⟨i, p, -, -, rfl⟩ := yieldBlock_some hy
    obtain ⟨rfl | rfl, -⟩ := (runPoint_after ho).block_kernel
    · exact .same rfl
    · exact .same rfl
  | exit hr =>
    obtain ⟨i, p, k₀, -, -, hq, ⟨-, rfl⟩ | ⟨-, rfl⟩⟩ := userExit_some hr
    · exact .woken fun j q hj => absurd ((unloadAll_procs _ j).symm.trans hj) (by simp)
    · exact .woken ((makeZombieLocked_woken k₀ i _).wakeParentOfSlot i)
  | drop _ _ => exact .same rfl
  | pick _ _ hr =>
    obtain ⟨p, -, hk, -⟩ := switchTo_some hr
    exact .same (by rw [resumed_k, hk])
  | preempt _ ht =>
    obtain ⟨cur, n, q, p, -, -, -, -, -, -, hk, -⟩ := timerFromUser_switch ht
    exact .same (by rw [resumed_k, hk])
  | start _ hr =>
    rcases runWith_some hr with rfl | ⟨slot, av, -, rfl⟩
    · exact .same rfl
    · exact .same rfl

end Functions

section Waiters

variable {k k' : Kernel} {id : PipeId} {w : Bool}

theorem refs_le (hslots : ∀ i p, k.sched.procs i = some p →
      k'.sched.procs i = none ∨ ∃ p', k'.sched.procs i = some p' ∧ p'.fds = p.fds)
    (hgone : ∀ i p, k.sched.procs i = some p → k'.sched.procs i = none → p.fds.refs id w = 0) :
    k.sched.refs id w ≤ k'.sched.refs id w := by
  refine Table.total_mono fun i => ?_
  cases hp : k.sched.procs i with
  | none => exact Nat.zero_le _
  | some p =>
    rcases hslots i p hp with hn | ⟨p', hp', hf⟩
    · simp [hgone i p hp hn]
    · simp [hp', hf]

theorem WaiterCase.holds (h : WaiterCase k k') (hex : k.Exact) (hex' : k'.Exact)
    (hasleep : ¬ k'.sched.Woken) (hpos : 0 < (k.pipes id).ends w)
    (hgone : ∀ i p, k.sched.procs i = some p → k'.sched.procs i = none → p.fds.refs id w = 0) :
    (k'.pipes id).len = (k.pipes id).len ∧ 0 < (k'.pipes id).ends w := by
  have hrefs : 0 < k.sched.refs id w := Pipe.Exact.ends_eq hex id w ▸ hpos
  cases h with
  | same hp =>
    rw [hp]
    exact ⟨rfl, hpos⟩
  | woken hw => exact absurd hw hasleep
  | @opened j ha =>
    obtain ⟨hu, hps⟩ := Pipe.alloc_some ha
    have hne : id ≠ j := by
      rintro rfl
      have := Pipe.Exact.used_of_pos hex hrefs
      simp [hu] at this
    rw [hps, Function.update_of_ne hne]
    exact ⟨rfl, hpos⟩
  | kept hd hslots =>
    have hrefs' := lt_of_lt_of_le hrefs (refs_le hslots hgone)
    have hu := Pipe.Exact.used_of_pos hex' hrefs'
    exact ⟨(hd.of_used hu).2.1, Pipe.Exact.ends_eq hex' id w ▸ hrefs'⟩

theorem waitsFor_read {i : Slot} {p : Pcb} {buf n : ℕ} {rsp : UInt64}
    (hp : k.sched.procs i = some p) (hst : p.state = .blockedPipeRead)
    (hc : k.kconts i = some ⟨.readPipe id buf n, rsp⟩) : k.waitsFor i id true = true := by
  simp [Kernel.waitsFor, hp, hst, hc]

theorem waitsFor_write {i : Slot} {p : Pcb} {buf n : ℕ} {rsp : UInt64}
    (hp : k.sched.procs i = some p) (hst : p.state = .blockedPipeWrite)
    (hc : k.kconts i = some ⟨.writePipe id buf n, rsp⟩) : k.waitsFor i id false = true := by
  simp [Kernel.waitsFor, hp, hst, hc]

theorem refs_eq_zero_of_closesUnawaited {t : Trans Sys Act} (hc : closesUnawaited t = true)
    (hsome : t.post.k.sched.empty = false) {i j : Slot} {p : Pcb}
    (hw : t.pre.k.waitsFor j id w = true) (hp : t.pre.k.sched.procs i = some p)
    (hp' : t.post.k.sched.procs i = none) : p.fds.refs id w = 0 := by
  refine FdTable.refs_eq_zero fun fd hfd => ?_
  simp only [closesUnawaited, hsome, Bool.false_or, List.all_eq_true] at hc
  have hi := hc i (List.mem_finRange i)
  simp only [hp, hp', List.all_eq_true] at hi
  have hslot := hi fd (List.mem_finRange fd)
  simp only [hfd, List.all_eq_true] at hslot
  have hj := hslot j (List.mem_finRange j)
  simp [hw] at hj

end Waiters

theorem mustWait_of_block {k k₁ k' : Kernel} {point q : Point} {st : State} {d : KernelCont}
    {rsp : UInt64} (ha : After k point (.block st q) k₁) (hy : yieldBlock k₁ st d = some k') :
    MustWait k'.pipes st (some ⟨q, rsp⟩) := by
  obtain ⟨j, p, -, -, rfl⟩ := yieldBlock_some hy
  cases ha with
  | blockStdin _ | blockWait _ _ _ _ => exact ⟨by simp, by simp⟩
  | blockRead hr =>
    obtain ⟨-, -, -, hl, hw⟩ := Pipe.read_wouldBlock hr
    exact ⟨fun _ => ⟨_, _, _, _, rfl, hl, hw⟩, by simp⟩
  | blockWrite _ hr =>
    obtain ⟨-, -, -, hw, hl⟩ := Pipe.write_wouldBlock hr
    exact ⟨by simp, fun _ => ⟨_, _, _, _, rfl, hl, hw⟩⟩

structure WakeInv (s : Sys) : Prop where
  onSlot : s.k.OnSlot
  exactRefs : s.k.Exact
  noLost : s.k.NoLostWakeup

theorem step_wakeInv {t : Trans Sys Act} (h : t.pre.step t.act = some t.post) (hi : WakeInv t.pre)
    (hc : closesUnawaited t = true) : WakeInv t.post := by
  obtain ⟨pre, act, post⟩ := t
  have hex' := step_exact hi.exactRefs h
  refine ⟨step_onSlot h hi.onSlot, hex', fun i p' hp' => ?_⟩
  have hsome : post.k.sched.empty = false := by
    by_contra he
    have hn := Sched.empty_iff.mp (by simpa using he) i
    exact absurd (hn.symm.trans hp') (by simp)
  by_cases hb : p'.state = .blockedPipeRead ∨ p'.state = .blockedPipeWrite
  · have hasleep : ¬ post.k.sched.Woken := fun hw => hb.elim (hw i p' hp').1 (hw i p' hp').2
    have hblocked : p'.state.blocked = true := by rcases hb with hb | hb <;> rw [hb] <;> rfl
    cases step_blocked h hi.onSlot hp' hblocked with
    | now _ ha hy _ _ _ hk => exact hk ▸ mustWait_of_block ha hy
    | still hstill =>
      obtain ⟨p, hp, hst, -, hk⟩ := hstill
      have hold := hi.noLost i p hp
      rw [hst] at hold
      rw [hk]
      have hcase := step_waiters h
      refine ⟨fun hr => ?_, fun hr => ?_⟩
      · obtain ⟨id, buf, n, rsp, hcont, hl, hw⟩ := hold.1 hr
        have hwaits := waitsFor_read hp (hst.trans hr) hcont
        obtain ⟨hl', hw'⟩ := hcase.holds hi.exactRefs hex' hasleep (w := true) hw fun _ _ =>
          refs_eq_zero_of_closesUnawaited hc hsome hwaits
        exact ⟨id, buf, n, rsp, hcont, hl'.trans hl, hw'⟩
      · obtain ⟨id, buf, n, rsp, hcont, hl, hw⟩ := hold.2 hr
        have hwaits := waitsFor_write hp (hst.trans hr) hcont
        obtain ⟨hl', hw'⟩ := hcase.holds hi.exactRefs hex' hasleep (w := false) hw fun _ _ =>
          refs_eq_zero_of_closesUnawaited hc hsome hwaits
        exact ⟨id, buf, n, rsp, hcont, hl'.trans hl, hw'⟩
  · obtain ⟨hr, hw⟩ := not_or.mp hb
    exact ⟨fun he => absurd he hr, fun he => absurd he hw⟩

theorem wakeInv_boot (ready : Bool) : WakeInv (Sys.boot ready) where
  onSlot := onSlot_boot ready
  exactRefs := exact_boot ready
  noLost i p hp := by simp [Sys.boot, Kernel.init, Sched.init] at hp

/-- In every state of a run whose reaps close no end that somebody waits for, every process
that is blocked on a pipe has to wait. -/
theorem no_lost_wakeup {ready : Bool} {ts : List (Trans Sys Act)} {s : Sys} (h : Run ready ts s)
    (hc : ∀ t ∈ ts, closesUnawaited t = true) : s.k.NoLostWakeup :=
  (Path.invariant (I := WakeInv) (wakeInv_boot ready)
    (fun _ hs hi hct => step_wakeInv hs hi hct) h hc).noLost

theorem no_lost_wakeup_reader : ∃ ts s, Run true ts s ∧
    (s.k.sched.procs 1).any (fun p => p.state = .blockedPipeRead) = true ∧ s.k.NoLostWakeup := by
  obtain ⟨r, hr, hp⟩ := exists_path_of_replay Sys.step (Sys.boot true)
    ([Sample.init] ++ Sample.call 256 25 8192 0 0 ++ [Sample.run] ++
      Sample.call 256 7 4096 0 0 ++ [.run (Sample.env (Sample.spawnRecord 3 err))] ++
      Sample.call 256 8 0 0 0 ++ [Sample.run, Sample.run, .schedule] ++
      Sample.call 256 4 0 4096 16 ++ [Sample.run, Sample.run])
    (fun r => r.1.all closesUnawaited &&
      (r.2.k.sched.procs 1).any fun p => p.state = .blockedPipeRead) (by decide)
  simp only [Bool.and_eq_true, List.all_eq_true] at hp
  exact ⟨r.1, r.2, hr, hp.2, no_lost_wakeup hr hp.1⟩

/-- Ctrl+C ends a child of init in the poll of its `sys_pipe`. It opens the pipe all the same
and spawns a reader. Once the reader has blocked, init reaps the zombie, which held the only
write end. The reader still sleeps when init waits again and the scheduler looks for a process. -/
theorem wakeup_lost : ¬ ∀ ready s, Reach ready s → s.mode = .sched → s.k.NoLostWakeup := by
  intro h
  obtain ⟨r, hr, hp⟩ := exists_path_of_replay Sys.step (Sys.boot true)
    ([Sample.init] ++ Sample.call 256 7 4096 0 0 ++ [Sample.run] ++
      Sample.call 256 8 0 0 0 ++ [Sample.run, Sample.run, .schedule] ++
      [.syscall 256 25 8192 0 0, .key 3, .pollEnd, Sample.run] ++
      Sample.call 256 7 4096 0 0 ++ [.run (Sample.env (Sample.spawnRecord 0 err)), .timer {},
        .schedule] ++ Sample.call 256 4 0 4096 16 ++ [Sample.run, Sample.run, .schedule,
        Sample.run] ++
      Sample.call 256 8 0 0 0 ++ [Sample.run, Sample.run])
    (fun r => r.2.mode = .sched &&
      (r.2.k.sched.procs 2).any (fun p => p.state = .blockedPipeRead) &&
      (List.finRange pipeMax).all fun id => (r.2.k.pipes id).nWriters = 0) (by decide)
  simp only [Bool.and_eq_true, Option.any_eq_true, decide_eq_true_eq, List.all_eq_true] at hp
  obtain ⟨⟨hsched, p, hp2, hst⟩, hnone⟩ := hp
  obtain ⟨id, -, -, -, -, -, hw⟩ := (h true r.2 ⟨r.1, hr⟩ hsched 2 p hp2).1 hst
  have := hnone id (List.mem_finRange id)
  omega

end CoeleoOs.Task
