import CoeleoOs.Task.Switching

/-!
# Pipe reference counts

`Kernel.Exact` says that each end count of each pipe is the number of descriptors
for that end over all process records, and that a pipe is in use exactly while
it has one. Every step of the system keeps it, failed calls included.
-/

namespace CoeleoOs.Task
open CoeleoOs.Lib CoeleoOs.Lib.Machine
open Pipe (Exact single)

/-- Descriptors for end `w` of pipe `id` over all process records. -/
def Sched.refs (s : Sched) (id : PipeId) (w : Bool) : ℕ :=
  Table.total (fun p => p.fds.refs id w) s.procs

def Kernel.Exact (k : Kernel) : Prop := Pipe.Exact k.pipes k.sched.refs

namespace Sched

variable {s : Sched} {i : Slot} {p : Pcb}

theorem setProc_refs (hp : s.procs i = some p) (q : Pcb) (id : PipeId) (w : Bool) :
    (s.setProc i q).refs id w + p.fds.refs id w = s.refs id w + q.fds.refs id w := by
  have h := Table.total_update (fun p => p.fds.refs id w) s.procs i (some q)
  simpa [hp, refs, setProc, clearProc] using h

theorem setProc_refs_same (hp : s.procs i = some p) (q : Pcb) (hq : q.fds = p.fds) (id : PipeId)
    (w : Bool) : (s.setProc i q).refs id w = s.refs id w := by
  have h := setProc_refs hp q id w
  rw [hq] at h
  omega

theorem setProc_refs_free (hp : s.procs i = none) (q : Pcb) (id : PipeId) (w : Bool) :
    (s.setProc i q).refs id w = s.refs id w + q.fds.refs id w := by
  have h := Table.total_update (fun p => p.fds.refs id w) s.procs i (some q)
  simpa [hp, refs, setProc, clearProc] using h

theorem clearProc_refs (hp : s.procs i = some p) (id : PipeId) (w : Bool) :
    (s.clearProc i).refs id w + p.fds.refs id w = s.refs id w := by
  have h := Table.total_update (fun p => p.fds.refs id w) s.procs i none
  simpa [hp, refs, setProc, clearProc] using h

theorem mapProcs_refs {f : Pcb → Pcb} (hf : ∀ p, (f p).fds = p.fds) (id : PipeId) (w : Bool) :
    (s.mapProcs f).refs id w = s.refs id w := by
  apply Table.total_congr
  intro i
  cases h : s.procs i <;> simp [h, hf]

theorem refs_congr {s' : Sched} (h : ∀ i, (s'.procs i).map (·.fds) = (s.procs i).map (·.fds))
    (id : PipeId) (w : Bool) : s'.refs id w = s.refs id w := by
  apply Table.total_congr
  intro i
  have hi := h i
  cases hs : s.procs i <;> cases hs' : s'.procs i <;> simp [hs, hs'] at hi ⊢
  rw [hi]

theorem wakeStdin_refs (id : PipeId) (w : Bool) : s.wakeStdin.refs id w = s.refs id w :=
  mapProcs_refs (fun p => by split <;> rfl) id w

theorem wakePipeLocked_refs (id : PipeId) (w : Bool) : s.wakePipeLocked.refs id w = s.refs id w :=
  mapProcs_refs (fun p => by split <;> rfl) id w

theorem wakeParent_refs (parent : ℕ) (id : PipeId) (w : Bool) :
    (s.wakeParent parent).refs id w = s.refs id w :=
  mapProcs_refs (fun p => by split <;> rfl) id w

theorem wakeParentOfSlot_refs (id : PipeId) (w : Bool) :
    (s.wakeParentOfSlot i).refs id w = s.refs id w := by
  unfold wakeParentOfSlot
  simp only
  split
  · rfl
  · exact wakeParent_refs _ id w

theorem markParent_refs (parent pid : ℕ) (id : PipeId) (w : Bool) :
    (s.markParent parent pid).refs id w = s.refs id w := by
  apply refs_congr
  intro i
  rcases markParent_procs s parent pid i with h | ⟨p, hp, -, -, h⟩
  · rw [h]
  · rw [h, hp]
    rfl

end Sched

section Functions

variable {k k' : Kernel}

theorem Kernel.Exact.congr (h : k.Exact) (hp : k'.pipes = k.pipes)
    (hr : ∀ id w, k'.sched.refs id w = k.sched.refs id w) : k'.Exact := by
  unfold Kernel.Exact
  rw [hp]
  exact Pipe.Exact.congr h hr

theorem Kernel.Exact.closeAll (h : k.Exact) {p : Pcb} {s : Sched}
    (hs : ∀ id w, s.refs id w + p.fds.refs id w = k.sched.refs id w) :
    Pipe.Exact (p.fds.closeAll k.pipes).2 s.refs :=
  FdTable.closeAll_exact (Pipe.Exact.congr h fun id w => hs id w)

theorem makeZombieLocked_exact (h : k.Exact) (v : Slot) (fault : Bool) :
    (makeZombieLocked k v fault).Exact := by
  unfold makeZombieLocked
  split
  · rename_i p hp
    have hclosed : Pipe.Exact (p.fds.closeAll k.pipes).2 (k.sched.setProc v { p with
        fds := (p.fds.closeAll k.pipes).1, state := .zombie, fault := fault,
        kcontValid := false }).refs := by
      refine h.closeAll fun id w => ?_
      have hset := Sched.setProc_refs hp { p with
        fds := (p.fds.closeAll k.pipes).1, state := .zombie, fault := fault,
        kcontValid := false } id w
      simpa [FdTable.closeAll, FdTable.empty_refs] using hset
    exact hclosed.congr fun id w => Sched.wakePipeLocked_refs id w
  · exact h.congr rfl fun id w => Sched.wakePipeLocked_refs id w

theorem removeSlot_exact (h : k.Exact) (i : Slot) : (removeSlot k i).Exact := by
  unfold removeSlot
  split
  · rename_i p hp
    exact h.closeAll fun id w => Sched.clearProc_refs hp id w
  · exact h

theorem reapLoop_exact (fuel : ℕ) (h : k.Exact) : (reapLoop fuel k).Exact := by
  induction fuel generalizing k with
  | zero => exact h
  | succ fuel ih =>
    rw [reapLoop]
    split
    · exact h
    · exact ih (removeSlot_exact h _)

theorem unloadAll_exact (h : k.Exact) : (unloadAll k).Exact := by
  unfold unloadAll
  generalize List.finRange maxProc = l
  induction l generalizing k with
  | nil => exact h
  | cons j l ih => exact ih (removeSlot_exact h j)

theorem childFds_exact (h : k.Exact) (parent stdinFd stdoutFd : ℕ) :
    Pipe.Exact (childFds k parent stdinFd stdoutFd).2 fun id w => k.sched.refs id w +
      (childFds k parent stdinFd stdoutFd).1.elim 0 fun fds => fds.refs id w := by
  unfold childFds
  split
  · exact Pipe.Exact.congr h fun id w => by simp [FdTable.newStdio_refs]
  · split
    · exact FdTable.inheritFrom_exact _ _ _ h
    · exact h

theorem spawnWith_exact (h : k.Exact) (load : Option (Image × ArgvSetup)) (path : Bytes)
    (parent stdinFd stdoutFd : ℕ) : (spawnWith k load path parent stdinFd stdoutFd).2.Exact := by
  have hchild := childFds_exact h parent stdinFd stdoutFd
  rcases spawnWith_cases k load path parent stdinFd stdoutFd with
    ⟨ps, hps, he⟩ | ⟨slot, image, argv, fds, ps, hfree, hc, he⟩
  · rw [he]
    rcases hps with rfl | hc
    · exact h
    · rw [hc] at hchild
      exact hchild
  · rw [he]
    rw [hc] at hchild
    refine Pipe.Exact.congr hchild fun id w => ?_
    rw [Sched.markParent_refs]
    exact Sched.setProc_refs_free (s := { k.sched with nextPid := _ }) hfree _ id w

theorem enqueueOrKill_exact (h : k.Exact) (b : UInt8) : (enqueueOrKill k b).Exact := by
  rcases enqueueOrKill_cases k b with ⟨v, -, -, he⟩ | ⟨-, he⟩
  · rw [he]
    exact (makeZombieLocked_exact h v false).congr rfl fun id w => Sched.wakeParent_refs _ id w
  · rw [he]
    exact h.congr rfl fun id w => Sched.wakeStdin_refs id w

theorem Touch.exact (ht : Touch k k') (h : k.Exact) : k'.Exact := by
  cases ht with
  | quiet hq => exact h.congr hq.pipes fun id w => by rw [hq.sched]
  | @fds i p t _ hp hr =>
    refine h.congr rfl fun id w => ?_
    have hset := Sched.setProc_refs hp { p with fds := t } id w
    simp only [hr] at hset
    exact Nat.add_right_cancel hset
  | @pipe i p t id ps _ hp ha hr =>
    refine Pipe.alloc_exact h ha fun j w => ?_
    have hset := Sched.setProc_refs hp { p with fds := t } j w
    simp only [hr] at hset
    change (k.sched.setProc i { p with fds := t }).refs j w = _
    omega
  | @noPipe id ps ha =>
    have halloc : Pipe.Exact ps fun j w => k.sched.refs j w + single id false j w +
        single id true j w := Pipe.alloc_exact h ha fun _ _ => rfl
    have hread : Pipe.Exact (Pipe.dropEnd ps id false) fun j w =>
        k.sched.refs j w + single id true j w :=
      Pipe.dropEnd_exact halloc fun j w => by omega
    exact Pipe.dropEnd_exact hread fun _ _ => rfl
  | @close i p fd of t _ hp htake =>
    have hdrop : Pipe.Exact (dropOpen of k.pipes) (k.sched.setProc i { p with fds := t }).refs := by
      refine FdTable.dropOpen_exact (Pipe.Exact.congr h fun id w => ?_)
      have hset := Sched.setProc_refs hp { p with fds := t } id w
      have hrefs := FdTable.take_refs htake id w
      simp only at hset
      omega
    exact hdrop.congr fun id w => Sched.wakePipeLocked_refs id w
  | spawn => exact spawnWith_exact h _ _ _ _ _
  | @kill _ v _ _ _ _ _ _ _ _ => exact makeZombieLocked_exact h v false
  | @reap _ i _ _ _ _ _ _ => exact removeSlot_exact h i

theorem Calm.exact {moves : Bool} (hc : Calm k moves k') (h : k.Exact) : k'.Exact := by
  cases hc with
  | touch ht => exact ht.exact h
  | wake => exact h.congr rfl fun id w => Sched.wakePipeLocked_refs id w
  | orphans => exact reapLoop_exact maxProc h
  | key b => exact enqueueOrKill_exact h b
  | launch load path => exact spawnWith_exact h _ _ _ _ _
  | @read id n got _ =>
    exact (Pipe.read_exact h id n).congr fun j w => Sched.wakePipeLocked_refs j w
  | @write id src n _ =>
    exact (Pipe.write_exact h id src).congr fun j w => Sched.wakePipeLocked_refs j w

theorem switch_refs {s : Sched} {slot : Slot} {p : Pcb} (hp : s.procs slot = some p) (id : PipeId)
    (w : Bool) : (s.enter slot p).refs id w = s.refs id w :=
  Sched.setProc_refs_same hp { p with state := .running, kcontValid := false } rfl id w

theorem saveOutgoing_refs (k : Kernel) (slot : Slot) (id : PipeId) (w : Bool) :
    (saveOutgoing k slot).refs id w = k.sched.refs id w := by
  unfold saveOutgoing
  split
  · rfl
  · split
    · split
      · rename_i p hp
        exact Sched.setProc_refs_same hp _ (by rfl) id w
      · rfl
    · rfl

theorem yieldBlock_exact {st : State} {c : KernelCont} (h : k.Exact)
    (hy : yieldBlock k st c = some k') : k'.Exact := by
  obtain ⟨i, p, -, hp, rfl⟩ := yieldBlock_some hy
  exact h.congr rfl fun id w => Sched.setProc_refs_same hp _ (by rfl) id w

theorem userExit_exact {o : Outcome} {r : Kernel × Bool} (h : k.Exact)
    (hr : userExit k o = some r) : r.1.Exact := by
  obtain ⟨i, p, k₀, -, -, hq, hcase⟩ := userExit_some hr
  have h₀ : k₀.Exact := h.congr hq.pipes fun id w => by rw [hq.sched]
  have hz := makeZombieLocked_exact h₀ i (o = .fault)
  rcases hcase with ⟨-, rfl⟩ | ⟨-, rfl⟩
  · exact unloadAll_exact hz
  · exact hz.congr rfl fun id w => Sched.wakeParentOfSlot_refs id w

theorem runWith_exact {image : Image} {name : Bytes} {exclusive : Bool} {argv : Option ArgvSetup}
    {r : Kernel × Option TrapFrame} (h : k.Exact)
    (hr : runWith k image name exclusive argv = some r) : r.1.Exact := by
  rcases runWith_some hr with rfl | ⟨slot, av, hfree, rfl⟩
  · exact h
  · refine h.congr rfl fun id w => ?_
    refine (Sched.setProc_refs_free (s := { k.sched with
      exclusive := exclusive, nextPid := 1, initPid := 0, current := none }) hfree _ id w).trans ?_
    simp [newPcb, FdTable.newStdio_refs, Sched.refs]

end Functions

theorem step_exact {s s' : Sys} {a : Act} (h : s.k.Exact) (hs : s.step a = some s') :
    s'.k.Exact := by
  cases step_cases hs with
  | calm hc _ => exact hc.exact h
  | entry _ hc _ => exact hc.calm.exact h
  | ret _ ht => exact ht.exact h
  | read _ hr => exact (Calm.read hr).exact h
  | write _ _ hw => exact (Calm.write hw).exact h
  | block _ ho hy => exact yieldBlock_exact ((runPoint_after ho).block_calm.1.exact h) hy
  | exit hr => exact userExit_exact h hr
  | drop _ _ => exact h
  | pick _ _ hr =>
    obtain ⟨p, hp, hk, -⟩ := switchTo_some hr
    rw [resumed_k, hk]
    exact h.congr rfl fun id w => (switch_refs hp id w).trans (saveOutgoing_refs _ _ id w)
  | preempt _ ht =>
    obtain ⟨cur, n, q, p, -, hq, -, hne, hp, -, hk, -⟩ := timerFromUser_switch ht
    rw [resumed_k, hk]
    refine h.congr rfl fun id w => ?_
    rw [switch_refs ((Sched.setProc_of_ne _ hne _).trans hp)]
    exact Sched.setProc_refs_same hq _ (by rfl) id w
  | start _ hr => exact runWith_exact h hr
  | halt hc => exact hc.exact h

theorem exact_boot (ready : Bool) : (Sys.boot ready).k.Exact := by
  refine ⟨fun i w => ?_, fun i => ?_⟩
  · cases w <;>
      simp [Sys.boot, Kernel.init, Sched.init, Sched.refs, Table.total_none, Pipe.ends, Pipe.empty]
  · simp [Sys.boot, Kernel.init, Sched.init, Sched.refs, Table.total_none, Pipe.empty]

/-- In every reachable state each end count is the number of its descriptors, a pipe is
in use iff it has one, and so every descriptor refers to a pipe in use. -/
theorem pipe_refs_exact {ready : Bool} {s : Sys} (h : Reach ready s) (id : PipeId) :
    (s.k.pipes id).nReaders = s.k.sched.refs id false ∧
      (s.k.pipes id).nWriters = s.k.sched.refs id true ∧
      ((s.k.pipes id).used = true ↔ s.k.sched.refs id false + s.k.sched.refs id true ≠ 0) ∧
      ∀ i p fd w, s.k.sched.procs i = some p → p.fds.slots fd = some (.pipe id w) →
        (s.k.pipes id).used = true := by
  have hex : s.k.Exact :=
    Reachable.invariant (I := fun s => s.k.Exact) (exact_boot ready) (fun _ _ _ h => step_exact h) h
  refine ⟨Pipe.Exact.nReaders_eq hex id, Pipe.Exact.nWriters_eq hex id, Pipe.Exact.used_iff hex id,
    ?_⟩
  intro i p fd w hp hfd
  apply Pipe.Exact.used_of_pos (w := w) hex
  have hproc : p.fds.refs id w ≤ s.k.sched.refs id w := by
    have := Table.le_total (fun p => p.fds.refs id w) s.k.sched.procs i
    simpa [hp, Sched.refs] using this
  have hentry : 1 ≤ p.fds.refs id w := by
    have := Table.le_total (OpenFd.refs id w) p.fds.slots fd
    simpa [hfd, OpenFd.refs, single, FdTable.refs] using this
  omega

theorem pipe_refs_exact_spawn : ∃ s, Reach true s ∧ (s.k.pipes 0).nReaders = 2 ∧
    s.k.sched.refs 0 false = 2 ∧ s.k.sched.refs 0 true = (s.k.pipes 0).nWriters := by
  obtain ⟨r, hr, hp⟩ := exists_path_of_replay Sys.step (Sys.boot true)
    ([Sample.init] ++ Sample.call 256 25 8192 0 0 ++ [Sample.run] ++
      Sample.call 256 7 4096 0 0 ++ [.run (Sample.env (Sample.spawnRecord 3 err))])
    (fun r => decide ((r.2.k.pipes 0).nReaders = 2)) (by decide)
  have hreach : Reach true r.2 := ⟨r.1, hr⟩
  obtain ⟨hread, hwrite, -⟩ := pipe_refs_exact hreach 0
  have htwo := of_decide_eq_true hp
  exact ⟨r.2, hreach, htwo, hread.symm.trans htwo, hwrite.symm⟩

end CoeleoOs.Task
