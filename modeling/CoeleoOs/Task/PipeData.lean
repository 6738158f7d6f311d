import CoeleoOs.Task.Switching

/-!
# Pipe data across a step

Opening, cloning and dropping ends never moves a byte: apart from the one read
or write of a step, a pipe keeps its ring until it is released, and a pipe that
is opened is empty. One round of `read_pipe` or `write_pipe` is one operation on
the pipe.
-/

namespace CoeleoOs.Task
open CoeleoOs.Lib CoeleoOs.Lib.Machine
open Pipe (DataKept)

def PipesKept (ps ps' : Pipes) : Prop :=
  DataKept ps ps' ∨ ∃ id, Pipe.alloc ps = some (id, ps')

section Rounds

variable {e : Env} {k : Kernel} {id : PipeId} {buf n : ℕ} {rsp : UInt64}

theorem readPipe_out : (runPoint (.readPipe id buf n)).out e k =
    match Pipe.read k.pipes id n with
    | (.data got, ps) =>
      some (.ret got.length, { k with pipes := ps, sched := k.sched.wakePipeLocked })
    | (.eof, ps) => some (.ret 0, { k with pipes := ps })
    | (.wouldBlock, ps) => some (.block .blockedPipeRead (.readPipe id buf n),
        { k with pipes := ps, sched := k.sched.wakePipeLocked }) := by
  rcases hr : Pipe.read k.pipes id n with ⟨_ | _ | _, ps⟩ <;>
    simp [runPoint, readPipe, hr, copyToUser, wakePipe]

theorem readPipe_log : (runPoint (.readPipe id buf n)).log e k =
    match (Pipe.read k.pipes id n).1 with
    | .data got => [.write buf got]
    | _ => [] := by
  rcases hr : Pipe.read k.pipes id n with ⟨_ | _ | _, ps⟩ <;>
    simp [runPoint, readPipe, hr, copyToUser, wakePipe]

theorem writePipe_out (hn : n ≤ ioMax) : (runPoint (.writePipe id buf n)).out e k =
    match Pipe.write k.pipes id (userBytes e buf n) with
    | (.data r, ps) => some (.ret r, { k with pipes := ps, sched := k.sched.wakePipeLocked })
    | (.broken, ps) => some (.ret err, { k with pipes := ps })
    | (.wouldBlock, ps) => some (.block .blockedPipeWrite (.writePipe id buf n),
        { k with pipes := ps, sched := k.sched.wakePipeLocked }) := by
  unfold userBytes
  rcases hr : Pipe.write k.pipes id ((List.range n).map fun i => e.mem (buf + i)) with
    ⟨_ | _ | _, ps⟩ <;>
    simp [runPoint, writePipe, copyFromUser, Nat.not_lt.mpr hn, wakePipe, hr]

theorem runCall_readPipe :
    (runCall k ⟨.readPipe id buf n, rsp⟩ e).k.pipes = (Pipe.read k.pipes id n).2 := by
  unfold runCall
  rw [readPipe_out]
  rcases Pipe.read k.pipes id n with ⟨_ | _ | _, ps⟩
  · rfl
  · rfl
  · simp only [proceed]
    cases hy : yieldBlock _ _ _ with
    | none => rfl
    | some k' =>
      obtain ⟨i, p, -, -, rfl⟩ := yieldBlock_some hy
      rfl

theorem runCall_writePipe (hn : n ≤ ioMax) :
    (runCall k ⟨.writePipe id buf n, rsp⟩ e).k.pipes =
      (Pipe.write k.pipes id (userBytes e buf n)).2 := by
  unfold runCall
  rw [writePipe_out hn]
  rcases Pipe.write k.pipes id (userBytes e buf n) with ⟨_ | _ | _, ps⟩
  · rfl
  · simp only [proceed]
    cases hy : yieldBlock _ _ _ with
    | none => rfl
    | some k' =>
      obtain ⟨i, p, -, -, rfl⟩ := yieldBlock_some hy
      rfl
  · rfl

end Rounds

section Functions

variable {k k' : Kernel}

theorem makeZombieLocked_dataKept (k : Kernel) (v : Slot) (fault : Bool) :
    DataKept k.pipes (makeZombieLocked k v fault).pipes := by
  unfold makeZombieLocked
  split
  · exact FdTable.closeAll_dataKept _ _
  · exact .refl _

theorem removeSlot_dataKept (k : Kernel) (i : Slot) : DataKept k.pipes (removeSlot k i).pipes := by
  unfold removeSlot
  split
  · exact FdTable.closeAll_dataKept _ _
  · exact .refl _

theorem reapLoop_dataKept (fuel : ℕ) (k : Kernel) : DataKept k.pipes (reapLoop fuel k).pipes := by
  induction fuel generalizing k with
  | zero => exact .refl _
  | succ fuel ih =>
    rw [reapLoop]
    split
    · exact .refl _
    · exact (removeSlot_dataKept k _).trans (ih _)

theorem unloadAll_dataKept (k : Kernel) : DataKept k.pipes (unloadAll k).pipes := by
  unfold unloadAll
  generalize List.finRange maxProc = l
  induction l generalizing k with
  | nil => exact .refl _
  | cons j l ih => exact (removeSlot_dataKept k j).trans (ih _)

theorem childFds_dataKept (k : Kernel) (parent stdinFd stdoutFd : ℕ) :
    DataKept k.pipes (childFds k parent stdinFd stdoutFd).2 := by
  unfold childFds
  split
  · exact .refl _
  · split
    · exact FdTable.inheritFrom_dataKept _ _ _ _
    · exact .refl _

theorem spawnWith_dataKept (k : Kernel) (load : Option (Image × ArgvSetup)) (path : Bytes)
    (parent stdinFd stdoutFd : ℕ) :
    DataKept k.pipes (spawnWith k load path parent stdinFd stdoutFd).2.pipes := by
  have hchild := childFds_dataKept k parent stdinFd stdoutFd
  rcases spawnWith_cases k load path parent stdinFd stdoutFd with
    ⟨ps, hps, he⟩ | ⟨slot, image, argv, fds, ps, -, hc, he⟩
  · rw [he]
    rcases hps with rfl | hc
    · exact .refl _
    · rw [hc] at hchild
      exact hchild
  · rw [he]
    rw [hc] at hchild
    exact hchild

theorem enqueueOrKill_dataKept (k : Kernel) (b : UInt8) :
    DataKept k.pipes (enqueueOrKill k b).pipes := by
  rcases enqueueOrKill_cases k b with ⟨v, -, -, he⟩ | ⟨-, he⟩
  · rw [he]
    exact makeZombieLocked_dataKept k v false
  · rw [he]
    exact .refl _

theorem noPipe_dataKept {ps ps' : Pipes} {id : PipeId} (ha : Pipe.alloc ps = some (id, ps')) :
    DataKept ps (Pipe.dropEnd (Pipe.dropEnd ps' id false) id true) := by
  obtain ⟨-, rfl⟩ := Pipe.alloc_some ha
  have hgone : Pipe.dropEnd (Pipe.dropEnd (Function.update ps id Pipe.fresh) id false) id true =
      Function.update ps id Pipe.empty := by
    simp [Pipe.dropEnd, Pipe.fresh]
  rw [hgone]
  exact Pipe.dataKept_update (Or.inl ⟨rfl, rfl⟩)

theorem Touch.pipesKept (h : Touch k k') : PipesKept k.pipes k'.pipes := by
  cases h with
  | quiet hq => exact Or.inl (hq.pipes ▸ .refl _)
  | fds _ _ _ => exact Or.inl (.refl _)
  | pipe _ _ ha _ => exact Or.inr ⟨_, ha⟩
  | noPipe ha => exact Or.inl (noPipe_dataKept ha)
  | close _ _ _ => exact Or.inl (FdTable.dropOpen_dataKept _ _)
  | spawn => exact Or.inl (spawnWith_dataKept k _ _ _ _ _)
  | @kill _ v _ _ _ _ _ _ _ _ => exact Or.inl (makeZombieLocked_dataKept k v false)
  | @reap _ i _ _ _ _ _ _ => exact Or.inl (removeSlot_dataKept k i)

theorem userExit_dataKept {o : Outcome} {r : Kernel × Bool} (hr : userExit k o = some r) :
    DataKept k.pipes r.1.pipes := by
  obtain ⟨i, p, k₀, -, -, hq, hcase⟩ := userExit_some hr
  have hz := makeZombieLocked_dataKept k₀ i (o = .fault)
  rw [hq.pipes] at hz
  rcases hcase with ⟨-, rfl⟩ | ⟨-, rfl⟩
  · exact hz.trans (unloadAll_dataKept _)
  · exact hz

theorem Calm.pipesKept (h : Calm k false k') : PipesKept k.pipes k'.pipes := by
  cases h with
  | touch ht => exact ht.pipesKept
  | wake => exact Or.inl (.refl _)
  | orphans => exact Or.inl (reapLoop_dataKept maxProc k)
  | key b => exact Or.inl (enqueueOrKill_dataKept k b)
  | launch load path => exact Or.inl (spawnWith_dataKept k load path 0 err err)

end Functions

theorem step_pipesKept {s s' : Sys} {a : Act} (h : s.step a = some s')
    (hread : ∀ id buf n rsp e, s.mode = .kernel ⟨.readPipe id buf n, rsp⟩ → a ≠ .run e)
    (hwrite : ∀ id buf n rsp e, s.mode = .kernel ⟨.writePipe id buf n, rsp⟩ → a ≠ .run e) :
    PipesKept s.k.pipes s'.k.pipes := by
  cases step_cases h with
  | calm hc _ | halt hc => exact hc.pipesKept
  | entry _ hc _ => exact hc.calm.pipesKept
  | ret _ ht => exact ht.pipesKept
  | read hmode _ => exact absurd rfl (hread _ _ _ _ _ hmode)
  | write hmode _ _ => exact absurd rfl (hwrite _ _ _ _ _ hmode)
  | block _ ho hy =>
    obtain ⟨i, p, -, -, rfl⟩ := yieldBlock_some hy
    exact (runPoint_after ho).block_calm.1.pipesKept
  | exit hr => exact Or.inl (userExit_dataKept hr)
  | drop _ _ => exact Or.inl (.refl _)
  | pick _ _ hr =>
    obtain ⟨p, -, hk, -⟩ := switchTo_some hr
    rw [resumed_k, hk]
    exact Or.inl (.refl _)
  | preempt _ ht =>
    obtain ⟨cur, n, q, p, -, -, -, -, -, -, hk, -⟩ := timerFromUser_switch ht
    rw [resumed_k, hk]
    exact Or.inl (.refl _)
  | start _ hr =>
    rcases runWith_some hr with rfl | ⟨slot, av, -, rfl⟩
    · exact Or.inl (.refl _)
    · exact Or.inl (.refl _)

end CoeleoOs.Task
