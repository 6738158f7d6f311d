import CoeleoOs.Task.Switching

/-!
# Process ids

`insert_pcb` hands out `next_pid`, which grows until it saturates at `u32::MAX`
and which `run_with` sets back to 1 without looking at the process table. Pids
identify processes as long as `run_with` finds an empty table and the last value
is not handed out twice.
-/

namespace CoeleoOs.Task
open CoeleoOs.Lib CoeleoOs.Lib.Machine

/-- All pids are nonzero, and no two slots share one. -/
def Sched.PidsDistinct (s : Sched) : Prop :=
  (∀ i p, s.procs i = some p → p.pid ≠ 0) ∧
    ∀ i j p q, s.procs i = some p → s.procs j = some q → p.pid = q.pid → i = j

def adds (t : Trans Sys Act) : Bool :=
  (List.finRange maxProc).any fun i =>
    (t.pre.k.sched.procs i).isNone && (t.post.k.sched.procs i).isSome

def pidsFresh (t : Trans Sys Act) : Bool :=
  match t.act with
  | .runWith _ _ _ _ => t.pre.k.sched.empty
  | _ => !adds t || t.pre.k.sched.nextPid ≠ u32Max ||
      (List.finRange maxProc).all fun i => (t.pre.k.sched.procs i).all fun p => p.pid ≠ u32Max

structure PidInv (s : Sched) : Prop where
  distinct : s.PidsDistinct
  below : ∀ i p, s.procs i = some p → p.pid < s.nextPid ∨ (p.pid = u32Max ∧ s.nextPid = u32Max)
  pos : 0 < s.nextPid
  bound : s.nextPid ≤ u32Max

theorem SameIds.pidInv {k k' : Kernel} (h : SameIds k k') (hi : PidInv k.sched) :
    PidInv k'.sched := by
  refine ⟨⟨fun i p' hp' => ?_, fun i j p' q' hp' hq' he => ?_⟩, fun i p' hp' => ?_, ?_, ?_⟩
  · obtain ⟨p, hp, hpid, -⟩ := h.old i p' hp'
    rw [hpid]
    exact hi.distinct.1 i p hp
  · obtain ⟨p, hp, hpid, -⟩ := h.old i p' hp'
    obtain ⟨q, hq, hqid, -⟩ := h.old j q' hq'
    exact hi.distinct.2 i j p q hp hq (by rw [← hpid, ← hqid, he])
  · obtain ⟨p, hp, hpid, -⟩ := h.old i p' hp'
    rw [hpid, h.nextPid]
    exact hi.below i p hp
  · rw [h.nextPid]
    exact hi.pos
  · rw [h.nextPid]
    exact hi.bound

theorem Grows.pidInv {k k' : Kernel} {slot : Slot} {n : Pcb} (h : Grows k k' slot n)
    (hi : PidInv k.sched)
    (hfresh : k.sched.nextPid ≠ u32Max ∨ ∀ i p, k.sched.procs i = some p → p.pid ≠ u32Max) :
    PidInv k'.sched := by
  have hnew : ∀ i p, k.sched.procs i = some p → p.pid ≠ k.sched.nextPid := by
    intro i p hp he
    rcases hi.below i p hp with hlt | ⟨hpid, hn⟩
    · omega
    · rcases hfresh with hf | hf
      · exact hf hn
      · exact hf i p hp hpid
  have hcase : ∀ i p', k'.sched.procs i = some p' → (i = slot ∧ p'.pid = k.sched.nextPid) ∨
      (i ≠ slot ∧ ∃ p, k.sched.procs i = some p ∧ p'.pid = p.pid) := by
    intro i p' hp'
    by_cases hs : i = slot
    · subst hs
      obtain rfl := Option.some.inj (h.new.symm.trans hp')
      exact Or.inl ⟨rfl, h.pid⟩
    · obtain ⟨p, hp, he⟩ := h.old i hs p' hp'
      exact Or.inr ⟨hs, p, hp, he.pid⟩
  have hpos := hi.pos
  have hbound := hi.bound
  refine ⟨⟨fun i p' hp' => ?_, fun i j p' q' hp' hq' he => ?_⟩, fun i p' hp' => ?_, ?_, ?_⟩
  · rcases hcase i p' hp' with ⟨-, hpid⟩ | ⟨-, p, hp, hpid⟩
    · omega
    · rw [hpid]
      exact hi.distinct.1 i p hp
  · rcases hcase i p' hp' with ⟨rfl, hpid⟩ | ⟨-, p, hp, hpid⟩ <;>
      rcases hcase j q' hq' with ⟨rfl, hqid⟩ | ⟨-, q, hq, hqid⟩
    · rfl
    · exact absurd (by omega) (hnew j q hq)
    · exact absurd (by omega) (hnew i p hp)
    · exact hi.distinct.2 i j p q hp hq (by omega)
  · rw [h.nextPid]
    rcases hcase i p' hp' with ⟨-, hpid⟩ | ⟨-, p, hp, hpid⟩
    · omega
    · rcases hi.below i p hp with hlt | ⟨hmax, hn⟩ <;> omega
  · rw [h.nextPid]
    omega
  · rw [h.nextPid]
    omega

theorem runWith_pidInv {k : Kernel} {image : Image} {name : Bytes} {exclusive : Bool}
    {argv : Option ArgvSetup} {r : Kernel × Option TrapFrame} (hempty : ∀ i, k.sched.procs i = none)
    (hr : runWith k image name exclusive argv = some r) : PidInv r.1.sched := by
  rcases runWith_some hr with rfl | ⟨slot, av, -, rfl⟩
  · exact ⟨⟨by simp [hempty], by simp [hempty]⟩, by simp [hempty], by simp, by simp [u32Max]⟩
  · have hone : ∀ i p', ((Sched.setProc { k.sched with
        exclusive := exclusive, nextPid := 1, initPid := 0, current := none } slot
        { newPcb 1 0 image name av .newStdio with state := .running }).procs i = some p') →
        i = slot ∧ p'.pid = 1 := by
      intro i p' hp'
      by_cases hi : i = slot
      · subst hi
        obtain rfl := Option.some.inj ((Sched.setProc_self _ _ _).symm.trans hp')
        exact ⟨rfl, rfl⟩
      · rw [Sched.setProc_of_ne _ hi] at hp'
        exact absurd ((hempty i).symm.trans hp') (by simp)
    refine ⟨⟨fun i p' hp' => ?_, fun i j p' q' hp' hq' _ => ?_⟩, fun i p' hp' => ?_, ?_, ?_⟩
    · have := (hone i p' hp').2
      omega
    · rw [(hone i p' hp').1, (hone j q' hq').1]
    · have := (hone i p' hp').2
      refine Or.inl ?_
      simp only [u32Max]
      omega
    · simp [u32Max]
    · simp [u32Max]

theorem pidInv_boot (ready : Bool) : PidInv (Sys.boot ready).k.sched := by
  refine ⟨⟨?_, ?_⟩, ?_, ?_, ?_⟩ <;> simp [Sys.boot, Kernel.init, Sched.init, u32Max]

theorem step_pidInv {s s' : Sys} {a : Act} (h : s.step a = some s') (hi : PidInv s.k.sched)
    (hf : pidsFresh ⟨s, a, s'⟩ = true) : PidInv s'.k.sched := by
  rcases step_ids h with hsame | ⟨slot, n, hgrow⟩ | ⟨image, name, exclusive, argv, rfl, r, hr, hk⟩
  · exact hsame.pidInv hi
  · refine hgrow.pidInv hi ?_
    have hadds : adds ⟨s, a, s'⟩ = true :=
      List.any_eq_true.mpr ⟨slot, List.mem_finRange slot, by simp [hgrow.free, hgrow.new]⟩
    unfold pidsFresh at hf
    split at hf
    · refine Or.inr fun i p hp => ?_
      exact absurd ((Sched.empty_iff.mp hf i).symm.trans hp) (by simp)
    · simp only [hadds, Bool.not_true, Bool.false_or, Bool.or_eq_true, decide_eq_true_eq,
        List.all_eq_true] at hf
      refine hf.imp id fun hall i p hp => ?_
      simpa [hp] using hall i (List.mem_finRange i)
  · rw [hk]
    exact runWith_pidInv (Sched.empty_iff.mp hf) hr

/-- In every state of a run whose steps are fresh, pids identify processes. -/
theorem pids_distinct {ready : Bool} {ts : List (Trans Sys Act)} {s : Sys} (h : Run ready ts s)
    (hf : ∀ t ∈ ts, pidsFresh t = true) : s.k.sched.PidsDistinct :=
  (Path.invariant (I := fun s => PidInv s.k.sched) (pidInv_boot ready)
    (fun _ hs hi hc => step_pidInv hs hi hc) h hf).distinct

theorem pids_distinct_two_sessions : ∃ ts s, Run true ts s ∧ s.k.sched.empty = false ∧
    s.k.sched.PidsDistinct := by
  obtain ⟨r, hr, hp⟩ := exists_path_of_replay Sys.step (Sys.boot true)
    ([Sample.init] ++ Sample.call 256 7 4096 0 0 ++ [Sample.run] ++
      Sample.call 256 1 0 0 0 ++ [Sample.run, Sample.init] ++ Sample.call 256 7 4096 0 0 ++
      [Sample.run])
    (fun r => r.1.all pidsFresh && !r.2.k.sched.empty) (by decide)
  simp only [Bool.and_eq_true, List.all_eq_true, Bool.not_eq_true'] at hp
  exact ⟨r.1, r.2, hr, hp.2, pids_distinct hr hp.1⟩

theorem pids_collide : ¬ ∀ ready s, Reach ready s → s.k.sched.PidsDistinct := by
  intro h
  obtain ⟨r, hr, hp⟩ := exists_path_of_replay Sys.step (Sys.boot true)
    ([.poll, .launch (some (Sample.image, Sample.argv)) [0x61], .pollEnd,
      .runWith Sample.image [0x62] true (some Sample.argv)])
    (fun r => (r.2.k.sched.procs 0).map (·.pid) == (r.2.k.sched.procs 1).map (·.pid) &&
      (r.2.k.sched.procs 0).isSome) (by decide)
  simp only [Bool.and_eq_true, beq_iff_eq] at hp
  obtain ⟨p, hp0⟩ := Option.isSome_iff_exists.mp hp.2
  rw [hp0, Option.map_some, eq_comm, Option.map_eq_some_iff] at hp
  obtain ⟨⟨q, hq, hpid⟩, -⟩ := hp
  have := (h true r.2 ⟨r.1, hr⟩).2 0 1 p q hp0 hq hpid.symm
  exact absurd this (by decide)

end CoeleoOs.Task
