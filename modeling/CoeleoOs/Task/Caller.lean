import CoeleoOs.Task.Wait

/-!
# A process and its calls

What the calls for pipes, files and children do for the process that makes them: its
descriptors, its children, and which slots of the process table are taken. `Keeps` is what
every call and everything that happens between two calls leaves in place.
-/

namespace CoeleoOs.Task
open CoeleoOs.Lib CoeleoOs.Mem CoeleoOs.Ui

/-- A live process whose pid no other process has, or will get. -/
structure Kernel.At (k : Kernel) (cur : Slot) (p : Pcb) : Prop where
  here : k.sched.procs cur = some p
  alive : p.state ≠ .zombie
  alone : ∀ i q, k.sched.procs i = some q → q.pid = p.pid → i = cur
  pos : p.pid ≠ 0
  old : p.pid < k.sched.nextPid
  bound : k.sched.nextPid ≤ u32Max
  apart : p.parent ≠ p.pid

def Kernel.Child (k : Kernel) (pid : ℕ) (i : Slot) : Prop :=
  ∃ q, k.sched.procs i = some q ∧ q.parent = pid

structure Kernel.Stays (k k' : Kernel) (cur : Slot) (p p' : Pcb) : Prop where
  after : k'.At cur p'
  pid : p'.pid = p.pid
  spawned : p.spawnedChild = true → p'.spawnedChild = true

/-- The other processes may do what they like, but the children stay and no new one comes. -/
def Beside (cur : Slot) (k k' : Kernel) : Prop :=
  ∀ p, k.At cur p → ∃ p', k.Stays k' cur p p' ∧ p'.fds = p.fds ∧ ∀ i, k'.Child p.pid i ↔
    k.Child p.pid i

/-- The same slots are taken, by processes with the same parents. -/
structure Kernel.Occupied (k k' : Kernel) : Prop where
  taken : ∀ i, (k'.sched.procs i).isSome = (k.sched.procs i).isSome
  child : ∀ pid i, k'.Child pid i ↔ k.Child pid i

section Kept

variable {k k' k'' : Kernel} {cur : Slot} {p p' p'' : Pcb}

theorem Beside.refl (cur : Slot) (k : Kernel) : Beside cur k k :=
  fun p hp => ⟨p, ⟨hp, rfl, id⟩, rfl, fun _ => .rfl⟩

theorem Sched.Kept.occupied (h : k.sched.Kept k'.sched) : k.Occupied k' := by
  constructor
  · intro i
    rcases h.2 i with ⟨hn, hn'⟩ | ⟨q, q', hq, hq', -⟩
    · rw [hn, hn']
    · rw [hq, hq']
      rfl
  · intro pid i
    rcases h.2 i with ⟨hn, hn'⟩ | ⟨q, q', hq, hq', he⟩
    · simp [Kernel.Child, hn, hn']
    · simp [Kernel.Child, hq, hq', he.parent]

theorem Sched.Kept.stays (h : k.sched.Kept k'.sched) (hn : k'.sched.nextPid = k.sched.nextPid)
    (hp : k.At cur p) (hp' : k'.sched.procs cur = some p') (halive : p'.state ≠ .zombie) :
    k.Stays k' cur p p' := by
  have hold :
      ∀ i q', k'.sched.procs i = some q' → ∃ q, k.sched.procs i = some q ∧ Evolves q q' := by
    intro i q' hq'
    rcases h.2 i with ⟨-, hnone⟩ | ⟨q, q'', hq, hq'', he⟩
    · rw [hnone] at hq'
      cases hq'
    · obtain rfl := Option.some.inj (hq''.symm.trans hq')
      exact ⟨q, hq, he⟩
  obtain ⟨q, hq, he⟩ := hold cur p' hp'
  obtain rfl := Option.some.inj (hp.here.symm.trans hq)
  refine ⟨⟨hp', halive, fun i r' hr' hpid => ?_, ?_, ?_, hn ▸ hp.bound, ?_⟩, he.pid, he.spawned⟩
  · obtain ⟨r, hr, hre⟩ := hold i r' hr'
    exact hp.alone i r hr (by rw [← hre.pid, hpid, he.pid])
  · rw [he.pid]
    exact hp.pos
  · rw [he.pid, hn]
    exact hp.old
  · rw [he.parent, he.pid]
    exact hp.apart

theorem setFds_stays (hp : k.At cur p) (t : FdTable) {s' : Sched}
    (hs : s' = k.sched.setProc cur { p with fds := t } ∨ s' = (k.sched.setProc cur { p with
      fds := t }).wakePipeLocked) (hk' : k'.sched = s') : ∃ p', k.Stays k' cur p p' ∧ p'.fds = t ∧
      k.Occupied k' := by
  have hset : k.sched.Kept (k.sched.setProc cur { p with fds := t }) :=
    Sched.kept_setProc hp.here (evolves_fds p t)
  rcases hs with rfl | rfl
  · have hkept : k.sched.Kept k'.sched := hk' ▸ hset
    have hself : k'.sched.procs cur = some { p with fds := t } := hk' ▸ Sched.setProc_self _ _ _
    have hnext : k'.sched.nextPid = k.sched.nextPid := hk' ▸ rfl
    exact ⟨_, hkept.stays hnext hp hself hp.alive, rfl, hkept.occupied⟩
  · have hkept : k.sched.Kept k'.sched := hk' ▸ hset.trans (Sched.wakePipeLocked_kept _)
    have hnext : k'.sched.nextPid = k.sched.nextPid := hk' ▸ rfl
    have hself :
        k'.sched.procs cur = some (if p.state = .blockedPipeRead ∨ p.state = .blockedPipeWrite then
        { p with fds := t, state := .runnable } else { p with fds := t }) := by
      rw [hk', Sched.wakePipeLocked, Sched.mapProcs_procs, Sched.setProc_self]
      rfl
    refine ⟨_, hkept.stays hnext hp hself ?_, ?_, hkept.occupied⟩
    · split
      · simp
      · exact hp.alive
    · split <;> rfl

end Kept

section Calls

variable {e : Env} {k : Kernel} {cur : Slot} {p : Pcb}

theorem withFds_out (hcur : k.sched.current = some cur) (hp : k.sched.procs cur = some p) {α : Type}
    (f : FdTable → α × FdTable) :
    k.withFds f = (some (f p.fds).1, { k with sched := k.sched.setProc cur { p with
      fds := (f p.fds).2 } }) := by
  simp only [Kernel.withFds, hcur, hp]

theorem allocFd_caller (hcur : k.sched.current = some cur) (hp : k.sched.procs cur = some p)
    (of : OpenFd) : (allocFd of).wp e k fun v k' => v = (p.fds.alloc of).1 ∧
      k'.sched = k.sched.setProc cur { p with fds := (p.fds.alloc of).2 } := by
  unfold allocFd
  rw [Eff.wp_bind]
  apply withFds_wp
  rw [Eff.wp_pure, withFds_out hcur hp]
  exact ⟨rfl, rfl⟩

theorem sysOpen_caller (hcur : k.sched.current = some cur) (hp : k.sched.procs cur = some p)
    {ptr len flags : ℕ} : (sysOpen ptr len flags).wp e k fun v k' => (v = err ∧ k' = k) ∨
    ∃ of, v = (p.fds.alloc of).1 ∧
    k'.sched = k.sched.setProc cur { p with fds := (p.fds.alloc of).2 } := by
  have hskip : (pure err : KernM Kernel ℕ).wp e k fun v k' => (v = err ∧ k' = k) ∨
      ∃ of, v = (p.fds.alloc of).1 ∧ k'.sched = k.sched.setProc cur { p with
        fds := (p.fds.alloc of).2 } := Eff.wp_pure.mpr (.inl ⟨rfl, rfl⟩)
  have halloc :
      ∀ of, (allocFd of).wp e k fun v k' => (v = err ∧ k' = k) ∨ ∃ of, v = (p.fds.alloc of).1 ∧
      k'.sched = k.sched.setProc cur { p with fds := (p.fds.alloc of).2 } :=
    fun of => Eff.wp_mono (allocFd_caller hcur hp of) fun v k' h => .inr ⟨of, h⟩
  unfold sysOpen
  rw [Eff.wp_bind]
  apply copyPath_wp
  intro path
  cases path with
  | none => exact hskip
  | some path =>
    simp only [Eff.wp_ite, Eff.wp_bind, Eff.wp_ask]
    split
    · exact hskip
    · split <;> try split
      all_goals first
        | exact hskip
        | exact halloc _
        | skip
      split
      · exact hskip
      · exact halloc _

theorem sysClose_caller (hcur : k.sched.current = some cur) (hp : k.sched.procs cur = some p)
    {fd : ℕ} (hfd : 2 < fd) : (sysClose fd).wp e k fun _ k' =>
      k'.sched = k.sched.setProc cur { p with fds := (p.fds.take fd).2 } ∨
      k'.sched = (k.sched.setProc cur { p with fds := (p.fds.take fd).2 }).wakePipeLocked := by
  unfold sysClose
  simp only [Eff.wp_ite, Eff.wp_pure, Eff.wp_bind]
  rw [if_neg (by omega)]
  apply withFds_wp
  rw [withFds_out hcur hp]
  rcases (p.fds.take fd).1 with _ | of
  · exact Eff.wp_pure.mpr (.inl rfl)
  · simp only [Option.join_some, dropFd, wakePipe, Eff.wp_bind, Eff.wp_get, Eff.wp_set, Eff.wp_pure]
    exact .inr trivial

theorem sysKill_caller (hcur : k.sched.current = some cur) (hp : k.sched.procs cur = some p)
    {pid : ℕ} : (sysKillCall pid).wp e k fun _ k' => k' = k ∨ ∃ v q, k.sched.procs v = some q ∧
    q.parent = p.pid ∧ k' = makeZombieLocked k v false := by
  unfold sysKillCall
  rw [Eff.wp_bind, Eff.wp_get]
  rcases hk : sysKill k pid with _ | ⟨r, k'⟩
  · exact Eff.wp_abort.mpr trivial
  · simp only [Eff.wp_bind, Eff.wp_set, Eff.wp_pure]
    simp only [sysKill, hcur, hp, Option.bind_eq_bind, Option.bind_some] at hk
    split at hk
    · exact .inl (Prod.mk.inj (Option.some.inj hk)).2.symm
    · split at hk
      · exact .inl (Prod.mk.inj (Option.some.inj hk)).2.symm
      · rename_i v hv
        obtain ⟨q, hq, hk⟩ := Option.bind_eq_some_iff.mp hk
        split_ifs at hk with hparent hz
        · exact .inl (Prod.mk.inj (Option.some.inj hk)).2.symm
        · exact .inl (Prod.mk.inj (Option.some.inj hk)).2.symm
        · exact .inr ⟨v, q, hq, not_not.mp hparent, (Prod.mk.inj (Option.some.inj hk)).2.symm⟩

theorem sysPipe_caller (hcur : k.sched.current = some cur) (hp : k.sched.procs cur = some p)
    {buf : ℕ} : (sysPipe buf).wpLog e k (fun l v k' => (v = err ∧ k'.sched = k.sched) ∨
      (v = 0 ∧ ∃ id r w, (allocPair id p.fds).1 = some (r, w) ∧
        l = [.write buf (leBytes 4 r ++ leBytes 4 w)] ∧ k'.sched =
          k.sched.setProc cur { p with fds := (allocPair id p.fds).2 })) fun _ => True := by
  unfold sysPipe userSliceOk
  simp only [Eff.wpLog_bind, Eff.wpLog_ask]
  rcases Vmm.userSliceOk e.space buf 8 with _ | _ | _
  · trivial
  · exact .inl ⟨rfl, rfl⟩
  simp only [Eff.wpLog_pure, if_true, Eff.wpLog_bind, Eff.wpLog_get]
  rcases Pipe.alloc k.pipes with _ | ⟨id, ps⟩
  · exact .inl ⟨rfl, rfl⟩
  simp only [Eff.wpLog_bind, Eff.wpLog_set, withFds, Eff.wpLog_get, Eff.wpLog_pure]
  rw [withFds_out (k := { k with pipes := ps }) hcur hp]
  rcases hpair : (allocPair id p.fds).1 with _ | ⟨r, w⟩
  · rcases allocPair_cases id p.fds with ⟨-, ht⟩ | ⟨hs, -⟩
    · refine .inl ⟨rfl, ?_⟩
      change k.sched.setProc cur { p with fds := (allocPair id p.fds).2 } = k.sched
      rw [ht]
      exact Sched.setProc_eq_self hp
    · rw [hpair] at hs
      cases hs
  · exact .inr ⟨rfl, id, r, w, hpair, rfl, rfl⟩

theorem sysSpawn_caller (hcur : k.sched.current = some cur) (hp : k.sched.procs cur = some p)
    {ptr : ℕ} : (sysSpawn ptr).wp e k fun v k' => (v = err ∧ k' = k) ∨ ∃ load path stdinFd stdoutFd,
      v = (spawnWith k load path p.pid stdinFd stdoutFd).1.getD err ∧
      k' = (spawnWith k load path p.pid stdinFd stdoutFd).2 := by
  have hpid : k.sched.currentPid.getD 0 = p.pid := by
    simp only [Sched.currentPid, Sched.currentPcb, hcur, Option.bind_some, hp, Option.map_some,
      Option.getD_some]
  unfold sysSpawn
  rw [Eff.wp_bind]
  apply userSliceOk_wp
  intro b
  simp only [Eff.wp_ite, Eff.wp_pure, Eff.wp_bind]
  split
  · apply copyFromUser_wp
    intro raw
    cases raw with
    | none => exact Eff.wp_pure.mpr (.inl ⟨rfl, rfl⟩)
    | some raw =>
      simp only [Eff.wp_bind]
      apply copyPath_wp
      intro path
      cases path with
      | none => exact Eff.wp_pure.mpr (.inl ⟨rfl, rfl⟩)
      | some path =>
        simp only [Eff.wp_ite, Eff.wp_pure, Eff.wp_bind, Eff.wp_get, Eff.wp_ask, Eff.wp_set, hpid]
        split
        · exact .inr ⟨_, _, _, _, rfl, rfl⟩
        · split
          · exact .inl ⟨trivial, trivial⟩
          · apply userSliceOk_wp
            intro b
            split
            · apply copyFromUser_wp
              intro blob
              cases blob with
              | none => exact Eff.wp_pure.mpr (.inl ⟨rfl, rfl⟩)
              | some blob =>
                simp only [Eff.wp_pure, Eff.wp_bind, Eff.wp_get, Eff.wp_ask, Eff.wp_set, hpid]
                exact .inr ⟨_, _, _, _, rfl, rfl⟩
            · exact .inl ⟨trivial, rfl⟩
  · exact .inl ⟨trivial, trivial⟩

theorem waitRound_caller (hcur : k.sched.current = some cur) (hp : k.sched.procs cur = some p)
    (hspawned : p.spawnedChild = true) {v : ℕ} {k' : Kernel}
    (h : waitRound.out e k = some (.ret v, k')) :
    ∃ i, zombieChild k.sched p.pid = some i ∧ k' = removeSlot k i := by
  change (runPoint .wait).out e k = _ at h
  rw [waitRound_out] at h
  rcases hz : zombieChild k.sched p.pid with _ | i
  · rw [tryReap_none hcur hp hz, hspawned] at h
    cases h
  · obtain ⟨z, hi, -⟩ := zombieChild_some hz
    rw [tryReap_pid hcur hp hz hi] at h
    exact ⟨i, rfl, (Prod.mk.inj (Option.some.inj h)).2.symm⟩

end Calls

section Effects

variable {k : Kernel} {cur v i : Slot} {p q : Pcb}

theorem wakePipe_self (p : Pcb) :
    ∃ p', (if p.state = .blockedPipeRead ∨ p.state = .blockedPipeWrite then
    { p with state := .runnable } else p) = p' ∧ p'.fds = p.fds ∧
      (p.state ≠ .zombie → p'.state ≠ .zombie) := by
  refine ⟨_, rfl, ?_, ?_⟩
  · split <;> rfl
  · intro h
    split
    · exact fun h => nomatch h
    · exact h

theorem makeZombieLocked_stays (hp : k.At cur p) (hv : cur ≠ v) (fault : Bool) :
    ∃ p', k.Stays (makeZombieLocked k v fault) cur p p' ∧ p'.fds = p.fds ∧
    k.Occupied (makeZombieLocked k v fault) := by
  obtain ⟨p', hwake, hfds, halive⟩ := wakePipe_self p
  have hself : (makeZombieLocked k v fault).sched.procs cur = some p' := by
    rw [makeZombieLocked]
    split
    · change (Sched.mapProcs _ _).procs cur = _
      rw [Sched.mapProcs_procs, Sched.setProc_of_ne _ hv, hp.here, Option.map_some, hwake]
    · change (Sched.mapProcs _ _).procs cur = _
      rw [Sched.mapProcs_procs, hp.here, Option.map_some, hwake]
  have hkept := makeZombieLocked_kept k v fault
  exact ⟨p', hkept.stays (makeZombieLocked_nextPid k v fault) hp hself (halive hp.alive), hfds,
    hkept.occupied⟩

theorem removeSlot_stays (hp : k.At cur p) (hi : cur ≠ i) : k.Stays (removeSlot k i) cur p p ∧
    ∀ pid j, (removeSlot k i).Child pid j ↔ k.Child pid j ∧ j ≠ i := by
  obtain ⟨-, -, -, -, hnext, -, -⟩ := removeSlot_rest k i
  have hself : (removeSlot k i).sched.procs cur = some p := by
    rw [removeSlot_procs, if_neg hi]
    exact hp.here
  refine ⟨⟨⟨hself, hp.alive, fun j r hr hpid => ?_, hp.pos, hnext ▸ hp.old, hnext ▸ hp.bound,
    hp.apart⟩, rfl, id⟩, fun pid j => ?_⟩
  · rw [removeSlot_procs] at hr
    split at hr
    · cases hr
    · exact hp.alone j r hr hpid
  · rw [Kernel.Child, removeSlot_procs]
    by_cases hj : j = i
    · simp [hj]
    · simp [hj, Kernel.Child]

theorem spawnWith_pid (k : Kernel) (load : Option (Image × ArgvSetup)) (path : Bytes)
    (parent stdinFd stdoutFd : ℕ) : ((spawnWith k load path parent stdinFd stdoutFd).1 = none ∧
      (spawnWith k load path parent stdinFd stdoutFd).2.sched = k.sched) ∨
    ∃ slot image argv fds, k.sched.procs slot = none ∧
      (spawnWith k load path parent stdinFd stdoutFd).1 =
        ((spawnWith k load path parent stdinFd stdoutFd).2.sched.procs slot).map (·.pid) ∧
      (spawnWith k load path parent stdinFd stdoutFd).2.sched =
        (Sched.setProc { k.sched with nextPid := min (k.sched.nextPid + 1) u32Max } slot
          (newPcb k.sched.nextPid parent image path argv fds)).markParent parent
            k.sched.nextPid := by
  unfold spawnWith insertPcb
  split
  · exact .inl ⟨rfl, rfl⟩
  · rename_i image argv
    rcases hpos : Table.position fun i => (k.sched.procs i).isNone with _ | slot
    · exact .inl ⟨rfl, rfl⟩
    · have hfree : k.sched.procs slot = none := by simpa using Table.position_some hpos
      rcases childFds k parent stdinFd stdoutFd with ⟨_ | fds, ps⟩
      · exact .inl ⟨rfl, rfl⟩
      · exact .inr ⟨slot, image, argv, fds, hfree, rfl, rfl⟩

theorem spawnWith_stays (hp : k.At cur p) (load : Option (Image × ArgvSetup)) (path : Bytes)
    (stdinFd stdoutFd : ℕ) : ((spawnWith k load path p.pid stdinFd stdoutFd).1 = none ∧
      (spawnWith k load path p.pid stdinFd stdoutFd).2.sched = k.sched) ∨
    ∃ slot p' n, (spawnWith k load path p.pid stdinFd stdoutFd).1 = some n ∧ n ≠ err ∧
      k.sched.procs slot = none ∧
      k.Stays (spawnWith k load path p.pid stdinFd stdoutFd).2 cur p p' ∧
      p'.fds = p.fds ∧ p'.spawnedChild = true ∧
      (∀ j, ((spawnWith k load path p.pid stdinFd stdoutFd).2.sched.procs j).isSome =
        ((k.sched.procs j).isSome || decide (j = slot))) ∧
      ∀ j, (spawnWith k load path p.pid stdinFd stdoutFd).2.Child p.pid j ↔ k.Child p.pid j ∨
        j = slot := by
  rcases spawnWith_pid k load path p.pid stdinFd stdoutFd with hnone | ⟨slot, image, argv, fds,
      hfree, hpid, hsched⟩
  · exact .inl hnone
  refine .inr ⟨slot, { p with spawnedChild := true, lastSpawned := k.sched.nextPid },
    k.sched.nextPid, ?_⟩
  have hbound := hp.bound
  have hold := hp.old
  have hcur : cur ≠ slot := by
    rintro rfl
    rw [hp.here] at hfree
    cases hfree
  generalize hs : Sched.setProc { k.sched with nextPid := min (k.sched.nextPid + 1) u32Max } slot
    (newPcb k.sched.nextPid p.pid image path argv fds) = s at hsched
  have hother : ∀ j, j ≠ slot → s.procs j = k.sched.procs j := fun j hj => by
    rw [← hs, Sched.setProc_of_ne _ hj]
  have hnew : s.procs slot = some (newPcb k.sched.nextPid p.pid image path argv fds) := by
    rw [← hs, Sched.setProc_self]
  have hfind : s.findPid p.pid = some cur := by
    have hhere : s.procs cur = some p := (hother cur hcur).trans hp.here
    rcases hf : s.findPid p.pid with _ | j
    · have hno := Table.position_any_none hf hhere
      simp at hno
    · obtain ⟨r, hr, hrpid⟩ := Table.position_any hf
      have hrpid : r.pid = p.pid := of_decide_eq_true hrpid
      by_cases hj : j = slot
      · rw [hj, hnew] at hr
        obtain rfl := Option.some.inj hr
        exact absurd hrpid (Nat.ne_of_gt hold)
      · rw [hother j hj] at hr
        rw [hp.alone j r hr hrpid]
  have hmark : (spawnWith k load path p.pid stdinFd stdoutFd).2.sched =
      s.setProc cur { p with spawnedChild := true, lastSpawned := k.sched.nextPid } := by
    rw [hsched, Sched.markParent, if_neg hp.pos]
    simp only [hfind, (hother cur hcur).trans hp.here]
  have hself : (spawnWith k load path p.pid stdinFd stdoutFd).2.sched.procs cur =
      some { p with spawnedChild := true, lastSpawned := k.sched.nextPid } := by
    rw [hmark, Sched.setProc_self]
  have hslot : (spawnWith k load path p.pid stdinFd stdoutFd).2.sched.procs slot =
      some (newPcb k.sched.nextPid p.pid image path argv fds) := by
    rw [hmark, Sched.setProc_of_ne _ (Ne.symm hcur), hnew]
  have hrest : ∀ j, j ≠ slot → j ≠ cur →
      (spawnWith k load path p.pid stdinFd stdoutFd).2.sched.procs j = k.sched.procs j := by
    intro j hj hjc
    rw [hmark, Sched.setProc_of_ne _ hjc, hother j hj]
  have hnext : (spawnWith k load path p.pid stdinFd stdoutFd).2.sched.nextPid =
      min (k.sched.nextPid + 1) u32Max := by
    rw [hmark, Sched.setProc_nextPid, ← hs]
    rfl
  have herr : k.sched.nextPid ≠ err := by
    simp only [u32Max, err] at *
    omega
  refine ⟨?_, herr, hfree, ⟨⟨hself, hp.alive, fun j r hr hrpid => ?_, hp.pos, ?_, ?_, hp.apart⟩,
    rfl, fun _ => rfl⟩, rfl, rfl, fun j => ?_, fun j => ?_⟩
  · rw [hpid, hslot]
    rfl
  · by_cases hj : j = slot
    · rw [hj, hslot] at hr
      obtain rfl := Option.some.inj hr
      exact absurd hrpid (Nat.ne_of_gt hold)
    · by_cases hjc : j = cur
      · exact hjc
      · rw [hrest j hj hjc] at hr
        exact hp.alone j r hr hrpid
  · rw [hnext]
    exact Nat.lt_min.mpr ⟨Nat.lt_succ_of_lt hold, hold.trans_le hbound⟩
  · rw [hnext]
    exact Nat.min_le_right _ _
  · by_cases hj : j = slot
    · rw [hj, hslot]
      simp
    · by_cases hjc : j = cur
      · rw [hjc, hself, hp.here]
        simp
      · rw [hrest j hj hjc]
        simp [hj]
  · by_cases hj : j = slot
    · rw [hj, Kernel.Child, hslot]
      simp [newPcb]
    · by_cases hjc : j = cur
      · rw [hjc, Kernel.Child, hself, Kernel.Child, hp.here]
        simp [hp.apart, hcur]
      · rw [Kernel.Child, hrest j hj hjc, Kernel.Child]
        simp [hj]

end Effects

end CoeleoOs.Task
