import CoeleoOs.Task.Syscall

/-!
# What a stretch of a system call does to the tables

`Touch k k'` lists every way in which a system call that returns changes the
process and pipe tables, apart from moving pipe data, with the guards that hold
there. `After` adds how a stretch of code ends. Each handler is shown to fit one
case; later invariants are proved over the cases and do not look into the
handlers again.
-/

namespace CoeleoOs.Task
open CoeleoOs.Lib CoeleoOs.Ui

/-- Only the key queue, the windows, the clipboard or the recorded outcome differ. -/
structure Quiet (k k' : Kernel) : Prop where
  sched : k'.sched = k.sched
  pipes : k'.pipes = k.pipes
  userRsp : k'.userRsp = k.userRsp
  currentSlot : k'.currentSlot = k.currentSlot
  kconts : k'.kconts = k.kconts
  ready : k'.ready = k.ready

theorem Quiet.refl (k : Kernel) : Quiet k k := ⟨rfl, rfl, rfl, rfl, rfl, rfl⟩

inductive Touch (k : Kernel) : Kernel → Prop
  | quiet {k' : Kernel} : Quiet k k' → Touch k k'
  | fds {i : Slot} {p : Pcb} {t : FdTable} : k.sched.current = some i → k.sched.procs i = some p →
      (∀ id w, t.refs id w = p.fds.refs id w) →
      Touch k { k with sched := k.sched.setProc i { p with fds := t } }
  | pipe {i : Slot} {p : Pcb} {t : FdTable} {id : PipeId} {ps : Pipes} :
      k.sched.current = some i → k.sched.procs i = some p → Pipe.alloc k.pipes = some (id, ps) →
      (∀ j w, t.refs j w = p.fds.refs j w + Pipe.single id false j w + Pipe.single id true j w) →
      Touch k { k with pipes := ps, sched := k.sched.setProc i { p with fds := t } }
  | noPipe {id : PipeId} {ps : Pipes} : Pipe.alloc k.pipes = some (id, ps) →
      Touch k { k with pipes := Pipe.dropEnd (Pipe.dropEnd ps id false) id true }
  | close {i : Slot} {p : Pcb} {fd : ℕ} {of : OpenFd} {t : FdTable} :
      k.sched.current = some i → k.sched.procs i = some p → p.fds.take fd = (some of, t) →
      Touch k { k with
        pipes := dropOpen of k.pipes
        sched := (k.sched.setProc i { p with fds := t }).wakePipeLocked }
  | spawn {load : Option (Image × ArgvSetup)} {path : Bytes} {stdinFd stdoutFd : ℕ} :
      Touch k (spawnWith k load path (k.sched.currentPid.getD 0) stdinFd stdoutFd).2
  | kill {cur v : Slot} {p q : Pcb} : k.sched.current = some cur → k.sched.procs cur = some p →
      k.sched.procs v = some q → q.parent = p.pid → q.state ≠ .zombie →
      q.pid ≠ k.sched.initPid → Touch k (makeZombieLocked k v false)
  | reap {cur i : Slot} {p z : Pcb} : k.sched.current = some cur → k.sched.procs cur = some p →
      zombieChild k.sched p.pid = some i → k.sched.procs i = some z → Touch k (removeSlot k i)

theorem Touch.refl (k : Kernel) : Touch k k := .quiet (.refl k)

section Reads

variable {σ : Type} {e : Env} {k : σ}

theorem userSliceOk_wp {ptr len : ℕ} {Q : Bool → σ → Prop} (h : ∀ b, Q b k) :
    (userSliceOk ptr len : KernM σ Bool).wp e k Q := by
  unfold userSliceOk
  rw [Eff.wp_bind, Eff.wp_ask]
  split
  · rw [Eff.wp_bind, Eff.wp_tell]
    exact Eff.wp_abort.mpr trivial
  · exact Eff.wp_pure.mpr (h true)
  · rw [Eff.wp_bind, Eff.wp_tell]
    exact Eff.wp_pure.mpr (h false)

theorem sliceGuard_wp {α : Type} {ptr len : ℕ} {p q : KernM σ α} {Q : α → σ → Prop}
    (hp : p.wp e k Q) (hq : q.wp e k Q) :
    (userSliceOk ptr len >>= fun b => if b = true then p else q).wp e k Q := by
  rw [Eff.wp_bind]
  apply userSliceOk_wp
  intro b
  rw [Eff.wp_ite]
  split
  · exact hp
  · exact hq

theorem copyFromUser_wp {ptr len cap : ℕ} {Q : Option Bytes → σ → Prop} (h : ∀ r, Q r k) :
    (copyFromUser ptr len cap : KernM σ (Option Bytes)).wp e k Q := by
  unfold copyFromUser
  rw [Eff.wp_ite]
  split
  · exact Eff.wp_pure.mpr (h none)
  · rw [Eff.wp_bind, Eff.wp_ask, Eff.wp_bind, Eff.wp_tell]
    exact Eff.wp_pure.mpr (h _)

theorem copyToUser_wp {ptr : ℕ} {src : Bytes} {Q : Option Unit → σ → Prop} (h : Q (some ()) k) :
    (copyToUser ptr src : KernM σ (Option Unit)).wp e k Q := by
  unfold copyToUser
  rw [Eff.wp_bind, Eff.wp_tell]
  exact Eff.wp_pure.mpr h

theorem copyPath_wp {ptr len : ℕ} {Q : Option Bytes → σ → Prop} (h : ∀ r, Q r k) :
    (copyPath ptr len : KernM σ (Option Bytes)).wp e k Q := by
  unfold copyPath
  rw [Eff.wp_ite]
  split
  · exact Eff.wp_pure.mpr (h none)
  · apply sliceGuard_wp
    · rw [Eff.wp_bind]
      apply copyFromUser_wp
      intro r
      cases r with
      | none => exact Eff.wp_pure.mpr (h none)
      | some tmp => exact Eff.wp_pure.mpr (h _)
    · exact Eff.wp_pure.mpr (h none)

end Reads


section Descriptors

variable {e : Env} {k : Kernel}

theorem withFds_cases {α : Type} (k : Kernel) (f : FdTable → α × FdTable) :
    (k.sched.currentPcb = none ∧ k.withFds f = (none, k)) ∨
      ∃ i p, k.sched.current = some i ∧ k.sched.procs i = some p ∧
        k.withFds f = (some (f p.fds).1,
          { k with sched := k.sched.setProc i { p with fds := (f p.fds).2 } }) := by
  unfold Kernel.withFds Sched.currentPcb
  cases hc : k.sched.current with
  | none => exact Or.inl ⟨rfl, rfl⟩
  | some i =>
    cases hp : k.sched.procs i with
    | none => exact Or.inl ⟨by simp [hp], by simp [hp]⟩
    | some p => exact Or.inr ⟨i, p, rfl, hp, by simp [hp]⟩

theorem withFds_wp {α : Type} {f : FdTable → α × FdTable} {Q : Option α → Kernel → Prop}
    (h : Q (k.withFds f).1 (k.withFds f).2) : (withFds f).wp e k Q := by
  unfold withFds
  rw [Eff.wp_bind, Eff.wp_get]
  simp only [Eff.wp_bind, Eff.wp_set, Eff.wp_pure]
  exact h

theorem getFd_wp {fd : ℕ} {Q : Option OpenFd → Kernel → Prop}
    (h : Q (k.sched.currentPcb.bind (·.fds.getMut fd)) k) : (getFd fd).wp e k Q := by
  unfold getFd
  rw [Eff.wp_bind]
  apply withFds_wp
  rw [Eff.wp_pure]
  rcases withFds_cases k (fun t => (t.getMut fd, t)) with ⟨hn, hw⟩ | ⟨i, p, hc, hp, hw⟩
  · rw [hw]
    simpa [hn] using h
  · rw [hw]
    simpa [Sched.currentPcb, hc, hp, Sched.setProc_eq_self hp] using h

theorem currentFd_some {fd : ℕ} {of : OpenFd}
    (h : k.sched.currentPcb.bind (·.fds.getMut fd) = some of) :
    ∃ i p, k.sched.current = some i ∧ k.sched.procs i = some p ∧ p.fds.getMut fd = some of := by
  unfold Sched.currentPcb at h
  obtain ⟨p, hp, hg⟩ := Option.bind_eq_some_iff.mp h
  obtain ⟨i, hi, hp⟩ := Option.bind_eq_some_iff.mp hp
  exact ⟨i, p, hi, hp, hg⟩

theorem withFds_touch {α : Type} {f : FdTable → α × FdTable}
    (h : ∀ i p, k.sched.current = some i → k.sched.procs i = some p →
      ∀ id w, (f p.fds).2.refs id w = p.fds.refs id w) : Touch k (k.withFds f).2 := by
  rcases withFds_cases k f with ⟨-, hw⟩ | ⟨i, p, hc, hp, hw⟩
  · rw [hw]
    exact .refl k
  · rw [hw]
    exact .fds hc hp (h i p hc hp)

theorem put_touch {fd : ℕ} {of of' : OpenFd}
    (hfd : k.sched.currentPcb.bind (·.fds.getMut fd) = some of)
    (hr : ∀ id w, of'.refs id w = of.refs id w) :
    Touch k (k.withFds fun t => ((), t.put fd of')).2 := by
  apply withFds_touch
  intro i p hc hp id w
  obtain ⟨i', p', hc', hp', hg⟩ := currentFd_some hfd
  obtain rfl : i' = i := by simpa [hc] using hc'.symm
  obtain rfl : p' = p := by simpa [hp] using hp'.symm
  exact FdTable.put_refs hg hr id w

theorem allocFd_touch {of : OpenFd} (hr : ∀ id w, of.refs id w = 0) :
    (allocFd of).wp e k fun _ k' => Touch k k' := by
  unfold allocFd
  rw [Eff.wp_bind]
  apply withFds_wp
  rw [Eff.wp_pure]
  apply withFds_touch
  intro i p _ _ id w
  rcases FdTable.alloc_cases p.fds of with ⟨j, hj, ha⟩ | ha
  · rw [ha, FdTable.alloc_refs j hj, hr, Nat.add_zero]
  · rw [ha]

end Descriptors

section Handlers

variable {e : Env} {k : Kernel}

theorem sysOpen_touch {pathPtr pathLen flags : ℕ} :
    (sysOpen pathPtr pathLen flags).wp e k fun _ k' => Touch k k' := by
  unfold sysOpen
  rw [Eff.wp_bind]
  apply copyPath_wp
  intro path
  have hskip : ∀ v : ℕ, (pure v : KernM Kernel ℕ).wp e k fun _ k' => Touch k k' :=
    fun v => Eff.wp_pure.mpr (.refl k)
  cases path with
  | none => exact hskip _
  | some path =>
    simp only [Eff.wp_ite, Eff.wp_bind, Eff.wp_ask]
    split
    · exact hskip _
    · split <;> try split
      all_goals first
        | exact hskip _
        | exact allocFd_touch fun _ _ => rfl
        | skip
      split
      · exact hskip _
      · exact allocFd_touch fun _ _ => rfl

theorem readFile_touch {fd buf n : ℕ} :
    (readFile fd buf n).wp e k fun _ k' => Touch k k' := by
  unfold readFile
  extract_lets jp
  have hjp : (jp ()).wp e k fun _ k' => Touch k k' := by
    simp only [jp, Eff.wp_bind]
    apply getFd_wp
    split
    · rename_i path offset writable hfd
      simp only [Eff.wp_ite, Eff.wp_pure, Eff.wp_bind, Eff.wp_ask]
      split
      · exact .refl k
      · split
        · simp only [Eff.wp_bind]
          apply copyToUser_wp
          simp only [Eff.wp_bind]
          apply withFds_wp
          simp only [Eff.wp_pure]
          exact put_touch hfd fun _ _ => rfl
        · exact Eff.wp_pure.mpr (.refl k)
    · exact Eff.wp_pure.mpr (.refl k)
  simp only [Eff.wp_ite, Eff.wp_bind]
  split
  · apply userSliceOk_wp
    intro b
    split
    · exact hjp
    · exact Eff.wp_pure.mpr (.refl k)
  · exact hjp


theorem writeConsole_touch {buf n : ℕ} :
    (writeConsole buf n).wp e k fun _ k' => Touch k k' := by
  unfold writeConsole
  rw [Eff.wp_bind]
  apply copyFromUser_wp
  intro r
  cases r <;> exact Eff.wp_pure.mpr (.refl k)

theorem writeFile_touch {fd buf n : ℕ} :
    (writeFile fd buf n).wp e k fun _ k' => Touch k k' := by
  unfold writeFile
  rw [Eff.wp_bind]
  apply copyFromUser_wp
  intro r
  cases r with
  | none => exact Eff.wp_pure.mpr (.refl k)
  | some io =>
    simp only [Eff.wp_bind]
    apply getFd_wp
    split
    · rename_i path offset hfd
      simp only [Eff.wp_bind, Eff.wp_ask]
      split
      · simp only [Eff.wp_bind]
        apply withFds_wp
        rw [Eff.wp_pure]
        exact put_touch hfd fun _ _ => rfl
      · exact Eff.wp_pure.mpr (.refl k)
    · exact Eff.wp_pure.mpr (.refl k)

theorem sysClose_touch {fd : ℕ} : (sysClose fd).wp e k fun _ k' => Touch k k' := by
  unfold sysClose
  simp only [Eff.wp_ite, Eff.wp_pure, Eff.wp_bind]
  split
  · exact .refl k
  · apply withFds_wp
    rcases withFds_cases k (fun t => t.take fd) with ⟨-, hw⟩ | ⟨i, p, hc, hp, hw⟩
    · rw [hw]
      exact Eff.wp_pure.mpr (.refl k)
    · rw [hw]
      cases ht : p.fds.take fd with
      | mk of t =>
        cases of with
        | none =>
          obtain rfl := FdTable.take_none ht
          simp only [Option.join_some, Eff.wp_pure]
          exact .fds hc hp fun _ _ => rfl
        | some of =>
          simp only [Option.join_some, dropFd, wakePipe, Eff.wp_bind, Eff.wp_get, Eff.wp_set,
            Eff.wp_pure]
          exact .close hc hp ht

theorem allocPair_cases (id : PipeId) (t : FdTable) :
    ((allocPair id t).1 = none ∧ (allocPair id t).2 = t) ∨
      ((allocPair id t).1.isSome ∧ ∀ j w, (allocPair id t).2.refs j w =
        t.refs j w + Pipe.single id false j w + Pipe.single id true j w) := by
  unfold allocPair
  rcases FdTable.alloc_cases t (.pipe id false) with ⟨i, hi, ha⟩ | ha
  · have hne : (i : ℕ) ≠ err := by
      have := i.isLt
      simp only [fdMax, err] at *
      omega
    simp only [ha, hne, if_false]
    rcases FdTable.alloc_cases ⟨Function.update t.slots i (some (.pipe id false))⟩ (.pipe id true)
      with ⟨j, hj, hb⟩ | hb
    · have hne' : (j : ℕ) ≠ err := by
        have := j.isLt
        simp only [fdMax, err] at *
        omega
      refine Or.inr ?_
      simp only [hb, hne', if_false, Option.isSome_some, true_and]
      intro l w
      rw [FdTable.alloc_refs j hj, FdTable.alloc_refs i hi]
      rfl
    · refine Or.inl ?_
      simp only [hb, if_true, true_and, FdTable.take, i.isLt, dite_true, Fin.eta,
        Function.update_idem]
      rw [← hi, Function.update_eq_self]
  · refine Or.inl ?_
    simp [ha]

theorem sysPipe_touch {buf : ℕ} : (sysPipe buf).wp e k fun _ k' => Touch k k' := by
  unfold sysPipe
  apply sliceGuard_wp
  · rw [Eff.wp_bind, Eff.wp_get]
    cases ha : Pipe.alloc k.pipes with
    | none => exact Eff.wp_pure.mpr (.refl k)
    | some r =>
      obtain ⟨id, ps⟩ := r
      simp only [Eff.wp_bind, Eff.wp_set]
      apply withFds_wp
      rcases withFds_cases { k with pipes := ps } (allocPair id) with ⟨-, hw⟩ | ⟨i, p, hc, hp, hw⟩
      · simp only [hw, Option.join_none, dropFd, dropOpen, Eff.wp_bind, Eff.wp_get, Eff.wp_set,
          Eff.wp_pure]
        exact .noPipe ha
      · rcases allocPair_cases id p.fds with ⟨hn, ht⟩ | ⟨hs, hr⟩
        · simp only [hw, hn, ht, Option.join_some, dropFd, dropOpen, Eff.wp_bind, Eff.wp_get,
            Eff.wp_set, Eff.wp_pure, Sched.setProc_eq_self hp]
          exact .noPipe ha
        · obtain ⟨⟨r, w⟩, hq⟩ := Option.isSome_iff_exists.mp hs
          simp only [hw, hq, Option.join_some, Eff.wp_bind]
          apply copyToUser_wp
          rw [Eff.wp_pure]
          exact .pipe hc hp ha hr
  · exact Eff.wp_pure.mpr (.refl k)

theorem sysReaddir_touch {fd buf len : ℕ} :
    (sysReaddir fd buf len).wp e k fun _ k' => Touch k k' := by
  unfold sysReaddir
  simp only [Eff.wp_ite, Eff.wp_pure, Eff.wp_bind]
  split
  · exact .refl k
  · apply userSliceOk_wp
    intro b
    split
    · apply getFd_wp
      split
      · rename_i index ents hfd
        cases hent : ents[index]? with
        | none => exact Eff.wp_pure.mpr (.refl k)
        | some ent =>
          simp only [Eff.wp_bind]
          apply withFds_wp
          apply copyToUser_wp
          rw [Eff.wp_pure]
          exact put_touch hfd fun _ _ => rfl
      · exact Eff.wp_pure.mpr (.refl k)
    · exact .refl k

theorem sysUnlink_touch {pathPtr pathLen : ℕ} :
    (sysUnlink pathPtr pathLen).wp e k fun _ k' => Touch k k' := by
  unfold sysUnlink
  rw [Eff.wp_bind]
  apply copyPath_wp
  intro path
  cases path <;> simp only [Eff.wp_pure, Eff.wp_bind, Eff.wp_ask] <;> exact .refl k

theorem sysMkdir_touch {pathPtr pathLen : ℕ} :
    (sysMkdir pathPtr pathLen).wp e k fun _ k' => Touch k k' := by
  unfold sysMkdir
  rw [Eff.wp_bind]
  apply copyPath_wp
  intro path
  cases path <;> simp only [Eff.wp_pure, Eff.wp_bind, Eff.wp_ask] <;> exact .refl k

theorem sysSysinfo_touch {kind buf len : ℕ} :
    (sysSysinfo kind buf len).wp e k fun _ k' => Touch k k' := by
  unfold sysSysinfo
  simp only [Eff.wp_ite, Eff.wp_pure, Eff.wp_bind, Eff.wp_ask]
  split
  · exact .refl k
  · apply userSliceOk_wp
    intro b
    split
    · split
      · exact copyToUser_wp (Eff.wp_pure.mpr (.refl k))
      · split
        · exact copyToUser_wp (Eff.wp_pure.mpr (.refl k))
        · split
          · apply copyFromUser_wp
            intro r
            cases r with
            | none => exact Eff.wp_pure.mpr (.refl k)
            | some tmp =>
              simp only [Option.map_some, Eff.wp_bind]
              exact copyToUser_wp (Eff.wp_pure.mpr (.refl k))
          · exact .refl k
    · exact .refl k

theorem sysSpawn_touch {argsPtr : ℕ} : (sysSpawn argsPtr).wp e k fun _ k' => Touch k k' := by
  unfold sysSpawn
  rw [Eff.wp_bind]
  apply userSliceOk_wp
  intro b
  simp only [Eff.wp_ite, Eff.wp_pure, Eff.wp_bind]
  split
  · apply copyFromUser_wp
    intro raw
    cases raw with
    | none => exact Eff.wp_pure.mpr (.refl k)
    | some raw =>
      simp only [Eff.wp_bind]
      apply copyPath_wp
      intro path
      cases path with
      | none => exact Eff.wp_pure.mpr (.refl k)
      | some path =>
        simp only [Eff.wp_ite, Eff.wp_pure, Eff.wp_bind, Eff.wp_get, Eff.wp_ask, Eff.wp_set]
        split
        · exact .spawn
        · split
          · exact .refl k
          · apply userSliceOk_wp
            intro b
            split
            · apply copyFromUser_wp
              intro blob
              cases blob with
              | none => exact Eff.wp_pure.mpr (.refl k)
              | some blob =>
                simp only [Eff.wp_pure, Eff.wp_bind, Eff.wp_get, Eff.wp_ask, Eff.wp_set]
                exact .spawn
            · exact .refl k
  · exact .refl k

theorem sysPs_touch {buf len : ℕ} : (sysPs buf len).wp e k fun _ k' => Touch k k' := by
  unfold sysPs
  simp only [Eff.wp_ite, Eff.wp_pure, Eff.wp_bind, Eff.wp_get]
  split
  · exact .refl k
  · apply userSliceOk_wp
    intro b
    split
    · exact copyToUser_wp (Eff.wp_pure.mpr (.refl k))
    · exact .refl k

theorem sysKill_touch {pid r : ℕ} {k' : Kernel} (h : sysKill k pid = some (r, k')) :
    Touch k k' := by
  unfold sysKill at h
  cases hc : k.sched.current with
  | none =>
    simp only [hc, Option.some.injEq, Prod.mk.injEq] at h
    exact h.2 ▸ .refl k
  | some cur =>
    simp only [hc, Option.bind_eq_bind, Option.bind_eq_some_iff] at h
    obtain ⟨p, hp, h⟩ := h
    split at h
    · simp only [Option.pure_def, Option.some.injEq, Prod.mk.injEq] at h
      exact h.2 ▸ .refl k
    · rename_i hinit
      split at h
      · simp only [Option.pure_def, Option.some.injEq, Prod.mk.injEq] at h
        exact h.2 ▸ .refl k
      · rename_i v hv
        simp only [Option.bind_eq_some_iff] at h
        obtain ⟨q, hq, h⟩ := h
        have hpid := Table.position_some hv
        simp only [hq, Option.any_some, decide_eq_true_eq] at hpid
        split_ifs at h with hparent hz
        all_goals simp only [Option.pure_def, Option.some.injEq, Prod.mk.injEq] at h
        · exact h.2 ▸ .refl k
        · exact h.2 ▸ .refl k
        · rw [← h.2]
          exact .kill hc hp hq (by simpa using hparent) hz (by rw [hpid]; exact hinit)

theorem sysKillCall_touch {pid : ℕ} : (sysKillCall pid).wp e k fun _ k' => Touch k k' := by
  unfold sysKillCall
  rw [Eff.wp_bind, Eff.wp_get]
  cases hk : sysKill k pid with
  | none => exact Eff.wp_abort.mpr trivial
  | some r =>
    simp only [Eff.wp_bind, Eff.wp_set, Eff.wp_pure]
    exact sysKill_touch hk

theorem sysDate_touch {buf len : ℕ} : (sysDate buf len).wp e k fun _ k' => Touch k k' := by
  unfold sysDate
  simp only [Eff.wp_ite, Eff.wp_pure, Eff.wp_bind, Eff.wp_ask]
  split
  · exact .refl k
  · apply userSliceOk_wp
    intro b
    split
    · split
      · simp only [Eff.wp_bind]
        exact copyToUser_wp (Eff.wp_pure.mpr (.refl k))
      · exact Eff.wp_pure.mpr (.refl k)
    · exact .refl k

theorem sysDisks_touch {buf len : ℕ} : (sysDisks buf len).wp e k fun _ k' => Touch k k' := by
  unfold sysDisks
  simp only [Eff.wp_ite, Eff.wp_pure, Eff.wp_bind, Eff.wp_ask]
  split
  · exact .refl k
  · apply userSliceOk_wp
    intro b
    split
    · split
      · exact .refl k
      · exact copyToUser_wp (Eff.wp_pure.mpr (.refl k))
    · exact .refl k

theorem sysClipboard_touch {op ptr len : ℕ} :
    (sysClipboard op ptr len).wp e k fun _ k' => Touch k k' := by
  unfold sysClipboard
  simp only [Eff.wp_ite, Eff.wp_pure, Eff.wp_bind, Eff.wp_get, Eff.wp_set]
  split
  · split
    · exact .refl k
    · split
      · exact copyToUser_wp (.refl k)
      · exact .refl k
  · split
    · split
      · exact copyFromUser_wp fun _ => .quiet ⟨rfl, rfl, rfl, rfl, rfl, rfl⟩
      · exact .quiet ⟨rfl, rfl, rfl, rfl, rfl, rfl⟩
    · exact .refl k

theorem onWin_touch {m : KernM Win ℕ} : (onWin m).wp e k fun _ k' => Touch k k' := by
  unfold onWin
  rw [Eff.wp_zoom]
  exact fun _ _ _ => .quiet ⟨rfl, rfl, rfl, rfl, rfl, rfl⟩

end Handlers

def Point.Sound : Point → Prop
  | .readPipe _ _ n => 0 < n ∧ n ≤ ioMax
  | .writePipe _ _ n => 0 < n ∧ n ≤ ioMax
  | _ => True

/-- How the code from point `p` on ends, and what it did before. -/
inductive After (k : Kernel) : Point → Next → Kernel → Prop
  | ret {p : Point} {v : ℕ} {k' : Kernel} : Touch k k' → After k p (.ret v) k'
  | goto {num a0 a1 a2 : UInt64} {q : Point} :
    q.Sound → After k (.dispatch num a0 a1 a2) (.goto q) k
  | read {id : PipeId} {buf n : ℕ} {got : Bytes} : (Pipe.read k.pipes id n).1 = .data got →
      After k (.readPipe id buf n) (.ret got.length)
        { k with pipes := (Pipe.read k.pipes id n).2, sched := k.sched.wakePipeLocked }
  | write {id : PipeId} {buf n got : ℕ} {src : Bytes} : src.length = n →
      (Pipe.write k.pipes id src).1 = .data got → After k (.writePipe id buf n) (.ret got)
        { k with pipes := (Pipe.write k.pipes id src).2, sched := k.sched.wakePipeLocked }
  | pollThen {buf : ℕ} : After k (.readStdin buf) (.pollThen (.stdinPolled buf)) k
  | irqOpen {p q : Point} : q.Sound → After k p (.irqOpen q) k
  | blockStdin {buf : ℕ} : k.sched.hasRunnableOther = true →
      After k (.stdinPolled buf) (.block .blockedStdin (.readStdin buf)) k
  | blockRead {id : PipeId} {buf n : ℕ} : (Pipe.read k.pipes id n).1 = .wouldBlock →
      After k (.readPipe id buf n) (.block .blockedPipeRead (.readPipe id buf n))
        { k with sched := k.sched.wakePipeLocked }
  | blockWrite {id : PipeId} {buf n : ℕ} {src : Bytes} : src.length = n →
      (Pipe.write k.pipes id src).1 = .wouldBlock →
      After k (.writePipe id buf n) (.block .blockedPipeWrite (.writePipe id buf n))
        { k with sched := k.sched.wakePipeLocked }
  | blockWait {i : Slot} {p : Pcb} : k.sched.current = some i → k.sched.procs i = some p →
      zombieChild k.sched p.pid = none → p.spawnedChild = true →
      After k .wait (.block .blockedWait .wait) k
  | exit {num a0 a1 a2 : UInt64} : After k (.dispatch num a0 a1 a2) (.exit .exited) k

section Points

variable {e : Env} {k : Kernel}

theorem ret_after {p : Point} {m : KernM Kernel ℕ} (h : m.wp e k fun _ k' => Touch k k') :
    (do return Next.ret (← m)).wp e k (After k p) := by
  simp only [Eff.wp_bind, Eff.wp_pure]
  exact Eff.wp_mono h fun _ _ ht => .ret ht

theorem refuse_after {p : Point} {v : ℕ} : (pure (.ret v) : KernM Kernel Next).wp e k (After k p) :=
  Eff.wp_pure.mpr (.ret (.refl k))

theorem sysRead_after {num a0 a1 a2 : UInt64} {fd buf len : ℕ} :
    (sysRead fd buf len).wp e k (After k (.dispatch num a0 a1 a2)) := by
  unfold sysRead
  rw [Eff.wp_ite]
  split
  · exact refuse_after
  · rename_i hlen
    rw [Eff.wp_bind]
    apply getFd_wp
    split
    · rw [Eff.wp_ite]
      split
      · exact refuse_after
      · apply sliceGuard_wp
        · exact Eff.wp_pure.mpr (.goto trivial)
        · exact refuse_after
    · exact ret_after readFile_touch
    · rw [Eff.wp_ite]
      split
      · exact refuse_after
      · rename_i hpos
        apply sliceGuard_wp
        · exact Eff.wp_pure.mpr (.goto ⟨Nat.pos_of_ne_zero hpos, Nat.le_of_not_lt hlen⟩)
        · exact refuse_after
    · exact refuse_after

theorem sysWrite_after {num a0 a1 a2 : UInt64} {fd buf len : ℕ} :
    (sysWrite fd buf len).wp e k (After k (.dispatch num a0 a1 a2)) := by
  unfold sysWrite
  rw [Eff.wp_ite]
  split
  · exact refuse_after
  · rename_i hlen
    apply sliceGuard_wp
    · rw [Eff.wp_bind]
      apply getFd_wp
      split
      · exact ret_after writeConsole_touch
      · exact ret_after writeConsole_touch
      · exact ret_after writeFile_touch
      · rw [Eff.wp_ite]
        split
        · exact refuse_after
        · rename_i hpos
          exact Eff.wp_pure.mpr (.goto ⟨Nat.pos_of_ne_zero hpos, Nat.le_of_not_lt hlen⟩)
      · exact refuse_after
    · exact refuse_after

theorem sysNetPing_after {p : Point} {argsPtr : ℕ} : (sysNetPing argsPtr).wp e k (After k p) := by
  unfold sysNetPing
  apply sliceGuard_wp
  · rw [Eff.wp_bind]
    apply copyFromUser_wp
    intro raw
    cases raw with
    | none => exact refuse_after
    | some raw =>
      simp only [Eff.wp_ite, Eff.wp_bind]
      split
      · exact refuse_after
      · apply userSliceOk_wp
        intro b
        split
        · apply copyFromUser_wp
          intro name
          cases name with
          | none => exact refuse_after
          | some name =>
            simp only [Eff.wp_ite]
            split
            · exact Eff.wp_pure.mpr (.irqOpen trivial)
            · exact refuse_after
        · exact refuse_after
  · exact refuse_after

theorem sysHttpGet_after {p : Point} {argsPtr : ℕ} : (sysHttpGet argsPtr).wp e k (After k p) := by
  unfold sysHttpGet
  apply sliceGuard_wp
  · rw [Eff.wp_bind]
    apply copyFromUser_wp
    intro raw
    cases raw with
    | none => exact refuse_after
    | some raw =>
      simp only [Eff.wp_ite, Eff.wp_bind]
      split
      · exact refuse_after
      · apply userSliceOk_wp
        intro b
        split
        · apply copyFromUser_wp
          intro url
          cases url with
          | none => exact refuse_after
          | some url =>
            simp only [Eff.wp_ite]
            split
            · exact Eff.wp_pure.mpr (.irqOpen trivial)
            · exact refuse_after
        · exact refuse_after
  · exact refuse_after

theorem netPing_after {p : Point} {name : Bytes} {buf len : ℕ} :
    (netPing name buf len).wp e k (After k p) := by
  unfold netPing
  rw [Eff.wp_bind, Eff.wp_ask]
  split
  · exact refuse_after
  · exact refuse_after
  · simp only [Eff.wp_ite, Eff.wp_bind]
    split
    · exact refuse_after
    · apply userSliceOk_wp
      intro b
      split
      · exact copyToUser_wp refuse_after
      · exact refuse_after

theorem httpGet_after {p : Point} {url : Bytes} {buf len : ℕ} :
    (httpGet url buf len).wp e k (After k p) := by
  unfold httpGet
  rw [Eff.wp_bind, Eff.wp_ask]
  split
  · exact refuse_after
  · exact refuse_after
  · exact refuse_after
  · exact refuse_after
  · exact refuse_after
  · simp only [Eff.wp_ite, Eff.wp_bind]
    split
    · exact refuse_after
    · apply userSliceOk_wp
      intro b
      split
      · exact copyToUser_wp refuse_after
      · exact refuse_after

theorem readStdin_after {buf : ℕ} : (readStdin buf).wp e k (After k (.readStdin buf)) := by
  unfold readStdin
  rw [Eff.wp_bind, Eff.wp_get]
  split
  · simp only [Eff.wp_bind, Eff.wp_set, Eff.wp_ite, Eff.wp_pure]
    have hq : ∀ keys, Touch k { k with keys := keys } :=
      fun keys => .quiet ⟨rfl, rfl, rfl, rfl, rfl, rfl⟩
    split
    · exact .ret (hq _)
    · exact copyToUser_wp (Eff.wp_pure.mpr (.ret (hq _)))
  · exact Eff.wp_pure.mpr .pollThen

theorem stdinPolled_after {buf : ℕ} : (stdinPolled buf).wp e k (After k (.stdinPolled buf)) := by
  unfold stdinPolled
  simp only [Eff.wp_bind, Eff.wp_get, Eff.wp_ite, Eff.wp_pure]
  split
  · rename_i hother
    exact .blockStdin hother
  · exact .irqOpen trivial

theorem readPipe_after {id : PipeId} {buf n : ℕ} :
    (readPipe id buf n).wp e k (After k (.readPipe id buf n)) := by
  unfold readPipe wakePipe
  rw [Eff.wp_bind, Eff.wp_get]
  simp only [Eff.wp_bind, Eff.wp_set]
  split
  · rename_i got hr
    simp only [Eff.wp_bind]
    apply copyToUser_wp
    simp only [Eff.wp_bind, Eff.wp_get, Eff.wp_set, Eff.wp_pure]
    exact .read hr
  · rename_i hr
    rw [Eff.wp_pure, (Pipe.read_eof hr).1]
    exact .ret (.refl k)
  · rename_i hr
    simp only [Eff.wp_bind, Eff.wp_get, Eff.wp_set, Eff.wp_pure, (Pipe.read_wouldBlock hr).1]
    exact .blockRead hr

theorem writePipe_after {id : PipeId} {buf n : ℕ} :
    (writePipe id buf n).wp e k (After k (.writePipe id buf n)) := by
  unfold writePipe wakePipe copyFromUser
  simp only [Eff.wp_bind, Eff.wp_ite, Eff.wp_pure, Eff.wp_ask, Eff.wp_tell, Eff.wp_get, Eff.wp_set]
  split
  · exact .ret (.refl k)
  · split
    · rename_i got hw
      simp only [Eff.wp_bind, Eff.wp_get, Eff.wp_set, Eff.wp_pure]
      exact .write (by simp) hw
    · rename_i hw
      rw [Eff.wp_pure, (Pipe.write_broken hw).1]
      exact .ret (.refl k)
    · rename_i hw
      simp only [Eff.wp_bind, Eff.wp_get, Eff.wp_set, Eff.wp_pure, (Pipe.write_wouldBlock hw).1]
      exact .blockWrite (by simp) hw

theorem waitRound_after : waitRound.wp e k (After k .wait) := by
  unfold waitRound
  rw [Eff.wp_bind, Eff.wp_get]
  cases hr : tryReap k with
  | none => exact Eff.wp_abort.mpr trivial
  | some r =>
    unfold tryReap at hr
    cases hc : k.sched.current with
    | none =>
      simp only [hc, Option.some.injEq] at hr
      subst hr
      simp only [Eff.wp_bind, Eff.wp_set, Eff.wp_pure]
      exact .ret (.refl k)
    | some cur =>
      simp only [hc, Option.bind_eq_bind, Option.bind_eq_some_iff] at hr
      obtain ⟨p, hp, hr⟩ := hr
      cases hz : zombieChild k.sched p.pid with
      | some i =>
        simp only [hz, Option.bind_eq_some_iff, Option.pure_def, Option.some.injEq] at hr
        obtain ⟨z, hpz, rfl⟩ := hr
        simp only [Eff.wp_bind, Eff.wp_set, Eff.wp_pure]
        exact .ret (.reap hc hp hz hpz)
      | none =>
        simp only [hz, Option.pure_def, Option.some.injEq] at hr
        subst hr
        simp only [Eff.wp_bind, Eff.wp_set]
        cases hs : p.spawnedChild with
        | false => exact Eff.wp_pure.mpr (.ret (.refl k))
        | true => exact Eff.wp_pure.mpr (.blockWait hc hp hz hs)

theorem syscallDispatch_after {num a0 a1 a2 : UInt64} {n b0 b1 b2 : ℕ} :
    (syscallDispatch n b0 b1 b2).wp e k (After k (.dispatch num a0 a1 a2)) := by
  unfold syscallDispatch
  rw [Eff.wp_bind, Eff.wp_get, Eff.wp_bind, Eff.wp_ask]
  split
  · exact Eff.wp_pure.mpr .exit
  · exact sysWrite_after
  · exact ret_after sysOpen_touch
  · exact sysRead_after
  · exact ret_after sysClose_touch
  · exact ret_after sysReaddir_touch
  · exact ret_after sysSpawn_touch
  · exact Eff.wp_pure.mpr (.goto trivial)
  · exact ret_after sysKillCall_touch
  · exact refuse_after
  · exact ret_after sysPs_touch
  · exact ret_after sysUnlink_touch
  · exact ret_after (by simpa [sysSync] using .refl k)
  · exact ret_after sysSysinfo_touch
  · exact sysNetPing_after
  · exact sysHttpGet_after
  · exact ret_after onWin_touch
  · exact ret_after onWin_touch
  · exact ret_after onWin_touch
  · exact ret_after sysDate_touch
  · exact refuse_after
  · exact refuse_after
  · exact ret_after sysDisks_touch
  · exact refuse_after
  · exact ret_after sysPipe_touch
  · exact ret_after sysMkdir_touch
  · exact ret_after sysClipboard_touch
  · exact refuse_after

theorem runPoint_after {p : Point} {next : Next} {k' : Kernel}
    (h : (runPoint p).out e k = some (next, k')) : After k p next k' := by
  cases p with
  | dispatch num a0 a1 a2 => exact syscallDispatch_after next k' h
  | readStdin buf => exact readStdin_after next k' h
  | stdinPolled buf => exact stdinPolled_after next k' h
  | readPipe id buf n => exact readPipe_after next k' h
  | writePipe id buf n => exact writePipe_after next k' h
  | wait => exact waitRound_after next k' h
  | netPing name buf len => exact netPing_after next k' h
  | httpGet url buf len => exact httpGet_after next k' h

end Points

end CoeleoOs.Task
