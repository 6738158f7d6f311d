import CoeleoOs.Task.Orphans

/-!
# Calls that keep the windows

Three system calls work on the window table and one ends another process. Every
other stretch of a system call leaves the table as it was and ends no process:
it is `Steady`. The rules of `Within` carry this from the parts of a handler to
the whole.
-/

namespace CoeleoOs.Task
open CoeleoOs.Lib CoeleoOs.Lib.Eff CoeleoOs.Ui

structure Steady (k k' : Kernel) : Prop where
  win : k'.win = k.win
  noEnds : NoEnds k.sched k'.sched

instance : Std.Refl Steady := ⟨fun k => ⟨rfl, .refl k.sched⟩⟩

instance : IsTrans Kernel Steady :=
  ⟨fun _ _ _ h h' => ⟨h'.win.trans h.win, h.noEnds.trans h'.noEnds⟩⟩

section Parts

variable {k : Kernel}

theorem steady_wakePipe : Steady k { k with sched := k.sched.wakePipeLocked } :=
  ⟨rfl, wakePipeLocked_noEnds _⟩

theorem steady_pipes (ps : Pipes) : Steady k { k with pipes := ps } := ⟨rfl, .refl _⟩

theorem steady_keys (keys : Bytes) : Steady k { k with keys := keys } := ⟨rfl, .refl _⟩

theorem steady_removeSlot (i : Slot) : Steady k (removeSlot k i) := by
  refine ⟨?_, removeSlot_noEnds k i⟩
  unfold removeSlot
  split <;> rfl

theorem steady_spawn (load : Option (Image × ArgvSetup)) (path : Bytes)
    (parent stdinFd stdoutFd : ℕ) : Steady k (spawnWith k load path parent stdinFd stdoutFd).2 := by
  refine ⟨?_, spawnWith_noEnds k load path parent stdinFd stdoutFd⟩
  rcases spawnWith_cases k load path parent stdinFd stdoutFd with
    ⟨ps, -, h⟩ | ⟨slot, image, argv, fds, ps, -, -, h⟩ <;> rw [h]

theorem steady_withFds {α : Type} (f : FdTable → α × FdTable) : Steady k (k.withFds f).2 := by
  rcases withFds_cases k f with ⟨-, hw⟩ | ⟨i, p, -, hp, hw⟩
  · rw [hw]
    exact Std.Refl.refl k
  · rw [hw]
    refine ⟨rfl, noEnds_setProc (fun q hq hz => ?_) (by simp [hp])⟩
    obtain rfl := Option.some.inj (hp.symm.trans hq)
    exact ⟨hz, rfl, rfl⟩

end Parts

section Access

variable {σ : Type} {R : σ → σ → Prop} [Std.Refl R]

theorem userSliceOk_within (ptr len : ℕ) : Within R (userSliceOk ptr len : KernM σ Bool) :=
  fun _ s => userSliceOk_wp fun _ => Std.Refl.refl s

theorem copyFromUser_within (ptr len cap : ℕ) :
    Within R (copyFromUser ptr len cap : KernM σ (Option Bytes)) :=
  fun _ s => copyFromUser_wp fun _ => Std.Refl.refl s

theorem copyToUser_within (ptr : ℕ) (src : Bytes) :
    Within R (copyToUser ptr src : KernM σ (Option Unit)) :=
  fun _ s => copyToUser_wp (Std.Refl.refl s)

theorem copyPath_within (ptr len : ℕ) : Within R (copyPath ptr len : KernM σ (Option Bytes)) :=
  fun _ s => copyPath_wp fun _ => Std.Refl.refl s

end Access

section Descriptors

theorem withFds_steady {α : Type} (f : FdTable → α × FdTable) : Within Steady (withFds f) :=
  fun _ _ => withFds_wp (steady_withFds f)

theorem getFd_steady (fd : ℕ) : Within Steady (getFd fd) := fun _ k => getFd_wp (Std.Refl.refl k)

theorem wakePipe_steady : Within Steady wakePipe := within_get fun _ _ => wp_set.mpr steady_wakePipe

theorem dropFd_steady (of : OpenFd) : Within Steady (dropFd of) :=
  within_get fun _ _ => wp_set.mpr (steady_pipes _)

theorem allocFd_steady (of : OpenFd) : Within Steady (allocFd of) :=
  (withFds_steady _).bind fun _ => .pure _

theorem takeFd_steady (fd : ℕ) : Within Steady (takeFd fd) := by
  refine (withFds_steady _).bind fun r => ?_
  split
  · exact dropFd_steady _
  · exact .pure _

end Descriptors

section Files

theorem sysOpen_steady (pathPtr pathLen flags : ℕ) :
    Within Steady (sysOpen pathPtr pathLen flags) := by
  refine (copyPath_within _ _).bind fun path => ?_
  cases path with
  | none => exact .pure _
  | some path =>
    refine .ite (.pure _) (Within.ask.bind fun e => ?_)
    split
    · exact .ite (.pure _) (allocFd_steady _)
    · exact .ite (.pure _) (allocFd_steady _)
    · exact .ite (.ite (.pure _) (allocFd_steady _)) (.pure _)
    · exact .pure _

theorem readFile_steady (fd buf n : ℕ) : Within Steady (readFile fd buf n) := by
  refine .ite ((userSliceOk_within _ _).bind fun b => .ite ?checked (.pure _)) ?unchecked
  all_goals
    refine (getFd_steady fd).bind fun of => ?_
    split
    · refine .ite (.pure _) (Within.ask.bind fun e => ?_)
      split
      · refine (copyToUser_within _ _).bind fun r => ?_
        cases r with
        | none => exact .pure _
        | some _ => exact (withFds_steady _).bind fun _ => .pure _
      · exact .pure _
    · exact .pure _

theorem writeConsole_steady (buf n : ℕ) : Within Steady (writeConsole buf n) := by
  refine (copyFromUser_within _ _ _).bind fun io => ?_
  cases io <;> exact .pure _

theorem writeFile_steady (fd buf n : ℕ) : Within Steady (writeFile fd buf n) := by
  refine (copyFromUser_within _ _ _).bind fun io => ?_
  cases io with
  | none => exact .pure _
  | some io =>
    refine (getFd_steady fd).bind fun of => ?_
    split
    · refine Within.ask.bind fun e => ?_
      split
      · exact (withFds_steady _).bind fun _ => .pure _
      · exact .pure _
    · exact .pure _

theorem sysClose_steady (fd : ℕ) : Within Steady (sysClose fd) := by
  refine .ite (.pure _) ((withFds_steady _).bind fun r => ?_)
  split
  · exact (dropFd_steady _).bind fun _ => wakePipe_steady.bind fun _ => .pure _
  · exact .pure _

theorem sysReaddir_steady (fd buf len : ℕ) : Within Steady (sysReaddir fd buf len) := by
  refine .ite (.pure _) ((userSliceOk_within _ _).bind fun b => .ite ?_ (.pure _))
  refine (getFd_steady fd).bind fun of => ?_
  split
  · split
    · refine (withFds_steady _).bind fun _ => (copyToUser_within _ _).bind fun r => ?_
      cases r <;> exact .pure _
    · exact .pure _
  · exact .pure _

theorem sysUnlink_steady (pathPtr pathLen : ℕ) : Within Steady (sysUnlink pathPtr pathLen) := by
  refine (copyPath_within _ _).bind fun path => ?_
  cases path with
  | none => exact .pure _
  | some path => exact Within.ask.bind fun _ => .pure _

theorem sysMkdir_steady (pathPtr pathLen : ℕ) : Within Steady (sysMkdir pathPtr pathLen) := by
  refine (copyPath_within _ _).bind fun path => ?_
  cases path with
  | none => exact .pure _
  | some path => exact Within.ask.bind fun _ => .pure _

theorem sysSync_steady : Within Steady sysSync := Within.ask.bind fun _ => .pure _

theorem report_steady {ptr : ℕ} {src : Bytes} {v : ℕ} : Within Steady (do
    let some _ ← copyToUser ptr src | return err
    return v : KernM Kernel ℕ) := by
  refine (copyToUser_within _ _).bind fun r => ?_
  cases r <;> exact .pure _

theorem sysSysinfo_steady (kind buf len : ℕ) : Within Steady (sysSysinfo kind buf len) := by
  refine .ite (.pure _) ((userSliceOk_within _ _).bind fun b =>
    .ite (Within.ask.bind fun e => ?_) (.pure _))
  extract_lets jp
  have hjp : ∀ out, Within Steady (jp out) := fun out => by
    cases out with
    | none => exact .pure _
    | some out => exact report_steady
  refine .ite (hjp (some e.memText)) (.ite (hjp (some e.diskText)) (.ite ?_ (hjp none)))
  exact (copyFromUser_within _ _ _).bind fun tmp => hjp (tmp.map e.installText)

theorem sysDate_steady (buf len : ℕ) : Within Steady (sysDate buf len) := by
  refine .ite (.pure _) ((userSliceOk_within _ _).bind fun b =>
    .ite (Within.ask.bind fun e => ?_) (.pure _))
  split
  · exact report_steady
  · exact .pure _

theorem sysDisks_steady (buf len : ℕ) : Within Steady (sysDisks buf len) :=
  .ite (.pure _) ((userSliceOk_within _ _).bind fun _ => .ite
    (Within.ask.bind fun _ => .ite (.pure _) report_steady) (.pure _))

end Files

section Processes

theorem sysPipe_steady (buf : ℕ) : Within Steady (sysPipe buf) := by
  refine (userSliceOk_within _ _).bind fun b => .ite (within_get fun e k => ?_) (.pure _)
  split
  · refine wp_set_within (steady_pipes _) ((withFds_steady _).bind fun pair => ?_)
    split
    · refine (copyToUser_within _ _).bind fun r => ?_
      cases r with
      | none => exact (takeFd_steady _).bind fun _ => (takeFd_steady _).bind fun _ => .pure _
      | some _ => exact .pure _
    · exact (dropFd_steady _).bind fun _ => (dropFd_steady _).bind fun _ => .pure _
  · exact Within.pure _ e k

theorem sysSpawn_steady (argsPtr : ℕ) : Within Steady (sysSpawn argsPtr) := by
  refine (userSliceOk_within _ _).bind fun b =>
    .ite ((copyFromUser_within _ _ _).bind fun raw => ?_) (.pure _)
  cases raw with
  | none => exact .pure _
  | some raw =>
    refine (copyPath_within _ _).bind fun path => ?_
    cases path with
    | none => exact .pure _
    | some path =>
      dsimp -zeta only
      extract_lets jp
      have hjp : ∀ blob, Within Steady (jp blob) := fun blob => by
        cases blob with
        | none => exact .pure _
        | some blob =>
          refine within_get fun e k => ?_
          rw [wp_bind, wp_ask]
          exact wp_set_within (steady_spawn _ _ _ _ _) (.pure _)
      refine .ite (hjp (some [])) (.ite (hjp none) ((userSliceOk_within _ _).bind fun _ =>
        .ite ?_ (hjp none)))
      exact (copyFromUser_within _ _ _).bind hjp

theorem sysPs_steady (buf len : ℕ) : Within Steady (sysPs buf len) :=
  .ite (.pure _) ((userSliceOk_within _ _).bind fun _ =>
    .ite (within_get fun e k => report_steady e k) (.pure _))

theorem sysClipboard_steady (op ptr len : ℕ) : Within Steady (sysClipboard op ptr len) := by
  refine within_get fun e k => ?_
  have hset : ∀ buf : Option Bytes, (do
      Eff.set { k with clipboard := buf.getD [] }
      return 0 : KernM Kernel ℕ).wp e k fun _ => Steady k :=
    fun buf => wp_set_within ⟨rfl, .refl _⟩ (.pure _)
  simp only [wp_ite]
  split
  · split
    · exact Within.pure _ e k
    · split
      · exact wp_within (copyToUser_within _ _ e k) fun _ => .pure _
      · exact Within.pure _ e k
  · split
    · split
      · rw [wp_bind]
        exact copyFromUser_wp hset
      · exact hset (some [])
    · exact Within.pure _ e k

theorem waitRound_steady : Within Steady waitRound := by
  refine within_get fun e k => ?_
  cases hr : tryReap k with
  | none => exact Within.abort e k
  | some r =>
    have hreap : Steady k r.2 := by
      unfold tryReap at hr
      cases hc : k.sched.current with
      | none =>
        simp only [hc, Option.some.injEq] at hr
        subst hr
        exact Std.Refl.refl k
      | some cur =>
        simp only [hc, Option.bind_eq_bind, Option.bind_eq_some_iff] at hr
        obtain ⟨p, hp, hr⟩ := hr
        split at hr
        · simp only [Option.bind_eq_some_iff, Option.pure_def, Option.some.injEq] at hr
          obtain ⟨z, hz, rfl⟩ := hr
          exact steady_removeSlot _
        · obtain rfl := Option.some.inj hr
          exact Std.Refl.refl k
    refine wp_set_within hreap ?_
    split <;> exact .pure _

end Processes

section Streams

theorem ret_steady {m : KernM Kernel ℕ} (h : Within Steady m) :
    Within Steady (do return Next.ret (← m)) :=
  h.bind fun _ => .pure _

theorem sysRead_steady (fd buf len : ℕ) : Within Steady (sysRead fd buf len) := by
  refine .ite (.pure _) ((getFd_steady fd).bind fun of => ?_)
  split
  · exact .ite (.pure _) ((userSliceOk_within _ _).bind fun _ => .ite (.pure _) (.pure _))
  · exact ret_steady (readFile_steady _ _ _)
  · exact .ite (.pure _) ((userSliceOk_within _ _).bind fun _ => .ite (.pure _) (.pure _))
  · exact .pure _

theorem sysWrite_steady (fd buf len : ℕ) : Within Steady (sysWrite fd buf len) := by
  refine .ite (.pure _) ((userSliceOk_within _ _).bind fun _ =>
    .ite ((getFd_steady fd).bind fun of => ?_) (.pure _))
  split
  · exact ret_steady (writeConsole_steady _ _)
  · exact ret_steady (writeConsole_steady _ _)
  · exact ret_steady (writeFile_steady _ _ _)
  · exact .ite (.pure _) (.pure _)
  · exact .pure _

theorem readStdin_steady (buf : ℕ) : Within Steady (readStdin buf) := by
  refine within_get fun e k => ?_
  split
  · refine wp_set_within (steady_keys _) (.ite (.pure _) ((copyToUser_within _ _).bind fun r => ?_))
    cases r <;> exact .pure _
  · exact Within.pure _ e k

theorem stdinPolled_steady (buf : ℕ) : Within Steady (stdinPolled buf) :=
  within_get fun e k => Within.ite (.pure _) (.pure _) e k

theorem readPipe_steady (id : PipeId) (buf n : ℕ) : Within Steady (readPipe id buf n) := by
  refine within_get fun e k => ?_
  generalize Pipe.read k.pipes id n = r
  refine wp_set_within (steady_pipes _) ?_
  split
  · refine (copyToUser_within _ _).bind fun r => ?_
    cases r with
    | none => exact .pure _
    | some _ => exact wakePipe_steady.bind fun _ => .pure _
  · exact .pure _
  · exact wakePipe_steady.bind fun _ => .pure _

theorem writePipe_steady (id : PipeId) (buf n : ℕ) : Within Steady (writePipe id buf n) := by
  refine (copyFromUser_within _ _ _).bind fun io => ?_
  cases io with
  | none => exact .pure _
  | some io =>
    refine within_get fun e k => ?_
    generalize Pipe.write k.pipes id io = r
    refine wp_set_within (steady_pipes _) ?_
    split
    · exact wakePipe_steady.bind fun _ => .pure _
    · exact .pure _
    · exact wakePipe_steady.bind fun _ => .pure _

theorem sysNetPing_steady (argsPtr : ℕ) : Within Steady (sysNetPing argsPtr) := by
  refine (userSliceOk_within _ _).bind fun b =>
    .ite ((copyFromUser_within _ _ _).bind fun raw => ?_) (.pure _)
  cases raw with
  | none => exact .pure _
  | some raw =>
    refine .ite (.pure _) ((userSliceOk_within _ _).bind fun _ =>
      .ite ((copyFromUser_within _ _ _).bind fun name => ?_) (.pure _))
    cases name with
    | none => exact .pure _
    | some name => exact .ite (.pure _) (.pure _)

theorem sysHttpGet_steady (argsPtr : ℕ) : Within Steady (sysHttpGet argsPtr) := by
  refine (userSliceOk_within _ _).bind fun b =>
    .ite ((copyFromUser_within _ _ _).bind fun raw => ?_) (.pure _)
  cases raw with
  | none => exact .pure _
  | some raw =>
    refine .ite (.pure _) ((userSliceOk_within _ _).bind fun _ =>
      .ite ((copyFromUser_within _ _ _).bind fun url => ?_) (.pure _))
    cases url with
    | none => exact .pure _
    | some url => exact .ite (.pure _) (.pure _)

theorem netPing_steady (name : Bytes) (buf len : ℕ) : Within Steady (netPing name buf len) := by
  refine Within.ask.bind fun e => ?_
  split
  · exact .pure _
  · exact .pure _
  · refine .ite (.pure _) ((userSliceOk_within _ _).bind fun _ =>
      .ite ((copyToUser_within _ _).bind fun r => ?_) (.pure _))
    cases r <;> exact .pure _

theorem httpGet_steady (url : Bytes) (buf len : ℕ) : Within Steady (httpGet url buf len) := by
  refine Within.ask.bind fun e => ?_
  split
  · exact .pure _
  · exact .pure _
  · exact .pure _
  · exact .pure _
  · exact .pure _
  · refine .ite (.pure _) ((userSliceOk_within _ _).bind fun _ =>
      .ite ((copyToUser_within _ _).bind fun r => ?_) (.pure _))
    cases r <;> exact .pure _

end Streams

def Point.unsteady : Point → Bool
  | .dispatch num _ _ _ => num = 9 ∨ num = 17 ∨ num = 18 ∨ num = 19
  | _ => false

theorem syscallDispatch_steady {num a0 a1 a2 : ℕ} (h9 : num ≠ 9) (h17 : num ≠ 17) (h18 : num ≠ 18)
    (h19 : num ≠ 19) : Within Steady (syscallDispatch num a0 a1 a2) := by
  refine within_get fun e k => wp_within (Within.ask e k) fun e' => ?_
  split
  · exact .pure _
  · exact sysWrite_steady _ _ _
  · exact ret_steady (sysOpen_steady _ _ _)
  · exact sysRead_steady _ _ _
  · exact ret_steady (sysClose_steady _)
  · exact ret_steady (sysReaddir_steady _ _ _)
  · exact ret_steady (sysSpawn_steady _)
  · exact .pure _
  · exact absurd rfl h9
  · exact .pure _
  · exact ret_steady (sysPs_steady _ _)
  · exact ret_steady (sysUnlink_steady _ _)
  · exact ret_steady sysSync_steady
  · exact ret_steady (sysSysinfo_steady _ _ _)
  · exact sysNetPing_steady _
  · exact sysHttpGet_steady _
  · exact absurd rfl h17
  · exact absurd rfl h18
  · exact absurd rfl h19
  · exact ret_steady (sysDate_steady _ _)
  · exact .pure _
  · exact .pure _
  · exact ret_steady (sysDisks_steady _ _)
  · exact .pure _
  · exact ret_steady (sysPipe_steady _)
  · exact ret_steady (sysMkdir_steady _ _)
  · exact ret_steady (sysClipboard_steady _ _ _)
  · exact .pure _

theorem runPoint_steady {p : Point} (h : p.unsteady = false) : Within Steady (runPoint p) := by
  cases p with
  | dispatch num a0 a1 a2 =>
    have hne : ∀ n : UInt64, num ≠ n → num.toNat ≠ n.toNat :=
      fun n hn he => hn (UInt64.toNat.inj he)
    simp only [Point.unsteady, decide_eq_false_iff_not, not_or] at h
    exact syscallDispatch_steady (hne 9 h.1) (hne 17 h.2.1) (hne 18 h.2.2.1) (hne 19 h.2.2.2)
  | readStdin buf => exact readStdin_steady buf
  | stdinPolled buf => exact stdinPolled_steady buf
  | readPipe id buf n => exact readPipe_steady id buf n
  | writePipe id buf n => exact writePipe_steady id buf n
  | wait => exact waitRound_steady
  | netPing name buf len => exact netPing_steady name buf len
  | httpGet url buf len => exact httpGet_steady url buf len

def Next.stays : Next → Prop
  | .exit _ => False
  | _ => True

section Returns

theorem ret_stays {m : KernM Kernel ℕ} : Yields Next.stays (do return Next.ret (← m)) :=
  .bind fun _ => .pure trivial

theorem sysRead_stays (fd buf len : ℕ) : Yields Next.stays (sysRead fd buf len) := by
  refine .ite (.pure trivial) (.bind fun of => ?_)
  split
  · exact .ite (.pure trivial) (.bind fun _ => .ite (.pure trivial) (.pure trivial))
  · exact ret_stays
  · exact .ite (.pure trivial) (.bind fun _ => .ite (.pure trivial) (.pure trivial))
  · exact .pure trivial

theorem sysWrite_stays (fd buf len : ℕ) : Yields Next.stays (sysWrite fd buf len) := by
  refine .ite (.pure trivial) (.bind fun _ => .ite (.bind fun of => ?_) (.pure trivial))
  split
  · exact ret_stays
  · exact ret_stays
  · exact ret_stays
  · exact .ite (.pure trivial) (.pure trivial)
  · exact .pure trivial

theorem sysNetPing_stays (argsPtr : ℕ) : Yields Next.stays (sysNetPing argsPtr) := by
  refine .bind fun _ => .ite (.bind fun raw => ?_) (.pure trivial)
  cases raw with
  | none => exact .pure trivial
  | some raw =>
    refine .ite (.pure trivial) (.bind fun _ => .ite (.bind fun name => ?_) (.pure trivial))
    cases name with
    | none => exact .pure trivial
    | some name => exact .ite (.pure trivial) (.pure trivial)

theorem sysHttpGet_stays (argsPtr : ℕ) : Yields Next.stays (sysHttpGet argsPtr) := by
  refine .bind fun _ => .ite (.bind fun raw => ?_) (.pure trivial)
  cases raw with
  | none => exact .pure trivial
  | some raw =>
    refine .ite (.pure trivial) (.bind fun _ => .ite (.bind fun url => ?_) (.pure trivial))
    cases url with
    | none => exact .pure trivial
    | some url => exact .ite (.pure trivial) (.pure trivial)

theorem syscallDispatch_stays {num a0 a1 a2 : ℕ} (h1 : num ≠ 1) :
    Yields Next.stays (syscallDispatch num a0 a1 a2) := by
  refine .bind fun k => .bind fun e => ?_
  split
  · exact absurd rfl h1
  · exact sysWrite_stays _ _ _
  · exact ret_stays
  · exact sysRead_stays _ _ _
  · exact ret_stays
  · exact ret_stays
  · exact ret_stays
  · exact .pure trivial
  · exact ret_stays
  · exact .pure trivial
  · exact ret_stays
  · exact ret_stays
  · exact ret_stays
  · exact ret_stays
  · exact sysNetPing_stays _
  · exact sysHttpGet_stays _
  · exact ret_stays
  · exact ret_stays
  · exact ret_stays
  · exact ret_stays
  · exact .pure trivial
  · exact .pure trivial
  · exact ret_stays
  · exact .pure trivial
  · exact ret_stays
  · exact ret_stays
  · exact ret_stays
  · exact .pure trivial

end Returns

end CoeleoOs.Task
