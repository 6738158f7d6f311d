import CoeleoOs.Task.Switching

/-!
# Zombies and their parents

A zombie leaves the table when its parent waits for it, or through
`reap_orphans` when its parent is 0. Nothing in the kernel gives the children of
an ending process another parent, so a zombie can be reaped later as long as no
process ends before its children have been reaped.
-/

namespace CoeleoOs.Task
open CoeleoOs.Lib CoeleoOs.Lib.Machine

def Sched.live (s : Sched) (pid : ℕ) : Bool :=
  (List.finRange maxProc).any fun i => (s.procs i).any fun p => p.pid = pid ∧ p.state ≠ .zombie

def Sched.liveBeside (s : Sched) (slot : Slot) (pid : ℕ) : Bool :=
  (List.finRange maxProc).any fun i =>
    i ≠ slot && (s.procs i).any fun p => p.pid = pid ∧ p.state ≠ .zombie

/-- Every zombie has parent 0 or a live parent. -/
def Sched.Reapable (s : Sched) : Prop :=
  ∀ i p, s.procs i = some p → p.state = .zombie → p.parent = 0 ∨ s.live p.parent = true

/-- A process that ends in the step has parent 0 or another live process as its parent,
and no zombie has it as its parent. -/
def endsReaped (t : Trans Sys Act) : Bool :=
  (List.finRange maxProc).all fun i =>
    match t.pre.k.sched.procs i, t.post.k.sched.procs i with
    | some p, some p' => p.state = .zombie || p'.state ≠ .zombie ||
        ((p.parent = 0 || t.pre.k.sched.liveBeside i p.parent) &&
          (zombieChild t.pre.k.sched p.pid).isNone)
    | _, _ => true

def EndsAt (v : Slot) (s s' : Sched) : Prop :=
  ∀ i p', s'.procs i = some p' → p'.state = .zombie →
    ∃ p, s.procs i = some p ∧ p'.pid = p.pid ∧ p'.parent = p.parent ∧ (p.state = .zombie ∨ i = v)

def NoEnds (s s' : Sched) : Prop :=
  ∀ i p', s'.procs i = some p' → p'.state = .zombie →
    ∃ p, s.procs i = some p ∧ p'.pid = p.pid ∧ p'.parent = p.parent ∧ p.state = .zombie

section Ends

variable {s s' s'' : Sched} {v : Slot}

theorem NoEnds.refl (s : Sched) : NoEnds s s := fun _ p hp hz => ⟨p, hp, rfl, rfl, hz⟩

theorem NoEnds.endsAt (h : NoEnds s s') : EndsAt v s s' := by
  intro i p' hp' hz
  obtain ⟨p, hp, hpid, hpar, hst⟩ := h i p' hp' hz
  exact ⟨p, hp, hpid, hpar, Or.inl hst⟩

theorem EndsAt.trans_noEnds (h : EndsAt v s s') (h' : NoEnds s' s'') : EndsAt v s s'' := by
  intro i p' hp' hz
  obtain ⟨q, hq, hpid, hpar, hqz⟩ := h' i p' hp' hz
  obtain ⟨p, hp, hpid', hpar', hst⟩ := h i q hq hqz
  exact ⟨p, hp, hpid.trans hpid', hpar.trans hpar', hst⟩

theorem NoEnds.trans (h : NoEnds s s') (h' : NoEnds s' s'') : NoEnds s s'' := by
  intro i p' hp' hz
  obtain ⟨q, hq, hpid, hpar, hqz⟩ := h' i p' hp' hz
  obtain ⟨p, hp, hpid', hpar', hst⟩ := h i q hq hqz
  exact ⟨p, hp, hpid.trans hpid', hpar.trans hpar', hst⟩

theorem noEnds_map {f : Pcb → Pcb} (hf : ∀ p, (f p).state = .zombie → f p = p) :
    NoEnds s (s.mapProcs f) := by
  intro i p' hp' hz
  simp only [Sched.mapProcs_procs, Option.map_eq_some_iff] at hp'
  obtain ⟨p, hp, rfl⟩ := hp'
  have he := hf p hz
  rw [he] at hz ⊢
  exact ⟨p, hp, rfl, rfl, hz⟩

theorem noEnds_setProc {i : Slot} {q : Pcb} (hq : ∀ p, s.procs i = some p → q.state = .zombie →
    p.state = .zombie ∧ q.pid = p.pid ∧ q.parent = p.parent)
    (hfree : s.procs i = none → q.state ≠ .zombie) : NoEnds s (s.setProc i q) := by
  intro j p' hp' hz
  by_cases hj : j = i
  · subst hj
    obtain rfl := Option.some.inj ((Sched.setProc_self _ _ _).symm.trans hp')
    cases hp : s.procs j with
    | none => exact absurd hz (hfree hp)
    | some p =>
      obtain ⟨hst, hpid, hpar⟩ := hq p hp hz
      exact ⟨p, rfl, hpid, hpar, hst⟩
  · rw [Sched.setProc_of_ne _ hj] at hp'
    exact ⟨p', hp', rfl, rfl, hz⟩

theorem wakeStdin_noEnds (s : Sched) : NoEnds s s.wakeStdin :=
  noEnds_map fun p hz => by split at hz <;> simp_all

theorem wakePipeLocked_noEnds (s : Sched) : NoEnds s s.wakePipeLocked :=
  noEnds_map fun p hz => by split at hz <;> simp_all

theorem wakeParent_noEnds (s : Sched) (pid : ℕ) : NoEnds s (s.wakeParent pid) :=
  noEnds_map fun p hz => by split at hz <;> simp_all

theorem wakeParentOfSlot_noEnds (s : Sched) (i : Slot) : NoEnds s (s.wakeParentOfSlot i) := by
  unfold Sched.wakeParentOfSlot
  simp only
  split
  · exact .refl s
  · exact wakeParent_noEnds s _

theorem markParent_noEnds (s : Sched) (parent pid : ℕ) : NoEnds s (s.markParent parent pid) := by
  intro i p' hp' hz
  rcases Sched.markParent_procs s parent pid i with h | ⟨p, hp, -, -, h⟩
  · exact ⟨p', h ▸ hp', rfl, rfl, hz⟩
  · obtain rfl := Option.some.inj (h.symm.trans hp')
    exact ⟨p, hp, rfl, rfl, hz⟩

theorem saveOutgoing_noEnds (k : Kernel) (slot : Slot) : NoEnds k.sched (saveOutgoing k slot) := by
  unfold saveOutgoing
  split
  · exact .refl _
  · split
    · split
      · rename_i p hp
        refine noEnds_setProc (fun q hq hz => ?_) (by simp [hp])
        obtain rfl := Option.some.inj (hp.symm.trans hq)
        simp only at hz
        split at hz
        · simp at hz
        · exact ⟨hz, rfl, rfl⟩
      · exact .refl _
    · exact .refl _

theorem enter_noEnds (s : Sched) (slot : Slot) (p : Pcb) : NoEnds s (s.enter slot p) := by
  refine noEnds_setProc (q := { p with state := .running, kcontValid := false }) ?_ ?_ <;> simp

end Ends

section Functions

variable {k k' : Kernel}

theorem makeZombieLocked_endsAt (k : Kernel) (v : Slot) (fault : Bool) :
    EndsAt v k.sched (makeZombieLocked k v fault).sched := by
  unfold makeZombieLocked
  split
  · rename_i p hp
    refine EndsAt.trans_noEnds (fun i p' hp' hz => ?_) (wakePipeLocked_noEnds _)
    by_cases hi : i = v
    · subst hi
      obtain rfl := Option.some.inj ((Sched.setProc_self _ _ _).symm.trans hp')
      exact ⟨p, hp, rfl, rfl, Or.inr rfl⟩
    · rw [Sched.setProc_of_ne _ hi] at hp'
      exact ⟨p', hp', rfl, rfl, Or.inl hz⟩
  · exact (wakePipeLocked_noEnds _).endsAt

theorem removeSlot_noEnds (k : Kernel) (i : Slot) : NoEnds k.sched (removeSlot k i).sched := by
  intro j p' hp' hz
  rw [removeSlot_procs] at hp'
  split at hp'
  · simp at hp'
  · exact ⟨p', hp', rfl, rfl, hz⟩

theorem reapOrphans_noEnds (k : Kernel) : NoEnds k.sched (reapOrphans k).sched := by
  intro j p' hp' hz
  rcases reapLoop_procs maxProc k j with h | ⟨-, -, -, -, h⟩
  · exact ⟨p', h ▸ hp', rfl, rfl, hz⟩
  · exact absurd (h.symm.trans hp') (by simp)

theorem spawnWith_noEnds (k : Kernel) (load : Option (Image × ArgvSetup)) (path : Bytes)
    (parent stdinFd stdoutFd : ℕ) :
    NoEnds k.sched (spawnWith k load path parent stdinFd stdoutFd).2.sched := by
  rcases spawnWith_cases k load path parent stdinFd stdoutFd with
    ⟨ps, -, h⟩ | ⟨slot, image, argv, fds, ps, hfree, -, h⟩
  · rw [h]
    exact .refl k.sched
  · rw [h]
    refine NoEnds.trans ?_ (markParent_noEnds _ _ _)
    exact noEnds_setProc (s := { k.sched with nextPid := _ })
      (fun p hp _ => absurd (hfree.symm.trans hp) (by simp)) (by simp [newPcb])

theorem Calm.endsAt {moves : Bool} (h : Calm k moves k') : ∃ v, EndsAt v k.sched k'.sched := by
  have hnone : ∀ {s' : Sched}, NoEnds k.sched s' → ∃ v, EndsAt v k.sched s' :=
    fun hn => ⟨0, hn.endsAt⟩
  cases h with
  | touch ht =>
    cases ht with
    | quiet hq => exact hnone (hq.sched ▸ .refl k.sched)
    | @fds i p t _ hp _ | @pipe i p t _ _ _ hp _ _ =>
      refine hnone (noEnds_setProc (fun q hq hz => ?_) (by simp [hp]))
      obtain rfl := Option.some.inj (hp.symm.trans hq)
      exact ⟨hz, rfl, rfl⟩
    | noPipe _ => exact hnone (.refl k.sched)
    | close _ hp _ =>
      refine hnone (NoEnds.trans (noEnds_setProc (fun q hq hz => ?_) (by simp [hp]))
        (wakePipeLocked_noEnds _))
      obtain rfl := Option.some.inj (hp.symm.trans hq)
      exact ⟨hz, rfl, rfl⟩
    | spawn => exact hnone (spawnWith_noEnds k _ _ _ _ _)
    | @kill _ v _ _ _ _ _ _ _ _ => exact ⟨v, makeZombieLocked_endsAt k v false⟩
    | @reap _ i _ _ _ _ _ _ => exact hnone (removeSlot_noEnds k i)
  | wake | read _ | write _ => exact hnone (wakePipeLocked_noEnds _)
  | orphans => exact hnone (reapOrphans_noEnds k)
  | key b =>
    rcases enqueueOrKill_cases k b with ⟨v, -, -, he⟩ | ⟨-, he⟩
    · rw [he]
      exact ⟨v, (makeZombieLocked_endsAt k v false).trans_noEnds (wakeParent_noEnds _ _)⟩
    · rw [he]
      exact hnone (wakeStdin_noEnds _)
  | launch load path => exact hnone (spawnWith_noEnds k _ _ _ _ _)

theorem step_endsAt {s s' : Sys} {a : Act} (h : s.step a = some s') :
    ∃ v, EndsAt v s.k.sched s'.k.sched := by
  have hnone : ∀ {s'' : Sched}, NoEnds s.k.sched s'' → ∃ v, EndsAt v s.k.sched s'' :=
    fun hn => ⟨0, hn.endsAt⟩
  cases step_cases h with
  | calm hc _ | halt hc => exact hc.endsAt
  | @entry rsp _ _ _ _ _ _ _ hc _ =>
    rcases hc with rfl | rfl
    · exact hnone (.refl _)
    · exact hnone (reapOrphans_noEnds { s.k with userRsp := rsp })
  | ret _ ht => exact (Calm.touch ht).endsAt
  | read _ hr => exact (Calm.read hr).endsAt
  | write _ _ hw => exact (Calm.write hw).endsAt
  | @block _ _ st _ k₁ _ _ ho hy =>
    obtain ⟨hk, hst⟩ := (runPoint_after ho).block_kernel
    obtain ⟨i, p, -, hp, rfl⟩ := yieldBlock_some hy
    have hblock : NoEnds k₁.sched (k₁.sched.setProc i { p with state := st, kcontValid := true }) :=
      noEnds_setProc (fun q _ hz => absurd hz hst) (by simp [hp])
    rcases hk with rfl | rfl
    · exact hnone hblock
    · exact hnone (NoEnds.trans (wakePipeLocked_noEnds _) hblock)
  | @exit _ o _ hr =>
    obtain ⟨i, p, k₀, -, -, hq, hcase⟩ := userExit_some hr
    have hz := makeZombieLocked_endsAt k₀ i (decide (o = Outcome.fault))
    rw [hq.sched] at hz
    refine ⟨i, ?_⟩
    rcases hcase with ⟨-, rfl⟩ | ⟨-, rfl⟩
    · intro j p' hp' _
      exact absurd ((unloadAll_procs _ j).symm.trans hp') (by simp)
    · exact hz.trans_noEnds (wakeParentOfSlot_noEnds _ i)
  | drop _ _ => exact hnone (.refl _)
  | pick _ _ hr =>
    obtain ⟨p, -, hk, -⟩ := switchTo_some hr
    rw [resumed_k, hk]
    exact hnone (NoEnds.trans (saveOutgoing_noEnds _ _) (enter_noEnds _ _ _))
  | preempt _ ht =>
    obtain ⟨cur, n, q, p, -, hq, -, -, -, -, hk, -⟩ := timerFromUser_switch ht
    rw [resumed_k, hk]
    refine hnone (NoEnds.trans (noEnds_setProc (fun _ _ hz => ?_) (by simp [hq]))
      (enter_noEnds _ _ _))
    simp at hz
  | start _ hr =>
    rcases runWith_some hr with rfl | ⟨slot, av, hfree, rfl⟩
    · exact hnone (.refl _)
    · refine hnone fun i p' hp' hz => ?_
      exact noEnds_setProc (s := { s.k.sched with
        exclusive := _, nextPid := 1, initPid := 0, current := none })
        (fun p hp _ => absurd (hfree.symm.trans hp) (by simp)) (by simp) i p' hp' hz

def Persists (k k' : Kernel) : Prop :=
  (∀ i, k'.sched.procs i = none) ∨ ∀ i p, k.sched.procs i = some p → p.state ≠ .zombie →
    ∃ p', k'.sched.procs i = some p' ∧ p'.pid = p.pid

theorem Frame.persists (h : Frame k k') : Persists k k' := by
  refine Or.inr fun i p hp hz => ?_
  rcases h.slot i with ⟨hq, hq', he, -⟩ | ⟨hq, hqz, -, -⟩ | ⟨hn, -⟩ | ⟨hn, -⟩
  · obtain rfl := Option.some.inj (hp.symm.trans hq)
    exact ⟨_, hq', he.pid⟩
  · obtain rfl := Option.some.inj (hp.symm.trans hq)
    exact absurd hqz hz
  · simp [hp] at hn
  · simp [hp] at hn

theorem persists_setProc {s : Sched} {i j : Slot} {p q : Pcb} {p₀ : Pcb}
    (hi : s.procs i = some p) (hpid : q.pid = p.pid) (hj : s.procs j = some p₀) :
    ∃ p', (s.setProc i q).procs j = some p' ∧ p'.pid = p₀.pid := by
  by_cases hji : j = i
  · subst hji
    obtain rfl := Option.some.inj (hi.symm.trans hj)
    exact ⟨q, Sched.setProc_self _ _ _, hpid⟩
  · exact ⟨p₀, (Sched.setProc_of_ne _ hji _).trans hj, rfl⟩

theorem step_persists {s s' : Sys} {a : Act} (h : s.step a = some s') : Persists s.k s'.k := by
  cases step_cases h with
  | calm hc _ | halt hc => exact hc.frame.persists
  | entry _ hc _ => exact hc.calm.frame.persists
  | ret _ ht => exact ht.frame.persists
  | read _ hr => exact (Calm.read hr).frame.persists
  | write _ _ hw => exact (Calm.write hw).frame.persists
  | @block _ _ st _ _ _ _ ho hy =>
    obtain ⟨i, p, -, hp, rfl⟩ := yieldBlock_some hy
    refine Or.inr fun j q hq hz => ?_
    rcases (runPoint_after ho).block_calm.1.frame.persists with hn | hk
    · simp [hn] at hp
    · obtain ⟨q', hq', hpid⟩ := hk j q hq hz
      obtain ⟨r, hr, hr'⟩ := persists_setProc
        (q := { p with state := st, kcontValid := true }) hp rfl hq'
      exact ⟨r, hr, hr'.trans hpid⟩
  | @exit _ _ r hr =>
    obtain ⟨k', left⟩ := r
    cases left with
    | true => exact Or.inl (userExit_leave hr).2
    | false => exact (userExit_stay hr).1.persists
  | drop _ _ => exact (Frame.refl _).persists
  | @pick slot _ _ _ hr =>
    obtain ⟨p, hp, hk, -⟩ := switchTo_some hr
    rw [resumed_k, hk]
    refine Or.inr fun j q hq _ => ?_
    have hsave : ∃ q', (saveOutgoing s.k slot).procs j = some q' ∧ q'.pid = q.pid := by
      by_cases hj : j = slot
      · subst hj
        exact ⟨q, (saveOutgoing_self _ _).trans hq, rfl⟩
      · rcases saveOutgoing_cases s.k hj with ⟨-, he⟩ | ⟨-, he⟩
        · exact ⟨q, he.trans hq, rfl⟩
        · rw [he, hq]
          exact ⟨_, rfl, rfl⟩
    obtain ⟨q', hq', hpid⟩ := hsave
    obtain ⟨r, hr, hr'⟩ := persists_setProc
      (q := { p with state := .running, kcontValid := false }) hp rfl hq'
    exact ⟨r, hr, hr'.trans hpid⟩
  | preempt _ ht =>
    obtain ⟨cur, n, q, p, -, hq, -, hne, hp, -, hk, -⟩ := timerFromUser_switch ht
    rw [resumed_k, hk]
    refine Or.inr fun j x hx _ => ?_
    obtain ⟨y, hy, hpid⟩ := persists_setProc (q := { q with
      trap := _, state := .runnable, kcontValid := false, userRsp := s.k.userRsp }) hq rfl hx
    obtain ⟨r, hr, hr'⟩ := persists_setProc (q := { p with state := .running, kcontValid := false })
      ((Sched.setProc_of_ne _ hne _).trans hp) rfl hy
    exact ⟨r, hr, hr'.trans hpid⟩
  | start _ hr =>
    refine Or.inr fun j q hq _ => ?_
    rcases runWith_some hr with rfl | ⟨slot, av, hfree, rfl⟩
    · exact ⟨q, hq, rfl⟩
    · have hj : j ≠ slot := by
        rintro rfl
        simp [hq] at hfree
      exact ⟨q, (Sched.setProc_of_ne _ hj _).trans hq, rfl⟩

end Functions

theorem Sched.live_iff (s : Sched) (pid : ℕ) :
    s.live pid = true ↔ ∃ i p, s.procs i = some p ∧ p.pid = pid ∧ p.state ≠ .zombie := by
  simp [Sched.live, Option.any_eq_true]

theorem Sched.liveBeside_iff (s : Sched) (slot : Slot) (pid : ℕ) : s.liveBeside slot pid = true ↔
    ∃ i p, i ≠ slot ∧ s.procs i = some p ∧ p.pid = pid ∧ p.state ≠ .zombie := by
  simp [Sched.liveBeside, Option.any_eq_true]

theorem endsReaped_at {t : Trans Sys Act} (h : endsReaped t = true) {i : Slot} {p p' : Pcb}
    (hp : t.pre.k.sched.procs i = some p) (hp' : t.post.k.sched.procs i = some p')
    (hlive : p.state ≠ .zombie) (hz : p'.state = .zombie) :
    (p.parent = 0 ∨ t.pre.k.sched.liveBeside i p.parent = true) ∧
      zombieChild t.pre.k.sched p.pid = none := by
  have hi := List.all_eq_true.mp h i (List.mem_finRange i)
  simpa [hp, hp', hlive, hz] using hi

theorem step_reapable {t : Trans Sys Act} (h : t.pre.step t.act = some t.post)
    (hr : t.pre.k.sched.Reapable) (hc : endsReaped t = true) : t.post.k.sched.Reapable := by
  intro i p' hp' hz
  obtain ⟨v, hends⟩ := step_endsAt h
  have hkeep : ∀ i p, t.pre.k.sched.procs i = some p → p.state ≠ .zombie →
      ∃ p', t.post.k.sched.procs i = some p' ∧ p'.pid = p.pid := by
    rcases step_persists h with hn | hk
    · exact absurd ((hn i).symm.trans hp') (by simp)
    · exact hk
  obtain ⟨p, hp, -, hpar, hst⟩ := hends i p' hp' hz
  rw [hpar, Sched.live_iff]
  by_cases hpz : p.state = .zombie
  · refine (hr i p hp hpz).imp_right fun hl => ?_
    obtain ⟨j, q, hq, hqpid, hqz⟩ := (Sched.live_iff _ _).mp hl
    obtain ⟨q', hq', hpid'⟩ := hkeep j q hq hqz
    refine ⟨j, q', hq', hpid'.trans hqpid, fun hz' => ?_⟩
    have hnone := (endsReaped_at hc hq hq' hqz hz').2
    have hfree := Table.position_any_none hnone hp
    simp [hpz, hqpid] at hfree
  · obtain rfl := hst.resolve_left hpz
    refine (endsReaped_at hc hp hp' hpz hz).1.imp_right fun hl => ?_
    obtain ⟨j, q, hji, hq, hqpid, hqz⟩ := (Sched.liveBeside_iff _ _ _).mp hl
    obtain ⟨q', hq', hpid'⟩ := hkeep j q hq hqz
    refine ⟨j, q', hq', hpid'.trans hqpid, fun hz' => ?_⟩
    obtain ⟨q₀, hq₀, -, -, hst'⟩ := hends j q' hq' hz'
    obtain rfl := Option.some.inj (hq.symm.trans hq₀)
    exact hst'.elim hqz hji

/-- A process that ends after its zombie children have been waited for, and before its own
parent ends, leaves every zombie within reach of `try_reap` or `reap_orphans`. -/
theorem zombies_reapable {ready : Bool} {ts : List (Trans Sys Act)} {s : Sys}
    (h : Run ready ts s) (hc : ∀ t ∈ ts, endsReaped t = true) : s.k.sched.Reapable :=
  Path.invariant (I := fun s => s.k.sched.Reapable)
    (by intro i p hp; simp [Sys.boot, Kernel.init, Sched.init] at hp)
    (fun _ hs hr hct => step_reapable hs hr hct) h hc

theorem zombies_reapable_child : ∃ ts s, Run true ts s ∧
    (s.k.sched.procs 1).any (fun p => p.state = .zombie) = true ∧ s.k.sched.Reapable := by
  obtain ⟨r, hr, hp⟩ := exists_path_of_replay Sys.step (Sys.boot true)
    ([Sample.init] ++ Sample.call 256 7 4096 0 0 ++ [Sample.run, .timer {}] ++
      Sample.call 256 1 0 0 0 ++ [Sample.run])
    (fun r => r.1.all endsReaped && (r.2.k.sched.procs 1).any fun p => p.state = .zombie)
    (by decide)
  simp only [Bool.and_eq_true, List.all_eq_true] at hp
  exact ⟨r.1, r.2, hr, hp.2, zombies_reapable hr hp.1⟩

/-- A child of init spawns a process and exits, and so does that process: nobody will wait
for it, as its parent is a zombie. -/
theorem zombies_unreapable : ¬ ∀ ready s, Reach ready s → s.k.sched.Reapable := by
  intro h
  obtain ⟨r, hr, hp⟩ := exists_path_of_replay Sys.step (Sys.boot true)
    ([Sample.init] ++ Sample.call 256 7 4096 0 0 ++ [Sample.run, .timer {}] ++
      Sample.call 256 7 4096 0 0 ++ [Sample.run] ++ Sample.call 256 1 0 0 0 ++
      [Sample.run, .schedule] ++ Sample.call 256 1 0 0 0 ++ [Sample.run])
    (fun r => (r.2.k.sched.procs 2).any fun p =>
      p.state = .zombie ∧ p.parent ≠ 0 ∧ r.2.k.sched.live p.parent = false) (by decide)
  obtain ⟨p, hp2, hz⟩ := (Option.any_eq_true _ _).mp hp
  simp only [decide_eq_true_eq] at hz
  rcases h true r.2 ⟨r.1, hr⟩ 2 p hp2 hz.1 with h0 | hl
  · exact hz.2.1 h0
  · exact absurd (hz.2.2.symm.trans hl) (by simp)

end CoeleoOs.Task
