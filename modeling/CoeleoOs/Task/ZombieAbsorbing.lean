import CoeleoOs.Task.Switching

/-!
# Zombies stay zombies

A process that Ctrl+C ends while it executes kernel code goes on with its system
call. Every write to a process state respects its end except the one in
`yield_block`: a step turns a zombie back into something else exactly when it
blocks a process that has already ended.
-/

namespace CoeleoOs.Task
open CoeleoOs.Lib CoeleoOs.Lib.Machine

/-- Every zombie stays in its slot as a zombie, or is removed as `R` allows. -/
def ZombiesStay (k k' : Kernel) (R : Prop) : Prop :=
  ∀ i p, k.sched.procs i = some p → p.state = .zombie →
    (∃ p', k'.sched.procs i = some p' ∧ p'.state = .zombie ∧ p'.pid = p.pid ∧
      p'.parent = p.parent) ∨ (k'.sched.procs i = none ∧ R)

def Removes (k k' : Kernel) : Prop :=
  Reaps k k' ∨ (∃ rsp, k' = reapOrphans { k with userRsp := rsp }) ∨
    ∃ o, userExit k o = some (k', true)

def ZombieKept (t : Trans Sys Act) : Prop :=
  ZombiesStay t.pre.k t.post.k (Removes t.pre.k t.post.k)

/-- The step does not enter `yield_block` with a current process that has ended. -/
def blocksAlive (t : Trans Sys Act) : Bool :=
  match t.pre.mode, t.act with
  | .kernel c, .run e =>
    match (runPoint c.point).out e t.pre.k with
    | some (.block _ _, _) => !t.pre.k.sched.currentIsZombie
    | _ => true
  | _, _ => true

section Steps

variable {k k' : Kernel} {R : Prop}

theorem Frame.zombiesStay (hf : Frame k k') : ZombiesStay k k' (Reaps k k') := by
  intro i p hp hz
  rcases hf.slot i with ⟨hq, hq', he, -⟩ | ⟨-, -, hn, hr⟩ | ⟨hn, -⟩ | ⟨hn, -⟩
  · obtain rfl := Option.some.inj (hp.symm.trans hq)
    exact Or.inl ⟨_, hq', he.zombie hz, he.pid, he.parent⟩
  · exact Or.inr ⟨hn, hr⟩
  · simp [hp] at hn
  · simp [hp] at hn

theorem Frame.removes (hf : Frame k k') : ZombiesStay k k' (Removes k k') :=
  fun i p hp hz => (hf.zombiesStay i p hp hz).imp id fun h => ⟨h.1, Or.inl h.2⟩

theorem pick_zombiesStay {slot : Slot} {r : Kernel × Resume}
    (hpick : pickRunnable k.sched = some slot) (hr : switchTo k slot = some r) :
    ZombiesStay k r.1 R := by
  obtain ⟨p, hp, hk, -⟩ := switchTo_some hr
  rw [hk]
  intro i q hq hz
  obtain ⟨p', hp', hst⟩ := pickRunnable_some hpick
  have hi : i ≠ slot := by
    rintro rfl
    obtain rfl := Option.some.inj (hq.symm.trans hp')
    simp [hz] at hst
  refine Or.inl ?_
  simp only [Sched.enter_of_ne _ hi]
  rcases saveOutgoing_cases k hi with ⟨-, he⟩ | ⟨-, he⟩
  · exact ⟨q, he.trans hq, hz, rfl, rfl⟩
  · rw [he, hq]
    exact ⟨_, rfl, by simp [hz], rfl, rfl⟩

theorem preempt_zombiesStay {frame : TrapFrame} {r : Kernel × Resume}
    (ht : timerFromUser k frame = some (.switch r)) : ZombiesStay k r.1 R := by
  obtain ⟨cur, n, q, p, -, hq, hqz, hne, hp, hps, hk, -⟩ := timerFromUser_switch ht
  rw [hk]
  intro i x hx hz
  have hi : i ≠ n := by
    rintro rfl
    obtain rfl := Option.some.inj (hx.symm.trans hp)
    simp [hz] at hps
  have hc : i ≠ cur := by
    rintro rfl
    obtain rfl := Option.some.inj (hx.symm.trans hq)
    exact hqz hz
  refine Or.inl ⟨x, ?_, hz, rfl, rfl⟩
  simp only [Sched.enter_of_ne _ hi, Sched.setProc_of_ne _ hc, hx]

theorem start_zombiesStay {image : Image} {name : Bytes} {exclusive : Bool}
    {argv : Option ArgvSetup} {r : Kernel × Option TrapFrame}
    (hr : runWith k image name exclusive argv = some r) : ZombiesStay k r.1 R := by
  rcases runWith_some hr with rfl | ⟨slot, av, hfree, rfl⟩
  · exact fun i p hp hz => Or.inl ⟨p, hp, hz, rfl, rfl⟩
  · intro i p hp hz
    have hi : i ≠ slot := by
      rintro rfl
      simp [hp] at hfree
    exact Or.inl ⟨p, (Sched.setProc_of_ne _ hi _).trans hp, hz, rfl, rfl⟩

theorem exit_zombiesStay {o : Outcome} {r : Kernel × Bool} (hr : userExit k o = some r) :
    ZombiesStay k r.1 (Removes k r.1) := by
  obtain ⟨k', left⟩ := r
  cases left with
  | true =>
    intro i p _ _
    exact Or.inr ⟨(userExit_leave hr).2 i, Or.inr (Or.inr ⟨o, hr⟩)⟩
  | false => exact (userExit_stay hr).1.removes

theorem entry_zombiesStay {rsp : UInt64} (hp : Polled { k with userRsp := rsp } k') :
    ZombiesStay k k' (Removes k k') := by
  intro i p hpr hz
  rcases hp.calm.frame.zombiesStay i p hpr hz with h | ⟨hn, -⟩
  · exact Or.inl h
  · refine Or.inr ⟨hn, Or.inr (Or.inl ⟨rsp, ?_⟩)⟩
    rcases hp with rfl | h
    · simp [hpr] at hn
    · exact h

theorem currentIsZombie_iff {s : Sched} {i : Slot} {p : Pcb} (hi : s.current = some i)
    (hp : s.procs i = some p) : s.currentIsZombie = true ↔ p.state = .zombie := by
  simp [Sched.currentIsZombie, Sched.currentPcb, hi, hp]

theorem yieldBlock_zombiesStay {st : State} {c : KernelCont} (hst : st ≠ .zombie)
    (hy : yieldBlock k st c = some k') :
    ZombiesStay k k' R ↔ k.sched.currentIsZombie = false := by
  obtain ⟨i, p, hi, hp, rfl⟩ := yieldBlock_some hy
  have hz := currentIsZombie_iff hi hp
  constructor
  · intro h
    by_contra hcur
    rcases h i p hp (hz.mp (by simpa using hcur)) with ⟨p', hp', hz', -⟩ | ⟨hn, -⟩
    · simp only [Sched.setProc_self, Option.some.injEq] at hp'
      subst hp'
      exact hst hz'
    · simp at hn
  · intro hcur j q hq hqz
    have hj : j ≠ i := by
      rintro rfl
      obtain rfl := Option.some.inj (hp.symm.trans hq)
      simp [hz.mpr hqz] at hcur
    exact Or.inl ⟨q, (Sched.setProc_of_ne _ hj _).trans hq, hqz, rfl, rfl⟩

theorem wakePipeLocked_zombie (s : Sched) (i : Slot) {p : Pcb} (hz : p.state = .zombie) :
    s.wakePipeLocked.procs i = some p ↔ s.procs i = some p := by
  cases hq : s.procs i with
  | none => simp [Sched.wakePipeLocked, hq]
  | some q =>
    simp only [Sched.wakePipeLocked, Sched.mapProcs_procs, hq, Option.map_some, Option.some.injEq]
    split
    · rename_i hb
      constructor
      · rintro rfl
        simp at hz
      · rintro rfl
        simp [hz] at hb
    · rfl

theorem wakePipeLocked_currentIsZombie (s : Sched) :
    s.wakePipeLocked.currentIsZombie = s.currentIsZombie := by
  unfold Sched.currentIsZombie Sched.currentPcb
  cases hc : s.current with
  | none => simp [Sched.wakePipeLocked, hc]
  | some i =>
    cases hp : s.procs i with
    | none => simp [Sched.wakePipeLocked, hc, hp]
    | some p =>
      simp only [Sched.wakePipeLocked, Sched.mapProcs_current, hc, Option.bind_some,
        Sched.mapProcs_procs, hp, Option.map_some, Option.any_some]
      split
      · rename_i hb
        rcases hb with hb | hb <;> simp [hb]
      · rfl

theorem block_zombiesStay {k₁ : Kernel} {st : State} {c : KernelCont} {p q : Point}
    (ha : After k p (.block st q) k₁) (hy : yieldBlock k₁ st c = some k') :
    ZombiesStay k k' R ↔ k.sched.currentIsZombie = false := by
  obtain ⟨hk | hk, hst⟩ := ha.block_kernel
  · subst hk
    exact yieldBlock_zombiesStay hst hy
  · have hstay : ZombiesStay k k' R ↔ ZombiesStay k₁ k' R := by
      unfold ZombiesStay
      refine forall_congr' fun i => forall_congr' fun p => ?_
      rw [hk]
      constructor
      · exact fun h hp hz => h ((wakePipeLocked_zombie _ i hz).mp hp) hz
      · exact fun h hp hz => h ((wakePipeLocked_zombie _ i hz).mpr hp) hz
    rw [hstay, yieldBlock_zombiesStay hst hy, hk, wakePipeLocked_currentIsZombie]

theorem yieldBlock_none {st : State} {c : KernelCont} (hy : yieldBlock k st c = none) :
    k.sched.currentIsZombie = false := by
  simp only [yieldBlock, Option.bind_eq_bind, Option.bind_eq_none_iff, Option.pure_def] at hy
  unfold Sched.currentIsZombie Sched.currentPcb
  cases hc : k.sched.current with
  | none => rfl
  | some i =>
    cases hp : k.sched.procs i with
    | none => simp [hp]
    | some p => simpa using hy i hc p hp

theorem runCall_zombieKept {s : Sys} {c : KernelCont} {e : Env} {st : State} {q : Point}
    {k₁ : Kernel} (ho : (runPoint c.point).out e s.k = some (.block st q, k₁)) :
    ZombieKept ⟨s, .run e, runCall s.k c e⟩ ↔ s.k.sched.currentIsZombie = false := by
  have ha := runPoint_after ho
  have hrun :
      runCall s.k c e = orHalt k₁ ((yieldBlock k₁ st ⟨q, c.entryRsp⟩).map (⟨·, .sched⟩)) := by
    simp [runCall, ho, proceed]
  rw [hrun]
  cases hy : yieldBlock k₁ st ⟨q, c.entryRsp⟩ with
  | some k' => exact block_zombiesStay ha hy
  | none =>
    refine iff_of_true ha.block_calm.1.frame.removes ?_
    have hz := yieldBlock_none hy
    obtain ⟨rfl | rfl, -⟩ := ha.block_kernel
    · exact hz
    · rwa [wakePipeLocked_currentIsZombie] at hz

theorem step_zombieKept_of_not_block {s s' : Sys} {a : Act} (h : s.step a = some s')
    (hnb : ∀ c e st q k₁, s.mode = .kernel c → a = .run e →
      (runPoint c.point).out e s.k ≠ some (.block st q, k₁)) : ZombieKept ⟨s, a, s'⟩ := by
  unfold ZombieKept
  cases step_cases h with
  | calm hc _ => exact hc.frame.removes
  | entry _ hc _ => exact entry_zombiesStay hc
  | ret _ ht => exact ht.frame.removes
  | read _ hr => exact (Calm.read hr).frame.removes
  | write _ _ hw => exact (Calm.write hw).frame.removes
  | block hmode ho _ => exact absurd ho (hnb _ _ _ _ _ hmode rfl)
  | exit hr => exact exit_zombiesStay hr
  | drop _ _ => exact (Frame.refl s.k).removes
  | pick _ hp hr => simpa using pick_zombiesStay hp hr
  | preempt _ ht => simpa using preempt_zombiesStay ht
  | start _ hr => exact start_zombiesStay hr
  | halt hc => exact hc.frame.removes

theorem step_zombieKept {s s' : Sys} {a : Act} (h : s.step a = some s') :
    ZombieKept ⟨s, a, s'⟩ ↔ blocksAlive ⟨s, a, s'⟩ = true := by
  by_cases hb : ∃ c e st q k₁, s.mode = .kernel c ∧ a = .run e ∧
      (runPoint c.point).out e s.k = some (.block st q, k₁)
  · obtain ⟨c, e, st, q, k₁, hmode, rfl, ho⟩ := hb
    simp only [Sys.step, hmode, Option.some.injEq] at h
    rw [← h, runCall_zombieKept ho]
    simp [blocksAlive, hmode, ho]
  · have hnb : ∀ c e st q k₁, s.mode = .kernel c → a = .run e →
        (runPoint c.point).out e s.k ≠ some (.block st q, k₁) :=
      fun c e st q k₁ hm ha ho => hb ⟨c, e, st, q, k₁, hm, ha, ho⟩
    refine iff_of_true (step_zombieKept_of_not_block h hnb) ?_
    unfold blocksAlive
    split
    · rename_i c e hm ha
      split
      · rename_i st q k₁ ho
        exact absurd ho (hnb c e st q k₁ hm ha)
      · rfl
    · rfl

end Steps

/-- Along a run, zombies stay zombies until they are removed iff no process blocks
after it has ended. -/
theorem zombie_absorbing_iff {ready : Bool} {ts : List (Trans Sys Act)} {s : Sys}
    (h : Run ready ts s) : (∀ t ∈ ts, ZombieKept t) ↔ ∀ t ∈ ts, blocksAlive t = true :=
  forall₂_congr fun t ht => step_zombieKept (h.step_of_mem t ht)

def waitingRun : List Act :=
  [Sample.init] ++ Sample.call 256 7 4096 0 0 ++ [Sample.run] ++ Sample.call 256 8 0 0 0 ++
    [Sample.run, Sample.run, .schedule]

theorem zombie_absorbing_fault : ∃ ts s, Run true ts s ∧
    (∃ t ∈ ts, t.pre.k.sched.currentIsZombie = true) ∧ ∀ t ∈ ts, ZombieKept t := by
  obtain ⟨r, hr, hp⟩ := exists_path_of_replay Sys.step (Sys.boot true)
    (waitingRun ++ [.fault, .schedule, Sample.run])
    (fun r => r.1.all blocksAlive && r.1.any fun t => t.pre.k.sched.currentIsZombie)
    (by decide)
  simp only [Bool.and_eq_true, List.all_eq_true, List.any_eq_true] at hp
  exact ⟨r.1, r.2, hr, hp.2, (zombie_absorbing_iff hr).mpr hp.1⟩

/-- Ctrl+C reaches the child in the poll of its own `read_stdin`, which then blocks it. -/
theorem zombie_blocks_on_stdin : ¬ ∀ ready ts s, Run ready ts s → ∀ t ∈ ts, ZombieKept t := by
  intro h
  obtain ⟨r, hr, hp⟩ := exists_path_of_replay Sys.step (Sys.boot true)
    (waitingRun ++ Sample.call 768 4 0 20480 1 ++
      [Sample.run, Sample.run, .key 3, .pollEnd, Sample.run])
    (fun r => r.1.any fun t => !blocksAlive t) (by decide)
  obtain ⟨t, ht, hb⟩ := List.any_eq_true.mp hp
  have hkept := (step_zombieKept (hr.step_of_mem t ht)).mp (h true r.1 r.2 hr t ht)
  simp [hkept] at hb

end CoeleoOs.Task
