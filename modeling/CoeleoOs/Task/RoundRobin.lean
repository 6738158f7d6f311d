import CoeleoOs.Lib.RoundRobin
import CoeleoOs.Task.Running

/-!
# Picking the next process

Both scans look at the slots behind the current one, in a circle. A slot that stays
runnable is therefore picked before any other slot is picked twice: every pick of
another slot brings the scan closer to it.
-/

namespace CoeleoOs.Task
open CoeleoOs.Lib CoeleoOs.Lib.Machine CoeleoOs.Lib.RoundRobin

namespace Sched

variable (s : Sched)

def scanFrom : Slot := s.current.getD ⟨maxProc - 1, by decide⟩

def EligibleAt (i : Slot) : Prop := (s.procs i).any Pcb.eligible = true

def RunnableAt (i : Slot) : Prop := (s.procs i).any (fun p => p.state = .runnable) = true

end Sched

section Scans

variable {s : Sched} {cur i j : Slot}

theorem cyclic_val (c : Slot) (k : ℕ) : (cyclic c.val k).val = (c.val + k) % maxProc := rfl

theorem Sched.runnableAt_iff : s.RunnableAt i ↔ ∃ p, s.procs i = some p ∧ p.state = .runnable := by
  simp [Sched.RunnableAt, Option.any_eq_true]

theorem Sched.RunnableAt.eligible (h : s.RunnableAt i) : s.EligibleAt i := by
  obtain ⟨p, hp, hst⟩ := Sched.runnableAt_iff.mp h
  simp [Sched.EligibleAt, hp, Pcb.eligible, hst]

theorem pickRunnable_eq : pickRunnable s =
    ((List.range' 1 maxProc).map (cyclic s.scanFrom)).find? fun i =>
      (s.procs i).any Pcb.eligible := by
  have hmap : (List.range maxProc).map (cyclic (s.current.elim 0 fun c => c.val + 1)) =
      (List.range' 1 maxProc).map (cyclic s.scanFrom) := by
    rw [List.range'_eq_map_range, List.map_map]
    refine List.map_congr_left ?_
    intro k _
    apply Fin.ext
    cases hcur : s.current with
    | none => simp [Sched.scanFrom, hcur, cyclic, ← Nat.add_assoc]
    | some c => simp [Sched.scanFrom, hcur, cyclic, Nat.add_assoc]
  rw [← hmap]
  rfl

theorem pickRunnable_eq_some_iff :
    pickRunnable s = some i ↔ FirstAfter s.scanFrom s.EligibleAt i := by
  rw [pickRunnable_eq, find_eq_some_iff le_rfl (cyclic_val _)]
  exact and_iff_right (gap_le _ _)

theorem pickRunnable_eq_none_iff : pickRunnable s = none ↔ ∀ i, ¬s.EligibleAt i := by
  rw [pickRunnable_eq, find_eq_none_iff le_rfl (cyclic_val _)]
  constructor
  · intro h i
    simp [Sched.EligibleAt, h i (gap_le _ _)]
  · intro h i _
    simpa [Sched.EligibleAt] using h i

theorem pickRunnableOther_eq_some_iff :
    pickRunnableOther s cur = some i ↔ FirstAfter cur (fun j => j ≠ cur ∧ s.RunnableAt j) i := by
  rw [pickRunnableOther, find_eq_some_iff (by decide) (cyclic_val _)]
  constructor
  · rintro ⟨hle, hholds, hfirst⟩
    refine ⟨⟨?_, hholds⟩, fun j hj hrun => hfirst j hj hrun.2⟩
    rintro rfl
    rw [gap_self] at hle
    exact absurd hle (by decide)
  · rintro ⟨⟨hne, hholds⟩, hfirst⟩
    have hlt := gap_lt (Ne.symm hne)
    refine ⟨by omega, hholds, ?_⟩
    intro j hj hrun
    refine hfirst j hj ⟨?_, hrun⟩
    rintro rfl
    rw [gap_self] at hj
    omega

theorem pickRunnableOther_eq_none_iff :
    pickRunnableOther s cur = none ↔ ∀ i, i ≠ cur → ¬s.RunnableAt i := by
  rw [pickRunnableOther, find_eq_none_iff (by decide) (cyclic_val _)]
  constructor
  · intro h i hne
    have hlt := gap_lt (Ne.symm hne)
    simp only [Sched.RunnableAt]
    rw [h i (by omega)]
    simp
  · intro h i hle
    have hne : i ≠ cur := by
      rintro rfl
      rw [gap_self] at hle
      exact absurd hle (by decide)
    simpa [Sched.RunnableAt] using h i hne

end Scans

def Sys.pick (s : Sys) (a : Act) : Option Slot :=
  match s.mode, a with
  | .sched, .schedule => pickRunnable s.k.sched
  | .user, .timer _ =>
    match s.k.sched.current with
    | none => none
    | some cur =>
      if (s.k.sched.procs cur).all fun p => p.state = .zombie then none
      else pickRunnableOther s.k.sched cur
  | .host, .runWith _ _ _ (some _) => Table.position fun i => (s.k.sched.procs i).isNone
  | _, _ => none

def picks (ts : List (Trans Sys Act)) : List Slot := ts.filterMap fun t => t.pre.pick t.act

def Sched.turnsBefore (s : Sched) (j : Slot) : ℕ :=
  match s.current with
  | none => maxProc - 1
  | some c => gap c j - 1

section Turns

variable {s s' : Sys} {a : Act} {j n : Slot}

theorem turnsBefore_le (s : Sched) (j : Slot) : s.turnsBefore j ≤ maxProc - 1 := by
  simp only [Sched.turnsBefore]
  split
  · exact le_rfl
  · rename_i c _
    have hle := gap_le c j
    omega

theorem turnsBefore_some {s : Sched} {c : Slot} (h : s.current = some c) (j : Slot) :
    s.turnsBefore j = gap c j - 1 := by
  simp [Sched.turnsBefore, h]

theorem turns_fresh (hne : n ≠ j) : gap n j - 1 + 1 ≤ maxProc - 1 := by
  have hlt := gap_lt hne
  have hpos := gap_pos n j
  omega

theorem turns_pick {s : Sched} (hj : s.RunnableAt j) (hp : pickRunnable s = some n) (hne : n ≠ j) :
    gap n j - 1 + 1 ≤ s.turnsBefore j := by
  have hfirst := pickRunnable_eq_some_iff.mp hp
  have hpos := gap_pos n j
  cases hcur : s.current with
  | none =>
    simp only [Sched.turnsBefore, hcur]
    exact turns_fresh hne
  | some c =>
    have hfrom : s.scanFrom = c := by simp [Sched.scanFrom, hcur]
    rw [hfrom] at hfirst
    have hadd := hfirst.gap_add hj.eligible hne
    have hstep := gap_pos c n
    rw [turnsBefore_some hcur]
    omega

theorem turns_pickOther {s : Sched} {cur : Slot} (hj : s.RunnableAt j) (hcur : s.current = some cur)
    (hp : pickRunnableOther s cur = some n) (hne : n ≠ j) : gap n j - 1 + 1 ≤ s.turnsBefore j := by
  have hfirst := pickRunnableOther_eq_some_iff.mp hp
  have hpos := gap_pos n j
  rw [turnsBefore_some hcur]
  by_cases hself : j = cur
  · subst hself
    rw [gap_self]
    exact turns_fresh hne
  · have hadd := hfirst.gap_add ⟨hself, hj⟩ hne
    have hstep := gap_pos cur n
    omega

inductive PickCase (s : Sys) (n : Slot) : Act → Prop
  | schedule : s.mode = .sched → pickRunnable s.k.sched = some n → PickCase s n .schedule
  | timer {frame : TrapFrame} {cur : Slot} : s.mode = .user → s.k.sched.current = some cur →
      ¬((s.k.sched.procs cur).all fun p => p.state = .zombie) = true →
      pickRunnableOther s.k.sched cur = some n → PickCase s n (.timer frame)
  | start {image : Image} {name : Bytes} {exclusive : Bool} {argv : ArgvSetup} : s.mode = .host →
      Table.position (fun i => (s.k.sched.procs i).isNone) = some n →
      PickCase s n (.runWith image name exclusive (some argv))

theorem pick_cases (h : s.pick a = some n) : PickCase s n a := by
  simp only [Sys.pick] at h
  split at h
  · rename_i hmode
    exact .schedule hmode h
  · rename_i frame hmode
    cases hcur : s.k.sched.current with
    | none => simp [hcur] at h
    | some cur =>
      simp only [hcur] at h
      split at h
      · cases h
      · rename_i hz
        exact .timer hmode hcur hz h
  · rename_i hmode
    exact .start hmode h
  · cases h

theorem pick_turns (hs : s.OneRunning) (hj : s.k.sched.RunnableAt j) (h : s.pick a = some n)
    (hne : n ≠ j) : gap n j - 1 + 1 ≤ s.k.sched.turnsBefore j := by
  cases pick_cases h with
  | schedule _ hp => exact turns_pick hj hp hne
  | timer _ hcur _ hp => exact turns_pickOther hj hcur hp hne
  | start hmode _ =>
    simp only [Sched.turnsBefore, hs.host (by rw [hmode]; rfl)]
    exact turns_fresh hne

theorem makeCurrent_current {k : Kernel} {t : Sched} {r : Kernel × Resume}
    (h : makeCurrent k t n = some r) : (resumed r).k.sched.current = some n := by
  obtain ⟨p, -, hk, -⟩ := makeCurrent_some h
  rw [resumed_k, hk]
  rfl

theorem step_pick (h : s.step a = some s') (hp : s.pick a = some n) :
    s'.k.sched.current = some n ∨ s'.mode = .halted := by
  cases pick_cases hp with
  | schedule hmode hpick =>
    simp only [Sys.step, hmode, scheduleStep, hpick, Option.some.injEq] at h
    subst h
    cases hr : switchTo s.k n with
    | none => exact .inr rfl
    | some r => exact .inl (makeCurrent_current hr)
  | timer hmode hcur hz hpick =>
    simp only [Sys.step, hmode, Option.some.injEq] at h
    subst h
    simp only [timerStep, timerFromUser, hcur, if_neg hz, hpick]
    cases hr : makeCurrent s.k _ n with
    | none => exact .inr rfl
    | some r => exact .inl (makeCurrent_current hr)
  | start hmode hpos =>
    simp only [Sys.step, hmode, Option.some.injEq] at h
    subst h
    left
    simp [runWithStep, orHalt, runWith, insertPcb, hpos, childFds, Sched.markParent, applyHw,
      Sched.setProc]

theorem step_noPick (h : s.step a = some s') (hs : s.OneRunning) (hp : s.pick a = none) :
    s'.k.sched.current = s.k.sched.current ∨ ∀ i, s'.k.sched.procs i = none := by
  cases step_cases h with
  | calm hc _ | halt hc => exact .inl hc.frame.current
  | entry _ hc _ => exact .inl hc.calm.frame.current
  | ret _ ht => exact .inl ht.frame.current
  | read _ hr => exact .inl (Calm.read hr).frame.current
  | write _ _ hw => exact .inl (Calm.write hw).frame.current
  | block _ ho hy =>
    have hcur := (runPoint_after ho).block_calm.1.frame.current
    obtain ⟨i, p, -, -, rfl⟩ := yieldBlock_some hy
    exact .inl hcur
  | @exit _ _ r hr =>
    obtain ⟨k', left⟩ := r
    cases left with
    | true => exact .inr (userExit_leave hr).2
    | false => exact .inl (userExit_stay hr).1.current
  | drop _ _ => exact .inl rfl
  | pick hmode hpick _ => simp [Sys.pick, hmode, hpick] at hp
  | preempt hmode ht =>
    obtain ⟨cur, n, q, p, hcur, hq, hz, -⟩ := timerFromUser_switch ht
    simp only [Sys.pick, hmode, hcur, hq, Option.all_some, hz, decide_false, Bool.false_eq_true,
      if_false] at hp
    simp [timerFromUser, hcur, hq, hz, hp] at ht
  | @start _ _ _ argv _ hmode hr =>
    have hcur := hs.host (by rw [hmode]; rfl)
    rcases runWith_some hr with rfl | ⟨slot, av, hfree, rfl⟩
    · exact .inl hcur.symm
    · cases argv with
      | none => simp [runWith] at hr
      | some argv =>
        simp only [Sys.pick, hmode] at hp
        have hfull := Table.position_none hp slot
        simp [hfree] at hfull

theorem step_not_halted (h : s.step a = some s') : s.mode ≠ .halted := by
  intro hmode
  simp [Sys.step, hmode] at h

end Turns

theorem picks_turns {s₀ s : Sys} {j : Slot} {ts : List (Trans Sys Act)} (h₀ : s₀.OneRunning)
    (h : Path Sys.step s₀ ts s) (hj : ∀ t ∈ ts, t.pre.k.sched.RunnableAt j)
    (hne : ∀ t ∈ ts, t.pre.pick t.act ≠ some j) :
    s.OneRunning ∧ (picks ts).length ≤ maxProc - 1 ∧
      (s.mode ≠ .halted → s.k.sched.RunnableAt j → (picks ts).length + s.k.sched.turnsBefore j ≤
        maxProc - 1) := by
  induction h with
  | nil =>
    refine ⟨h₀, Nat.zero_le _, fun _ _ => ?_⟩
    have hle := turnsBefore_le s₀.k.sched j
    simpa [picks] using hle
  | @snoc ts s s' a _ hs ih =>
    obtain ⟨hone, -, hturns⟩ := ih (fun t ht => hj t (List.mem_append_left _ ht))
      (fun t ht => hne t (List.mem_append_left _ ht))
    have hjs : s.k.sched.RunnableAt j := hj ⟨s, a, s'⟩ (by simp)
    have hns : s.pick a ≠ some j := hne ⟨s, a, s'⟩ (by simp)
    have hbefore := hturns (step_not_halted hs) hjs
    refine ⟨step_oneRunning hs hone, ?_⟩
    cases hp : s.pick a with
    | none =>
      have hcount : picks (ts ++ [⟨s, a, s'⟩]) = picks ts := by simp [picks, hp]
      rw [hcount]
      refine ⟨by omega, fun _ hj' => ?_⟩
      rcases step_noPick hs hone hp with hcur | hempty
      · simpa only [Sched.turnsBefore, hcur] using hbefore
      · simp [Sched.RunnableAt, hempty j] at hj'
    | some n =>
      have hnj : n ≠ j := fun heq => hns (by rw [hp, heq])
      have hcount : (picks (ts ++ [⟨s, a, s'⟩])).length = (picks ts).length + 1 := by
        simp [picks, hp]
      have htaken := pick_turns hone hjs hp hnj
      rw [hcount]
      refine ⟨by omega, fun hlive _ => ?_⟩
      rcases step_pick hs hp with hcur | hhalt
      · rw [turnsBefore_some hcur]
        omega
      · exact absurd hhalt hlive

/-- What the scheduler promises of a run `ts` to the state `s`. -/
structure Scheduled (ts : List (Trans Sys Act)) (s : Sys) : Prop where
  one : ∀ i j p q, s.k.sched.procs i = some p → s.k.sched.procs j = some q →
    p.state = .running → q.state = .running → i = j
  executing : s.mode = .user → ∃ i p, s.k.sched.current = some i ∧ s.k.currentSlot = i ∧
    s.k.sched.procs i = some p ∧ p.state = .running
  pick : ∀ i, pickRunnable s.k.sched = some i ↔ FirstAfter s.k.sched.scanFrom s.k.sched.EligibleAt i
  pick_none : pickRunnable s.k.sched = none ↔ ∀ i, ¬s.k.sched.EligibleAt i
  other : ∀ cur i, pickRunnableOther s.k.sched cur = some i ↔
    FirstAfter cur (fun j => j ≠ cur ∧ s.k.sched.RunnableAt j) i
  other_none :
    ∀ cur, pickRunnableOther s.k.sched cur = none ↔ ∀ i, i ≠ cur → ¬s.k.sched.RunnableAt i
  fair : ∀ us vs j, ts = us ++ vs → (∀ t ∈ vs, t.pre.k.sched.RunnableAt j) →
    (∀ t ∈ vs, t.pre.pick t.act ≠ some j) → (picks vs).length ≤ maxProc - 1

/-- The scheduler keeps its promises along every run in which no process is ended inside
its own system call. -/
theorem scheduler_sound {ready : Bool} {ts : List (Trans Sys Act)} {s : Sys} (h : Run ready ts s)
    (hc : ∀ t ∈ ts, sparesCaller t = true) : Scheduled ts s where
  one := by
    have hone := Path.invariant (C := fun _ => True) (oneRunning_boot ready)
      (fun t ht hI _ => step_oneRunning ht hI) h (fun _ _ => trivial)
    intro i j p q hp hq hi hj
    exact Option.some.inj ((hone.running i p hp hi).symm.trans (hone.running j q hq hj))
  executing := by
    intro hmode
    have hslot := Path.invariant (I := fun s => s.k.OnSlot) (C := fun _ => True) (onSlot_boot ready)
      (fun t ht hI _ => step_onSlot ht hI) h (fun _ _ => trivial)
    have hruns :=
      Path.invariant (callerRuns_boot ready) (fun t ht hI hC => step_callerRuns ht hI hC) h hc
    obtain ⟨i, p, hcur, hp, hrun⟩ := hruns.runs (by rw [hmode]; rfl) (by simp [hmode])
    exact ⟨i, p, hcur, hslot i hcur, hp, hrun⟩
  pick _ := pickRunnable_eq_some_iff
  pick_none := pickRunnable_eq_none_iff
  other _ _ := pickRunnableOther_eq_some_iff
  other_none _ := pickRunnableOther_eq_none_iff
  fair := by
    rintro us vs j rfl hj hne
    obtain ⟨m, hus, hvs⟩ := h.of_append
    have hone := Path.invariant (C := fun _ => True) (oneRunning_boot ready)
      (fun t ht hI _ => step_oneRunning ht hI) hus (fun _ _ => trivial)
    exact (picks_turns hone hvs hj hne).2.1

theorem scheduler_sound_wait : ∃ ts s, Run true ts s ∧ s.mode = .user ∧ Scheduled ts s := by
  obtain ⟨r, hr, hp⟩ := exists_path_of_replay Sys.step (Sys.boot true) waitingRun
    (fun r => r.1.all sparesCaller && r.2.mode = .user) (by decide)
  simp only [Bool.and_eq_true, List.all_eq_true, decide_eq_true_eq] at hp
  exact ⟨r.1, r.2, hr, hp.2, scheduler_sound hr hp.1⟩

theorem zombie_runs_user_code : ¬ ∀ ready ts s, Run ready ts s → Scheduled ts s := by
  intro h
  obtain ⟨r, hr, hp⟩ := exists_path_of_replay Sys.step (Sys.boot true)
    (waitingRun ++ [.syscall 768 10 0 0 0, .key 3, .pollEnd, Sample.run])
    (fun r => r.2.mode = .user && r.2.k.sched.currentIsZombie) (by decide)
  simp only [Bool.and_eq_true, decide_eq_true_eq] at hp
  obtain ⟨i, p, hcur, -, hproc, hrun⟩ := (h true r.1 r.2 hr).executing hp.1
  have hz := (currentIsZombie_iff hcur hproc).mp hp.2
  simp [hrun] at hz

end CoeleoOs.Task
