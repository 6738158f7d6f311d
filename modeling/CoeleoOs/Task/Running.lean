import CoeleoOs.Task.Blocked
import CoeleoOs.Task.Orphans
import CoeleoOs.Task.ZombieAbsorbing

/-!
# The running process

A process in state `Running` is always the current one: the three paths that make a
process `Running` make it current, and take the state from the one they leave. The
converse can fail. A key that is handled in the poll of a system call may end the
caller, and the call then returns to the user code of a zombie.
-/

namespace CoeleoOs.Task
open CoeleoOs.Lib CoeleoOs.Lib.Machine

def Sched.RunningCurrent (s : Sched) : Prop :=
  ∀ i p, s.procs i = some p → p.state = .running → s.current = some i

def Sched.CurrentRuns (s : Sched) : Prop :=
  ∃ i p, s.current = some i ∧ s.procs i = some p ∧ p.state = .running

structure Sys.OneRunning (s : Sys) : Prop where
  running : s.k.sched.RunningCurrent
  host : s.mode.phase = .host → s.k.sched.current = none

section Tables

variable {k k' : Kernel} {s : Sched}

theorem Frame.runningCurrent (hf : Frame k k') (h : k.sched.RunningCurrent) :
    k'.sched.RunningCurrent := by
  intro i p' hp' hrun
  rw [hf.current]
  rcases hf.slot i with ⟨hp, hq, he, -⟩ | ⟨-, -, hn, -⟩ | ⟨-, hn⟩ | ⟨-, hq, -, hr, -⟩
  · obtain rfl := Option.some.inj (hq.symm.trans hp')
    rcases he.state with hs | ⟨-, hs⟩ | ⟨hs, -⟩
    · exact h i _ hp (hs.symm.trans hrun)
    · simp [hs] at hrun
    · simp [hs] at hrun
  · simp [hn] at hp'
  · simp [hn] at hp'
  · obtain rfl := Option.some.inj (hq.symm.trans hp')
    simp [hr] at hrun

theorem enter_runningCurrent {slot : Slot} {p : Pcb}
    (h : ∀ j q, j ≠ slot → s.procs j = some q → q.state ≠ .running) :
    (s.enter slot p).RunningCurrent := by
  intro i q hq hrun
  by_cases hi : i = slot
  · rw [hi, Sched.enter_current]
  · rw [Sched.enter_of_ne _ hi] at hq
    exact absurd hrun (h i q hi hq)

theorem saveOutgoing_notRunning {slot j : Slot} {q : Pcb} (h : k.sched.RunningCurrent)
    (hj : j ≠ slot) (hq : (saveOutgoing k slot).procs j = some q) : q.state ≠ .running := by
  rcases saveOutgoing_cases k hj with ⟨hcur, he⟩ | ⟨-, he⟩
  · intro hrun
    exact hcur (h j q (he ▸ hq) hrun)
  · rw [he, Option.map_eq_some_iff] at hq
    obtain ⟨p, -, rfl⟩ := hq
    simp only
    split
    · simp
    · rename_i hr
      exact hr

theorem setProc_runningCurrent {i : Slot} {p : Pcb} (h : s.RunningCurrent)
    (hp : p.state ≠ .running) : (s.setProc i p).RunningCurrent := by
  intro j q hq hrun
  by_cases hj : j = i
  · subst hj
    obtain rfl := Option.some.inj ((Sched.setProc_self _ _ _).symm.trans hq)
    exact absurd hrun hp
  · rw [Sched.setProc_of_ne _ hj] at hq
    exact h j q hq hrun

end Tables

theorem phase_ne_host_of_cont {m : Mode} {c : KernelCont} (h : m.cont = some c) :
    m.phase ≠ .host := by
  rw [Mode.phase_of_cont h]
  simp

theorem resumed_phase (r : Kernel × Resume) : (resumed r).mode.phase ≠ .host := by
  obtain ⟨k, c | trap⟩ := r
  · simp [resumed, Mode.phase]
  · simp [resumed, Mode.phase]

theorem After.block_state {k k' : Kernel} {p q : Point} {st : State}
    (h : After k p (.block st q) k') : st.blocked = true := by
  cases h with
  | blockStdin _ | blockRead _ | blockWrite _ _ | blockWait _ _ _ _ => rfl

theorem step_oneRunning {s s' : Sys} {a : Act} (h : s.step a = some s') (hs : s.OneRunning) :
    s'.OneRunning := by
  cases step_cases h with
  | calm hc hm =>
    have hf := hc.frame
    exact ⟨hf.runningCurrent hs.running,
      fun hhost => hf.current.trans (hs.host (hm.phase.symm.trans hhost))⟩
  | @entry rsp _ _ _ _ _ _ _ hc hm =>
    refine ⟨hc.calm.frame.runningCurrent (k := { s.k with userRsp := rsp }) hs.running, ?_⟩
    exact fun hhost => absurd hhost (phase_ne_host_of_cont hm)
  | ret _ ht => exact ⟨ht.frame.runningCurrent hs.running, by simp [Mode.phase]⟩
  | read _ hr => exact ⟨(Calm.read hr).frame.runningCurrent hs.running, by simp [Mode.phase]⟩
  | write _ _ hw => exact ⟨(Calm.write hw).frame.runningCurrent hs.running, by simp [Mode.phase]⟩
  | block _ ho hy =>
    refine ⟨?_, by simp [Mode.phase]⟩
    have hst := (runPoint_after ho).block_state
    have hk := (runPoint_after ho).block_calm.1.frame.runningCurrent hs.running
    obtain ⟨i, p, -, -, rfl⟩ := yieldBlock_some hy
    refine setProc_runningCurrent hk ?_
    rintro rfl
    simp [State.blocked] at hst
  | @exit _ _ r hr =>
    obtain ⟨k', left⟩ := r
    cases left with
    | true =>
      obtain ⟨hcur, hnone⟩ := userExit_leave hr
      refine ⟨?_, fun _ => hcur⟩
      intro i p hp
      exact absurd ((hnone i).symm.trans hp) (by simp)
    | false => exact ⟨(userExit_stay hr).1.runningCurrent hs.running, by simp [exited, Mode.phase]⟩
  | drop _ _ => exact ⟨hs.running, by simp [Mode.phase]⟩
  | @pick _ r _ _ hr =>
    obtain ⟨p, -, hk, -⟩ := switchTo_some hr
    refine ⟨?_, ?_⟩
    · rw [resumed_k, hk]
      exact enter_runningCurrent fun j q hj hq => saveOutgoing_notRunning hs.running hj hq
    · exact fun hhost => absurd hhost (resumed_phase r)
  | @preempt _ r _ ht =>
    obtain ⟨cur, n, q, p, hcur, -, -, -, -, -, hk, -⟩ := timerFromUser_switch ht
    refine ⟨?_, ?_⟩
    · rw [resumed_k, hk]
      refine enter_runningCurrent fun j x _ hx hrun => ?_
      by_cases hj : j = cur
      · subst hj
        obtain rfl := Option.some.inj ((Sched.setProc_self _ _ _).symm.trans hx)
        simp at hrun
      · rw [Sched.setProc_of_ne _ hj] at hx
        exact hj (Option.some.inj ((hs.running j x hx hrun).symm.trans hcur))
    · exact fun hhost => absurd hhost (resumed_phase r)
  | start hmode hr =>
    have hcur := hs.host (by rw [hmode]; rfl)
    rcases runWith_some hr with rfl | ⟨slot, av, -, rfl⟩
    · refine ⟨?_, fun _ => rfl⟩
      intro i p hp hrun
      rw [hs.running i p hp hrun] at hcur
      cases hcur
    · refine ⟨?_, by simp [Mode.phase]⟩
      intro i p hp hrun
      by_cases hi : i = slot
      · rw [hi]
      · have hold := (Sched.setProc_of_ne _ hi _).symm.trans hp
        rw [hs.running i p hold hrun] at hcur
        cases hcur
  | halt hc => exact ⟨hc.frame.runningCurrent hs.running, by simp [Mode.phase]⟩

theorem oneRunning_boot (ready : Bool) : (Sys.boot ready).OneRunning := by
  refine ⟨?_, fun _ => rfl⟩
  intro i p hp
  simp [Sys.boot, Kernel.init, Sched.init] at hp

def Phase.process : Phase → Bool
  | .user => true
  | .call _ => true
  | _ => false

def Sys.CallerRuns (s : Sys) : Prop :=
  s.mode.phase.process = true →
    s.k.sched.CurrentRuns ∨ (∃ b, s.mode = .irq b) ∧ s.k.sched.currentIsZombie = true

/-- No key that is handled in a poll of the caller ends the caller, and no process that
runs a system call is its own parent. -/
def sparesCaller (t : Trans Sys Act) : Bool :=
  match t.pre.mode, t.act with
  | .polling b, .key c => !(b.phase.process && c = 3 && (foreground t.pre.k.sched).isSome &&
      foreground t.pre.k.sched = t.pre.k.sched.current)
  | .kernel _, .run _ => t.pre.k.sched.currentPcb.all fun p => p.parent ≠ p.pid
  | _, _ => true

section Spared

variable {k k' : Kernel}

def SparesCurrent (k k' : Kernel) : Prop :=
  ∀ i p', k.sched.current = some i → k'.sched.procs i = some p' → p'.state = .zombie →
    ∃ p, k.sched.procs i = some p ∧ p.state = .zombie

theorem NoEnds.spares (h : NoEnds k.sched k'.sched) : SparesCurrent k k' := by
  intro i p' _ hp' hz
  obtain ⟨p, hp, -, -, hst⟩ := h i p' hp' hz
  exact ⟨p, hp, hst⟩

theorem EndsAt.spares {v : Slot} (h : EndsAt v k.sched k'.sched) (hv : k.sched.current ≠ some v) :
    SparesCurrent k k' := by
  intro i p' hi hp' hz
  obtain ⟨p, hp, -, -, hst | rfl⟩ := h i p' hp' hz
  · exact ⟨p, hp, hst⟩
  · exact absurd hi hv

theorem Frame.runs_or_ends (hf : Frame k k') (h : k.sched.CurrentRuns) :
    k'.sched.CurrentRuns ∨ k'.sched.currentIsZombie = true := by
  obtain ⟨i, p, hi, hp, hrun⟩ := h
  have hi' := hf.current.trans hi
  rcases hf.slot i with ⟨hq, hq', he, -⟩ | ⟨hq, hz, -, -⟩ | ⟨hn, -⟩ | ⟨hn, -⟩
  · obtain rfl := Option.some.inj (hq.symm.trans hp)
    rcases he.state with hs | ⟨hb, -⟩ | ⟨hs, -⟩
    · exact .inl ⟨i, _, hi', hq', hs.trans hrun⟩
    · simp [hrun, State.blocked] at hb
    · exact .inr ((currentIsZombie_iff hi' hq').mpr hs)
  · obtain rfl := Option.some.inj (hq.symm.trans hp)
    simp [hrun] at hz
  · simp [hn] at hp
  · simp [hn] at hp

theorem Frame.currentRuns (hf : Frame k k') (hs : SparesCurrent k k') (h : k.sched.CurrentRuns) :
    k'.sched.CurrentRuns := by
  rcases hf.runs_or_ends h with hrun | hz
  · exact hrun
  · obtain ⟨i, p, hi, hp, hrun⟩ := h
    obtain ⟨p', hp', hz'⟩ := (Option.any_eq_true _ _).mp hz
    have hcur : k'.sched.procs i = some p' := by
      simpa [Sched.currentPcb, hf.current, hi] using hp'
    obtain ⟨q, hq, hzq⟩ := hs i p' hi hcur (by simpa using hz')
    obtain rfl := Option.some.inj (hq.symm.trans hp)
    simp [hrun] at hzq

theorem Touch.spares (h : Touch k k') (hown : k.sched.currentPcb.all fun p => p.parent ≠ p.pid) :
    SparesCurrent k k' := by
  cases h with
  | quiet hq => exact NoEnds.spares (hq.sched ▸ .refl k.sched)
  | @fds i p t _ hp _ | @pipe i p t _ _ _ hp _ _ =>
    refine NoEnds.spares (noEnds_setProc (fun q hq hz => ?_) (by simp [hp]))
    obtain rfl := Option.some.inj (hp.symm.trans hq)
    exact ⟨hz, rfl, rfl⟩
  | noPipe _ => exact NoEnds.spares (.refl k.sched)
  | close _ hp _ =>
    refine NoEnds.spares (NoEnds.trans (noEnds_setProc (fun q hq hz => ?_) (by simp [hp]))
      (wakePipeLocked_noEnds _))
    obtain rfl := Option.some.inj (hp.symm.trans hq)
    exact ⟨hz, rfl, rfl⟩
  | spawn => exact NoEnds.spares (spawnWith_noEnds k _ _ _ _ _)
  | @kill cur v p q hcur hp hq hpar _ _ =>
    refine (makeZombieLocked_endsAt k v false).spares ?_
    intro hv
    obtain rfl := Option.some.inj (hcur.symm.trans hv)
    obtain rfl := Option.some.inj (hp.symm.trans hq)
    simp [Sched.currentPcb, hcur, hp, hpar] at hown
  | @reap _ i _ _ _ _ _ _ => exact NoEnds.spares (removeSlot_noEnds k i)

theorem enqueueOrKill_spares {b : UInt8}
    (h : ¬(b = 3 ∧ (foreground k.sched).isSome = true ∧ foreground k.sched = k.sched.current)) :
    SparesCurrent k (enqueueOrKill k b) := by
  rcases enqueueOrKill_cases k b with ⟨v, hb, hv, he⟩ | ⟨-, he⟩
  · rw [he]
    refine EndsAt.spares ((makeZombieLocked_endsAt k v false).trans_noEnds (wakeParent_noEnds _ _))
      ?_
    intro hcur
    exact h ⟨hb, by simp [hv], hv.trans hcur.symm⟩
  · rw [he]
    exact NoEnds.spares (wakeStdin_noEnds _)

theorem enqueueOrKill_zombie {b : UInt8} (h : k.sched.currentIsZombie = true) :
    (enqueueOrKill k b).sched.currentIsZombie = true := by
  obtain ⟨p, hp, hz⟩ := (Option.any_eq_true _ _).mp h
  obtain ⟨i, hi, hp⟩ := Option.bind_eq_some_iff.mp hp
  have hz : p.state = .zombie := by simpa using hz
  obtain ⟨hcur, hslot⟩ := (enqueueOrKill_kept k b).1
  rcases hslot i with ⟨hn, -⟩ | ⟨q, q', hq, hq', he⟩
  · simp [hn] at hp
  · obtain rfl := Option.some.inj (hq.symm.trans hp)
    exact (currentIsZombie_iff (hcur.trans hi) hq').mpr (he.zombie hz)

end Spared

section Caller

variable {s s' : Sys} {k : Kernel}

theorem enterPoll_callerRuns {b : Back} (h : k.sched.CurrentRuns) : (enterPoll k b).CallerRuns := by
  intro _
  left
  rcases (enterPoll_polled k b).1 with heq | heq
  · rw [heq]
    exact h
  · rw [heq]
    exact (reapOrphans_frame k).currentRuns (reapOrphans_noEnds k).spares h

theorem callerRuns_of_phase {m : Mode} (h : m.phase.process = false) : Sys.CallerRuns ⟨k, m⟩ := by
  intro hp
  rw [h] at hp
  cases hp

theorem exited_callerRuns (r : Kernel × Bool) : (exited r).CallerRuns := by
  obtain ⟨k', left⟩ := r
  cases left with
  | true => exact callerRuns_of_phase rfl
  | false => exact callerRuns_of_phase rfl

theorem resumed_callerRuns {r : Kernel × Resume} (h : r.1.sched.CurrentRuns) :
    (resumed r).CallerRuns := by
  intro _
  left
  rwa [resumed_k]

theorem enter_currentRuns (s : Sched) (slot : Slot) (p : Pcb) : (s.enter slot p).CurrentRuns :=
  ⟨slot, _, rfl, Sched.enter_self _ _ _, rfl⟩

theorem Sys.CallerRuns.runs (h : s.CallerRuns) (hp : s.mode.phase.process = true)
    (hirq : ∀ b, s.mode ≠ .irq b) :
    s.k.sched.CurrentRuns := by
  rcases h hp with hrun | ⟨⟨b, hb⟩, -⟩
  · exact hrun
  · exact absurd hb (hirq b)

theorem Sys.CallerRuns.runs_in (h : s.CallerRuns) {m : Mode} (hmode : s.mode = m)
    (hp : m.phase.process = true) (hirq : ∀ b, m ≠ .irq b) : s.k.sched.CurrentRuns :=
  h.runs (hmode ▸ hp) (hmode ▸ hirq)

theorem runCall_callerRuns {c : KernelCont} {e : Env} (h : k.sched.CurrentRuns)
    (hown : k.sched.currentPcb.all fun p => p.parent ≠ p.pid) : (runCall k c e).CallerRuns := by
  simp only [runCall]
  cases ho : (runPoint c.point).out e k with
  | none => exact callerRuns_of_phase rfl
  | some r =>
    obtain ⟨next, k'⟩ := r
    have hafter := runPoint_after ho
    obtain ⟨point, rsp⟩ := c
    cases hafter with
    | ret ht => exact fun _ => .inl (ht.frame.currentRuns (ht.spares hown) h)
    | goto hq | irqOpen hq => exact fun _ => .inl h
    | read hr =>
      exact fun _ =>
        .inl ((Calm.read hr).frame.currentRuns (NoEnds.spares (wakePipeLocked_noEnds _)) h)
    | write hl hw =>
      exact fun _ =>
        .inl ((Calm.write hw).frame.currentRuns (NoEnds.spares (wakePipeLocked_noEnds _)) h)
    | pollThen => exact enterPoll_callerRuns h
    | blockStdin _ | blockRead _ | blockWrite _ _ | blockWait _ _ _ _ =>
      simp only [proceed]
      cases hy : yieldBlock _ _ _ with
      | none => exact callerRuns_of_phase rfl
      | some k' => exact callerRuns_of_phase rfl
    | exit =>
      simp only [proceed]
      cases he : userExit k .exited with
      | none => exact callerRuns_of_phase rfl
      | some r => exact exited_callerRuns r

theorem timerStep_callerRuns {frame : TrapFrame} (h : k.sched.CurrentRuns) :
    (timerStep k frame).CallerRuns := by
  simp only [timerStep]
  rcases ht : timerFromUser k frame with _ | _ | _ | r
  · exact callerRuns_of_phase rfl
  · exact fun _ => .inl h
  · exact callerRuns_of_phase rfl
  · obtain ⟨cur, n, q, p, -, -, -, -, -, -, hk, -⟩ := timerFromUser_switch ht
    refine resumed_callerRuns ?_
    rw [hk]
    exact enter_currentRuns _ _ _

theorem scheduleStep_callerRuns (k : Kernel) : (scheduleStep k).CallerRuns := by
  simp only [scheduleStep]
  cases hp : pickRunnable k.sched with
  | none =>
    intro hproc
    rw [(enterPoll_polled k .idle).2.1] at hproc
    cases hproc
  | some slot =>
    simp only
    cases hs : switchTo k slot with
    | none => exact callerRuns_of_phase rfl
    | some r =>
      obtain ⟨p, -, hk, -⟩ := switchTo_some hs
      refine resumed_callerRuns ?_
      rw [hk]
      exact enter_currentRuns _ _ _

theorem runWithStep_callerRuns {image : Image} {name : Bytes} {exclusive : Bool}
    {argv : Option ArgvSetup} : (runWithStep k image name exclusive argv).CallerRuns := by
  simp only [runWithStep]
  cases hr : runWith k image name exclusive argv with
  | none => exact callerRuns_of_phase rfl
  | some r =>
    rcases runWith_some hr with rfl | ⟨slot, av, -, rfl⟩
    · exact callerRuns_of_phase rfl
    · exact fun _ => .inl ⟨slot, _, rfl, Sched.setProc_self _ _ _, rfl⟩

theorem polledKey_callerRuns {b : Back} {c : UInt8} (hmode : s.mode = .polling b)
    (hs : s.CallerRuns) (hc : sparesCaller ⟨s, .key c, s'⟩ = true) :
    ({ s with k := enqueueOrKill s.k c } : Sys).CallerRuns := by
  intro hp
  have hb : b.phase.process = true := by simpa [hmode, Mode.phase] using hp
  refine .inl ((enqueueOrKill_frame s.k c).currentRuns (enqueueOrKill_spares ?_)
    (hs.runs hp (by simp [hmode])))
  rintro ⟨hc3, hsome, hfore⟩
  simp only [sparesCaller, hmode, hb, hc3, hfore] at hc
  rw [hfore] at hsome
  simp [hsome] at hc

theorem irqKey_callerRuns {b : Back} {c : UInt8} (hmode : s.mode = .irq b) (hs : s.CallerRuns) :
    ({ s with k := enqueueOrKill s.k c } : Sys).CallerRuns := by
  intro hp
  rcases hs hp with hrun | ⟨hirq, hz⟩
  · rcases (enqueueOrKill_frame s.k c).runs_or_ends hrun with hrun' | hz'
    · exact .inl hrun'
    · exact .inr ⟨⟨b, hmode⟩, hz'⟩
  · exact .inr ⟨hirq, enqueueOrKill_zombie hz⟩

theorem irqEnd_callerRuns {b : Back} (hmode : s.mode = .irq b) (hs : s.CallerRuns) :
    ({ s with
      mode := if s.k.sched.currentIsZombie then .sched else b.afterIrq } : Sys).CallerRuns := by
  intro hp
  by_cases hz : s.k.sched.currentIsZombie = true
  · simp [hz, Mode.phase, Phase.process] at hp
  · simp only [hz, Bool.false_eq_true, if_false, Back.afterIrq_phase] at hp
    rcases hs (by simpa [hmode, Mode.phase] using hp) with hrun | ⟨-, hz'⟩
    · exact .inl hrun
    · exact absurd hz' hz

theorem step_callerRuns {a : Act} (h : s.step a = some s') (hs : s.CallerRuns)
    (hc : sparesCaller ⟨s, a, s'⟩ = true) : s'.CallerRuns := by
  simp only [Sys.step] at h
  split at h
  case h_1 hmode =>
    obtain rfl := Option.some.inj h
    exact runWithStep_callerRuns
  case h_5 rsp num a0 a1 a2 hmode =>
    obtain rfl := Option.some.inj h
    exact enterPoll_callerRuns (k := { s.k with userRsp := rsp }) (hs.runs_in hmode rfl (by simp))
  case h_6 frame hmode =>
    obtain rfl := Option.some.inj h
    exact timerStep_callerRuns (hs.runs_in hmode rfl (by simp))
  case h_7 hmode =>
    obtain rfl := Option.some.inj h
    cases he : userExit s.k .fault with
    | none => exact callerRuns_of_phase rfl
    | some r => exact exited_callerRuns r
  case h_9 c e hmode =>
    obtain rfl := Option.some.inj h
    refine runCall_callerRuns (hs.runs_in hmode rfl (by simp)) ?_
    simpa [sparesCaller, hmode] using hc
  case h_8 hmode =>
    obtain rfl := Option.some.inj h
    exact fun _ => .inl (hs.runs_in hmode rfl (by simp))
  case h_10 c hmode =>
    obtain rfl := Option.some.inj h
    exact fun _ => .inl (hs.runs_in hmode rfl (by simp))
  case h_11 c hmode =>
    obtain rfl := Option.some.inj h
    exact fun _ => .inl (hs.runs_in hmode rfl (by simp))
  case h_12 b c hmode =>
    obtain rfl := Option.some.inj h
    exact polledKey_callerRuns hmode hs hc
  case h_13 load path hmode =>
    obtain rfl := Option.some.inj h
    exact fun hp =>
      .inl ((spawnWith_frame s.k _ _ _ _ _).currentRuns (spawnWith_noEnds s.k _ _ _ _ _).spares
      (hs.runs hp (by simp [hmode])))
  case h_14 w hmode =>
    obtain rfl := Option.some.inj h
    exact fun hp => .inl (hs.runs hp (by simp [hmode]))
  case h_15 b hmode =>
    obtain rfl := Option.some.inj h
    intro hp
    have hb : b.phase.process = true := by
      rw [← Back.afterPoll_phase]
      exact hp
    exact .inl (hs.runs_in hmode hb (by simp))
  case h_16 b c hmode =>
    obtain rfl := Option.some.inj h
    exact irqKey_callerRuns hmode hs
  case h_17 b hmode =>
    obtain rfl := Option.some.inj h
    exact irqEnd_callerRuns hmode hs
  case h_18 hmode =>
    obtain rfl := Option.some.inj h
    exact scheduleStep_callerRuns s.k
  case h_3 hmode =>
    obtain rfl := Option.some.inj h
    intro hp
    rw [(enterPoll_polled s.k .host).2.1] at hp
    cases hp
  case h_21 => cases h
  all_goals
    rename_i hmode
    obtain rfl := Option.some.inj h
    intro hp
    simp [hmode, Mode.phase, Back.phase, Phase.process] at hp

theorem callerRuns_boot (ready : Bool) : (Sys.boot ready).CallerRuns := callerRuns_of_phase rfl

end Caller

end CoeleoOs.Task
