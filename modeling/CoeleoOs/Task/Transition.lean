import CoeleoOs.Task.Stretch
import CoeleoOs.Task.System

/-!
# What a step of the system does

`step_cases` lists, for every step, how the kernel state changes and what runs
afterwards. A phase groups the modes in which the same process holds the
processor for the same reason: polls and interrupts belong to the phase they
return to.
-/

namespace CoeleoOs.Task
open CoeleoOs.Lib CoeleoOs.Ui

inductive Phase
  | host
  | user
  | call (rsp : UInt64)
  | sched
  | halted
  deriving DecidableEq

def Back.phase : Back → Phase
  | .host => .host
  | .idle => .sched
  | .user => .user
  | .call c => .call c.entryRsp

def Mode.phase : Mode → Phase
  | .host => .host
  | .user => .user
  | .kernel c => .call c.entryRsp
  | .irqOpen c => .call c.entryRsp
  | .polling b => b.phase
  | .irq b => b.phase
  | .sched => .sched
  | .idle => .sched
  | .halted => .halted

@[simp] theorem Back.afterPoll_phase (b : Back) : b.afterPoll.phase = b.phase := by cases b <;> rfl
@[simp] theorem Back.afterIrq_phase (b : Back) : b.afterIrq.phase = b.phase := by cases b <;> rfl

def Back.cont : Back → Option KernelCont
  | .call c => some c
  | _ => none

def Mode.cont : Mode → Option KernelCont
  | .kernel c => some c
  | .irqOpen c => some c
  | .polling b => b.cont
  | .irq b => b.cont
  | _ => none

@[simp] theorem Back.afterPoll_cont (b : Back) : b.afterPoll.cont = b.cont := by cases b <;> rfl
@[simp] theorem Back.afterIrq_cont (b : Back) : b.afterIrq.cont = b.cont := by cases b <;> rfl

theorem Mode.phase_of_cont {m : Mode} {c : KernelCont} (h : m.cont = some c) :
    m.phase = .call c.entryRsp := by
  cases m with
  | kernel d | irqOpen d =>
    obtain rfl := Option.some.inj h
    rfl
  | polling b | irq b =>
    cases b with
    | call d =>
      obtain rfl := Option.some.inj h
      rfl
    | host | idle | user => simp [cont, Back.cont] at h
  | host | user | sched | idle | halted => simp [cont] at h

/-- The same process goes on in the same phase, at the same point of its system call or at
another one that is past the argument checks. -/
structure Mode.Continues (m m' : Mode) : Prop where
  phase : m'.phase = m.phase
  cont : ∀ c, m'.cont = some c → m.cont = some c ∨ c.point.Sound

/-- Changes that leave the current process and the saved contexts in place. The flag
says whether pipe data is moved. -/
inductive Calm (k : Kernel) : Bool → Kernel → Prop
  | touch {k' : Kernel} : Touch k k' → Calm k false k'
  | wake : Calm k false { k with sched := k.sched.wakePipeLocked }
  | orphans : Calm k false (reapOrphans k)
  | key (b : UInt8) : Calm k false (enqueueOrKill k b)
  | launch (load : Option (Image × ArgvSetup)) (path : Bytes) :
      Calm k false (spawnWith k load path 0 err err).2
  | read {id : PipeId} {n : ℕ} {got : Bytes} : (Pipe.read k.pipes id n).1 = .data got →
      Calm k true { k with pipes := (Pipe.read k.pipes id n).2, sched := k.sched.wakePipeLocked }
  | write {id : PipeId} {src : Bytes} {n : ℕ} : (Pipe.write k.pipes id src).1 = .data n →
      Calm k true { k with pipes := (Pipe.write k.pipes id src).2, sched := k.sched.wakePipeLocked }

theorem Calm.refl (k : Kernel) : Calm k false k := .touch (.refl k)

def Polled (k k' : Kernel) : Prop := k' = k ∨ k' = reapOrphans k

theorem Polled.calm {k k' : Kernel} (h : Polled k k') : Calm k false k' := by
  rcases h with rfl | rfl
  · exact .refl _
  · exact .orphans

theorem After.block_kernel {k k' : Kernel} {p q : Point} {st : State}
    (h : After k p (.block st q) k') :
    (k' = k ∨ k' = { k with sched := k.sched.wakePipeLocked }) ∧ st ≠ .zombie := by
  cases h with
  | blockStdin _ | blockWait _ _ _ _ => exact ⟨Or.inl rfl, by simp⟩
  | blockRead _ | blockWrite _ _ => exact ⟨Or.inr rfl, by simp⟩

theorem After.block_calm {k k' : Kernel} {p q : Point} {st : State}
    (h : After k p (.block st q) k') : Calm k false k' ∧ st ≠ .zombie := by
  obtain ⟨rfl | rfl, hst⟩ := h.block_kernel
  · exact ⟨.refl _, hst⟩
  · exact ⟨.wake, hst⟩

inductive StepCase (s : Sys) : Act → Sys → Prop
  | calm {a : Act} {k' : Kernel} {m : Mode} : Calm s.k false k' → s.mode.Continues m →
      StepCase s a ⟨k', m⟩
  | entry {rsp num a0 a1 a2 : UInt64} {k' : Kernel} {m : Mode} : s.mode = .user →
      Polled { s.k with userRsp := rsp } k' → m.cont = some ⟨.dispatch num a0 a1 a2, rsp⟩ →
      StepCase s (.syscall rsp num a0 a1 a2) ⟨k', m⟩
  | ret {c : KernelCont} {e : Env} {k' : Kernel} : s.mode = .kernel c → Touch s.k k' →
      StepCase s (.run e) ⟨k', .user⟩
  | read {id : PipeId} {buf n : ℕ} {rsp : UInt64} {e : Env} {got : Bytes} :
      s.mode = .kernel ⟨.readPipe id buf n, rsp⟩ → (Pipe.read s.k.pipes id n).1 = .data got →
      StepCase s (.run e) ⟨{ s.k with
        pipes := (Pipe.read s.k.pipes id n).2, sched := s.k.sched.wakePipeLocked }, .user⟩
  | write {id : PipeId} {buf n got : ℕ} {rsp : UInt64} {e : Env} {src : Bytes} :
      s.mode = .kernel ⟨.writePipe id buf n, rsp⟩ → src.length = n →
      (Pipe.write s.k.pipes id src).1 = .data got →
      StepCase s (.run e) ⟨{ s.k with
        pipes := (Pipe.write s.k.pipes id src).2, sched := s.k.sched.wakePipeLocked }, .user⟩
  | block {c : KernelCont} {e : Env} {st : State} {p : Point} {k₁ k' : Kernel} :
      s.mode = .kernel c → (runPoint c.point).out e s.k = some (.block st p, k₁) →
      yieldBlock k₁ st ⟨p, c.entryRsp⟩ = some k' → StepCase s (.run e) ⟨k', .sched⟩
  | exit {a : Act} {o : Outcome} {r : Kernel × Bool} : userExit s.k o = some r →
      StepCase s a (exited r)
  | drop {a : Act} {cur : Slot} : s.k.sched.current = some cur →
      (∀ p, s.k.sched.procs cur = some p → p.state = .zombie) → StepCase s a ⟨s.k, .sched⟩
  | pick {slot : Slot} {r : Kernel × Resume} : s.mode = .sched →
      pickRunnable s.k.sched = some slot → switchTo s.k slot = some r →
      StepCase s .schedule (resumed r)
  | preempt {frame : TrapFrame} {r : Kernel × Resume} : s.mode = .user →
      timerFromUser s.k frame = some (.switch r) → StepCase s (.timer frame) (resumed r)
  | start {image : Image} {name : Bytes} {exclusive : Bool} {argv : Option ArgvSetup}
      {r : Kernel × Option TrapFrame} : s.mode = .host →
      runWith s.k image name exclusive argv = some r →
      StepCase s (.runWith image name exclusive argv) ⟨r.1, if r.2.isSome then .user else .host⟩
  | halt {a : Act} {k' : Kernel} : Calm s.k false k' → StepCase s a ⟨k', .halted⟩

theorem enterPoll_polled (k : Kernel) (b : Back) : Polled k (enterPoll k b).k ∧
    (enterPoll k b).mode.phase = b.phase ∧ (enterPoll k b).mode.cont = b.cont := by
  unfold enterPoll
  split
  · exact ⟨Or.inr rfl, rfl, rfl⟩
  · exact ⟨Or.inl rfl, b.afterPoll_phase, b.afterPoll_cont⟩

theorem Mode.Continues.refl (m : Mode) : m.Continues m := ⟨rfl, fun _ hc => Or.inl hc⟩

section Cases

variable {s : Sys}

theorem enterPoll_cases {a : Act} {b : Back} (h : b.phase = s.mode.phase)
    (hcont : ∀ c, b.cont = some c → s.mode.cont = some c ∨ c.point.Sound) :
    StepCase s a (enterPoll s.k b) := by
  obtain ⟨hc, hm, hb⟩ := enterPoll_polled s.k b
  exact .calm hc.calm ⟨hm.trans h, fun c hd => hcont c (hb ▸ hd)⟩

theorem continues_call {c : KernelCont} {q : Point} {m : Mode} (hmode : s.mode = .kernel c)
    (hm : m.cont = some ⟨q, c.entryRsp⟩) (hq : q.Sound) : s.mode.Continues m := by
  refine ⟨by rw [Mode.phase_of_cont hm, hmode]; rfl, fun d hd => Or.inr ?_⟩
  obtain rfl := Option.some.inj (hm.symm.trans hd)
  exact hq

theorem runCall_cases {c : KernelCont} {e : Env} (hmode : s.mode = .kernel c) :
    StepCase s (.run e) (runCall s.k c e) := by
  unfold runCall
  cases ho : (runPoint c.point).out e s.k with
  | none => exact .halt (.refl _)
  | some r =>
    obtain ⟨next, k'⟩ := r
    have hafter := runPoint_after ho
    obtain ⟨point, rsp⟩ := c
    cases hafter with
    | ret ht => exact .ret hmode ht
    | goto hq => exact .calm (.refl _) (continues_call hmode rfl hq)
    | read hr => exact .read hmode hr
    | write hl hw => exact .write hmode hl hw
    | pollThen =>
      refine enterPoll_cases (by rw [hmode]; rfl) fun d hd => Or.inr ?_
      obtain rfl := Option.some.inj hd
      trivial
    | irqOpen hq => exact .calm (.refl _) (continues_call hmode rfl hq)
    | blockStdin _ | blockRead _ | blockWrite _ _ | blockWait _ _ _ _ =>
      simp only [proceed]
      cases hy : yieldBlock _ _ _ with
      | none => first | exact .halt (.refl _) | exact .halt .wake
      | some k' => exact .block hmode ho hy
    | exit =>
      simp only [proceed]
      cases he : userExit s.k .exited with
      | none => exact .halt (.refl _)
      | some r => exact .exit he

theorem timerStep_cases {frame : TrapFrame} (hmode : s.mode = .user) :
    StepCase s (.timer frame) (timerStep s.k frame) := by
  have hsame : s.mode.Continues .user := hmode ▸ .refl .user
  unfold timerStep
  cases ht : timerFromUser s.k frame with
  | none => exact .halt (.refl _)
  | some r =>
    cases r with
    | same => exact .calm (.refl _) hsame
    | schedule =>
      unfold timerFromUser at ht
      cases hc : s.k.sched.current with
      | none => simp [hc] at ht
      | some cur =>
        simp only [hc] at ht
        split at ht
        · rename_i hall
          refine .drop hc fun p hp => ?_
          simpa [hp] using hall
        · split at ht <;> simp at ht
    | switch r => exact .preempt hmode ht

theorem step_cases {a : Act} {s' : Sys} (h : s.step a = some s') : StepCase s a s' := by
  unfold Sys.step at h
  split at h
  case h_1 image name exclusive argv hmode =>
    obtain rfl := Option.some.inj h
    unfold runWithStep
    cases hr : runWith s.k image name exclusive argv with
    | none => exact .halt (.refl _)
    | some r => exact .start hmode hr
  case h_2 hmode =>
    obtain rfl := Option.some.inj h
    exact .calm (.touch (.quiet ⟨rfl, rfl, rfl, rfl, rfl, rfl⟩)) (.refl _)
  case h_3 hmode =>
    obtain rfl := Option.some.inj h
    exact enterPoll_cases (by rw [hmode]; rfl) (by simp [Back.cont])
  case h_5 rsp num a0 a1 a2 hmode =>
    obtain rfl := Option.some.inj h
    obtain ⟨hc, -, hm⟩ :=
      enterPoll_polled { s.k with userRsp := rsp } (.call ⟨.dispatch num a0 a1 a2, rsp⟩)
    exact .entry hmode hc hm
  case h_6 frame hmode =>
    obtain rfl := Option.some.inj h
    exact timerStep_cases hmode
  case h_7 hmode =>
    obtain rfl := Option.some.inj h
    cases he : userExit s.k .fault with
    | none => exact .halt (.refl _)
    | some r => exact .exit he
  case h_9 c e hmode =>
    obtain rfl := Option.some.inj h
    exact runCall_cases hmode
  case h_12 b _ hmode =>
    obtain rfl := Option.some.inj h
    exact .calm (.key _) (.refl _)
  case h_13 load path hmode =>
    obtain rfl := Option.some.inj h
    exact .calm (.launch load path) (.refl _)
  case h_14 w hmode =>
    obtain rfl := Option.some.inj h
    exact .calm (.touch (.quiet ⟨rfl, rfl, rfl, rfl, rfl, rfl⟩)) (.refl _)
  case h_15 b hmode =>
    obtain rfl := Option.some.inj h
    exact .calm (.refl _)
      (hmode ▸ ⟨b.afterPoll_phase, fun c hc => Or.inl (b.afterPoll_cont.symm.trans hc)⟩)
  case h_16 b _ hmode =>
    obtain rfl := Option.some.inj h
    exact .calm (.key _) (.refl _)
  case h_17 b hmode =>
    obtain rfl := Option.some.inj h
    split
    · rename_i hz
      unfold Sched.currentIsZombie Sched.currentPcb at hz
      cases hc : s.k.sched.current with
      | none => simp [hc] at hz
      | some cur =>
        refine .drop hc fun p hp => ?_
        simpa [hc, hp] using hz
    · exact .calm (.refl _)
        (hmode ▸ ⟨b.afterIrq_phase, fun c hc => Or.inl (b.afterIrq_cont.symm.trans hc)⟩)
  case h_18 hmode =>
    obtain rfl := Option.some.inj h
    unfold scheduleStep
    cases hp : pickRunnable s.k.sched with
    | none => exact enterPoll_cases (by rw [hmode]; rfl) (by simp [Back.cont])
    | some slot =>
      cases hs : switchTo s.k slot with
      | none => simpa [hs, orHalt] using .halt (.refl _)
      | some r => simpa [hs, orHalt] using .pick hmode hp hs
  case h_21 => simp at h
  all_goals
    rename_i hmode
    obtain rfl := Option.some.inj h
    exact .calm (.refl _) (hmode ▸ ⟨rfl, fun c hc => Or.inl hc⟩)

end Cases

end CoeleoOs.Task
