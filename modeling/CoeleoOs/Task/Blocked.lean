import CoeleoOs.Task.Switching

/-!
# When a process becomes blocked

Only `yield_block` blocks a process, and it blocks the current one. A process
that is blocked after any other step was blocked in the same place before it.
Every system call that is in progress, running or blocked, is past its argument
checks.
-/

namespace CoeleoOs.Task
open CoeleoOs.Lib CoeleoOs.Lib.Machine

def Kernel.OnSlot (k : Kernel) : Prop := ∀ i, k.sched.current = some i → k.currentSlot = i

def StillBlocked (k k' : Kernel) (i : Slot) (p' : Pcb) : Prop :=
  ∃ p, k.sched.procs i = some p ∧ p.state = p'.state ∧ p.pid = p'.pid ∧
    k'.kconts i = k.kconts i

inductive BlockCase (s : Sys) (i : Slot) (p' : Pcb) : Act → Sys → Prop
  | still {a : Act} {s' : Sys} : StillBlocked s.k s'.k i p' → BlockCase s i p' a s'
  | now {c : KernelCont} {e : Env} {q : Point} {k₁ k' : Kernel} {p : Pcb} : s.mode = .kernel c →
      After s.k c.point (.block p'.state q) k₁ → yieldBlock k₁ p'.state ⟨q, c.entryRsp⟩ = some k' →
      k₁.sched.current = some i → k₁.sched.procs i = some p → p.pid = p'.pid →
      k'.kconts i = some ⟨q, c.entryRsp⟩ → BlockCase s i p' (.run e) ⟨k', .sched⟩

section Kernels

variable {k k' : Kernel} {i : Slot} {p' : Pcb}

theorem Frame.onSlot (h : Frame k k') (hk : k.OnSlot) : k'.OnSlot := fun i hi =>
  h.currentSlot.trans (hk i (h.current ▸ hi))

theorem Frame.stillBlocked (h : Frame k k') (hp' : k'.sched.procs i = some p')
    (hb : p'.state.blocked = true) : StillBlocked k k' i p' := by
  rcases h.slot i with ⟨hp, hq, he, hc⟩ | ⟨-, -, hn, -⟩ | ⟨-, hn⟩ | ⟨-, hq, -, hr, -⟩
  · obtain rfl := Option.some.inj (hq.symm.trans hp')
    refine ⟨_, hp, ?_, he.pid.symm, hc⟩
    rcases he.state with hs | ⟨-, hs⟩ | ⟨hs, -⟩
    · exact hs.symm
    · simp [hs, State.blocked] at hb
    · simp [hs, State.blocked] at hb
  · simp [hn] at hp'
  · simp [hn] at hp'
  · obtain rfl := Option.some.inj (hq.symm.trans hp')
    simp [hr, State.blocked] at hb

theorem enter_stillBlocked {s : Sched} {slot : Slot} {p : Pcb}
    (hold : ∀ j q, j ≠ slot → s.procs j = some q → q.state.blocked = true →
      StillBlocked k { k with sched := s } j q)
    (hp' : (s.enter slot p).procs i = some p') (hb : p'.state.blocked = true) :
    StillBlocked k { k with sched := s.enter slot p } i p' := by
  by_cases hi : i = slot
  · subst hi
    rw [Sched.enter_self] at hp'
    obtain rfl := Option.some.inj hp'
    simp [State.blocked] at hb
  · rw [Sched.enter_of_ne _ hi] at hp'
    exact hold i p' hi hp' hb

theorem saveOutgoing_stillBlocked {slot j : Slot} {q : Pcb} (hj : j ≠ slot)
    (hq : (saveOutgoing k slot).procs j = some q) (hb : q.state.blocked = true) :
    StillBlocked k { k with sched := saveOutgoing k slot } j q := by
  rcases saveOutgoing_cases k hj with ⟨-, he⟩ | ⟨-, he⟩
  · exact ⟨q, he ▸ hq, rfl, rfl, rfl⟩
  · rw [he, Option.map_eq_some_iff] at hq
    obtain ⟨p, hp, rfl⟩ := hq
    refine ⟨p, hp, ?_, rfl, rfl⟩
    simp only at hb ⊢
    split at hb
    · simp [State.blocked] at hb
    · rename_i hr
      simp [hr]

end Kernels

theorem step_onSlot {s s' : Sys} {a : Act} (h : s.step a = some s') (hs : s.k.OnSlot) :
    s'.k.OnSlot := by
  cases step_cases h with
  | calm hc _ | halt hc => exact hc.frame.onSlot hs
  | entry _ hc _ => exact hc.calm.frame.onSlot (k := { s.k with userRsp := _ }) hs
  | ret _ ht => exact ht.frame.onSlot hs
  | read _ hr => exact (Calm.read hr).frame.onSlot hs
  | write _ _ hw => exact (Calm.write hw).frame.onSlot hs
  | block _ ho hy =>
    have hk := (runPoint_after ho).block_calm.1.frame.onSlot hs
    obtain ⟨i, p, -, -, rfl⟩ := yieldBlock_some hy
    exact hk
  | @exit _ _ r hr =>
    obtain ⟨k', left⟩ := r
    cases left with
    | true =>
      intro i hi
      exact absurd ((userExit_leave hr).1.symm.trans hi) (by simp)
    | false => exact (userExit_stay hr).1.onSlot hs
  | drop _ _ => exact hs
  | pick _ _ hr =>
    obtain ⟨p, -, hk, -⟩ := switchTo_some hr
    rw [resumed_k, hk]
    exact fun i hi => Option.some.inj hi
  | preempt _ ht =>
    obtain ⟨cur, n, q, p, -, -, -, -, -, -, hk, -⟩ := timerFromUser_switch ht
    rw [resumed_k, hk]
    exact fun i hi => Option.some.inj hi
  | start _ hr =>
    rcases runWith_some hr with rfl | ⟨slot, av, -, rfl⟩
    · intro i hi
      simp at hi
    · exact fun i hi => Option.some.inj hi

theorem onSlot_boot (ready : Bool) : (Sys.boot ready).k.OnSlot := by
  intro i hi
  simp [Sys.boot, Kernel.init, Sched.init] at hi

theorem step_blocked {s s' : Sys} {a : Act} (h : s.step a = some s') (hs : s.k.OnSlot)
    {i : Slot} {p' : Pcb} (hp' : s'.k.sched.procs i = some p') (hb : p'.state.blocked = true) :
    BlockCase s i p' a s' := by
  cases step_cases h with
  | calm hc _ | halt hc => exact .still (hc.frame.stillBlocked hp' hb)
  | entry _ hc _ =>
    exact .still (hc.calm.frame.stillBlocked (k := { s.k with userRsp := _ }) hp' hb)
  | ret _ ht => exact .still (ht.frame.stillBlocked hp' hb)
  | read _ hr => exact .still ((Calm.read hr).frame.stillBlocked hp' hb)
  | write _ _ hw => exact .still ((Calm.write hw).frame.stillBlocked hp' hb)
  | @block _ _ st q k₁ _ hmode ho hy =>
    have hframe := (runPoint_after ho).block_calm.1.frame
    have hslot := hframe.onSlot hs
    obtain ⟨j, p, hj, hp, rfl⟩ := yieldBlock_some hy
    by_cases hi : i = j
    · subst hi
      obtain rfl := Option.some.inj ((Sched.setProc_self _ _ _).symm.trans hp')
      refine .now hmode (runPoint_after ho) hy hj hp rfl ?_
      simp [hslot i hj]
    · have hq := (Sched.setProc_of_ne _ hi _).symm.trans hp'
      obtain ⟨p, hp, hst, hpid, hk⟩ := hframe.stillBlocked hq hb
      refine .still ⟨p, hp, hst, hpid, ?_⟩
      simpa [hslot j hj, Function.update_of_ne hi] using hk
  | @exit _ _ r hr =>
    obtain ⟨k', left⟩ := r
    cases left with
    | true => exact absurd (((userExit_leave hr).2 i).symm.trans hp') (by simp)
    | false => exact .still ((userExit_stay hr).1.stillBlocked hp' hb)
  | drop _ _ => exact .still ⟨p', hp', rfl, rfl, rfl⟩
  | pick _ _ hr =>
    obtain ⟨p, -, hk, -⟩ := switchTo_some hr
    rw [resumed_k, hk] at hp'
    refine .still ?_
    rw [resumed_k, hk]
    exact enter_stillBlocked (fun j q hj => saveOutgoing_stillBlocked hj) hp' hb
  | preempt _ ht =>
    obtain ⟨cur, n, q, p, -, hq, -, -, hp, -, hk, -⟩ := timerFromUser_switch ht
    rw [resumed_k, hk] at hp'
    refine .still ?_
    rw [resumed_k, hk]
    refine enter_stillBlocked (fun j x hj hx hbx => ?_) hp' hb
    by_cases hjc : j = cur
    · subst hjc
      obtain rfl := Option.some.inj ((Sched.setProc_self _ _ _).symm.trans hx)
      simp [State.blocked] at hbx
    · exact ⟨x, (Sched.setProc_of_ne _ hjc _).symm.trans hx, rfl, rfl, rfl⟩
  | start _ hr =>
    rcases runWith_some hr with rfl | ⟨slot, av, hfree, rfl⟩
    · exact .still ⟨p', hp', rfl, rfl, rfl⟩
    · by_cases hi : i = slot
      · subst hi
        obtain rfl := Option.some.inj ((Sched.setProc_self _ _ _).symm.trans hp')
        simp [State.blocked] at hb
      · refine .still ⟨p', (Sched.setProc_of_ne _ hi _).symm.trans hp', rfl, rfl, ?_⟩
        exact Function.update_of_ne hi _ _

def Kernel.OneWaiter (k : Kernel) : Prop :=
  ∀ i j p q, k.sched.procs i = some p → k.sched.procs j = some q →
    p.state.onPipe = true → q.state.onPipe = true → i = j

theorem State.onPipe_blocked {st : State} (h : st.onPipe = true) : st.blocked = true := by
  cases st <;> simp_all [State.onPipe, State.blocked]

theorem wakePipeLocked_onPipe {s : Sched} {i : Slot} {p : Pcb}
    (hp : s.wakePipeLocked.procs i = some p) : p.state.onPipe = false := by
  simp only [Sched.wakePipeLocked, Sched.mapProcs_procs, Option.map_eq_some_iff] at hp
  obtain ⟨q, -, rfl⟩ := hp
  split
  · rfl
  · rename_i h
    cases hq : q.state <;> simp_all [State.onPipe]

theorem yieldBlock_onPipe {k k₁ k' : Kernel} {c : Point} {q : Point} {st : State} {d : KernelCont}
    (ha : After k c (.block st q) k₁) (hst : st.onPipe = true) (hy : yieldBlock k₁ st d = some k')
    {i j : Slot} {p : Pcb} (hi : k₁.sched.current = some i) (hp : k'.sched.procs j = some p)
    (hon : p.state.onPipe = true) : j = i := by
  by_contra hji
  obtain ⟨i₀, p₀, hi₀, -, rfl⟩ := yieldBlock_some hy
  obtain rfl := Option.some.inj (hi₀.symm.trans hi)
  have hj := (Sched.setProc_of_ne _ hji _).symm.trans hp
  cases ha with
  | blockStdin _ | blockWait _ _ _ _ => simp [State.onPipe] at hst
  | blockRead _ | blockWrite _ _ => simp [wakePipeLocked_onPipe hj] at hon

theorem step_oneWaiter {s s' : Sys} {a : Act} (h : s.step a = some s') (hs : s.k.OnSlot)
    (ho : s.k.OneWaiter) : s'.k.OneWaiter := by
  intro i j p q hp hq hpon hqon
  have hpb := step_blocked h hs hp (State.onPipe_blocked hpon)
  have hqb := step_blocked h hs hq (State.onPipe_blocked hqon)
  cases hpb with
  | now _ ha hy hi _ _ _ => exact (yieldBlock_onPipe ha hpon hy hi hq hqon).symm
  | still hp₀ =>
    cases hqb with
    | now _ ha hy hi _ _ _ => exact yieldBlock_onPipe ha hqon hy hi hp hpon
    | still hq₀ =>
      obtain ⟨p₀, hp₀, hpst, -⟩ := hp₀
      obtain ⟨q₀, hq₀, hqst, -⟩ := hq₀
      exact ho i j p₀ q₀ hp₀ hq₀ (hpst ▸ hpon) (hqst ▸ hqon)

theorem oneWaiter_boot (ready : Bool) : (Sys.boot ready).k.OneWaiter := by
  intro i j p q hp
  simp [Sys.boot, Kernel.init, Sched.init] at hp

section Continuations

def Sys.Sound (s : Sys) : Prop :=
  (∀ c, s.mode.cont = some c → c.point.Sound) ∧ ∀ i c, s.k.kconts i = some c → c.point.Sound

variable {k k' : Kernel} {i : Slot} {c : KernelCont}

theorem spawnWith_kconts {load : Option (Image × ArgvSetup)} {path : Bytes}
    {parent stdinFd stdoutFd : ℕ}
    (h : (spawnWith k load path parent stdinFd stdoutFd).2.kconts i = some c) :
    k.kconts i = some c := by
  rcases spawnWith_cases k load path parent stdinFd stdoutFd with
    ⟨ps, -, he⟩ | ⟨slot, image, argv, fds, ps, -, -, he⟩
  · rw [he] at h
    exact h
  · rw [he] at h
    by_cases hi : i = slot
    · subst hi
      simp at h
    · exact (Function.update_of_ne hi _ _).symm.trans h

theorem Touch.kconts (ht : Touch k k') (h : k'.kconts i = some c) : k.kconts i = some c := by
  cases ht with
  | quiet hq => exact hq.kconts ▸ h
  | fds _ _ _ | pipe _ _ _ _ | noPipe _ | close _ _ _ => exact h
  | spawn => exact spawnWith_kconts h
  | @kill _ v _ _ _ _ _ _ _ _ => exact (makeZombieLocked_rest k v false).2.2 ▸ h
  | @reap _ j _ _ _ _ _ _ => exact (removeSlot_rest k j).2.2.2.1 ▸ h

theorem Calm.kconts {moves : Bool} (hc : Calm k moves k') (h : k'.kconts i = some c) :
    k.kconts i = some c := by
  cases hc with
  | touch ht => exact ht.kconts h
  | wake | read _ | write _ => exact h
  | orphans => exact (reapLoop_rest maxProc k).2.2.2.1 ▸ h
  | key b =>
    rw [(enqueueOrKill_kept k b).2.2.2] at h
    exact h
  | launch load path => exact spawnWith_kconts h

theorem userExit_kconts {o : Outcome} {r : Kernel × Bool} (hr : userExit k o = some r) :
    r.1.kconts = k.kconts := by
  obtain ⟨j, p, k₀, -, -, hq, hcase⟩ := userExit_some hr
  have hz := (makeZombieLocked_rest k₀ j (o = .fault)).2.2.trans hq.kconts
  rcases hcase with ⟨-, rfl⟩ | ⟨-, rfl⟩
  · exact (unloadAll_rest _).2.2.1.trans hz
  · exact hz

theorem After.block_sound {p q : Point} {st : State} (h : After k p (.block st q) k')
    (hp : p.Sound) : q.Sound := by
  cases h with
  | blockStdin _ | blockWait _ _ _ _ => trivial
  | blockRead _ | blockWrite _ _ => exact hp

theorem resumed_sound {r : Kernel × Resume} {p : Pcb} {slot : Slot}
    (hr : (p.kcontValid = true ∧ ∃ c, k.kconts slot = some c ∧ r.2 = .kcont c) ∨
      (p.kcontValid = false ∧ r.2 = .user p.trap))
    (hk : ∀ i c, k.kconts i = some c → c.point.Sound) {c : KernelCont}
    (hc : (resumed r).mode.cont = some c) : c.point.Sound := by
  obtain ⟨k', res⟩ := r
  rcases hr with ⟨-, d, hd, rfl⟩ | ⟨-, rfl⟩
  · obtain rfl := Option.some.inj hc
    exact hk slot d hd
  · simp [resumed, Mode.cont] at hc

theorem step_sound {s s' : Sys} {a : Act} (hs : s.Sound) (h : s.step a = some s') : s'.Sound := by
  cases step_cases h with
  | calm hc hm =>
    exact ⟨fun c hd => (hm.cont c hd).elim (hs.1 c) id, fun i c hd => hs.2 i c (hc.kconts hd)⟩
  | halt hc => exact ⟨by simp [Mode.cont], fun i c hd => hs.2 i c (hc.kconts hd)⟩
  | entry _ hc hm =>
    refine ⟨fun c hd => ?_, fun i c hd => hs.2 i c (hc.calm.kconts hd)⟩
    obtain rfl := Option.some.inj (hm.symm.trans hd)
    trivial
  | ret _ ht => exact ⟨by simp [Mode.cont], fun i c hd => hs.2 i c (ht.kconts hd)⟩
  | read _ _ | write _ _ _ => exact ⟨by simp [Mode.cont], hs.2⟩
  | block hmode ho hy =>
    have hafter := runPoint_after ho
    have hq := hafter.block_sound (hs.1 _ (by rw [hmode]; rfl))
    obtain ⟨j, p, -, -, rfl⟩ := yieldBlock_some hy
    refine ⟨by simp [Mode.cont], fun i c hd => ?_⟩
    simp only [Function.update_apply] at hd
    split at hd
    · obtain rfl := Option.some.inj hd
      exact hq
    · exact hs.2 i c (hafter.block_calm.1.kconts hd)
  | @exit _ _ r hr =>
    refine ⟨fun c hd => ?_, fun i c hd => hs.2 i c (userExit_kconts hr ▸ hd)⟩
    simp only [exited] at hd
    split at hd <;> simp [Mode.cont] at hd
  | drop _ _ => exact ⟨by simp [Mode.cont], hs.2⟩
  | pick _ _ hr =>
    obtain ⟨p, -, hk, hres⟩ := switchTo_some hr
    refine ⟨fun c hd => resumed_sound hres hs.2 hd, fun i c hd => ?_⟩
    rw [resumed_k, hk] at hd
    exact hs.2 i c hd
  | preempt _ ht =>
    obtain ⟨cur, n, q, p, -, -, -, -, -, -, hk, hres⟩ := timerFromUser_switch ht
    refine ⟨fun c hd => resumed_sound hres hs.2 hd, fun i c hd => ?_⟩
    rw [resumed_k, hk] at hd
    exact hs.2 i c hd
  | @start _ _ _ _ r _ hr =>
    refine ⟨fun c hd => ?_, fun i c hd => ?_⟩
    · simp only at hd
      split at hd <;> simp [Mode.cont] at hd
    · rcases runWith_some hr with rfl | ⟨slot, av, -, rfl⟩
      · exact hs.2 i c hd
      · simp only [Function.update_apply] at hd
        split at hd
        · simp at hd
        · exact hs.2 i c hd

theorem sound_boot (ready : Bool) : (Sys.boot ready).Sound := by
  constructor <;> simp [Sys.boot, Kernel.init, Mode.cont]

end Continuations

end CoeleoOs.Task
