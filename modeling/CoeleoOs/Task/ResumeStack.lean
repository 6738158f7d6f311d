import CoeleoOs.Task.Switching

/-!
# The user stack pointer across a blocking call

A process that blocks inside a system call is resumed through its kernel
continuation and leaves the call through `CPU_LOCAL.user_rsp`. `switch_to` saves
that value only for an outgoing process that is not the incoming one, while
`apply_hw` always reloads it. The value is right after a resume exactly when the
process that was picked was another one, or its last saved value is current.
-/

namespace CoeleoOs.Task
open CoeleoOs.Lib CoeleoOs.Lib.Machine

/-- A resume through a continuation finds the stack pointer of the call's entry. -/
def stackKept (t : Trans Sys Act) : Bool :=
  match t.act, t.post.mode with
  | .schedule, .kernel c => t.post.k.userRsp == c.entryRsp
  | .timer _, .kernel c => t.post.k.userRsp == c.entryRsp
  | _, _ => true

/-- If `schedule_next` picks the process that is current, its saved stack pointer is
the one in `CPU_LOCAL`. -/
def selfPickSaved (t : Trans Sys Act) : Bool :=
  match t.act, pickRunnable t.pre.k.sched with
  | .schedule, some i => t.pre.k.sched.current ≠ some i ||
      (t.pre.k.sched.procs i).all fun p => !p.kcontValid || p.userRsp == t.pre.k.userRsp
  | _, _ => true

def Kernel.Entered (k : Kernel) (i : Slot) (p : Pcb) (rsp : UInt64) : Prop :=
  p.kcontValid = true → ∃ c, k.kconts i = some c ∧ rsp = c.entryRsp

def Phase.StackOk (k : Kernel) (i : Slot) (p : Pcb) : Phase → Prop
  | .sched => k.Entered i p k.userRsp
  | .user => p.kcontValid = false
  | .call _ => p.kcontValid = false
  | .host => True
  | .halted => True

structure StackInv (s : Sys) : Prop where
  slot : ∀ i, s.k.sched.current = some i → s.k.currentSlot = i
  other : ∀ i p, s.k.sched.current ≠ some i → s.k.sched.procs i = some p →
    s.k.Entered i p p.userRsp
  own : ∀ i p, s.k.sched.current = some i → s.k.sched.procs i = some p →
    s.mode.phase.StackOk s.k i p
  rsp : ∀ rsp, s.mode.phase = .call rsp → s.k.userRsp = rsp
  host : s.mode.phase = .host → s.k.sched.current = none
  zombie : ∀ i p, s.k.sched.procs i = some p → p.state = .zombie → p.kcontValid = false

theorem stackInv_boot (ready : Bool) : StackInv (Sys.boot ready) := by
  constructor <;> simp [Sys.boot, Kernel.init, Sched.init, Mode.phase]

section Steps

variable {s : Sys} {k' : Kernel}

theorem Frame.entered {k : Kernel} (hf : Frame k k') {i : Slot} {p' : Pcb} {f : Pcb → UInt64}
    (hp' : k'.sched.procs i = some p') (hfp : ∀ p, Evolves p p' → f p' = f p)
    (h : ∀ p, k.sched.procs i = some p → k.Entered i p (f p)) : k'.Entered i p' (f p') := by
  intro hk
  rcases hf.slot i with ⟨hp, hq, he, hc⟩ | ⟨-, -, hn, -⟩ | ⟨-, hn⟩ | ⟨-, hq, -, -, hkc⟩
  · obtain rfl := Option.some.inj (hq.symm.trans hp')
    obtain ⟨c, hcc, hr⟩ := h _ hp (he.kcont_mono hk)
    exact ⟨c, hc.trans hcc, (hfp _ he).trans hr⟩
  · simp [hp'] at hn
  · simp [hp'] at hn
  · obtain rfl := Option.some.inj (hq.symm.trans hp')
    simp [hkc] at hk

theorem Frame.zombie_kcont {k : Kernel} (hf : Frame k k')
    (h : ∀ i p, k.sched.procs i = some p → p.state = .zombie → p.kcontValid = false) (i : Slot)
    (p' : Pcb) (hp' : k'.sched.procs i = some p') (hz : p'.state = .zombie) :
    p'.kcontValid = false := by
  rcases hf.slot i with ⟨hp, hq, he, -⟩ | ⟨-, -, hn, -⟩ | ⟨-, hn⟩ | ⟨-, hq, -, -, hkc⟩
  · obtain rfl := Option.some.inj (hq.symm.trans hp')
    exact he.kcont_of_zombie (h i _ hp) hz
  · simp [hp'] at hn
  · simp [hp'] at hn
  · obtain rfl := Option.some.inj (hq.symm.trans hp')
    exact hkc

theorem Frame.kcont_false {k : Kernel} (hf : Frame k k') {i : Slot} {p' : Pcb}
    (hp' : k'.sched.procs i = some p')
    (h : ∀ p, k.sched.procs i = some p → p.kcontValid = false) : p'.kcontValid = false := by
  rcases hf.slot i with ⟨hp, hq, he, -⟩ | ⟨-, -, hn, -⟩ | ⟨-, hn⟩ | ⟨-, hq, -, -, hkc⟩
  · obtain rfl := Option.some.inj (hq.symm.trans hp')
    rcases he.kcont with hk | ⟨-, hk⟩
    · exact hk.trans (h _ hp)
    · exact hk
  · simp [hp'] at hn
  · simp [hp'] at hn
  · obtain rfl := Option.some.inj (hq.symm.trans hp')
    exact hkc

theorem StackInv.frame (hs : StackInv s) (hf : Frame s.k k') {m : Mode}
    (hown : ∀ i p, k'.sched.current = some i → k'.sched.procs i = some p → m.phase.StackOk k' i p)
    (hrsp : ∀ rsp, m.phase = .call rsp → s.k.userRsp = rsp)
    (hhost : m.phase = .host → s.k.sched.current = none) : StackInv ⟨k', m⟩ where
  slot i hi := by
    rw [hf.currentSlot]
    exact hs.slot i (hf.current ▸ hi)
  other i p' hi hp' :=
    hf.entered (f := Pcb.userRsp) hp' (fun p he => he.userRsp) fun p hp =>
      hs.other i p (hf.current ▸ hi) hp
  own := hown
  rsp r hr := hf.userRsp.trans (hrsp r hr)
  host h := hf.current.trans (hhost h)
  zombie := hf.zombie_kcont hs.zombie

theorem StackInv.running (hs : StackInv s) (hf : Frame s.k k') {m : Mode}
    (hph : s.mode.phase = .user ∨ ∃ rsp, s.mode.phase = .call rsp) (hm : m.phase = .user) :
    StackInv ⟨k', m⟩ := by
  refine hs.frame hf (fun i p' hi hp' => ?_) (by simp [hm]) (by simp [hm])
  rw [hm]
  refine hf.kcont_false hp' fun p hp => ?_
  have hold := hs.own i p (hf.current ▸ hi) hp
  rcases hph with h | ⟨rsp, h⟩
  all_goals rwa [h] at hold

theorem StackInv.calm (hs : StackInv s) (hf : Frame s.k k') {m : Mode}
    (hm : m.phase = s.mode.phase) : StackInv ⟨k', m⟩ := by
  refine hs.frame hf (fun i p' hi hp' => ?_) (fun r hr => hs.rsp r (hm ▸ hr))
    fun h => hs.host (hm ▸ h)
  have hold := fun p hp => hs.own i p (hf.current ▸ hi) hp
  rw [hm]
  cases hph : s.mode.phase with
  | sched =>
    rw [Phase.StackOk, hf.userRsp]
    refine hf.entered (f := fun _ => s.k.userRsp) hp' (fun p he => rfl) fun p hp => ?_
    have := hold p hp
    rwa [hph] at this
  | user | call =>
    refine hf.kcont_false hp' fun p hp => ?_
    have := hold p hp
    rwa [hph] at this
  | host => trivial
  | halted => trivial

theorem StackInv.entry (hs : StackInv s) {rsp : UInt64} (hmode : s.mode = .user)
    (hf : Frame { s.k with userRsp := rsp } k') {m : Mode} (hm : m.phase = .call rsp) :
    StackInv ⟨k', m⟩ := by
  have hin : StackInv ⟨{ s.k with userRsp := rsp }, .irqOpen ⟨.wait, rsp⟩⟩ := by
    refine ⟨hs.slot, hs.other, fun i p hi hp => ?_, fun r hr => ?_, by simp [Mode.phase], hs.zombie⟩
    · have := hs.own i p hi hp
      rwa [hmode] at this
    · simpa [Mode.phase] using hr
  exact hin.calm hf (by rw [hm]; rfl)

theorem StackInv.block (hs : StackInv s) {k₁ : Kernel} {st : State} {q : Point} {rsp : UInt64}
    (hph : s.mode.phase = .call rsp) (hf : Frame s.k k₁) (hst : st ≠ .zombie)
    (hy : yieldBlock k₁ st ⟨q, rsp⟩ = some k') : StackInv ⟨k', .sched⟩ := by
  have h₁ : StackInv ⟨k₁, s.mode⟩ := hs.calm hf rfl
  obtain ⟨i, p, hi, hp, rfl⟩ := yieldBlock_some hy
  have hslot : k₁.currentSlot = i := h₁.slot i hi
  have hne : ∀ j, k₁.sched.current ≠ some j → j ≠ i := fun j hj he => hj (he ▸ hi)
  refine ⟨h₁.slot, fun j q' hj hq => ?_, fun j q' hj hq => ?_, by simp [Mode.phase],
    by simp [Mode.phase], fun j q' hq hz => ?_⟩
  · have hji := hne j hj
    rw [Sched.setProc_of_ne _ hji] at hq
    intro hk
    obtain ⟨c, hc, hr⟩ := h₁.other j q' hj hq hk
    refine ⟨c, ?_, hr⟩
    simpa [hslot, Function.update_of_ne hji] using hc
  · obtain rfl : j = i := by simpa [hi] using hj.symm
    intro _
    exact ⟨⟨q, rsp⟩, by simp [hslot], h₁.rsp rsp hph⟩
  · by_cases hji : j = i
    · subst hji
      simp only [Sched.setProc_self, Option.some.injEq] at hq
      subst hq
      exact absurd hz hst
    · rw [Sched.setProc_of_ne _ hji] at hq
      exact h₁.zombie j q' hq hz

theorem stackInv_enter {s₁ : Sched} {slot : Slot} {p : Pcb} {m : Mode}
    (hold : ∀ i q, i ≠ slot → s₁.procs i = some q → s.k.Entered i q q.userRsp ∧
      (q.state = .zombie → q.kcontValid = false))
    (hm : m.phase = .user ∨ m.phase = .call p.userRsp) :
    StackInv ⟨{ s.k with
      sched := s₁.enter slot p, currentSlot := slot, userRsp := p.userRsp }, m⟩ := by
  have hne : ∀ i, (s₁.enter slot p).current ≠ some i → i ≠ slot := fun i hi he => hi (he ▸ rfl)
  refine ⟨fun i hi => Option.some.inj hi, fun i q hi hq => ?_, fun i q hi hq => ?_, fun r hr => ?_,
    fun h => ?_, fun i q hq hz => ?_⟩
  · rw [Sched.enter_of_ne _ (hne i hi)] at hq
    exact (hold i q (hne i hi) hq).1
  · obtain rfl := Option.some.inj hi
    obtain rfl := Option.some.inj ((Sched.enter_self _ _ _).symm.trans hq)
    rcases hm with h | h <;> rw [h] <;> rfl
  · rcases hm with h | h
    · simp [h] at hr
    · simpa [h] using hr
  · rcases hm with h' | h' <;> simp [h'] at h
  · by_cases hi : i = slot
    · subst hi
      obtain rfl := Option.some.inj ((Sched.enter_self _ _ _).symm.trans hq)
      rfl
    · rw [Sched.enter_of_ne _ hi] at hq
      exact (hold i q hi hq).2 hz

theorem StackInv.saved (hs : StackInv s) (hmode : s.mode = .sched) {slot i : Slot} {q : Pcb}
    (hi : i ≠ slot) (hq : (saveOutgoing s.k slot).procs i = some q) :
    s.k.Entered i q q.userRsp ∧ (q.state = .zombie → q.kcontValid = false) := by
  rcases saveOutgoing_cases s.k hi with ⟨hc, he⟩ | ⟨hc, he⟩
  · rw [he] at hq
    exact ⟨hs.other i q hc hq, hs.zombie i q hq⟩
  · rw [he, Option.map_eq_some_iff] at hq
    obtain ⟨p, hp, rfl⟩ := hq
    have hown := hs.own i p hc hp
    rw [hmode] at hown
    refine ⟨hown, fun hz => hs.zombie i p hp ?_⟩
    simp only at hz
    split at hz
    · simp at hz
    · exact hz

theorem pick_stackKept (hs : StackInv s) (hmode : s.mode = .sched) {slot : Slot}
    {r : Kernel × Resume} (hpick : pickRunnable s.k.sched = some slot)
    (hr : switchTo s.k slot = some r) :
    stackKept ⟨s, .schedule, resumed r⟩ = selfPickSaved ⟨s, .schedule, resumed r⟩ := by
  obtain ⟨k', res⟩ := r
  obtain ⟨p, hp, hk, hres⟩ := switchTo_some hr
  rw [saveOutgoing_self] at hp
  simp only at hk
  subst hk
  rcases hres with ⟨hv, c, hc, rfl⟩ | ⟨hv, rfl⟩
  · by_cases hcur : s.k.sched.current = some slot
    · have hown := hs.own slot p hcur hp
      rw [hmode] at hown
      obtain ⟨c', hc', hrsp⟩ := hown hv
      obtain rfl : c' = c := by simpa [hc] using hc'.symm
      simp [stackKept, selfPickSaved, resumed, hpick, hcur, hp, hv, hrsp]
    · obtain ⟨c', hc', hrsp⟩ := hs.other slot p hcur hp hv
      obtain rfl : c' = c := by simpa [hc] using hc'.symm
      simp [stackKept, selfPickSaved, resumed, hpick, hcur, hrsp]
  · simp [stackKept, selfPickSaved, resumed, hpick, hp, hv]

theorem StackInv.can_switch (hs : StackInv s) (hmode : s.mode = .sched) {slot : Slot}
    (hpick : pickRunnable s.k.sched = some slot) : ∃ r, switchTo s.k slot = some r := by
  obtain ⟨p, hp, -⟩ := pickRunnable_some hpick
  have hentered : p.kcontValid = true → ∃ c, s.k.kconts slot = some c := by
    intro hv
    by_cases hcur : s.k.sched.current = some slot
    · have hown := hs.own slot p hcur hp
      rw [hmode] at hown
      obtain ⟨c, hc, -⟩ := hown hv
      exact ⟨c, hc⟩
    · obtain ⟨c, hc, -⟩ := hs.other slot p hcur hp hv
      exact ⟨c, hc⟩
  have hself : (saveOutgoing s.k slot).procs slot = some p := (saveOutgoing_self _ _).trans hp
  simp only [switchTo, makeCurrent, hself, applyHw, resume, Sched.setProc_self, Option.bind_eq_bind,
    Option.bind_some, Option.map_some]
  cases hv : p.kcontValid with
  | false => exact ⟨_, rfl⟩
  | true =>
    obtain ⟨c, hc⟩ := hentered hv
    exact ⟨_, by simp [hc]; rfl⟩

theorem StackInv.pick (hs : StackInv s) (hmode : s.mode = .sched) {slot : Slot}
    {r : Kernel × Resume} (hr : switchTo s.k slot = some r)
    (hkept : stackKept ⟨s, .schedule, resumed r⟩ = true) : StackInv (resumed r) := by
  obtain ⟨k', res⟩ := r
  obtain ⟨p, hp, hk, hres⟩ := switchTo_some hr
  simp only at hk
  subst hk
  have hold := fun (i : Slot) (q : Pcb) (hi : i ≠ slot) hq => hs.saved hmode (q := q) hi hq
  rcases hres with ⟨-, c, -, rfl⟩ | ⟨-, rfl⟩
  · have hrsp : p.userRsp = c.entryRsp := by simpa [stackKept, resumed] using hkept
    exact stackInv_enter hold (Or.inr (by rw [hrsp]; rfl))
  · exact stackInv_enter hold (Or.inl rfl)

theorem StackInv.preempt (hs : StackInv s) {frame : TrapFrame} {r : Kernel × Resume}
    (ht : timerFromUser s.k frame = some (.switch r)) :
    stackKept ⟨s, .timer frame, resumed r⟩ = true ∧ StackInv (resumed r) := by
  obtain ⟨k', res⟩ := r
  obtain ⟨cur, n, q, p, hc, hq, hz, hne, hp, -, hk, hres⟩ := timerFromUser_switch ht
  simp only at hk
  subst hk
  have hcur : s.k.sched.current ≠ some n := by simpa [hc] using Ne.symm hne
  have hold : ∀ i q', i ≠ n → (s.k.sched.setProc cur { q with
      trap := frame, state := .runnable, kcontValid := false, userRsp := s.k.userRsp }).procs i =
        some q' → s.k.Entered i q' q'.userRsp ∧ (q'.state = .zombie → q'.kcontValid = false) := by
    intro i q' _ hq'
    by_cases hi : i = cur
    · subst hi
      obtain rfl := Option.some.inj ((Sched.setProc_self _ _ _).symm.trans hq')
      exact ⟨fun h => by simp at h, fun h => by simp at h⟩
    · rw [Sched.setProc_of_ne _ hi] at hq'
      exact ⟨hs.other i q' (by simpa [hc] using Ne.symm hi) hq', hs.zombie i q' hq'⟩
  rcases hres with ⟨hv, c, hkc, rfl⟩ | ⟨-, rfl⟩
  · obtain ⟨c', hc', hrsp⟩ := hs.other n p hcur hp hv
    obtain rfl : c' = c := by simpa [hkc] using hc'.symm
    refine ⟨by simpa [stackKept, resumed] using hrsp, stackInv_enter hold (Or.inr ?_)⟩
    rw [hrsp]
    rfl
  · exact ⟨rfl, stackInv_enter hold (Or.inl rfl)⟩

theorem StackInv.start (hs : StackInv s) (hmode : s.mode = .host) {image : Image} {name : Bytes}
    {exclusive : Bool} {argv : Option ArgvSetup} {r : Kernel × Option TrapFrame}
    (hr : runWith s.k image name exclusive argv = some r) :
    StackInv ⟨r.1, if r.2.isSome then .user else .host⟩ := by
  have hcur : s.k.sched.current = none := hs.host (by rw [hmode]; rfl)
  rcases runWith_some hr with rfl | ⟨slot, av, hfree, rfl⟩
  · refine ⟨by simp, fun i p _ hp => hs.other i p (by simp [hcur]) hp, by simp,
      by simp [Mode.phase], fun _ => rfl, hs.zombie⟩
  · have hne : ∀ i p, i ≠ slot → s.k.sched.procs i = some p →
        s.k.Entered i p p.userRsp ∧ (p.state = .zombie → p.kcontValid = false) :=
      fun i p _ hp => ⟨hs.other i p (by simp [hcur]) hp, hs.zombie i p hp⟩
    refine ⟨fun i hi => Option.some.inj hi, fun i p hi hp => ?_, fun i p hi hp => ?_,
      by simp [Mode.phase], by simp [Mode.phase], fun i p hp hz => ?_⟩
    · have his : i ≠ slot := fun he => hi (he ▸ rfl)
      simp only [Sched.setProc, Function.update_of_ne his] at hp
      intro hk
      obtain ⟨c, hc, hrsp⟩ := (hne i p his hp).1 hk
      exact ⟨c, by simpa [Function.update_of_ne his] using hc, hrsp⟩
    · obtain rfl := Option.some.inj hi
      simp only [Sched.setProc, Function.update_self, Option.some.injEq] at hp
      subst hp
      rfl
    · by_cases his : i = slot
      · subst his
        simp only [Sched.setProc, Function.update_self, Option.some.injEq] at hp
        subst hp
        rfl
      · simp only [Sched.setProc, Function.update_of_ne his] at hp
        exact (hne i p his hp).2 hz

theorem StackInv.exit (hs : StackInv s) {o : Outcome} {r : Kernel × Bool}
    (hr : userExit s.k o = some r) : StackInv (exited r) := by
  obtain ⟨k', left⟩ := r
  cases left with
  | true =>
    obtain ⟨hc, hp⟩ := userExit_leave hr
    refine ⟨by simp [exited, hc], ?_, ?_, by simp [exited, Mode.phase], fun _ => hc, ?_⟩
    all_goals simp [exited, hp]
  | false =>
    obtain ⟨hf, i, p, hi, hp, -, hk⟩ := userExit_stay hr
    refine hs.frame hf (fun j q hj hq => ?_) (by simp [Mode.phase]) (by simp [Mode.phase])
    obtain rfl : i = j := by simpa [hf.current, hi] using hj
    obtain rfl := Option.some.inj (hp.symm.trans hq)
    exact fun h => by simp [hk] at h

theorem StackInv.drop (hs : StackInv s) {cur : Slot} (hc : s.k.sched.current = some cur)
    (hz : ∀ p, s.k.sched.procs cur = some p → p.state = .zombie) : StackInv ⟨s.k, .sched⟩ := by
  refine hs.frame (.refl s.k) (fun i p hi hp => ?_) (by simp [Mode.phase]) (by simp [Mode.phase])
  obtain rfl : cur = i := by simpa [hc] using hi
  have hk := hs.zombie cur p hp (hz p hp)
  exact fun h => by simp [hk] at h

theorem StackInv.step (hs : StackInv s) {a : Act} {s' : Sys} (h : s.step a = some s')
    (hkept : stackKept ⟨s, a, s'⟩ = true) : StackInv s' := by
  cases step_cases h with
  | calm hc hm => exact hs.calm hc.frame hm.phase
  | entry hmode hc hm => exact hs.entry hmode hc.calm.frame (Mode.phase_of_cont hm)
  | ret hmode ht => exact hs.running ht.frame (Or.inr ⟨_, by rw [hmode]; rfl⟩) rfl
  | read hmode hr => exact hs.running (Calm.read hr).frame (Or.inr ⟨_, by rw [hmode]; rfl⟩) rfl
  | write hmode _ hw => exact hs.running (Calm.write hw).frame (Or.inr ⟨_, by rw [hmode]; rfl⟩) rfl
  | block hmode ho hy =>
    obtain ⟨hc, hst⟩ := (runPoint_after ho).block_calm
    exact hs.block (by rw [hmode]; rfl) hc.frame hst hy
  | exit hr => exact hs.exit hr
  | drop hc hz => exact hs.drop hc hz
  | pick hmode _ hr => exact hs.pick hmode hr hkept
  | preempt _ ht => exact (hs.preempt ht).2
  | start hmode hr => exact hs.start hmode hr
  | halt hc =>
    exact hs.frame hc.frame (fun _ _ _ _ => trivial) (by simp [Mode.phase]) (by simp [Mode.phase])

theorem step_stackKept (hs : StackInv s) {a : Act} {s' : Sys} (h : s.step a = some s') :
    stackKept ⟨s, a, s'⟩ = selfPickSaved ⟨s, a, s'⟩ := by
  cases a with
  | schedule =>
    have hmode : s.mode = .sched := by
      unfold Sys.step at h
      split at h <;> simp_all
    simp only [Sys.step, hmode, Option.some.injEq] at h
    subst h
    unfold scheduleStep
    cases hp : pickRunnable s.k.sched with
    | none =>
      simp only [enterPoll]
      split <;> simp [stackKept, selfPickSaved, hp, Back.afterPoll]
    | some slot =>
      obtain ⟨r, hr⟩ := hs.can_switch hmode hp
      simpa only [hr, Option.map_some, orHalt, Option.getD_some] using pick_stackKept hs hmode hp hr
  | timer frame =>
    have hmode : s.mode = .user := by
      unfold Sys.step at h
      split at h <;> simp_all
    simp only [Sys.step, hmode, Option.some.injEq] at h
    subst h
    unfold timerStep
    cases ht : timerFromUser s.k frame with
    | none => rfl
    | some r =>
      cases r with
      | same | schedule => rfl
      | switch r => exact (hs.preempt ht).1
  | runWith | shellByte | poll | syscall | fault | keyboard | key | launch | compositor | pollEnd
  | irqEnd | run | wake => rfl

end Steps

/-- Along a run, every resume through a continuation finds the stack pointer of the
call's entry iff no process is picked again with a stale saved value. -/
theorem resume_stack_iff {ready : Bool} {ts : List (Trans Sys Act)} {s : Sys}
    (h : Run ready ts s) :
    (∀ t ∈ ts, stackKept t = true) ↔ ∀ t ∈ ts, selfPickSaved t = true := by
  refine Path.forall_iff (stackInv_boot ready) (fun t ht hI => ?_) (fun t ht hI hc => ?_) h
  · rw [step_stackKept hI ht]
  · exact hI.step ht ((step_stackKept hI ht).trans hc)

def waitRun (rsp : UInt64) : List Act :=
  [Sample.init] ++ Sample.call 256 7 4096 0 0 ++ [Sample.run, .timer {}] ++
    Sample.call 768 4 0 20480 1 ++ [Sample.run, Sample.run, .pollEnd, Sample.run, .schedule] ++
    Sample.call rsp 8 0 0 0 ++
    [Sample.run, Sample.run, .schedule, .key 3, .pollEnd, .wake, .schedule]

theorem resume_stack_same_rsp : ∃ ts s, Run true ts s ∧ s.mode = .kernel ⟨.wait, 256⟩ ∧
    ∀ t ∈ ts, stackKept t = true := by
  obtain ⟨r, hr, hp⟩ := exists_path_of_replay Sys.step (Sys.boot true)
    (waitRun 256)
    (fun r => r.1.all selfPickSaved && decide (r.2.mode = .kernel ⟨.wait, 256⟩))
    (by decide)
  simp only [Bool.and_eq_true, List.all_eq_true, decide_eq_true_eq] at hp
  exact ⟨r.1, r.2, hr, hp.2, (resume_stack_iff hr).mpr hp.1⟩

/-- With another stack pointer at the entry of `sys_wait`, the resume reloads the one
saved at the preemption. -/
theorem resume_stack_stale : ¬ ∀ ready ts s, Run ready ts s → ∀ t ∈ ts, stackKept t = true := by
  intro h
  obtain ⟨r, hr, hp⟩ := exists_path_of_replay Sys.step (Sys.boot true)
    (waitRun 512) (fun r => !r.1.all stackKept) (by decide)
  have hall := h true r.1 r.2 hr
  simp [List.all_eq_true.mpr hall] at hp

end CoeleoOs.Task
