import CoeleoOs.Task.Blocked
import CoeleoOs.Task.PipeData

/-!
# Reaching the idle loop

When no process can go on, `schedule_next` should find nobody to run and halt
the processor until an interrupt. A process that finds its pipe not ready wakes
every other process that is blocked on a pipe before it blocks itself. One such
process comes to rest; two of them wake each other for ever.
-/

namespace CoeleoOs.Task
open CoeleoOs.Lib CoeleoOs.Lib.Machine

def wouldBlock (ps : Pipes) (c : KernelCont) : Bool :=
  match c.point with
  | .readPipe id _ n => (Pipe.read ps id n).1 = .wouldBlock
  | .writePipe id _ n => (Pipe.write ps id (List.replicate n 0)).1 = .wouldBlock
  | _ => false

def State.mayRun : State → Bool
  | .runnable | .running | .blockedPipeRead | .blockedPipeWrite => true
  | _ => false

/-- A process in slot `i` that has not ended is inside `read_pipe` or `write_pipe`, at an
operation that would return `WouldBlock`. -/
def Kernel.atPipe (k : Kernel) (i : Slot) : Bool :=
  (k.sched.procs i).any fun p =>
    p.state.mayRun && p.kcontValid && (k.kconts i).any (wouldBlock k.pipes)

/-- No process that has not ended can go on: it waits for a key and there is none, or for a
child and none is a zombie, or for a pipe that is not ready. -/
def Kernel.stuck (k : Kernel) : Bool :=
  (List.finRange maxProc).all fun i => (k.sched.procs i).all fun p =>
    p.state = .zombie || (p.state = .blockedStdin && k.keys.isEmpty) ||
      (p.state = .blockedWait && (zombieChild k.sched p.pid).isNone) || k.atPipe i

def turn (e : Env) (s : Sys) : Option Sys :=
  match s.mode with
  | .sched => s.step .schedule
  | .kernel _ => s.step (.run e)
  | _ => none

/-- The first `n` turns, each with the user memory and the devices as they are then. -/
def turns : ℕ → (ℕ → Env) → Sys → Option Sys
  | 0, _, s => some s
  | n + 1, es, s => (turn (es 0) s).bind (turns n fun i => es (i + 1))

/-- `pick_runnable` finds nobody, so that the loop polls and halts. -/
def Sys.AtRest (s : Sys) : Prop := s.mode = .sched ∧ pickRunnable s.k.sched = none

theorem pickRunnable_none {s : Sched} (h : pickRunnable s = none) {i : Slot} {p : Pcb}
    (hp : s.procs i = some p) : p.eligible = false := by
  have hmem : i ∈ (List.range maxProc).map (cyclic (s.current.elim 0 fun c => c.val + 1)) := by
    generalize s.current.elim 0 (fun c => c.val + 1) = start
    refine List.mem_map.mpr ⟨(i.val + maxProc * (start + 1) - start) % maxProc,
      List.mem_range.mpr (Nat.mod_lt _ (by decide)), ?_⟩
    apply Fin.ext
    have := i.isLt
    simp only [cyclic, maxProc] at *
    omega
  have hi := List.find?_eq_none.mp h i hmem
  simpa [hp] using hi

theorem switchTo_kcont {k : Kernel} {slot : Slot} {p : Pcb} {c : KernelCont}
    (hp : k.sched.procs slot = some p) (hv : p.kcontValid = true) (hc : k.kconts slot = some c) :
    ∃ k', switchTo k slot = some (k', .kcont c) := by
  have hself : (saveOutgoing k slot).procs slot = some p := (saveOutgoing_self _ _).trans hp
  simp only [switchTo, makeCurrent, hself, applyHw, resume, Sched.setProc_self, Option.bind_eq_bind,
    Option.bind_some, Option.map_some, hv, if_true, hc]
  exact ⟨_, rfl⟩

theorem wouldBlock_out {k : Kernel} {c : KernelCont} {e : Env} (hc : wouldBlock k.pipes c = true)
    (hs : c.point.Sound) : ∃ st, st.onPipe = true ∧ (runPoint c.point).out e k =
      some (.block st c.point, { k with sched := k.sched.wakePipeLocked }) := by
  obtain ⟨point, rsp⟩ := c
  cases point with
  | readPipe id buf n =>
    have hr : (Pipe.read k.pipes id n).1 = .wouldBlock := of_decide_eq_true hc
    refine ⟨.blockedPipeRead, rfl, ?_⟩
    have hps := (Pipe.read_wouldBlock hr).1
    rw [readPipe_out, ← Prod.mk.eta (p := Pipe.read k.pipes id n), hr, hps]
  | writePipe id buf n =>
    have hr : (Pipe.write k.pipes id (List.replicate n 0)).1 = .wouldBlock := of_decide_eq_true hc
    refine ⟨.blockedPipeWrite, rfl, ?_⟩
    obtain ⟨-, hne, hu, hread, hl⟩ := Pipe.write_wouldBlock hr
    have hlen : userBytes e buf n ≠ [] := by
      refine List.ne_nil_of_length_pos ?_
      have := hs.1
      simpa [userBytes] using this
    rw [writePipe_out hs.2]
    simp [Pipe.write, hlen, hu, hl, Nat.ne_of_gt hread]
  | dispatch _ _ _ _ | readStdin _ | stdinPolled _ | wait | netPing _ _ _ | httpGet _ _ _ =>
    simp [wouldBlock] at hc

structure Stays (p p' : Pcb) : Prop where
  pid : p'.pid = p.pid
  parent : p'.parent = p.parent
  kcontValid : p'.kcontValid = p.kcontValid
  state : p'.state = p.state ∨ (p.state.mayRun = true ∧ p'.state.mayRun = true)

structure Round (k k' : Kernel) (i : Slot) : Prop where
  pipes : k'.pipes = k.pipes
  keys : k'.keys = k.keys
  kconts : k'.kconts = k.kconts
  slots : ∀ j, (k.sched.procs j = none ∧ k'.sched.procs j = none) ∨
    ∃ p p', k.sched.procs j = some p ∧ k'.sched.procs j = some p' ∧ Stays p p'
  self : ∃ p', k'.sched.procs i = some p' ∧ p'.state.onPipe = true
  others : ∀ j p', j ≠ i → k'.sched.procs j = some p' → p'.state.onPipe = false

theorem State.mayRun_of_onPipe {st : State} (h : st.onPipe = true) : st.mayRun = true := by
  cases st <;> simp_all [State.onPipe, State.mayRun]

theorem yieldBlock_eq {k : Kernel} (st : State) (c : KernelCont) {i : Slot} {p : Pcb}
    (hi : k.sched.current = some i) (hp : k.sched.procs i = some p) :
    yieldBlock k st c = some { k with
      kconts := Function.update k.kconts k.currentSlot (some c)
      sched := k.sched.setProc i { p with state := st, kcontValid := true } } := by
  simp [yieldBlock, hi, hp]

section Rounds

variable {k k' : Kernel} {i : Slot}

theorem atPipe_iff : k.atPipe i = true ↔ ∃ p c, k.sched.procs i = some p ∧
    p.state.mayRun = true ∧ p.kcontValid = true ∧ k.kconts i = some c ∧
    wouldBlock k.pipes c = true := by
  simp only [Kernel.atPipe, Option.any_eq_true, Bool.and_eq_true]
  constructor
  · rintro ⟨p, hp, ⟨hm, hv⟩, c, hc, hw⟩
    exact ⟨p, c, hp, hm, hv, hc, hw⟩
  · rintro ⟨p, c, hp, hm, hv, hc, hw⟩
    exact ⟨p, hp, ⟨hm, hv⟩, c, hc, hw⟩

theorem atPipe_of_eligible (hs : k.stuck = true) {p : Pcb} (hp : k.sched.procs i = some p)
    (he : p.eligible = true) : k.atPipe i = true := by
  have hi := List.all_eq_true.mp hs i (List.mem_finRange i)
  simp only [hp, Option.all_some, Bool.or_eq_true, Bool.and_eq_true, decide_eq_true_eq] at hi
  simp only [Pcb.eligible, decide_eq_true_eq] at he
  rcases hi with ((hz | ⟨hb, -⟩) | ⟨hb, -⟩) | hat
  · simp [hz] at he
  · simp [hb] at he
  · simp [hb] at he
  · exact hat

theorem wake_stays {p q : Pcb} (h : Stays p q) : Stays p
    (if q.state = .blockedPipeRead ∨ q.state = .blockedPipeWrite then { q with state := .runnable }
      else q) := by
  split
  · rename_i hq
    have hm : q.state.mayRun = true := by rcases hq with hq | hq <;> rw [hq] <;> rfl
    refine ⟨h.pid, h.parent, h.kcontValid, Or.inr ⟨?_, rfl⟩⟩
    rcases h.state with he | ⟨hp, -⟩
    · exact he ▸ hm
    · exact hp
  · exact h

theorem saveOutgoing_stays {j : Slot} (hj : j ≠ i) :
    (k.sched.procs j = none ∧ (saveOutgoing k i).procs j = none) ∨
      ∃ p p', k.sched.procs j = some p ∧ (saveOutgoing k i).procs j = some p' ∧ Stays p p' := by
  cases hp : k.sched.procs j with
  | none =>
    rcases saveOutgoing_cases k hj with ⟨-, he⟩ | ⟨-, he⟩ <;>
      exact Or.inl ⟨rfl, by simp [he, hp]⟩
  | some p =>
    refine Or.inr ⟨p, ?_⟩
    rcases saveOutgoing_cases k hj with ⟨-, he⟩ | ⟨-, he⟩
    · exact ⟨p, rfl, he.trans hp, rfl, rfl, rfl, Or.inl rfl⟩
    · refine ⟨{ p with
        state := if p.state = .running then .runnable else p.state, userRsp := k.userRsp },
        rfl, by rw [he, hp]; rfl, rfl, rfl, rfl, ?_⟩
      by_cases hr : p.state = .running
      · exact Or.inr ⟨by rw [hr]; rfl, by simp [hr, State.mayRun]⟩
      · exact Or.inl (by simp [hr])

theorem schedule_round (hs : k.stuck = true) (hsound : ∀ i c, k.kconts i = some c → c.point.Sound)
    (hpick : pickRunnable k.sched = some i) :
    ∃ k₁ c, scheduleStep k = ⟨k₁, .kernel c⟩ ∧
      ∀ e, ∃ k', runCall k₁ c e = ⟨k', .sched⟩ ∧ Round k k' i := by
  obtain ⟨p, hp, hel⟩ := pickRunnable_some hpick
  obtain ⟨p', c, hp', hm, hv, hc, hw⟩ :=
    atPipe_iff.mp (atPipe_of_eligible hs hp (by simpa [Pcb.eligible] using hel))
  obtain rfl := Option.some.inj (hp.symm.trans hp')
  obtain ⟨k₁, hsw⟩ := switchTo_kcont hp hv hc
  obtain ⟨q, hq, hk₁, -⟩ := switchTo_some hsw
  obtain rfl := Option.some.inj (hp.symm.trans ((saveOutgoing_self k i).symm.trans hq))
  simp only at hk₁
  refine ⟨k₁, c, by simp [scheduleStep, hpick, hsw, orHalt, resumed], fun e => ?_⟩
  obtain ⟨st, hst, hout⟩ :=
    wouldBlock_out (k := k₁) (e := e) (by rw [hk₁]; exact hw) (hsound i c hc)
  have hself : k₁.sched.wakePipeLocked.procs i =
      some { p with state := .running, kcontValid := false } := by
    rw [hk₁]
    simp [Sched.wakePipeLocked]
  have hcur : k₁.sched.wakePipeLocked.current = some i := by
    rw [hk₁]
    rfl
  have hyield := yieldBlock_eq (k := { k₁ with sched := k₁.sched.wakePipeLocked }) st
    ⟨c.point, c.entryRsp⟩ hcur hself
  refine ⟨_, by rw [runCall, hout]; simp only [proceed, hyield, Option.map_some, orHalt]; rfl, ?_⟩
  have hother : ∀ j ≠ i, k₁.sched.wakePipeLocked.procs j = ((saveOutgoing k i).procs j).map
      fun p => if p.state = .blockedPipeRead ∨ p.state = .blockedPipeWrite then
        { p with state := .runnable } else p := by
    intro j hj
    rw [hk₁]
    simp [Sched.wakePipeLocked, Sched.enter_of_ne _ hj]
  refine ⟨by rw [hk₁], by rw [hk₁], ?_, fun j => ?_, ⟨_, Sched.setProc_self _ _ _, hst⟩,
    fun j p' hj hp' => wakePipeLocked_onPipe ((Sched.setProc_of_ne _ hj _).symm.trans hp')⟩
  · rw [hk₁]
    exact (congrArg (Function.update k.kconts i) hc.symm).trans (Function.update_eq_self i k.kconts)
  · by_cases hj : j = i
    · subst hj
      exact Or.inr ⟨p, _, hp, Sched.setProc_self _ _ _, rfl, rfl, hv.symm,
        Or.inr ⟨hm, State.mayRun_of_onPipe hst⟩⟩
    · have hset := Sched.setProc_of_ne k₁.sched.wakePipeLocked hj
        { p with state := st, kcontValid := true }
      rcases saveOutgoing_stays (k := k) hj with ⟨hn, hn'⟩ | ⟨x, y, hx, hy, hxy⟩
      · exact Or.inl ⟨hn, hset.trans (by rw [hother j hj, hn']; rfl)⟩
      · exact Or.inr ⟨x, _, hx, hset.trans (by rw [hother j hj, hy]; rfl), wake_stays hxy⟩

theorem Round.atPipe (h : Round k k' i) (j : Slot) : k'.atPipe j = true ↔ k.atPipe j = true := by
  rw [atPipe_iff, atPipe_iff, h.pipes, h.kconts]
  rcases h.slots j with ⟨hn, hn'⟩ | ⟨p, p', hp, hp', hstay⟩
  · simp [hn, hn']
  · have hm : p'.state.mayRun = p.state.mayRun := by
      rcases hstay.state with he | ⟨ha, hb⟩
      · rw [he]
      · rw [ha, hb]
    simp [hp, hp', hm, hstay.kcontValid]

theorem Round.zombieChild (h : Round k k' i) {pid : ℕ} (hz : zombieChild k.sched pid = none) :
    zombieChild k'.sched pid = none := by
  refine Table.position_eq_none_iff.mpr fun j => ?_
  rcases h.slots j with ⟨-, hn'⟩ | ⟨p, p', hp, hp', hstay⟩
  · simp [hn']
  · have hold := Table.position_any_none hz hp
    simp only [decide_eq_false_iff_not, not_and] at hold
    simp only [hp', Option.any_some, decide_eq_false_iff_not, not_and, hstay.parent]
    intro hpar hzz
    rcases hstay.state with he | ⟨-, hb⟩
    · exact hold hpar (he ▸ hzz)
    · simp [hzz, State.mayRun] at hb

theorem Round.stuck (h : Round k k' i) (hs : k.stuck = true) : k'.stuck = true := by
  refine List.all_eq_true.mpr fun j _ => ?_
  have hj := List.all_eq_true.mp hs j (List.mem_finRange j)
  rcases h.slots j with ⟨-, hn'⟩ | ⟨p, p', hp, hp', hstay⟩
  · simp [hn']
  · simp only [hp, Option.all_some, Bool.or_eq_true, Bool.and_eq_true, decide_eq_true_eq] at hj
    simp only [hp', Option.all_some, Bool.or_eq_true, Bool.and_eq_true, decide_eq_true_eq, h.keys,
      hstay.pid, h.atPipe]
    have hkeep : p.state.mayRun = false → p'.state = p.state := by
      intro hm
      rcases hstay.state with he | ⟨ha, -⟩
      · exact he
      · simp [hm] at ha
    rcases hj with ((hz | ⟨hb, hk⟩) | ⟨hb, hc⟩) | hat
    · exact Or.inl (Or.inl (Or.inl ((hkeep (by rw [hz]; rfl)).trans hz)))
    · exact Or.inl (Or.inl (Or.inr ⟨(hkeep (by rw [hb]; rfl)).trans hb, hk⟩))
    · refine Or.inl (Or.inr ⟨(hkeep (by rw [hb]; rfl)).trans hb, ?_⟩)
      simp [h.zombieChild (by simpa using hc)]
    · exact Or.inr hat

theorem Round.oneWaiter (h : Round k k' i) : k'.OneWaiter := by
  intro a b p q hp hq hpon hqon
  have hself :
      ∀ {j : Slot} {p : Pcb}, k'.sched.procs j = some p → p.state.onPipe = true → j = i := by
    intro j p hp hon
    by_contra hj
    simp [h.others j p hj hp] at hon
  exact (hself hp hpon).trans (hself hq hqon).symm

theorem pick_of_two (hone : k.OneWaiter) {a b : Slot} (hab : a ≠ b) (ha : k.atPipe a = true)
    (hb : k.atPipe b = true) : ∃ i, pickRunnable k.sched = some i := by
  cases hpick : pickRunnable k.sched with
  | some i => exact ⟨i, rfl⟩
  | none =>
    obtain ⟨p, -, hp, hpm, -⟩ := atPipe_iff.mp ha
    obtain ⟨q, -, hq, hqm, -⟩ := atPipe_iff.mp hb
    have hon : ∀ {j : Slot} {p : Pcb}, k.sched.procs j = some p → p.state.mayRun = true →
        p.state.onPipe = true := by
      intro j p hp hm
      have he := pickRunnable_none hpick hp
      cases hst : p.state <;> simp_all [Pcb.eligible, State.mayRun, State.onPipe]
    exact absurd (hone a b p q hp hq (hon hp hpm) (hon hq hqm)) hab

end Rounds

section Turns

variable {s : Sys} {es : ℕ → Env}

theorem turns_round (es : ℕ → Env) (hmode : s.mode = .sched) (hs : s.k.stuck = true)
    (hsound : ∀ i c, s.k.kconts i = some c → c.point.Sound) {i : Slot}
    (hpick : pickRunnable s.k.sched = some i) :
    ∃ s₁ k', turn (es 0) s = some s₁ ∧ s₁.mode ≠ .sched ∧ turn (es 1) s₁ = some ⟨k', .sched⟩ ∧
      Round s.k k' i := by
  obtain ⟨k₁, c, hsched, hrun⟩ := schedule_round hs hsound hpick
  obtain ⟨k', hk', hround⟩ := hrun (es 1)
  refine ⟨⟨k₁, .kernel c⟩, k', ?_, by simp, ?_, hround⟩
  · simp [turn, hmode, Sys.step, hsched]
  · simp [turn, Sys.step, hk']

theorem never_at_rest (n : ℕ) : ∀ {s : Sys} {es : ℕ → Env}, s.mode = .sched → s.k.stuck = true →
    (∀ i c, s.k.kconts i = some c → c.point.Sound) → s.k.OneWaiter → ∀ {a b : Slot}, a ≠ b →
    s.k.atPipe a = true → s.k.atPipe b = true → ∀ s', turns n es s = some s' → ¬ s'.AtRest := by
  induction n using Nat.twoStepInduction with
  | zero =>
    intro s es _ _ _ hone a b hab ha hb s' h hrest
    obtain rfl := Option.some.inj h
    obtain ⟨i, hi⟩ := pick_of_two hone hab ha hb
    exact absurd (hi.symm.trans hrest.2) (by simp)
  | one =>
    intro s es hmode hs hsound hone a b hab ha hb s' h hrest
    obtain ⟨i, hi⟩ := pick_of_two hone hab ha hb
    obtain ⟨s₁, k', h₁, hmode₁, -, -⟩ := turns_round es hmode hs hsound hi
    simp only [turns, h₁, Option.bind_some, Option.some.injEq] at h
    exact hmode₁ (h ▸ hrest.1)
  | more n ih _ =>
    intro s es hmode hs hsound hone a b hab ha hb s' h
    obtain ⟨i, hi⟩ := pick_of_two hone hab ha hb
    obtain ⟨s₁, k', h₁, -, h₂, hround⟩ := turns_round es hmode hs hsound hi
    simp only [turns, h₁, Option.bind_some, Nat.zero_add, h₂] at h
    exact ih rfl (hround.stuck hs) (hround.kconts ▸ hsound) hround.oneWaiter hab
      ((hround.atPipe a).mpr ha) ((hround.atPipe b).mpr hb) s' h

theorem comes_to_rest (hmode : s.mode = .sched) (hs : s.k.stuck = true)
    (hsound : ∀ i c, s.k.kconts i = some c → c.point.Sound)
    (hone : ∀ a b, s.k.atPipe a = true → s.k.atPipe b = true → a = b) :
    ∃ n s', turns n es s = some s' ∧ s'.AtRest := by
  cases hpick : pickRunnable s.k.sched with
  | none => exact ⟨0, s, rfl, hmode, hpick⟩
  | some i =>
    obtain ⟨s₁, k', h₁, -, h₂, hround⟩ := turns_round es hmode hs hsound hpick
    refine ⟨2, ⟨k', .sched⟩, by simp [turns, h₁, h₂], rfl, ?_⟩
    cases hpick' : pickRunnable k'.sched with
    | none => rfl
    | some j =>
      obtain ⟨q, hq, hel⟩ := pickRunnable_some hpick'
      have hat := atPipe_of_eligible (hround.stuck hs) hq (by simpa [Pcb.eligible] using hel)
      obtain ⟨p, hp, hel₀⟩ := pickRunnable_some hpick
      have hat₀ := atPipe_of_eligible hs hp (by simpa [Pcb.eligible] using hel₀)
      obtain rfl := hone j i ((hround.atPipe j).mp hat) hat₀
      obtain ⟨q', hq', hon⟩ := hround.self
      obtain rfl := Option.some.inj (hq.symm.trans hq')
      rcases hel with he | he <;> simp [he, State.onPipe] at hon

end Turns

theorem reach_waiters {ready : Bool} {s : Sys} (h : Reach ready s) :
    (∀ i c, s.k.kconts i = some c → c.point.Sound) ∧ s.k.OneWaiter := by
  have hsound : s.Sound :=
    Reachable.invariant (sound_boot ready) (fun _ _ _ hi hs => step_sound hi hs) h
  have hwait : s.k.OnSlot ∧ s.k.OneWaiter :=
    Reachable.invariant (I := fun s => s.k.OnSlot ∧ s.k.OneWaiter)
      ⟨onSlot_boot ready, oneWaiter_boot ready⟩
      (fun _ _ _ hi hs => ⟨step_onSlot hs hi.1, step_oneWaiter hs hi.1 hi.2⟩) h
  exact ⟨hsound.2, hwait.2⟩

/-- In every reachable state in which nobody can go on, the scheduler comes to rest exactly if
at most one process is inside `read_pipe` or `write_pipe`. -/
theorem idle_iff {ready : Bool} {s : Sys} (h : Reach ready s) (hmode : s.mode = .sched)
    (hs : s.k.stuck = true) (es : ℕ → Env) :
    (∃ n s', turns n es s = some s' ∧ s'.AtRest) ↔
      ∀ a b, s.k.atPipe a = true → s.k.atPipe b = true → a = b := by
  obtain ⟨hsound, hone⟩ := reach_waiters h
  constructor
  · rintro ⟨n, s', hn, hrest⟩ a b ha hb
    by_contra hab
    exact never_at_rest n hmode hs hsound hone hab ha hb s' hn hrest
  · exact comes_to_rest hmode hs hsound

theorem idle_after_exit : ∃ s, Reach true s ∧ pickRunnable s.k.sched = some 0 ∧
    ∀ es, ∃ n s', turns n es s = some s' ∧ s'.AtRest := by
  obtain ⟨r, hr, hp⟩ := exists_path_of_replay Sys.step (Sys.boot true)
    ([Sample.init] ++ Sample.call 256 25 8192 0 0 ++ [Sample.run] ++
      Sample.call 256 7 4096 0 0 ++ [Sample.run] ++
      Sample.call 256 4 3 8192 16 ++ [Sample.run, Sample.run, .schedule] ++
      Sample.call 256 1 0 0 0 ++ [Sample.run])
    (fun r => r.2.mode = .sched && r.2.k.stuck && (pickRunnable r.2.k.sched = some 0) &&
      (List.finRange maxProc).all fun i => !r.2.k.atPipe i || i = 0) (by decide)
  simp only [Bool.and_eq_true, decide_eq_true_eq, List.all_eq_true, Bool.or_eq_true,
    Bool.not_eq_true'] at hp
  obtain ⟨⟨⟨hmode, hs⟩, hpick⟩, hall⟩ := hp
  have hzero : ∀ i, r.2.k.atPipe i = true → i = 0 := fun i hi =>
    (hall i (List.mem_finRange i)).resolve_left (by simp [hi])
  exact ⟨r.2, ⟨r.1, hr⟩, hpick, fun es => (idle_iff ⟨r.1, hr⟩ hmode hs es).mpr
    fun a b ha hb => (hzero a ha).trans (hzero b hb).symm⟩

/-- Init and its child read from an empty pipe that init could still write to: they wake each
other without end. -/
theorem idle_never : ¬ ∀ ready s, Reach ready s → s.mode = .sched → s.k.stuck = true →
    ∀ es, ∃ n s', turns n es s = some s' ∧ s'.AtRest := by
  intro h
  obtain ⟨r, hr, hp⟩ := exists_path_of_replay Sys.step (Sys.boot true)
    ([Sample.init] ++ Sample.call 256 25 8192 0 0 ++ [Sample.run] ++
      Sample.call 256 7 4096 0 0 ++ [.run (Sample.env (Sample.spawnRecord 3 err))] ++
      Sample.call 256 4 3 8192 16 ++ [Sample.run, Sample.run, .schedule] ++
      Sample.call 256 4 0 8192 16 ++ [Sample.run, Sample.run])
    (fun r => r.2.mode = .sched && r.2.k.stuck && r.2.k.atPipe 0 && r.2.k.atPipe 1)
    (by decide)
  simp only [Bool.and_eq_true, decide_eq_true_eq] at hp
  obtain ⟨⟨⟨hmode, hs⟩, h0⟩, h1⟩ := hp
  obtain ⟨hsound, hone⟩ := reach_waiters ⟨r.1, hr⟩
  obtain ⟨n, s', hn, hrest⟩ := h true r.2 ⟨r.1, hr⟩ hmode hs fun _ => Sample.env []
  exact never_at_rest n hmode hs hsound hone (by decide : (0 : Slot) ≠ 1) h0 h1 s' hn hrest

end CoeleoOs.Task
