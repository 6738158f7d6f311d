import CoeleoOs.Net.Url
import CoeleoOs.Task.Running

/-!
# The locks of the network calls

`NET` is a spin lock whose guard lives on the kernel stack of a network system call. The wait
loops behind the call open interrupts while they hold it, and these stay open until the call
returns, so that the lock of the heap is taken with interrupts open as well, inside the loops and
for what is freed behind them. A keyboard interrupt that finds its process a zombie goes to the
scheduler and does not come back. `NetSys` is the running system with these two locks, `nic` says
whether a network card was found. All other locks are taken and given back inside `NET`, or within
one stretch of a call with interrupts closed.
-/

namespace CoeleoOs.Task
open CoeleoOs.Lib Machine CoeleoOs.Net

inductive Lock
  | net
  | heap
  deriving DecidableEq

def takesNet (nic : Bool) : Point → Bool
  | .netPing _ _ _ => nic
  | .httpGet url _ _ => nic && ((Text.fromUtf8 url).bind parseUrl).isSome
  | _ => false

def inExchange (nic : Bool) : Mode → Bool
  | .irqOpen c => takesNet nic c.point
  | .irq (.call c) => takesNet nic c.point
  | _ => false

structure NetSys where
  sys : Sys
  held : Lock → Bool
  /-- The guards on the kernel stack of the call entered last, the innermost first. -/
  guards : List Lock
  owner : Option Slot
  /-- A lock was asked for that is held: nobody else runs any more. -/
  spinning : Bool

inductive NetAct
  | sys (a : Act)
  /-- The call allocates or frees, and is inside the lock of the heap. -/
  | alloc
  /-- The innermost guard is dropped; interrupts stay open. -/
  | unlock
  /-- Somebody else needs a lock: the panel's `is_up` and the network commands of the kernel
  shell `NET`, any code of the kernel the heap. -/
  | look (l : Lock)

def acquires (nic : Bool) (m m' : Mode) : Bool :=
  match m, m' with
  | .kernel _, .irqOpen c => takesNet nic c.point
  | _, _ => false

def OpenFd.onHeap : OpenFd → Bool
  | .file path _ _ => path ≠ []
  | .dir _ ents => ents ≠ []
  | _ => false

def killFrees (k : Kernel) (b : UInt8) : Bool :=
  b = 3 && (foreground k.sched).any fun v => (k.sched.procs v).any fun p =>
    (List.finRange fdMax).any fun i => (p.fds.slots i).any OpenFd.onHeap

def asks (nic : Bool) (s : Sys) (a : Act) (s' : Sys) : Option Lock :=
  match a with
  | .key b => if killFrees s.k b then some .heap else none
  | _ => if acquires nic s.mode s'.mode then some .net else none

def looks : Lock → Mode → Bool
  | _, .polling _ | _, .host | .heap, .kernel _ | .heap, .sched => true
  | _, _ => false

namespace NetSys

variable (nic : Bool)

def setHeld (s : NetSys) (l : Lock) (b : Bool) : Lock → Bool :=
  fun l' => if l' = l then b else s.held l'

def admits (s : NetSys) : Act → Bool
  | .keyboard =>
    match s.sys.mode with
    | .irqOpen ⟨.netPing name buf len, _⟩ => takesNet nic (.netPing name buf len)
    | .irqOpen ⟨.httpGet url buf len, _⟩ => takesNet nic (.httpGet url buf len)
    | _ => true
  | .wake => !inExchange nic s.sys.mode || s.guards.isEmpty
  | _ => true

def enter (s : NetSys) (a : Act) (sys : Sys) : NetSys :=
  match asks nic s.sys a sys with
  | none => { s with sys := sys }
  | some l =>
    if s.held l then { s with spinning := true }
    else
      match l with
      | .net => ⟨sys, s.setHeld .net true, [.net], sys.k.sched.current, false⟩
      | .heap => { s with sys := sys }

def step (s : NetSys) : NetAct → Option NetSys
  | .sys a => if s.spinning || !s.admits nic a then none else (s.sys.step a).map (s.enter nic a)
  | .alloc =>
    match s.sys.mode with
    | .irqOpen c =>
      if !s.spinning && takesNet nic c.point && !s.guards.contains .heap then
        if s.held .heap then some { s with spinning := true }
        else some { s with held := s.setHeld .heap true, guards := .heap :: s.guards }
      else none
    | _ => none
  | .unlock =>
    match s.sys.mode, s.guards with
    | .irqOpen c, l :: guards =>
      if !s.spinning && takesNet nic c.point then
        some { s with held := s.setHeld l false, guards := guards }
      else none
    | _, _ => none
  | .look l =>
    if !s.spinning && looks l s.sys.mode then some { s with spinning := s.held l } else none

def boot (ready : Bool) : NetSys := ⟨Sys.boot ready, fun _ => false, [], none, false⟩

abbrev Run (ready : Bool) (ts : List (Trans NetSys NetAct)) (s : NetSys) : Prop :=
  Path (step nic) (boot ready) ts s

/-- A process inside such a call is the one that entered it, and a lock is held only by it. -/
def Good (s : NetSys) : Prop :=
  s.spinning = false ∧ (inExchange nic s.sys.mode = true → s.sys.k.sched.current = s.owner) ∧
    ∀ l, s.held l = true → l ∈ s.guards ∧ inExchange nic s.sys.mode = true

/-- A keyboard interrupt of a call that holds a lock ends and finds its process dead, or one that
was taken inside the lock of the heap kills a process and frees what it had open. -/
def breaks (t : Trans NetSys NetAct) : Bool :=
  match t.act with
  | .sys .irqEnd => (t.pre.held .net || t.pre.held .heap) && inExchange nic t.pre.sys.mode &&
      t.pre.sys.k.sched.currentIsZombie
  | .sys (.key b) => t.pre.held .heap && killFrees t.pre.sys.k b
  | _ => false

variable {nic : Bool} {s s' : NetSys} {l : Lock}

theorem step_sys {a : Act} (h : s.step nic (.sys a) = some s') :
    s.spinning = false ∧ s.admits nic a = true ∧
      ∃ sys, s.sys.step a = some sys ∧ s' = s.enter nic a sys := by
  simp only [step] at h
  split at h
  · cases h
  · rename_i hs
    obtain ⟨sys, hstep, rfl⟩ := Option.map_eq_some_iff.mp h
    rw [Bool.or_eq_true, not_or, Bool.not_eq_true, Bool.not_eq_true, Bool.not_eq_false'] at hs
    exact ⟨hs.1, hs.2, sys, hstep, rfl⟩

theorem step_alloc (h : s.step nic .alloc = some s') :
    s.spinning = false ∧ inExchange nic s.sys.mode = true ∧ Lock.heap ∉ s.guards ∧
      (s.held .heap = true ∧ s' = { s with spinning := true } ∨
        s.held .heap = false ∧
          s' = { s with held := s.setHeld .heap true, guards := .heap :: s.guards }) := by
  simp only [step] at h
  split at h
  · rename_i c hm
    split at h
    · rename_i hc
      simp only [Bool.and_eq_true, Bool.not_eq_true', List.contains_eq_mem,
        decide_eq_false_iff_not] at hc
      refine ⟨hc.1.1, by rw [hm]; exact hc.1.2, hc.2, ?_⟩
      split at h
      · rename_i hheld
        exact .inl ⟨hheld, (Option.some.inj h).symm⟩
      · rename_i hheld
        exact .inr ⟨eq_false_of_ne_true hheld, (Option.some.inj h).symm⟩
    · cases h
  · cases h

theorem step_unlock (h : s.step nic .unlock = some s') :
    s.spinning = false ∧ inExchange nic s.sys.mode = true ∧
      ∃ l guards, s.guards = l :: guards ∧
        s' = { s with held := s.setHeld l false, guards := guards } := by
  simp only [step] at h
  split at h
  · rename_i c l guards hm hguards
    split at h
    · rename_i hc
      simp only [Bool.and_eq_true, Bool.not_eq_true'] at hc
      exact ⟨hc.1, by rw [hm]; exact hc.2, l, guards, hguards, (Option.some.inj h).symm⟩
    · cases h
  · cases h

theorem step_look (h : s.step nic (.look l) = some s') :
    s.spinning = false ∧ inExchange nic s.sys.mode = false ∧
      s' = { s with spinning := s.held l } := by
  simp only [step] at h
  split at h
  · rename_i hc
    simp only [Bool.and_eq_true, Bool.not_eq_true'] at hc
    refine ⟨hc.1, ?_, (Option.some.inj h).symm⟩
    have hl := hc.2
    unfold looks at hl
    split at hl
    all_goals first
      | (rename_i hm; rw [hm]; rfl)
      | cases hl
  · cases h

theorem step_inExchange {s s' : Sys} {a : Act} (hx : inExchange nic s.mode = true)
    (h : s.step a = some s') :
    a = .wake ∨ a = .irqEnd ∧ s.k.sched.currentIsZombie = true ∧ s'.mode = .sched ∨
      ¬(a = .irqEnd ∧ s.k.sched.currentIsZombie = true) ∧ inExchange nic s'.mode = true ∧
        s'.k.sched.current = s.k.sched.current := by
  obtain ⟨k, m⟩ := s
  dsimp only at hx ⊢
  unfold inExchange at hx
  split at hx
  · cases a with
    | keyboard =>
      obtain rfl := Option.some.inj h
      exact .inr (.inr ⟨by simp, hx, rfl⟩)
    | wake => exact .inl rfl
    | _ => cases h
  · cases a with
    | key b =>
      obtain rfl := Option.some.inj h
      exact .inr (.inr ⟨by simp, hx, (enqueueOrKill_kept k b).1.1⟩)
    | irqEnd =>
      obtain rfl := Option.some.inj h
      cases hz : k.sched.currentIsZombie with
      | true => exact .inr (.inl ⟨rfl, rfl, by simp⟩)
      | false =>
        exact .inr (.inr ⟨by simp, by simpa [hz, Back.afterIrq, inExchange] using hx, rfl⟩)
    | _ => cases h
  · cases hx

theorem acquires_eq_true {m m' : Mode} (h : acquires nic m m' = true) :
    inExchange nic m = false ∧ inExchange nic m' = true := by
  unfold acquires at h
  split at h
  · exact ⟨rfl, h⟩
  · cases h

theorem asks_net {s s' : Sys} {a : Act} (h : asks nic s a s' = some .net) :
    acquires nic s.mode s'.mode = true ∧ ∀ b, a ≠ .key b := by
  unfold asks at h
  split at h
  · split at h <;> cases h
  · rename_i hkey
    split at h
    · rename_i hacq
      exact ⟨hacq, hkey⟩
    · cases h

theorem asks_heap {s s' : Sys} {a : Act} (h : asks nic s a s' = some .heap) :
    ∃ b, a = .key b ∧ killFrees s.k b = true := by
  unfold asks at h
  split at h
  · rename_i b
    split at h
    · rename_i hkill
      exact ⟨b, rfl, hkill⟩
    · cases h
  · split at h <;> cases h

theorem acquires_key {s s' : Sys} {b : UInt8} (h : s.step (.key b) = some s') :
    acquires nic s.mode s'.mode = false := by
  obtain ⟨k, m⟩ := s
  cases m with
  | polling | irq => rfl
  | _ => cases h

theorem asks_none {s s' : Sys} {a : Act} (hstep : s.step a = some s') (h : asks nic s a s' = none) :
    (∀ b, a = .key b → killFrees s.k b = false) ∧ acquires nic s.mode s'.mode = false := by
  unfold asks at h
  split at h
  · rename_i b
    split at h
    · cases h
    · rename_i hkill
      refine ⟨fun b' hb => ?_, acquires_key hstep⟩
      obtain rfl := Act.key.inj hb
      exact eq_false_of_ne_true hkill
  · rename_i hkey
    split at h
    · cases h
    · rename_i hacq
      exact ⟨fun b hb => absurd hb (hkey b), eq_false_of_ne_true hacq⟩

@[simp] theorem setHeld_self (s : NetSys) (l : Lock) (b : Bool) : s.setHeld l b l = b := if_pos rfl

theorem setHeld_of_ne {l' : Lock} (h : l' ≠ l) (b : Bool) : s.setHeld l b l' = s.held l' := if_neg h

theorem Good.free (hg : Good nic s) (hx : inExchange nic s.sys.mode = false) (l : Lock) :
    s.held l = false := by
  by_contra hl
  have hin := (hg.2.2 l (by simpa using hl)).2
  rw [hx] at hin
  cases hin

theorem breaks_eq_false {a : Act} (hend : a = .irqEnd →
      inExchange nic s.sys.mode = false ∨ s.sys.k.sched.currentIsZombie = false)
    (hkey : ∀ b, a = .key b → (s.held .heap && killFrees s.sys.k b) = false) :
    breaks nic ⟨s, .sys a, s'⟩ = false := by
  cases a with
  | irqEnd =>
    rcases hend rfl with hx | hz
    · simp [breaks, hx]
    · simp [breaks, hz]
  | key b => exact hkey b rfl
  | _ => rfl

theorem enterPoll_mode (k : Kernel) (b : Back) : inExchange nic (enterPoll k b).mode = false := by
  unfold enterPoll
  split
  · rfl
  · cases b <;> rfl

theorem orHalt_mode (k : Kernel) {r : Option Sys}
    (h : ∀ s, r = some s → inExchange nic s.mode = false) :
    inExchange nic (orHalt k r).mode = false := by
  cases r with
  | none => rfl
  | some s => exact h s rfl

theorem resumed_mode (r : Kernel × Resume) : inExchange nic (resumed r).mode = false := by
  obtain ⟨k, _ | _⟩ := r <;> rfl

theorem exited_mode (r : Kernel × Bool) : inExchange nic (exited r).mode = false := by
  obtain ⟨k, _ | _⟩ := r <;> rfl

theorem runCall_mode (k : Kernel) (c : KernelCont) (e : Env)
    (h : acquires nic (.kernel c) (runCall k c e).mode = false) :
    inExchange nic (runCall k c e).mode = false := by
  unfold runCall at h ⊢
  split at h
  · rfl
  · rename_i next k' _
    cases next with
    | ret | goto => rfl
    | pollThen p => exact enterPoll_mode _ _
    | irqOpen p => exact h
    | block st p =>
      refine orHalt_mode _ fun s hs => ?_
      obtain ⟨r, -, rfl⟩ := Option.map_eq_some_iff.mp hs
      rfl
    | exit o =>
      refine orHalt_mode _ fun s hs => ?_
      obtain ⟨r, -, rfl⟩ := Option.map_eq_some_iff.mp hs
      exact exited_mode r

theorem wake_kernel {s s' : Sys} (h : s.step .wake = some s') : s'.k = s.k := by
  obtain ⟨k, m⟩ := s
  cases m with
  | irqOpen | idle =>
    obtain rfl := Option.some.inj h
    rfl
  | _ => cases h

theorem step_enters {s s' : Sys} {a : Act} (h : s.step a = some s')
    (hx : inExchange nic s.mode = false) (hacq : acquires nic s.mode s'.mode = false) :
    inExchange nic s'.mode = false := by
  unfold Sys.step at h
  split at h
  case h_21 => cases h
  all_goals
    rename_i hmode
    obtain rfl := Option.some.inj h
  case h_1 =>
    refine orHalt_mode _ fun s hs => ?_
    obtain ⟨r, -, rfl⟩ := Option.map_eq_some_iff.mp hs
    dsimp only
    split <;> rfl
  case h_3 | h_5 => exact enterPoll_mode _ _
  case h_6 frame =>
    unfold timerStep
    split
    case h_4 r _ => exact resumed_mode r
    all_goals rfl
  case h_7 =>
    refine orHalt_mode _ fun s hs => ?_
    obtain ⟨r, -, rfl⟩ := Option.map_eq_some_iff.mp hs
    exact exited_mode r
  case h_9 c e =>
    rw [hmode] at hacq
    exact runCall_mode _ _ _ hacq
  case h_11 => rfl
  case h_15 b => cases b <;> rfl
  case h_17 b =>
    split
    · rfl
    · rw [hmode] at hx
      cases b with
      | call c => exact hx
      | host | idle | user => rfl
  case h_18 =>
    unfold scheduleStep
    split
    · exact enterPoll_mode _ _
    · refine orHalt_mode _ fun s hs => ?_
      obtain ⟨r, -, rfl⟩ := Option.map_eq_some_iff.mp hs
      exact resumed_mode r
  all_goals
    dsimp only
    first
      | rfl
      | exact hx
      | (rw [hmode] at hx; exact hx)

theorem alloc_good (h : s.step nic .alloc = some s') (hg : Good nic s) : Good nic s' := by
  obtain ⟨hs, hx, hno, ⟨hheld, rfl⟩ | ⟨-, rfl⟩⟩ := step_alloc h
  · exact absurd (hg.2.2 .heap hheld).1 hno
  · refine ⟨hs, hg.2.1, fun l hl => ?_⟩
    dsimp only at hl ⊢
    by_cases hheap : l = .heap
    · exact ⟨hheap ▸ List.mem_cons_self, hx⟩
    · rw [setHeld_of_ne hheap] at hl
      exact ⟨List.mem_cons_of_mem _ (hg.2.2 l hl).1, hx⟩

theorem unlock_good (h : s.step nic .unlock = some s') (hg : Good nic s) : Good nic s' := by
  obtain ⟨hs, hx, l, guards, hguards, rfl⟩ := step_unlock h
  refine ⟨hs, hg.2.1, fun l' hl' => ?_⟩
  dsimp only at hl' ⊢
  by_cases heq : l' = l
  · rw [heq, setHeld_self] at hl'
    cases hl'
  · rw [setHeld_of_ne heq] at hl'
    have hmem := (hg.2.2 l' hl').1
    rw [hguards] at hmem
    exact ⟨(List.mem_cons.mp hmem).resolve_left heq, hx⟩

theorem look_good (h : s.step nic (.look l) = some s') (hg : Good nic s) : Good nic s' := by
  obtain ⟨-, hx, rfl⟩ := step_look h
  refine ⟨hg.free hx l, hg.2.1, hg.2.2⟩

theorem moved_good {a : Act} {sys : Sys} (hg : Good nic s) (hadm : s.admits nic a = true)
    (hstep : s.sys.step a = some sys) (hacq : acquires nic s.sys.mode sys.mode = false)
    (hkey : ∀ b, a = .key b → (s.held .heap && killFrees s.sys.k b) = false) :
    Good nic { s with sys := sys } ↔ breaks nic ⟨s, .sys a, { s with sys := sys }⟩ = false := by
  cases hx : inExchange nic s.sys.mode with
  | false =>
    have hout := step_enters hstep hx hacq
    refine iff_of_true ⟨hg.1, fun hin => ?_, fun l hl => ?_⟩
      (breaks_eq_false (fun _ => .inl hx) hkey)
    · rw [hout] at hin
      cases hin
    · rw [hg.free hx l] at hl
      cases hl
  | true =>
    rcases step_inExchange hx hstep with rfl | ⟨rfl, hz, hm⟩ | ⟨ha, hx', hcur⟩
    · have hempty : s.guards = [] := by simpa [admits, hx] using hadm
      have hfree : ∀ l, s.held l ≠ true := fun l hl => by simpa [hempty] using (hg.2.2 l hl).1
      have hk : sys.k = s.sys.k := wake_kernel hstep
      refine iff_of_true ⟨hg.1, fun _ => ?_, fun l hl => absurd hl (hfree l)⟩ rfl
      rw [hk]
      exact hg.2.1 hx
    · have hout : inExchange nic sys.mode = false := by rw [hm]; rfl
      constructor
      · intro hgood
        simp [breaks, show s.held .net = false from hgood.free hout .net,
          show s.held .heap = false from hgood.free hout .heap]
      · intro hno
        simp only [breaks, hx, hz, Bool.and_true, Bool.or_eq_false_iff] at hno
        refine ⟨hg.1, fun hin => ?_, fun l hl => ?_⟩
        · rw [hout] at hin
          cases hin
        · cases l with
          | net => exact absurd (hno.1.symm.trans hl) (by simp)
          | heap => exact absurd (hno.2.symm.trans hl) (by simp)
    · refine iff_of_true ⟨hg.1, fun _ => ?_, fun l hl => ⟨(hg.2.2 l hl).1, hx'⟩⟩
        (breaks_eq_false (fun hend => ?_) hkey)
      · exact hcur.trans (hg.2.1 hx)
      · exact .inr (eq_false_of_ne_true fun hz => ha ⟨hend, hz⟩)

theorem step_good {t : Trans NetSys NetAct} (h : step nic t.pre t.act = some t.post)
    (hg : Good nic t.pre) : Good nic t.post ↔ breaks nic t = false := by
  obtain ⟨s, a, s'⟩ := t
  dsimp only at h hg ⊢
  cases a with
  | alloc => exact iff_of_true (alloc_good h hg) rfl
  | unlock => exact iff_of_true (unlock_good h hg) rfl
  | look l => exact iff_of_true (look_good h hg) rfl
  | sys a =>
    obtain ⟨hs, hadm, sys, hstep, rfl⟩ := step_sys h
    unfold enter
    split
    · rename_i hask
      obtain ⟨hkill, hacq⟩ := asks_none hstep hask
      exact moved_good hg hadm hstep hacq fun b hb => by rw [hkill b hb, Bool.and_false]
    · rename_i l hask
      cases l with
      | net =>
        obtain ⟨hacq, hkey⟩ := asks_net hask
        obtain ⟨hx, hx'⟩ := acquires_eq_true hacq
        rw [hg.free hx .net, if_neg Bool.false_ne_true]
        refine iff_of_true ⟨rfl, fun _ => rfl, fun l hl => ⟨?_, hx'⟩⟩
          (breaks_eq_false (fun _ => .inl hx) fun b hb => absurd hb (hkey b))
        by_cases hnet : l = .net
        · rw [hnet]
          exact List.mem_singleton_self _
        · dsimp only at hl
          rw [setHeld_of_ne hnet, hg.free hx l] at hl
          cases hl
      | heap =>
        obtain ⟨b, rfl, hkill⟩ := asks_heap hask
        split
        · rename_i hheld
          refine iff_of_false (fun hgood => ?_) ?_
          · exact absurd hgood.1 (by simp)
          · simp [breaks, hheld, hkill]
        · rename_i hheld
          refine moved_good hg hadm hstep (acquires_key hstep) fun b' _ => ?_
          rw [eq_false_of_ne_true hheld, Bool.false_and]

theorem good_boot (ready : Bool) : Good nic (boot ready) :=
  ⟨rfl, by simp [boot, Sys.boot, inExchange], by simp [boot]⟩

/-- Every lock that a system call takes is released before its process is left, and nobody spins,
exactly when no step breaks that. -/
theorem locks_released_iff {ready : Bool} {ts : List (Trans NetSys NetAct)}
    (h : Run nic ready ts s) : (∀ t ∈ ts, Good nic t.post) ↔ ∀ t ∈ ts, breaks nic t = false :=
  Path.forall_iff (good_boot ready) (fun _ ht hg => step_good ht hg)
    (fun _ ht hg hno => (step_good ht hg).mpr hno) h

def pingRun : List NetAct :=
  ([Sample.init] ++ Sample.call 256 7 4096 0 0 ++ [Sample.run] ++ Sample.call 256 8 0 0 0 ++
    [Sample.run, Sample.run, .schedule] ++ Sample.call 768 15 4096 0 0 ++ [Sample.run]).map .sys

theorem ping_with_key :
    ∃ ts s, Run true true ts s ∧ s.sys.mode = .user ∧ ts.any (·.pre.held .net) = true ∧
    ts.any (·.pre.held .heap) = true ∧ ∀ t ∈ ts, Good true t.post := by
  obtain ⟨r, hr, hp⟩ := exists_path_of_replay (step true) (boot true)
    (pingRun ++ [.sys .keyboard, .sys (.key 0x61), .sys .irqEnd, .alloc, .unlock, .unlock, .alloc,
      .sys .keyboard, .sys (.key 0x61), .sys .irqEnd, .unlock, .sys .wake, .sys Sample.run])
    (fun r => r.1.all (fun t => !breaks true t) && r.1.any (·.pre.held .net) &&
      r.1.any (·.pre.held .heap) && decide (r.2.sys.mode = .user))
    (by decide)
  simp only [Bool.and_eq_true, List.all_eq_true, Bool.not_eq_true', decide_eq_true_eq] at hp
  exact ⟨r.1, r.2, hr, hp.2, hp.1.1.2, hp.1.2, (locks_released_iff hr).mpr hp.1.1.1⟩

/-- Ctrl+C ends the process in its loop; the parent reaps it and its own `ping` spins. -/
theorem ping_killed : ¬ ∀ nic ready ts s, Run nic ready ts s → ∀ t ∈ ts, Good nic t.post := by
  intro h
  obtain ⟨r, hr, hp⟩ := exists_path_of_replay (step true) (boot true)
    (pingRun ++ [.sys .keyboard, .sys (.key 3), .sys .irqEnd] ++
      ([.schedule, Sample.run] ++ Sample.call 256 15 4096 0 0 ++ [Sample.run]).map .sys)
    (fun r => r.1.any (·.post.spinning)) (by decide)
  obtain ⟨t, ht, hs⟩ := List.any_eq_true.mp hp
  exact absurd ((h true true r.1 r.2 hr t ht).1.symm.trans hs) (by simp)

theorem freeing_killed : ∃ ts s, Run true true ts s ∧ s.sys.mode = .sched ∧ s.held .net = false ∧
    s.held .heap = true := by
  obtain ⟨r, hr, hp⟩ := exists_path_of_replay (step true) (boot true)
    (pingRun ++ [.unlock, .alloc, .sys .keyboard, .sys (.key 3), .sys .irqEnd])
    (fun r => decide (r.2.sys.mode = .sched) && !r.2.held .net && r.2.held .heap) (by decide)
  simp only [Bool.and_eq_true, Bool.not_eq_true', decide_eq_true_eq] at hp
  exact ⟨r.1, r.2, hr, hp.1.1, hp.1.2, hp.2⟩

def Leaked (nic : Bool) (l : Lock) (s : NetSys) : Prop :=
  s.held l = true ∧ (s.spinning = true ∨ inExchange nic s.sys.mode = false ∨ l ∉ s.guards)

theorem broken_leaked {t : Trans NetSys NetAct} (h : step nic t.pre t.act = some t.post)
    (hb : breaks nic t = true) : ∃ l, Leaked nic l t.post := by
  obtain ⟨s, a, s'⟩ := t
  unfold breaks at hb
  dsimp only at h hb ⊢
  split at hb
  · simp only [Bool.and_eq_true, Bool.or_eq_true] at hb
    obtain ⟨⟨hheld, hx⟩, hz⟩ := hb
    obtain ⟨-, -, sys, hstep, rfl⟩ := step_sys h
    rcases step_inExchange hx hstep with ha | ⟨-, -, hm⟩ | ⟨hno, -⟩
    · cases ha
    · have hacq : acquires nic s.sys.mode sys.mode = false := by
        by_contra hacq
        rw [(acquires_eq_true (by simpa using hacq)).1] at hx
        cases hx
      have hask : asks nic s.sys .irqEnd sys = none := by simp [asks, hacq]
      have hout : inExchange nic sys.mode = false := by rw [hm]; rfl
      simp only [enter, hask]
      rcases hheld with hheld | hheld
      · exact ⟨.net, hheld, .inr (.inl hout)⟩
      · exact ⟨.heap, hheld, .inr (.inl hout)⟩
    · exact absurd ⟨rfl, hz⟩ hno
  · rename_i b
    simp only [Bool.and_eq_true] at hb
    obtain ⟨hheld, hkill⟩ := hb
    obtain ⟨-, -, sys, -, rfl⟩ := step_sys h
    have hask : asks nic s.sys (.key b) sys = some .heap := by simp [asks, hkill]
    simp only [enter, hask, hheld, if_true]
    exact ⟨.heap, hheld, .inl rfl⟩
  · cases hb

theorem Leaked.no_guard (hl : Leaked nic l s) (hs : s.spinning = false)
    (hx : inExchange nic s.sys.mode = true) : l ∉ s.guards := by
  rcases hl.2 with hspin | hx' | hno
  · rw [hs] at hspin
    cases hspin
  · rw [hx] at hx'
    cases hx'
  · exact hno

theorem Leaked.step {a : NetAct} (hl : Leaked nic l s) (h : s.step nic a = some s') :
    Leaked nic l s' := by
  have hheld : s.held l = true := hl.1
  cases a with
  | alloc =>
    obtain ⟨hs, hx, -, ⟨-, rfl⟩ | ⟨hfree, rfl⟩⟩ := step_alloc h
    · exact ⟨hheld, .inl rfl⟩
    · have hne : l ≠ .heap := by
        rintro rfl
        rw [hheld] at hfree
        cases hfree
      refine ⟨(setHeld_of_ne hne true).trans hheld, .inr (.inr ?_)⟩
      simpa [hne] using hl.no_guard hs hx
  | unlock =>
    obtain ⟨hs, hx, l', guards, hguards, rfl⟩ := step_unlock h
    have hno : l ∉ s.guards := hl.no_guard hs hx
    rw [hguards, List.mem_cons, not_or] at hno
    exact ⟨(setHeld_of_ne hno.1 false).trans hheld, .inr (.inr hno.2)⟩
  | look l' =>
    obtain ⟨-, hx, rfl⟩ := step_look h
    exact ⟨hheld, .inr (.inl hx)⟩
  | sys a =>
    obtain ⟨hs, -, sys, hstep, rfl⟩ := step_sys h
    have hplace : inExchange nic s.sys.mode = false ∨ l ∉ s.guards :=
      hl.2.resolve_left (by simp [hs])
    have hmoved (hacq : acquires nic s.sys.mode sys.mode = false) :
        Leaked nic l { s with sys := sys } := by
      refine ⟨hheld, .inr ?_⟩
      rcases hplace with hx | hno
      · exact .inl (step_enters hstep hx hacq)
      · exact .inr hno
    unfold enter
    split
    · rename_i hask
      exact hmoved (asks_none hstep hask).2
    · rename_i l' hask
      split
      · exact ⟨hheld, .inl rfl⟩
      · rename_i hfree
        cases l' with
        | net =>
          have hne : l ≠ .net := by
            rintro rfl
            exact hfree hheld
          refine ⟨(setHeld_of_ne hne true).trans hheld, .inr (.inr ?_)⟩
          simpa using hne
        | heap =>
          obtain ⟨b, rfl, -⟩ := asks_heap hask
          exact hmoved (acquires_key hstep)

theorem leaked_run {ts : List (Trans NetSys NetAct)} (h : Path (step nic) s ts s')
    (hl : Leaked nic l s) : Leaked nic l s' :=
  h.invariant (C := fun _ => True) hl (fun _ ht hI _ => hI.step ht) fun _ _ => trivial

theorem leaked_asked {a : Act} {sys : Sys} (hl : Leaked nic l s)
    (hask : asks nic s.sys a sys = some l) : (s.enter nic a sys).spinning = true := by
  simp only [enter, hask, hl.1, if_true]

theorem spinning_stuck (h : s.spinning = true) (a : NetAct) : s.step nic a = none := by
  cases hs : s.step nic a with
  | none => rfl
  | some s' =>
    have hno : s.spinning = false := by
      cases a with
      | sys a => exact (step_sys hs).1
      | alloc => exact (step_alloc hs).1
      | unlock => exact (step_unlock hs).1
      | look l => exact (step_look hs).1
    rw [h] at hno
    cases hno

theorem reach_sys {ready : Bool} (h : Reachable (step nic) (boot ready) s) : Reach ready s.sys := by
  refine h.invariant (I := fun s => Reach ready s.sys) ⟨[], .nil⟩ fun s a s' hI hs => ?_
  cases a with
  | alloc =>
    obtain ⟨-, -, -, ⟨-, rfl⟩ | ⟨-, rfl⟩⟩ := step_alloc hs
    · exact hI
    · exact hI
  | unlock =>
    obtain ⟨-, -, l, guards, -, rfl⟩ := step_unlock hs
    exact hI
  | look l =>
    obtain ⟨-, -, rfl⟩ := step_look hs
    exact hI
  | sys a =>
    obtain ⟨-, -, sys, hstep, rfl⟩ := step_sys hs
    unfold enter
    split
    · exact hI.tail hstep
    · split
      · exact hI
      · split
        · exact hI.tail hstep
        · exact hI.tail hstep

end NetSys

end CoeleoOs.Task
