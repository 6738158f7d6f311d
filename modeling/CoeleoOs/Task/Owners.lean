import CoeleoOs.Task.Steady
import CoeleoOs.Task.ZombieAbsorbing
import CoeleoOs.Ui.Clients

/-!
# Windows and the processes that own them

`user_exit` drops the windows of the process it ends. `sys_kill` and
`kill_foreground` end a process without it, and `unload_all` removes every
process while only the windows of the exiting one are dropped. A run in which
no step ends an owner in one of these ways, and in which only live processes
open windows, never shows a window without an owner.
-/

namespace CoeleoOs.Ui

def Win.owns (w : Win) (pid : ℕ) : Bool :=
  (List.finRange maxSurfaces).any fun i => (w.slots i).any fun s => s.pid = pid

/-- What a poll of the compositor does to the window table: it closes a window, it
changes the input queue, or it takes the pending rectangles. -/
inductive Serve
  | close (id : ℕ)
  | queue (q : List Queued)
  | drain

def Serve.apply (w : Win) : Serve → Win
  | .close id => w.dropId id
  | .queue q => { w with q := q }
  | .drain => { w with slots := fun i => (w.slots i).map fun s => { s with dirty := none } }

def Win.Sub (w' w : Win) : Prop :=
  ∀ i s', w'.slots i = some s' → ∃ s, w.slots i = some s ∧ s.pid = s'.pid

theorem Win.Sub.of_slots {w w' : Win} (h : w'.slots = w.slots) : w'.Sub w :=
  fun _ s' hs => ⟨s', h ▸ hs, rfl⟩

theorem Win.Sub.of_tags {w w' : Win}
    (h : ∀ i, (w'.slots i).map (fun s => (s.id, s.pid)) = (w.slots i).map fun s => (s.id, s.pid)) :
    w'.Sub w := by
  intro i s' hs
  have htag := h i
  rw [hs, Option.map_some, eq_comm, Option.map_eq_some_iff] at htag
  obtain ⟨s, hold, htag⟩ := htag
  exact ⟨s, hold, congrArg Prod.snd htag⟩

theorem Serve.apply_sub (v : Serve) (w : Win) : (v.apply w).Sub w := by
  intro i s' hs
  cases v with
  | close id => exact ⟨s', (Option.filter_eq_some_iff.mp hs).1, rfl⟩
  | queue q => exact ⟨s', hs, rfl⟩
  | drain =>
    obtain ⟨s, hold, rfl⟩ := Option.map_eq_some_iff.mp hs
    exact ⟨s, hold, rfl⟩

theorem ClientDesk.event_serves {φ η : Type} {fat : Fs.FatIo φ η} {scr : Screen} {ev : Event φ}
    {st st' : ClientDesk φ} (h : st.step fat scr (.event ev) = some st') :
    ∃ vs : List Serve, st'.win = vs.foldl Serve.apply st.win := by
  rw [step, onEvent] at h
  split at h
  · cases h
  · obtain ⟨comp, -, rfl⟩ := Option.map_eq_some_iff.mp h
    exact ⟨(WmOp.drops scr (st.comp.ops scr fat ev) st.comp.desk).map .close,
      by rw [List.foldl_map]; rfl⟩

end CoeleoOs.Ui

namespace CoeleoOs.Task
open CoeleoOs.Lib CoeleoOs.Lib.Machine CoeleoOs.Ui

/-- A step of a task, or one window operation inside a poll. -/
inductive WinAct
  | task (a : Act)
  | serve (v : Serve)

def Sys.stepWin (s : Sys) : WinAct → Option Sys
  | .task (.compositor _) => none
  | .task a => s.step a
  | .serve v => s.step (.compositor (v.apply s.k.win))

def killVictim (s : Sched) (pid : ℕ) : Option Slot := do
  let cur ← s.current
  let p ← s.procs cur
  if pid % 2 ^ 32 = s.initPid then none
  else
    let v ← s.findPid (pid % 2 ^ 32)
    let q ← s.procs v
    if q.parent ≠ p.pid ∨ q.state = .zombie then none else some v

namespace Kernel

variable (k : Kernel)

def spares (v : Option Slot) : Bool := (v.bind k.sched.procs).all fun p => !k.win.owns p.pid

def leavesNone : Bool :=
  !(k.sched.exclusive || k.sched.currentPid == some k.sched.initPid) ||
    (List.finRange maxSurfaces).all fun i => (k.win.slots i).all fun s =>
      some s.pid == k.sched.currentPid

def Owned : Prop := ∀ i s, k.win.slots i = some s → ∃ j p, k.sched.Live j p ∧ p.pid = s.pid

end Kernel

/-- The step ends no owner of a window except through `user_exit`, and opens no window
for a process that has ended. -/
def sparesOwners (t : Trans Sys WinAct) : Bool :=
  match t.act with
  | .task (.key b) => b ≠ 3 || t.pre.k.spares (foreground t.pre.k.sched)
  | .task .fault => t.pre.k.leavesNone
  | .task (.run _) =>
    match t.pre.mode with
    | .kernel ⟨.dispatch num a0 _ _, _⟩ =>
      (num ≠ 1 || t.pre.k.leavesNone) &&
        (num ≠ 9 || t.pre.k.spares (killVictim t.pre.k.sched a0.toNat)) &&
        (num ≠ 17 || !t.pre.k.sched.currentIsZombie)
    | _ => true
  | _ => true

section Survivors

variable {k k' : Kernel} {s s' : Sys}

def Seated (k k' : Kernel) : Prop :=
  ∀ i p, k.sched.Live i p → ∃ p', k'.sched.procs i = some p' ∧ p'.pid = p.pid

def Lasts (k k' : Kernel) : Prop :=
  ∀ i p, k.sched.Live i p → ∃ p', k'.sched.Live i p' ∧ p'.pid = p.pid

theorem Seated.lasts (h : Seated k k') (hn : NoEnds k.sched k'.sched) : Lasts k k' := by
  intro i p hp
  obtain ⟨p', hp', hpid⟩ := h i p hp
  refine ⟨p', ⟨hp', fun hz => ?_⟩, hpid⟩
  obtain ⟨q, hq, -, -, hqz⟩ := hn i p' hp' hz
  obtain rfl := Option.some.inj (hp.1.symm.trans hq)
  exact hp.2 hqz

theorem Frame.seated (h : Frame k k') : Seated k k' := by
  intro i p hp
  obtain ⟨hp, hz⟩ := hp
  rcases h.slot i with ⟨hq, hq', he, -⟩ | ⟨hq, hst, -, -⟩ | ⟨hn, -⟩ | ⟨hn, -⟩
  · obtain rfl := Option.some.inj (hp.symm.trans hq)
    exact ⟨_, hq', he.pid⟩
  · obtain rfl := Option.some.inj (hp.symm.trans hq)
    exact absurd hst hz
  · rw [hp] at hn
    cases hn
  · rw [hp] at hn
    cases hn

theorem seated_setProc {i : Slot} {q : Pcb} {sched : Sched}
    (hq : ∀ p, k.sched.procs i = some p → q.pid = p.pid)
    (hs : k'.sched.procs = (sched.setProc i q).procs) (he : sched.procs = k.sched.procs) :
    Seated k k' := by
  intro j p hp
  by_cases hj : j = i
  · subst hj
    exact ⟨q, by rw [hs, Sched.setProc_self], hq p hp.1⟩
  · exact ⟨p, by rw [hs, Sched.setProc_of_ne _ hj, he]; exact hp.1, rfl⟩

theorem pick_seated {slot : Slot} {r : Kernel × Resume} (hr : switchTo k slot = some r) :
    Seated k r.1 := by
  obtain ⟨p, hp, hk, -⟩ := switchTo_some hr
  rw [saveOutgoing_self] at hp
  rw [hk]
  intro i q hq
  by_cases hi : i = slot
  · subst hi
    obtain rfl := Option.some.inj (hp.symm.trans hq.1)
    exact ⟨_, Sched.enter_self _ _ _, rfl⟩
  · simp only [Sched.enter_of_ne _ hi]
    rcases saveOutgoing_cases k hi with ⟨-, he⟩ | ⟨-, he⟩
    · exact ⟨q, he.trans hq.1, rfl⟩
    · rw [he, hq.1]
      exact ⟨_, rfl, rfl⟩

theorem preempt_seated {frame : TrapFrame} {r : Kernel × Resume}
    (ht : timerFromUser k frame = some (.switch r)) : Seated k r.1 := by
  obtain ⟨cur, n, q, p, -, hq, -, hne, hp, -, hk, -⟩ := timerFromUser_switch ht
  rw [hk]
  intro i x hx
  by_cases hn : i = n
  · subst hn
    obtain rfl := Option.some.inj (hx.1.symm.trans hp)
    exact ⟨_, Sched.enter_self _ _ _, rfl⟩
  · simp only [Sched.enter_of_ne _ hn]
    by_cases hc : i = cur
    · subst hc
      obtain rfl := Option.some.inj (hx.1.symm.trans hq)
      exact ⟨_, Sched.setProc_self _ _ _, rfl⟩
    · exact ⟨x, (Sched.setProc_of_ne _ hc _).trans hx.1, rfl⟩

theorem start_seated {image : Image} {name : Bytes} {exclusive : Bool} {argv : Option ArgvSetup}
    {r : Kernel × Option TrapFrame} (hr : runWith k image name exclusive argv = some r) :
    Seated k r.1 := by
  rcases runWith_some hr with rfl | ⟨slot, av, hfree, rfl⟩
  · exact fun i p hp => ⟨p, hp.1, rfl⟩
  · refine seated_setProc (fun p hp => ?_) rfl rfl
    rw [hfree] at hp
    cases hp

/-- The windows stay as they are, and so do the processes that have not ended. -/
structure Undisturbed (k k' : Kernel) : Prop where
  win : k'.win = k.win
  lasts : Lasts k k'

theorem Steady.undisturbed (h : Steady k k') (hs : Seated k k') : Undisturbed k k' :=
  ⟨h.win, hs.lasts h.noEnds⟩

theorem Undisturbed.trans {k₁ : Kernel} (h : Undisturbed k k₁) (h' : Undisturbed k₁ k') :
    Undisturbed k k' := by
  refine ⟨h'.win.trans h.win, fun i p hp => ?_⟩
  obtain ⟨p₁, hp₁, hpid₁⟩ := h.lasts i p hp
  obtain ⟨p', hp', hpid⟩ := h'.lasts i p₁ hp₁
  exact ⟨p', hp', hpid.trans hpid₁⟩

theorem Undisturbed.refl (k : Kernel) : Undisturbed k k := ⟨rfl, fun _ p hp => ⟨p, hp, rfl⟩⟩

end Survivors

section Calls

variable {k k' : Kernel} {s s' : Sys}

theorem sysKill_cases {pid r : ℕ} (h : sysKill k pid = some (r, k')) :
    k' = k ∨ ∃ v, killVictim k.sched pid = some v ∧ k' = makeZombieLocked k v false := by
  unfold sysKill at h
  cases hc : k.sched.current with
  | none =>
    simp only [hc, Option.some.injEq, Prod.mk.injEq] at h
    exact .inl h.2.symm
  | some cur =>
    simp only [hc, Option.bind_eq_bind, Option.bind_eq_some_iff] at h
    obtain ⟨p, hp, h⟩ := h
    split at h
    · simp only [Option.pure_def, Option.some.injEq, Prod.mk.injEq] at h
      exact .inl h.2.symm
    next hinit =>
    split at h
    · simp only [Option.pure_def, Option.some.injEq, Prod.mk.injEq] at h
      exact .inl h.2.symm
    next v hv =>
    simp only [Option.bind_eq_some_iff] at h
    obtain ⟨q, hq, h⟩ := h
    split_ifs at h with hparent hz
    all_goals simp only [Option.pure_def, Option.some.injEq, Prod.mk.injEq] at h
    · exact .inl h.2.symm
    · exact .inl h.2.symm
    · refine .inr ⟨v, ?_, h.2.symm⟩
      simp only [killVictim, hc, hp, hv, hq, Option.bind_eq_bind, Option.bind_some, if_neg hinit,
        if_neg (not_or.mpr ⟨hparent, hz⟩)]

/-- What the code of a system call does to the windows and to the owners. -/
inductive CallCase (k : Kernel) : Point → Sys → Prop
  | steady {p : Point} {s' : Sys} : Undisturbed k s'.k → CallCase k p s'
  | exit {a0 a1 a2 : UInt64} {r : Kernel × Bool} : userExit k .exited = some r →
      CallCase k (.dispatch 1 a0 a1 a2) (exited r)
  | kill {a0 a1 a2 : UInt64} {v : Slot} {s' : Sys} : killVictim k.sched a0.toNat = some v →
      s'.k = makeZombieLocked k v false → CallCase k (.dispatch 9 a0 a1 a2) s'
  | create {a0 a1 a2 : UInt64} {w : Win} {s' : Sys} : s'.k = { k with win := w } →
      (∀ i x, w.slots i = some x → k.win.slots i = some x ∨ k.sched.currentPid = some x.pid) →
      CallCase k (.dispatch 17 a0 a1 a2) s'
  | serve {p : Point} {w : Win} {s' : Sys} : s'.k = { k with win := w } → w.Sub k.win →
    CallCase k p s'

theorem steady_reapOrphans : Steady k (reapOrphans k) := by
  refine ⟨?_, reapOrphans_noEnds k⟩
  unfold reapOrphans
  generalize maxProc = fuel
  induction fuel generalizing k with
  | zero => rfl
  | succ fuel ih =>
    rw [reapLoop]
    split
    · rfl
    next i _ => exact ih.trans (steady_removeSlot i).win

theorem enterPoll_undisturbed (b : Back) : Undisturbed k (enterPoll k b).k := by
  have hseat := (enterPoll_polled k b).1.calm.frame.seated
  unfold enterPoll at hseat ⊢
  split
  · next hready =>
    rw [if_pos hready] at hseat
    exact steady_reapOrphans.undisturbed hseat
  · exact .refl k

theorem yieldBlock_undisturbed {st : State} {c : KernelCont} (hst : st ≠ .zombie)
    (hy : yieldBlock k st c = some k') : Undisturbed k k' := by
  obtain ⟨i, p, -, hp, rfl⟩ := yieldBlock_some hy
  refine Steady.undisturbed ⟨rfl, noEnds_setProc (fun q _ hz => absurd hz hst) (by simp [hp])⟩ ?_
  refine seated_setProc (fun q hq => ?_) rfl rfl
  rw [← Option.some.inj (hp.symm.trans hq)]

theorem proceed_undisturbed {rsp : UInt64} {next : Next} {p : Point} {k₁ : Kernel}
    (ha : After k p next k₁) (hs : Steady k k₁) (hstays : next.stays) :
    Undisturbed k (orHalt k₁ (proceed rsp k₁ next)).k := by
  have hblock : ∀ {st : State} {q : Point}, After k p (.block st q) k₁ →
      Undisturbed k (orHalt k₁ (proceed rsp k₁ (.block st q))).k := fun {st q} hb => by
    have h₁ : Undisturbed k k₁ := hs.undisturbed hb.block_calm.1.frame.seated
    simp only [proceed]
    cases hy : yieldBlock k₁ st ⟨q, rsp⟩ with
    | none => exact h₁
    | some k₂ => exact h₁.trans (yieldBlock_undisturbed hb.block_kernel.2 hy)
  cases ha with
  | ret ht => exact hs.undisturbed ht.frame.seated
  | goto _ => exact .refl k
  | read hr => exact hs.undisturbed (Calm.read hr).frame.seated
  | write _ hw => exact hs.undisturbed (Calm.write hw).frame.seated
  | pollThen => exact enterPoll_undisturbed _
  | irqOpen _ => exact .refl k
  | blockStdin h => exact hblock (.blockStdin h)
  | blockRead h => exact hblock (.blockRead h)
  | blockWrite h h' => exact hblock (.blockWrite h h')
  | blockWait h₁ h₂ h₃ h₄ => exact hblock (.blockWait h₁ h₂ h₃ h₄)
  | exit => exact hstays.elim

theorem onWin_serves {m : KernM Win ℕ} {e : Env} {P : Win → Prop} (hm : m.wp e k.win fun _ => P) :
    (do return Next.ret (← onWin m)).wp e k fun next k' =>
      (∃ v, next = Next.ret v) ∧ ∃ w, k' = { k with win := w } ∧ P w := by
  rw [Eff.wp_bind]
  unfold onWin
  rw [Eff.wp_zoom]
  exact Eff.wp_mono hm fun v w hw => Eff.wp_pure.mpr ⟨⟨v, rfl⟩, w, rfl, hw⟩

theorem dispatch_kill (a0 a1 a2 : ℕ) {e : Env} : (syscallDispatch 9 a0 a1 a2).wp e k fun next k' =>
    (∃ v, next = Next.ret v) ∧ (k' = k ∨ ∃ v, killVictim k.sched a0 = some v ∧
      k' = makeZombieLocked k v false) := by
  change (Eff.get >>= fun _ => Eff.ask >>= fun _ => do return Next.ret (← sysKillCall a0) : KernM
      Kernel Next).wp e k _
  rw [Eff.wp_bind, Eff.wp_get, Eff.wp_bind, Eff.wp_ask, Eff.wp_bind]
  unfold sysKillCall
  rw [Eff.wp_bind, Eff.wp_get]
  cases hk : sysKill k a0 with
  | none => exact Eff.wp_abort.mpr trivial
  | some r =>
    dsimp only
    rw [Eff.wp_bind, Eff.wp_set, Eff.wp_pure, Eff.wp_pure]
    exact ⟨⟨r.1, rfl⟩, sysKill_cases hk⟩

theorem dispatch_create (a0 a1 a2 : ℕ) {e : Env} :
    (syscallDispatch 17 a0 a1 a2).wp e k fun next k' =>
    (∃ v, next = Next.ret v) ∧ ∃ w, k' = { k with win := w } ∧
      ∀ i x, w.slots i = some x → k.win.slots i = some x ∨ k.sched.currentPid = some x.pid := by
  change (Eff.get >>= fun k => Eff.ask >>= fun _ => do
    return Next.ret (← onWin (sysCreate k.ready k.sched.currentPid a0 a1 a2)) :
      KernM Kernel Next).wp e k _
  rw [Eff.wp_bind, Eff.wp_get, Eff.wp_bind, Eff.wp_ask]
  exact onWin_serves (Eff.wp_mono sysCreate_wp fun _ _ h => h.2)

theorem dispatch_damage (a0 a1 a2 : ℕ) {e : Env} :
    (syscallDispatch 18 a0 a1 a2).wp e k fun next k' =>
    (∃ v, next = Next.ret v) ∧ ∃ w, k' = { k with win := w } ∧ w.Sub k.win := by
  change (Eff.get >>= fun k => Eff.ask >>= fun _ => do
    return Next.ret (← onWin (sysDamage k.sched.currentPid a0 a1 a2)) : KernM Kernel Next).wp e k _
  rw [Eff.wp_bind, Eff.wp_get, Eff.wp_bind, Eff.wp_ask]
  exact onWin_serves (Eff.wp_mono sysDamage_wp fun _ _ h => .of_tags h.tags)

theorem dispatch_pollInput (a0 a1 a2 : ℕ) {e : Env} :
    (syscallDispatch 19 a0 a1 a2).wp e k fun next k' =>
    (∃ v, next = Next.ret v) ∧ ∃ w, k' = { k with win := w } ∧ w.Sub k.win := by
  change (Eff.get >>= fun k => Eff.ask >>= fun _ => do
    return Next.ret (← onWin (sysPollInput k.sched.currentPid a0 a1)) : KernM Kernel Next).wp e k _
  rw [Eff.wp_bind, Eff.wp_get, Eff.wp_bind, Eff.wp_ask]
  exact onWin_serves (Eff.wp_mono sysPollInput_wp fun _ _ h => .of_slots h)

theorem runCall_custody (k : Kernel) (c : KernelCont) (e : Env) :
    CallCase k c.point (runCall k c e) := by
  obtain ⟨point, rsp⟩ := c
  unfold runCall
  dsimp only
  cases ho : (runPoint point).out e k with
  | none => exact .steady (.refl k)
  | some r =>
    obtain ⟨next, k₁⟩ := r
    have ha := runPoint_after ho
    dsimp only
    by_cases hstay : next.stays
    · by_cases hsteady : point.unsteady = false
      · exact .steady (proceed_undisturbed ha (runPoint_steady hsteady e k next k₁ ho) hstay)
      cases point with
      | dispatch num a0 a1 a2 =>
        simp only [Point.unsteady, decide_eq_false_iff_not, not_not] at hsteady
        rcases hsteady with rfl | rfl | rfl | rfl
        · obtain ⟨⟨v, rfl⟩, rfl | ⟨slot, hv, rfl⟩⟩ :=
            dispatch_kill a0.toNat a1.toNat a2.toNat next k₁ ho
          · exact .steady (.refl _)
          · exact .kill hv rfl
        · obtain ⟨⟨v, rfl⟩, w, rfl, hw⟩ := dispatch_create a0.toNat a1.toNat a2.toNat next k₁ ho
          exact .create rfl hw
        · obtain ⟨⟨v, rfl⟩, w, rfl, hw⟩ := dispatch_damage a0.toNat a1.toNat a2.toNat next k₁ ho
          exact .serve rfl hw
        · obtain ⟨⟨v, rfl⟩, w, rfl, hw⟩ := dispatch_pollInput a0.toNat a1.toNat a2.toNat next k₁ ho
          exact .serve rfl hw
      | _ => exact absurd rfl hsteady
    · cases ha with
      | @exit num a0 a1 a2 =>
        have hone : num = 1 := by
          by_contra hne
          exact syscallDispatch_stays (fun h => hne (UInt64.toNat.inj h)) e k _ _ ho
        subst hone
        simp only [proceed]
        cases hr : userExit k .exited with
        | none => exact .steady (.refl k)
        | some r => exact .exit hr
      | _ => exact absurd trivial hstay

end Calls

section Owners

variable {k k' : Kernel} {s s' : Sys}

theorem Win.owns_iff {w : Win} {pid : ℕ} :
    Win.owns w pid = true ↔ ∃ i x, w.slots i = some x ∧ x.pid = pid := by
  simp only [Win.owns, List.any_eq_true, List.mem_finRange, true_and, Option.any_eq_true,
    decide_eq_true_eq]

theorem Kernel.Owned.of_lasts (h : k.Owned) (hw : k'.win.Sub k.win) (hl : Lasts k k') :
    k'.Owned := by
  intro i x' hx'
  obtain ⟨x, hx, hpid⟩ := hw i x' hx'
  obtain ⟨j, p, hp, hown⟩ := h i x hx
  obtain ⟨p', hp', hp'pid⟩ := hl j p hp
  exact ⟨j, p', hp', hp'pid.trans (hown.trans hpid)⟩

theorem Kernel.Owned.of_kill {v : Slot} (h : k.Owned) (hw : k'.win = k.win) (hseat : Seated k k')
    (hends : EndsAt v k.sched k'.sched) (hspare : k.spares (some v) = true) : k'.Owned := by
  intro i x hx
  rw [hw] at hx
  obtain ⟨j, p, hp, hown⟩ := h i x hx
  obtain ⟨p', hp', hpid⟩ := hseat j p hp
  refine ⟨j, p', ⟨hp', fun hz => ?_⟩, hpid.trans hown⟩
  obtain ⟨q, hq, -, -, hqz | rfl⟩ := hends j p' hp' hz
  · obtain rfl := Option.some.inj (hp.1.symm.trans hq)
    exact hp.2 hqz
  · simp only [Kernel.spares, Option.bind_some, hp.1, Option.all_some, Bool.not_eq_true'] at hspare
    rw [Win.owns_iff.mpr ⟨i, x, hx, hown.symm⟩] at hspare
    cases hspare

theorem makeZombieLocked_win (k : Kernel) (v : Slot) (fault : Bool) :
    (makeZombieLocked k v fault).win = k.win := by
  unfold makeZombieLocked
  split <;> rfl

theorem enqueueOrKill_owned {b : UInt8} (h : k.Owned)
    (hc : b ≠ 3 ∨ k.spares (foreground k.sched) = true) : (enqueueOrKill k b).Owned := by
  have hseat := (enqueueOrKill_frame k b).seated
  rcases enqueueOrKill_cases k b with ⟨v, hb, hv, he⟩ | ⟨-, he⟩
  · rw [hv] at hc
    rw [he] at hseat ⊢
    refine h.of_kill (makeZombieLocked_win k v false) hseat ?_ (hc.resolve_left (not_not.mpr hb))
    exact (makeZombieLocked_endsAt k v false).trans_noEnds (wakeParent_noEnds _ _)
  · rw [he] at hseat ⊢
    exact h.of_lasts (.of_slots rfl) (hseat.lasts (wakeStdin_noEnds _))

theorem unloadAll_win (k : Kernel) : (unloadAll k).win = k.win := by
  unfold unloadAll
  generalize List.finRange maxProc = l
  induction l generalizing k with
  | nil => rfl
  | cons j l ih => exact (ih _).trans (steady_removeSlot j).win

theorem userExit_win {o : Outcome} {r : Kernel × Bool} (hr : userExit k o = some r) :
    ∃ i p, k.sched.current = some i ∧ k.sched.procs i = some p ∧ r.1.win = k.win.dropPid p.pid := by
  obtain ⟨i, p, -, hi, hp, -, -⟩ := userExit_some hr
  refine ⟨i, p, hi, hp, ?_⟩
  have hpid :
      k.sched.currentPid = some p.pid := by simp [Sched.currentPid, Sched.currentPcb, hi, hp]
  simp only [userExit, hpid, hi, Option.bind_eq_bind, Option.bind_some, Option.bind_eq_some_iff]
    at hr
  obtain ⟨q, -, hr⟩ := hr
  split at hr
  · obtain rfl := Option.some.inj hr
    exact (unloadAll_win _).trans (makeZombieLocked_win _ _ _)
  · obtain rfl := Option.some.inj hr
    exact makeZombieLocked_win _ _ _

theorem userExit_owned {o : Outcome} {r : Kernel × Bool} (h : k.Owned) (hr : userExit k o = some r)
    (hc : k.leavesNone = true) : r.1.Owned := by
  obtain ⟨i, p, hi, hp, hwin⟩ := userExit_win hr
  intro l x hx
  rw [hwin] at hx
  obtain ⟨hx, hne⟩ := Option.filter_eq_some_iff.mp hx
  obtain ⟨k', left⟩ := r
  obtain ⟨i', p', k₀, hi', hp', hq, hcase⟩ := userExit_some hr
  obtain rfl := Option.some.inj (hi.symm.trans hi')
  obtain rfl := Option.some.inj (hp.symm.trans hp')
  have hpid :
      k.sched.currentPid = some p.pid := by simp [Sched.currentPid, Sched.currentPcb, hi, hp]
  rcases hcase with ⟨hleave, -⟩ | ⟨-, hr'⟩
  · have hcond : (k.sched.exclusive || some p.pid == some k.sched.initPid) = true := by
      simpa using hleave
    simp only [Kernel.leavesNone, hpid, hcond, Bool.not_true, Bool.false_or, List.all_eq_true,
      List.mem_finRange, true_imp_iff] at hc
    have hmine := hc l
    rw [hx] at hmine
    exact absurd (by simpa using hmine) (of_decide_eq_true hne)
  · obtain ⟨rfl, rfl⟩ := Prod.mk.inj hr'
    have hends := makeZombieLocked_endsAt k₀ i (decide (o = .fault))
    rw [hq.sched] at hends
    have hends := hends.trans_noEnds (wakeParentOfSlot_noEnds _ i)
    obtain ⟨j, q, hlive, hown⟩ := h l x hx
    obtain ⟨q', hq', hqpid⟩ := (userExit_stay hr).1.seated j q hlive
    refine ⟨j, q', ⟨hq', fun hz => ?_⟩, hqpid.trans hown⟩
    obtain ⟨q₀, hq₀, -, -, hqz | rfl⟩ := hends j q' hq' hz
    · obtain rfl := Option.some.inj (hlive.1.symm.trans hq₀)
      exact hlive.2 hqz
    · obtain rfl := Option.some.inj (hlive.1.symm.trans hp)
      exact of_decide_eq_true hne hown.symm

theorem resumed_undisturbed_pick {slot : Slot} {r : Kernel × Resume}
    (hr : switchTo k slot = some r) : Undisturbed k (resumed r).k := by
  have hseat := pick_seated hr
  obtain ⟨p, -, hk, -⟩ := switchTo_some hr
  rw [resumed_k]
  refine Steady.undisturbed ⟨by rw [hk], ?_⟩ hseat
  rw [hk]
  exact (saveOutgoing_noEnds _ _).trans (enter_noEnds _ _ _)

theorem timerStep_undisturbed (frame : TrapFrame) : Undisturbed k (timerStep k frame).k := by
  unfold timerStep
  split
  · exact .refl k
  · exact .refl k
  · exact .refl k
  next r ht =>
    have hseat := preempt_seated ht
    obtain ⟨cur, n, q, p, -, hq, -, -, -, -, hk, -⟩ := timerFromUser_switch ht
    rw [resumed_k]
    refine Steady.undisturbed ⟨by rw [hk], ?_⟩ hseat
    rw [hk]
    refine NoEnds.trans (noEnds_setProc (fun _ _ hz => ?_) (by simp [hq])) (enter_noEnds _ _ _)
    simp at hz

theorem runWithStep_undisturbed (image : Image) (name : Bytes) (exclusive : Bool)
    (argv : Option ArgvSetup) : Undisturbed k (runWithStep k image name exclusive argv).k := by
  unfold runWithStep
  cases hr : runWith k image name exclusive argv with
  | none => exact .refl k
  | some r =>
    have hseat := start_seated hr
    rcases runWith_some hr with rfl | ⟨slot, av, hfree, rfl⟩
    · exact Steady.undisturbed ⟨rfl, .refl _⟩ hseat
    · refine Steady.undisturbed ⟨rfl, fun i p' hp' hz => ?_⟩ hseat
      exact noEnds_setProc (s := { k.sched with
        exclusive := _, nextPid := 1, initPid := 0, current := none })
        (fun p hp _ => absurd (hfree.symm.trans hp) (by simp)) (by simp) i p' hp' hz

theorem scheduleStep_undisturbed : Undisturbed k (scheduleStep k).k := by
  unfold scheduleStep
  split
  · exact enterPoll_undisturbed _
  next slot hp =>
    cases hs : switchTo k slot with
    | none => exact .refl k
    | some r => exact resumed_undisturbed_pick hs

theorem step_undisturbed {a : Act} (h : s.step a = some s') (hkey : ∀ b, a ≠ .key b)
    (hfault : a ≠ .fault) (hrun : ∀ e, a ≠ .run e) (hcomp : ∀ w, a ≠ .compositor w) :
    Undisturbed s.k s'.k := by
  unfold Sys.step at h
  split at h
  case h_1 => exact Option.some.inj h ▸ runWithStep_undisturbed _ _ _ _
  case h_3 => exact Option.some.inj h ▸ enterPoll_undisturbed _
  case h_5 rsp num a0 a1 a2 _ =>
    obtain rfl := Option.some.inj h
    have hmark : Undisturbed s.k { s.k with userRsp := rsp } := ⟨rfl, (Undisturbed.refl s.k).lasts⟩
    exact hmark.trans (enterPoll_undisturbed _)
  case h_6 => exact Option.some.inj h ▸ timerStep_undisturbed _
  case h_7 => exact absurd rfl hfault
  case h_9 => exact absurd rfl (hrun _)
  case h_12 => exact absurd rfl (hkey _)
  case h_13 =>
    exact Option.some.inj h ▸ (steady_spawn _ _ _ _ _).undisturbed
      (spawnWith_frame _ _ _ _ _ _).seated
  case h_14 => exact absurd rfl (hcomp _)
  case h_16 => exact absurd rfl (hkey _)
  case h_18 => exact Option.some.inj h ▸ scheduleStep_undisturbed
  case h_21 => cases h
  all_goals
    obtain rfl := Option.some.inj h
    exact ⟨rfl, (Undisturbed.refl s.k).lasts⟩

theorem runCall_owned {c : KernelCont} {e : Env} (ho : s.k.Owned) (hmode : s.mode = .kernel c)
    (hc : sparesOwners ⟨s, .task (.run e), s'⟩ = true) : (runCall s.k c e).k.Owned := by
  have hcase := runCall_custody s.k c e
  obtain ⟨point, rsp⟩ := c
  simp only [sparesOwners, hmode] at hc
  generalize runCall s.k ⟨point, rsp⟩ e = s₁ at hcase ⊢
  cases hcase with
  | steady h => exact ho.of_lasts (.of_slots (by rw [h.win])) h.lasts
  | @exit a0 a1 a2 r hr =>
    simp only [Bool.and_eq_true] at hc
    exact userExit_owned ho hr (by simpa using hc.1.1)
  | @kill a0 a1 a2 v _ hv hk =>
    simp only [Bool.and_eq_true] at hc
    have hspare := hc.1.2
    rw [hv] at hspare
    rw [hk]
    exact ho.of_kill (makeZombieLocked_win s.k v false) (makeZombieLocked_frame s.k v false).seated
      (makeZombieLocked_endsAt s.k v false) (by simpa using hspare)
  | @create a0 a1 a2 w _ hk hw =>
    simp only [Bool.and_eq_true] at hc
    have hlive : s.k.sched.currentIsZombie = false := by simpa using hc.2
    rw [hk]
    intro i x hx
    rcases hw i x hx with hold | hpid
    · exact ho i x hold
    · simp only [Sched.currentPid, Sched.currentPcb, Option.map_eq_some_iff,
        Option.bind_eq_some_iff] at hpid
      obtain ⟨p, ⟨j, hj, hp⟩, hown⟩ := hpid
      refine ⟨j, p, ⟨hp, fun hz => ?_⟩, hown⟩
      rw [(currentIsZombie_iff hj hp).mpr hz] at hlive
      cases hlive
  | @serve _ w _ hk hw =>
    rw [hk]
    exact ho.of_lasts hw (Undisturbed.refl s.k).lasts

section Kinds

theorem step_compositor {w : Win} (h : s.step (.compositor w) = some s') : s'.k =
    { s.k with win := w } := by
  obtain ⟨k, mode⟩ := s
  cases mode <;> cases h
  rfl

theorem step_key {b : UInt8} (h : s.step (.key b) = some s') : s'.k = enqueueOrKill s.k b := by
  obtain ⟨k, mode⟩ := s
  cases mode <;> cases h <;> rfl

theorem step_fault (h : s.step .fault = some s') :
    s' = orHalt s.k ((userExit s.k .fault).map exited) := by
  obtain ⟨k, mode⟩ := s
  cases mode <;> cases h
  rfl

theorem step_call {e : Env} (h : s.step (.run e) = some s') :
    ∃ c, s.mode = .kernel c ∧ s' = runCall s.k c e := by
  obtain ⟨k, mode⟩ := s
  cases mode <;> cases h
  exact ⟨_, rfl, rfl⟩

end Kinds

theorem step_owned {a : WinAct} (h : s.stepWin a = some s') (ho : s.k.Owned)
    (hc : sparesOwners ⟨s, a, s'⟩ = true) : s'.k.Owned := by
  cases a with
  | serve v =>
    rw [step_compositor h]
    exact ho.of_lasts (v.apply_sub _) (Undisturbed.refl s.k).lasts
  | task a =>
    have hstep : s.step a = some s' := by
      cases a <;> first | exact h | cases h
    cases a with
    | key b =>
      rw [step_key hstep]
      exact enqueueOrKill_owned ho (by simpa [sparesOwners] using hc)
    | fault =>
      rw [step_fault hstep]
      cases hr : userExit s.k .fault with
      | none => exact ho
      | some r => exact userExit_owned ho hr hc
    | run e =>
      obtain ⟨c, hmode, rfl⟩ := step_call hstep
      exact runCall_owned ho hmode hc
    | compositor w => cases h
    | _ =>
      have hu := step_undisturbed hstep (by simp) (by simp) (by simp) (by simp)
      exact ho.of_lasts (.of_slots (by rw [hu.win])) hu.lasts

end Owners

abbrev WinRun (ready : Bool) (ts : List (Trans Sys WinAct)) (s : Sys) : Prop :=
  Path Sys.stepWin (Sys.boot ready) ts s

/-- In every state of a run that spares the owners, each window belongs to a process
that has not ended. -/
theorem windows_owned {ready : Bool} {ts : List (Trans Sys WinAct)} {s : Sys}
    (h : WinRun ready ts s) (hc : ∀ t ∈ ts, sparesOwners t = true) :
    ∀ i x, s.k.win.slots i = some x → ∃ j p, s.k.sched.procs j = some p ∧ p.state ≠ .zombie ∧
    p.pid = x.pid := by
  have hinit : (Sys.boot ready).k.Owned := by
    intro i x hx
    cases hx
  have howned : s.k.Owned :=
    h.invariant (I := fun s => s.k.Owned) hinit (fun _ hs ho hc => step_owned hs ho hc) hc
  intro i x hx
  obtain ⟨j, p, hp, hpid⟩ := howned i x hx
  exact ⟨j, p, hp.1, hp.2, hpid⟩

def windowsRun : List WinAct :=
  ([Sample.init] ++ Sample.call 256 17 1 1 4096 ++ [Sample.run] ++ Sample.call 256 7 4096 0 0 ++
    [Sample.run] ++ Sample.call 256 8 0 0 0 ++ [Sample.run, Sample.run, .schedule] ++
      Sample.call 256 17 1 1 4096 ++ [Sample.run]).map .task

theorem windows_owned_child_exits : ∃ ts s, WinRun true ts s ∧ (s.k.win.slots 0).isSome = true ∧
    ∀ i x, s.k.win.slots i = some x → ∃ j p, s.k.sched.procs j = some p ∧ p.state ≠ .zombie ∧
    p.pid = x.pid := by
  obtain ⟨r, hr, hp⟩ := exists_path_of_replay Sys.stepWin (Sys.boot true)
    (windowsRun ++ (Sample.call 256 1 0 0 0).map .task ++ [.task Sample.run])
    (fun r => r.1.all sparesOwners && (r.2.k.win.slots 0).isSome) (by decide)
  simp only [Bool.and_eq_true, List.all_eq_true] at hp
  exact ⟨r.1, r.2, hr, hp.2, windows_owned hr hp.1⟩

/-- Ctrl+C ends the child, and its window stays. -/
theorem window_outlives_owner : ¬ ∀ ready ts s, WinRun ready ts s →
    ∀ i x, s.k.win.slots i = some x → ∃ j p, s.k.sched.procs j = some p ∧ p.state ≠ .zombie ∧
    p.pid = x.pid := by
  intro h
  obtain ⟨r, hr, hp⟩ := exists_path_of_replay Sys.stepWin (Sys.boot true)
    (windowsRun ++ [.task (.syscall 256 10 0 0 0), .task (.key 3)])
    (fun r => (r.2.k.win.slots 1).any fun x => (List.finRange maxProc).all fun j =>
      (r.2.k.sched.procs j).all fun p => p.state = .zombie ∨ p.pid ≠ x.pid) (by decide)
  obtain ⟨x, hx, hall⟩ := (Option.any_eq_true _ _).mp hp
  obtain ⟨j, p, hproc, hz, hpid⟩ := h true r.1 r.2 hr 1 x hx
  have hend := List.all_eq_true.mp hall j (List.mem_finRange j)
  rw [hproc] at hend
  exact (of_decide_eq_true hend).elim hz fun hne => hne hpid

end CoeleoOs.Task
