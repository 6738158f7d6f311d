import CoeleoOs.Task.Slots

/-!
# Scheduling decisions

One inversion lemma for each function that blocks, switches, ends or starts a
process. They say exactly which entries of the process table change.
-/

namespace CoeleoOs.Task
open CoeleoOs.Lib CoeleoOs.Ui

variable {k k' : Kernel}

theorem yieldBlock_some {st : State} {c : KernelCont} (h : yieldBlock k st c = some k') :
    ∃ i p, k.sched.current = some i ∧ k.sched.procs i = some p ∧ k' = { k with
      kconts := Function.update k.kconts k.currentSlot (some c)
      sched := k.sched.setProc i { p with state := st, kcontValid := true } } := by
  simp only [yieldBlock, Option.bind_eq_bind, Option.bind_eq_some_iff, Option.pure_def,
    Option.some.injEq] at h
  obtain ⟨i, hi, p, hp, rfl⟩ := h
  exact ⟨i, p, hi, hp, rfl⟩

def Sched.enter (s : Sched) (slot : Slot) (p : Pcb) : Sched :=
  { s.setProc slot { p with state := .running, kcontValid := false } with current := some slot }

@[simp] theorem Sched.enter_current (s : Sched) (slot : Slot) (p : Pcb) :
    (s.enter slot p).current = some slot := rfl

@[simp] theorem Sched.enter_self (s : Sched) (slot : Slot) (p : Pcb) :
    (s.enter slot p).procs slot = some { p with state := .running, kcontValid := false } :=
  Sched.setProc_self _ _ _

theorem Sched.enter_of_ne (s : Sched) {slot i : Slot} (h : i ≠ slot) (p : Pcb) :
    (s.enter slot p).procs i = s.procs i :=
  Sched.setProc_of_ne _ h _

theorem makeCurrent_some {s : Sched} {slot : Slot} {r : Kernel × Resume}
    (h : makeCurrent k s slot = some r) :
    ∃ p, s.procs slot = some p ∧
      r.1 = { k with sched := s.enter slot p, currentSlot := slot, userRsp := p.userRsp } ∧
      ((p.kcontValid = true ∧ ∃ c, k.kconts slot = some c ∧ r.2 = .kcont c) ∨
        (p.kcontValid = false ∧ r.2 = .user p.trap)) := by
  simp only [makeCurrent, Option.bind_eq_bind, Option.bind_eq_some_iff] at h
  obtain ⟨p, hp, k₁, hk, hr⟩ := h
  refine ⟨p, hp, ?_⟩
  simp only [applyHw, Sched.setProc_self, Option.map_some, Option.some.injEq] at hk
  subst hk
  unfold resume at hr
  simp only [Sched.setProc_self] at hr
  cases hkc : p.kcontValid with
  | true =>
    simp only [hkc, if_true, Option.map_eq_some_iff] at hr
    obtain ⟨c, hc, rfl⟩ := hr
    refine ⟨?_, Or.inl ⟨rfl, c, hc, rfl⟩⟩
    simp only [Sched.enter, Sched.setProc, Function.update_idem]
  | false =>
    simp only [hkc, Bool.false_eq_true, if_false, Option.some.injEq] at hr
    subst hr
    refine ⟨?_, Or.inr ⟨rfl, rfl⟩⟩
    simp only [Sched.enter]

theorem switchTo_some {slot : Slot} {r : Kernel × Resume} (h : switchTo k slot = some r) :
    ∃ p, (saveOutgoing k slot).procs slot = some p ∧
      r.1 = { k with
        sched := (saveOutgoing k slot).enter slot p, currentSlot := slot, userRsp := p.userRsp } ∧
      ((p.kcontValid = true ∧ ∃ c, k.kconts slot = some c ∧ r.2 = .kcont c) ∨
        (p.kcontValid = false ∧ r.2 = .user p.trap)) :=
  makeCurrent_some h

theorem saveOutgoing_self (k : Kernel) (slot : Slot) :
    (saveOutgoing k slot).procs slot = k.sched.procs slot := by
  unfold saveOutgoing
  split
  · rfl
  · split
    · rename_i hne
      split
      · exact Sched.setProc_of_ne _ (Ne.symm hne) _
      · rfl
    · rfl

theorem saveOutgoing_cases (k : Kernel) {slot i : Slot} (hne : i ≠ slot) :
    (k.sched.current ≠ some i ∧ (saveOutgoing k slot).procs i = k.sched.procs i) ∨
      (k.sched.current = some i ∧ (saveOutgoing k slot).procs i =
        (k.sched.procs i).map fun p => { p with
          state := if p.state = .running then .runnable else p.state
          userRsp := k.userRsp }) := by
  unfold saveOutgoing
  cases hc : k.sched.current with
  | none => exact Or.inl ⟨by simp, rfl⟩
  | some c =>
    by_cases hi : i = c
    · subst hi
      refine Or.inr ⟨rfl, ?_⟩
      simp only [ne_eq, hne, not_false_eq_true, if_true]
      cases hp : k.sched.procs i with
      | none => simp [hp]
      | some p => simp
    · refine Or.inl ⟨by simpa using Ne.symm hi, ?_⟩
      simp only
      split
      · split
        · exact Sched.setProc_of_ne _ hi _
        · rfl
      · rfl

theorem cyclic_ne {cur : Slot} {m : ℕ} (h : m ∈ List.range' 1 (maxProc - 1)) :
    cyclic cur m ≠ cur := by
  rw [List.mem_range'] at h
  obtain ⟨i, hi, rfl⟩ := h
  intro he
  have := congrArg Fin.val he
  have hlt := cur.isLt
  simp only [cyclic, maxProc] at *
  omega

theorem pickRunnableOther_some {s : Sched} {cur n : Slot} (h : pickRunnableOther s cur = some n) :
    n ≠ cur ∧ ∃ p, s.procs n = some p ∧ p.state = .runnable := by
  have hmem := List.mem_of_find?_eq_some h
  have hp := List.find?_some h
  obtain ⟨m, hm, rfl⟩ := List.mem_map.mp hmem
  obtain ⟨p, hq, hs⟩ := (Option.any_eq_true _ _).mp hp
  exact ⟨cyclic_ne hm, p, hq, by simpa using hs⟩

theorem pickRunnable_some {s : Sched} {n : Slot} (h : pickRunnable s = some n) :
    ∃ p, s.procs n = some p ∧ (p.state = .runnable ∨ p.state = .running) := by
  have hp := List.find?_some h
  obtain ⟨p, hq, hs⟩ := (Option.any_eq_true _ _).mp hp
  exact ⟨p, hq, by simpa [Pcb.eligible] using hs⟩

theorem timerFromUser_switch {frame : TrapFrame} {r : Kernel × Resume}
    (h : timerFromUser k frame = some (.switch r)) :
    ∃ cur n q p, k.sched.current = some cur ∧ k.sched.procs cur = some q ∧ q.state ≠ .zombie ∧
      n ≠ cur ∧ k.sched.procs n = some p ∧ p.state = .runnable ∧
      r.1 = { k with
        sched := (k.sched.setProc cur { q with
          trap := frame, state := .runnable, kcontValid := false, userRsp := k.userRsp }).enter n p
        currentSlot := n, userRsp := p.userRsp } ∧
      ((p.kcontValid = true ∧ ∃ c, k.kconts n = some c ∧ r.2 = .kcont c) ∨
        (p.kcontValid = false ∧ r.2 = .user p.trap)) := by
  unfold timerFromUser at h
  cases hc : k.sched.current with
  | none => simp [hc] at h
  | some cur =>
    simp only [hc] at h
    split at h
    · simp at h
    · rename_i hz
      cases hq : k.sched.procs cur with
      | none => simp [hq] at hz
      | some q =>
        simp only [hq, Option.all_some, decide_eq_true_eq] at hz
        cases hn : pickRunnableOther k.sched cur with
        | none => simp [hn] at h
        | some n =>
          simp only [hn, hq, Option.map_eq_some_iff, TimerNext.switch.injEq] at h
          obtain ⟨_, h, rfl⟩ := h
          obtain ⟨hne, p, hp, hs⟩ := pickRunnableOther_some hn
          obtain ⟨p', hp', hr⟩ := makeCurrent_some h
          rw [Sched.setProc_of_ne _ hne, hp] at hp'
          obtain rfl := Option.some.inj hp'
          exact ⟨cur, n, q, p, rfl, hq, hz, hne, hp, hs, hr⟩

theorem unloadAll_foldl (l : List Slot) (k : Kernel) (i : Slot) :
    ((l.foldl removeSlot k).sched.procs i = if i ∈ l then none else k.sched.procs i) := by
  induction l generalizing k with
  | nil => simp
  | cons j l ih =>
    rw [List.foldl_cons, ih, removeSlot_procs]
    by_cases hl : i ∈ l
    · simp [hl]
    · by_cases hj : i = j <;> simp [hl, hj]

theorem unloadAll_procs (k : Kernel) (i : Slot) : (unloadAll k).sched.procs i = none := by
  rw [unloadAll, unloadAll_foldl, if_pos (List.mem_finRange i)]

theorem unloadAll_rest (k : Kernel) :
    (unloadAll k).currentSlot = k.currentSlot ∧ (unloadAll k).userRsp = k.userRsp ∧
      (unloadAll k).kconts = k.kconts ∧ (unloadAll k).sched.nextPid = k.sched.nextPid := by
  unfold unloadAll
  generalize List.finRange maxProc = l
  induction l generalizing k with
  | nil => exact ⟨rfl, rfl, rfl, rfl⟩
  | cons j l ih =>
    obtain ⟨h1, h2, h3, h4⟩ := ih (removeSlot k j)
    obtain ⟨-, g1, g2, g3, g4, -⟩ := removeSlot_rest k j
    exact ⟨h1.trans g1, h2.trans g2, h3.trans g3, h4.trans g4⟩

theorem userExit_some {o : Outcome} {r : Kernel × Bool} (h : userExit k o = some r) :
    ∃ i p k₀, k.sched.current = some i ∧ k.sched.procs i = some p ∧ Quiet k k₀ ∧
      ((k.sched.exclusive = true ∨ p.pid = k.sched.initPid) ∧
          r = (leaveScheduler (makeZombieLocked k₀ i (o = .fault)) o, true) ∨
        (k.sched.exclusive = false ∧ p.pid ≠ k.sched.initPid) ∧
          r = ({ makeZombieLocked k₀ i (o = .fault) with
            sched := (makeZombieLocked k₀ i (o = .fault)).sched.wakeParentOfSlot i }, false)) := by
  have hquiet : ∃ k₀, Quiet k k₀ ∧ userExit k o = (do
      let slot ← k₀.sched.current
      let k := makeZombieLocked k₀ slot (o = .fault)
      let p ← k.sched.procs slot
      if k.sched.exclusive ∨ p.pid = k.sched.initPid then
        return (leaveScheduler k o, true)
      return ({ k with sched := k.sched.wakeParentOfSlot slot }, false)) := by
    unfold userExit
    cases hp : k.sched.currentPid with
    | none => exact ⟨k, .refl k, rfl⟩
    | some pid =>
      exact ⟨{ k with win := k.win.dropPid pid }, ⟨rfl, rfl, rfl, rfl, rfl, rfl⟩, rfl⟩
  obtain ⟨k₀, hq, he⟩ := hquiet
  rw [he] at h
  simp only [Option.bind_eq_bind, Option.bind_eq_some_iff, Option.pure_def] at h
  obtain ⟨i, hi, p', hp', h⟩ := h
  have hkept := makeZombieLocked_kept k₀ i (o = .fault)
  rw [hq.sched] at hi hkept
  have hmeta : (makeZombieLocked k₀ i (o = .fault)).sched.exclusive = k.sched.exclusive ∧
      (makeZombieLocked k₀ i (o = .fault)).sched.initPid = k.sched.initPid := by
    unfold makeZombieLocked
    split <;> exact ⟨by rw [← hq.sched]; rfl, by rw [← hq.sched]; rfl⟩
  rw [hmeta.1, hmeta.2] at h
  rcases hkept.2 i with ⟨-, hn⟩ | ⟨p, q, hp, hq', hev⟩
  · simp [hn] at hp'
  · obtain rfl : q = p' := by simpa [hq'] using hp'
    refine ⟨i, p, k₀, hi, hp, hq, ?_⟩
    rw [hev.pid] at h
    split at h
    · rename_i hleave
      exact Or.inl ⟨hleave, (Option.some.inj h).symm⟩
    · rename_i hleave
      refine Or.inr ⟨⟨?_, ?_⟩, (Option.some.inj h).symm⟩
      · simpa using fun hx => hleave (Or.inl hx)
      · exact fun hx => hleave (Or.inr hx)

theorem userExit_stay {o : Outcome} (h : userExit k o = some (k', false)) :
    Frame k k' ∧ ∃ i p, k.sched.current = some i ∧ k'.sched.procs i = some p ∧
      p.state = .zombie ∧ p.kcontValid = false := by
  obtain ⟨i, p, k₀, hi, hp, hq, ⟨-, hr⟩ | ⟨-, hr⟩⟩ := userExit_some h
  · simp at hr
  · obtain ⟨rfl, -⟩ := Prod.mk.inj hr
    have hp₀ : k₀.sched.procs i = some p := hq.sched ▸ hp
    have hself := makeZombieLocked_self (decide (o = .fault)) hp₀
    have hwake := Sched.wakeParentOfSlot_kept (makeZombieLocked k₀ i (o = .fault)).sched i
    obtain ⟨hs, hu, hk⟩ := makeZombieLocked_rest k₀ i (o = .fault)
    have hkept := (makeZombieLocked_kept k₀ i (o = .fault)).trans hwake
    rw [hq.sched] at hkept
    refine ⟨hkept.frame (hs.trans hq.currentSlot) (hu.trans hq.userRsp) (hk.trans hq.kconts), ?_⟩
    rcases hwake.2 i with ⟨hn, -⟩ | ⟨q, q', ha, hb, he⟩
    · simp [hself] at hn
    · obtain rfl := Option.some.inj (hself.symm.trans ha)
      refine ⟨i, q', hi, hb, he.zombie rfl, ?_⟩
      exact he.kcont_of_zombie (fun _ => rfl) (he.zombie rfl)

theorem userExit_leave {o : Outcome} (h : userExit k o = some (k', true)) :
    k'.sched.current = none ∧ ∀ i, k'.sched.procs i = none := by
  obtain ⟨i, p, k₀, -, -, -, ⟨-, hr⟩ | ⟨-, hr⟩⟩ := userExit_some h
  · obtain ⟨rfl, -⟩ := Prod.mk.inj hr
    exact ⟨rfl, unloadAll_procs _⟩
  · simp at hr

theorem runWith_some {image : Image} {name : Bytes} {exclusive : Bool} {argv : Option ArgvSetup}
    {r : Kernel × Option TrapFrame} (h : runWith k image name exclusive argv = some r) :
    let s₀ : Sched :=
      { k.sched with exclusive := exclusive, nextPid := 1, initPid := 0, current := none }
    r = ({ k with sched := s₀ }, none) ∨
      ∃ slot av, k.sched.procs slot = none ∧
        r = ({ k with
          sched :=
            { s₀.setProc slot { newPcb 1 0 image name av .newStdio with state := .running } with
            nextPid := min 2 u32Max, initPid := 1, current := some slot }
          currentSlot := slot
          userRsp := 0
          kconts := Function.update k.kconts slot none },
          some (newPcb 1 0 image name av .newStdio).trap) := by
  intro s₀
  unfold runWith at h
  cases argv with
  | none => exact Or.inl (Option.some.inj h).symm
  | some av =>
    simp only [insertPcb] at h
    cases hpos : Table.position fun i => (k.sched.procs i).isNone with
    | none =>
      simp only [hpos, Option.some.injEq] at h
      exact Or.inl h.symm
    | some slot =>
      have hfree : k.sched.procs slot = none := by simpa using Table.position_some hpos
      simp only [hpos, childFds, if_true, Sched.markParent, applyHw,
        Option.bind_eq_bind, Option.bind_some, Option.map_some, Option.pure_def, Option.some.injEq,
        Sched.setProc, Function.update_self, Function.update_idem] at h
      refine Or.inr ⟨slot, av, hfree, ?_⟩
      rw [← h]
      rfl

def Sched.empty (s : Sched) : Bool := (List.finRange maxProc).all fun i => (s.procs i).isNone

theorem Sched.empty_iff {s : Sched} : s.empty = true ↔ ∀ i, s.procs i = none := by
  simp [Sched.empty]

/-- Every process of the new table was there before, under the same pid and parent. -/
structure SameIds (k k' : Kernel) : Prop where
  nextPid : k'.sched.nextPid = k.sched.nextPid
  old : ∀ i p', k'.sched.procs i = some p' →
    ∃ p, k.sched.procs i = some p ∧ p'.pid = p.pid ∧ p'.parent = p.parent

theorem SameIds.refl (k : Kernel) : SameIds k k := ⟨rfl, fun _ p hp => ⟨p, hp, rfl, rfl⟩⟩

theorem SameIds.trans {k'' : Kernel} (h : SameIds k k') (h' : SameIds k' k'') : SameIds k k'' := by
  refine ⟨h'.nextPid.trans h.nextPid, fun i p' hp' => ?_⟩
  obtain ⟨q, hq, hpid, hpar⟩ := h'.old i p' hp'
  obtain ⟨p, hp, hpid', hpar'⟩ := h.old i q hq
  exact ⟨p, hp, hpid.trans hpid', hpar.trans hpar'⟩

theorem Shrinks.sameIds (h : Shrinks k k') : SameIds k k' := by
  refine ⟨h.nextPid, fun i p' hp' => ?_⟩
  obtain ⟨p, hp, he⟩ := h.old i p' hp'
  exact ⟨p, hp, he.pid, he.parent⟩

theorem sameIds_setProc {s : Sched} {i j : Slot} {p q p' : Pcb} (hp : s.procs i = some p)
    (hp' : (s.setProc i q).procs j = some p') (hpid : q.pid = p.pid) (hpar : q.parent = p.parent) :
    ∃ p, s.procs j = some p ∧ p'.pid = p.pid ∧ p'.parent = p.parent := by
  by_cases hj : j = i
  · subst hj
    obtain rfl := Option.some.inj ((Sched.setProc_self _ _ _).symm.trans hp')
    exact ⟨p, hp, hpid, hpar⟩
  · rw [Sched.setProc_of_ne _ hj] at hp'
    exact ⟨p', hp', rfl, rfl⟩

theorem yieldBlock_sameIds {st : State} {c : KernelCont} (h : yieldBlock k st c = some k') :
    SameIds k k' := by
  obtain ⟨i, p, -, hp, rfl⟩ := yieldBlock_some h
  exact ⟨rfl, fun j p' hp' => sameIds_setProc hp hp' rfl rfl⟩

theorem saveOutgoing_sameIds (k : Kernel) (slot : Slot) :
    SameIds k { k with sched := saveOutgoing k slot } := by
  unfold saveOutgoing
  split
  · exact .refl k
  · split
    · split
      · rename_i p hp
        exact ⟨rfl, fun j p' hp' => sameIds_setProc hp hp' rfl rfl⟩
      · exact .refl k
    · exact .refl k

theorem switchTo_sameIds {slot : Slot} {r : Kernel × Resume} (h : switchTo k slot = some r) :
    SameIds k r.1 := by
  obtain ⟨p, hp, hk, -⟩ := switchTo_some h
  rw [hk]
  have hsave := saveOutgoing_sameIds k slot
  refine ⟨hsave.nextPid, fun i p' hp' => ?_⟩
  obtain ⟨q, hq, hpid, hpar⟩ := sameIds_setProc hp hp' rfl rfl
  obtain ⟨p₀, hp₀, hpid', hpar'⟩ := hsave.old i q hq
  exact ⟨p₀, hp₀, hpid.trans hpid', hpar.trans hpar'⟩

theorem timerFromUser_sameIds {frame : TrapFrame} {r : Kernel × Resume}
    (h : timerFromUser k frame = some (.switch r)) : SameIds k r.1 := by
  obtain ⟨cur, n, q, p, -, hq, -, hne, hp, -, hk, -⟩ := timerFromUser_switch h
  rw [hk]
  refine ⟨rfl, fun i p' hp' => ?_⟩
  obtain ⟨x, hx, hpid, hpar⟩ :=
    sameIds_setProc ((Sched.setProc_of_ne _ hne _).trans hp) hp' rfl rfl
  obtain ⟨y, hy, hpid', hpar'⟩ := sameIds_setProc hq hx rfl rfl
  exact ⟨y, hy, hpid.trans hpid', hpar.trans hpar'⟩

theorem userExit_sameIds {o : Outcome} {r : Kernel × Bool} (h : userExit k o = some r) :
    SameIds k r.1 := by
  obtain ⟨i, p, k₀, -, -, hq, hcase⟩ := userExit_some h
  have hz := (makeZombieLocked_shrinks k₀ i (o = .fault)).sameIds
  have hk : SameIds k (makeZombieLocked k₀ i (o = .fault)) :=
    ⟨by rw [hz.nextPid, hq.sched], fun j p' hp' => hq.sched ▸ hz.old j p' hp'⟩
  rcases hcase with ⟨-, rfl⟩ | ⟨-, rfl⟩
  · refine ⟨(unloadAll_rest _).2.2.2.trans hk.nextPid, fun j p' hp' => ?_⟩
    exact absurd ((unloadAll_procs _ j).symm.trans hp') (by simp)
  · refine hk.trans (Shrinks.sameIds (Sched.Kept.shrinks (Sched.wakeParentOfSlot_kept _ i) ?_))
    unfold Sched.wakeParentOfSlot
    simp only
    split <;> rfl

theorem step_ids {s s' : Sys} {a : Act} (h : s.step a = some s') :
    SameIds s.k s'.k ∨ (∃ slot p', Grows s.k s'.k slot p') ∨
      ∃ image name exclusive argv, a = .runWith image name exclusive argv ∧
        ∃ r, runWith s.k image name exclusive argv = some r ∧ s'.k = r.1 := by
  have hcalm : ∀ {k' : Kernel} {moves : Bool}, Calm s.k moves k' → SameIds s.k k' ∨
      (∃ slot p', Grows s.k k' slot p') ∨
      ∃ image name exclusive argv, a = .runWith image name exclusive argv ∧
        ∃ r, runWith s.k image name exclusive argv = some r ∧ k' = r.1 := fun hc =>
    hc.table.imp Shrinks.sameIds Or.inl
  cases step_cases h with
  | calm hc _ => exact hcalm hc
  | @entry rsp _ _ _ _ _ _ _ hc _ =>
    refine Or.inl ?_
    rcases hc with rfl | rfl
    · exact ⟨rfl, fun i p hp => ⟨p, hp, rfl, rfl⟩⟩
    · have hs := (reapOrphans_shrinks { s.k with userRsp := rsp }).sameIds
      exact ⟨hs.nextPid, hs.old⟩
  | ret _ ht => exact hcalm (.touch ht)
  | read _ hr => exact hcalm (.read hr)
  | write _ _ hw => exact hcalm (.write hw)
  | block _ ho hy =>
    refine Or.inl (SameIds.trans ?_ (yieldBlock_sameIds hy))
    obtain ⟨rfl | rfl, -⟩ := (runPoint_after ho).block_kernel
    · exact .refl _
    · exact Shrinks.sameIds (Sched.Kept.shrinks (m := { s.k with sched := _ })
        (Sched.wakePipeLocked_kept _) rfl)
  | exit hr => exact Or.inl (userExit_sameIds hr)
  | drop _ _ => exact Or.inl (.refl _)
  | pick _ _ hr => exact Or.inl (by rw [resumed_k]; exact switchTo_sameIds hr)
  | preempt _ ht => exact Or.inl (by rw [resumed_k]; exact timerFromUser_sameIds ht)
  | start _ hr => exact Or.inr (Or.inr ⟨_, _, _, _, rfl, _, hr, rfl⟩)
  | halt hc => exact hcalm hc

end CoeleoOs.Task
