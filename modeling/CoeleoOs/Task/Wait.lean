import CoeleoOs.Task.Blocked

/-!
# Waiting for children

`try_reap` decides from the flag `spawned_child`, which is set by the first spawn
and never cleared, whether a process without zombie children blocks. The flag
says what the table says only as long as some child is still there. A pid is
returned no more often than it has been given to a process.
-/

namespace CoeleoOs.Task
open CoeleoOs.Lib CoeleoOs.Lib.Machine

def Sched.childless (s : Sched) (pid : ℕ) : Bool :=
  (List.finRange maxProc).all fun i => (s.procs i).all fun p => p.parent ≠ pid

def Sched.hasLiveChild (s : Sched) (pid : ℕ) : Bool :=
  (List.finRange maxProc).any fun i => (s.procs i).any fun p => p.parent = pid ∧ p.state ≠ .zombie

/-- A process without children gets the error value from a round of `sys_wait`, and a
process that becomes `BlockedWait` has a live child. -/
def WaitRight (t : Trans Sys Act) : Prop :=
  (∀ rsp e i p, t.pre.mode = .kernel ⟨.wait, rsp⟩ → t.act = .run e →
    t.pre.k.sched.current = some i → t.pre.k.sched.procs i = some p →
    t.pre.k.sched.childless p.pid = true →
      (runPoint .wait).out e t.pre.k = some (.ret err, t.pre.k)) ∧
  ∀ i p', t.post.k.sched.procs i = some p' → p'.state = .blockedWait →
    (∃ p, t.pre.k.sched.procs i = some p ∧ p.state = .blockedWait) ∨
      t.pre.k.sched.hasLiveChild p'.pid = true

/-- A round of `sys_wait` finds `spawned_child` set only if a process in the table has the
caller as its parent. -/
def flagHasChild (t : Trans Sys Act) : Bool :=
  match t.pre.mode, t.act with
  | .kernel ⟨.wait, _⟩, .run _ =>
    (t.pre.k.sched.current.bind t.pre.k.sched.procs).all fun p =>
      !p.spawnedChild || !t.pre.k.sched.childless p.pid
  | _, _ => true

/-- The value a round of `sys_wait` returns. -/
def waitReturn (t : Trans Sys Act) : Option ℕ :=
  match t.pre.mode, t.act with
  | .kernel ⟨.wait, _⟩, .run e =>
    match (runPoint .wait).out e t.pre.k with
    | some (.ret v, _) => some v
    | _ => none
  | _, _ => none

def gives (pid : ℕ) (t : Trans Sys Act) : Bool :=
  (List.finRange maxProc).any fun i =>
    (t.pre.k.sched.procs i).isNone && (t.post.k.sched.procs i).any fun p => p.pid = pid

/-- The step gives out a pid only below the last one, and resets `next_pid` only before it
has given out any. -/
def pidsGrow (t : Trans Sys Act) : Bool :=
  match t.act with
  | .runWith _ _ _ _ => t.pre.k.sched.nextPid = 1
  | _ => t.pre.k.sched.nextPid ≠ u32Max ||
      (List.finRange maxProc).all fun i =>
        (t.pre.k.sched.procs i).isSome || (t.post.k.sched.procs i).isNone

theorem Sched.childless_iff {s : Sched} {pid : ℕ} :
    s.childless pid = true ↔ ∀ i p, s.procs i = some p → p.parent ≠ pid := by
  simp [Sched.childless, Option.all_eq_true]

section Rounds

variable {k k' : Kernel} {e : Env} {i : Slot} {p : Pcb}

theorem waitRound_out : (runPoint .wait).out e k = (tryReap k).map fun r =>
    (match r.1 with
      | .pid v => .ret v
      | .neverHadChildren => .ret err
      | .mustBlock => .block .blockedWait .wait, r.2) := by
  simp only [runPoint, waitRound, Eff.out_bind, Eff.out_get, Option.bind_some]
  rcases tryReap k with _ | ⟨_ | _ | _, k'⟩ <;> rfl

theorem tryReap_none (hc : k.sched.current = some i) (hp : k.sched.procs i = some p)
    (hz : zombieChild k.sched p.pid = none) :
    tryReap k = some (if p.spawnedChild then .mustBlock else .neverHadChildren, k) := by
  simp [tryReap, hc, hp, hz]

theorem zombieChild_of_childless {pid : ℕ} (h : k.sched.childless pid = true) :
    zombieChild k.sched pid = none := by
  cases hz : zombieChild k.sched pid with
  | none => rfl
  | some j =>
    obtain ⟨z, hj, hpar, -⟩ := zombieChild_some hz
    exact absurd hpar (Sched.childless_iff.mp h j z hj)

theorem hasLiveChild_of_child {pid : ℕ} (h : k.sched.childless pid = false)
    (hz : zombieChild k.sched pid = none) : k.sched.hasLiveChild pid = true := by
  have hsome : ∃ j q, k.sched.procs j = some q ∧ q.parent = pid := by
    by_contra hno
    refine absurd (Sched.childless_iff.mpr fun j q hq hpar => hno ⟨j, q, hq, hpar⟩) ?_
    simp [h]
  obtain ⟨j, q, hq, hpar⟩ := hsome
  have hlive := Table.position_any_none hz hq
  simp only [hpar, true_and, decide_eq_false_iff_not] at hlive
  refine List.any_eq_true.mpr ⟨j, List.mem_finRange j, ?_⟩
  simp [hq, hpar, hlive]

end Rounds

theorem flagHasChild_at {t : Trans Sys Act} {rsp : UInt64} {e : Env} {i : Slot} {p : Pcb}
    (hmode : t.pre.mode = .kernel ⟨.wait, rsp⟩) (hact : t.act = .run e)
    (hi : t.pre.k.sched.current = some i) (hp : t.pre.k.sched.procs i = some p) :
    flagHasChild t = true ↔ (p.spawnedChild = true → t.pre.k.sched.childless p.pid = false) := by
  simp only [flagHasChild, hmode, hact, hi, Option.bind_some, hp, Option.all_some]
  cases p.spawnedChild <;> simp

theorem waitRight_iff {t : Trans Sys Act} (h : t.pre.step t.act = some t.post)
    (hs : t.pre.k.OnSlot) : WaitRight t ↔ flagHasChild t = true := by
  constructor
  · rintro ⟨herr, -⟩
    unfold flagHasChild
    split
    · rename_i rsp e hmode hact
      rw [Option.all_eq_true]
      intro p hcur
      obtain ⟨i, hi, hp⟩ := Option.bind_eq_some_iff.mp hcur
      cases hchild : t.pre.k.sched.childless p.pid with
      | false => simp
      | true =>
        have hout := herr rsp e i p hmode hact hi hp hchild
        rw [waitRound_out, tryReap_none hi hp (zombieChild_of_childless hchild)] at hout
        cases hf : p.spawnedChild with
        | false => rfl
        | true => simp [hf] at hout
    · rfl
  · intro hflag
    refine ⟨fun rsp e i p hmode hact hi hp hchild => ?_, fun i p' hp' hst => ?_⟩
    · have hno : p.spawnedChild = false := by
        by_contra hf
        have := (flagHasChild_at hmode hact hi hp).mp hflag (by simpa using hf)
        simp [hchild] at this
      rw [waitRound_out, tryReap_none hi hp (zombieChild_of_childless hchild), hno]
      rfl
    · have hb : p'.state.blocked = true := by rw [hst]; rfl
      obtain ⟨pre, act, post⟩ := t
      cases step_blocked h hs hp' hb with
      | still hstill =>
        obtain ⟨p, hp, he, -⟩ := hstill
        exact Or.inl ⟨p, hp, he.trans hst⟩
      | @now c _ q _ _ p hmode ha _ hi hp hpid _ =>
        rw [hst] at ha
        obtain ⟨point, rsp⟩ := c
        cases ha with
        | @blockWait j p₀ hj hp₀ hz hf =>
          obtain rfl := Option.some.inj (hj.symm.trans hi)
          obtain rfl := Option.some.inj (hp₀.symm.trans hp)
          have hchild := (flagHasChild_at hmode rfl hj hp₀).mp hflag hf
          exact Or.inr (hpid ▸ hasLiveChild_of_child hchild hz)

section Counting

def Sched.present (s : Sched) (pid : ℕ) : ℕ :=
  Table.total (fun p => if p.pid = pid then 1 else 0) s.procs

variable {k k' : Kernel} {pid : ℕ}

theorem SameIds.present_le (h : SameIds k k') : k'.sched.present pid ≤ k.sched.present pid := by
  refine Table.total_mono fun i => ?_
  cases hp' : k'.sched.procs i with
  | none => exact Nat.zero_le _
  | some p' =>
    obtain ⟨p, hp, hpid, -⟩ := h.old i p' hp'
    simp [hp, hpid]

theorem present_le_of_new {slot : Slot} {n : Pcb} (hfree : k.sched.procs slot = none)
    (hnew : k'.sched.procs slot = some n)
    (hold : ∀ i ≠ slot, ∀ q', k'.sched.procs i = some q' →
      ∃ q, k.sched.procs i = some q ∧ q'.pid = q.pid) :
    k'.sched.present pid ≤ k.sched.present pid + if n.pid = pid then 1 else 0 := by
  have hupd := Table.total_update (fun p : Pcb => if p.pid = pid then 1 else 0) k.sched.procs
    slot (some n)
  rw [hfree] at hupd
  simp only [Option.elim_none, Option.elim_some, Nat.add_zero] at hupd
  refine le_trans (Table.total_mono fun i => ?_) (le_of_eq hupd)
  by_cases hi : i = slot
  · subst hi
    simp [hnew]
  · rw [Function.update_of_ne hi]
    cases hq' : k'.sched.procs i with
    | none => exact Nat.zero_le _
    | some q' =>
      obtain ⟨q, hq, he⟩ := hold i hi q' hq'
      simp [hq, he]

theorem gives_of_new {t : Trans Sys Act} {slot : Slot} {n : Pcb}
    (hfree : t.pre.k.sched.procs slot = none) (hnew : t.post.k.sched.procs slot = some n) :
    gives n.pid t = true :=
  List.any_eq_true.mpr ⟨slot, List.mem_finRange slot, by simp [hfree, hnew]⟩

theorem step_present {t : Trans Sys Act} (h : t.pre.step t.act = some t.post) (pid : ℕ) :
    t.post.k.sched.present pid ≤ t.pre.k.sched.present pid + if gives pid t then 1 else 0 := by
  have hadd : ∀ {slot : Slot} {n : Pcb}, t.pre.k.sched.procs slot = none →
      t.post.k.sched.procs slot = some n →
      (∀ i ≠ slot, ∀ q', t.post.k.sched.procs i = some q' →
        ∃ q, t.pre.k.sched.procs i = some q ∧ q'.pid = q.pid) →
      t.post.k.sched.present pid ≤ t.pre.k.sched.present pid + if gives pid t then 1 else 0 := by
    intro slot n hfree hnew hold
    refine le_trans (present_le_of_new hfree hnew hold) ?_
    by_cases hn : n.pid = pid
    · subst hn
      simp [gives_of_new hfree hnew]
    · simp [hn]
  rcases step_ids h with hsame | ⟨slot, n, hgrow⟩ | ⟨image, name, exclusive, argv, -, r, hr, hk⟩
  · exact le_trans hsame.present_le (Nat.le_add_right _ _)
  · refine hadd hgrow.free hgrow.new fun i hi q' hq' => ?_
    obtain ⟨q, hq, he⟩ := hgrow.old i hi q' hq'
    exact ⟨q, hq, he.pid⟩
  · rcases runWith_some hr with rfl | ⟨slot, av, hfree, rfl⟩
    · rw [hk]
      exact Nat.le_add_right _ _
    · refine hadd hfree (by rw [hk]; exact Sched.setProc_self _ _ _) fun i hi q' hq' => ?_
      rw [hk] at hq'
      exact ⟨q', (Sched.setProc_of_ne _ hi _).symm.trans hq', rfl⟩

theorem tryReap_some_pid (h : tryReap k = some (.pid pid, k')) :
    ∃ i z, k.sched.procs i = some z ∧ z.pid = pid ∧ k' = removeSlot k i := by
  unfold tryReap at h
  cases hc : k.sched.current with
  | none => simp [hc] at h
  | some cur =>
    simp only [hc, Option.bind_eq_bind, Option.bind_eq_some_iff] at h
    obtain ⟨p, -, h⟩ := h
    cases hz : zombieChild k.sched p.pid with
    | none =>
      simp only [hz, Option.pure_def, Option.some.injEq, Prod.mk.injEq] at h
      split at h <;> simp at h
    | some i =>
      simp only [hz, Option.bind_eq_some_iff, Option.pure_def, Option.some.injEq, Prod.mk.injEq,
        WaitResult.pid.injEq] at h
      obtain ⟨z, hi, hpid, rfl⟩ := h
      exact ⟨i, z, hi, hpid, rfl⟩

theorem removeSlot_present {i : Slot} {z : Pcb} (hi : k.sched.procs i = some z) :
    (removeSlot k i).sched.present z.pid + 1 = k.sched.present z.pid := by
  have hupd := Table.total_update (fun p : Pcb => if p.pid = z.pid then 1 else 0) k.sched.procs
    i none
  simp only [hi, Option.elim_some, if_true, Option.elim_none, Nat.add_zero] at hupd
  refine Eq.trans ?_ hupd
  congr 1
  refine Table.total_congr fun j => ?_
  rw [removeSlot_procs, Function.update_apply]

theorem waitReturn_some {t : Trans Sys Act} (h : t.pre.step t.act = some t.post)
    (hr : waitReturn t = some pid) (herr : pid ≠ err) :
    tryReap t.pre.k = some (.pid pid, t.post.k) := by
  unfold waitReturn at hr
  split at hr
  · rename_i rsp e hmode hact
    rw [waitRound_out] at hr
    have hpost : t.post = runCall t.pre.k ⟨.wait, rsp⟩ e := by
      rw [hact] at h
      simp only [Sys.step, hmode, Option.some.injEq] at h
      exact h.symm
    cases hreap : tryReap t.pre.k with
    | none => simp [hreap] at hr
    | some r =>
      obtain ⟨v | _ | _, k'⟩ := r
      · simp only [hreap, Option.map_some, Option.some.injEq] at hr
        subst hr
        rw [hpost, runCall, waitRound_out, hreap]
        rfl
      · simp only [hreap, Option.map_some, Option.some.injEq] at hr
        exact absurd hr.symm herr
      · simp [hreap] at hr
  · simp at hr

theorem step_counts {t : Trans Sys Act} (h : t.pre.step t.act = some t.post) (herr : pid ≠ err) :
    (if waitReturn t = some pid then 1 else 0) + t.post.k.sched.present pid ≤
      t.pre.k.sched.present pid + if gives pid t then 1 else 0 := by
  split
  · rename_i hr
    obtain ⟨i, z, hi, rfl, hk⟩ := tryReap_some_pid (waitReturn_some h hr herr)
    have := removeSlot_present hi
    rw [hk]
    omega
  · have := step_present h pid
    omega

theorem present_boot (ready : Bool) : (Sys.boot ready).k.sched.present pid = 0 :=
  Table.total_none _

theorem returned_le_given {ready : Bool} {ts : List (Trans Sys Act)} {s : Sys}
    (h : Run ready ts s) (herr : pid ≠ err) :
    ts.countP (fun t => waitReturn t = some pid) + s.k.sched.present pid ≤
      ts.countP (gives pid) := by
  induction h with
  | nil => simp [present_boot]
  | @snoc ts s s' a _ hs ih =>
    have hstep := step_counts (t := ⟨s, a, s'⟩) hs herr
    simp only [List.countP_append, List.countP_singleton, decide_eq_true_eq]
    simp only at hstep
    omega

end Counting

section GivenOnce

variable {ready : Bool} {ts : List (Trans Sys Act)} {s : Sys} {pid : ℕ}

theorem gives_iff {t : Trans Sys Act} : gives pid t = true ↔
    ∃ i p, t.pre.k.sched.procs i = none ∧ t.post.k.sched.procs i = some p ∧ p.pid = pid := by
  simp [gives, Option.any_eq_true]

theorem pidsGrow_lt {t : Trans Sys Act} (hc : pidsGrow t = true) {i : Slot} {p : Pcb}
    (hfree : t.pre.k.sched.procs i = none) (hnew : t.post.k.sched.procs i = some p) :
    t.pre.k.sched.nextPid ≠ u32Max := by
  unfold pidsGrow at hc
  split at hc
  · rw [of_decide_eq_true hc]
    decide
  · simp only [Bool.or_eq_true, decide_eq_true_eq, List.all_eq_true] at hc
    refine hc.elim id fun hall => ?_
    have := hall i (List.mem_finRange i)
    simp [hfree, hnew] at this

theorem step_nextPid (pid : ℕ) {t : Trans Sys Act} (h : t.pre.step t.act = some t.post)
    (hc : pidsGrow t = true) (hle : t.pre.k.sched.nextPid ≤ u32Max) :
    t.pre.k.sched.nextPid ≤ t.post.k.sched.nextPid ∧ t.post.k.sched.nextPid ≤ u32Max ∧
      (gives pid t = true → t.pre.k.sched.nextPid = pid ∧ pid < t.post.k.sched.nextPid) := by
  rcases step_ids h with hsame | ⟨slot, n, hgrow⟩ | ⟨image, name, exclusive, argv, ha, r, hr, hk⟩
  · rw [hsame.nextPid]
    refine ⟨le_rfl, hle, fun hg => ?_⟩
    obtain ⟨i, p, hfree, hp, -⟩ := gives_iff.mp hg
    obtain ⟨q, hq, -⟩ := hsame.old i p hp
    simp [hfree] at hq
  · have hlt := pidsGrow_lt hc hgrow.free hgrow.new
    have hnext := hgrow.nextPid
    refine ⟨by omega, by omega, fun hg => ?_⟩
    obtain ⟨i, p, hfree, hp, rfl⟩ := gives_iff.mp hg
    by_cases hi : i = slot
    · subst hi
      obtain rfl := Option.some.inj (hgrow.new.symm.trans hp)
      have := hgrow.pid
      omega
    · obtain ⟨q, hq, -⟩ := hgrow.old i hi p hp
      simp [hfree] at hq
  · have hone : t.pre.k.sched.nextPid = 1 := by
      simp only [pidsGrow, ha, decide_eq_true_eq] at hc
      exact hc
    rw [hone, hk]
    rcases runWith_some hr with rfl | ⟨slot, av, hfree, rfl⟩
    · refine ⟨le_rfl, (by decide : 1 ≤ u32Max), fun hg => ?_⟩
      obtain ⟨i, p, hfree, hp, -⟩ := gives_iff.mp hg
      rw [hk] at hp
      exact absurd (hfree.symm.trans hp) (by simp)
    · refine ⟨(by decide : 1 ≤ min 2 u32Max), (by decide : min 2 u32Max ≤ u32Max), fun hg => ?_⟩
      obtain ⟨i, p, hfree', hp, rfl⟩ := gives_iff.mp hg
      rw [hk] at hp
      by_cases hi : i = slot
      · subst hi
        obtain rfl := Option.some.inj ((Sched.setProc_self _ _ _).symm.trans hp)
        exact ⟨rfl, (by decide : 1 < min 2 u32Max)⟩
      · exact absurd (hfree'.symm.trans ((Sched.setProc_of_ne _ hi _).symm.trans hp)) (by simp)

theorem given_once (pid : ℕ) (h : Run ready ts s) (hc : ∀ t ∈ ts, pidsGrow t = true) :
    s.k.sched.nextPid ≤ u32Max ∧ ts.countP (gives pid) ≤ 1 ∧
      (0 < ts.countP (gives pid) → pid < s.k.sched.nextPid) := by
  induction h with
  | nil => exact ⟨(by decide : 1 ≤ u32Max), by simp, by simp⟩
  | @snoc ts s s' a _ hs ih =>
    simp only [List.mem_append, List.mem_singleton, or_imp, forall_and, forall_eq] at hc
    obtain ⟨hle, hcount, hlt⟩ := ih hc.1
    obtain ⟨hmono, hle', hgive⟩ := step_nextPid pid (t := ⟨s, a, s'⟩) hs hc.2 hle
    simp only at hmono hle' hgive
    rw [List.countP_append, List.countP_singleton]
    by_cases hg : gives pid ⟨s, a, s'⟩ = true
    · obtain ⟨he, hl⟩ := hgive hg
      simp only [hg, if_true]
      refine ⟨hle', ?_, fun _ => hl⟩
      by_contra hmore
      have := hlt (by omega)
      omega
    · simp only [hg, Bool.false_eq_true, if_false, Nat.add_zero]
      exact ⟨hle', hcount, fun h0 => lt_of_lt_of_le (hlt h0) hmono⟩

end GivenOnce

/-- Along every run, `sys_wait` refuses and blocks as it should exactly if the flag agrees with
the table in all its rounds. A pid is returned at most once for each process that was given it,
and so at most once while pids are not given out again. -/
theorem wait_iff {ready : Bool} {ts : List (Trans Sys Act)} {s : Sys} (h : Run ready ts s) :
    ((∀ t ∈ ts, WaitRight t) ↔ ∀ t ∈ ts, flagHasChild t = true) ∧
      ∀ pid ≠ err,
        ts.countP (fun t => waitReturn t = some pid) ≤ ts.countP (gives pid) ∧
        ((∀ t ∈ ts, pidsGrow t = true) → ts.countP (fun t => waitReturn t = some pid) ≤ 1) := by
  refine ⟨?_, fun pid herr => ?_⟩
  · exact Path.forall_iff (I := fun s => s.k.OnSlot) (onSlot_boot ready)
      (fun t ht hs => waitRight_iff ht hs) (fun t ht hs _ => step_onSlot ht hs) h
  · have hle := returned_le_given h herr
    refine ⟨by omega, fun hc => ?_⟩
    have := (given_once pid h hc).2.1
    omega

theorem wait_returns_child : ∃ ts s, Run true ts s ∧ (∀ t ∈ ts, flagHasChild t = true) ∧
    (∀ t ∈ ts, WaitRight t) ∧ ts.countP (fun t => waitReturn t = some 2) = 1 := by
  obtain ⟨r, hr, hp⟩ := exists_path_of_replay Sys.step (Sys.boot true)
    ([Sample.init] ++ Sample.call 256 7 4096 0 0 ++ [Sample.run] ++
      Sample.call 256 8 0 0 0 ++ [Sample.run, Sample.run, .schedule] ++ Sample.call 256 1 0 0 0 ++
      [Sample.run, .schedule, Sample.run])
    (fun r => r.1.all flagHasChild && r.1.all pidsGrow &&
      decide (1 ≤ r.1.countP (fun t => waitReturn t = some 2))) (by decide)
  simp only [Bool.and_eq_true, List.all_eq_true, decide_eq_true_eq] at hp
  obtain ⟨⟨hflag, hgrow⟩, hone⟩ := hp
  have hwait := wait_iff hr
  exact ⟨r.1, r.2, hr, hflag, hwait.1.mpr hflag,
    le_antisymm ((hwait.2 2 (by decide)).2 hgrow) hone⟩

/-- Init waits for its only child and then waits once more: it blocks with nobody left to
wake it. -/
theorem wait_blocks_childless : ¬ ∀ ready ts s, Run ready ts s → ∀ t ∈ ts, WaitRight t := by
  intro h
  obtain ⟨r, hr, hp⟩ := exists_path_of_replay Sys.step (Sys.boot true)
    ([Sample.init] ++ Sample.call 256 7 4096 0 0 ++ [Sample.run] ++
      Sample.call 256 8 0 0 0 ++ [Sample.run, Sample.run, .schedule] ++ Sample.call 256 1 0 0 0 ++
      [Sample.run, .schedule, Sample.run] ++ Sample.call 256 8 0 0 0 ++ [Sample.run, Sample.run])
    (fun r => r.1.any fun t =>
      (t.pre.k.sched.procs 0).any (fun p => p.state ≠ .blockedWait) &&
      (t.post.k.sched.procs 0).any fun p =>
        p.state = .blockedWait && !t.pre.k.sched.hasLiveChild p.pid) (by decide)
  obtain ⟨t, ht, hp⟩ := List.any_eq_true.mp hp
  simp only [Bool.and_eq_true, Option.any_eq_true, decide_eq_true_eq, Bool.not_eq_true'] at hp
  obtain ⟨⟨p, hp0, hrun⟩, p', hp', hst, hno⟩ := hp
  rcases (h true r.1 r.2 hr t ht).2 0 p' hp' hst with ⟨q, hq, hqst⟩ | hlive
  · obtain rfl := Option.some.inj (hp0.symm.trans hq)
    exact hrun hqst
  · exact absurd (hno.symm.trans hlive) (by simp)

end CoeleoOs.Task
