import CoeleoOs.Task.Transition

/-!
# One slot of the process table across a step

Between two scheduling decisions a slot keeps its process, loses a zombie or
gets a fresh one. `Evolves` is what can happen to a process that stays: it may
be woken, may end, and may mark a child; its identity, its saved stack pointer
and, until it ends, its continuation do not change.
-/

namespace CoeleoOs.Task
open CoeleoOs.Lib CoeleoOs.Ui

def State.blocked : State → Bool
  | .blockedStdin | .blockedWait | .blockedPipeRead | .blockedPipeWrite => true
  | _ => false

def State.onPipe : State → Bool
  | .blockedPipeRead | .blockedPipeWrite => true
  | _ => false

structure Evolves (p p' : Pcb) : Prop where
  pid : p'.pid = p.pid
  parent : p'.parent = p.parent
  userRsp : p'.userRsp = p.userRsp
  state : p'.state = p.state ∨ (p.state.blocked = true ∧ p'.state = .runnable) ∨
    (p'.state = .zombie ∧ p'.kcontValid = false)
  zombie : p.state = .zombie → p'.state = .zombie
  kcont : p'.kcontValid = p.kcontValid ∨ (p'.state = .zombie ∧ p'.kcontValid = false)
  spawned : p.spawnedChild = true → p'.spawnedChild = true

theorem Evolves.refl (p : Pcb) : Evolves p p := ⟨rfl, rfl, rfl, Or.inl rfl, id, Or.inl rfl, id⟩

theorem Evolves.trans {p q r : Pcb} (h : Evolves p q) (h' : Evolves q r) : Evolves p r where
  pid := h'.pid.trans h.pid
  parent := h'.parent.trans h.parent
  userRsp := h'.userRsp.trans h.userRsp
  state := by
    rcases h'.state with hs | ⟨hb, hs⟩ | hs
    · rcases h.state with ht | ⟨hb, ht⟩ | ⟨hz, hk⟩
      · exact Or.inl (hs.trans ht)
      · exact Or.inr (Or.inl ⟨hb, hs.trans ht⟩)
      · refine Or.inr (Or.inr ⟨hs.trans hz, ?_⟩)
        rcases h'.kcont with hk' | ⟨-, hk'⟩
        · exact hk'.trans hk
        · exact hk'
    · rcases h.state with ht | ⟨-, ht⟩ | ⟨ht, -⟩
      · exact Or.inr (Or.inl ⟨ht ▸ hb, hs⟩)
      · simp [ht, State.blocked] at hb
      · simp [ht, State.blocked] at hb
    · exact Or.inr (Or.inr hs)
  zombie hz := h'.zombie (h.zombie hz)
  kcont := by
    rcases h'.kcont with hk | hk
    · rcases h.kcont with hl | ⟨hz, hl⟩
      · exact Or.inl (hk.trans hl)
      · exact Or.inr ⟨h'.zombie hz, hk.trans hl⟩
    · exact Or.inr hk
  spawned hs := h'.spawned (h.spawned hs)

theorem Evolves.kcont_of_zombie {p p' : Pcb} (h : Evolves p p')
    (hp : p.state = .zombie → p.kcontValid = false) (hz : p'.state = .zombie) :
    p'.kcontValid = false := by
  rcases h.state with hs | ⟨-, hs⟩ | ⟨-, hk⟩
  · rcases h.kcont with hk | ⟨-, hk⟩
    · exact hk.trans (hp (hs ▸ hz))
    · exact hk
  · simp [hs] at hz
  · exact hk

theorem Evolves.kcont_mono {p p' : Pcb} (h : Evolves p p') (hk : p'.kcontValid = true) :
    p.kcontValid = true := by
  rcases h.kcont with he | ⟨-, he⟩
  · exact he ▸ hk
  · simp [he] at hk

theorem evolves_wake {p : Pcb} {c : Prop} [Decidable c] (h : c → p.state.blocked = true) :
    Evolves p (if c then { p with state := .runnable } else p) := by
  split
  · rename_i hc
    refine ⟨rfl, rfl, rfl, Or.inr (Or.inl ⟨h hc, rfl⟩), fun hz => ?_, Or.inl rfl, id⟩
    have := h hc
    simp [hz, State.blocked] at this
  · exact .refl p

theorem evolves_zombie (p : Pcb) (fds : FdTable) (fault : Bool) :
    Evolves p { p with fds := fds, state := .zombie, fault := fault, kcontValid := false } :=
  ⟨rfl, rfl, rfl, Or.inr (Or.inr ⟨rfl, rfl⟩), fun _ => rfl, Or.inr ⟨rfl, rfl⟩, id⟩

theorem evolves_fds (p : Pcb) (fds : FdTable) : Evolves p { p with fds := fds } :=
  ⟨rfl, rfl, rfl, Or.inl rfl, id, Or.inl rfl, id⟩

theorem evolves_mark (p : Pcb) (pid : ℕ) :
    Evolves p { p with spawnedChild := true, lastSpawned := pid } :=
  ⟨rfl, rfl, rfl, Or.inl rfl, id, Or.inl rfl, fun _ => rfl⟩

/-- The change is that of `try_reap` or of `reap_orphans`. -/
def Reaps (k k' : Kernel) : Prop := (∃ pid, tryReap k = some (.pid pid, k')) ∨ k' = reapOrphans k

inductive SlotCase (k k' : Kernel) (i : Slot) : Prop
  | kept {p p' : Pcb} : k.sched.procs i = some p → k'.sched.procs i = some p' → Evolves p p' →
      k'.kconts i = k.kconts i → SlotCase k k' i
  | reaped {p : Pcb} : k.sched.procs i = some p → p.state = .zombie → k'.sched.procs i = none →
      Reaps k k' → SlotCase k k' i
  | free : k.sched.procs i = none → k'.sched.procs i = none → SlotCase k k' i
  | fresh {p' : Pcb} : k.sched.procs i = none → k'.sched.procs i = some p' →
      p'.pid = k.sched.nextPid → p'.state = .runnable → p'.kcontValid = false →
      SlotCase k k' i

/-- Every slot evolves and the processor stays with the same process. -/
structure Frame (k k' : Kernel) : Prop where
  current : k'.sched.current = k.sched.current
  currentSlot : k'.currentSlot = k.currentSlot
  userRsp : k'.userRsp = k.userRsp
  slot : ∀ i, SlotCase k k' i

def Sched.Kept (s s' : Sched) : Prop :=
  s'.current = s.current ∧ ∀ i, (s.procs i = none ∧ s'.procs i = none) ∨
    ∃ p p', s.procs i = some p ∧ s'.procs i = some p' ∧ Evolves p p'

namespace Sched

variable {s s' s'' : Sched}

theorem kept_map {f : Pcb → Pcb} (hf : ∀ p, Evolves p (f p)) : s.Kept (s.mapProcs f) := by
  refine ⟨rfl, fun i => ?_⟩
  cases h : s.procs i with
  | none => exact Or.inl ⟨rfl, by simp [h]⟩
  | some p => exact Or.inr ⟨p, f p, rfl, by simp [h], hf p⟩

theorem kept_setProc {i : Slot} {p p' : Pcb} (hp : s.procs i = some p) (he : Evolves p p') :
    s.Kept (s.setProc i p') := by
  refine ⟨rfl, fun j => ?_⟩
  by_cases hj : j = i
  · subst hj
    exact Or.inr ⟨p, p', hp, setProc_self s j p', he⟩
  · rw [setProc_of_ne s hj]
    cases h : s.procs j with
    | none => exact Or.inl ⟨rfl, rfl⟩
    | some q => exact Or.inr ⟨q, q, rfl, rfl, .refl q⟩

theorem Kept.refl (s : Sched) : s.Kept s := by
  refine ⟨rfl, fun i => ?_⟩
  cases h : s.procs i with
  | none => exact Or.inl ⟨rfl, rfl⟩
  | some p => exact Or.inr ⟨p, p, rfl, rfl, .refl p⟩

theorem Kept.trans (h : s.Kept s') (h' : s'.Kept s'') : s.Kept s'' := by
  refine ⟨h'.1.trans h.1, fun i => ?_⟩
  rcases h.2 i with ⟨ha, hb⟩ | ⟨p, p', ha, hb, he⟩
  · rcases h'.2 i with ⟨-, hd⟩ | ⟨q, q', hc, -, -⟩
    · exact Or.inl ⟨ha, hd⟩
    · simp [hb] at hc
  · rcases h'.2 i with ⟨hc, -⟩ | ⟨q, q', hc, hd, he'⟩
    · simp [hb] at hc
    · obtain rfl : p' = q := by simpa [hb] using hc
      exact Or.inr ⟨p, q', ha, hd, he.trans he'⟩

theorem wakeStdin_kept (s : Sched) : s.Kept s.wakeStdin :=
  kept_map fun _ => evolves_wake fun h => by simp [h, State.blocked]

theorem wakePipeLocked_kept (s : Sched) : s.Kept s.wakePipeLocked :=
  kept_map fun _ => evolves_wake fun h => by rcases h with h | h <;> simp [h, State.blocked]

theorem wakeParent_kept (s : Sched) (pid : ℕ) : s.Kept (s.wakeParent pid) :=
  kept_map fun _ => evolves_wake fun h => by simp [h.2, State.blocked]

theorem wakeParentOfSlot_kept (s : Sched) (i : Slot) : s.Kept (s.wakeParentOfSlot i) := by
  unfold wakeParentOfSlot
  simp only
  split
  · exact .refl s
  · exact wakeParent_kept s _

theorem markParent_procs (s : Sched) (parent pid : ℕ) (i : Slot) :
    (s.markParent parent pid).procs i = s.procs i ∨
      ∃ p, s.procs i = some p ∧ p.pid = parent ∧ parent ≠ 0 ∧ (s.markParent parent pid).procs i =
        some { p with spawnedChild := true, lastSpawned := pid } := by
  unfold markParent
  split
  · exact Or.inl rfl
  · rename_i hne
    split
    · exact Or.inl rfl
    · rename_i j hj
      split
      · rename_i p hp
        by_cases hi : i = j
        · subst hi
          obtain ⟨q, hq, hpid⟩ := Table.position_any hj
          obtain rfl : q = p := by simpa [hp] using hq.symm
          exact Or.inr ⟨q, hp, by simpa using hpid, hne, setProc_self s i _⟩
        · exact Or.inl (setProc_of_ne s hi _)
      · exact Or.inl rfl

theorem markParent_current (s : Sched) (parent pid : ℕ) :
    (s.markParent parent pid).current = s.current := by
  unfold markParent
  split
  · rfl
  · split
    · rfl
    · split <;> rfl

end Sched

section Frames

variable {k k' : Kernel}

theorem makeZombieLocked_kept (k : Kernel) (v : Slot) (fault : Bool) :
    k.sched.Kept (makeZombieLocked k v fault).sched := by
  unfold makeZombieLocked
  split
  · rename_i p hp
    exact (Sched.kept_setProc hp (evolves_zombie p _ _)).trans (Sched.wakePipeLocked_kept _)
  · exact Sched.wakePipeLocked_kept _

theorem makeZombieLocked_self {v : Slot} {p : Pcb} (fault : Bool) (hp : k.sched.procs v = some p) :
    (makeZombieLocked k v fault).sched.procs v = some { p with
      fds := ⟨fun _ => none⟩, state := .zombie, fault := fault, kcontValid := false } := by
  simp [makeZombieLocked, hp, FdTable.closeAll, Sched.wakePipeLocked]

theorem makeZombieLocked_rest (k : Kernel) (v : Slot) (fault : Bool) :
    (makeZombieLocked k v fault).currentSlot = k.currentSlot ∧
      (makeZombieLocked k v fault).userRsp = k.userRsp ∧
      (makeZombieLocked k v fault).kconts = k.kconts := by
  unfold makeZombieLocked
  split <;> exact ⟨rfl, rfl, rfl⟩

theorem Sched.Kept.frame {m : Kernel} (h : k.sched.Kept m.sched)
    (hs : m.currentSlot = k.currentSlot) (hu : m.userRsp = k.userRsp) (hk : m.kconts = k.kconts) :
    Frame k m := by
  refine ⟨h.1, hs, hu, fun i => ?_⟩
  rcases h.2 i with ⟨ha, hb⟩ | ⟨p, p', ha, hb, he⟩
  · exact .free ha hb
  · exact .kept ha hb he (congrFun hk i)

theorem Frame.refl (k : Kernel) : Frame k k := (Sched.Kept.refl k.sched).frame rfl rfl rfl

theorem Quiet.frame (h : Quiet k k') : Frame k k' :=
  Sched.Kept.frame (h.sched ▸ .refl k.sched) h.currentSlot h.userRsp h.kconts

theorem makeZombieLocked_frame (k : Kernel) (v : Slot) (fault : Bool) :
    Frame k (makeZombieLocked k v fault) := by
  obtain ⟨hs, hu, hk⟩ := makeZombieLocked_rest k v fault
  exact (makeZombieLocked_kept k v fault).frame hs hu hk

theorem enqueueOrKill_cases (k : Kernel) (b : UInt8) :
    (∃ v, b = 3 ∧ foreground k.sched = some v ∧
      enqueueOrKill k b = { makeZombieLocked k v false with
        sched := (makeZombieLocked k v false).sched.wakeParent
          (((makeZombieLocked k v false).sched.procs v).elim 0 (·.parent)) }) ∨
    ¬(b = 3 ∧ (foreground k.sched).isSome = true) ∧
      enqueueOrKill k b = { k with keys := enqueue k.keys b, sched := k.sched.wakeStdin } := by
  simp only [enqueueOrKill]
  by_cases hb : b = 3
  · rw [if_pos hb]
    cases hv : foreground k.sched with
    | none => exact .inr ⟨by simp, by simp [killForeground, hv]⟩
    | some v => exact .inl ⟨v, hb, rfl, by simp [killForeground, hv]⟩
  · rw [if_neg hb]
    exact .inr ⟨fun h => hb h.1, rfl⟩

theorem enqueueOrKill_kept (k : Kernel) (b : UInt8) : k.sched.Kept (enqueueOrKill k b).sched ∧
    (enqueueOrKill k b).currentSlot = k.currentSlot ∧ (enqueueOrKill k b).userRsp = k.userRsp ∧
    (enqueueOrKill k b).kconts = k.kconts := by
  rcases enqueueOrKill_cases k b with ⟨v, -, -, he⟩ | ⟨-, he⟩
  · rw [he]
    exact ⟨(makeZombieLocked_kept k v false).trans (Sched.wakeParent_kept _ _),
      makeZombieLocked_rest k v false⟩
  · rw [he]
    exact ⟨Sched.wakeStdin_kept _, rfl, rfl, rfl⟩

theorem enqueueOrKill_frame (k : Kernel) (b : UInt8) : Frame k (enqueueOrKill k b) := by
  obtain ⟨hkept, hs, hu, hc⟩ := enqueueOrKill_kept k b
  exact hkept.frame hs hu hc

theorem removeSlot_procs {i : Slot} (j : Slot) :
    (removeSlot k i).sched.procs j = if j = i then none else k.sched.procs j := by
  unfold removeSlot
  split
  · by_cases hj : j = i
    · subst hj
      simp [dropPcb]
    · simp [dropPcb, hj, Sched.clearProc_of_ne _ hj]
  · rename_i hn
    by_cases hj : j = i
    · subst hj
      simpa using hn
    · simp [hj]

theorem removeSlot_rest (k : Kernel) (i : Slot) :
    (removeSlot k i).sched.current = k.sched.current ∧
      (removeSlot k i).currentSlot = k.currentSlot ∧ (removeSlot k i).userRsp = k.userRsp ∧
      (removeSlot k i).kconts = k.kconts ∧ (removeSlot k i).sched.nextPid = k.sched.nextPid ∧
      (removeSlot k i).sched.initPid = k.sched.initPid ∧
      (removeSlot k i).sched.exclusive = k.sched.exclusive := by
  unfold removeSlot
  split <;> exact ⟨rfl, rfl, rfl, rfl, rfl, rfl, rfl⟩

theorem zombieChild_some {s : Sched} {pid : ℕ} {i : Slot} (h : zombieChild s pid = some i) :
    ∃ z, s.procs i = some z ∧ z.parent = pid ∧ z.state = .zombie := by
  obtain ⟨z, hz, hc⟩ := Table.position_any h
  exact ⟨z, hz, by simpa using hc⟩

theorem tryReap_pid {cur i : Slot} {p z : Pcb} (hc : k.sched.current = some cur)
    (hp : k.sched.procs cur = some p) (hz : zombieChild k.sched p.pid = some i)
    (hi : k.sched.procs i = some z) : tryReap k = some (.pid z.pid, removeSlot k i) := by
  simp [tryReap, hc, hp, hz, hi]

theorem removeSlot_frame {cur i : Slot} {p z : Pcb} (hcur : k.sched.current = some cur)
    (hp : k.sched.procs cur = some p) (hz : zombieChild k.sched p.pid = some i)
    (hi : k.sched.procs i = some z) : Frame k (removeSlot k i) := by
  obtain ⟨hc, hs, hu, hk, -⟩ := removeSlot_rest k i
  refine ⟨hc, hs, hu, fun j => ?_⟩
  have hpr := removeSlot_procs (k := k) (i := i) j
  by_cases hj : j = i
  · subst hj
    obtain ⟨z', hz', -, hst⟩ := zombieChild_some hz
    exact .reaped hz' hst (by simpa using hpr) (Or.inl ⟨_, tryReap_pid hcur hp hz hi⟩)
  · rw [if_neg hj] at hpr
    cases h : k.sched.procs j with
    | none => exact .free h (hpr.trans h)
    | some q => exact .kept h (hpr.trans h) (.refl q) (congrFun hk j)

theorem orphan_some {s : Sched} {i : Slot} (h : orphan s = some i) :
    ∃ z, s.procs i = some z ∧ z.parent = 0 ∧ z.state = .zombie := by
  obtain ⟨z, hz, hc⟩ := Table.position_any h
  exact ⟨z, hz, by simpa using hc⟩

theorem reapLoop_procs (fuel : ℕ) (k : Kernel) (j : Slot) :
    (reapLoop fuel k).sched.procs j = k.sched.procs j ∨
      ∃ z, k.sched.procs j = some z ∧ z.parent = 0 ∧ z.state = .zombie ∧
        (reapLoop fuel k).sched.procs j = none := by
  induction fuel generalizing k with
  | zero => exact Or.inl rfl
  | succ fuel ih =>
    rw [reapLoop]
    split
    · exact Or.inl rfl
    · rename_i i hi
      obtain ⟨z, hz, hp, hs⟩ := orphan_some hi
      have hrem := removeSlot_procs (k := k) (i := i) j
      by_cases hj : j = i
      · subst hj
        rw [if_pos rfl] at hrem
        refine Or.inr ⟨z, hz, hp, hs, ?_⟩
        rcases ih (removeSlot k j) with h | ⟨y, hy, -⟩
        · exact h.trans hrem
        · simp [hrem] at hy
      · rw [if_neg hj] at hrem
        rw [← hrem]
        exact ih (removeSlot k i)

theorem reapLoop_rest (fuel : ℕ) (k : Kernel) :
    (reapLoop fuel k).sched.current = k.sched.current ∧
      (reapLoop fuel k).currentSlot = k.currentSlot ∧ (reapLoop fuel k).userRsp = k.userRsp ∧
      (reapLoop fuel k).kconts = k.kconts ∧ (reapLoop fuel k).sched.nextPid = k.sched.nextPid ∧
      (reapLoop fuel k).sched.initPid = k.sched.initPid ∧
      (reapLoop fuel k).sched.exclusive = k.sched.exclusive := by
  induction fuel generalizing k with
  | zero => exact ⟨rfl, rfl, rfl, rfl, rfl, rfl, rfl⟩
  | succ fuel ih =>
    rw [reapLoop]
    split
    · exact ⟨rfl, rfl, rfl, rfl, rfl, rfl, rfl⟩
    · rename_i i _
      obtain ⟨h1, h2, h3, h4, h5, h6, h7⟩ := ih (removeSlot k i)
      obtain ⟨g1, g2, g3, g4, g5, g6, g7⟩ := removeSlot_rest k i
      exact ⟨h1.trans g1, h2.trans g2, h3.trans g3, h4.trans g4, h5.trans g5, h6.trans g6,
        h7.trans g7⟩

theorem reapOrphans_frame (k : Kernel) : Frame k (reapOrphans k) := by
  obtain ⟨hc, hs, hu, hk, -⟩ := reapLoop_rest maxProc k
  refine ⟨hc, hs, hu, fun j => ?_⟩
  rcases reapLoop_procs maxProc k j with h | ⟨z, hz, -, hst, h⟩
  · cases hj : k.sched.procs j with
    | none => exact .free hj (h.trans hj)
    | some q => exact .kept hj (h.trans hj) (.refl q) (congrFun hk j)
  · exact .reaped hz hst h (Or.inr rfl)

theorem spawnWith_cases (k : Kernel) (load : Option (Image × ArgvSetup)) (path : Bytes)
    (parent stdinFd stdoutFd : ℕ) :
    (∃ ps, (ps = k.pipes ∨ childFds k parent stdinFd stdoutFd = (none, ps)) ∧
      spawnWith k load path parent stdinFd stdoutFd = (none, { k with pipes := ps })) ∨
      ∃ slot image argv fds ps, k.sched.procs slot = none ∧
        childFds k parent stdinFd stdoutFd = (some fds, ps) ∧
        (spawnWith k load path parent stdinFd stdoutFd).2 = { k with
          pipes := ps
          sched := (Sched.setProc { k.sched with nextPid := min (k.sched.nextPid + 1) u32Max } slot
            (newPcb k.sched.nextPid parent image path argv fds)).markParent parent k.sched.nextPid
          kconts := Function.update k.kconts slot none } := by
  unfold spawnWith insertPcb
  split
  · exact Or.inl ⟨k.pipes, Or.inl rfl, rfl⟩
  · rename_i image argv
    cases hpos : Table.position fun i => (k.sched.procs i).isNone with
    | none => exact Or.inl ⟨k.pipes, Or.inl rfl, rfl⟩
    | some slot =>
      have hfree : k.sched.procs slot = none := by simpa using Table.position_some hpos
      cases hc : childFds k parent stdinFd stdoutFd with
      | mk fds ps =>
        cases fds with
        | none => exact Or.inl ⟨ps, Or.inr rfl, rfl⟩
        | some fds => exact Or.inr ⟨slot, image, argv, fds, ps, hfree, rfl, rfl⟩

theorem spawnWith_frame (k : Kernel) (load : Option (Image × ArgvSetup)) (path : Bytes)
    (parent stdinFd stdoutFd : ℕ) : Frame k (spawnWith k load path parent stdinFd stdoutFd).2 := by
  rcases spawnWith_cases k load path parent stdinFd stdoutFd with
    ⟨ps, -, h⟩ | ⟨slot, image, argv, fds, ps, hfree, -, h⟩
  · rw [h]
    exact Sched.Kept.frame (m := { k with pipes := ps }) (.refl k.sched) rfl rfl rfl
  · rw [h]
    generalize hs : Sched.setProc _ slot _ = s
    have hmark := Sched.markParent_procs s parent k.sched.nextPid
    have hne : ∀ i ≠ slot, s.procs i = k.sched.procs i := fun i hi => by
      rw [← hs, Sched.setProc_of_ne _ hi]
    have hself : s.procs slot = some (newPcb k.sched.nextPid parent image path argv fds) := by
      rw [← hs, Sched.setProc_self]
    refine ⟨(Sched.markParent_current s _ _).trans (by rw [← hs]; rfl), rfl, rfl, fun i => ?_⟩
    by_cases hi : i = slot
    · subst hi
      rcases hmark i with ha | ⟨p, ha, -, -, hb⟩
      · exact .fresh hfree (ha.trans hself) rfl rfl rfl
      · obtain rfl : _ = p := by simpa [hself] using ha
        exact .fresh hfree hb rfl rfl rfl
    · rcases hmark i with ha | ⟨p, ha, -, -, hb⟩
      · rw [hne i hi] at ha
        cases hp : k.sched.procs i with
        | none => exact .free hp (ha.trans hp)
        | some q => exact .kept hp (ha.trans hp) (.refl q) (Function.update_of_ne hi _ _)
      · rw [hne i hi] at ha
        exact .kept ha hb (evolves_mark p _) (Function.update_of_ne hi _ _)

theorem Touch.frame (h : Touch k k') : Frame k k' := by
  cases h with
  | quiet hq => exact hq.frame
  | fds _ hp _ => exact (Sched.kept_setProc hp (evolves_fds _ _)).frame rfl rfl rfl
  | pipe _ hp _ _ => exact (Sched.kept_setProc hp (evolves_fds _ _)).frame rfl rfl rfl
  | @noPipe id ps _ =>
    exact Sched.Kept.frame (m := { k with pipes := _ }) (.refl k.sched) rfl rfl rfl
  | close _ hp _ =>
    exact ((Sched.kept_setProc hp (evolves_fds _ _)).trans
      (Sched.wakePipeLocked_kept _)).frame rfl rfl rfl
  | spawn => exact spawnWith_frame k _ _ _ _ _
  | @kill _ v _ _ _ _ _ _ _ _ => exact makeZombieLocked_frame k v false
  | reap hc hp hz hi => exact removeSlot_frame hc hp hz hi

theorem Calm.frame {moves : Bool} (h : Calm k moves k') : Frame k k' := by
  cases h with
  | touch ht => exact ht.frame
  | wake => exact (Sched.wakePipeLocked_kept _).frame rfl rfl rfl
  | orphans => exact reapOrphans_frame k
  | key b => exact enqueueOrKill_frame k b
  | launch load path => exact spawnWith_frame k _ _ _ _ _
  | read _ => exact (Sched.wakePipeLocked_kept _).frame rfl rfl rfl
  | write _ => exact (Sched.wakePipeLocked_kept _).frame rfl rfl rfl

end Frames

/-- Every process of the new table was there before. -/
structure Shrinks (k k' : Kernel) : Prop where
  nextPid : k'.sched.nextPid = k.sched.nextPid
  old : ∀ i p', k'.sched.procs i = some p' → ∃ p, k.sched.procs i = some p ∧ Evolves p p'

/-- One process with the next pid was added. -/
structure Grows (k k' : Kernel) (slot : Slot) (p' : Pcb) : Prop where
  nextPid : k'.sched.nextPid = min (k.sched.nextPid + 1) u32Max
  free : k.sched.procs slot = none
  new : k'.sched.procs slot = some p'
  pid : p'.pid = k.sched.nextPid
  state : p'.state = .runnable
  parent : p'.parent = 0 ∨ some p'.parent = k.sched.currentPid
  old : ∀ i ≠ slot, ∀ q', k'.sched.procs i = some q' →
    ∃ q, k.sched.procs i = some q ∧ Evolves q q'

section Tables

variable {k k' : Kernel}

theorem Sched.Kept.shrinks {m : Kernel} (h : k.sched.Kept m.sched)
    (hn : m.sched.nextPid = k.sched.nextPid) : Shrinks k m := by
  refine ⟨hn, fun i p' hp' => ?_⟩
  rcases h.2 i with ⟨-, hb⟩ | ⟨p, q, ha, hb, he⟩
  · simp [hp'] at hb
  · obtain rfl := Option.some.inj (hb.symm.trans hp')
    exact ⟨p, ha, he⟩

theorem Sched.markParent_nextPid (s : Sched) (parent pid : ℕ) :
    (s.markParent parent pid).nextPid = s.nextPid := by
  unfold Sched.markParent
  split
  · rfl
  · split
    · rfl
    · split <;> rfl

theorem makeZombieLocked_nextPid (k : Kernel) (v : Slot) (fault : Bool) :
    (makeZombieLocked k v fault).sched.nextPid = k.sched.nextPid := by
  unfold makeZombieLocked
  split <;> rfl

theorem makeZombieLocked_shrinks (k : Kernel) (v : Slot) (fault : Bool) :
    Shrinks k (makeZombieLocked k v fault) :=
  (makeZombieLocked_kept k v fault).shrinks (makeZombieLocked_nextPid k v fault)

theorem enqueueOrKill_shrinks (k : Kernel) (b : UInt8) : Shrinks k (enqueueOrKill k b) := by
  refine (enqueueOrKill_kept k b).1.shrinks ?_
  rcases enqueueOrKill_cases k b with ⟨v, -, -, he⟩ | ⟨-, he⟩
  · rw [he]
    exact makeZombieLocked_nextPid k v false
  · rw [he]
    rfl

theorem removeSlot_shrinks (k : Kernel) (i : Slot) : Shrinks k (removeSlot k i) := by
  obtain ⟨-, -, -, -, hn, -⟩ := removeSlot_rest k i
  refine ⟨hn, fun j p' hp' => ?_⟩
  rw [removeSlot_procs] at hp'
  split at hp'
  · simp at hp'
  · exact ⟨p', hp', .refl p'⟩

theorem reapOrphans_shrinks (k : Kernel) : Shrinks k (reapOrphans k) := by
  obtain ⟨-, -, -, -, hn, -⟩ := reapLoop_rest maxProc k
  refine ⟨hn, fun j p' hp' => ?_⟩
  rcases reapLoop_procs maxProc k j with h | ⟨-, -, -, -, h⟩
  · exact ⟨p', h ▸ hp', .refl p'⟩
  · exact absurd (h.symm.trans hp') (by simp)

theorem spawnWith_table (k : Kernel) (load : Option (Image × ArgvSetup)) (path : Bytes)
    {parent : ℕ} (stdinFd stdoutFd : ℕ) (hpar : parent = 0 ∨ some parent = k.sched.currentPid) :
    let k' := (spawnWith k load path parent stdinFd stdoutFd).2
    Shrinks k k' ∨ ∃ slot p', Grows k k' slot p' ∧ p'.parent = parent := by
  intro k'
  rcases spawnWith_cases k load path parent stdinFd stdoutFd with
    ⟨ps, -, h⟩ | ⟨slot, image, argv, fds, ps, hfree, -, h⟩
  · refine Or.inl ?_
    simp only [k', h]
    exact Sched.Kept.shrinks (m := { k with pipes := ps }) (.refl k.sched) rfl
  · refine Or.inr ?_
    simp only [k', h]
    generalize hs : Sched.setProc _ slot _ = s
    have hmark := Sched.markParent_procs s parent k.sched.nextPid
    have hne : ∀ i ≠ slot, s.procs i = k.sched.procs i := fun i hi => by
      rw [← hs, Sched.setProc_of_ne _ hi]
    have hself : s.procs slot = some (newPcb k.sched.nextPid parent image path argv fds) := by
      rw [← hs, Sched.setProc_self]
    have hnext : (s.markParent parent k.sched.nextPid).nextPid =
        min (k.sched.nextPid + 1) u32Max := by
      rw [Sched.markParent_nextPid, ← hs]
      rfl
    have hold : ∀ i ≠ slot, ∀ q', (s.markParent parent k.sched.nextPid).procs i = some q' →
        ∃ q, k.sched.procs i = some q ∧ Evolves q q' := by
      intro i hi q' hq'
      rcases hmark i with ha | ⟨p, ha, -, -, hb⟩
      · rw [ha, hne i hi] at hq'
        exact ⟨q', hq', .refl q'⟩
      · rw [hne i hi] at ha
        obtain rfl := Option.some.inj (hb.symm.trans hq')
        exact ⟨p, ha, evolves_mark p _⟩
    rcases hmark slot with ha | ⟨p, ha, -, -, hb⟩
    · exact ⟨slot, _, ⟨hnext, hfree, ha.trans hself, rfl, rfl, hpar, hold⟩, rfl⟩
    · obtain rfl := Option.some.inj (hself.symm.trans ha)
      exact ⟨slot, _, ⟨hnext, hfree, hb, rfl, rfl, hpar, hold⟩, rfl⟩

theorem Touch.table (h : Touch k k') : Shrinks k k' ∨ ∃ slot p', Grows k k' slot p' := by
  cases h with
  | quiet hq =>
    exact Or.inl (Sched.Kept.shrinks (hq.sched ▸ .refl k.sched) (by rw [hq.sched]))
  | fds _ hp _ => exact Or.inl ((Sched.kept_setProc hp (evolves_fds _ _)).shrinks rfl)
  | pipe _ hp _ _ => exact Or.inl ((Sched.kept_setProc hp (evolves_fds _ _)).shrinks rfl)
  | noPipe _ => exact Or.inl (Sched.Kept.shrinks (m := { k with pipes := _ }) (.refl k.sched) rfl)
  | close _ hp _ =>
    exact Or.inl (((Sched.kept_setProc hp (evolves_fds _ _)).trans
      (Sched.wakePipeLocked_kept _)).shrinks rfl)
  | @spawn load path stdinFd stdoutFd =>
    have hpar : k.sched.currentPid.getD 0 = 0 ∨
        some (k.sched.currentPid.getD 0) = k.sched.currentPid := by
      cases k.sched.currentPid <;> simp
    rcases spawnWith_table k load path stdinFd stdoutFd hpar with h | ⟨slot, p', h, -⟩
    · exact Or.inl h
    · exact Or.inr ⟨slot, p', h⟩
  | @kill _ v _ _ _ _ _ _ _ _ => exact Or.inl (makeZombieLocked_shrinks k v false)
  | @reap _ i _ _ _ _ _ _ => exact Or.inl (removeSlot_shrinks k i)

theorem Calm.table {moves : Bool} (h : Calm k moves k') :
    Shrinks k k' ∨ ∃ slot p', Grows k k' slot p' := by
  cases h with
  | touch ht => exact ht.table
  | wake => exact Or.inl (Sched.Kept.shrinks (m := { k with sched := _ })
      (Sched.wakePipeLocked_kept _) rfl)
  | orphans => exact Or.inl (reapOrphans_shrinks k)
  | key b => exact Or.inl (enqueueOrKill_shrinks k b)
  | launch load path =>
    rcases spawnWith_table k load path err err (Or.inl rfl) with h | ⟨slot, p', h, -⟩
    · exact Or.inl h
    · exact Or.inr ⟨slot, p', h⟩
  | read _ => exact Or.inl (Sched.Kept.shrinks (m := { k with pipes := _, sched := _ })
      (Sched.wakePipeLocked_kept _) rfl)
  | write _ => exact Or.inl (Sched.Kept.shrinks (m := { k with pipes := _, sched := _ })
      (Sched.wakePipeLocked_kept _) rfl)

end Tables

end CoeleoOs.Task
