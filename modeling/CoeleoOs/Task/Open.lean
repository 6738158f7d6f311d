import CoeleoOs.Fs.Mount
import CoeleoOs.Task.Confined
import CoeleoOs.Task.System

/-!
# Opening files

`sys_open` with the file system as a part of the state. It truncates or creates the
file before it looks for a free descriptor, so a full table leaves the file changed
behind a failed call.
-/

namespace CoeleoOs.Task
open CoeleoOs.Lib CoeleoOs.Mem CoeleoOs.Fs

variable {φ η : Type}

structure Mounted (φ : Type) where
  kernel : Kernel
  mount : Mount φ

namespace Mounted

def onKernel {α : Type} (p : KernM Kernel α) : KernM (Mounted φ) α :=
  Eff.zoom Mounted.kernel (fun k s => { s with kernel := k }) p

def sysOpen (fat : Fatfs φ η) (pathPtr pathLen flags : ℕ) : KernM (Mounted φ) ℕ := do
  let some path ← copyPath pathPtr pathLen | return err
  let wantRead := flags.testBit 0
  let wantWrite := flags.testBit 1
  let wantCreate := flags.testBit 2
  let wantTrunc := flags.testBit 3
  if !wantRead && !wantWrite then return err
  let s ← Eff.get
  match s.mount.list fat path with
  | .ok ents =>
    if wantWrite then return err
    onKernel (allocFd (.dir 0 ents))
  | .error .notDir =>
    if wantTrunc && wantWrite then
      let r := s.mount.writeFile fat path []
      Eff.set { s with mount := r.2 }
      match r.1 with
      | .error _ => return err
      | .ok () => onKernel (openFile path wantWrite)
    else onKernel (openFile path wantWrite)
  | .error .notFound =>
    if wantCreate && wantWrite then
      let r := s.mount.touch fat path
      Eff.set { s with mount := r.2 }
      match r.1 with
      | .error _ => return err
      | .ok () => onKernel (openFile path true)
    else return err
  | .error _ => return err

end Mounted

section Programs

variable {σ : Type} {e : Env} {k : Kernel}

theorem pathOk_of_pathAt {ptr len : ℕ} {path : Bytes} (h : pathAt e ptr len = some path) :
    PathOk e.space ptr len := by
  simp only [pathAt] at h
  split_ifs at h with hok
  intro _ _
  simp [Checkable, hok.2.2.1]

theorem out_copyPath {ptr len : ℕ} (h : PathOk e.space ptr len) (s : σ) :
    (copyPath ptr len : KernM σ (Option Bytes)).out e s = some (pathAt e ptr len, s) := by
  by_cases hlen : len = 0 ∨ pathMax < len
  · have hnot : ¬(0 < len ∧ len ≤ pathMax) := by omega
    simp [copyPath, hlen, pathAt, hnot, ← and_assoc]
  · obtain ⟨hpos, hmax⟩ : 0 < len ∧ len ≤ pathMax := by omega
    have hcheck := h hpos hmax
    rcases hslice : Vmm.userSliceOk e.space ptr len with _ | _ | _
    · exact absurd hslice hcheck
    · simp [copyPath, userSliceOk, hlen, hslice, pathAt]
    · by_cases hutf : utf8Valid (userBytes e ptr len) = true
      · simp_all [copyPath, userSliceOk, copyFromUser, pathAt, userBytes, Nat.not_lt.mpr hmax]
      · simp_all [copyPath, userSliceOk, copyFromUser, pathAt, userBytes, Nat.not_lt.mpr hmax]

theorem out_copyPath_panic {ptr len : ℕ} (h : ¬PathOk e.space ptr len) (s : σ) :
    (copyPath ptr len : KernM σ (Option Bytes)).out e s = none := by
  simp only [PathOk, Classical.not_imp] at h
  obtain ⟨hpos, hmax, hcheck⟩ := h
  have hslice : Vmm.userSliceOk e.space ptr len = none := not_not.mp hcheck
  simp [copyPath, userSliceOk, hpos.ne', Nat.not_lt.mpr hmax, hslice]

def HasRoom (k : Kernel) : Prop :=
  ∃ i p fd, k.sched.current = some i ∧ k.sched.procs i = some p ∧ p.fds.slots fd = none

theorem out_allocFd (of : OpenFd) :
    (allocFd of).out e k = some ((k.withFds fun t => t.alloc of).1.getD err,
      (k.withFds fun t => t.alloc of).2) := by
  simp [allocFd, withFds]

theorem out_allocFd_room (of : OpenFd) (h : HasRoom k) :
    ∃ fd k', (allocFd of).out e k = some (fd, k') ∧ fd ≠ err := by
  obtain ⟨i, p, fd, hcur, hp, hfree⟩ := h
  have hfull : p.fds.alloc of ≠ (err, p.fds) := by
    intro heq
    simp only [FdTable.alloc] at heq
    cases hpos : Table.position fun i => (p.fds.slots i).isNone with
    | none =>
      have hnone := Table.position_none hpos fd
      simp [hfree] at hnone
    | some j =>
      rw [hpos] at heq
      have hj := (Prod.mk.inj heq).1
      have hlt := j.isLt
      simp only [fdMax, err] at hj hlt
      omega
  rcases FdTable.alloc_cases p.fds of with ⟨j, -, hj⟩ | hj
  · refine ⟨_, _, out_allocFd of, ?_⟩
    have hlt := j.isLt
    simp only [Kernel.withFds, hcur, hp, hj, Option.getD_some, fdMax, err] at hlt ⊢
    omega
  · exact absurd hj hfull

theorem out_allocFd_full (of : OpenFd) (h : ¬HasRoom k) : (allocFd of).out e k = some (err, k) := by
  rw [out_allocFd]
  cases hcur : k.sched.current with
  | none => simp [Kernel.withFds, hcur]
  | some i =>
    cases hp : k.sched.procs i with
    | none => simp [Kernel.withFds, hcur, hp]
    | some p =>
      rcases FdTable.alloc_cases p.fds of with ⟨j, hj, -⟩ | hfull
      · exact absurd ⟨i, p, j, hcur, hp, hj⟩ h
      · simp [Kernel.withFds, hcur, hp, hfull, Sched.setProc_eq_self hp]

end Programs

section Failure

variable {fat : Fatfs φ η} {e : Env} {s : Mounted φ} {of : OpenFd} {pathPtr pathLen flags : ℕ}
    {path : Bytes}

def FailsClean (s : Mounted φ) (v : ℕ) (s' : Mounted φ) : Prop :=
  v = err → s'.mount = s.mount ∧ s'.kernel = s.kernel

def Settles (s : Mounted φ) (r : Except FsError Unit × Mount φ) : Prop :=
  r.2 = s.mount ∨ r.1 = .ok () ∧ HasRoom s.kernel

theorem failsClean_allocFd (m : Mount φ) :
    (Mounted.onKernel (allocFd of)).wp e { s with mount := m } (FailsClean s) ↔ m = s.mount ∨
    HasRoom s.kernel := by
  by_cases hroom : HasRoom s.kernel
  · refine iff_of_true ?_ (.inr hroom)
    obtain ⟨fd, k', hout, hne⟩ := out_allocFd_room (e := e) of hroom
    intro v s' hv
    simp only [Mounted.onKernel, Eff.out_zoom, hout, Option.map_some, Option.some.injEq,
      Prod.mk.injEq] at hv
    obtain ⟨rfl, -⟩ := hv
    exact fun herr => absurd herr hne
  · have hout := out_allocFd_full (e := e) of hroom
    simp only [Mounted.onKernel, Eff.wp, Eff.out_zoom, hout, Option.map_some, Option.some.injEq,
      Prod.mk.injEq, FailsClean, hroom, or_false]
    constructor
    · intro h
      exact (h err _ ⟨rfl, rfl⟩ rfl).1
    · rintro rfl v s' ⟨-, rfl⟩ -
      exact ⟨rfl, rfl⟩

theorem failsClean_result {writable : Bool} (r : Except FsError Unit × Mount φ) :
    (match r.1 with
      | .error _ => pure err
      | .ok () =>
        Mounted.onKernel (openFile path writable)).wp e { s with mount := r.2 } (FailsClean s) ↔
      Settles s r := by
  obtain ⟨_ | ⟨⟨⟩⟩, m⟩ := r
  · simp [FailsClean, Settles]
  · simp only [openFile, failsClean_allocFd, Settles, true_and]

/-- What `sys_open` would do to the volume settles. -/
def OpenSettles (fat : Fatfs φ η) (e : Env) (s : Mounted φ) (pathPtr pathLen flags : ℕ) : Prop :=
  ∀ path, pathAt e pathPtr pathLen = some path → flags.testBit 1 = true →
    (s.mount.list fat path = .error .notDir → flags.testBit 3 = true →
      Settles s (s.mount.writeFile fat path [])) ∧ (s.mount.list fat path = .error .notFound →
      flags.testBit 2 = true → Settles s (s.mount.touch fat path))

theorem wp_sysOpen (h : pathAt e pathPtr pathLen = some path) :
    (Mounted.sysOpen fat pathPtr pathLen flags).wp e s (FailsClean s) ↔ (flags.testBit 1 = true →
      (s.mount.list fat path = .error .notDir → flags.testBit 3 = true →
        Settles s (s.mount.writeFile fat path [])) ∧ (s.mount.list fat path = .error .notFound →
        flags.testBit 2 = true → Settles s (s.mount.touch fat path))) := by
  have hskip : (pure err : KernM (Mounted φ) ℕ).wp e s (FailsClean s) :=
    Eff.wp_pure.mpr fun _ => ⟨rfl, rfl⟩
  have hread : ∀ of, (Mounted.onKernel (allocFd of)).wp e s (FailsClean s) :=
    fun of => (failsClean_allocFd s.mount).mpr (.inl rfl)
  rw [Mounted.sysOpen, Eff.wp_bind, Eff.wp_of_out (out_copyPath (pathOk_of_pathAt h) s), h]
  simp only [Eff.wp_ite, Eff.wp_bind, Eff.wp_get]
  cases hlist : s.mount.list fat path with
  | ok ents => simp [hskip, hread]
  | error er =>
    cases er with
    | notDir =>
      cases hw : flags.testBit 1 with
      | false => simp [hskip, hread, openFile]
      | true =>
        by_cases ht : flags.testBit 3 = true
        · simp [ht, failsClean_result]
        · simp [ht, hread, openFile]
    | notFound =>
      cases hw : flags.testBit 1 with
      | false => simp [hskip]
      | true => simp [hskip, failsClean_result]
    | noFs | isDir | notText | io => simp [hskip]

theorem wp_sysOpen_none (h : pathAt e pathPtr pathLen = none) :
    (Mounted.sysOpen fat pathPtr pathLen flags).wp e s (FailsClean s) := by
  rw [Mounted.sysOpen, Eff.wp_bind]
  by_cases hok : PathOk e.space pathPtr pathLen
  · rw [Eff.wp_of_out (out_copyPath hok s), h]
    exact Eff.wp_pure.mpr fun _ => ⟨rfl, rfl⟩
  · intro r s' hout
    rw [out_copyPath_panic hok] at hout
    cases hout

/-- A failed `sys_open` leaves everything as it was exactly when what it would do to
the volume settles. -/
theorem sysOpen_fails_clean_iff (fat : Fatfs φ η) (e : Env) (s : Mounted φ)
    (pathPtr pathLen flags : ℕ) :
    (∀ s', (Mounted.sysOpen fat pathPtr pathLen flags).out e s = some (err, s') →
      s'.mount = s.mount ∧ s'.kernel = s.kernel) ↔ OpenSettles fat e s pathPtr pathLen flags := by
  have hwp : (∀ s', (Mounted.sysOpen fat pathPtr pathLen flags).out e s = some (err, s') →
      s'.mount = s.mount ∧ s'.kernel = s.kernel) ↔
      (Mounted.sysOpen fat pathPtr pathLen flags).wp e s (FailsClean s) := by
    constructor
    · rintro h v s' hout rfl
      exact h s' hout
    · intro h s' hout
      exact h err s' hout rfl
  rw [hwp]
  cases hpath : pathAt e pathPtr pathLen with
  | none =>
    refine iff_of_true (wp_sysOpen_none hpath) ?_
    intro path hsome
    rw [hpath] at hsome
    cases hsome
  | some path =>
    rw [wp_sysOpen hpath]
    simp only [OpenSettles, hpath, Option.some.injEq, forall_eq']

end Failure

def crowded : Mounted (List (Bytes × Bytes)) where
  kernel := { Kernel.init true with
    sched := { Sched.init.setProc 0 (newPcb 1 0 Sample.image [0x73, 0x68] Sample.argv
      ⟨fun _ => some (.file [0x62] 0 false)⟩) with current := some 0 } }
  mount := ⟨some [([0x61], [0x78])], [slash]⟩

theorem sysOpen_truncates_without_descriptor :
    ∃ s', (Mounted.sysOpen rootFat 0x2000 1 10).out (Sample.env []) crowded = some (err, s') ∧
      crowded.mount.fs = some [([0x61], [0x78])] ∧ s'.mount.fs = some [([0x61], [])] := by
  refine ⟨_, rfl, rfl, rfl⟩

def Mounted.answers (fat : Fatfs φ η) (m : Mount φ) (e : Env) : Env :=
  { e with
    list := m.list fat
    writeFile := fun path => (m.writeFile fat path []).1.isOk
    touch := fun path => (m.touch fat path).1.isOk }

theorem Mounted.out_onKernel_allocFd (of : OpenFd) (e e' : Env) (k : Kernel) (m : Mount φ) :
    ((onKernel (allocFd of)).out e ⟨k, m⟩).map (fun r => (r.1, r.2.kernel)) =
      (allocFd of).out e' k := by
  simp [onKernel, out_allocFd]

theorem Mounted.sysOpen_kernel (fat : Fatfs φ η) (e : Env) (s : Mounted φ)
    (pathPtr pathLen flags : ℕ) :
    ((Mounted.sysOpen fat pathPtr pathLen flags).out e s).map (fun r => (r.1, r.2.kernel)) =
      (Task.sysOpen pathPtr pathLen flags).out (Mounted.answers fat s.mount e) s.kernel := by
  by_cases hok : PathOk e.space pathPtr pathLen
  · have hcopy := out_copyPath (e := Mounted.answers fat s.mount e) hok s.kernel
    have hpath :
        pathAt (Mounted.answers fat s.mount e) pathPtr pathLen = pathAt e pathPtr pathLen := rfl
    rw [Mounted.sysOpen, Task.sysOpen, Eff.out_bind, Eff.out_bind, out_copyPath hok s, hcopy, hpath]
    cases pathAt e pathPtr pathLen with
    | none => rfl
    | some path =>
      have halloc :=
        fun of (m : Mount φ) => out_onKernel_allocFd of e (answers fat s.mount e) s.kernel m
      have hlist : (answers fat s.mount e).list path = s.mount.list fat path := rfl
      have hwrite :
          (answers fat s.mount e).writeFile path = (s.mount.writeFile fat path []).1.isOk := rfl
      have htouch : (answers fat s.mount e).touch path = (s.mount.touch fat path).1.isOk := rfl
      simp only [Option.bind_some, Eff.out_ite, Eff.out_bind, Eff.out_get, Eff.out_ask]
      rw [hlist]
      split
      · rfl
      · cases s.mount.list fat path with
        | ok ents =>
          cases flags.testBit 1
          · simpa using halloc (.dir 0 ents) s.mount
          · rfl
        | error er =>
          cases er with
          | notDir =>
            cases flags.testBit 3 && flags.testBit 1
            · simpa [openFile] using halloc _ s.mount
            · rcases hr : s.mount.writeFile fat path [] with ⟨_ | ⟨⟨⟩⟩, m⟩
              · simp [hwrite, hr, Except.isOk, Except.toBool]
              · simp [hwrite, hr, Except.isOk, Except.toBool, openFile, halloc]
          | notFound =>
            cases flags.testBit 2 && flags.testBit 1
            · rfl
            · rcases hr : s.mount.touch fat path with ⟨_ | ⟨⟨⟩⟩, m⟩
              · simp [htouch, hr, Except.isOk, Except.toBool]
              · simp [htouch, hr, Except.isOk, Except.toBool, openFile, halloc]
          | noFs | isDir | notText | io => rfl
  · have hpanic := out_copyPath_panic (e := Mounted.answers fat s.mount e) hok s.kernel
    rw [Mounted.sysOpen, Task.sysOpen, Eff.out_bind, Eff.out_bind, out_copyPath_panic hok s, hpanic]
    rfl

end CoeleoOs.Task
