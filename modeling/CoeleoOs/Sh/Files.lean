import CoeleoOs.Fs.FileIo
import CoeleoOs.Sh.Pipeline
import CoeleoOs.Task.Open

/-!
# Files as the shell sees them

The file calls of one process, on the mounted volume and the descriptors of the process. The
shell passes its own buffers, so that only the path, the volume and the descriptors decide.
A descriptor of a file keeps its path, and every read or write looks the file up again.
-/

namespace CoeleoOs.Task.FdTable

variable {t t' : FdTable} {fd fd' : ℕ} {of of' : OpenFd}

theorem getMut_put_self (h : t.getMut fd = some of) (of' : OpenFd) :
    (t.put fd of').getMut fd = some of' := by
  unfold getMut at h
  split at h
  · rename_i hlt
    simp [put, getMut, hlt]
  · cases h

theorem getMut_put_of_ne (h : fd' ≠ fd) (of : OpenFd) :
    (t.put fd of).getMut fd' = t.getMut fd' := by
  unfold put
  split
  · rename_i hlt
    unfold getMut
    split
    · rename_i hlt'
      have hne : (⟨fd', hlt'⟩ : Fin fdMax) ≠ ⟨fd, hlt⟩ := fun heq => h (congrArg Fin.val heq)
      exact Function.update_of_ne hne _ _
    · rfl
  · rfl

theorem getMut_alloc (h : t.alloc of = (fd, t')) (hne : fd ≠ err) :
    t.getMut fd = none ∧ t'.getMut fd = some of ∧ ∀ fd', fd' ≠ fd →
    t'.getMut fd' = t.getMut fd' := by
  rcases alloc_cases t of with ⟨i, hi, halloc⟩ | hfull
  · obtain ⟨rfl, rfl⟩ := Prod.mk.inj (halloc.symm.trans h)
    refine ⟨by simp [getMut, hi], by simp [getMut], fun fd' hfd => ?_⟩
    unfold getMut
    split
    · rename_i hlt
      have hne' : (⟨fd', hlt⟩ : Fin fdMax) ≠ i := fun heq => hfd (congrArg Fin.val heq)
      exact Function.update_of_ne hne' _ _
    · rfl
  · exact absurd (Prod.mk.inj (hfull.symm.trans h)).1.symm hne

end CoeleoOs.Task.FdTable

namespace CoeleoOs.Sh
open CoeleoOs.Lib CoeleoOs.Lib.FileStore CoeleoOs.Fs
open CoeleoOs.Task (Bytes DirEnt FdTable OpenFd FsError ioMax pathMax utf8Valid err)

variable {φ η : Type}

structure Files (φ : Type) where
  mount : Mount φ
  fds : FdTable

/-- What `copy_path` makes of a path. -/
def pathArg (path : Bytes) : Option Bytes :=
  if path.length = 0 ∨ pathMax < path.length then none else if utf8Valid path then some path
    else none

namespace Files

def alloc (s : Files φ) (of : OpenFd) : Option ℕ × Files φ :=
  let r := s.fds.alloc of
  (if r.1 = err then none else some r.1, { s with fds := r.2 })

def openPath (fat : FatIo φ η) (s : Files φ) (path : Bytes) (flags : ℕ) : Option ℕ × Files φ :=
  let wantRead := flags.testBit 0
  let wantWrite := flags.testBit 1
  let wantCreate := flags.testBit 2
  let wantTrunc := flags.testBit 3
  match pathArg path with
  | none => (none, s)
  | some path =>
    if !wantRead && !wantWrite then (none, s)
    else
      match s.mount.list fat.toFatfs path with
      | .ok ents => if wantWrite then (none, s) else s.alloc (.dir 0 ents)
      | .error .notDir =>
        if wantTrunc && wantWrite then
          match s.mount.writeFile fat.toFatfs path [] with
          | (.error _, m) => (none, { s with mount := m })
          | (.ok (), m) => alloc { s with mount := m } (.file path 0 wantWrite)
        else s.alloc (.file path 0 wantWrite)
      | .error .notFound =>
        if wantCreate && wantWrite then
          match s.mount.touch fat.toFatfs path with
          | (.error _, m) => (none, { s with mount := m })
          | (.ok (), m) => alloc { s with mount := m } (.file path 0 true)
        else (none, s)
      | .error _ => (none, s)

def read (fat : FatIo φ η) (s : Files φ) (fd n : ℕ) : Option Bytes × Files φ :=
  if ioMax < n then (none, s)
  else
    match s.fds.getMut fd with
    | some (.file path offset writable) =>
      if n = 0 then (some [], s)
      else
        match s.mount.readAt fat path offset n with
        | (.error _, m) => (none, { s with mount := m })
        | (.ok got, m) => (some got, ⟨m, s.fds.put fd (.file path (offset + got.length) writable)⟩)
    | _ => (none, s)

def write (fat : FatIo φ η) (s : Files φ) (fd : ℕ) (buf : Bytes) : Option ℕ × Files φ :=
  if ioMax < buf.length then (none, s)
  else
    match s.fds.getMut fd with
    | some (.file path offset true) =>
      match s.mount.writeAt fat path offset buf with
      | (.error _, m) => (none, { s with mount := m })
      | (.ok got, m) => (some got, ⟨m, s.fds.put fd (.file path (offset + got) true)⟩)
    | _ => (none, s)

def readdir (s : Files φ) (fd : ℕ) : Option (Option DirEnt) × Files φ :=
  match s.fds.getMut fd with
  | some (.dir index ents) =>
    match ents[index]? with
    | none => (some none, s)
    | some ent => (some (some ent), { s with fds := s.fds.put fd (.dir (index + 1) ents) })
  | _ => (none, s)

def close (s : Files φ) (fd : ℕ) : Files φ :=
  if fd ≤ 2 then s else { s with fds := (s.fds.take fd).2 }

def unlink (fat : FatIo φ η) (s : Files φ) (path : Bytes) : Bool × Files φ :=
  match pathArg path with
  | none => (false, s)
  | some path =>
    match s.mount.remove fat path with
    | (.error _, m) => (false, { s with mount := m })
    | (.ok (), m) => (true, { s with mount := m })

def sync (fat : FatIo φ η) (s : Files φ) : Bool × Files φ :=
  match s.mount.sync fat with
  | (.error _, m) => (false, { s with mount := m })
  | (.ok (), m) => (true, { s with mount := m })

end Files

inductive Outcome
  | ok | err
  /-- Still in a loop. -/
  | running
  deriving DecidableEq

def writeRest (fat : FatIo φ η) (chunk fd : ℕ) : ℕ → Bytes → Files φ → Outcome × Files φ
  | _, [], s => (.ok, s)
  | 0, _ :: _, s => (.running, s)
  | fuel + 1, b :: bs, s =>
    match s.write fat fd ((b :: bs).take chunk) with
    | (none, s) => (.err, s)
    | (some w, s) => writeRest fat chunk fd fuel ((b :: bs).drop w) s

def openNew : ℕ := openCreate ||| openWrite ||| openTrunc

namespace Files

section Spec

variable {fat : FatIo φ η} (spec : FatSpec fat)

def content (s : Files φ) (path : Bytes) : Option Bytes := s.mount.content spec path

def SameFile (s : Files φ) (p q : Bytes) : Prop :=
  FileStore.SameFile (s.mount.store spec) (s.mount.relOf p) (s.mount.relOf q)

variable {spec} {s s' : Files φ} {path : Bytes} {fd n : ℕ}

theorem node_of_content {b : Bytes} (h : s.content spec path = some b) :
    ∃ i, (s.mount.store spec).node (s.mount.relOf path) = some i := by
  obtain ⟨i, hi, -⟩ := content_eq_some.mp h
  exact ⟨i, hi⟩

theorem pathArg_eq {p : Bytes} (h : pathArg path = some p) : p = path := by
  unfold pathArg at h
  split at h
  · cases h
  · split at h
    · exact (Option.some.inj h).symm
    · cases h

theorem alloc_spec {of : OpenFd} {r : Option ℕ} (h : s.alloc of = (r, s')) : s'.mount = s.mount ∧
    ∀ fd, r = some fd → s.fds.getMut fd = none ∧ s'.fds.getMut fd = some of ∧
      ∀ fd', fd' ≠ fd → s'.fds.getMut fd' = s.fds.getMut fd' := by
  obtain ⟨hr, rfl⟩ := Prod.mk.inj h
  refine ⟨rfl, fun fd hfd => ?_⟩
  rw [hfd] at hr
  split at hr
  · cases hr
  · rename_i hne
    obtain rfl := Option.some.inj hr
    exact FdTable.getMut_alloc rfl hne

theorem alloc_full {of : OpenFd} (h : s.alloc of = (none, s')) : s' = s := by
  obtain ⟨hr, rfl⟩ := Prod.mk.inj h
  rcases FdTable.alloc_cases s.fds of with ⟨i, -, halloc⟩ | hfull
  · rw [halloc] at hr
    dsimp only at hr
    rw [if_neg (Nat.ne_of_lt (i.isLt.trans (by decide)))] at hr
    cases hr
  · rw [hfull]

theorem openPath_read_cases {r : Option ℕ} (h : s.openPath fat path openRead = (r, s')) :
    (r = none ∧ s' = s) ∨ ∃ of, s.alloc of = (r, s') ∧ ((∃ ents, of = .dir 0 ents) ∨
      of = .file path 0 false ∧ s.mount.list fat.toFatfs path = .error .notDir) := by
  have hkeep : (none, s) = (r, s') → r = none ∧ s' = s := by
    intro he
    obtain ⟨rfl, rfl⟩ := Prod.mk.inj he
    exact ⟨rfl, rfl⟩
  unfold openPath at h
  dsimp only at h
  split at h
  · exact .inl (hkeep h)
  rename_i p hp
  obtain rfl := pathArg_eq hp
  split at h
  · exact .inl (hkeep h)
  split at h
  · rename_i ents _
    split at h
    · exact .inl (hkeep h)
    · exact .inr ⟨_, h, .inl ⟨ents, rfl⟩⟩
  · rename_i hlist
    split at h
    · rename_i hno
      exact absurd hno (by decide)
    · exact .inr ⟨_, h, .inr ⟨rfl, hlist⟩⟩
  · split at h
    · rename_i hno
      exact absurd hno (by decide)
    · exact .inl (hkeep h)
  · exact .inl (hkeep h)

theorem openPath_read {r : Option ℕ} (h : s.openPath fat path openRead = (r, s')) :
    s'.mount = s.mount ∧ ∀ fd, r = some fd → (∃ ents, s'.fds.getMut fd = some (.dir 0 ents)) ∨
      s'.fds.getMut fd = some (.file path 0 false) ∧ s.mount.list fat.toFatfs path =
        .error .notDir := by
  rcases openPath_read_cases h with ⟨rfl, rfl⟩ | ⟨of, halloc, hof⟩
  · exact ⟨rfl, by simp⟩
  · obtain ⟨hm, hfd⟩ := alloc_spec halloc
    refine ⟨hm, fun fd hr => ?_⟩
    obtain ⟨-, hget, -⟩ := hfd fd hr
    rcases hof with ⟨ents, rfl⟩ | ⟨rfl, hlist⟩
    · exact .inl ⟨ents, hget⟩
    · exact .inr ⟨hget, hlist⟩

theorem openPath_read_fds {r : Option ℕ} (h : s.openPath fat path openRead = (r, s')) :
    (∀ fd of, s.fds.getMut fd = some of → s'.fds.getMut fd = some of) ∧ ∀ fd, r = some fd →
    s.fds.getMut fd = none := by
  rcases openPath_read_cases h with ⟨rfl, rfl⟩ | ⟨of, halloc, -⟩
  · exact ⟨fun _ _ hget => hget, by simp⟩
  · cases r with
    | none =>
      rw [alloc_full halloc]
      exact ⟨fun _ _ hget => hget, by simp⟩
    | some fd =>
      obtain ⟨-, hfd⟩ := alloc_spec halloc
      obtain ⟨hfree, -, hother⟩ := hfd fd rfl
      refine ⟨fun fd' of' hget => ?_, fun fd' hr => Option.some.inj hr ▸ hfree⟩
      rw [hother fd', hget]
      rintro rfl
      rw [hfree] at hget
      cases hget

variable (spec) in
theorem openPath_new {r : Option ℕ} (h : s.openPath fat path openNew = (r, s')) :
    s'.mount.cwd = s.mount.cwd ∧
      Confined (s.mount.relOf path) (s.mount.store spec) (s'.mount.store spec) ∧
      Mount.OnlyMissing fat spec s.mount s'.mount ∧
      ∀ fd, r = some fd → s.fds.getMut fd = none ∧ s'.fds.getMut fd = some (.file path 0 true) ∧
        (∀ fd', fd' ≠ fd → s'.fds.getMut fd' = s.fds.getMut fd') ∧
        (s'.mount.store spec).content (s.mount.relOf path) = some [] := by
  have hkeep : (none, s) = (r, s') → s'.mount = s.mount ∧ ∀ fd, r ≠ some fd := by
    intro he
    obtain ⟨rfl, rfl⟩ := Prod.mk.inj he
    exact ⟨rfl, by simp⟩
  suffices hmain : (s'.mount = s.mount ∧ ∀ fd, r ≠ some fd) ∨ ∃ m, m.cwd = s.mount.cwd ∧
      Confined (s.mount.relOf path) (s.mount.store spec) (m.store spec) ∧
      Mount.OnlyMissing fat spec s.mount m ∧ ((s'.mount = m ∧ ∀ fd, r ≠ some fd) ∨
        (m.store spec).content (s.mount.relOf path) = some [] ∧ alloc { s with mount := m }
        (.file path 0 true) = (r, s')) by
    rcases hmain with ⟨hm, hno⟩ | ⟨m, hcwd, hconf, hmiss, ⟨rfl, hno⟩ | ⟨hempty, halloc⟩⟩
    · rw [hm]
      exact ⟨rfl, .refl _ _, Mount.onlyMissing_of_node fun _ _ hq => hq, fun fd hfd =>
        absurd hfd (hno fd)⟩
    · exact ⟨hcwd, hconf, hmiss, fun fd hfd => absurd hfd (hno fd)⟩
    · obtain ⟨hm, hfd⟩ := alloc_spec halloc
      rw [hm]
      refine ⟨hcwd, hconf, hmiss, fun fd hr => ?_⟩
      obtain ⟨hfree, hget, hother⟩ := hfd fd hr
      exact ⟨hfree, hget, hother, hempty⟩
  unfold openPath at h
  dsimp only at h
  split at h
  · exact .inl (hkeep h)
  rename_i p hp
  obtain rfl := pathArg_eq hp
  split at h
  · exact .inl (hkeep h)
  split at h
  · split at h
    · exact .inl (hkeep h)
    · rename_i hno
      exact absurd (by decide) hno
  · split at h
    swap
    · rename_i hno
      exact absurd (by decide) hno
    split at h
    · rename_i m hwrite
      obtain ⟨rfl, rfl⟩ := Prod.mk.inj h
      obtain ⟨hcwd, hconf, hmiss, -⟩ := Mount.writeFile_spec spec hwrite
      exact .inr ⟨m, hcwd, hconf, hmiss, .inl ⟨rfl, by simp⟩⟩
    · rename_i m hwrite
      obtain ⟨hcwd, hconf, hmiss, hok⟩ := Mount.writeFile_spec spec hwrite
      obtain ⟨i, hi, hd⟩ := hok rfl
      exact .inr ⟨m, hcwd, hconf, hmiss, .inr ⟨by rw [content_of_node hi, hd], h⟩⟩
  · rename_i hlist
    split at h
    swap
    · exact .inl (hkeep h)
    split at h
    · rename_i m htouch
      obtain ⟨rfl, rfl⟩ := Prod.mk.inj h
      obtain ⟨hcwd, hconf, hmiss, -⟩ := Mount.touch_spec spec htouch
      exact .inr ⟨m, hcwd, hconf, hmiss, .inl ⟨rfl, by simp⟩⟩
    · rename_i m htouch
      obtain ⟨hcwd, hconf, hmiss, hok⟩ := Mount.touch_spec spec htouch
      obtain ⟨i, hi, hd⟩ := hok rfl
      exact .inr ⟨m, hcwd, hconf, hmiss,
        .inr ⟨by rw [content_of_node hi, hd (Mount.list_notFound hlist)], h⟩⟩
  · exact .inl (hkeep h)

variable (spec) in
theorem read_spec {off : ℕ} {w : Bool} {r : Option Bytes}
    (hfd : s.fds.getMut fd = some (.file path off w)) (hn : 0 < n) (h : s.read fat fd n = (r, s')) :
    s'.mount.cwd = s.mount.cwd ∧ s'.mount.store spec = s.mount.store spec ∧
    (r = none → s'.fds = s.fds) ∧ ∀ got, r = some got →
    s'.fds = s.fds.put fd (.file path (off + got.length) w) ∧
    ∃ i, (s.mount.store spec).node (s.mount.relOf path) = some i ∧
          got = (((s.mount.store spec).data i).drop
            (min off ((s.mount.store spec).data i).length)).take got.length ∧
          (got = [] → ((s.mount.store spec).data i).length ≤ off) := by
  unfold read at h
  split at h
  · obtain ⟨rfl, rfl⟩ := Prod.mk.inj h
    exact ⟨rfl, rfl, fun _ => rfl, by simp⟩
  rw [hfd] at h
  dsimp only at h
  rw [if_neg hn.ne'] at h
  split at h
  · rename_i m hread
    obtain ⟨rfl, rfl⟩ := Prod.mk.inj h
    obtain ⟨hcwd, hstore, -⟩ := Mount.readAt_spec spec hread
    exact ⟨hcwd, hstore, fun _ => rfl, by simp⟩
  · rename_i got m hread
    obtain ⟨rfl, rfl⟩ := Prod.mk.inj h
    obtain ⟨hcwd, hstore, hgot⟩ := Mount.readAt_spec spec hread
    refine ⟨hcwd, hstore, (by simp), fun got' hg => ?_⟩
    obtain rfl := Option.some.inj hg
    obtain ⟨i, hi, htake, -, hend⟩ := hgot got rfl
    exact ⟨rfl, i, hi, htake, fun hnil => (hend hnil).resolve_left hn.ne'⟩

theorem read_length (spec : FatSpec fat) {off : ℕ} {w : Bool} {got : Bytes}
    (hfd : s.fds.getMut fd = some (.file path off w)) (hn : 0 < n)
    (h : s.read fat fd n = (some got, s')) : got.length ≤ n := by
  unfold read at h
  split at h
  · cases h
  rw [hfd] at h
  dsimp only at h
  rw [if_neg hn.ne'] at h
  split at h
  · cases h
  · rename_i got' m hread
    obtain ⟨hg, rfl⟩ := Prod.mk.inj h
    obtain rfl := Option.some.inj hg
    obtain ⟨-, -, hgot⟩ := Mount.readAt_spec spec hread
    obtain ⟨i, -, -, hlen, -⟩ := hgot got' rfl
    exact hlen

variable (spec) in
theorem write_spec {off : ℕ} {buf : Bytes} {r : Option ℕ}
    (hfd : s.fds.getMut fd = some (.file path off true)) (h : s.write fat fd buf = (r, s')) :
    s'.mount.cwd = s.mount.cwd ∧ (s'.mount.store spec).node = (s.mount.store spec).node ∧
      Confined (s.mount.relOf path) (s.mount.store spec) (s'.mount.store spec) ∧
      ∀ k, r = some k → s'.fds = s.fds.put fd (.file path (off + k) true) ∧ k ≤ buf.length ∧
        ∃ i, (s.mount.store spec).node (s.mount.relOf path) = some i ∧
          (s'.mount.store spec).data i = overwrite ((s.mount.store spec).data i)
            (min off ((s.mount.store spec).data i).length) (buf.take k) := by
  unfold write at h
  split at h
  · obtain ⟨rfl, rfl⟩ := Prod.mk.inj h
    exact ⟨rfl, rfl, .refl _ _, by simp⟩
  rw [hfd] at h
  dsimp only at h
  split at h
  · rename_i m hwrite
    obtain ⟨rfl, rfl⟩ := Prod.mk.inj h
    obtain ⟨hcwd, hnodes, hconf, -⟩ := Mount.writeAt_spec spec hwrite
    exact ⟨hcwd, hnodes, hconf, by simp⟩
  · rename_i got m hwrite
    obtain ⟨rfl, rfl⟩ := Prod.mk.inj h
    obtain ⟨hcwd, hnodes, hconf, hgot⟩ := Mount.writeAt_spec spec hwrite
    refine ⟨hcwd, hnodes, hconf, fun k hk => ?_⟩
    obtain rfl := Option.some.inj hk
    obtain ⟨i, hi, hk, hdata⟩ := hgot got rfl
    exact ⟨rfl, hk, i, hi, hdata⟩

variable (spec) in
theorem unlink_spec {r : Bool} (h : s.unlink fat path = (r, s')) :
    s'.mount.cwd = s.mount.cwd ∧ Confined (s.mount.relOf path) (s.mount.store spec)
      (s'.mount.store spec) ∧
      (r = true → (s'.mount.store spec).node (s.mount.relOf path) = none) := by
  unfold unlink at h
  split at h
  · obtain ⟨rfl, rfl⟩ := Prod.mk.inj h
    exact ⟨rfl, .refl _ _, by simp⟩
  rename_i p hp
  obtain rfl := pathArg_eq hp
  split at h
  all_goals
    rename_i m hremove
    obtain ⟨rfl, rfl⟩ := Prod.mk.inj h
    obtain ⟨hcwd, hconf, -, hok⟩ := Mount.remove_spec spec hremove
  · exact ⟨hcwd, hconf, by simp⟩
  · exact ⟨hcwd, hconf, fun _ => hok rfl⟩

end Spec

end Files

section Kernel

open CoeleoOs.Task (Mounted KernM Env Pcb Slot Sched)

variable {fat : FatIo φ η} {e : Env} {k : Task.Kernel} {m : Mount φ} {i : Slot} {p : Pcb}

def withFiles (k : Task.Kernel) (i : Slot) (p : Pcb) (s : Files φ) : Mounted φ :=
  ⟨{ k with sched := k.sched.setProc i { p with fds := s.fds } }, s.mount⟩

theorem withFiles_self (hp : k.sched.procs i = some p) (m : Mount φ) :
    withFiles k i p ⟨m, p.fds⟩ = ⟨k, m⟩ := by
  rw [withFiles, Sched.setProc_eq_self hp]

theorem out_allocFd_files (hcur : k.sched.current = some i) (hp : k.sched.procs i = some p)
    (of : OpenFd) (m : Mount φ) : (Mounted.onKernel (Task.allocFd of)).out e ⟨k, m⟩ =
      some (((Files.alloc ⟨m, p.fds⟩ of).1).getD err,
        withFiles k i p (Files.alloc ⟨m, p.fds⟩ of).2) := by
  have hfd : ∀ fd : ℕ, (if fd = err then none else some fd).getD err = fd := fun fd => by
    split
    · rename_i h
      exact h.symm
    · rfl
  simp only [Mounted.onKernel, Eff.out_zoom, Task.out_allocFd, Task.Kernel.withFds, hcur, hp,
    Option.map_some, Option.getD_some, Files.alloc, hfd, withFiles]

theorem sysOpen_openPath {ptr len flags : ℕ} {path : Bytes} (hcur : k.sched.current = some i)
    (hp : k.sched.procs i = some p) (hpath : Task.pathAt e ptr len = some path) :
    (Mounted.sysOpen fat.toFatfs ptr len flags).out e ⟨k, m⟩ =
      some (((Files.openPath fat ⟨m, p.fds⟩ path flags).1).getD err,
        withFiles k i p (Files.openPath fat ⟨m, p.fds⟩ path flags).2) := by
  have harg : pathArg path = some path := by
    unfold Task.pathAt at hpath
    split_ifs at hpath with hok
    obtain ⟨hpos, hmax, -, hutf⟩ := hok
    obtain rfl := Option.some.inj hpath
    have hlen : (Task.userBytes e ptr len).length = len := by simp [Task.userBytes]
    rw [pathArg, hlen, if_neg (by omega), if_pos hutf]
  have hself : ∀ m' : Mount φ, (⟨k, m'⟩ : Mounted φ) = withFiles k i p ⟨m', p.fds⟩ :=
    fun m' => (withFiles_self hp m').symm
  have halloc := fun of (m' : Mount φ) => @out_allocFd_files φ e k i p hcur hp of m'
  rw [Mounted.sysOpen, Eff.out_bind, Task.out_copyPath (Task.pathOk_of_pathAt hpath), hpath]
  simp only [Option.bind_some, Eff.out_ite, Eff.out_bind, Eff.out_get, Files.openPath, harg]
  split
  · rw [← hself]
    rfl
  cases m.list fat.toFatfs path with
  | ok ents =>
    cases flags.testBit 1
    · simpa using halloc (.dir 0 ents) m
    · simp only [if_true, ← hself]
      rfl
  | error er =>
    cases er with
    | notDir =>
      cases flags.testBit 3 && flags.testBit 1
      · simpa [Task.openFile] using halloc _ m
      · rcases m.writeFile fat.toFatfs path [] with ⟨_ | ⟨⟨⟩⟩, m'⟩
        · simp [← hself]
        · simp [Task.openFile, halloc]
    | notFound =>
      cases flags.testBit 2 && flags.testBit 1
      · simp [← hself]
      · rcases m.touch fat.toFatfs path with ⟨_ | ⟨⟨⟩⟩, m'⟩
        · simp [← hself]
        · simp [Task.openFile, halloc]
    | noFs | isDir | notText | io => simp [← hself]

end Kernel

section Loop

variable {fat : FatIo φ η} (spec : FatSpec fat) {s s' : Files φ} {r : Outcome}

@[simp] theorem close_mount (s : Files φ) (fd : ℕ) : (s.close fd).mount = s.mount := by
  unfold Files.close
  split <;> rfl

theorem readdir_mount (s : Files φ) (fd : ℕ) : (s.readdir fd).2.mount = s.mount := by
  unfold Files.readdir
  split
  · split <;> rfl
  · rfl

theorem writeRest_spec {chunk fd fuel : ℕ} {path buf d : Bytes}
    (hfd : s.fds.getMut fd = some (.file path d.length true)) (hd : s.content spec path = some d)
    (h : writeRest fat chunk fd fuel buf s = (r, s')) : s'.mount.cwd = s.mount.cwd ∧
      Confined (s.mount.relOf path) (s.mount.store spec) (s'.mount.store spec) ∧
      (r = .ok → s'.fds.getMut fd = some (.file path (d.length + buf.length) true) ∧
        (∀ fd', fd' ≠ fd → s'.fds.getMut fd' = s.fds.getMut fd') ∧ s'.content spec path =
          some (d ++ buf)) := by
  induction fuel generalizing buf d s with
  | zero =>
    cases buf with
    | nil =>
      obtain ⟨rfl, rfl⟩ := Prod.mk.inj h
      exact ⟨rfl, .refl _ _, fun _ => ⟨hfd, fun _ _ => rfl, by rw [List.append_nil]; exact hd⟩⟩
    | cons b bs =>
      obtain ⟨rfl, rfl⟩ := Prod.mk.inj h
      exact ⟨rfl, .refl _ _, nofun⟩
  | succ fuel ih =>
    cases buf with
    | nil =>
      obtain ⟨rfl, rfl⟩ := Prod.mk.inj h
      exact ⟨rfl, .refl _ _, fun _ => ⟨hfd, fun _ _ => rfl, by rw [List.append_nil]; exact hd⟩⟩
    | cons b bs =>
      obtain ⟨buf, hbuf⟩ : ∃ buf, buf = b :: bs := ⟨_, rfl⟩
      rw [writeRest, ← hbuf] at h
      rw [← hbuf]
      rcases hw : s.write fat fd (buf.take chunk) with ⟨_ | k, s₁⟩
      · rw [hw] at h
        obtain ⟨rfl, rfl⟩ := Prod.mk.inj h
        obtain ⟨hcwd, -, hconf, -⟩ := Files.write_spec spec hfd hw
        exact ⟨hcwd, hconf, nofun⟩
      rw [hw] at h
      dsimp only at h
      obtain ⟨hcwd, hnodes, hconf, hok⟩ := Files.write_spec spec hfd hw
      obtain ⟨hfds, hk, i, hi, hdata⟩ := hok k rfl
      obtain ⟨j, hj, hdj⟩ := content_eq_some.mp hd
      obtain rfl := Option.some.inj (hi.symm.trans hj)
      have hrel := Mount.relOf_congr hcwd path
      have htake : (buf.take chunk).take k = buf.take k := by
        rw [List.take_take, min_eq_left]
        rw [List.length_take] at hk
        exact hk.trans (min_le_left _ _)
      have hlen : (buf.take k).length = k := by
        rw [List.length_take, min_eq_left]
        rw [List.length_take] at hk
        exact hk.trans (min_le_right _ _)
      rw [hdj, min_self, htake, overwrite_length] at hdata
      have hfd₁ : s₁.fds.getMut fd = some (.file path (d ++ buf.take k).length true) := by
        rw [hfds, List.length_append, hlen]
        exact FdTable.getMut_put_self hfd _
      have hd₁ : s₁.content spec path = some (d ++ buf.take k) := by
        rw [Files.content, Mount.content, hrel, content_of_node (hnodes ▸ hi), hdata]
      obtain ⟨hcwd', hconf', hdone⟩ := ih hfd₁ hd₁ h
      rw [hrel] at hconf'
      refine ⟨hcwd'.trans hcwd, hconf.trans hconf', fun hr => ?_⟩
      obtain ⟨hget, hother, hcontent⟩ := hdone hr
      refine ⟨?_, fun fd' hne => (hother fd' hne).trans ?_, ?_⟩
      · rw [hget, List.length_append, Nat.add_assoc, ← List.length_append, List.take_append_drop]
      · rw [hfds, FdTable.getMut_put_of_ne hne]
      · rw [hcontent, List.append_assoc, List.take_append_drop]

end Loop

end CoeleoOs.Sh
