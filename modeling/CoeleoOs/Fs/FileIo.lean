import CoeleoOs.Fs.Mount
import CoeleoOs.Lib.FileStore

/-!
# Reading and writing files

The functions of `fs/mod.rs` that open a file again for every call, over more operations of
the `fatfs` crate. `FatSpec` states what the crate promises of its operations, which files
there are and what they hold; each function here is then stated by what it does to them.
-/

namespace CoeleoOs.Fs
open CoeleoOs.Lib CoeleoOs.Lib.FileStore
open CoeleoOs.Task (Bytes FsError DirEnt)

structure FatIo (φ η : Type) extends Fatfs φ η where
  openFile : φ → Bytes → Except FatError η
  seek : φ → η → ℕ → Bool × η
  read : φ → η → ℕ → Option Bytes × η
  write : φ → η → Bytes → Option ℕ × η × φ
  remove : φ → Bytes → Except FatError Unit × φ
  remount : φ → Bool × Option φ

/-- The files of a volume, and where its handles stand in them. A handle is clean when it has
nothing left to flush. An operation that fails may have changed what its own file holds. -/
structure FatSpec {φ η : Type} (fat : FatIo φ η) where
  ι : Type
  store : φ → FileStore Bytes ι UInt8
  file : η → ι
  pos : η → ℕ
  Clean : η → Prop
  openDir_notFound : ∀ {fs rel}, fat.openDir fs rel = .error .notFound → (store fs).node rel = none
  openFile_ok : ∀ {fs rel h}, fat.openFile fs rel = .ok h →
    (store fs).node rel = some (file h) ∧ pos h = 0 ∧ Clean h
  createFile_confined :
    ∀ {fs rel r fs'}, fat.createFile fs rel = (r, fs') → Confined rel (store fs) (store fs')
  -- A name that a directory search did not miss does not come into being.
  createFile_new :
    ∀ {fs rel r fs' q i}, fat.createFile fs rel = (r, fs') → (store fs').node q = some i →
    (store fs).node q ≠ none ∨ fat.openDir fs q = .error .notFound
  createFile_ok : ∀ {fs rel h fs'}, fat.createFile fs rel = (.ok h, fs') →
    (store fs').node rel = some (file h) ∧ pos h = 0 ∧ Clean h ∧
      ((store fs).node rel = none → (store fs').data (file h) = [])
  truncate_file : ∀ {fs h ok h' fs'}, fat.truncate fs h = (ok, h', fs') →
    file h' = file h ∧ pos h' = pos h ∧ Writes (file h) (store fs) (store fs') ∧
      (ok = true → (store fs').data (file h) = ((store fs).data (file h)).take (pos h))
  writeAll_file : ∀ {fs h src ok h' fs'}, fat.writeAll fs h src = (ok, h', fs') →
    file h' = file h ∧ Writes (file h) (store fs) (store fs') ∧
      (ok = true → (store fs').data (file h) = overwrite ((store fs).data (file h)) (pos h) src)
  flush_file : ∀ {fs h ok h' fs'}, fat.flush fs h = (ok, h', fs') →
    file h' = file h ∧ Writes (file h) (store fs) (store fs') ∧
    (ok = true → store fs' = store fs ∧ Clean h')
  drop_file : ∀ fs h, Writes (file h) (store fs) (store (fat.drop fs h))
  drop_clean : ∀ {fs h}, Clean h → store (fat.drop fs h) = store fs
  seek_file : ∀ {fs h off ok h'}, fat.seek fs h off = (ok, h') →
    file h' = file h ∧ (Clean h → Clean h') ∧
      (ok = true → pos h' = min off ((store fs).data (file h)).length)
  read_file :
    ∀ {fs h n got h'}, fat.read fs h n = (got, h') → file h' = file h ∧ (Clean h → Clean h') ∧
    ∀ bytes, got = some bytes → bytes = (((store fs).data (file h)).drop (pos h)).take
      bytes.length ∧ bytes.length ≤ n ∧
      (bytes = [] → n = 0 ∨ ((store fs).data (file h)).length ≤ pos h)
  write_file : ∀ {fs h src got h' fs'}, fat.write fs h src = (got, h', fs') →
    file h' = file h ∧ Writes (file h) (store fs) (store fs') ∧
      ∀ n, got = some n → n ≤ src.length ∧
        (store fs').data (file h) = overwrite ((store fs).data (file h)) (pos h) (src.take n)
  remove_confined :
    ∀ {fs rel r fs'}, fat.remove fs rel = (r, fs') → Confined rel (store fs) (store fs')
  remove_new : ∀ {fs rel r fs' q i}, fat.remove fs rel = (r, fs') → (store fs').node q = some i →
    (store fs).node q = some i
  remove_ok : ∀ {fs rel fs'}, fat.remove fs rel = (.ok (), fs') → (store fs').node rel = none
  remount_some : ∀ {fs ok fs'}, fat.remount fs = (ok, some fs') → store fs' = store fs

namespace Mount

variable {φ η : Type}

def relOf (m : Mount φ) (path : Bytes) : Bytes := rel (resolve m.workDir path)

def openAt (m : Mount φ) (fat : FatIo φ η) (path : Bytes) : Except FsError (η × φ) :=
  match m.pathRel path with
  | .error e => .error e
  | .ok rel =>
    match m.fs with
    | none => .error .noFs
    | some fs =>
      match fat.openDir fs rel with
      | .ok _ => .error .isDir
      | .error .notFound => .error .notFound
      | .error .invalidInput =>
        match fat.openFile fs rel with
        | .error e => .error (mapFileErr e)
        | .ok file => .ok (file, fs)
      | .error _ => .error .io

def drop (m : Mount φ) (fat : FatIo φ η) (fs : φ) (file : η) : Mount φ :=
  { m with fs := some (fat.drop fs file) }

def readAt (m : Mount φ) (fat : FatIo φ η) (path : Bytes) (offset n : ℕ) :
    Except FsError Bytes × Mount φ :=
  match m.openAt fat path with
  | .error e => (.error e, m)
  | .ok (file, fs) =>
    match fat.seek fs file offset with
    | (false, file) => (.error .io, m.drop fat fs file)
    | (true, file) =>
      match fat.read fs file n with
      | (none, file) => (.error .io, m.drop fat fs file)
      | (some got, file) => (.ok got, m.drop fat fs file)

def writeAt (m : Mount φ) (fat : FatIo φ η) (path : Bytes) (offset : ℕ) (buf : Bytes) :
    Except FsError ℕ × Mount φ :=
  match m.openAt fat path with
  | .error e => (.error e, m)
  | .ok (file, fs) =>
    match fat.seek fs file offset with
    | (false, file) => (.error .io, m.drop fat fs file)
    | (true, file) =>
      match fat.write fs file buf with
      | (none, file, fs) => (.error .io, m.drop fat fs file)
      | (some n, file, fs) =>
        match fat.flush fs file with
        | (false, file, fs) => (.error .io, m.drop fat fs file)
        | (true, file, fs) => (.ok n, m.drop fat fs file)

def remove (m : Mount φ) (fat : FatIo φ η) (path : Bytes) : Except FsError Unit × Mount φ :=
  match m.pathRel path with
  | .error e => (.error e, m)
  | .ok rel =>
    match m.fs with
    | none => (.error .noFs, m)
    | some fs =>
      match rejectDir fat.toFatfs fs rel with
      | .error e => (.error e, m)
      | .ok () =>
        match fat.remove fs rel with
        | (.error e, fs) => (.error (mapFileErr e), { m with fs := some fs })
        | (.ok (), fs) => (.ok (), { m with fs := some fs })

-- A failed flush is reported, but the volume is mounted again first.
def sync (m : Mount φ) (fat : FatIo φ η) : Except FsError Unit × Mount φ :=
  match m.fs with
  | none => (.error .noFs, m)
  | some fs =>
    match fat.remount fs with
    | (true, some fs) => (.ok (), { m with fs := some fs })
    | (false, some fs) => (.error .io, { m with fs := some fs })
    | (_, none) => (.error .io, { m with fs := none })

section Spec

variable {fat : FatIo φ η} (spec : FatSpec fat)

/-- The files of what is mounted. -/
def store (m : Mount φ) : FileStore Bytes spec.ι UInt8 :=
  match m.fs with
  | none => .empty
  | some fs => spec.store fs

def content (m : Mount φ) (path : Bytes) : Option Bytes := (m.store spec).content (m.relOf path)

variable {spec} {m m' : Mount φ} {path : Bytes}

theorem pathRel_ok {r : Bytes} (h : m.pathRel path = .ok r) : r = m.relOf path := by
  unfold pathRel at h
  dsimp only at h
  split at h
  · cases h
  · exact (Except.ok.inj h).symm

theorem relOf_congr (h : m'.cwd = m.cwd) (path : Bytes) : m'.relOf path = m.relOf path := by
  simp only [relOf, workDir, h]

variable (spec) in
theorem openAt_ok {file : η} {fs : φ} (h : m.openAt fat path = .ok (file, fs)) :
    m.fs = some fs ∧ (m.store spec).node (m.relOf path) = some (spec.file file) ∧
    spec.pos file = 0 ∧ spec.Clean file := by
  unfold openAt at h
  split at h
  · cases h
  rename_i r hrel
  split at h
  · cases h
  rename_i fs₀ hfs
  split at h
  all_goals try cases h
  split at h
  · cases h
  rename_i file₀ hopen
  obtain ⟨rfl, rfl⟩ := Prod.mk.inj (Except.ok.inj h)
  obtain rfl := pathRel_ok hrel
  refine ⟨hfs, ?_⟩
  simp only [store, hfs]
  exact spec.openFile_ok hopen

variable (spec) in
theorem readAt_spec {offset n : ℕ} {r : Except FsError Bytes}
    (h : m.readAt fat path offset n = (r, m')) : m'.cwd = m.cwd ∧ m'.store spec = m.store spec ∧
    ∀ got, r = .ok got → ∃ i, (m.store spec).node (m.relOf path) = some i ∧
        got = (((m.store spec).data i).drop (min offset ((m.store spec).data i).length)).take
          got.length ∧ got.length ≤ n ∧
          (got = [] → n = 0 ∨ ((m.store spec).data i).length ≤ offset) := by
  unfold readAt at h
  split at h
  · obtain ⟨rfl, rfl⟩ := Prod.mk.inj h
    exact ⟨rfl, rfl, nofun⟩
  rename_i file fs hopen
  obtain ⟨hfs, hnode, -, hclean⟩ := openAt_ok spec hopen
  have hstore : m.store spec = spec.store fs := by simp only [store, hfs]
  have hdrop : ∀ f, spec.Clean f → (m.drop fat fs f).store spec = m.store spec :=
    fun f hf => (spec.drop_clean hf).trans hstore.symm
  split at h
  · rename_i f hseek
    obtain ⟨rfl, rfl⟩ := Prod.mk.inj h
    exact ⟨rfl, hdrop f ((spec.seek_file hseek).2.1 hclean), nofun⟩
  rename_i f hseek
  obtain ⟨hfile, hc, hpos⟩ := spec.seek_file hseek
  split at h
  · rename_i f' hread
    obtain ⟨rfl, rfl⟩ := Prod.mk.inj h
    exact ⟨rfl, hdrop f' ((spec.read_file hread).2.1 (hc hclean)), nofun⟩
  · rename_i got f' hread
    obtain ⟨rfl, rfl⟩ := Prod.mk.inj h
    obtain ⟨-, hc', hgot⟩ := spec.read_file hread
    refine ⟨rfl, hdrop f' (hc' (hc hclean)), fun bytes hb => ?_⟩
    obtain rfl := Except.ok.inj hb
    obtain ⟨htake, hlen, hend⟩ := hgot got rfl
    rw [hfile, hpos rfl] at htake hend
    rw [hstore]
    refine ⟨spec.file file, hstore ▸ hnode, htake, hlen,
      fun hnil => (hend hnil).imp_right fun hle => ?_⟩
    exact (le_min_iff.mp hle).1

variable (spec) in
theorem writeAt_spec {offset : ℕ} {buf : Bytes} {r : Except FsError ℕ}
    (h : m.writeAt fat path offset buf = (r, m')) :
    m'.cwd = m.cwd ∧ (m'.store spec).node = (m.store spec).node ∧
    Confined (m.relOf path) (m.store spec) (m'.store spec) ∧ ∀ n, r = .ok n →
        ∃ i, (m.store spec).node (m.relOf path) = some i ∧ n ≤ buf.length ∧
          (m'.store spec).data i =
            overwrite ((m.store spec).data i) (min offset ((m.store spec).data i).length)
              (buf.take n) := by
  unfold writeAt at h
  split at h
  · obtain ⟨rfl, rfl⟩ := Prod.mk.inj h
    exact ⟨rfl, rfl, .refl _ _, nofun⟩
  rename_i file fs hopen
  obtain ⟨hfs, hnode, hpos, -⟩ := openAt_ok spec hopen
  have hstore : m.store spec = spec.store fs := by simp only [store, hfs]
  have hdone : ∀ fs' f, Writes (spec.file file) (m.store spec) (spec.store fs') →
      spec.file f = spec.file file → ((m.drop fat fs' f).store spec).node = (m.store spec).node ∧
        Confined (m.relOf path) (m.store spec) ((m.drop fat fs' f).store spec) := by
    intro fs' f hw hf
    have hw' := hw.trans (hf ▸ spec.drop_file fs' f)
    exact ⟨hw'.node, hw'.confined hnode⟩
  split at h
  · rename_i f hseek
    obtain ⟨rfl, rfl⟩ := Prod.mk.inj h
    obtain ⟨hnodes, hconf⟩ := hdone fs f (hstore ▸ .refl _ _) (spec.seek_file hseek).1
    exact ⟨rfl, hnodes, hconf, nofun⟩
  rename_i f hseek
  obtain ⟨hf, -, hp⟩ := spec.seek_file hseek
  split at h
  · rename_i f' fs' hwrite
    obtain ⟨rfl, rfl⟩ := Prod.mk.inj h
    obtain ⟨hf', hw, -⟩ := spec.write_file hwrite
    rw [hf, ← hstore] at hw
    obtain ⟨hnodes, hconf⟩ := hdone fs' f' hw (hf'.trans hf)
    exact ⟨rfl, hnodes, hconf, nofun⟩
  rename_i n f' fs' hwrite
  obtain ⟨hf', hw, hgot⟩ := spec.write_file hwrite
  obtain ⟨hn, hdata⟩ := hgot n rfl
  rw [hf, ← hstore] at hw
  rw [hf, hp rfl, ← hstore] at hdata
  split at h
  · rename_i f'' fs'' hflush
    obtain ⟨rfl, rfl⟩ := Prod.mk.inj h
    obtain ⟨hf'', hw', -⟩ := spec.flush_file hflush
    rw [hf', hf] at hw'
    obtain ⟨hnodes, hconf⟩ := hdone fs'' f'' (hw.trans hw') (hf''.trans (hf'.trans hf))
    exact ⟨rfl, hnodes, hconf, nofun⟩
  · rename_i f'' fs'' hflush
    obtain ⟨rfl, rfl⟩ := Prod.mk.inj h
    obtain ⟨hf'', hw', hok⟩ := spec.flush_file hflush
    obtain ⟨hsame, hclean⟩ := hok rfl
    rw [hf', hf] at hw'
    obtain ⟨hnodes, hconf⟩ := hdone fs'' f'' (hw.trans hw') (hf''.trans (hf'.trans hf))
    refine ⟨rfl, hnodes, hconf, fun n' hn' => ?_⟩
    obtain rfl := Except.ok.inj hn'
    refine ⟨spec.file file, hnode, hn, ?_⟩
    have hlast : (m.drop fat fs'' f'').store spec = spec.store fs' :=
      (spec.drop_clean hclean).trans hsame
    rw [hlast, hdata]

def OnlyMissing (fat : FatIo φ η) (spec : FatSpec fat) (m m' : Mount φ) : Prop :=
  ∀ q i, (m'.store spec).node q = some i →
    (m.store spec).node q ≠ none ∨ ∃ fs, m.fs = some fs ∧ fat.openDir fs q = .error .notFound

theorem onlyMissing_of_node (h : ∀ q i, (m'.store spec).node q = some i →
    (m.store spec).node q = some i) : OnlyMissing fat spec m m' := by
  intro q i hq
  rw [h q i hq]
  exact .inl nofun

variable (spec) in
theorem create_spec {r : Except FsError (η × φ)} (h : m.create fat.toFatfs path = (r, m')) :
    m'.cwd = m.cwd ∧ Confined (m.relOf path) (m.store spec) (m'.store spec) ∧
    OnlyMissing fat spec m m' ∧ ∀ file fs, r = .ok (file, fs) → m'.fs = some fs ∧
    (spec.store fs).node (m.relOf path) = some (spec.file file) ∧ spec.pos file = 0 ∧
    spec.Clean file ∧ ((m.store spec).node (m.relOf path) = none →
      (spec.store fs).data (spec.file file) = []) := by
  have hkeep :
      ∀ e : FsError, (.error e, m) = (r, m') → m'.cwd = m.cwd ∧ m' = m ∧ ∀ x, r ≠ .ok x := by
    intro e he
    obtain ⟨rfl, rfl⟩ := Prod.mk.inj he
    exact ⟨rfl, rfl, nofun⟩
  suffices hmain :
      (m' = m ∧ ∀ x, r ≠ .ok x) ∨ ∃ fs₀ fs' x, m.fs = some fs₀ ∧ m' = { m with fs := some fs' } ∧
      fat.createFile fs₀ (m.relOf path) = (x, fs') ∧ ∀ file fs, r = .ok (file, fs) →
      x = .ok file ∧ fs = fs' by
    rcases hmain with ⟨rfl, hno⟩ | ⟨fs₀, fs', x, hfs, rfl, hx, hr⟩
    · exact ⟨rfl, .refl _ _, onlyMissing_of_node fun _ _ hq => hq, fun file fs hr =>
        absurd hr (hno _)⟩
    · have hstore : m.store spec = spec.store fs₀ := by simp only [store, hfs]
      refine ⟨rfl, hstore ▸ spec.createFile_confined hx, fun q i hq => ?_, fun file fs hf => ?_⟩
      · rw [hstore]
        exact (spec.createFile_new hx hq).imp_right fun hd => ⟨fs₀, hfs, hd⟩
      · obtain ⟨rfl, rfl⟩ := hr file fs hf
        rw [hstore]
        exact ⟨rfl, spec.createFile_ok hx⟩
  unfold create at h
  split at h
  · exact .inl (hkeep _ h).2
  rename_i r₀ hrel
  obtain rfl := pathRel_ok hrel
  split at h
  · exact .inl (hkeep _ h).2
  rename_i fs₀ hfs
  split at h
  · exact .inl (hkeep _ h).2
  split at h
  · rename_i e fs' hcreate
    obtain ⟨rfl, rfl⟩ := Prod.mk.inj h
    exact .inr ⟨fs₀, fs', _, hfs, rfl, hcreate, nofun⟩
  · rename_i file fs' hcreate
    obtain ⟨rfl, rfl⟩ := Prod.mk.inj h
    refine .inr ⟨fs₀, fs', _, hfs, rfl, hcreate, fun f fs hf => ?_⟩
    obtain ⟨rfl, rfl⟩ := Prod.mk.inj (Except.ok.inj hf)
    exact ⟨rfl, rfl⟩

variable (spec) in
theorem touch_spec {r : Except FsError Unit} (h : m.touch fat.toFatfs path = (r, m')) :
    m'.cwd = m.cwd ∧ Confined (m.relOf path) (m.store spec) (m'.store spec) ∧
    OnlyMissing fat spec m m' ∧ (r = .ok () → ∃ i, (m'.store spec).node (m.relOf path) = some i ∧
        ((m.store spec).node (m.relOf path) = none → (m'.store spec).data i = [])) := by
  unfold touch at h
  rcases hc : m.create fat.toFatfs path with ⟨e | ⟨file, fs⟩, m₁⟩
  · rw [hc] at h
    obtain ⟨rfl, rfl⟩ := Prod.mk.inj h
    obtain ⟨hcwd, hconf, hmiss, -⟩ := create_spec spec hc
    exact ⟨hcwd, hconf, hmiss, nofun⟩
  · rw [hc] at h
    obtain ⟨rfl, rfl⟩ := Prod.mk.inj h
    obtain ⟨hcwd, hconf, hmiss, hok⟩ := create_spec spec hc
    obtain ⟨hfs, hnode, -, hclean, hnew⟩ := hok file fs rfl
    have hsame :
        ({ m₁ with fs := some (fat.drop fs file) } : Mount φ).store spec = m₁.store spec := by
      simp only [store, hfs]
      exact spec.drop_clean hclean
    have hstore : m₁.store spec = spec.store fs := by simp only [store, hfs]
    refine ⟨hcwd, hsame ▸ hconf, ?_, fun _ => ⟨spec.file file, ?_, ?_⟩⟩
    · intro q i hq
      exact hmiss q i (hsame ▸ hq)
    · rw [hsame, hstore]
      exact hnode
    · rw [hsame, hstore]
      exact hnew

variable (spec) in
theorem writeFile_spec {data : Bytes} {r : Except FsError Unit}
    (h : m.writeFile fat.toFatfs path data = (r, m')) :
    m'.cwd = m.cwd ∧ Confined (m.relOf path) (m.store spec) (m'.store spec) ∧
      OnlyMissing fat spec m m' ∧ (r = .ok () →
        ∃ i, (m'.store spec).node (m.relOf path) = some i ∧ (m'.store spec).data i = data) := by
  unfold writeFile at h
  rcases hc : m.create fat.toFatfs path with ⟨e | ⟨file, fs⟩, m₁⟩
  · rw [hc] at h
    obtain ⟨rfl, rfl⟩ := Prod.mk.inj h
    obtain ⟨hcwd, hconf, hmiss, -⟩ := create_spec spec hc
    exact ⟨hcwd, hconf, hmiss, nofun⟩
  rw [hc] at h
  dsimp only at h
  obtain ⟨hcwd, hconf, hmiss, hok⟩ := create_spec spec hc
  obtain ⟨hfs, hnode, hpos, -, -⟩ := hok file fs rfl
  have hstore : m₁.store spec = spec.store fs := by simp only [store, hfs]
  rw [← hstore] at hnode
  have hdone : ∀ fs' f, Writes (spec.file file) (m₁.store spec) (spec.store fs') →
      spec.file f = spec.file file → ((m₁.drop fat fs' f).store spec).node = (m₁.store spec).node ∧
        Confined (m.relOf path) (m.store spec) ((m₁.drop fat fs' f).store spec) ∧
        OnlyMissing fat spec m (m₁.drop fat fs' f) := by
    intro fs' f hw hf
    have hw' := hw.trans (hf ▸ spec.drop_file fs' f)
    exact ⟨hw'.node, hconf.trans (hw'.confined hnode), fun q i hq => hmiss q i (hw'.node ▸ hq)⟩
  split at h
  · rename_i f fs₁ htrunc
    obtain ⟨rfl, rfl⟩ := Prod.mk.inj h
    obtain ⟨hf, -, hw, -⟩ := spec.truncate_file htrunc
    obtain ⟨-, hconf', hmiss'⟩ := hdone fs₁ f (hstore ▸ hw) hf
    exact ⟨hcwd, hconf', hmiss', nofun⟩
  rename_i f fs₁ htrunc
  obtain ⟨hf, hp, hw, hcut⟩ := spec.truncate_file htrunc
  rw [← hstore] at hw
  split at h
  · rename_i f' fs₂ hall
    obtain ⟨rfl, rfl⟩ := Prod.mk.inj h
    obtain ⟨hf', hw', -⟩ := spec.writeAll_file hall
    rw [hf] at hw'
    obtain ⟨-, hconf', hmiss'⟩ := hdone fs₂ f' (hw.trans hw') (hf'.trans hf)
    exact ⟨hcwd, hconf', hmiss', nofun⟩
  rename_i f' fs₂ hall
  obtain ⟨hf', hw', hover⟩ := spec.writeAll_file hall
  rw [hf] at hw' hover
  split at h
  · rename_i f'' fs₃ hflush
    obtain ⟨rfl, rfl⟩ := Prod.mk.inj h
    obtain ⟨hf'', hw'', -⟩ := spec.flush_file hflush
    rw [hf', hf] at hw''
    obtain ⟨-, hconf', hmiss'⟩ :=
      hdone fs₃ f'' ((hw.trans hw').trans hw'') (hf''.trans (hf'.trans hf))
    exact ⟨hcwd, hconf', hmiss', nofun⟩
  · rename_i f'' fs₃ hflush
    obtain ⟨rfl, rfl⟩ := Prod.mk.inj h
    obtain ⟨hf'', hw'', hflushed⟩ := spec.flush_file hflush
    obtain ⟨hsame, hclean⟩ := hflushed rfl
    rw [hf', hf] at hw''
    obtain ⟨hnodes, hconf', hmiss'⟩ :=
      hdone fs₃ f'' ((hw.trans hw').trans hw'') (hf''.trans (hf'.trans hf))
    refine ⟨hcwd, hconf', hmiss', fun _ => ⟨spec.file file, hnodes ▸ hnode, ?_⟩⟩
    have hlast : (m₁.drop fat fs₃ f'').store spec = spec.store fs₂ :=
      (spec.drop_clean hclean).trans hsame
    change ((m₁.drop fat fs₃ f'').store spec).data (spec.file file) = data
    rw [hlast, hover rfl, hcut rfl, hp, hpos, List.take_zero, overwrite, List.take_zero,
      List.drop_nil, List.nil_append, List.append_nil]

theorem remove_cwd (fat : FatIo φ η) (m : Mount φ) (path : Bytes) :
    (m.remove fat path).2.cwd = m.cwd := by
  unfold remove
  split
  · rfl
  split
  · rfl
  split
  · rfl
  split <;> rfl

variable (spec) in
theorem remove_spec {r : Except FsError Unit} (h : m.remove fat path = (r, m')) :
    m'.cwd = m.cwd ∧ Confined (m.relOf path) (m.store spec) (m'.store spec) ∧
      (∀ q i, (m'.store spec).node q = some i → (m.store spec).node q = some i) ∧
      (r = .ok () → (m'.store spec).node (m.relOf path) = none) := by
  have hkeep : ∀ e : FsError, (.error e, m) = (r, m') → m'.cwd = m.cwd ∧
      Confined (m.relOf path) (m.store spec) (m'.store spec) ∧
      (∀ q i, (m'.store spec).node q = some i → (m.store spec).node q = some i) ∧
      (r = .ok () → (m'.store spec).node (m.relOf path) = none) := by
    intro e he
    obtain ⟨rfl, rfl⟩ := Prod.mk.inj he
    exact ⟨rfl, .refl _ _, fun _ _ hq => hq, nofun⟩
  unfold remove at h
  split at h
  · exact hkeep _ h
  rename_i r₀ hrel
  obtain rfl := pathRel_ok hrel
  split at h
  · exact hkeep _ h
  rename_i fs hfs
  have hstore : m.store spec = spec.store fs := by simp only [store, hfs]
  split at h
  · exact hkeep _ h
  rw [hstore]
  split at h
  · rename_i e fs' hremove
    obtain ⟨rfl, rfl⟩ := Prod.mk.inj h
    exact ⟨rfl, spec.remove_confined hremove, fun _ _ => spec.remove_new hremove, nofun⟩
  · rename_i fs' hremove
    obtain ⟨rfl, rfl⟩ := Prod.mk.inj h
    exact ⟨rfl, spec.remove_confined hremove, fun _ _ => spec.remove_new hremove, fun _ =>
      spec.remove_ok hremove⟩

variable (spec) in
theorem sync_spec {r : Except FsError Unit} (h : m.sync fat = (r, m')) :
    m'.cwd = m.cwd ∧ (m'.store spec = m.store spec ∨ m'.fs = none) := by
  unfold sync at h
  split at h
  · obtain ⟨rfl, rfl⟩ := Prod.mk.inj h
    exact ⟨rfl, .inl rfl⟩
  rename_i fs hfs
  have hstore : m.store spec = spec.store fs := by simp only [store, hfs]
  split at h
  all_goals
    rename_i hremount
    obtain ⟨rfl, rfl⟩ := Prod.mk.inj h
  · exact ⟨rfl, .inl ((spec.remount_some hremount).trans hstore.symm)⟩
  · exact ⟨rfl, .inl ((spec.remount_some hremount).trans hstore.symm)⟩
  · exact ⟨rfl, .inr rfl⟩

theorem listEntries_error {ents : List (Option FatEntry)} {e : FsError}
    (h : listEntries ents = .error e) : e = .io := by
  induction ents with
  | nil => cases h
  | cons ent rest ih =>
    cases ent with
    | none => exact (Except.error.inj h).symm
    | some ent =>
      rw [listEntries] at h
      split at h
      · exact ih h
      split at h
      · exact ih h
      cases hrest : listEntries rest with
      | error e' =>
        rw [hrest] at h
        exact ih (hrest.trans h)
      | ok _ =>
        rw [hrest] at h
        cases h

theorem list_error {e : FsError} (h : m.list fat.toFatfs path = .error e) (hne : e ≠ .noFs)
    (hio : e ≠ .io) : ∃ fs de, m.fs = some fs ∧ fat.openDir fs (m.relOf path) = .error de ∧
    mapDirErr de = e := by
  unfold list at h
  dsimp only at h
  split at h
  · exact absurd (Except.error.inj h).symm hne
  rename_i fs hfs
  split at h
  · exact absurd (listEntries_error h) hio
  split at h
  · rename_i de hopen
    exact ⟨fs, de, hfs, hopen, Except.error.inj h⟩
  · exact absurd (listEntries_error h) hio

theorem list_notFound (h : m.list fat.toFatfs path = .error .notFound) :
    (m.store spec).node (m.relOf path) = none := by
  obtain ⟨fs, de, hfs, hopen, hde⟩ := list_error h nofun nofun
  cases de with
  | notFound =>
    simp only [store, hfs]
    exact spec.openDir_notFound hopen
  | invalidInput | alreadyExists | other => cases hde

theorem OnlyMissing.not_new {i : spec.ι} (hmiss : OnlyMissing fat spec m m')
    (hlist : m.list fat.toFatfs path = .error .notDir)
    (h : (m'.store spec).node (m.relOf path) = some i) :
    (m.store spec).node (m.relOf path) ≠ none := by
  obtain ⟨fs, de, hfs, hopen, hde⟩ := list_error hlist nofun nofun
  refine (hmiss _ _ h).resolve_right ?_
  rintro ⟨fs', hfs', hmissed⟩
  obtain rfl := Option.some.inj (hfs.symm.trans hfs')
  obtain rfl := Except.error.inj (hopen.symm.trans hmissed)
  cases hde

end Spec

end Mount

section Flat

/-!
A volume without directories, whose files end at `cap` bytes: a name is found if a file has it.
-/

def putFlat (fs : Bytes → Option Bytes) (name d : Bytes) : Bytes → Option Bytes :=
  if (fs name).isSome then Function.update fs name (some d) else fs

def flatFat (cap : ℕ) : FatIo (Bytes → Option Bytes) (Bytes × ℕ) where
  rootDir _ := []
  openDir fs rel := if (fs rel).isSome then .error .invalidInput else .error .notFound
  createFile fs rel :=
    (.ok (rel, 0), if (fs rel).isSome then fs else Function.update fs rel (some []))
  truncate fs h := (true, h, putFlat fs h.1 (((fs h.1).getD []).take h.2))
  writeAll fs h src :=
    if (fs h.1).isSome then (true, h, putFlat fs h.1 (overwrite ((fs h.1).getD []) h.2 src))
      else (false, h, fs)
  flush fs h := (true, h, fs)
  drop fs _ := fs
  openFile fs rel := if (fs rel).isSome then .ok (rel, 0) else .error .notFound
  seek fs h off := (true, h.1, min off ((fs h.1).getD []).length)
  read fs h n := (some ((((fs h.1).getD []).drop h.2).take n), h)
  write fs h src :=
    if (fs h.1).isSome ∧ h.2 + src.length ≤ cap then
      (some src.length, h, putFlat fs h.1 (overwrite ((fs h.1).getD []) h.2 src))
    else (none, h, fs)
  remove fs rel :=
    if (fs rel).isSome then (.ok (), Function.update fs rel none) else (.error .notFound, fs)
  remount fs := (true, some fs)

def flatStore (fs : Bytes → Option Bytes) : FileStore Bytes Bytes UInt8 where
  node rel := (fs rel).map fun _ => rel
  data i := (fs i).getD []

variable {fs : Bytes → Option Bytes} {name d rel i : Bytes}

theorem flatStore_node : (flatStore fs).node rel = some i ↔ (fs rel).isSome = true ∧ i = rel := by
  cases hr : fs rel with
  | none => simp [flatStore, hr]
  | some b => simp [flatStore, hr, eq_comm]

theorem flatStore_none : (flatStore fs).node rel = none ↔ (fs rel).isSome = false := by
  cases hr : fs rel with
  | none => simp [flatStore, hr]
  | some b => simp [flatStore, hr]

theorem putFlat_writes (fs : Bytes → Option Bytes) (name d : Bytes) :
    Writes name (flatStore fs) (flatStore (putFlat fs name d)) := by
  unfold putFlat
  split
  · rename_i hn
    refine ⟨?_, fun {j} hj => by simp [flatStore, hj]⟩
    funext rel
    by_cases hr : rel = name
    · subst hr
      obtain ⟨b, hb⟩ := Option.isSome_iff_exists.mp hn
      simp [flatStore, hb]
    · simp [flatStore, hr]
  · exact .refl _ _

theorem putFlat_data (h : (fs name).isSome = true) :
    (flatStore (putFlat fs name d)).data name = d := by
  simp [putFlat, h, flatStore]

theorem update_confined (fs : Bytes → Option Bytes) (rel : Bytes) (v : Option Bytes) :
    Confined rel (flatStore fs) (flatStore (Function.update fs rel v)) where
  other := by
    intro q j hq hne
    obtain ⟨hs, rfl⟩ := flatStore_node.mp hq
    have hqr : j ≠ rel := by
      rintro rfl
      exact hne hq
    exact ⟨flatStore_node.mpr ⟨by rwa [Function.update_of_ne hqr], rfl⟩, by simp [flatStore, hqr]⟩
  names := by
    intro q hq
    by_cases hqr : q = rel
    · subst hqr
      exact .inl rfl
    · right
      have hnone : (flatStore fs).node q = none := by
        refine hq.elim (fun heq => ?_) id
        cases hs : (flatStore fs).node q with
        | none => rfl
        | some j =>
          obtain ⟨-, rfl⟩ := flatStore_node.mp hs
          obtain ⟨-, rfl⟩ := flatStore_node.mp (heq.symm.trans hs)
          exact absurd rfl hqr
      rw [flatStore_none] at hnone ⊢
      rwa [Function.update_of_ne hqr]
  fresh := by
    intro j hj
    obtain ⟨-, rfl⟩ := flatStore_node.mp hj
    by_cases hs : (fs j).isSome = true
    · exact .inl (flatStore_node.mpr ⟨hs, rfl⟩)
    · refine .inr fun q hq => hs ?_
      obtain ⟨hq, rfl⟩ := flatStore_node.mp hq
      exact hq

theorem createFlat {cap : ℕ} {r : Except FatError (Bytes × ℕ)} {fs' : Bytes → Option Bytes}
    (h : (flatFat cap).createFile fs rel = (r, fs')) : r = .ok (rel, 0) ∧ (fs' rel).isSome = true ∧
      ((fs rel).isSome = true ∧ fs' = fs ∨ (fs rel).isSome = false ∧
        fs' = Function.update fs rel (some [])) := by
  obtain ⟨rfl, rfl⟩ := Prod.mk.inj h
  by_cases hs : (fs rel).isSome = true
  · simp [hs]
  · simp [hs]

theorem removeFlat {cap : ℕ} {r : Except FatError Unit} {fs' : Bytes → Option Bytes}
    (h : (flatFat cap).remove fs rel = (r, fs')) : fs' = Function.update fs rel none := by
  simp only [flatFat] at h
  split at h
  · exact (Prod.mk.inj h).2.symm
  · rename_i hs
    rw [← (Prod.mk.inj h).2]
    have hnone : fs rel = none := by simpa using hs
    exact (Function.update_eq_self_iff.mpr hnone.symm).symm

def flatSpec (cap : ℕ) : FatSpec (flatFat cap) where
  ι := Bytes
  store := flatStore
  file := Prod.fst
  pos := Prod.snd
  Clean _ := True
  openDir_notFound := by
    intro fs rel h
    simp only [flatFat] at h
    split at h
    · cases h
    · rename_i hs
      exact flatStore_none.mpr (by simpa using hs)
  openFile_ok := by
    intro fs rel h hopen
    simp only [flatFat] at hopen
    split at hopen
    · rename_i hs
      obtain rfl := Except.ok.inj hopen
      exact ⟨flatStore_node.mpr ⟨hs, rfl⟩, rfl, trivial⟩
    · cases hopen
  createFile_confined := by
    intro fs rel r fs' h
    obtain ⟨-, -, ⟨-, rfl⟩ | ⟨-, rfl⟩⟩ := createFlat h
    · exact .refl _ _
    · exact update_confined fs rel _
  createFile_new := by
    intro fs rel r fs' q i h hq
    obtain ⟨hs, rfl⟩ := flatStore_node.mp hq
    by_cases hold : (fs i).isSome = true
    · left
      rw [flatStore_node.mpr ⟨hold, rfl⟩]
      nofun
    · right
      simp [flatFat, hold]
  createFile_ok := by
    intro fs rel h fs' hcreate
    obtain ⟨hr, hs, hcase⟩ := createFlat hcreate
    obtain rfl := Except.ok.inj hr
    refine ⟨flatStore_node.mpr ⟨hs, rfl⟩, rfl, trivial, fun hnone => ?_⟩
    rcases hcase with ⟨hold, -⟩ | ⟨-, rfl⟩
    · rw [flatStore_none.mp hnone] at hold
      cases hold
    · simp [flatStore]
  truncate_file := by
    intro fs h ok h' fs' ht
    obtain ⟨rfl, heq⟩ := Prod.mk.inj ht
    obtain ⟨rfl, rfl⟩ := Prod.mk.inj heq
    refine ⟨rfl, rfl, putFlat_writes _ _ _, fun _ => ?_⟩
    by_cases hs : (fs h.1).isSome = true
    · exact putFlat_data hs
    · simp [putFlat, flatStore, Option.not_isSome_iff_eq_none.mp hs]
  writeAll_file := by
    intro fs h src ok h' fs' hw
    simp only [flatFat] at hw
    split at hw
    · rename_i hs
      obtain ⟨rfl, heq⟩ := Prod.mk.inj hw
      obtain ⟨rfl, rfl⟩ := Prod.mk.inj heq
      exact ⟨rfl, putFlat_writes _ _ _, fun _ => putFlat_data hs⟩
    · obtain ⟨rfl, heq⟩ := Prod.mk.inj hw
      obtain ⟨rfl, rfl⟩ := Prod.mk.inj heq
      exact ⟨rfl, .refl _ _, nofun⟩
  flush_file := by
    intro fs h ok h' fs' hf
    obtain ⟨rfl, heq⟩ := Prod.mk.inj hf
    obtain ⟨rfl, rfl⟩ := Prod.mk.inj heq
    exact ⟨rfl, .refl _ _, fun _ => ⟨rfl, trivial⟩⟩
  drop_file fs h := .refl _ _
  drop_clean _ := rfl
  seek_file := by
    intro fs h off ok h' hs
    obtain ⟨rfl, rfl⟩ := Prod.mk.inj hs
    exact ⟨rfl, id, fun _ => rfl⟩
  read_file := by
    intro fs h n got h' hr
    obtain ⟨rfl, rfl⟩ := Prod.mk.inj hr
    refine ⟨rfl, id, fun bytes hb => ?_⟩
    obtain rfl := Option.some.inj hb
    rw [List.length_take, List.length_drop]
    refine ⟨?_, min_le_left _ _, fun hnil => ?_⟩
    · rw [← List.length_drop]
      exact List.take_eq_take_min
    · have hlen := congrArg List.length hnil
      rw [List.length_take, List.length_drop, List.length_nil] at hlen
      change n = 0 ∨ ((fs h.1).getD []).length ≤ h.2
      omega
  write_file := by
    intro fs h src got h' fs' hw
    simp only [flatFat] at hw
    split at hw
    · rename_i hs
      obtain ⟨rfl, heq⟩ := Prod.mk.inj hw
      obtain ⟨rfl, rfl⟩ := Prod.mk.inj heq
      refine ⟨rfl, putFlat_writes _ _ _, fun n hn => ?_⟩
      obtain rfl := Option.some.inj hn
      rw [List.take_length]
      exact ⟨le_rfl, putFlat_data hs.1⟩
    · obtain ⟨rfl, heq⟩ := Prod.mk.inj hw
      obtain ⟨rfl, rfl⟩ := Prod.mk.inj heq
      exact ⟨rfl, .refl _ _, nofun⟩
  remove_confined := by
    intro fs rel r fs' h
    rw [removeFlat h]
    exact update_confined fs rel none
  remove_new := by
    intro fs rel r fs' q i h hq
    rw [removeFlat h, flatStore_node] at hq
    obtain ⟨hs, rfl⟩ := hq
    refine flatStore_node.mpr ⟨?_, rfl⟩
    by_cases hqr : i = rel
    · subst hqr
      simp at hs
    · rwa [Function.update_of_ne hqr] at hs
  remove_ok := by
    intro fs rel fs' h
    rw [removeFlat h]
    simp [flatStore]
  remount_some := by
    intro fs ok fs' h
    obtain ⟨-, h⟩ := Prod.mk.inj h
    obtain rfl := Option.some.inj h
    rfl

end Flat

end CoeleoOs.Fs
