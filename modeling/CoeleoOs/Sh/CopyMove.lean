import CoeleoOs.Sh.Cwd
import CoeleoOs.Sh.Files

/-!
# `cp` and `mv`

`copy_file` opens its source, opens its destination and makes it empty, and copies. `mv` is a
copy and an `unlink` of the source. Any call may fail.
-/

namespace CoeleoOs.Sh
open CoeleoOs.Lib CoeleoOs.Lib.FileStore CoeleoOs.Lib.Text CoeleoOs.Fs
open CoeleoOs.Task (Bytes FdTable OpenFd err)

variable {φ η : Type}

/-- `copy_file` up to its loop. -/
def openPair (fat : FatIo φ η) (src dst : Bytes) (s : Files φ) : Option (ℕ × ℕ) × Files φ :=
  match s.openPath fat src openRead with
  | (none, s) => (none, s)
  | (some inFd, s) =>
    match s.readdir inFd with
    | (some _, s) => (none, s.close inFd)
    | (none, s) =>
      match s.openPath fat dst openNew with
      | (none, s) => (none, s.close inFd)
      | (some outFd, s) => (some (inFd, outFd), s)

def bufLen : ℕ := 512

def copyLoop (fat : FatIo φ η) (inFd outFd : ℕ) : ℕ → Files φ → Outcome × Files φ
  | 0, s => (.running, s)
  | fuel + 1, s =>
    match s.read fat inFd bufLen with
    | (none, s) => (.err, s)
    | (some [], s) => (.ok, s)
    | (some (b :: bs), s) =>
      match writeRest fat bufLen outFd fuel (b :: bs) s with
      | (.ok, s) => copyLoop fat inFd outFd fuel s
      | (.err, s) => (.err, s)
      | (.running, s) => (.running, s)

def copyFile (fat : FatIo φ η) (fuel : ℕ) (src dst : Bytes) (s : Files φ) : Outcome × Files φ :=
  match openPair fat src dst s with
  | (none, s) => (.err, s)
  | (some (inFd, outFd), s) =>
    match copyLoop fat inFd outFd fuel s with
    | (.running, s) => (.running, s)
    | (r, s) => (r, (s.close inFd).close outFd)

def moveFile (fat : FatIo φ η) (fuel : ℕ) (src dst : Bytes) (s : Files φ) : Outcome × Files φ :=
  match copyFile fat fuel src dst s with
  | (.ok, s) => (if (s.unlink fat src).1 then .ok else .err, (s.unlink fat src).2)
  | (r, s) => (r, s)

def twoPaths (cwd : Bytes) (args : List Char) : Option (Bytes × Bytes) :=
  match splitWhitespace args with
  | src :: dst :: _ => some (resolve cwd (utf8 src), resolve cwd (utf8 dst))
  | _ => none

def cmdCp (fat : FatIo φ η) (fuel : ℕ) (cwd : Bytes) (args : List Char) (s : Files φ) :
    String × Files φ :=
  match twoPaths cwd args with
  | none => ("cp: missing path\n", s)
  | some (src, dst) =>
    match copyFile fat fuel src dst s with
    | (.err, s) => ("cp: failed\n", s)
    | (_, s) => ("", s)

def cmdMv (fat : FatIo φ η) (fuel : ℕ) (cwd : Bytes) (args : List Char) (s : Files φ) :
    String × Files φ :=
  match twoPaths cwd args with
  | none => ("mv: missing path\n", s)
  | some (src, dst) =>
    match moveFile fat fuel src dst s with
    | (.err, s) => ("mv: failed\n", s)
    | (_, s) => ("", s)

section Loops

variable {fat : FatIo φ η} (spec : FatSpec fat) {s s' : Files φ} {r : Outcome}

structure Copying (spec : FatSpec fat) (p q src dst : Bytes) (inFd outFd : ℕ) (b : Bytes)
    (s : Files φ) (n : ℕ) : Prop where
  src_rel : s.mount.relOf src = p
  dst_rel : s.mount.relOf dst = q
  apart : ¬FileStore.SameFile (s.mount.store spec) p q
  fd_ne : inFd ≠ outFd
  in_fd : s.fds.getMut inFd = some (.file src n false)
  out_fd : s.fds.getMut outFd = some (.file dst n true)
  le : n ≤ b.length
  src_content : (s.mount.store spec).content p = some b
  dst_content : (s.mount.store spec).content q = some (b.take n)

theorem copyLoop_spec {p q src dst b : Bytes} {inFd outFd n fuel : ℕ}
    (hc : Copying spec p q src dst inFd outFd b s n)
    (h : copyLoop fat inFd outFd fuel s = (r, s')) :
    s'.mount.cwd = s.mount.cwd ∧ Confined q (s.mount.store spec) (s'.mount.store spec) ∧
      (r = .ok → (s'.mount.store spec).content q = some b) := by
  induction fuel generalizing s n with
  | zero =>
    obtain ⟨rfl, rfl⟩ := Prod.mk.inj h
    exact ⟨rfl, .refl _ _, nofun⟩
  | succ fuel ih =>
    obtain ⟨i, hi, hdi⟩ := content_eq_some.mp hc.src_content
    rw [copyLoop] at h
    rcases hr : s.read fat inFd bufLen with ⟨_ | got, s₁⟩
    · rw [hr] at h
      obtain ⟨rfl, rfl⟩ := Prod.mk.inj h
      obtain ⟨hcwd, hstore, -, -⟩ := Files.read_spec spec hc.in_fd (by decide) hr
      exact ⟨hcwd, hstore ▸ .refl _ _, nofun⟩
    obtain ⟨hcwd, hstore, -, hok⟩ := Files.read_spec spec hc.in_fd (by decide) hr
    obtain ⟨hfds, j, hj, hgot, hend⟩ := hok got rfl
    rw [hc.src_rel] at hj
    obtain rfl := Option.some.inj (hi.symm.trans hj)
    rw [hdi, min_eq_left hc.le] at hgot
    rw [hdi] at hend
    rw [hr] at h
    cases got with
    | nil =>
      obtain ⟨rfl, rfl⟩ := Prod.mk.inj h
      refine ⟨hcwd, hstore ▸ .refl _ _, fun _ => ?_⟩
      rw [hstore, hc.dst_content, List.take_of_length_le (hend rfl)]
    | cons x xs =>
      dsimp only at h
      obtain ⟨got, hcons⟩ : ∃ got, got = x :: xs := ⟨_, rfl⟩
      rw [← hcons] at h hgot hfds
      have hlen : n + got.length ≤ b.length := by
        have hle := congrArg List.length hgot
        rw [List.length_take, List.length_drop] at hle
        have := hc.le
        omega
      have hout : s₁.fds.getMut outFd = some (.file dst (b.take n).length true) := by
        rw [hfds, FdTable.getMut_put_of_ne hc.fd_ne.symm, hc.out_fd, List.length_take,
          min_eq_left hc.le]
      have hdst : s₁.content spec dst = some (b.take n) := by
        rw [Files.content, Mount.content, Mount.relOf_congr hcwd, hc.dst_rel, hstore,
          hc.dst_content]
      rcases hw : writeRest fat bufLen outFd fuel got s₁ with ⟨r₂, s₂⟩
      obtain ⟨hcwd₂, hconf, hdone⟩ := writeRest_spec spec hout hdst hw
      rw [Mount.relOf_congr hcwd, hc.dst_rel, hstore] at hconf
      rw [hw] at h
      cases r₂ with
      | err | running =>
        obtain ⟨rfl, rfl⟩ := Prod.mk.inj h
        exact ⟨hcwd₂.trans hcwd, hconf, nofun⟩
      | ok =>
        dsimp only at h
        obtain ⟨hget, hother, hcontent⟩ := hdone rfl
        have hrel := Mount.relOf_congr (hcwd₂.trans hcwd)
        have hnext : Copying spec p q src dst inFd outFd b s₂ (n + got.length) := by
          refine ⟨(hrel src).trans hc.src_rel, (hrel dst).trans hc.dst_rel,
            hconf.not_same hi hc.apart, hc.fd_ne, ?_, ?_, hlen,
            hconf.content_other hc.apart hc.src_content, ?_⟩
          · rw [hother inFd hc.fd_ne, hfds]
            exact FdTable.getMut_put_self hc.in_fd _
          · rw [hget, List.length_take, min_eq_left hc.le]
          · rw [Files.content, Mount.content, hrel, hc.dst_rel] at hcontent
            rw [hcontent, List.take_add, hgot, List.length_take, List.length_drop,
              Nat.min_eq_left (Nat.le_sub_of_add_le (Nat.add_comm n _ ▸ hlen))]
        obtain ⟨hcwd₃, hconf₃, hlast⟩ := ih hnext h
        exact ⟨hcwd₃.trans (hcwd₂.trans hcwd), hconf.trans hconf₃, hlast⟩

theorem copyLoop_missing {inFd outFd fuel off : ℕ} {w : Bool} {src : Bytes}
    (hfd : s.fds.getMut inFd = some (.file src off w))
    (hsrc : (s.mount.store spec).node (s.mount.relOf src) = none)
    (h : copyLoop fat inFd outFd fuel s = (r, s')) :
    s'.mount.cwd = s.mount.cwd ∧ s'.mount.store spec = s.mount.store spec ∧ r ≠ .ok := by
  cases fuel with
  | zero =>
    obtain ⟨rfl, rfl⟩ := Prod.mk.inj h
    exact ⟨rfl, rfl, nofun⟩
  | succ fuel =>
    rw [copyLoop] at h
    rcases hr : s.read fat inFd bufLen with ⟨_ | got, s₁⟩
    · rw [hr] at h
      obtain ⟨rfl, rfl⟩ := Prod.mk.inj h
      obtain ⟨hcwd, hstore, -, -⟩ := Files.read_spec spec hfd (by decide) hr
      exact ⟨hcwd, hstore, nofun⟩
    · obtain ⟨-, -, -, hok⟩ := Files.read_spec spec hfd (by decide) hr
      obtain ⟨-, i, hi, -⟩ := hok got rfl
      exact absurd (hsrc.symm.trans hi) nofun

end Loops

section Files

variable {fat : FatIo φ η} (spec : FatSpec fat) {s s' : Files φ} {src dst : Bytes}

theorem openPair_spec {r : Option (ℕ × ℕ)} (h : openPair fat src dst s = (r, s')) :
    s'.mount.cwd = s.mount.cwd ∧
      Confined (s.mount.relOf dst) (s.mount.store spec) (s'.mount.store spec) ∧
      ∀ inFd outFd, r = some (inFd, outFd) → inFd ≠ outFd ∧ s'.fds.getMut inFd =
        some (.file src 0 false) ∧ s'.fds.getMut outFd = some (.file dst 0 true) ∧
        (s'.mount.store spec).content (s.mount.relOf dst) = some [] ∧
        ∀ i, (s'.mount.store spec).node (s.mount.relOf src) = some i →
          (s.mount.store spec).node (s.mount.relOf src) ≠ none := by
  unfold openPair at h
  rcases hin : s.openPath fat src openRead with ⟨_ | inFd, s₁⟩
  · rw [hin] at h
    obtain ⟨rfl, rfl⟩ := Prod.mk.inj h
    rw [(Files.openPath_read hin).1]
    exact ⟨rfl, .refl _ _, nofun⟩
  obtain ⟨hm₁, hfd⟩ := Files.openPath_read hin
  rw [hin] at h
  dsimp only at h
  rcases hdir : s₁.readdir inFd with ⟨_ | ent, s₂⟩
  swap
  · rw [hdir] at h
    obtain ⟨rfl, rfl⟩ := Prod.mk.inj h
    have hm₂ := readdir_mount s₁ inFd
    rw [hdir, hm₁] at hm₂
    rw [close_mount, hm₂]
    exact ⟨rfl, .refl _ _, nofun⟩
  rw [hdir] at h
  dsimp only at h
  obtain ⟨hget, hlist⟩ : s₁.fds.getMut inFd = some (.file src 0 false) ∧
      s.mount.list fat.toFatfs src = .error .notDir := by
    refine (hfd inFd rfl).resolve_left ?_
    rintro ⟨ents, hents⟩
    unfold Files.readdir at hdir
    rw [hents] at hdir
    dsimp only at hdir
    split at hdir <;> cases (Prod.mk.inj hdir).1
  obtain rfl : s₁ = s₂ := by
    unfold Files.readdir at hdir
    rw [hget] at hdir
    exact (Prod.mk.inj hdir).2
  rcases hout : s₁.openPath fat dst openNew with ⟨_ | outFd, s₃⟩
  · rw [hout] at h
    obtain ⟨rfl, rfl⟩ := Prod.mk.inj h
    obtain ⟨hcwd, hconf, -, -⟩ := Files.openPath_new spec hout
    rw [hm₁] at hcwd hconf
    rw [close_mount]
    exact ⟨hcwd, hconf, nofun⟩
  · rw [hout] at h
    obtain ⟨rfl, rfl⟩ := Prod.mk.inj h
    obtain ⟨hcwd, hconf, hmiss, hopen⟩ := Files.openPath_new spec hout
    obtain ⟨hfree, hget', hother, hempty⟩ := hopen outFd rfl
    rw [hm₁] at hcwd hconf hmiss hempty
    refine ⟨hcwd, hconf, fun a b hab => ?_⟩
    obtain ⟨rfl, rfl⟩ := Prod.mk.inj (Option.some.inj hab)
    have hne : inFd ≠ outFd := by
      rintro rfl
      rw [hget] at hfree
      cases hfree
    refine ⟨hne, (hother inFd hne).trans hget, hget', hempty, fun i hi => ?_⟩
    exact hmiss.not_new hlist hi

theorem copyFile_spec {fuel : ℕ} {r : Outcome} (hne : ¬s.SameFile spec src dst)
    (h : copyFile fat fuel src dst s = (r, s')) :
    s'.mount.cwd = s.mount.cwd ∧
      Confined (s.mount.relOf dst) (s.mount.store spec) (s'.mount.store spec) ∧
      (r = .ok → ∃ b, s.content spec src = some b ∧ s'.content spec dst = some b) := by
  unfold copyFile at h
  rcases hp : openPair fat src dst s with ⟨_ | ⟨inFd, outFd⟩, s₁⟩
  · rw [hp] at h
    obtain ⟨rfl, rfl⟩ := Prod.mk.inj h
    obtain ⟨hcwd, hconf, -⟩ := openPair_spec spec hp
    exact ⟨hcwd, hconf, by simp⟩
  obtain ⟨hcwd, hconf, hopen⟩ := openPair_spec spec hp
  obtain ⟨hfd, hin, hout, hempty, hold⟩ := hopen inFd outFd rfl
  rw [hp] at h
  dsimp only at h
  rcases hl : copyLoop fat inFd outFd fuel s₁ with ⟨r₂, s₂⟩
  have hrel := Mount.relOf_congr hcwd
  obtain ⟨hcwd', hconf', hok⟩ : s₂.mount.cwd = s.mount.cwd ∧
      Confined (s.mount.relOf dst) (s.mount.store spec) (s₂.mount.store spec) ∧
      (r₂ = .ok → ∃ b, s.content spec src = some b ∧ s₂.content spec dst = some b) := by
    cases hsrc : s.content spec src with
    | some b =>
      obtain ⟨i, hi, -⟩ := content_eq_some.mp hsrc
      have hcopy : Copying spec (s.mount.relOf src) (s.mount.relOf dst) src dst inFd outFd b s₁ 0 :=
        ⟨hrel src, hrel dst, hconf.not_same hi hne, hfd, hin, hout, Nat.zero_le _,
          hconf.content_other hne hsrc, hempty⟩
      obtain ⟨hc, hcf, hdone⟩ := copyLoop_spec spec hcopy hl
      refine ⟨hc.trans hcwd, hconf.trans hcf, fun hr => ⟨b, rfl, ?_⟩⟩
      rw [Files.content, Mount.content, Mount.relOf_congr (hc.trans hcwd)]
      exact hdone hr
    | none =>
      have hnode : (s₁.mount.store spec).node (s₁.mount.relOf src) = none := by
        rw [hrel]
        by_contra hsome
        obtain ⟨i, hi⟩ := Option.ne_none_iff_exists'.mp hsome
        obtain ⟨j, hj⟩ := Option.ne_none_iff_exists'.mp (hold i hi)
        rw [Files.content, Mount.content, content_of_node hj] at hsrc
        cases hsrc
      obtain ⟨hcwd₂, hstore, hno⟩ := copyLoop_missing spec hin hnode hl
      exact ⟨hcwd₂.trans hcwd, hstore ▸ hconf, fun hr => absurd hr hno⟩
  cases r₂ with
  | running =>
    rw [hl] at h
    obtain ⟨rfl, rfl⟩ := Prod.mk.inj h
    exact ⟨hcwd', hconf', by simp⟩
  | ok | err =>
    rw [hl] at h
    obtain ⟨rfl, rfl⟩ := Prod.mk.inj h
    simp only [Files.content, close_mount] at hok ⊢
    exact ⟨hcwd', hconf', hok⟩

/-- A copy that reports success has made the destination what the source was. -/
def CopyKeeps (s : Files φ) (src dst : Bytes) : Prop :=
  ∀ fuel s', copyFile fat fuel src dst s = (.ok, s') → ∃ b, s.content spec src = some b ∧
    s'.content spec dst = some b ∧ (¬s.SameFile spec src dst → s'.content spec src = some b)

/-- After a move, in whatever way it ended, the bytes are under one of the names. -/
def MoveKeeps (s : Files φ) (src dst : Bytes) : Prop :=
  ∀ fuel r s' b, moveFile fat fuel src dst s = (r, s') → r ≠ .running →
    s.content spec src = some b → s'.content spec src = some b ∨ s'.content spec dst = some b

/-- The calls that open the files leave the bytes; if both files are open, so that the file is
empty, it was empty before, and the read that follows fails or the `unlink` spares the file. -/
def Spared (s : Files φ) (src dst : Bytes) : Prop :=
  ∀ b, s.content spec src = some b →
    ((openPair fat src dst s).2.content spec src = some b ∨
      (openPair fat src dst s).2.content spec dst = some b) ∧
      ∀ inFd outFd, (openPair fat src dst s).1 = some (inFd, outFd) →
        ((openPair fat src dst s).2.read fat inFd bufLen).1 = none ∨
          let s' :=
            (((((openPair fat src dst s).2.read fat inFd bufLen).2.close inFd).close outFd).unlink
              fat src).2
          s'.content spec src = some b ∨ s'.content spec dst = some b

theorem copyKeeps_apart (hne : ¬s.SameFile spec src dst) : CopyKeeps spec s src dst := by
  intro fuel s' h
  obtain ⟨hcwd, hconf, hok⟩ := copyFile_spec spec hne h
  obtain ⟨b, hsrc, hdst⟩ := hok rfl
  refine ⟨b, hsrc, hdst, fun _ => ?_⟩
  rw [Files.content, Mount.content, Mount.relOf_congr hcwd]
  exact hconf.content_other hne hsrc

theorem moveKeeps_apart (hne : ¬s.SameFile spec src dst) : MoveKeeps spec s src dst := by
  intro fuel r s' b h _ hb
  unfold moveFile at h
  rcases hc : copyFile fat fuel src dst s with ⟨r₁, s₁⟩
  obtain ⟨hcwd, hconf, hok⟩ := copyFile_spec spec hne hc
  have hkept : s₁.content spec src = some b := by
    rw [Files.content, Mount.content, Mount.relOf_congr hcwd]
    exact hconf.content_other hne hb
  rw [hc] at h
  cases r₁ with
  | err | running =>
    obtain ⟨-, rfl⟩ := Prod.mk.inj h
    exact .inl hkept
  | ok =>
    obtain ⟨-, rfl⟩ := Prod.mk.inj h
    obtain ⟨b', hb', hdst⟩ := hok rfl
    obtain rfl := Option.some.inj (hb.symm.trans hb')
    obtain ⟨i, hi, -⟩ := content_eq_some.mp hb
    have hapart :
        ¬FileStore.SameFile (s₁.mount.store spec) (s₁.mount.relOf dst) (s₁.mount.relOf src) := by
      rw [Mount.relOf_congr hcwd, Mount.relOf_congr hcwd]
      exact fun hsame => hconf.not_same hi hne hsame.symm
    obtain ⟨hcwd', hconf', -⟩ := Files.unlink_spec spec (Prod.mk.eta (p := s₁.unlink fat src)).symm
    right
    rw [Files.content, Mount.content, Mount.relOf_congr hcwd']
    exact hconf'.content_other hapart hdst

section Alias

variable {inFd outFd : ℕ} {s₁ : Files φ}

theorem alias_content (hsame : s.SameFile spec src dst)
    (h : openPair fat src dst s = (some (inFd, outFd), s₁)) :
    s₁.content spec dst = some [] ∧ ∀ b, s₁.content spec src = some b → b = [] := by
  obtain ⟨hcwd, hconf, hopen⟩ := openPair_spec spec h
  obtain ⟨-, -, -, hempty, -⟩ := hopen inFd outFd rfl
  simp only [Files.content, Mount.content, Mount.relOf_congr hcwd]
  refine ⟨hempty, fun b hb => ?_⟩
  obtain ⟨i, hi, hj⟩ := hsame
  rcases hconf.names (.inl (hi.trans hj.symm)) with heq | hnone
  · rw [content, heq] at hb
    exact Option.some.inj (hb.symm.trans hempty)
  · rw [content, hnone] at hb
    cases hb

theorem alias_read {got : Bytes} {s₂ : Files φ} (hsame : s.SameFile spec src dst)
    (h : openPair fat src dst s = (some (inFd, outFd), s₁))
    (hr : s₁.read fat inFd bufLen = (some got, s₂)) : got = [] := by
  obtain ⟨-, hsrc⟩ := alias_content spec hsame h
  obtain ⟨-, -, hopen⟩ := openPair_spec spec h
  obtain ⟨-, hin, -⟩ := hopen inFd outFd rfl
  obtain ⟨-, -, -, hok⟩ := Files.read_spec spec hin (by decide) hr
  obtain ⟨-, i, hi, hgot, -⟩ := hok got rfl
  rw [hsrc _ (content_of_node hi), List.drop_nil, List.take_nil] at hgot
  exact hgot

theorem alias_copy (hsame : s.SameFile spec src dst)
    (h : openPair fat src dst s = (some (inFd, outFd), s₁)) (fuel : ℕ) :
    copyFile fat (fuel + 1) src dst s =
      (if (s₁.read fat inFd bufLen).1 = none then .err else .ok,
        ((s₁.read fat inFd bufLen).2.close inFd).close outFd) := by
  unfold copyFile
  rw [h]
  dsimp only
  rw [copyLoop]
  rcases hr : s₁.read fat inFd bufLen with ⟨_ | got, s₂⟩
  · rfl
  · obtain rfl := alias_read spec hsame h hr
    rfl

theorem alias_store (h : openPair fat src dst s = (some (inFd, outFd), s₁)) (path : Bytes) :
    (((s₁.read fat inFd bufLen).2.close inFd).close outFd).content spec path =
      s₁.content spec path := by
  obtain ⟨-, -, hopen⟩ := openPair_spec spec h
  obtain ⟨-, hin, -⟩ := hopen inFd outFd rfl
  obtain ⟨hcwd, hstore, -⟩ :=
    Files.read_spec spec hin (by decide) (Prod.mk.eta (p := s₁.read fat inFd bufLen)).symm
  simp only [Files.content, Mount.content, close_mount, Mount.relOf_congr hcwd, hstore]

theorem alias_iff (hsame : s.SameFile spec src dst) :
    (CopyKeeps spec s src dst ∧ MoveKeeps spec s src dst) ↔ Spared spec s src dst := by
  have hb : ∀ b, s.content spec src = some b ↔ s.content spec dst = some b := fun b => by
    rw [Files.content, Files.content, Mount.content, Mount.content,
      FileStore.SameFile.content_eq hsame]
  rcases hp : openPair fat src dst s with ⟨_ | ⟨inFd, outFd⟩, s₁⟩
  · have hcopy : ∀ fuel, copyFile fat fuel src dst s = (.err, s₁) := fun fuel => by
      rw [copyFile, hp]
    have hmove : ∀ fuel, moveFile fat fuel src dst s = (.err, s₁) := fun fuel => by
      rw [moveFile, hcopy]
    constructor
    · rintro ⟨-, hkeeps⟩ b hsrc
      rw [hp]
      exact ⟨hkeeps 0 .err s₁ b (hmove 0) (by simp) hsrc, by simp⟩
    · intro hspared
      refine ⟨fun fuel s' h => ?_, fun fuel r s' b h _ hsrc => ?_⟩
      · rw [hcopy] at h
        cases h
      · obtain ⟨-, rfl⟩ := Prod.mk.inj ((hmove fuel).symm.trans h)
        have hleft := (hspared b hsrc).1
        rwa [hp] at hleft
  · obtain ⟨hempty, -⟩ := alias_content spec hsame hp
    have hcopy := alias_copy spec hsame hp
    have hstore := alias_store spec hp
    obtain ⟨s₂, hs₂⟩ : ∃ s₂, s₂ = ((s₁.read fat inFd bufLen).2.close inFd).close outFd := ⟨_, rfl⟩
    rw [← hs₂] at hstore
    constructor
    · rintro ⟨hcp, hmv⟩ b hsrc
      rw [hp]
      by_cases hread : (s₁.read fat inFd bufLen).1 = none
      · have hmove : moveFile fat 1 src dst s = (.err, s₂) := by
          rw [moveFile, hcopy 0, if_pos hread, ← hs₂]
        have hleft := hmv 1 .err s₂ b hmove (by simp) hsrc
        rw [hstore, hstore] at hleft
        refine ⟨hleft, fun a c hac => .inl ?_⟩
        obtain ⟨rfl, rfl⟩ := Prod.mk.inj (Option.some.inj hac)
        exact hread
      · have hok : copyFile fat 1 src dst s = (.ok, s₂) := by
          rw [hcopy 0, if_neg hread, ← hs₂]
        obtain ⟨b', hb', hdst, -⟩ := hcp 1 s₂ hok
        obtain rfl := Option.some.inj (hsrc.symm.trans hb')
        have hmove : moveFile fat 1 src dst s =
            (if (s₂.unlink fat src).1 then .ok else .err, (s₂.unlink fat src).2) := by
          rw [moveFile, hok]
        refine ⟨.inr ((hstore dst).symm.trans hdst), fun a c hac => .inr ?_⟩
        obtain ⟨rfl, rfl⟩ := Prod.mk.inj (Option.some.inj hac)
        rw [← hs₂]
        exact hmv 1 _ _ b hmove (by split <;> simp) hsrc
    · intro hspared
      have hmain : ∀ b, s.content spec src = some b → b = [] ∧ ((s₁.read fat inFd bufLen).1 = none ∨
          (s₂.unlink fat src).2.content spec src = some b ∨ (s₂.unlink fat src).2.content spec dst =
            some b) := by
        intro b hsrc
        have h := hspared b hsrc
        rw [hp] at h
        dsimp only at h
        obtain ⟨hleft, hrest⟩ := h
        refine ⟨hleft.elim ((alias_content spec hsame hp).2 b) fun hdst =>
          Option.some.inj (hdst.symm.trans hempty), ?_⟩
        rw [hs₂]
        exact hrest inFd outFd rfl
      refine ⟨fun fuel s' h => ?_, fun fuel r s' b h hr hsrc => ?_⟩
      · cases fuel with
        | zero =>
          rw [copyFile, hp] at h
          cases h
        | succ fuel =>
          rw [hcopy fuel] at h
          obtain ⟨-, rfl⟩ := Prod.mk.inj h
          obtain ⟨i, hi, -⟩ := id hsame
          have hsrc : s.content spec src = some ((s.mount.store spec).data i) := content_of_node hi
          obtain ⟨hnil, -⟩ := hmain _ hsrc
          rw [← hs₂]
          refine ⟨_, hsrc, ?_, fun hne => absurd hsame hne⟩
          rw [hstore, hempty, hnil]
      · obtain ⟨rfl, hgone⟩ := hmain b hsrc
        cases fuel with
        | zero =>
          rw [moveFile, copyFile, hp] at h
          exact absurd (Prod.mk.inj h).1.symm hr
        | succ fuel =>
          rw [moveFile, hcopy fuel, ← hs₂] at h
          by_cases hread : (s₁.read fat inFd bufLen).1 = none
          · rw [if_pos hread] at h
            obtain ⟨-, rfl⟩ := Prod.mk.inj h
            exact .inr ((hstore dst).trans hempty)
          · rw [if_neg hread] at h
            obtain ⟨-, rfl⟩ := Prod.mk.inj h
            exact hgone.resolve_left hread

end Alias

/-- Neither command loses bytes, unless both arguments name one file and the calls on it go
through. -/
theorem copy_move_keep_iff : (CopyKeeps spec s src dst ∧ MoveKeeps spec s src dst) ↔
    (s.SameFile spec src dst → Spared spec s src dst) := by
  by_cases hsame : s.SameFile spec src dst
  · rw [alias_iff spec hsame]
    exact ⟨fun h _ => h, fun h => h hsame⟩
  · exact iff_of_true ⟨copyKeeps_apart spec hsame, moveKeeps_apart spec hsame⟩ fun h =>
      absurd h hsame

end Files

section Flat

def oneFile : Files (Bytes → Option Bytes) :=
  ⟨⟨some (fun name => if name = [0x61] then some [0x78] else none), [slash]⟩, .newStdio⟩

theorem copy_to_new_name : (CopyKeeps (flatSpec 16) oneFile [0x2F, 0x61] [0x2F, 0x62] ∧
      MoveKeeps (flatSpec 16) oneFile [0x2F, 0x61] [0x2F, 0x62]) ∧
    (moveFile (flatFat 16) 3 [0x2F, 0x61] [0x2F, 0x62] oneFile).1 = .ok := by
  refine ⟨(copy_move_keep_iff (flatSpec 16)).mpr ?_, by decide⟩
  rintro ⟨i, hi, hj⟩
  cases hj

theorem copy_onto_itself : ¬CopyKeeps (flatSpec 16) oneFile [0x2F, 0x61] [0x2F, 0x61] ∧
    ¬MoveKeeps (flatSpec 16) oneFile [0x2F, 0x61] [0x2F, 0x61] := by
  have hsrc : oneFile.content (flatSpec 16) [0x2F, 0x61] = some [0x78] := by decide
  have hcopy : copyFile (flatFat 16) 1 [0x2F, 0x61] [0x2F, 0x61] oneFile =
      (.ok, (copyFile (flatFat 16) 1 [0x2F, 0x61] [0x2F, 0x61] oneFile).2) :=
    Prod.ext (by decide) rfl
  have hmove : moveFile (flatFat 16) 1 [0x2F, 0x61] [0x2F, 0x61] oneFile =
      (.ok, (moveFile (flatFat 16) 1 [0x2F, 0x61] [0x2F, 0x61] oneFile).2) :=
    Prod.ext (by decide) rfl
  constructor
  · intro h
    obtain ⟨b, hb, hdst, -⟩ := h 1 _ hcopy
    obtain rfl := Option.some.inj (hsrc.symm.trans hb)
    revert hdst
    decide
  · intro h
    have hlost := h 1 .ok _ [0x78] hmove nofun hsrc
    revert hlost
    decide

end Flat

end CoeleoOs.Sh
