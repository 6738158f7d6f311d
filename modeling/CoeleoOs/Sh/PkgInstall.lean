import CoeleoOs.Package.Format
import CoeleoOs.Sh.Cwd
import CoeleoOs.Sh.Files

/-!
# `pkg install`

A package is read from a file or fetched, parsed and verified, and its payload written to
`/bin/<name>`. What the network answers to a URL and what the signature check accepts are
parameters.
-/

namespace CoeleoOs.Sh
open CoeleoOs.Lib CoeleoOs.Lib.FileStore CoeleoOs.Lib.Text CoeleoOs.Fs CoeleoOs.Package
open CoeleoOs.Task (Bytes HttpError utf8Valid)

variable {φ η : Type}

def pkgCap : ℕ := payloadMax
def pkgChunk : ℕ := 4096

inductive PkgReport
  | failed | badPackage | badSignature
  | installed (name : List Char)
  /-- Still in a loop. -/
  | running
  deriving DecidableEq

def PkgReport.text : PkgReport → Bytes
  | .failed => utf8 "pkg: failed\n".toList
  | .badPackage => utf8 "pkg: bad package\n".toList
  | .badSignature => utf8 "pkg: bad signature\n".toList
  | .installed name => utf8 "pkg: installed ".toList ++ utf8 name ++ [0x0A]
  | .running => []

def isUrl (arg : List Char) : Bool :=
  "http://".toList.isPrefixOf arg || "https://".toList.isPrefixOf arg

def openPackage (fat : FatIo φ η) (cwd : Bytes) (arg : List Char) (s : Files φ) :
    Option ℕ × Files φ :=
  match s.openPath fat (resolve cwd (utf8 arg)) openRead with
  | (some fd, s) => (some fd, s)
  | (none, s) =>
    if '/' ∈ arg then (none, s)
    else
      let pacPath := utf8 "/pacotes/".toList ++ ((utf8 arg).take 32 ++ utf8 ".coe".toList)
      if utf8Valid pacPath then s.openPath fat pacPath openRead else (none, s)

def readPackage (fat : FatIo φ η) (fd : ℕ) : ℕ → Bytes → Files φ → Except PkgReport Bytes × Files φ
  | 0, _, s => (.error .running, s)
  | fuel + 1, buf, s =>
    if pkgCap ≤ buf.length then (.error .badPackage, s.close fd)
    else
      match s.read fat fd (min (pkgCap - buf.length) pkgChunk) with
      | (none, s) => (.error .failed, s.close fd)
      | (some [], s) => (.ok buf, s.close fd)
      | (some (b :: bs), s) => readPackage fat fd fuel (buf ++ (b :: bs)) s

/-- `http` is what the kernel answers to a URL; the call copies what fits the buffer. -/
def fetch (fat : FatIo φ η) (http : List Char → Except HttpError Bytes) (fuel : ℕ) (cwd : Bytes)
    (arg : List Char) (s : Files φ) : Except PkgReport Bytes × Files φ :=
  if isUrl arg then
    match http arg with
    | .error _ => (.error .failed, s)
    | .ok body => if body.take pkgCap = [] then (.error .failed, s) else (.ok (body.take pkgCap), s)
  else
    match openPackage fat cwd arg s with
    | (none, s) => (.error .failed, s)
    | (some fd, s) => readPackage fat fd fuel [] s

def dest (name : List Char) : Bytes := utf8 "/bin/".toList ++ utf8 name

def writePackage (fat : FatIo φ η) (fuel : ℕ) (p : Pkg) (s : Files φ) : PkgReport × Files φ :=
  match s.openPath fat (dest p.name) openNew with
  | (none, s) => (.failed, s)
  | (some out, s) =>
    match writeRest fat pkgChunk out fuel p.payload s with
    | (.err, s) => (.failed, s.close out)
    | (.running, s) => (.running, s)
    | (.ok, s) => (.installed p.name, ((s.close out).sync fat).2)

def installBlob (fat : FatIo φ η) (verify : Bytes → Signature → Bool) (fuel : ℕ) (blob : Bytes)
    (s : Files φ) : PkgReport × Files φ :=
  match Package.parse blob with
  | .error _ => (.badPackage, s)
  | .ok p => if verify p.signed p.signature then writePackage fat fuel p s else (.badSignature, s)

def cmdPkgInstall (fat : FatIo φ η) (http : List Char → Except HttpError Bytes)
    (verify : Bytes → Signature → Bool) (fuel : ℕ) (cwd : Bytes) (args : List Char) (s : Files φ) :
    PkgReport × Files φ :=
  match (splitWhitespace args).head? with
  | none => (.failed, s)
  | some arg =>
    match fetch fat http fuel cwd arg s with
    | (.error r, s) => (r, s)
    | (.ok blob, s) => installBlob fat verify fuel blob s

section Read

variable {fat : FatIo φ η} (spec : FatSpec fat) {s s' : Files φ}
  {http : List Char → Except HttpError Bytes} {fuel : ℕ} {cwd : Bytes} {arg : List Char}

theorem readPackage_spec {fd : ℕ} {w : Bool} {path buf : Bytes} {r : Except PkgReport Bytes}
    (hfd : s.fds.getMut fd = some (.file path buf.length w))
    (hbuf : ∀ d, s.content spec path = some d → buf = d.take buf.length ∧ buf.length ≤ d.length)
    (h : readPackage fat fd fuel buf s = (r, s')) :
    s'.mount.cwd = s.mount.cwd ∧ s'.mount.store spec = s.mount.store spec ∧
      (∀ name, r ≠ .error (.installed name)) ∧
      ∀ blob, r = .ok blob → s.content spec path = some blob ∧ blob.length < pkgCap := by
  induction fuel generalizing buf s with
  | zero =>
    obtain ⟨rfl, rfl⟩ := Prod.mk.inj h
    exact ⟨rfl, rfl, nofun, nofun⟩
  | succ fuel ih =>
    rw [readPackage] at h
    split at h
    · obtain ⟨rfl, rfl⟩ := Prod.mk.inj h
      simp only [close_mount]
      exact ⟨trivial, trivial, nofun, nofun⟩
    rename_i hcap
    have hpos : 0 < min (pkgCap - buf.length) pkgChunk := lt_min (by omega) (by decide)
    rcases hr : s.read fat fd (min (pkgCap - buf.length) pkgChunk) with ⟨_ | got, s₁⟩
    · rw [hr] at h
      obtain ⟨rfl, rfl⟩ := Prod.mk.inj h
      obtain ⟨hcwd, hstore, -⟩ := Files.read_spec spec hfd hpos hr
      rw [close_mount]
      exact ⟨hcwd, hstore, nofun, nofun⟩
    obtain ⟨hcwd, hstore, -, hok⟩ := Files.read_spec spec hfd hpos hr
    obtain ⟨hfds, i, hi, hgot, hend⟩ := hok got rfl
    have hd : s.content spec path = some ((s.mount.store spec).data i) := content_of_node hi
    obtain ⟨htake, hle⟩ := hbuf _ hd
    rw [hr] at h
    cases got with
    | nil =>
      obtain ⟨rfl, rfl⟩ := Prod.mk.inj h
      rw [close_mount]
      refine ⟨hcwd, hstore, nofun, fun blob hblob => ?_⟩
      obtain rfl := Except.ok.inj hblob
      rw [List.take_of_length_le (hend rfl)] at htake
      rw [hd, ← htake]
      exact ⟨rfl, Nat.lt_of_not_le hcap⟩
    | cons b bs =>
      obtain ⟨got, hcons⟩ : ∃ got, got = b :: bs := ⟨_, rfl⟩
      dsimp only at h
      rw [← hcons] at h hgot hfds
      have hfd₁ : s₁.fds.getMut fd = some (.file path (buf ++ got).length w) := by
        rw [hfds, List.length_append]
        exact Task.FdTable.getMut_put_self hfd _
      have hsame : s₁.content spec path = s.content spec path := by
        simp only [Files.content, Mount.content, Mount.relOf_congr hcwd, hstore]
      rw [min_eq_left hle] at hgot
      have hlen : buf.length + got.length ≤ ((s.mount.store spec).data i).length := by
        have hlen := congrArg List.length hgot
        rw [List.length_take, List.length_drop] at hlen
        omega
      have hnext : ∀ d, s₁.content spec path = some d →
          buf ++ got = d.take (buf ++ got).length ∧ (buf ++ got).length ≤ d.length := by
        intro d hd'
        obtain rfl := Option.some.inj ((hsame.trans hd).symm.trans hd')
        rw [List.length_append]
        refine ⟨?_, hlen⟩
        rw [List.take_add, ← htake, ← hgot]
      obtain ⟨hcwd', hstore', hno, hdone⟩ := ih hfd₁ hnext h
      refine ⟨hcwd'.trans hcwd, hstore'.trans hstore, hno, fun blob hblob => ?_⟩
      obtain ⟨hblob, hlt⟩ := hdone blob hblob
      exact ⟨hsame.symm.trans hblob, hlt⟩

theorem openPackage_spec {r : Option ℕ} (h : openPackage fat cwd arg s = (r, s')) :
    s'.mount = s.mount ∧ ∀ fd, r = some fd → (∃ ents, s'.fds.getMut fd = some (.dir 0 ents)) ∨
      ∃ path, s'.fds.getMut fd = some (.file path 0 false) := by
  have hopen : ∀ {s₁ s₂ : Files φ} {path r}, s₁.openPath fat path openRead = (r, s₂) →
      s₂.mount = s₁.mount ∧ ∀ fd, r = some fd → (∃ ents, s₂.fds.getMut fd = some (.dir 0 ents)) ∨
        ∃ path, s₂.fds.getMut fd = some (.file path 0 false) := by
    intro s₁ s₂ path r ho
    obtain ⟨hm, hfd⟩ := Files.openPath_read ho
    exact ⟨hm, fun fd hr => (hfd fd hr).imp_right fun hfile => ⟨path, hfile.1⟩⟩
  unfold openPackage at h
  rcases ho : s.openPath fat (resolve cwd (utf8 arg)) openRead with ⟨_ | fd, s₁⟩
  · have hm := (hopen ho).1
    rw [ho] at h
    dsimp only at h
    split at h
    · obtain ⟨rfl, rfl⟩ := Prod.mk.inj h
      exact ⟨hm, by simp⟩
    split at h
    · obtain ⟨hm', hfd⟩ := hopen h
      exact ⟨hm'.trans hm, hfd⟩
    · obtain ⟨rfl, rfl⟩ := Prod.mk.inj h
      exact ⟨hm, by simp⟩
  · rw [ho] at h
    obtain ⟨rfl, rfl⟩ := Prod.mk.inj h
    exact hopen ho

theorem readPackage_dir {fd : ℕ} {buf : Bytes} {r : Except PkgReport Bytes}
    {ents : List Task.DirEnt} (hfd : s.fds.getMut fd = some (.dir 0 ents))
    (h : readPackage fat fd fuel buf s = (r, s')) :
    s'.mount = s.mount ∧ ∀ name, r ≠ .error (.installed name) := by
  cases fuel with
  | zero =>
    obtain ⟨rfl, rfl⟩ := Prod.mk.inj h
    exact ⟨rfl, nofun⟩
  | succ fuel =>
    have hread : ∀ n, s.read fat fd n = (none, s) := fun n => by
      rw [Files.read, hfd]
      split <;> rfl
    rw [readPackage, hread] at h
    split at h
    all_goals
      obtain ⟨rfl, rfl⟩ := Prod.mk.inj h
      exact ⟨close_mount s fd, nofun⟩

theorem fetch_spec {r : Except PkgReport Bytes} (h : fetch fat http fuel cwd arg s = (r, s')) :
    s'.mount.cwd = s.mount.cwd ∧ s'.mount.store spec = s.mount.store spec ∧
    ∀ name, r ≠ .error (.installed name) := by
  unfold fetch at h
  split at h
  · split at h
    · obtain ⟨rfl, rfl⟩ := Prod.mk.inj h
      exact ⟨rfl, rfl, nofun⟩
    · split at h
      all_goals
        obtain ⟨rfl, rfl⟩ := Prod.mk.inj h
        exact ⟨rfl, rfl, nofun⟩
  · rcases ho : openPackage fat cwd arg s with ⟨_ | fd, s₁⟩
    · rw [ho] at h
      obtain ⟨rfl, rfl⟩ := Prod.mk.inj h
      rw [(openPackage_spec ho).1]
      exact ⟨rfl, rfl, nofun⟩
    · obtain ⟨hm, hfd⟩ := openPackage_spec ho
      rw [ho] at h
      dsimp only at h
      rcases hfd fd rfl with ⟨ents, hdir⟩ | ⟨path, hfile⟩
      · obtain ⟨hm', hno⟩ := readPackage_dir hdir h
        rw [hm', hm]
        exact ⟨rfl, rfl, hno⟩
      · obtain ⟨hcwd, hstore, hno, -⟩ :=
          readPackage_spec spec hfile (fun d _ => ⟨rfl, Nat.zero_le _⟩) h
        rw [hm] at hcwd hstore
        exact ⟨hcwd, hstore, hno⟩

end Read

section Write

variable {fat : FatIo φ η} (spec : FatSpec fat) {s s' : Files φ} {fuel : ℕ}

theorem writePackage_spec {p : Pkg} {r : PkgReport} (h : writePackage fat fuel p s = (r, s')) :
    ∃ s₁ : Files φ, s₁.mount.cwd = s.mount.cwd ∧
      Confined (s.mount.relOf (dest p.name)) (s.mount.store spec) (s₁.mount.store spec) ∧
      ((r = .failed ∨ r = .running) ∧ s'.mount = s₁.mount ∨
        r = .installed p.name ∧ s₁.content spec (dest p.name) = some p.payload ∧
        s' = (s₁.sync fat).2) := by
  unfold writePackage at h
  rcases ho : s.openPath fat (dest p.name) openNew with ⟨_ | out, s₁⟩
  · obtain ⟨hcwd, hconf, -, -⟩ := Files.openPath_new spec ho
    rw [ho] at h
    obtain ⟨rfl, rfl⟩ := Prod.mk.inj h
    exact ⟨_, hcwd, hconf, .inl ⟨.inl rfl, rfl⟩⟩
  obtain ⟨hcwd, hconf, -, hopen⟩ := Files.openPath_new spec ho
  obtain ⟨-, hget, -, hempty⟩ := hopen out rfl
  rw [ho] at h
  dsimp only at h
  have hrel := Mount.relOf_congr hcwd (dest p.name)
  have hd : s₁.content spec (dest p.name) = some [] := by
    rw [Files.content, Mount.content, hrel]
    exact hempty
  rcases hw : writeRest fat pkgChunk out fuel p.payload s₁ with ⟨r₂, s₂⟩
  obtain ⟨hcwd₂, hconf₂, hdone⟩ := writeRest_spec spec hget hd hw
  rw [hrel] at hconf₂
  rw [hw] at h
  cases r₂ with
  | err =>
    obtain ⟨rfl, rfl⟩ := Prod.mk.inj h
    exact ⟨s₂, hcwd₂.trans hcwd, hconf.trans hconf₂, .inl ⟨.inl rfl, close_mount s₂ out⟩⟩
  | running =>
    obtain ⟨rfl, rfl⟩ := Prod.mk.inj h
    exact ⟨_, hcwd₂.trans hcwd, hconf.trans hconf₂, .inl ⟨.inr rfl, rfl⟩⟩
  | ok =>
    obtain ⟨rfl, rfl⟩ := Prod.mk.inj h
    obtain ⟨-, -, hpay⟩ := hdone rfl
    refine ⟨s₂.close out, ?_, ?_, .inr ⟨rfl, ?_, rfl⟩⟩
    · rw [close_mount]
      exact hcwd₂.trans hcwd
    · rw [close_mount]
      exact hconf.trans hconf₂
    · rw [Files.content, close_mount]
      exact hpay

theorem sync_content (path : Bytes) :
    (s.sync fat).2.content spec path = s.content spec path ∨ (s.sync fat).2.mount.fs = none := by
  unfold Files.sync
  rcases hs : s.mount.sync fat with ⟨_ | ⟨⟨⟩⟩, m⟩
  all_goals
    obtain ⟨hcwd, hstore⟩ := Mount.sync_spec spec hs
    refine hstore.imp (fun hsame => ?_) id
    simp only [Files.content, Mount.content, Mount.relOf_congr hcwd, hsame]

end Write

section Confined

variable {fat : FatIo φ η} (spec : FatSpec fat) {s s' : Files φ}
  {http : List Char → Except HttpError Bytes} {verify : Bytes → Signature → Bool} {fuel : ℕ}
  {cwd : Bytes} {args name : List Char}

/-- One to eight letters and digits. -/
structure PkgName (name : List Char) : Prop where
  pos : utf8 name ≠ []
  max : (utf8 name).length ≤ nameMax
  bytes : (utf8 name).all isNameByte = true

theorem PkgName.byte (h : PkgName name) {b : UInt8} (hb : b ∈ utf8 name) : isNameByte b = true :=
  List.all_eq_true.mp h.bytes b hb

theorem PkgName.component (h : PkgName name) : Component (utf8 name) where
  ne_nil := h.pos
  ne_dot := by
    intro heq
    have hb := h.byte (heq ▸ List.mem_singleton_self dot)
    revert hb
    decide
  ne_dots := by
    intro heq
    have hb := h.byte (heq ▸ List.mem_cons_self)
    revert hb
    decide
  no_slash := by
    intro hmem
    have hb := h.byte hmem
    revert hb
    decide

theorem relOf_dest (h : PkgName name) (m : Mount φ) :
    m.relOf (dest name) = utf8 "bin/".toList ++ utf8 name := by
  have hbin : utf8 "/bin/".toList = [0x2F, 0x62, 0x69, 0x6E, 0x2F] := by decide
  have hsplit : (dest name).splitOn slash = [[], [0x62, 0x69, 0x6E], utf8 name] := by
    have hjoin : dest name = [slash].intercalate [[], [0x62, 0x69, 0x6E], utf8 name] := by
      rw [dest, hbin, List.intercalate_cons_cons, List.intercalate_cons_cons,
        List.intercalate_singleton]
      rfl
    have hall : ∀ l ∈ [[], [0x62, 0x69, 0x6E], utf8 name], slash ∉ l := by
      intro l hl
      rcases List.mem_cons.mp hl with rfl | hl
      · exact List.not_mem_nil
      rcases List.mem_cons.mp hl with rfl | hl
      · decide
      · rw [List.mem_singleton.mp hl]
        exact h.component.no_slash
    rw [hjoin, List.splitOn_intercalate slash hall (List.cons_ne_nil _ _)]
  have hparts :
      ((dest name).splitOn slash).foldl resolveStep [] = [[0x62, 0x69, 0x6E], utf8 name] := by
    rw [hsplit]
    change resolveStep [[0x62, 0x69, 0x6E]] (utf8 name) = _
    rw [resolveStep, if_neg (not_or.mpr ⟨h.component.ne_nil, h.component.ne_dot⟩),
      if_neg h.component.ne_dots]
    rfl
  have hhead : (dest name).head? = some slash := by rw [dest, hbin]; rfl
  have hne : dest name ≠ [] := by
    intro hnil
    rw [hnil] at hhead
    cases hhead
  rw [Mount.relOf, Fs.resolve]
  simp only [hhead, true_or, if_true, if_neg hne, hparts]
  have hrel : utf8 "bin/".toList = [0x62, 0x69, 0x6E, 0x2F] := by decide
  rw [if_neg (List.cons_ne_nil _ _), List.intercalate_cons_cons, List.intercalate_singleton, hrel]
  rfl

theorem cmdPkgInstall_cases {r : PkgReport}
    (h : cmdPkgInstall fat http verify fuel cwd args s = (r, s')) :
    (s'.mount.store spec = s.mount.store spec ∧ ∀ name, r ≠ .installed name) ∨
      ∃ arg s₀ blob p, (splitWhitespace args).head? = some arg ∧ fetch fat http fuel cwd arg s =
        (.ok blob, s₀) ∧ s₀.mount.store spec = s.mount.store spec ∧ Package.parse blob = .ok p ∧
        verify p.signed p.signature = true ∧ writePackage fat fuel p s₀ = (r, s') := by
  unfold cmdPkgInstall at h
  split at h
  · obtain ⟨rfl, rfl⟩ := Prod.mk.inj h
    exact .inl ⟨rfl, nofun⟩
  rename_i arg harg
  rcases hf : fetch fat http fuel cwd arg s with ⟨r₀ | blob, s₀⟩
  · obtain ⟨-, hstore, hno⟩ := fetch_spec spec hf
    rw [hf] at h
    obtain ⟨rfl, rfl⟩ := Prod.mk.inj h
    exact .inl ⟨hstore, fun name hname => hno name (congrArg _ hname)⟩
  obtain ⟨-, hstore, -⟩ := fetch_spec spec hf
  rw [hf] at h
  dsimp only [installBlob] at h
  split at h
  · obtain ⟨rfl, rfl⟩ := Prod.mk.inj h
    exact .inl ⟨hstore, nofun⟩
  rename_i p hp
  split at h
  · rename_i hverify
    exact .inr ⟨arg, s₀, blob, p, harg, hf, hstore, hp, hverify, h⟩
  · obtain ⟨rfl, rfl⟩ := Prod.mk.inj h
    exact .inl ⟨hstore, nofun⟩

theorem pkgName_of_parse {blob : Bytes} {p : Pkg} (h : Package.parse blob = .ok p) :
    PkgName p.name := by
  have hfits := (layout_of_parse h).1
  exact ⟨hfits.name_pos, hfits.name_max, hfits.name_bytes⟩

/-- Nothing changes before a package has been parsed and verified, and then only the file of its
name in `bin`; when the command says so, that file holds the payload until the volume is mounted
again, and after it if that succeeds. -/
theorem install_confined {r : PkgReport}
    (h : cmdPkgInstall fat http verify fuel cwd args s = (r, s')) :
    (s'.mount.store spec = s.mount.store spec ∧ ∀ name, r ≠ .installed name) ∨
      ∃ arg s₀ blob p, (splitWhitespace args).head? = some arg ∧ fetch fat http fuel cwd arg s =
        (.ok blob, s₀) ∧ Package.parse blob = .ok p ∧ verify p.signed p.signature = true ∧
        PkgName p.name ∧ ∃ s₁ : Files φ, Confined (utf8 "bin/".toList ++ utf8 p.name)
          (s.mount.store spec) (s₁.mount.store spec) ∧
          ((r = .failed ∨ r = .running) ∧ s'.mount = s₁.mount ∨ r = .installed p.name ∧
            s' = (s₁.sync fat).2 ∧ s₁.content spec (dest p.name) = some p.payload ∧
              (s'.content spec (dest p.name) = some p.payload ∨ s'.mount.fs = none)) := by
  rcases cmdPkgInstall_cases spec h with hstop | ⟨arg, s₀, blob, p, harg, hf, hstore, hp,
      hverify, hwrite⟩
  · exact .inl hstop
  have hname := pkgName_of_parse hp
  obtain ⟨s₁, -, hconf, hcase⟩ := writePackage_spec spec hwrite
  rw [relOf_dest hname, hstore] at hconf
  refine .inr ⟨arg, s₀, blob, p, harg, hf, hp, hverify, hname, s₁, hconf, hcase.imp_right ?_⟩
  rintro ⟨hr, hpay, rfl⟩
  exact ⟨hr, rfl, hpay, (sync_content spec (dest p.name)).imp_left fun hsame => hsame.trans hpay⟩

end Confined

section Flat

def withPackage : Files (Bytes → Option Bytes) :=
  ⟨⟨some fun name =>
      if name = [0x70] then some (layout ['a'] 0 1 [1, 2] ++ zeroSignature.bytes)
      else if name = [0x62, 0x69, 0x6E, 0x2F, 0x61] then some [0x78]
      else none, [slash]⟩, .newStdio⟩

def installP (cap : ℕ) : PkgReport × Files (Bytes → Option Bytes) :=
  cmdPkgInstall (flatFat cap) (fun _ => .error .noNet) (fun _ _ => true) 3 [slash] ['/',
    'p'] withPackage

theorem install_over_old : ∃ (p : Pkg) (s₁ : Files (Bytes → Option Bytes)), PkgName p.name ∧
    Confined (utf8 "bin/".toList ++ utf8 p.name) (withPackage.mount.store (flatSpec 16))
      (s₁.mount.store (flatSpec 16)) ∧ s₁.content (flatSpec 16) (dest p.name) = some p.payload := by
  have hrun : installP 16 = (.installed ['a'], (installP 16).2) := Prod.ext (by decide) rfl
  rcases install_confined (flatSpec 16) hrun with ⟨-, hno⟩ | ⟨-, -, -, p, -, -, -, -, hname, s₁,
      hconf, hcase⟩
  · exact absurd rfl (hno ['a'])
  · rcases hcase with ⟨hr, -⟩ | ⟨-, -, hpay, -⟩
    · exact absurd hr (by decide)
    · exact ⟨p, s₁, hname, hconf, hpay⟩

/-- On a full volume the old file is gone when the command reports its failure. -/
theorem failed_install_truncates : (installP 1).1 = .failed ∧
    withPackage.content (flatSpec 1) (dest ['a']) = some [0x78] ∧
    (installP 1).2.content (flatSpec 1) (dest ['a']) = some [] := by
  decide

end Flat

end CoeleoOs.Sh
