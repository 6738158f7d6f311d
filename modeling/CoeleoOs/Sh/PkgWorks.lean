import CoeleoOs.Fs.Works
import CoeleoOs.Net.HttpGet
import CoeleoOs.Sh.PkgInstall

/-!
# Which packages install

With a volume in order, enough room and a free descriptor no call of the install fails, and the
sizes decide: the install buffer has to be larger than the file, and a response has to fit the
body limit and the receive buffer of `http_get`.
-/

namespace CoeleoOs.Sh
open CoeleoOs.Lib CoeleoOs.Lib.FileStore CoeleoOs.Lib.Text CoeleoOs.Fs CoeleoOs.Package
open CoeleoOs.Task (Bytes HttpError FdTable OpenFd fdMax ioMax pathMax utf8Valid
    utf8Valid_ascii err)

variable {φ η : Type}

/-- The standard descriptors are open, and another one is free. -/
structure Ready (t : FdTable) : Prop where
  std : ∀ fd, fd ≤ 2 → t.getMut fd ≠ none
  free : ∃ fd, fd < fdMax ∧ t.getMut fd = none

section Calls

variable {fat : FatIo φ η} {spec : FatSpec fat} {works : FatWorks spec} {s : Files φ}
    {path : Bytes} {r fd : ℕ}

theorem alloc_works (h : Ready s.fds) (of : OpenFd) :
    ∃ fd s', s.alloc of = (some fd, s') ∧ 2 < fd ∧ fd < fdMax := by
  rcases FdTable.alloc_cases s.fds of with ⟨i, hi, halloc⟩ | hfull
  · have hlt := i.isLt
    have hne : (i : ℕ) ≠ err := by
      simp only [fdMax, err] at hlt ⊢
      omega
    refine ⟨i, ⟨s.mount, ⟨Function.update s.fds.slots i (some of)⟩⟩, ?_, ?_, hlt⟩
    · rw [Files.alloc, halloc]
      exact Prod.ext (if_neg hne) rfl
    · by_contra hle
      refine h.std i (Nat.le_of_not_lt hle) ?_
      simp [FdTable.getMut, hi]
  · obtain ⟨fd, hlt, hnone⟩ := h.free
    have hfree : (Table.position fun i => (s.fds.slots i).isNone) ≠ none := by
      intro hpos
      have hsome := Table.position_none hpos ⟨fd, hlt⟩
      simp [FdTable.getMut, hlt] at hnone
      simp [hnone] at hsome
    obtain ⟨i, hi⟩ := Option.ne_none_iff_exists'.mp hfree
    rw [FdTable.alloc, hi] at hfull
    have hlt' := i.isLt
    have heq := (Prod.mk.inj hfull).1
    simp only [fdMax, err] at hlt' heq
    omega

theorem getMut_close (hfd : 2 < fd) : (s.close fd).fds.getMut fd = none ∧
    ∀ fd', fd' ≠ fd → (s.close fd).fds.getMut fd' = s.fds.getMut fd' := by
  unfold Files.close
  rw [if_neg (Nat.not_le.mpr hfd)]
  unfold FdTable.take
  split
  · rename_i hlt
    refine ⟨by simp [FdTable.getMut], fun fd' hne => ?_⟩
    unfold FdTable.getMut
    split
    · rename_i hlt'
      have hne' : (⟨fd', hlt'⟩ : Fin fdMax) ≠ ⟨fd, hlt⟩ := fun heq => hne (congrArg Fin.val heq)
      exact Function.update_of_ne hne' _ _
    · rfl
  · rename_i hlt
    exact ⟨by simp [FdTable.getMut, hlt], fun _ _ => rfl⟩

theorem openPath_read_works (hready : Ready s.fds) (hok : s.mount.Ok works r)
    (hpath : pathArg path = some path) {i : spec.ι}
    (hi : (s.mount.store spec).node (s.mount.relOf path) = some i) :
    ∃ fd s', s.openPath fat path openRead = (some fd, s') ∧ s'.mount = s.mount ∧ 2 < fd ∧
    fd < fdMax ∧ s'.fds.getMut fd = some (.file path 0 false) ∧ ∀ fd', fd' ≠ fd →
    s'.fds.getMut fd' = s.fds.getMut fd' := by
  obtain ⟨fd, s', halloc, hstd, hlt⟩ := alloc_works hready (.file path 0 false)
  obtain ⟨hm, hget⟩ := Files.alloc_spec halloc
  obtain ⟨-, hfd, hother⟩ := hget fd rfl
  refine ⟨fd, s', ?_, hm, hstd, hlt, hfd, hother⟩
  rw [Files.openPath, hpath]
  dsimp only
  rw [if_neg (by decide), Mount.list_file hok hi]
  exact halloc

theorem openPath_new_works (hready : Ready s.fds) (hok : s.mount.Ok works r)
    (hpath : pathArg path = some path) (hne : s.mount.relOf path ≠ [])
    (h : (∃ i, (s.mount.store spec).node (s.mount.relOf path) = some i) ∨ s.mount.Free works path) :
    ∃ fd s', s.openPath fat path openNew = (some fd, s') ∧ s'.mount.Ok works r := by
  rcases h with ⟨i, hi⟩ | hfree
  · obtain ⟨m, hwrite, hok'⟩ := Mount.writeFile_works hok hi
    obtain ⟨fd, s', halloc, -⟩ := @alloc_works _ ⟨m, s.fds⟩ hready (.file path 0 true)
    refine ⟨fd, s', ?_, (Files.alloc_spec halloc).1 ▸ hok'⟩
    rw [Files.openPath, hpath]
    dsimp only
    rw [if_neg (by decide), Mount.list_file hok hi]
    dsimp only
    rw [if_pos (by decide), hwrite]
    exact halloc
  · obtain ⟨m, htouch, hok'⟩ := Mount.touch_works hok hne hfree
    obtain ⟨fd, s', halloc, -⟩ := @alloc_works _ ⟨m, s.fds⟩ hready (.file path 0 true)
    refine ⟨fd, s', ?_, (Files.alloc_spec halloc).1 ▸ hok'⟩
    rw [Files.openPath, hpath]
    dsimp only
    rw [if_neg (by decide), Mount.list_free hok hfree hne]
    dsimp only
    rw [if_pos (by decide), htouch]
    exact halloc

theorem read_works {off n : ℕ} {w : Bool} (hok : s.mount.Ok works r)
    (hfd : s.fds.getMut fd = some (.file path off w)) {i : spec.ι}
    (hi : (s.mount.store spec).node (s.mount.relOf path) = some i) (hn : n ≤ ioMax) :
    ∃ got s', s.read fat fd n = (some got, s') ∧ s'.mount.Ok works r ∧
      ∀ p, s.mount.Free works p → s'.mount.Free works p := by
  rw [Files.read, if_neg (Nat.not_lt.mpr hn), hfd]
  dsimp only
  split
  · exact ⟨_, _, rfl, hok, fun _ h => h⟩
  · obtain ⟨got, m, hread, hok', hfree⟩ := Mount.readAt_works hok hi off n
    rw [hread]
    exact ⟨_, _, rfl, hok', hfree⟩

theorem writeRest_works {chunk fuel off : ℕ} {buf : Bytes} (hchunk : 0 < chunk)
    (hio : chunk ≤ ioMax) (hok : s.mount.Ok works r)
    (hfd : s.fds.getMut fd = some (.file path off true)) {i : spec.ι}
    (hi : (s.mount.store spec).node (s.mount.relOf path) = some i) (hroom : buf.length ≤ r)
    (hfuel : buf.length ≤ fuel) : ∃ s' r', writeRest fat chunk fd fuel buf s = (.ok, s') ∧
    s'.mount.Ok works r' := by
  induction fuel generalizing buf s off r with
  | zero =>
    obtain rfl := List.length_eq_zero_iff.mp (Nat.le_zero.mp hfuel)
    exact ⟨s, r, rfl, hok⟩
  | succ fuel ih =>
    cases buf with
    | nil => exact ⟨s, r, rfl, hok⟩
    | cons b bs =>
      obtain ⟨buf, hbuf⟩ : ∃ buf, buf = b :: bs := ⟨_, rfl⟩
      rw [← hbuf] at hroom hfuel
      rw [writeRest, ← hbuf]
      have hne : buf.take chunk ≠ [] := by
        rw [hbuf]
        obtain ⟨c, rfl⟩ := Nat.exists_eq_succ_of_ne_zero hchunk.ne'
        exact List.cons_ne_nil _ _
      have hlen : (buf.take chunk).length ≤ buf.length ∧ (buf.take chunk).length ≤ ioMax := by
        rw [List.length_take]
        exact ⟨min_le_right _ _, (min_le_left _ _).trans hio⟩
      obtain ⟨k, m, hwrite, hk, hok'⟩ := Mount.writeAt_works hok hi off hne (hlen.1.trans hroom)
      have hcall :
          s.write fat fd (buf.take chunk) =
            (some k, ⟨m, s.fds.put fd (.file path (off + k) true)⟩) := by
        rw [Files.write, if_neg (Nat.not_lt.mpr hlen.2), hfd]
        dsimp only
        rw [hwrite]
      obtain ⟨hcwd, hnodes, -, hdone⟩ := Files.write_spec spec hfd hcall
      obtain ⟨-, hkle, -⟩ := hdone k rfl
      rw [hcall]
      refine ih hok' (FdTable.getMut_put_self hfd _) ?_ ?_ ?_
      · exact (congrArg _ (Mount.relOf_congr hcwd path)).trans ((congrFun hnodes _).trans hi)
      · rw [List.length_drop]
        omega
      · rw [List.length_drop]
        omega

theorem readPackage_works {fuel : ℕ} {buf : Bytes} {w : Bool} (hok : s.mount.Ok works r)
    (hfd : s.fds.getMut fd = some (.file path buf.length w)) {i : spec.ι}
    (hi : (s.mount.store spec).node (s.mount.relOf path) = some i)
    (hbuf : buf = ((s.mount.store spec).data i).take buf.length ∧
      buf.length ≤ ((s.mount.store spec).data i).length) (hcap :
      ((s.mount.store spec).data i).length < pkgCap) (hfuel :
      ((s.mount.store spec).data i).length < fuel + buf.length) : ∃ s₁ s' : Files φ,
      readPackage fat fd fuel buf s = (.ok ((s.mount.store spec).data i), s') ∧ s' = s₁.close fd ∧
      s'.mount.Ok works r ∧ (∀ p, s.mount.Free works p → s'.mount.Free works p) ∧
      ∀ fd', fd' ≠ fd → s₁.fds.getMut fd' = s.fds.getMut fd' := by
  induction fuel generalizing buf s with
  | zero => omega
  | succ fuel ih =>
    rw [readPackage, if_neg (by omega)]
    have hpos : 0 < min (pkgCap - buf.length) pkgChunk := lt_min (by omega) (by decide)
    have hmax : min (pkgCap - buf.length) pkgChunk ≤ ioMax := (min_le_right _ _).trans (by decide)
    obtain ⟨got, s₁, hread, hok₁, hfree₁⟩ := read_works hok hfd hi hmax
    obtain ⟨hcwd, hstore, -, hgot⟩ := Files.read_spec spec hfd hpos hread
    obtain ⟨hfds, j, hj, htake, hend⟩ := hgot got rfl
    obtain rfl := Option.some.inj (hi.symm.trans hj)
    rw [hread]
    have hother : ∀ fd', fd' ≠ fd → s₁.fds.getMut fd' = s.fds.getMut fd' := by
      intro fd' hne
      rw [hfds]
      exact FdTable.getMut_put_of_ne hne _
    cases got with
    | nil =>
      have hall : buf = (s.mount.store spec).data i := by
        rw [hbuf.1, List.take_of_length_le (hend rfl)]
      refine ⟨s₁, s₁.close fd, ?_, rfl, ?_, ?_, hother⟩
      · rw [← hall]
      · rw [close_mount]
        exact hok₁
      · rw [close_mount]
        exact hfree₁
    | cons b bs =>
      obtain ⟨got, hcons⟩ : ∃ got, got = b :: bs := ⟨_, rfl⟩
      dsimp only
      rw [← hcons] at htake hfds ⊢
      have hgotpos : 0 < got.length := by
        rw [hcons]
        exact Nat.succ_pos _
      rw [min_eq_left hbuf.2] at htake
      have hlen : buf.length + got.length ≤ ((s.mount.store spec).data i).length := by
        have hlen := congrArg List.length htake
        rw [List.length_take, List.length_drop] at hlen
        omega
      have hi₁ : (s₁.mount.store spec).node (s₁.mount.relOf path) = some i := by
        rw [Mount.relOf_congr hcwd, hstore]
        exact hi
      have hfd₁ : s₁.fds.getMut fd = some (.file path (buf ++ got).length w) := by
        rw [hfds, List.length_append]
        exact FdTable.getMut_put_self hfd _
      have hnext : buf ++ got = ((s₁.mount.store spec).data i).take (buf ++ got).length ∧
          (buf ++ got).length ≤ ((s₁.mount.store spec).data i).length := by
        rw [hstore, List.length_append]
        exact ⟨by rw [List.take_add, ← hbuf.1, ← htake], hlen⟩
      obtain ⟨s₂, s', hrun, rfl, hok', hfree', hother'⟩ :=
        ih hok₁ hfd₁ hi₁ hnext (by rw [hstore]; exact hcap)
          (by rw [hstore, List.length_append]; omega)
      rw [hstore] at hrun
      exact ⟨s₂, _, hrun, rfl, hok', fun p hp => hfree' p (hfree₁ p hp),
        fun fd' hne => (hother' fd' hne).trans (hother fd' hne)⟩

end Calls

section Install

variable {fat : FatIo φ η} {spec : FatSpec fat} {works : FatWorks spec} {s : Files φ}
  {http : List Char → Except HttpError Bytes} {verify : Bytes → Signature → Bool} {cwd : Bytes}
  {args arg name : List Char} {payload blob : Bytes}

/-- The destination can be written, and there is room for the payload. -/
structure Room (works : FatWorks spec) (s : Files φ) (name : List Char) (payload : Bytes) :
    Prop where
  ready : Ready s.fds
  ok : s.mount.Ok works payload.length
  dest : (∃ i, (s.mount.store spec).node (s.mount.relOf (dest name)) = some i) ∨
    s.mount.Free works (dest name)

/-- The install comes to its end, says so, and leaves the payload under its name. -/
def Installs (spec : FatSpec fat) (http : List Char → Except HttpError Bytes)
    (verify : Bytes → Signature → Bool) (cwd : Bytes) (args : List Char) (s : Files φ)
    (name : List Char) (payload : Bytes) : Prop :=
  ∃ enough, ∀ fuel, enough ≤ fuel → ∃ s', cmdPkgInstall fat http verify fuel cwd args s =
    (.installed name, s') ∧ s'.content spec (dest name) = some payload

theorem pathArg_dest (h : PkgName name) : pathArg (dest name) = some (dest name) := by
  have hlen : (dest name).length = 5 + (utf8 name).length := by
    rw [dest, List.length_append]
    rfl
  have hmax := h.max
  have hascii : ∀ b ∈ dest name, b < 0x80 := by
    intro b hb
    rcases List.mem_append.mp hb with hb | hb
    · have hall : ∀ b ∈ utf8 "/bin/".toList, b < 0x80 := by decide +kernel
      exact hall b hb
    · have hbyte := h.byte hb
      simp only [isNameByte, Bool.or_eq_true, Bool.and_eq_true, decide_eq_true_eq] at hbyte
      rcases hbyte with ⟨-, hle⟩ | ⟨-, hle⟩
      · exact UInt8.lt_of_le_of_lt hle (by decide)
      · exact UInt8.lt_of_le_of_lt hle (by decide)
  rw [pathArg, if_neg, if_pos (utf8Valid_ascii hascii)]
  rw [hlen]
  simp only [nameMax, pathMax] at hmax ⊢
  omega

theorem writePackage_works {p : Pkg} {r : ℕ} (hname : PkgName p.name) (hready : Ready s.fds)
    (hok : s.mount.Ok works r)
    (hdest : (∃ i, (s.mount.store spec).node (s.mount.relOf (dest p.name)) = some i) ∨
      s.mount.Free works (dest p.name)) (hroom : p.payload.length ≤ r) {fuel : ℕ} (hfuel :
      p.payload.length ≤ fuel) : ∃ s', writePackage fat fuel p s = (.installed p.name, s') ∧
      s'.content spec (dest p.name) = some p.payload := by
  have hne : s.mount.relOf (dest p.name) ≠ [] := by
    rw [relOf_dest hname]
    intro hnil
    have hbin := (List.append_eq_nil_iff.mp hnil).1
    revert hbin
    decide
  obtain ⟨out, s₁, hopen, hok₁⟩ := openPath_new_works hready hok (pathArg_dest hname) hne hdest
  obtain ⟨hcwd, -, -, hget⟩ := Files.openPath_new spec hopen
  obtain ⟨-, hout, -, hempty⟩ := hget out rfl
  rw [← Mount.relOf_congr hcwd] at hempty
  obtain ⟨i, hi, -⟩ := content_eq_some.mp hempty
  obtain ⟨s₂, r', hrest, hok₂⟩ :=
    @writeRest_works _ _ fat spec works s₁ _ _ _ pkgChunk fuel 0 p.payload (by decide) (by decide)
    hok₁ hout i hi hroom hfuel
  obtain ⟨-, -, hdone⟩ := writeRest_spec spec hout hempty hrest
  obtain ⟨-, -, hpay⟩ := hdone rfl
  refine ⟨((s₂.close out).sync fat).2, ?_, ?_⟩
  · rw [writePackage, hopen]
    dsimp only
    rw [hrest]
  · have hkept : (s₂.close out).content spec (dest p.name) = some p.payload := by
      rw [Files.content, close_mount]
      exact hpay
    refine ((sync_content spec (dest p.name)).resolve_right ?_).trans hkept
    obtain ⟨res, m, hsync, fs, hfs, -⟩ := Mount.sync_works hok₂
    rw [Files.sync, close_mount, hsync]
    intro hnone
    have hmount : m.fs = none := by
      cases res <;> exact hnone
    rw [hfs] at hmount
    cases hmount

theorem fetch_file_works (hroom : Room works s name payload) (hurl : isUrl arg = false)
    (hpath : pathArg (resolve cwd (utf8 arg)) = some (resolve cwd (utf8 arg)))
    (hcontent : s.content spec (resolve cwd (utf8 arg)) = some blob) (hcap : blob.length < pkgCap)
    {fuel : ℕ} (hfuel : blob.length < fuel) : ∃ s₀, fetch fat http fuel cwd arg s = (.ok blob, s₀) ∧
    Room works s₀ name payload := by
  obtain ⟨i, hi, rfl⟩ := content_eq_some.mp hcontent
  obtain ⟨fd, s₁, hopen, hm, hstd, hlt, hfd, hother⟩ :=
    openPath_read_works hroom.ready hroom.ok hpath hi
  have hi₁ : (s₁.mount.store spec).node (s₁.mount.relOf (resolve cwd (utf8 arg))) = some i := by
    rw [hm]
    exact hi
  obtain ⟨s₂, s₀, hread, rfl, hok, hfree, hother'⟩ :=
    @readPackage_works _ _ fat spec works s₁ _ payload.length fd fuel [] false
    (hm ▸ hroom.ok) hfd i hi₁ ⟨rfl, Nat.zero_le _⟩ (by rw [hm]; exact hcap)
    (by rw [hm]; exact hfuel)
  obtain ⟨hcwd, hstore, -⟩ := readPackage_spec spec hfd (fun d _ => ⟨rfl, Nat.zero_le _⟩) hread
  rw [hm] at hread hcwd hstore
  have hget := getMut_close hstd (s := s₂)
  refine ⟨s₂.close fd, ?_, ⟨⟨fun fd' hle => ?_, fd, hlt, hget.1⟩, hok, ?_⟩⟩
  · rw [fetch, hurl, if_neg Bool.false_ne_true, openPackage, hopen]
    exact hread
  · have hne : fd' ≠ fd := by omega
    rw [hget.2 fd' hne, hother' fd' hne, hother fd' hne]
    exact hroom.ready.std fd' hle
  · refine hroom.dest.imp (fun ⟨j, hj⟩ => ⟨j, ?_⟩) fun hd => hfree _ (hm ▸ hd)
    rw [Mount.relOf_congr hcwd, hstore]
    exact hj

theorem fetch_file_ok {fuel : ℕ} {s₀ : Files φ} {b : Bytes} (hroom : Room works s name payload)
    (hurl : isUrl arg = false)
    (hpath : pathArg (resolve cwd (utf8 arg)) = some (resolve cwd (utf8 arg)))
    (hcontent : s.content spec (resolve cwd (utf8 arg)) = some blob)
    (h : fetch fat http fuel cwd arg s = (.ok b, s₀)) : b = blob ∧ blob.length < pkgCap := by
  obtain ⟨i, hi, -⟩ := content_eq_some.mp hcontent
  obtain ⟨fd, s₁, hopen, hm, -, -, hfd, -⟩ := openPath_read_works hroom.ready hroom.ok hpath hi
  rw [fetch, hurl, if_neg Bool.false_ne_true, openPackage, hopen] at h
  obtain ⟨-, -, -, hok⟩ := readPackage_spec spec hfd (fun d _ => ⟨rfl, Nat.zero_le _⟩) h
  obtain ⟨hb, hlt⟩ := hok b rfl
  rw [Files.content, hm] at hb
  obtain rfl := Option.some.inj (hcontent.symm.trans hb)
  exact ⟨rfl, hlt⟩

theorem fetch_url_ok {fuel : ℕ} {s₀ : Files φ} {b : Bytes} (hurl : isUrl arg = true)
    (h : fetch fat http fuel cwd arg s = (.ok b, s₀)) :
    ∃ body, http arg = .ok body ∧ b = body.take pkgCap := by
  rw [fetch, hurl, if_pos rfl] at h
  split at h
  · cases h
  · rename_i body hbody
    split at h
    · cases h
    · obtain ⟨hb, -⟩ := Prod.mk.inj h
      exact ⟨body, hbody, (Except.ok.inj hb).symm⟩

theorem installed_fetches (spec : FatSpec fat) {fuel : ℕ} {s' : Files φ} {n : List Char}
    (harg : (splitWhitespace args).head? = some arg)
    (h : cmdPkgInstall fat http verify fuel cwd args s = (.installed n, s')) :
    ∃ s₀ b p, fetch fat http fuel cwd arg s = (.ok b, s₀) ∧ Package.parse b = .ok p := by
  rcases cmdPkgInstall_cases spec h with ⟨-, hno⟩ | ⟨arg', s₀, b, p, harg', hf, -, hp, -, -⟩
  · exact absurd rfl (hno n)
  · obtain rfl := Option.some.inj (harg.symm.trans harg')
    exact ⟨s₀, b, p, hf, hp⟩

variable (works) in
theorem installs_of_fetch {p : Pkg} (harg : (splitWhitespace args).head? = some arg)
    (hp : Package.parse blob = .ok p) (hname : p.name = name) (hpay : p.payload = payload)
    (hverify : verify p.signed p.signature = true) (hfetch : ∃ enough, ∀ fuel, enough ≤ fuel →
      ∃ s₀, fetch fat http fuel cwd arg s = (.ok blob, s₀) ∧ Room works s₀ name payload) :
    Installs spec http verify cwd args s name payload := by
  subst hname hpay
  obtain ⟨enough, hfetch⟩ := hfetch
  refine ⟨enough + p.payload.length, fun fuel hfuel => ?_⟩
  obtain ⟨s₀, hf, hroom⟩ := hfetch fuel (by omega)
  obtain ⟨s', hwrite, hcontent⟩ :=
    writePackage_works (pkgName_of_parse hp) hroom.ready hroom.ok hroom.dest le_rfl
    (by omega : p.payload.length ≤ fuel)
  refine ⟨s', ?_, hcontent⟩
  unfold cmdPkgInstall
  rw [harg]
  dsimp only
  rw [hf]
  dsimp only [installBlob]
  rw [hp]
  dsimp only
  rw [if_pos hverify]
  exact hwrite

section Sizes

variable {sign : Bytes → Signature} {head : Bytes} {hd : Net.HttpHead}

theorem pack_length (hpack : pack sign name payload false = .ok blob) :
    blob.length = hdr + payload.length + sigLen := by
  obtain ⟨⟨-, hmax⟩, -, -, rfl⟩ := pack_eq_ok_iff.mp hpack
  rw [List.length_append, layout_length_name hmax]
  exact congrArg _ (sign _).length

theorem pack_begins {b : Bytes} {p : Pkg} (hpack : pack sign name payload false = .ok blob)
    (hp : Package.parse b = .ok p) (h : b <+: blob) : b = blob ∧ payload ≠ [] := by
  have hlen := pack_length hpack
  obtain ⟨⟨hpos, hmax⟩, hbytes, hlarge, rfl⟩ := pack_eq_ok_iff.mp hpack
  have hne : payload ≠ [] := by
    rintro rfl
    obtain ⟨hfits, hsigned, hb⟩ := layout_of_parse hp
    have hlenb := congrArg List.length hb
    rw [List.length_append, hsigned, layout_length hfits, p.signature.length] at hlenb
    have hpos := List.length_pos_iff.mpr hfits.payload_pos
    have hle := h.length_le
    rw [hlen, List.length_nil] at hle
    omega
  exact ⟨parse_begins ⟨hpos, hmax, hbytes, by decide, by decide, hne, hlarge⟩ _ hp h, hne⟩

theorem file_installs_iff (hpack : pack sign name payload false = .ok blob)
    (hverify : verify (layout name 0 1 payload) (sign (layout name 0 1 payload)) = true)
    (hroom : Room works s name payload) (harg : (splitWhitespace args).head? = some arg)
    (hurl : isUrl arg = false)
    (hpath : pathArg (resolve cwd (utf8 arg)) = some (resolve cwd (utf8 arg)))
    (hcontent : s.content spec (resolve cwd (utf8 arg)) = some blob) :
    Installs spec http verify cwd args s name payload ↔
    payload ≠ [] ∧ hdr + payload.length + sigLen < pkgCap := by
  rw [← pack_length hpack]
  constructor
  · rintro ⟨enough, hins⟩
    obtain ⟨s', hrun, -⟩ := hins enough le_rfl
    obtain ⟨s₀, b, p, hf, hp⟩ := installed_fetches spec harg hrun
    obtain ⟨rfl, hlt⟩ := fetch_file_ok hroom hurl hpath hcontent hf
    exact ⟨(pack_begins hpack hp (List.prefix_refl _)).2, hlt⟩
  · rintro ⟨hne, hlt⟩
    refine installs_of_fetch works harg (parse_pack hpack hne) rfl rfl hverify ⟨blob.length + 1,
      fun fuel hfuel => ?_⟩
    exact fetch_file_works hroom hurl hpath hcontent hlt hfuel

theorem url_installs_iff (hpack : pack sign name payload false = .ok blob)
    (hverify : verify (layout name 0 1 payload) (sign (layout name 0 1 payload)) = true)
    (hroom : Room works s name payload) (harg : (splitWhitespace args).head? = some arg)
    (hurl : isUrl arg = true) (hsplit : Net.splitHead head = some (hd, head.length))
    (hlen : hd.contentLength = none ∨ hd.contentLength = some blob.length)
    (hhttp : http arg = (Net.answer (head ++ blob)).getD (.error .timeout)) :
    Installs spec http verify cwd args s name payload ↔
      payload ≠ [] ∧ hdr + payload.length + sigLen ≤ Net.bodyCap ∧
        head.length + (hdr + payload.length + sigLen) ≤ Net.rxCap := by
  rw [← pack_length hpack]
  have hcaps : Net.bodyCap ≤ pkgCap := by decide
  constructor
  · rintro ⟨enough, hins⟩
    obtain ⟨s', hrun, -⟩ := hins enough le_rfl
    obtain ⟨s₀, b, p, hf, hp⟩ := installed_fetches spec harg hrun
    obtain ⟨body, hbody, rfl⟩ := fetch_url_ok hurl hf
    rw [hhttp] at hbody
    cases ha : Net.answer (head ++ blob) with
    | none =>
      rw [ha] at hbody
      cases hbody
    | some r =>
      rw [ha] at hbody
      obtain rfl : r = .ok body := hbody
      obtain ⟨hbegin, hfits⟩ := Net.answer_ok hsplit hlen ha
      obtain ⟨hall, hne⟩ := pack_begins hpack hp ((List.take_prefix _ _).trans hbegin)
      refine ⟨hne, hfits (hbegin.eq_of_length_le ?_)⟩
      rw [← hall, List.length_take]
      exact min_le_right _ _
  · rintro ⟨hne, hbody, hfits⟩
    refine installs_of_fetch works harg (parse_pack hpack hne) rfl rfl hverify ⟨0,
      fun fuel _ => ⟨s, ?_, hroom⟩⟩
    have hblob : blob.take pkgCap = blob := List.take_of_length_le (hbody.trans hcaps)
    have hpos : blob ≠ [] := by
      rintro rfl
      have hzero := pack_length hpack
      rw [List.length_nil] at hzero
      simp only [hdr] at hzero
      omega
    rw [fetch, hurl, if_pos rfl, hhttp, Net.answer_whole hsplit hlen hbody hfits]
    dsimp only [Option.getD_some]
    rw [hblob, if_neg hpos]

theorem package_installs_iff (hpack : pack sign name payload false = .ok blob)
    (hverify : verify (layout name 0 1 payload) (sign (layout name 0 1 payload)) = true)
    (hroom : Room works s name payload) (harg : (splitWhitespace args).head? = some arg) :
    (isUrl arg = false → pathArg (resolve cwd (utf8 arg)) = some (resolve cwd (utf8 arg)) →
      s.content spec (resolve cwd (utf8 arg)) = some blob →
      (Installs spec http verify cwd args s name payload ↔
        payload ≠ [] ∧ hdr + payload.length + sigLen < pkgCap)) ∧
    (isUrl arg = true → ∀ (head : Bytes) (hd : Net.HttpHead), Net.splitHead head =
      some (hd, head.length) → hd.contentLength = none ∨ hd.contentLength = some blob.length →
      http arg = (Net.answer (head ++ blob)).getD (.error .timeout) →
      (Installs spec http verify cwd args s name payload ↔
        payload ≠ [] ∧ hdr + payload.length + sigLen ≤ Net.bodyCap ∧
          head.length + (hdr + payload.length + sigLen) ≤ Net.rxCap)) := by
  constructor
  · intro hurl hpath hcontent
    exact file_installs_iff hpack hverify hroom harg hurl hpath hcontent
  · intro hurl head hd hsplit hlen hhttp
    exact url_installs_iff hpack hverify hroom harg hurl hsplit hlen hhttp

end Sizes

end Install

section Flat

theorem ready_newStdio : Ready .newStdio := ⟨by decide, 3, by decide, by decide⟩

theorem withPackage_room : Room (flatWorks 100) withPackage ['a'] [1, 2] where
  ready := ready_newStdio
  ok := by
    refine ⟨_, rfl, fun name => ?_, by decide⟩
    dsimp only
    split_ifs
    · decide
    · decide
    · decide
  dest := by
    have hold : withPackage.content (flatSpec 100) (Sh.dest ['a']) = some [0x78] := by decide
    exact .inl (Files.node_of_content hold)

theorem small_package_installs : Installs (flatSpec 100) (fun _ => .error .noNet) (fun _ _ => true)
    [slash] ['/', 'p'] withPackage ['a'] [1, 2] := by
  have hpack :
      pack (fun _ => zeroSignature) ['a'] [1, 2] false =
        .ok (layout ['a'] 0 1 [1, 2] ++ zeroSignature.bytes) := by
    decide
  refine ((@package_installs_iff _ _ _ _ _ _ _ _ _ _ ['/', 'p'] _ _ _ _ hpack rfl withPackage_room
    (by decide)).1 (by decide) (by decide) (by decide)).mpr ⟨by decide, by decide⟩

def largest : Bytes := List.replicate payloadMax 0x61

def withLargest : Files (Bytes → Option Bytes) :=
  ⟨⟨some fun name => if name = [0x70] then some (layout ['a'] 0 1 largest ++ zeroSignature.bytes)
      else if name = [0x62, 0x69, 0x6E, 0x2F, 0x61] then some [] else none, [slash]⟩, .newStdio⟩

theorem largest_packed : pack (fun _ => zeroSignature) ['a'] largest false =
    .ok (layout ['a'] 0 1 largest ++ zeroSignature.bytes) := by
  refine pack_eq_ok_iff.mpr ⟨by decide, by decide, ?_, rfl⟩
  rw [largest, List.length_replicate]

theorem withLargest_room : Room (flatWorks 1000000) withLargest ['a'] largest where
  ready := ready_newStdio
  ok := by
    have hlen : largest.length = payloadMax := List.length_replicate
    refine ⟨_, rfl, fun name => ?_, by decide⟩
    dsimp only
    rw [hlen]
    split_ifs
    · rw [Option.getD_some, pack_length largest_packed, hlen]
      decide
    · decide
    · decide
  dest := by
    have hold : withLargest.content (flatSpec 1000000) (Sh.dest ['a']) = some [] := by decide
    exact .inl (Files.node_of_content hold)

/-- The packer signs it, there is room for it, and it does not install. -/
theorem largest_rejected : pack (fun _ => zeroSignature) ['a'] largest false =
      .ok (layout ['a'] 0 1 largest ++ zeroSignature.bytes) ∧
    Room (flatWorks 1000000) withLargest ['a'] largest ∧
    ¬Installs (flatSpec 1000000) (fun _ => .error .noNet) (fun _ _ => true) [slash] ['/',
      'p'] withLargest ['a'] largest := by
  refine ⟨largest_packed, withLargest_room, fun h => ?_⟩
  have hlt :=
    ((@file_installs_iff _ _ _ _ _ _ _ _ _ _ ['/', 'p'] _ _ _ _ largest_packed rfl
      withLargest_room (by decide) (by decide) (by decide) rfl).mp h).2
  rw [largest, List.length_replicate] at hlt
  exact absurd hlt (by decide)

end Flat

end CoeleoOs.Sh
