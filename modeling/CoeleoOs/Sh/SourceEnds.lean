import CoeleoOs.Lib.Budget
import CoeleoOs.Sh.Cat
import CoeleoOs.Sh.Dispatch

/-!
# Scripts end

`source` reads a script through a descriptor of the shell and dispatches its lines, which may source
scripts in turn. No depth is counted; but a script that is read holds one of the 16 descriptors.
-/

namespace CoeleoOs.Task.FdTable

def freeSlots (t : FdTable) : Finset (Fin fdMax) := Finset.univ.filter fun i => t.slots i = none

variable {t t' : FdTable} {fd : ℕ} {of : OpenFd}

theorem mem_freeSlots (t : FdTable) (i : Fin fdMax) : i ∈ t.freeSlots ↔ t.getMut i = none := by
  rw [freeSlots, Finset.mem_filter, getMut, dif_pos i.isLt]
  exact and_iff_right (Finset.mem_univ i)

theorem freeSlots_subset (h : ∀ fd of, t.getMut fd = some of → t'.getMut fd = some of) :
    t'.freeSlots ⊆ t.freeSlots := by
  intro i hi
  rw [mem_freeSlots] at hi ⊢
  cases hget : t.getMut i with
  | none => rfl
  | some of =>
    rw [h i of hget] at hi
    cases hi

theorem freeSlots_lt (h : ∀ fd of, t.getMut fd = some of → t'.getMut fd = some of)
    (hfree : t.getMut fd = none) (hopen : t'.getMut fd = some of) :
    t'.freeSlots.card < t.freeSlots.card := by
  have hlt : fd < fdMax := by
    by_contra hge
    rw [getMut, dif_neg hge] at hopen
    cases hopen
  refine Finset.card_lt_card (Finset.ssubset_iff_of_subset (freeSlots_subset h) |>.mpr
    ⟨⟨fd, hlt⟩, ?_, ?_⟩)
  · exact (mem_freeSlots t _).mpr hfree
  · rw [mem_freeSlots, hopen]
    simp

end CoeleoOs.Task.FdTable

namespace CoeleoOs.Sh
open CoeleoOs.Lib CoeleoOs.Lib.Budget CoeleoOs.Lib.FileStore CoeleoOs.Lib.Text CoeleoOs.Fs
open CoeleoOs.Task (Bytes FdTable OpenFd)

/-- The shell while it runs a line; `rest` is what only the commands look at. -/
structure Sourcing (φ ω : Type) where
  files : Files φ
  cwd : Bytes
  table : AliasTable
  lastStatus : ℕ
  running : Bool
  rest : ω

variable {φ η ω : Type}

/-- Every descriptor stays as it is, and so does the content of the files that are open. -/
structure Files.Keeps {fat : FatIo φ η} (spec : FatSpec fat) (s s' : Files φ) : Prop where
  fds : ∀ fd of, s.fds.getMut fd = some of → s'.fds.getMut fd = some of
  content : ∀ fd path off w, s.fds.getMut fd = some (.file path off w) →
    s'.content spec path = s.content spec path

/-- The commands other than `source`. Each returns, changes no script that is being read, and
closes only what it opened. -/
structure Commands {fat : FatIo φ η} (spec : FatSpec fat) (ω : Type) where
  run : Act → Sourcing φ ω → Sourcing φ ω
  keeps : ∀ (act : Act) (st : Sourcing φ ω), st.files.Keeps spec (run act st).files

namespace Sourcing

section Run

variable {fat : FatIo φ η} {spec : FatSpec fat} (c : Commands spec ω)
  (source : List Char → Sourcing φ ω → Option (Sourcing φ ω))
  (dispatch : List Char → Sourcing φ ω → Option (Sourcing φ ω))

def withFiles (st : Sourcing φ ω) (files : Files φ) : Sourcing φ ω := { st with files := files }

def withStatus (st : Sourcing φ ω) (status : ℕ) : Sourcing φ ω := { st with lastStatus := status }

def dispatchSingle (line : List Char) (st : Sourcing φ ω) : Option (Sourcing φ ω) :=
  match actOn st.table line with
  | .runLine line => some ((c.run (.runLine line) st).withStatus 0)
  | .command cmd args =>
    let st := st.withStatus 0
    if cmd = "exit".toList then some { st with running := false }
    else if cmd = "alias".toList then some { st with table := cmdAlias st.table args }
    else if cmd = "unalias".toList then some { st with table := cmdUnalias st.table args }
    else if cmd = "source".toList ∨ cmd = ".".toList then source args st
    else some (c.run (.command cmd args) st)

def dispatchNext (st : Sourcing φ ω) (sub : List Char) : Option (Sourcing φ ω) :=
  if st.running then dispatchSingle c source sub st else some st

def dispatchLine (line : List Char) (st : Sourcing φ ω) : Option (Sourcing φ ω) :=
  (commands line).foldlM (dispatchNext c source) st

def dispatchBytes (line : Bytes) (st : Sourcing φ ω) : Option (Sourcing φ ω) :=
  match fromUtf8 line with
  | some text => dispatch text st
  | none => some st

def feedBytes : Bytes → Bytes → Sourcing φ ω → Option (Bytes × Sourcing φ ω)
  | [], lineBuf, st => some (lineBuf, st)
  | b :: bs, lineBuf, st =>
    if st.running = false then some (lineBuf, st)
    else if b = newline then do
      let st ← dispatchBytes dispatch lineBuf st
      feedBytes bs [] st
    else feedBytes bs (if lineBuf.length < lineCap then lineBuf ++ [b] else lineBuf) st

def sourceLoop (fat : FatIo φ η) (fd : ℕ) : ℕ → Bytes → Sourcing φ ω → Option (Bytes × Sourcing φ ω)
  | 0, _, _ => none
  | fuel + 1, lineBuf, st =>
    if st.running = false then some (lineBuf, st)
    else
      match st.files.read fat fd bufLen with
      | (none, files) => some (lineBuf, st.withFiles files)
      | (some [], files) => some (lineBuf, st.withFiles files)
      | (some (b :: bs), files) => do
        let (lineBuf, st) ← feedBytes dispatch (b :: bs) lineBuf (st.withFiles files)
        sourceLoop fat fd fuel lineBuf st

def lastLine (lineBuf : Bytes) (st : Sourcing φ ω) : Option (Sourcing φ ω) :=
  if st.running ∧ lineBuf ≠ [] then dispatchBytes dispatch lineBuf st else some st

def cmdSource (fat : FatIo φ η) (fuel : ℕ) (args : List Char) (st : Sourcing φ ω) :
    Option (Sourcing φ ω) :=
  match splitWhitespace args with
  | [] => some (st.withStatus 1)
  | pathArg :: _ =>
    match st.files.openPath fat (resolve st.cwd (utf8 pathArg)) openRead with
    | (none, files) => some ((st.withFiles files).withStatus 1)
    | (some fd, files) => do
      let (lineBuf, st) ← sourceLoop dispatch fat fd fuel [] (st.withFiles files)
      let st ← lastLine dispatch lineBuf st
      some (st.withFiles (st.files.close fd))

end Run

variable {fat : FatIo φ η} {spec : FatSpec fat} (c : Commands spec ω)

def source : ℕ → List Char → Sourcing φ ω → Option (Sourcing φ ω)
  | 0, _, _ => none
  | fuel + 1, args, st => cmdSource (dispatchLine c (source fuel)) fat fuel args st

/-- A line, with so much fuel for the scripts that it runs. -/
def dispatch (fuel : ℕ) (line : List Char) (st : Sourcing φ ω) : Option (Sourcing φ ω) :=
  dispatchLine c (source c fuel) line st

end Sourcing

section Keeps

variable {fat : FatIo φ η} {spec : FatSpec fat} {s s₁ s₂ : Files φ} {fd n : ℕ} {path : Bytes}

theorem Files.Keeps.refl (s : Files φ) : s.Keeps spec s := ⟨fun _ _ h => h, fun _ _ _ _ _ => rfl⟩

theorem Files.Keeps.trans (h₁ : s.Keeps spec s₁) (h₂ : s₁.Keeps spec s₂) : s.Keeps spec s₂ :=
  ⟨fun fd of hget => h₂.fds fd of (h₁.fds fd of hget), fun fd path off w hget =>
    (h₂.content fd path off w (h₁.fds fd _ hget)).trans (h₁.content fd path off w hget)⟩

theorem content_of_mount (h : s₁.mount = s.mount) (path : Bytes) :
    s₁.content spec path = s.content spec path := by
  rw [Files.content, Files.content, h]

theorem openPath_keeps {r : Option ℕ} (h : s.openPath fat path openRead = (r, s₁)) :
    s.Keeps spec s₁ :=
  ⟨(Files.openPath_read_fds h).1,
    fun _ path _ _ _ => content_of_mount (Files.openPath_read h).1 path⟩

theorem close_getMut (s : Files φ) {fd' : ℕ} (h : fd' ≠ fd) :
    (s.close fd).fds.getMut fd' = s.fds.getMut fd' := by
  rw [Files.close]
  split
  · rfl
  · rw [FdTable.take]
    split
    · rename_i hlt
      unfold FdTable.getMut
      split
      · rename_i hlt'
        have hne : (⟨fd', hlt'⟩ : Fin Task.fdMax) ≠ ⟨fd, hlt⟩ := fun heq => h (congrArg Fin.val heq)
        exact Function.update_of_ne hne _ _
      · rfl
    · rfl

theorem Files.Keeps.close (h : s.Keeps spec s₁) (hfree : s.fds.getMut fd = none) :
    s.Keeps spec (s₁.close fd) := by
  refine ⟨fun fd' of hget => ?_, fun fd' path off w hget => ?_⟩
  · have hne : fd' ≠ fd := by
      rintro rfl
      rw [hfree] at hget
      cases hget
    rw [close_getMut s₁ hne]
    exact h.fds fd' of hget
  · rw [content_of_mount (close_mount s₁ fd)]
    exact h.content fd' path off w hget

variable (spec) in
theorem read_keeps {off : ℕ} {w : Bool} {r : Option Bytes}
    (hfd : s.fds.getMut fd = some (.file path off w)) (h : s.read fat fd bufLen = (r, s₁)) :
    (∀ fd', fd' ≠ fd → s₁.fds.getMut fd' = s.fds.getMut fd') ∧ s₁.fds.getMut fd ≠ none ∧
      ∀ path, s₁.content spec path = s.content spec path := by
  obtain ⟨hcwd, hstore, hnone, hok⟩ := Files.read_spec spec hfd (by decide) h
  have hcontent : ∀ path, s₁.content spec path = s.content spec path := by
    intro path
    rw [Files.content, Files.content, Mount.content, Mount.content, Mount.relOf_congr hcwd, hstore]
  cases r with
  | none =>
    rw [hnone rfl, hfd]
    exact ⟨fun _ _ => rfl, (by simp), hcontent⟩
  | some got =>
    rw [(hok got rfl).1, FdTable.getMut_put_self hfd]
    exact ⟨fun fd' hne => FdTable.getMut_put_of_ne hne _, (by simp), hcontent⟩

theorem Files.Keeps.read (h : s.Keeps spec s₁) (hfree : s.fds.getMut fd = none)
    (hother : ∀ fd', fd' ≠ fd → s₂.fds.getMut fd' = s₁.fds.getMut fd')
    (hcontent : ∀ path, s₂.content spec path = s₁.content spec path) : s.Keeps spec s₂ := by
  refine ⟨fun fd' of hget => ?_, fun fd' path off w hget =>
    (hcontent path).trans (h.content fd' path off w hget)⟩
  rw [hother fd', h.fds fd' of hget]
  rintro rfl
  rw [hfree] at hget
  cases hget

end Keeps

namespace Sourcing

section Ends

variable {fat : FatIo φ η} {spec : FatSpec fat} {c : Commands spec ω} {k : ℕ}
  {src dsp : ℕ → List Char → Sourcing φ ω → Option (Sourcing φ ω)} {st st' : Sourcing φ ω}

def Kept (spec : FatSpec fat) (st st' : Sourcing φ ω) : Prop := st.files.Keeps spec st'.files

def free (st : Sourcing φ ω) : ℕ := st.files.fds.freeSlots.card

def EndsBelow (spec : FatSpec fat) (k : ℕ)
    (f : ℕ → List Char → Sourcing φ ω → Option (Sourcing φ ω)) : Prop :=
  ∀ st x, st.free < k → Ends (Kept spec) (fun n => f n x st) st

theorem kept_refl (st : Sourcing φ ω) : Kept spec st st := .refl st.files

theorem kept_trans {a b c : Sourcing φ ω} (hab : Kept spec a b)
    (hbc : Kept spec b c) : Kept spec a c := Files.Keeps.trans hab hbc

theorem free_le (h : Kept spec st st') : st'.free ≤ st.free :=
  Finset.card_le_card (FdTable.freeSlots_subset h.fds)

theorem ends_some (h : Kept spec st st') : Ends (Kept spec) (fun _ => some st') st :=
  ⟨st', gives_some st', h⟩

theorem dispatchSingle_ends (hsrc : EndsBelow spec k src) (hk : st.free < k) (line : List Char) :
    Ends (Kept spec) (fun n => dispatchSingle c (src n) line st) st := by
  unfold dispatchSingle
  cases actOn st.table line with
  | runLine line => exact ends_some (c.keeps _ _)
  | command cmd args =>
    dsimp only
    by_cases hexit : cmd = "exit".toList
    · simp only [if_pos hexit]
      exact ends_some (kept_refl st)
    by_cases halias : cmd = "alias".toList
    · simp only [if_neg hexit, if_pos halias]
      exact ends_some (kept_refl st)
    by_cases hunalias : cmd = "unalias".toList
    · simp only [if_neg hexit, if_neg halias, if_pos hunalias]
      exact ends_some (kept_refl st)
    by_cases hsource : cmd = "source".toList ∨ cmd = ".".toList
    · simp only [if_neg hexit, if_neg halias, if_neg hunalias, if_pos hsource]
      exact hsrc (st.withStatus 0) args hk
    · simp only [if_neg hexit, if_neg halias, if_neg hunalias, if_neg hsource]
      exact ends_some (c.keeps _ (st.withStatus 0))

theorem dispatchNext_ends (hsrc : EndsBelow spec k src) (hk : st.free < k) (sub : List Char) :
    Ends (Kept spec) (fun n => dispatchNext c (src n) st sub) st := by
  unfold dispatchNext
  cases st.running with
  | true => exact dispatchSingle_ends hsrc hk sub
  | false => exact ends_some (kept_refl st)

theorem dispatchLine_ends (hsrc : EndsBelow spec k src) :
    EndsBelow spec k fun n => dispatchLine c (src n) :=
  fun _ _ hk => ends_foldlM kept_refl kept_trans (fun _ hkept sub =>
    dispatchNext_ends hsrc ((free_le hkept).trans_lt hk) sub) _

theorem dispatchBytes_ends (hdsp : EndsBelow spec k dsp) (hk : st.free < k) (line : Bytes) :
    Ends (Kept spec) (fun n => dispatchBytes (dsp n) line st) st := by
  unfold dispatchBytes
  cases fromUtf8 line with
  | none => exact ends_some (kept_refl st)
  | some text => exact hdsp st text hk

theorem feedBytes_ends (hdsp : EndsBelow spec k dsp) (hk : st.free < k) (bs lineBuf : Bytes) :
    ∃ r, Gives (fun n => feedBytes (dsp n) bs lineBuf st) r ∧ Kept spec st r.2 := by
  induction bs generalizing lineBuf st with
  | nil => exact ⟨(lineBuf, st), gives_some _, kept_refl st⟩
  | cons b bs ih =>
    unfold feedBytes
    by_cases hrunning : st.running = false
    · simp only [if_pos hrunning]
      exact ⟨(lineBuf, st), gives_some _, kept_refl st⟩
    by_cases hb : b = newline
    · simp only [if_neg hrunning, if_pos hb]
      obtain ⟨st₁, hline, hkept⟩ := dispatchBytes_ends hdsp hk lineBuf
      obtain ⟨r, hrest, hkept'⟩ := ih ((free_le hkept).trans_lt hk) []
      exact ⟨r, hline.bind hrest, kept_trans hkept hkept'⟩
    · simp only [if_neg hrunning, if_neg hb]
      exact ih hk _

theorem lastLine_ends (hdsp : EndsBelow spec k dsp) (hk : st.free < k) (lineBuf : Bytes) :
    Ends (Kept spec) (fun n => lastLine (dsp n) lineBuf st) st := by
  unfold lastLine
  by_cases hlast : st.running ∧ lineBuf ≠ []
  · simp only [if_pos hlast]
    exact dispatchBytes_ends hdsp hk lineBuf
  · simp only [if_neg hlast]
    exact ends_some (kept_refl st)

theorem free_lt {fd : ℕ} (h : Kept spec st st') (hfree : st.files.fds.getMut fd = none)
    (hopen : st'.files.fds.getMut fd ≠ none) : st'.free < st.free := by
  obtain ⟨of, hof⟩ := Option.ne_none_iff_exists'.mp hopen
  exact FdTable.freeSlots_lt h.fds hfree hof

def LeftAtMost (spec : FatSpec fat) (fd left : ℕ) (s : Files φ) : Prop := ∀ path off w d,
  s.fds.getMut fd = some (.file path off w) → s.content spec path = some d → d.length - off ≤ left

theorem LeftAtMost.keeps {fd left : ℕ} {s s' : Files φ} (h : LeftAtMost spec fd left s)
    (hs : s.Keeps spec s') (hopen : s.fds.getMut fd ≠ none) : LeftAtMost spec fd left s' := by
  intro path off w d hfd hd
  obtain ⟨of, hof⟩ := Option.ne_none_iff_exists'.mp hopen
  obtain rfl := Option.some.inj ((hs.fds fd of hof).symm.trans hfd)
  rw [hs.content fd path off w hof] at hd
  exact h path off w d hof hd

variable (spec) in
theorem read_others {fd : ℕ} {s s₁ : Files φ} {r : Option Bytes} (hopen : s.fds.getMut fd ≠ none)
    (hread : s.read fat fd bufLen = (r, s₁)) :
    (∀ fd', fd' ≠ fd → s₁.fds.getMut fd' = s.fds.getMut fd') ∧ s₁.fds.getMut fd ≠ none ∧
      ∀ path, s₁.content spec path = s.content spec path := by
  obtain ⟨of, hfd⟩ := Option.ne_none_iff_exists'.mp hopen
  cases of with
  | stdin | stdout | stderr | dir _ _ | pipe _ _ =>
    rw [Files.read, if_neg (by decide), hfd] at hread
    obtain ⟨-, rfl⟩ := Prod.mk.inj hread
    exact ⟨fun _ _ => rfl, hopen, fun _ => rfl⟩
  | file path off w => exact read_keeps spec hfd hread

theorem read_left {fd left : ℕ} {s s₁ : Files φ} (hleft : LeftAtMost spec fd left s) {b : UInt8}
    {bs : Bytes} (hread : s.read fat fd bufLen = (some (b :: bs), s₁)) :
    0 < left ∧ LeftAtMost spec fd (left - 1) s₁ := by
  rcases hfd : s.fds.getMut fd with _ | of
  · rw [Files.read, if_neg (by decide), hfd] at hread
    cases hread
  cases of with
  | stdin | stdout | stderr | dir _ _ | pipe _ _ =>
    rw [Files.read, if_neg (by decide), hfd] at hread
    cases hread
  | file path off w =>
    obtain ⟨-, -, hcontent⟩ := read_keeps spec hfd hread
    obtain ⟨-, -, -, hok⟩ := Files.read_spec spec hfd (by decide) hread
    obtain ⟨hfds, i, hi, hgot, -⟩ := hok _ rfl
    have hd : s.content spec path = some ((s.mount.store spec).data i) := content_of_node hi
    have hle := hleft path off w _ hfd hd
    have hlen := congrArg List.length hgot
    rw [List.length_take, List.length_drop, List.length_cons] at hlen
    refine ⟨by omega, ?_⟩
    intro path' off' w' d hfd' hd'
    rw [hfds, FdTable.getMut_put_self hfd] at hfd'
    obtain ⟨rfl, rfl, rfl⟩ := OpenFd.file.inj (Option.some.inj hfd')
    rw [hcontent] at hd'
    obtain rfl := Option.some.inj (hd.symm.trans hd')
    rw [List.length_cons]
    omega

theorem sourceLoop_ends (hdsp : EndsBelow spec k dsp) {fd left : ℕ} (hk : st.free ≤ k)
    (hfree : st.files.fds.getMut fd = none) (hkept : Kept spec st st')
    (hopen : st'.files.fds.getMut fd ≠ none) (hleft : LeftAtMost spec fd left st'.files)
    (lineBuf : Bytes) :
    ∃ r, (∀ᶠ n in Filter.atTop, ∀ m, left < m → sourceLoop (dsp n) fat fd m lineBuf st' = some r) ∧
    Kept spec st r.2 ∧ r.2.files.fds.getMut fd ≠ none := by
  induction left using Nat.strong_induction_on generalizing st' lineBuf with
  | _ left ih =>
    have hstep : ∀ m, left < m → ∃ m', m = m' + 1 ∧ left ≤ m' :=
      fun m hm => ⟨m - 1, by omega, by omega⟩
    by_cases hrunning : st'.running = false
    · refine ⟨(lineBuf, st'), .of_forall fun n m hm => ?_, hkept, hopen⟩
      obtain ⟨m, rfl, -⟩ := hstep m hm
      rw [sourceLoop, if_pos hrunning]
    rcases hread : st'.files.read fat fd bufLen with ⟨got, files⟩
    obtain ⟨hother, hstays, hcontent⟩ := read_others spec hopen hread
    have hnext : Kept spec st (st'.withFiles files) := Files.Keeps.read hkept hfree hother hcontent
    have hend : got = none ∨ got = some [] → ∃ r, (∀ᶠ n in Filter.atTop, ∀ m, left < m →
        sourceLoop (dsp n) fat fd m lineBuf st' = some r) ∧ Kept spec st r.2 ∧
        r.2.files.fds.getMut fd ≠ none := by
      intro hgot
      refine ⟨(lineBuf, st'.withFiles files), .of_forall fun n m hm => ?_, hnext, hstays⟩
      obtain ⟨m, rfl, -⟩ := hstep m hm
      rw [sourceLoop, if_neg hrunning, hread]
      rcases hgot with rfl | rfl
      · rfl
      · rfl
    rcases got with _ | _ | ⟨b, bs⟩
    · exact hend (.inl rfl)
    · exact hend (.inr rfl)
    -- The script is open, so the scripts that its lines run have a descriptor less.
    obtain ⟨hpos, hless⟩ := read_left hleft hread
    have hbelow : (st'.withFiles files).free < k := (free_lt hnext hfree hstays).trans_le hk
    obtain ⟨⟨lineBuf₁, st₁⟩, hfeed, hkept₁⟩ := feedBytes_ends hdsp hbelow (b :: bs) lineBuf
    obtain ⟨of, hof⟩ := Option.ne_none_iff_exists'.mp hstays
    have hopen₁ : st₁.files.fds.getMut fd ≠ none := by
      rw [hkept₁.fds fd of hof]
      exact nofun
    obtain ⟨r, hrest, hdone⟩ :=
      ih (left - 1) (by omega) (kept_trans hnext hkept₁) hopen₁ (hless.keeps hkept₁ hstays) lineBuf₁
    refine ⟨r, ?_, hdone⟩
    filter_upwards [hfeed, hrest] with n hn hloop m hm
    obtain ⟨m, rfl, hm'⟩ := hstep m hm
    rw [sourceLoop, if_neg hrunning, hread]
    dsimp only
    rw [hn, Option.bind_eq_bind, Option.bind_some]
    exact hloop m (by omega)

theorem cmdSource_ends (hdsp : EndsBelow spec k dsp) (hk : st.free ≤ k) (args : List Char) :
    Ends (Kept spec) (fun n => cmdSource (dsp n) fat n args st) st := by
  unfold cmdSource
  cases splitWhitespace args with
  | nil => exact ends_some (kept_refl st)
  | cons pathArg _ =>
    dsimp only
    rcases hopen :
        st.files.openPath fat (resolve st.cwd (utf8 pathArg)) openRead with ⟨_ | fd, files⟩
    · exact ends_some (openPath_keeps hopen)
    have hkept : Kept spec st (st.withFiles files) := openPath_keeps hopen
    have hfree := (Files.openPath_read_fds hopen).2 fd rfl
    have hstays : (st.withFiles files).files.fds.getMut fd ≠ none := by
      rcases (Files.openPath_read hopen).2 fd rfl with ⟨ents, hdir⟩ | ⟨hfile, -⟩
      · exact fun hnone => nomatch hdir.symm.trans hnone
      · exact fun hnone => nomatch hfile.symm.trans hnone
    obtain ⟨left, hleft⟩ : ∃ left, LeftAtMost spec fd left (st.withFiles files).files := by
      rcases hget : (st.withFiles files).files.fds.getMut fd with _ | of
      · exact absurd hget hstays
      cases of with
      | stdin | stdout | stderr | dir _ _ | pipe _ _ =>
        exact ⟨0, fun path off w d hfd => nomatch hget.symm.trans hfd⟩
      | file path off w =>
        refine ⟨((st.withFiles files).files.content spec path).elim 0 List.length,
          fun path' off' w' d hfd hd => ?_⟩
        obtain ⟨rfl, rfl, rfl⟩ := OpenFd.file.inj (Option.some.inj (hget.symm.trans hfd))
        rw [hd]
        exact Nat.sub_le _ _
    obtain ⟨⟨lineBuf, st₁⟩, hloop, hkept₁, hopen₁⟩ :=
      sourceLoop_ends hdsp hk hfree hkept hstays hleft []
    have hbelow : st₁.free < k := (free_lt hkept₁ hfree hopen₁).trans_le hk
    obtain ⟨st₂, hlast, hkept₂⟩ := lastLine_ends hdsp hbelow lineBuf
    refine ⟨st₂.withFiles (st₂.files.close fd), ?_,
      Files.Keeps.close (kept_trans hkept₁ hkept₂) hfree⟩
    filter_upwards [hloop, hlast, Filter.eventually_gt_atTop left] with n hn hl hlt
    rw [hn n hlt, Option.bind_eq_bind, Option.bind_some]
    dsimp only
    rw [hl, Option.bind_eq_bind, Option.bind_some]

theorem source_ends (c : Commands spec ω) (k : ℕ) : EndsBelow spec k (source c) := by
  induction k with
  | zero => exact fun st args hk => absurd hk (Nat.not_lt_zero _)
  | succ k ih =>
    intro st args hk
    obtain ⟨st', hgives, hkept⟩ :=
      cmdSource_ends (dispatchLine_ends (c := c) ih) (Nat.le_of_lt_succ hk) args
    exact ⟨st', hgives.of_succ, hkept⟩

/-- Whatever the files, the aliases and the line are, running the line ends: from some fuel on it
gives one and the same result. -/
theorem dispatch_terminates (c : Commands spec ω) (line : List Char) (st : Sourcing φ ω) :
    ∃ st' n, ∀ fuel, n ≤ fuel → dispatch c fuel line st = some st' := by
  obtain ⟨st', hgives, -⟩ :=
    dispatchLine_ends (c := c) (source_ends c (st.free + 1)) st line (Nat.lt_succ_self _)
  obtain ⟨n, hn⟩ := hgives.exists_budget
  exact ⟨st', n, hn⟩

end Ends

section Flat

def quiet : Commands (flatSpec 16) Unit := ⟨fun _ st => st, fun _ st => .refl st.files⟩

def selfSourcing : Sourcing (Bytes → Option Bytes) Unit :=
  ⟨⟨⟨some (fun name => if name = [0x61] then some (utf8 "source /a\n".toList) else none), [slash]⟩,
    .newStdio⟩, [slash], .empty, 0, true, ()⟩

example : (dispatch quiet 15 "source /a".toList selfSourcing).map Sourcing.lastStatus = some 1 := by
  decide +kernel

end Flat

end Sourcing

end CoeleoOs.Sh
