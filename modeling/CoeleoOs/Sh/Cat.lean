import CoeleoOs.Sh.CopyMove

/-!
# `cat`

The built-in command and the program read a file in pieces of at most 512 bytes and write each piece
to the console. The console takes a piece as a whole, and only if it is UTF-8 by itself.
-/

namespace CoeleoOs.Task

variable {b c : Bytes}

theorem utf8Step_between (st : Utf8State) (h : st.need = 0) (b : UInt8) :
    utf8Step st b = utf8Step ⟨0, 0, 0⟩ b := by
  rw [utf8Step, utf8Step, if_pos h, if_pos rfl]

theorem utf8Valid_between (st : Utf8State) (h : st.need = 0) (b : Bytes) :
    (match b.foldlM utf8Step st with | some st => st.need == 0 | none => false) = utf8Valid b := by
  rw [utf8Valid]
  cases b with
  | nil =>
    rw [List.foldlM_nil, List.foldlM_nil]
    exact beq_iff_eq.mpr h
  | cons x b =>
    rw [List.foldlM_cons, List.foldlM_cons]
    exact utf8Step_between st h x ▸ rfl

theorem utf8Valid_append (h : utf8Valid b = true) (c : Bytes) :
    utf8Valid (b ++ c) = utf8Valid c := by
  rw [utf8Valid] at h
  rw [utf8Valid, List.foldlM_append]
  cases hb : b.foldlM utf8Step ⟨0, 0, 0⟩ with
  | none =>
    rw [hb] at h
    cases h
  | some st =>
    rw [hb] at h
    exact utf8Valid_between st (beq_iff_eq.mp h) c

theorem pieces_valid_iff (cs : List Bytes) :
    (∀ c ∈ cs, utf8Valid c = true) ↔ ∀ cs', cs' <+: cs → utf8Valid cs'.flatten = true := by
  induction cs with
  | nil =>
    refine iff_of_true nofun fun cs' hcs => ?_
    rw [List.prefix_nil.mp hcs]
    rfl
  | cons c cs ih =>
    rw [List.forall_mem_cons, ih]
    constructor
    · rintro ⟨hc, hcs⟩ cs' hprefix
      cases cs' with
      | nil => rfl
      | cons c' cs' =>
        obtain ⟨rfl, hrest⟩ := List.cons_prefix_cons.mp hprefix
        rw [List.flatten_cons, utf8Valid_append hc]
        exact hcs cs' hrest
    · intro hall
      have hc := hall [c] (List.cons_prefix_cons.mpr ⟨rfl, List.nil_prefix⟩)
      rw [List.flatten_singleton] at hc
      refine ⟨hc, fun cs' hprefix => ?_⟩
      have hlong := hall (c :: cs') (List.cons_prefix_cons.mpr ⟨rfl, hprefix⟩)
      rwa [List.flatten_cons, utf8Valid_append hc] at hlong

end CoeleoOs.Task

namespace CoeleoOs.Sh
open CoeleoOs.Lib CoeleoOs.Lib.FileStore CoeleoOs.Lib.Text CoeleoOs.Fs
open CoeleoOs.Task (Bytes FdTable OpenFd ioMax utf8Valid pieces_valid_iff)

variable {φ η : Type}

/-- The files of a process whose output is the console. -/
structure Console (φ : Type) where
  files : Files φ
  shown : Bytes

namespace Console

def write (s : Console φ) (buf : Bytes) : Option ℕ × Console φ :=
  if ioMax < buf.length then (none, s)
  else if utf8Valid buf then (some buf.length, { s with shown := s.shown ++ buf })
  else (none, s)

def print (s : Console φ) (text : String) : Console φ := (s.write (utf8 text.toList)).2

def withFiles (s : Console φ) (files : Files φ) : Console φ := { s with files := files }

end Console

def catLoop (fat : FatIo φ η) (fd : ℕ) : ℕ → Console φ → Option (Console φ)
  | 0, _ => none
  | fuel + 1, s =>
    match s.files.read fat fd bufLen with
    | (none, files) => some ((s.withFiles files).print "cat: read failed\n")
    | (some [], files) => some (s.withFiles files)
    | (some (b :: bs), files) => catLoop fat fd fuel ((s.withFiles files).write (b :: bs)).2

def cmdCat (fat : FatIo φ η) (fuel : ℕ) (cwd : Bytes) (args : List Char) (s : Console φ) :
    Option (Console φ) :=
  if args = [] then some (s.print "cat: missing path\n")
  else
    match s.files.openPath fat (resolve cwd (utf8 args)) openRead with
    | (none, files) => some ((s.withFiles files).print "cat: not found\n")
    | (some fd, files) =>
      match files.readdir fd with
      | (some _, files) => some ((s.withFiles (files.close fd)).print "cat: is a directory\n")
      | (none, files) => do
        let s ← catLoop fat fd fuel (s.withFiles files)
        some (s.withFiles (s.files.close fd))

def writeOut : ℕ → Bytes → Console φ → Outcome × Console φ
  | _, [], s => (.ok, s)
  | 0, _ :: _, s => (.running, s)
  | fuel + 1, b :: bs, s =>
    match s.write (b :: bs) with
    | (none, s) => (.err, s)
    | (some w, s) => writeOut fuel ((b :: bs).drop w) s

-- The exit code goes first.
def copyFd (fat : FatIo φ η) (fd : ℕ) : ℕ → Console φ → Option (ℕ × Console φ)
  | 0, _ => none
  | fuel + 1, s =>
    match s.files.read fat fd bufLen with
    | (none, files) => some (1, (s.withFiles files).print "cat: read failed\n")
    | (some [], files) => some (0, s.withFiles files)
    | (some (b :: bs), files) =>
      match writeOut (fuel + 1) (b :: bs) (s.withFiles files) with
      | (.ok, s) => copyFd fat fd fuel s
      | (.err, s) => some (1, s)
      | (.running, _) => none

def cstr (p : Option Bytes) : Bytes :=
  match p with
  | none => []
  | some bytes => if utf8Valid (bytes.take 255) then bytes.take 255 else []

/-- The loop over the arguments behind the name of the program. -/
def catArgs (fat : FatIo φ η) (fuel : ℕ) :
    List (Option Bytes) → ℕ → Console φ → Option (ℕ × Console φ)
  | [], code, s => some (code, s)
  | p :: ps, code, s =>
    if cstr p = [] then catArgs fat fuel ps 1 (s.print "cat: missing path\n")
    else
      match s.files.openPath fat (cstr p) openRead with
      | (none, files) => catArgs fat fuel ps 1 ((s.withFiles files).print "cat: not found\n")
      | (some fd, files) => do
        let (r, s) ← copyFd fat fd fuel (s.withFiles files)
        catArgs fat fuel ps (if r = 0 then code else 1) (s.withFiles (s.files.close fd))

/-- Reads that all succeed give these pieces, and then the end of the file. -/
inductive Splits (fat : FatIo φ η) (fd : ℕ) : Files φ → List Bytes → Files φ → Prop
  | done {s s' : Files φ} : s.read fat fd bufLen = (some [], s') → Splits fat fd s [] s'
  | more {s s₁ s' : Files φ} {b : UInt8} {bs : Bytes} {cs : List Bytes} :
    s.read fat fd bufLen = (some (b :: bs), s₁) → Splits fat fd s₁ cs s' →
    Splits fat fd s ((b :: bs) :: cs) s'

section Write

variable {s : Console φ} {buf shown : Bytes}

theorem write_valid (hlen : buf.length ≤ bufLen) (h : utf8Valid buf = true) :
    s.write buf = (some buf.length, { s with shown := s.shown ++ buf }) := by
  rw [Console.write, if_neg (Nat.not_lt_of_le (hlen.trans (by decide))), if_pos h]

theorem write_invalid (h : ¬utf8Valid buf = true) : s.write buf = (none, s) := by
  rw [Console.write, if_neg h, ite_self]

theorem writeOut_valid {fuel : ℕ} {b : UInt8} {bs : Bytes} (hlen : (b :: bs).length ≤ bufLen)
    (h : utf8Valid (b :: bs) = true) :
    writeOut (fuel + 1) (b :: bs) s = (.ok, { s with shown := s.shown ++ (b :: bs) }) := by
  rw [writeOut, write_valid hlen h]
  dsimp only
  rw [List.drop_length]
  cases fuel with
  | zero | succ => rfl

theorem writeOut_invalid {fuel : ℕ} {b : UInt8} {bs : Bytes} (h : ¬utf8Valid (b :: bs) = true) :
    writeOut (fuel + 1) (b :: bs) s = (.err, s) := by
  rw [writeOut, write_invalid h]

end Write

section Read

variable {fat : FatIo φ η} (spec : FatSpec fat) {s s' : Files φ} {fd n : ℕ} {path b : Bytes}
    {cs : List Bytes}

include spec

theorem read_piece (hfd : s.fds.getMut fd = some (.file path n false))
    (hcontent : s.content spec path = some b) (hn : n ≤ b.length) {got : Bytes}
    (hread : s.read fat fd bufLen = (some got, s')) :
    got.length ≤ bufLen ∧ n + got.length ≤ b.length ∧ got = (b.drop n).take got.length ∧
    (got = [] → n = b.length) ∧ s'.fds.getMut fd = some (.file path (n + got.length) false) ∧
    s'.content spec path = some b := by
  obtain ⟨hcwd, hstore, -, hok⟩ := Files.read_spec spec hfd (by decide) hread
  obtain ⟨hfds, i, hi, hgot, hend⟩ := hok got rfl
  obtain ⟨j, hj, hdata⟩ := content_eq_some.mp hcontent
  obtain rfl := Option.some.inj (hi.symm.trans hj)
  rw [hdata, Nat.min_eq_left hn] at hgot
  rw [hdata] at hend
  have hlen := congrArg List.length hgot
  rw [List.length_take, List.length_drop] at hlen
  refine ⟨Files.read_length spec hfd (by decide) hread,
    by omega, hgot, fun hnil => Nat.le_antisymm hn (hend hnil), ?_, ?_⟩
  · rw [hfds]
    exact FdTable.getMut_put_self hfd _
  · rw [Files.content, Mount.content, Mount.relOf_congr hcwd, hstore]
    exact hcontent

theorem splits_flatten (h : Splits fat fd s cs s')
    (hfd : s.fds.getMut fd = some (.file path n false)) (hcontent : s.content spec path = some b)
    (hn : n ≤ b.length) : cs.flatten = b.drop n := by
  induction h generalizing n with
  | done hread =>
    obtain ⟨-, -, -, hend, -⟩ := read_piece spec hfd hcontent hn hread
    rw [hend rfl, List.drop_length, List.flatten_nil]
  | @more _ _ _ x bs _ hread _ ih =>
    obtain ⟨-, hle, hgot, -, hnext, hkept⟩ := read_piece spec hfd hcontent hn hread
    have hjoin := List.take_append_drop (x :: bs).length (b.drop n)
    rw [← hgot, List.drop_drop] at hjoin
    rw [List.flatten_cons, ih hnext hkept hle, hjoin]

theorem exists_splits (hread : ∀ (s : Files φ) (n : ℕ), s.fds.getMut fd =
    some (.file path n false) → s.content spec path = some b → (s.read fat fd bufLen).1 ≠ none)
      (hfd : s.fds.getMut fd = some (.file path n false)) (hcontent : s.content spec path = some b)
      (hn : n ≤ b.length) : ∃ cs s', Splits fat fd s cs s' := by
  obtain ⟨k, hk⟩ : ∃ k, b.length - n = k := ⟨_, rfl⟩
  induction k using Nat.strong_induction_on generalizing s n with
  | _ k ih =>
    rcases hgot : s.read fat fd bufLen with ⟨_ | got, s₁⟩
    · exact absurd (congrArg Prod.fst hgot) (hread s n hfd hcontent)
    · obtain ⟨-, hle, -, -, hnext, hkept⟩ := read_piece spec hfd hcontent hn hgot
      cases got with
      | nil => exact ⟨[], s₁, .done hgot⟩
      | cons x bs =>
        rw [List.length_cons] at hle
        obtain ⟨cs, s', hcs⟩ := ih (b.length - (n + (bs.length + 1))) (by omega) hnext hkept hle rfl
        exact ⟨(x :: bs) :: cs, s', .more hgot hcs⟩

theorem catLoop_eq (h : Splits fat fd s cs s') (hfd : s.fds.getMut fd = some (.file path n false))
    (hcontent : s.content spec path = some b) (hn : n ≤ b.length) (shown : Bytes) {fuel : ℕ}
    (hfuel : cs.length < fuel) :
    catLoop fat fd fuel ⟨s, shown⟩ = some ⟨s', shown ++ (cs.filter utf8Valid).flatten⟩ := by
  induction h generalizing n shown fuel with
  | done hread =>
    obtain ⟨fuel, rfl⟩ := Nat.exists_eq_succ_of_ne_zero (Nat.ne_of_gt hfuel)
    rw [catLoop, hread, List.filter_nil, List.flatten_nil, List.append_nil]
    rfl
  | @more _ s₁ _ x bs cs hread _ ih =>
    obtain ⟨fuel, rfl⟩ := Nat.exists_eq_succ_of_ne_zero (Nat.ne_of_gt (Nat.zero_lt_of_lt hfuel))
    obtain ⟨hlen, hle, -, -, hnext, hkept⟩ := read_piece spec hfd hcontent hn hread
    have hrest := fun shown => ih hnext hkept hle shown (Nat.lt_of_succ_lt_succ hfuel)
    rw [catLoop, hread]
    dsimp only [Console.withFiles]
    by_cases hvalid : utf8Valid (x :: bs) = true
    · rw [write_valid hlen hvalid, hrest, List.filter_cons_of_pos hvalid, List.flatten_cons,
        List.append_assoc]
    · rw [write_invalid hvalid, hrest, List.filter_cons_of_neg hvalid]

theorem copyFd_eq (h : Splits fat fd s cs s') (hfd : s.fds.getMut fd = some (.file path n false))
    (hcontent : s.content spec path = some b) (hn : n ≤ b.length) (shown : Bytes) :
    ∃ r t, (∀ fuel, cs.length < fuel → copyFd fat fd fuel ⟨s, shown⟩ = some (r, t)) ∧
      t.shown = shown ++ (cs.takeWhile utf8Valid).flatten := by
  induction h generalizing n shown with
  | @done _ s' hread =>
    refine ⟨0, ⟨s', shown⟩, fun fuel hfuel => ?_, ?_⟩
    · obtain ⟨fuel, rfl⟩ := Nat.exists_eq_succ_of_ne_zero (Nat.ne_of_gt hfuel)
      rw [copyFd, hread]
      rfl
    · rw [List.takeWhile_nil, List.flatten_nil, List.append_nil]
  | @more _ s₁ _ x bs cs hread _ ih =>
    obtain ⟨hlen, hle, -, -, hnext, hkept⟩ := read_piece spec hfd hcontent hn hread
    by_cases hvalid : utf8Valid (x :: bs) = true
    · obtain ⟨r, t, hrun, hshown⟩ := ih hnext hkept hle (shown ++ (x :: bs))
      refine ⟨r, t, fun fuel hfuel => ?_, ?_⟩
      · obtain ⟨fuel, rfl⟩ := Nat.exists_eq_succ_of_ne_zero (Nat.ne_of_gt (Nat.zero_lt_of_lt hfuel))
        rw [copyFd, hread]
        dsimp only [Console.withFiles]
        rw [writeOut_valid hlen hvalid]
        exact hrun fuel (Nat.lt_of_succ_lt_succ hfuel)
      · rw [hshown, List.takeWhile_cons_of_pos hvalid, List.flatten_cons, List.append_assoc]
    · refine ⟨1, ⟨s₁, shown⟩, fun fuel hfuel => ?_, ?_⟩
      · obtain ⟨fuel, rfl⟩ := Nat.exists_eq_succ_of_ne_zero (Nat.ne_of_gt (Nat.zero_lt_of_lt hfuel))
        rw [copyFd, hread]
        dsimp only [Console.withFiles]
        rw [writeOut_invalid hvalid]
      · rw [List.takeWhile_cons_of_neg hvalid, List.flatten_nil, List.append_nil]

omit spec in
theorem splits_nonempty (h : Splits fat fd s cs s') : ∀ c ∈ cs, c ≠ [] := by
  induction h with
  | done => exact nofun
  | more _ _ ih => exact List.forall_mem_cons.mpr ⟨List.cons_ne_nil _ _, ih⟩

end Read

section Whole

variable {cs : List Bytes}

theorem flatten_filter_eq (hne : ∀ c ∈ cs, c ≠ []) :
    (cs.filter utf8Valid).flatten = cs.flatten ↔ ∀ c ∈ cs, utf8Valid c = true := by
  induction cs with
  | nil => exact iff_of_true rfl nofun
  | cons c cs ih =>
    rw [List.forall_mem_cons] at hne ⊢
    by_cases hc : utf8Valid c = true
    · rw [List.filter_cons_of_pos hc, List.flatten_cons, List.flatten_cons,
        List.append_cancel_left_eq, ih hne.2]
      exact (and_iff_right hc).symm
    · rw [List.filter_cons_of_neg hc, List.flatten_cons]
      refine iff_of_false (fun hsame => hne.1 ?_) fun hall => hc hall.1
      have hle := (List.filter_sublist (l := cs) (p := utf8Valid)).flatten.length_le
      have hlen := congrArg List.length hsame
      rw [List.length_append] at hlen
      exact List.length_eq_zero_iff.mp (by omega)

theorem flatten_takeWhile_eq (hne : ∀ c ∈ cs, c ≠ []) :
    (cs.takeWhile utf8Valid).flatten = cs.flatten ↔ ∀ c ∈ cs, utf8Valid c = true := by
  induction cs with
  | nil => exact iff_of_true rfl nofun
  | cons c cs ih =>
    rw [List.forall_mem_cons] at hne ⊢
    by_cases hc : utf8Valid c = true
    · rw [List.takeWhile_cons_of_pos hc, List.flatten_cons, List.flatten_cons,
        List.append_cancel_left_eq, ih hne.2]
      exact (and_iff_right hc).symm
    · rw [List.takeWhile_cons_of_neg hc, List.flatten_nil, List.flatten_cons]
      refine iff_of_false (fun hnil => hne.1 ?_) fun hall => hc hall.1
      exact (List.append_eq_nil_iff.mp hnil.symm).1

end Whole

section Cat

variable {fat : FatIo φ η} (spec : FatSpec fat) {s s₁ s' : Files φ} {fd : ℕ}
    {cwd path b shown : Bytes} {cs : List Bytes}

/-- No read ends within a character. -/
def EndsBetween (cs : List Bytes) : Prop := ∀ cs', cs' <+: cs → utf8Valid cs'.flatten = true

theorem openPath_nonempty (hopen : s.openPath fat path openRead = (some fd, s₁)) : path ≠ [] := by
  rintro rfl
  cases hopen

include spec

theorem opened_file (hcontent : s.content spec path = some b)
    (hopen : s.openPath fat path openRead = (some fd, s₁)) (hreads : Splits fat fd s₁ cs s') :
    s₁.fds.getMut fd = some (.file path 0 false) ∧ s₁.content spec path = some b := by
  obtain ⟨hmount, hfd⟩ := Files.openPath_read hopen
  have hkept : s₁.content spec path = some b := by
    rw [Files.content, hmount]
    exact hcontent
  rcases hfd fd rfl with ⟨ents, hdir⟩ | ⟨hfile, -⟩
  · have hno : s₁.read fat fd bufLen = (none, s₁) := by
      rw [Files.read, if_neg (by decide), hdir]
    cases hreads with
    | done hread | more hread =>
      rw [hno] at hread
      cases hread
  · exact ⟨hfile, hkept⟩

theorem cmdCat_shows {args : List Char} (hargs : args ≠ []) (hpath : resolve cwd (utf8 args) = path)
    (hcontent : s.content spec path = some b) (hopen : s.openPath fat path openRead = (some fd, s₁))
    (hreads : Splits fat fd s₁ cs s') :
    ∃ t, (∀ fuel, cs.length < fuel → cmdCat fat fuel cwd args ⟨s, shown⟩ = some t) ∧
      (t.shown = shown ++ b ↔ EndsBetween cs) := by
  obtain ⟨hfile, hkept⟩ := opened_file spec hcontent hopen hreads
  have hflat := splits_flatten spec hreads hfile hkept (Nat.zero_le _)
  have hprobe : s₁.readdir fd = (none, s₁) := by
    rw [Files.readdir, hfile]
  rw [List.drop_zero] at hflat
  refine ⟨⟨s'.close fd, shown ++ (cs.filter utf8Valid).flatten⟩, fun fuel hfuel => ?_, ?_⟩
  · rw [cmdCat, if_neg hargs, hpath, hopen]
    dsimp only [Console.withFiles]
    rw [hprobe]
    dsimp only
    rw [catLoop_eq spec hreads hfile hkept (Nat.zero_le _) shown hfuel]
    rfl
  · rw [List.append_cancel_left_eq, ← hflat, flatten_filter_eq (splits_nonempty hreads),
      pieces_valid_iff, EndsBetween]

theorem catArgs_shows {arg : Option Bytes} (harg : cstr arg = path)
    (hcontent : s.content spec path = some b) (hopen : s.openPath fat path openRead = (some fd, s₁))
    (hreads : Splits fat fd s₁ cs s') :
    ∃ code t, (∀ fuel, cs.length < fuel → catArgs fat fuel [arg] 0 ⟨s, shown⟩ = some (code, t)) ∧
      (t.shown = shown ++ b ↔ EndsBetween cs) := by
  obtain ⟨hfile, hkept⟩ := opened_file spec hcontent hopen hreads
  have hflat := splits_flatten spec hreads hfile hkept (Nat.zero_le _)
  rw [List.drop_zero] at hflat
  obtain ⟨r, t, hrun, hshown⟩ := copyFd_eq spec hreads hfile hkept (Nat.zero_le _) shown
  refine ⟨if r = 0 then 0 else 1, t.withFiles (t.files.close fd), fun fuel hfuel => ?_, ?_⟩
  · rw [catArgs, harg, if_neg (openPath_nonempty hopen), hopen]
    dsimp only [Console.withFiles]
    rw [hrun fuel hfuel]
    rfl
  · have hkeep : (t.withFiles (t.files.close fd)).shown = t.shown := rfl
    rw [hkeep, hshown, List.append_cancel_left_eq, ← hflat,
      flatten_takeWhile_eq (splits_nonempty hreads), pieces_valid_iff,
      EndsBetween]

/-- Whatever pieces the reads give, both forms of `cat` end, and each shows the whole file exactly
when no read ends within a character. -/
theorem cat_shows_iff {args : List Char} {arg : Option Bytes} (hargs : args ≠ [])
    (hpath : resolve cwd (utf8 args) = path) (harg : cstr arg = path)
    (hcontent : s.content spec path = some b) (hopen : s.openPath fat path openRead = (some fd, s₁))
    (hreads : Splits fat fd s₁ cs s') :
    (∃ t, (∀ fuel, cs.length < fuel → cmdCat fat fuel cwd args ⟨s, shown⟩ = some t) ∧
      (t.shown = shown ++ b ↔ EndsBetween cs)) ∧ ∃ code t, (∀ fuel, cs.length < fuel →
      catArgs fat fuel [arg] 0 ⟨s, shown⟩ = some (code, t)) ∧ (t.shown = shown ++ b ↔
      EndsBetween cs) :=
  ⟨cmdCat_shows spec hargs hpath hcontent hopen hreads,
    catArgs_shows spec harg hcontent hopen hreads⟩

end Cat

section Flat

def accented : Bytes := List.replicate 511 0x61 ++ [0xC3, 0xA9]

def accentedFile : Files (Bytes → Option Bytes) :=
  ⟨⟨some (fun name => if name = [0x61] then some accented else none), [slash]⟩, .newStdio⟩

theorem cat_shows_letter :
    (∃ t, (∀ fuel, 1 < fuel → cmdCat (flatFat 16) fuel [slash] ['/', 'a'] ⟨oneFile, []⟩ = some t) ∧
        (t.shown = [] ++ [0x78] ↔ EndsBetween [[0x78]])) ∧
      ∃ code t, (∀ fuel, 1 < fuel → catArgs (flatFat 16) fuel [some [0x2F, 0x61]] 0 ⟨oneFile, []⟩ =
        some (code, t)) ∧ (t.shown = [] ++ [0x78] ↔ EndsBetween [[0x78]]) := by
  have hopen : oneFile.openPath (flatFat 16) [0x2F, 0x61] openRead =
      (some 3, (oneFile.openPath (flatFat 16) [0x2F, 0x61] openRead).2) := Prod.ext (by decide) rfl
  have hreads :
      Splits (flatFat 16) 3 (oneFile.openPath (flatFat 16) [0x2F, 0x61] openRead).2 [[0x78]] _ :=
    .more (Prod.ext (by decide) rfl) (.done (Prod.ext (by decide) rfl))
  exact cat_shows_iff (flatSpec 16) (by decide) (by decide) (by decide) (by decide) hopen hreads

/-- The first read ends within `é`: the command shows neither piece, and the program stops. -/
theorem cat_drops_pieces : utf8Valid accented = true ∧
    accentedFile.content (flatSpec 1000) [0x2F, 0x61] = some accented ∧
    (cmdCat (flatFat 1000) 4 [slash] ['/', 'a'] ⟨accentedFile, []⟩).map Console.shown = some [] ∧
    (catArgs (flatFat 1000) 4 [some [0x2F, 0x61]] 0 ⟨accentedFile, []⟩).map
      (fun r => (r.1, r.2.shown)) = some (1, []) := by
  refine ⟨by decide +kernel, by decide +kernel, by decide +kernel, by decide +kernel⟩

end Flat

end CoeleoOs.Sh
