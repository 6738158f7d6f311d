import CoeleoOs.Lib.Lines
import CoeleoOs.Sh.TextOut

/-!
# `head` and `tail`

`head` stops behind the newline of the last line that was asked for. `tail` counts the newlines
of the file and reads it once more, so that a last line without a newline comes in addition to
the lines that were asked for.
-/

namespace CoeleoOs.Sh
open CoeleoOs.Lib CoeleoOs.Lib.Text CoeleoOs.Lib.Lines CoeleoOs.Fs
open CoeleoOs.Task (Bytes)

variable {φ η : Type}

structure LimitScan where
  n : ℕ
  path : List Char
  expectN : Bool

def LimitScan.take (s : LimitScan) (digits : List Char) : LimitScan :=
  { s with n := match parseUsize (utf8 digits) with | some val => max val 1 | none => s.n }

def isDigit (c : Char) : Bool := '0' ≤ c && c ≤ '9'

def LimitScan.word (s : LimitScan) (word : List Char) : LimitScan :=
  if s.expectN then { s.take word with expectN := false }
  else if word = ['-', 'n'] then { s with expectN := true }
  else if ['-', 'n'] <+: word ∧ 2 < word.length then s.take (word.drop 2)
  else if word.head? = some '-' ∧ (word.drop 1).head?.any isDigit then s.take (word.drop 1)
  else if s.path = [] then { s with path := word }
  else s

def parseLineLimit (args : List Char) (default : ℕ) : ℕ × List Char :=
  let s := (splitWhitespace args).foldl LimitScan.word ⟨default, [], false⟩
  (s.n, s.path)

def lineCommand (fat : FatIo φ η) (name : String)
    (body : ℕ → Bytes → ℕ → Written φ → Option (Written φ)) (cwd : Bytes)
    (args : List Char) (s : Written φ) : Option (Written φ) :=
  let (limit, pathArg) := parseLineLimit args 10
  if pathArg = []
    then some ((s.put (errMsg name "missing file path")).put (usage name "[-n lines] <file>"))
  else
    let path := resolve cwd (utf8 pathArg)
    match s.files.openPath fat path openRead with
    | (none, files) =>
      some (((s.withFiles files).put [lit name, lit ": not found\n"]).put
        (errTarget name pathArg "file not found"))
    | (some fd, files) =>
      match files.readdir fd with
      | (some _, files) =>
        some ((s.withFiles (files.close fd)).put (errTarget name pathArg "is a directory"))
      | (none, files) => body limit path fd (s.withFiles files)

def headChunk (limit : ℕ) : Bytes → Bytes → ℕ → Written φ → ℕ × Written φ
  | [], line, printed, s => (printed, if printed < limit ∧ line ≠ [] then s.put [.text line] else s)
  | b :: bs, line, printed, s =>
    if b = newline then
      if limit ≤ printed + 1 then (printed + 1, s.put [.text (line ++ [b])])
      else headChunk limit bs [] (printed + 1) (s.put [.text (line ++ [b])])
    else headChunk limit bs (line ++ [b]) printed s

def headLoop (fat : FatIo φ η) (limit fd : ℕ) : ℕ → ℕ → Written φ → Option (Written φ)
  | 0, _, _ => none
  | fuel + 1, printed, s =>
    match s.files.read fat fd bufLen with
    | (none, files) | (some [], files) => some (s.withFiles files)
    | (some (b :: bs), files) =>
      let (printed, s) := headChunk limit (b :: bs) [] printed (s.withFiles files)
      if limit ≤ printed then some s else headLoop fat limit fd fuel printed s

def cmdHead (fat : FatIo φ η) (fuel : ℕ) : Bytes → List Char → Written φ → Option (Written φ) :=
  lineCommand fat "head" fun limit _ fd s => do
    let s ← headLoop fat limit fd fuel 0 s
    some (s.withFiles (s.files.close fd))

def countLoop (fat : FatIo φ η) (fd : ℕ) : ℕ → ℕ → Files φ → Option (ℕ × Files φ)
  | 0, _, _ => none
  | fuel + 1, total, s =>
    match s.read fat fd bufLen with
    | (none, s) | (some [], s) => some (total, s)
    | (some (b :: bs), s) => countLoop fat fd fuel (total + (b :: bs).count newline) s

def tailChunk (skip : ℕ) : Bytes → Bytes → ℕ → Written φ → ℕ × Written φ
  | [], line, cur, s => (cur, if skip ≤ cur ∧ line ≠ [] then s.put [.text line] else s)
  | b :: bs, line, cur, s =>
    if b = newline then tailChunk skip bs [] (cur + 1) (if skip ≤ cur
      then s.put [.text (line ++ [b])] else s)
    else tailChunk skip bs (line ++ [b]) cur s

def tailLoop (fat : FatIo φ η) (skip fd : ℕ) : ℕ → ℕ → Written φ → Option (Written φ)
  | 0, _, _ => none
  | fuel + 1, cur, s =>
    match s.files.read fat fd bufLen with
    | (none, files) | (some [], files) => some (s.withFiles files)
    | (some (b :: bs), files) =>
      let (cur, s) := tailChunk skip (b :: bs) [] cur (s.withFiles files)
      tailLoop fat skip fd fuel cur s

def cmdTail (fat : FatIo φ η) (fuel : ℕ) : Bytes → List Char → Written φ → Option (Written φ) :=
  lineCommand fat "tail" fun limit path fd s => do
    let (total, files) ← countLoop fat fd fuel 0 s.files
    let s := s.withFiles (files.close fd)
    match s.files.openPath fat path openRead with
    | (none, files) => some (s.withFiles files)
    | (some fd, files) => do
      let s ← tailLoop fat (total - limit) fd fuel 0 (s.withFiles files)
      some (s.withFiles (s.files.close fd))

section Args

variable {args : List Char} {k : ℕ} {digits name : List Char}

theorem parseLineLimit_n (hargs : splitWhitespace args = [['-', 'n'], digits, name])
    (hdigits : utf8 digits = printNum k) (hpos : 1 ≤ k) (hlt : k < 2 ^ 64)
    (hname : name.head? ≠ some '-') : parseLineLimit args 10 = (k, name) := by
  have htake : (LimitScan.mk 10 [] true).take digits = ⟨k, [], true⟩ := by
    rw [LimitScan.take, hdigits, parse_printNum hlt]
    simp [Nat.max_eq_left hpos]
  have hpath : (LimitScan.mk k [] false).word name = ⟨k, name, false⟩ := by
    cases name with
    | nil => rfl
    | cons c cs =>
      have hc : c ≠ '-' := fun h => hname (congrArg some h)
      simp [LimitScan.word, hc, Ne.symm hc]
  have hoption : (LimitScan.mk 10 [] false).word ['-', 'n'] = ⟨10, [], true⟩ := rfl
  rw [parseLineLimit, hargs, List.foldl_cons, hoption, List.foldl_cons, LimitScan.word, if_pos rfl,
    htake, List.foldl_cons, hpath]
  rfl

end Args

section Chunks

theorem headChunk_eq {limit : ℕ} (chunk line : Bytes) {printed : ℕ} (s : Written φ)
    (hlt : printed < limit) :
    (headChunk limit chunk line printed s).1 = min limit (printed + chunk.count newline) ∧
      (headChunk limit chunk line printed s).2.files = s.files ∧
      (headChunk limit chunk line printed s).2.bytes =
        s.bytes ++ line ++ firstLines newline (limit - printed) chunk := by
  induction chunk generalizing line printed s with
  | nil =>
    obtain ⟨n, hn⟩ : ∃ n, limit - printed = n + 1 := ⟨limit - printed - 1, by omega⟩
    rw [headChunk, List.count_nil, hn, firstLines]
    refine ⟨by omega, by dsimp only; split <;> rfl, ?_⟩
    by_cases hline : line = [] <;> simp [hline, hlt]
  | cons b bs ih =>
    obtain ⟨n, hn⟩ : ∃ n, limit - printed = n + 1 := ⟨limit - printed - 1, by omega⟩
    rw [headChunk, hn, firstLines]
    by_cases hb : b = newline
    · rw [if_pos hb, if_pos hb, hb, List.count_cons_self]
      split
      · next hlast =>
        obtain rfl : n = 0 := by omega
        refine ⟨by dsimp only; omega, rfl, by simp [firstLines]⟩
      · next hmore =>
        obtain ⟨hcount, hfiles, hbytes⟩ :=
          ih [] (s.put [.text (line ++ [newline])]) (Nat.lt_of_not_le hmore)
        have hrest : limit - (printed + 1) = n := by omega
        refine ⟨by omega, hfiles, ?_⟩
        rw [hbytes, hrest]
        simp
    · obtain ⟨hcount, hfiles, hbytes⟩ := ih (line ++ [b]) s hlt
      rw [if_neg hb, if_neg hb, List.count_cons_of_ne hb]
      refine ⟨hcount, hfiles, ?_⟩
      rw [hbytes, hn]
      simp

theorem tailChunk_eq (skip : ℕ) (chunk line : Bytes) (cur : ℕ) (s : Written φ) :
    (tailChunk skip chunk line cur s).1 = cur + chunk.count newline ∧
      (tailChunk skip chunk line cur s).2.files = s.files ∧
      (tailChunk skip chunk line cur s).2.bytes =
        s.bytes ++ (if skip ≤ cur then line else []) ++ restLines newline (skip - cur) chunk := by
  induction chunk generalizing line cur s with
  | nil =>
    have hnone : restLines newline (skip - cur) [] = [] := by cases skip - cur <;> rfl
    rw [tailChunk, List.count_nil, hnone]
    refine ⟨rfl, by dsimp only; split <;> rfl, ?_⟩
    by_cases hcur : skip ≤ cur
    · by_cases hline : line = [] <;> simp [hline, hcur]
    · simp [hcur]
  | cons b bs ih =>
    rw [tailChunk]
    by_cases hcur : skip ≤ cur
    · have hzero : skip - cur = 0 := by omega
      have hnext : skip - (cur + 1) = 0 := by omega
      rw [hzero, restLines, if_pos hcur]
      by_cases hb : b = newline
      · obtain ⟨hcount, hfiles, hbytes⟩ := ih [] (cur + 1) (s.put [.text (line ++ [b])])
        rw [if_pos hb, if_pos hcur]
        refine ⟨?_, hfiles, ?_⟩
        · rw [hcount, hb, List.count_cons_self]
          omega
        · rw [hbytes, hnext, restLines]
          simp
      · obtain ⟨hcount, hfiles, hbytes⟩ := ih (line ++ [b]) cur s
        rw [if_neg hb, List.count_cons_of_ne hb]
        refine ⟨hcount, hfiles, ?_⟩
        rw [hbytes, hzero, restLines, if_pos hcur, if_pos hcur]
        simp
    · obtain ⟨n, hn⟩ : ∃ n, skip - cur = n + 1 := ⟨skip - cur - 1, by omega⟩
      have hnext : skip - (cur + 1) = n := by omega
      rw [hn, restLines, if_neg hcur]
      by_cases hb : b = newline
      · obtain ⟨hcount, hfiles, hbytes⟩ := ih [] (cur + 1) s
        rw [if_pos hb, if_neg hcur, if_pos hb]
        refine ⟨?_, hfiles, ?_⟩
        · rw [hcount, hb, List.count_cons_self]
          omega
        · rw [hbytes, hnext, ite_self]
      · obtain ⟨hcount, hfiles, hbytes⟩ := ih (line ++ [b]) cur s
        rw [if_neg hb, if_neg hb, List.count_cons_of_ne hb]
        refine ⟨hcount, hfiles, ?_⟩
        rw [hbytes, hn, if_neg hcur, if_neg hcur]

end Chunks

section Loops

variable {fat : FatIo φ η} {s s' : Files φ} {fd : ℕ} {cs : List Bytes}

theorem headLoop_eq {limit : ℕ} (h : Splits fat fd s cs s') {printed : ℕ} (hlt : printed < limit)
    (out : List Piece) :
    ∃ t, (∀ fuel, cs.length < fuel → headLoop fat limit fd fuel printed ⟨s, out⟩ = some t) ∧
      t.bytes = out.flatMap Piece.bytes ++ firstLines newline (limit - printed) cs.flatten := by
  induction h generalizing printed out with
  | @done s s' hread =>
    obtain ⟨n, hn⟩ : ∃ n, limit - printed = n + 1 := ⟨limit - printed - 1, by omega⟩
    refine ⟨⟨s', out⟩, fun fuel hfuel => ?_, ?_⟩
    · obtain ⟨fuel, rfl⟩ := Nat.exists_eq_succ_of_ne_zero (Nat.ne_of_gt hfuel)
      rw [headLoop, hread]
      rfl
    · rw [List.flatten_nil, hn, firstLines, List.append_nil]
      rfl
  | @more s s₁ s' b bs cs hread hrest ih =>
    obtain ⟨hcount, hfiles, hbytes⟩ := headChunk_eq (b :: bs) [] (⟨s₁, out⟩ : Written φ) hlt
    generalize hr :
        headChunk limit (b :: bs) [] printed (⟨s₁, out⟩ : Written φ) = r at hcount hfiles hbytes
    obtain ⟨p, t⟩ := r
    dsimp only at hcount hfiles hbytes
    have hout :
        t.bytes = out.flatMap Piece.bytes ++ firstLines newline (limit - printed) (b :: bs) := by
      rw [hbytes, List.append_nil]
      rfl
    by_cases hstop : limit ≤ p
    · refine ⟨t, fun fuel hfuel => ?_, ?_⟩
      · obtain ⟨fuel, rfl⟩ := Nat.exists_eq_succ_of_ne_zero (Nat.ne_of_gt (Nat.zero_lt_of_lt hfuel))
        rw [headLoop, hread]
        dsimp only [Written.withFiles]
        rw [hr]
        exact if_pos hstop
      · have hnone : limit - printed - (b :: bs).count newline = 0 := by omega
        rw [List.flatten_cons, firstLines_append, hnone, firstLines, List.append_nil, hout]
    · obtain ⟨u, hrun, hu⟩ := ih (Nat.lt_of_not_le hstop) t.out
      refine ⟨u, fun fuel hfuel => ?_, ?_⟩
      · obtain ⟨fuel, rfl⟩ := Nat.exists_eq_succ_of_ne_zero (Nat.ne_of_gt (Nat.zero_lt_of_lt hfuel))
        rw [headLoop, hread]
        dsimp only [Written.withFiles]
        rw [hr]
        dsimp only
        rw [if_neg hstop, ← hrun fuel (Nat.lt_of_succ_lt_succ hfuel), ← hfiles]
      · have hleft : limit - printed - (b :: bs).count newline = limit - p := by omega
        rw [List.flatten_cons, firstLines_append, hleft, hu, ← List.append_assoc]
        exact congrArg (· ++ _) hout

theorem countLoop_eq (h : Splits fat fd s cs s') (total : ℕ) {fuel : ℕ} (hfuel : cs.length < fuel) :
    countLoop fat fd fuel total s = some (total + cs.flatten.count newline, s') := by
  induction h generalizing total fuel with
  | done hread =>
    obtain ⟨fuel, rfl⟩ := Nat.exists_eq_succ_of_ne_zero (Nat.ne_of_gt hfuel)
    rw [countLoop, hread]
    rfl
  | more hread _ ih =>
    obtain ⟨fuel, rfl⟩ := Nat.exists_eq_succ_of_ne_zero (Nat.ne_of_gt (Nat.zero_lt_of_lt hfuel))
    rw [countLoop, hread]
    dsimp only
    rw [ih _ (Nat.lt_of_succ_lt_succ hfuel), List.flatten_cons, List.count_append, Nat.add_assoc]

theorem tailLoop_eq (skip : ℕ) (h : Splits fat fd s cs s') (cur : ℕ) (out : List Piece) :
    ∃ t, (∀ fuel, cs.length < fuel → tailLoop fat skip fd fuel cur ⟨s, out⟩ = some t) ∧
      t.bytes = out.flatMap Piece.bytes ++ restLines newline (skip - cur) cs.flatten := by
  induction h generalizing cur out with
  | @done s s' hread =>
    refine ⟨⟨s', out⟩, fun fuel hfuel => ?_, ?_⟩
    · obtain ⟨fuel, rfl⟩ := Nat.exists_eq_succ_of_ne_zero (Nat.ne_of_gt hfuel)
      rw [tailLoop, hread]
      rfl
    · have hnone : restLines newline (skip - cur) [] = [] := by cases skip - cur <;> rfl
      rw [List.flatten_nil, hnone, List.append_nil]
      rfl
  | @more s s₁ s' b bs cs hread hrest ih =>
    obtain ⟨hcount, hfiles, hbytes⟩ := tailChunk_eq skip (b :: bs) [] cur (⟨s₁, out⟩ : Written φ)
    generalize hr :
        tailChunk skip (b :: bs) [] cur (⟨s₁, out⟩ : Written φ) = r at hcount hfiles hbytes
    obtain ⟨c, t⟩ := r
    dsimp only at hcount hfiles hbytes
    obtain ⟨u, hrun, hu⟩ := ih c t.out
    refine ⟨u, fun fuel hfuel => ?_, ?_⟩
    · obtain ⟨fuel, rfl⟩ := Nat.exists_eq_succ_of_ne_zero (Nat.ne_of_gt (Nat.zero_lt_of_lt hfuel))
      rw [tailLoop, hread]
      dsimp only [Written.withFiles]
      rw [hr]
      dsimp only
      rw [← hrun fuel (Nat.lt_of_succ_lt_succ hfuel), ← hfiles]
    · have hleft : skip - cur - (b :: bs).count newline = skip - c := by omega
      rw [ite_self, List.append_nil] at hbytes
      rw [List.flatten_cons, restLines_append, hleft, hu, ← List.append_assoc]
      exact congrArg (· ++ _) hbytes

end Loops

section Results

variable {fat : FatIo φ η} (spec : FatSpec fat) {s s₁ s' : Files φ} {fd : ℕ} {cwd path b : Bytes}
  {cs : List Bytes} {args name : List Char} {k : ℕ}

include spec

theorem lineCommand_opened (cmd : String) (body : ℕ → Bytes → ℕ → Written φ → Option (Written φ))
    (hargs : parseLineLimit args 10 = (k, name)) (hname : name ≠ [])
    (hpath : resolve cwd (utf8 name) = path) (hcontent : s.content spec path = some b)
    (hopen : s.openPath fat path openRead = (some fd, s₁)) (hreads : Splits fat fd s₁ cs s') :
    lineCommand fat cmd body cwd args ⟨s, []⟩ = body k path fd ⟨s₁, []⟩ := by
  obtain ⟨hfile, hkept⟩ := opened_file spec hcontent hopen hreads
  have hprobe : s₁.readdir fd = (none, s₁) := by
    rw [Files.readdir, hfile]
  rw [lineCommand, hargs]
  dsimp only
  rw [if_neg hname, hpath, hopen]
  dsimp only
  rw [hprobe]
  rfl

theorem cmdHead_writes (hargs : parseLineLimit args 10 = (k, name)) (hname : name ≠ [])
    (hpath : resolve cwd (utf8 name) = path) (hcontent : s.content spec path = some b)
    (hopen : s.openPath fat path openRead = (some fd, s₁)) (hreads : Splits fat fd s₁ cs s')
    (hk : 1 ≤ k) : ∃ t, (∀ fuel, cs.length < fuel → cmdHead fat fuel cwd args ⟨s, []⟩ = some t) ∧
      t.bytes = ((lines newline b).take k).flatten := by
  obtain ⟨t, hrun, ht⟩ := headLoop_eq hreads hk []
  rw [opened_flatten spec hcontent hopen hreads, Nat.sub_zero, firstLines_eq] at ht
  refine ⟨t.withFiles (t.files.close fd), fun fuel hfuel => ?_, ht⟩
  rw [cmdHead, lineCommand_opened spec _ _ hargs hname hpath hcontent hopen hreads, hrun fuel hfuel]
  rfl

theorem cmdTail_writes {s₂ s₂' : Files φ} {fd₂ : ℕ} {cs₂ : List Bytes}
    (hargs : parseLineLimit args 10 = (k, name)) (hname : name ≠ [])
    (hpath : resolve cwd (utf8 name) = path) (hcontent : s.content spec path = some b)
    (hopen : s.openPath fat path openRead = (some fd, s₁)) (hreads : Splits fat fd s₁ cs s')
    (hopen₂ : (s'.close fd).openPath fat path openRead = (some fd₂, s₂))
    (hreads₂ : Splits fat fd₂ s₂ cs₂ s₂') : ∃ t, (∀ fuel, cs.length < fuel → cs₂.length < fuel →
      cmdTail fat fuel cwd args ⟨s, []⟩ = some t) ∧
      t.bytes = ((lines newline b).drop (b.count newline - k)).flatten := by
  have hflat := opened_flatten spec hcontent hopen hreads
  have hflat₂ := opened_flatten spec (closed_content spec hcontent hopen hreads) hopen₂ hreads₂
  obtain ⟨t, hrun, ht⟩ := tailLoop_eq (b.count newline - k) hreads₂ 0 []
  rw [hflat₂, Nat.sub_zero, restLines_eq] at ht
  refine ⟨t.withFiles (t.files.close fd₂), fun fuel hfuel hfuel₂ => ?_, ht⟩
  have hcount := countLoop_eq hreads 0 hfuel
  rw [hflat, Nat.zero_add] at hcount
  rw [cmdTail, lineCommand_opened spec _ _ hargs hname hpath hcontent hopen hreads, hcount]
  dsimp only [Option.bind_eq_bind, Option.bind_some, Written.withFiles]
  rw [hopen₂]
  dsimp only
  rw [hrun fuel hfuel₂]
  rfl

omit spec in
theorem drop_count_iff {L : ℕ} (hL : (lines newline b).length = L) (hk : 1 ≤ k) (hkL : k < L) :
    ((lines newline b).drop (b.count newline - (L - k))).flatten =
      ((lines newline b).drop k).flatten ↔ b.getLast? = some newline := by
  have hlen := @length_lines _ _ newline b
  have hne : b ≠ [] := by
    rintro rfl
    rw [← hL] at hkL
    exact absurd hkL (Nat.not_lt_zero k)
  rw [hL] at hlen
  by_cases hlast : b.getLast? = some newline
  · have hskip : b.count newline - (L - k) = k := by
      rw [if_pos (.inr hlast)] at hlen
      omega
    exact iff_of_true (by rw [hskip]) hlast
  · have hskip : b.count newline - (L - k) = k - 1 := by
      rw [if_neg (not_or.mpr ⟨hne, hlast⟩)] at hlen
      omega
    refine iff_of_false (fun heq => ?_) hlast
    have hlt : k - 1 < (lines newline b).length := by omega
    have hnext : k - 1 + 1 = k := by omega
    rw [hskip, List.drop_eq_getElem_cons hlt, hnext, List.flatten_cons] at heq
    have hnil := List.append_left_eq_self.mp heq
    exact lines_ne_nil b _ (List.getElem_mem hlt) hnil

/-- Whatever chunks the reads give, the two commands part a file between them exactly if its last
line is ended by a newline. -/
theorem head_tail_part_iff {t t₁ t₁' t₂ t₂' : Files φ} {fd₁ fd₂ L : ℕ} {cs₁ cs₂ : List Bytes}
    {headArgs tailArgs : List Char} (hL : (lines newline b).length = L) (hk : 1 ≤ k) (hkL : k < L)
    (hhead : parseLineLimit headArgs 10 = (k, name))
    (htail : parseLineLimit tailArgs 10 = (L - k, name)) (hname : name ≠ [])
    (hpath : resolve cwd (utf8 name) = path) (hcontent : s.content spec path = some b)
    (hopen : s.openPath fat path openRead = (some fd, s₁)) (hreads : Splits fat fd s₁ cs s')
    (hcontent₁ : t.content spec path = some b)
    (hopen₁ : t.openPath fat path openRead = (some fd₁, t₁)) (hreads₁ : Splits fat fd₁ t₁ cs₁ t₁')
    (hopen₂ : (t₁'.close fd₁).openPath fat path openRead = (some fd₂, t₂))
    (hreads₂ : Splits fat fd₂ t₂ cs₂ t₂') :
    ∃ u v, (∀ fuel, cs.length < fuel → cmdHead fat fuel cwd headArgs ⟨s, []⟩ = some u) ∧
      (∀ fuel, cs₁.length < fuel → cs₂.length < fuel →
        cmdTail fat fuel cwd tailArgs ⟨t, []⟩ = some v) ∧
        ((u.bytes ++ v.bytes = b ∧ u.bytes = ((lines newline b).take k).flatten ∧
        v.bytes = ((lines newline b).drop k).flatten) ↔ b.getLast? = some newline) := by
  obtain ⟨u, hu, hub⟩ := cmdHead_writes spec hhead hname hpath hcontent hopen hreads hk
  obtain ⟨v, hv, hvb⟩ :=
    cmdTail_writes spec htail hname hpath hcontent₁ hopen₁ hreads₁ hopen₂ hreads₂
  refine ⟨u, v, hu, hv, ?_⟩
  rw [← drop_count_iff hL hk hkL, ← hvb]
  constructor
  · exact fun h => h.2.2
  · intro h
    have hjoin : ((lines newline b).take k).flatten ++ ((lines newline b).drop k).flatten = b := by
      rw [← List.flatten_append, List.take_append_drop, flatten_lines]
    exact ⟨by rw [hub, h, hjoin], hub, h⟩

end Results

section Flat

def oneLine : List Char := ['-', 'n', ' ', '1', ' ', '/', 'a']

theorem two_ended_lines : ∃ u v,
    (∀ fuel, 1 < fuel →
      cmdHead (flatFat 16) fuel [slash] oneLine ⟨textFile [0x78, 0x0A, 0x79, 0x0A], []⟩ = some u) ∧
    (∀ fuel, 1 < fuel → 1 < fuel →
      cmdTail (flatFat 16) fuel [slash] oneLine ⟨textFile [0x78, 0x0A, 0x79, 0x0A], []⟩ = some v) ∧
    ((u.bytes ++ v.bytes = [0x78, 0x0A, 0x79, 0x0A] ∧
      u.bytes = ((lines newline [0x78, 0x0A, 0x79, 0x0A]).take 1).flatten ∧
      v.bytes = ((lines newline [0x78, 0x0A, 0x79, 0x0A]).drop 1).flatten) ↔
        [0x78, 0x0A, 0x79, 0x0A].getLast? = some newline) := by
  have hopen : (textFile [0x78, 0x0A, 0x79, 0x0A]).openPath (flatFat 16) [0x2F, 0x61] openRead =
      (some 3,
        ((textFile [0x78, 0x0A, 0x79, 0x0A]).openPath (flatFat 16) [0x2F, 0x61] openRead).2) :=
    Prod.ext (by decide) rfl
  have hreads :
      Splits (flatFat 16) 3 ((textFile [0x78, 0x0A, 0x79, 0x0A]).openPath (flatFat 16) [0x2F,
        0x61] openRead).2 [[0x78, 0x0A, 0x79, 0x0A]] _ :=
    .more (Prod.ext (by decide) rfl) (.done (Prod.ext (by decide) rfl))
  have hlines : (lines newline [0x78, 0x0A, 0x79, 0x0A]).length = 2 := by decide
  have hargs : parseLineLimit oneLine 10 = (1, ['/', 'a']) := by decide
  exact head_tail_part_iff (flatSpec 16) hlines le_rfl (by decide) hargs hargs
    (by decide) (by decide) (by decide) hopen hreads (by decide) hopen hreads
    (Prod.ext (by decide) rfl) (.more (Prod.ext (by decide) rfl) (.done (Prod.ext (by decide) rfl)))

/-- The last of two lines has no newline, and `tail -n 1` writes both. -/
theorem tail_writes_both : (lines newline [0x78, 0x0A, 0x79]).length = 2 ∧
    (cmdHead (flatFat 16) 3 [slash] oneLine ⟨textFile [0x78, 0x0A, 0x79], []⟩).map Written.bytes =
      some [0x78, 0x0A] ∧ (cmdTail (flatFat 16) 3 [slash] oneLine ⟨textFile [0x78, 0x0A, 0x79],
        []⟩).map Written.bytes = some [0x78, 0x0A, 0x79] ∧
        ((lines newline [0x78, 0x0A, 0x79]).drop 1).flatten = [0x79] := by
  refine ⟨by decide, by decide, by decide, by decide⟩

end Flat

end CoeleoOs.Sh
