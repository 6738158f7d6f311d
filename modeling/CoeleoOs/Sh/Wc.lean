import CoeleoOs.Sh.TextOut

/-!
# `wc`

`wc` counts newlines, words and bytes while it reads. A word goes on over the end of a read, so that
the counts are those of the file however the reads cut it.
-/

namespace CoeleoOs.Sh
open CoeleoOs.Lib.Text CoeleoOs.Fs
open CoeleoOs.Task (Bytes)

variable {φ η : Type}

structure WcOpts where
  l : Bool
  w : Bool
  c : Bool
  deriving DecidableEq

def WcOpts.letter (o : WcOpts) (b : UInt8) : Option WcOpts :=
  if b = 0x6C then some { o with l := true }
  else if b = 0x77 then some { o with w := true }
  else if b = 0x63 then some { o with c := true }
  else none

def wcWord (s : WcOpts × List Char) (word : List Char) : Option (WcOpts × List Char) :=
  if word.head? = some '-' ∧ 1 < word.length
    then ((utf8 (word.drop 1)).foldlM WcOpts.letter s.1).map (·, s.2)
  else some (s.1, word)

/-- The options, or nothing when there is one that `wc` does not know. -/
def parseWc (args : List Char) : Option (WcOpts × List Char) :=
  ((splitWhitespace args).foldlM wcWord (⟨false, false, false⟩, [])).map fun s =>
    (if !s.1.l && !s.1.w && !s.1.c then ⟨true, true, true⟩ else s.1, s.2)

structure WcCount where
  lines : ℕ
  words : ℕ
  bytes : ℕ
  inWord : Bool
  deriving DecidableEq

def isBlank (b : UInt8) : Bool := b = 0x20 || b = 0x09 || b = newline || b = 0x0D

def WcCount.byte (s : WcCount) (b : UInt8) : WcCount :=
  let s := if b = newline then { s with lines := s.lines + 1 } else s
  if isBlank b then { s with inWord := false }
  else if !s.inWord then { s with inWord := true, words := s.words + 1 }
  else s

def WcCount.chunk (s : WcCount) (chunk : Bytes) : WcCount :=
  chunk.foldl WcCount.byte { s with bytes := s.bytes + chunk.length }

def wcLoop (fat : FatIo φ η) (fd : ℕ) : ℕ → WcCount → Files φ → Option (WcCount × Files φ)
  | 0, _, _ => none
  | fuel + 1, count, s =>
    match s.read fat fd bufLen with
    | (none, s) | (some [], s) => some (count, s)
    | (some (b :: bs), s) => wcLoop fat fd fuel (count.chunk (b :: bs)) s

/-- One column when it is asked for. -/
def column (on : Bool) (n : ℕ) : List Piece := if on then [.text (printNum n), lit " "] else []

def cmdWc (fat : FatIo φ η) (fuel : ℕ) (cwd : Bytes) (args : List Char) (s : Written φ) :
    Option (Written φ) :=
  match parseWc args with
  | none => some ((s.put (errMsg "wc" "invalid option")).put (usage "wc" "[-l] [-w] [-c] <file>"))
  | some (opts, pathArg) =>
    if pathArg = []
      then some ((s.put (errMsg "wc" "missing file path")).put (usage "wc" "[-l] [-w] [-c] <file>"))
    else
      match s.files.openPath fat (resolve cwd (utf8 pathArg)) openRead with
      | (none, files) =>
        some (((s.withFiles files).put [lit "wc: not found\n"]).put
          (errTarget "wc" pathArg "file not found"))
      | (some fd, files) => do
        let (count, files) ← wcLoop fat fd fuel ⟨0, 0, 0, false⟩ files
        let s := s.withFiles (files.close fd)
        let s :=
          ((s.put (column opts.l count.lines)).put (column opts.w count.words)).put
            (column opts.c count.bytes)
        some (s.put [.text (utf8 pathArg), lit "\n"])

/-- The words of a file: what is between the blanks. -/
def fileWords (b : Bytes) : List Bytes := (b.splitOnP isBlank).filter (· ≠ [])

section Counts

variable (s : WcCount) (b : Bytes)

theorem byte_lines (x : UInt8) : (s.byte x).lines = s.lines + if x = newline then 1 else 0 := by
  simp only [WcCount.byte]
  split_ifs <;> rfl

theorem foldl_lines : (b.foldl WcCount.byte s).lines = s.lines + b.count newline := by
  induction b generalizing s with
  | nil => rfl
  | cons x b ih =>
    rw [List.foldl_cons, ih, byte_lines, List.count_cons]
    simp only [beq_iff_eq]
    omega

theorem foldl_words : (b.foldl WcCount.byte s).words =
    s.words + ((if s.inWord then (b.splitOnP isBlank).tail else b.splitOnP isBlank).filter
      (· ≠ [])).length := by
  induction b generalizing s with
  | nil => cases s.inWord <;> simp
  | cons x b ih =>
    rw [List.foldl_cons, ih, List.splitOnP_cons_eq_if_modifyHead]
    by_cases hx : isBlank x = true
    · have hword : (s.byte x).words = s.words ∧ (s.byte x).inWord = false := by
        simp only [WcCount.byte, hx]
        split_ifs <;> exact ⟨rfl, rfl⟩
      rw [hword.1, hword.2, if_pos hx]
      cases s.inWord <;> simp
    · have hnl : x ≠ newline := fun h => hx (by rw [h]; decide)
      obtain ⟨first, rest, hsplit⟩ : ∃ first rest, b.splitOnP isBlank = first :: rest :=
        List.exists_cons_of_ne_nil (List.splitOnP_ne_nil isBlank b)
      have hword :
          (s.byte x).words = s.words + (if s.inWord then 0 else 1) ∧ (s.byte x).inWord = true := by
        simp only [WcCount.byte, if_neg hnl, if_neg hx]
        cases hs : s.inWord <;> simp [hs]
      rw [hword.1, hword.2, if_neg hx, hsplit, List.modifyHead_cons]
      cases s.inWord
      · simp
        omega
      · simp

theorem foldl_bytes (n : ℕ) : b.foldl WcCount.byte { s with bytes := n } =
    { b.foldl WcCount.byte s with bytes := n } := by
  induction b generalizing s with
  | nil => rfl
  | cons x b ih =>
    have hbyte : WcCount.byte { s with bytes := n } x = { s.byte x with bytes := n } := by
      simp only [WcCount.byte]
      split_ifs <;> rfl
    rw [List.foldl_cons, List.foldl_cons, hbyte, ih]

theorem chunk_append (c d : Bytes) : (s.chunk c).chunk d = s.chunk (c ++ d) := by
  simp only [WcCount.chunk, foldl_bytes, List.foldl_append, List.length_append, Nat.add_assoc]

end Counts

section Results

variable {fat : FatIo φ η} {s s₁ s' : Files φ} {fd fuel : ℕ} {cs : List Bytes}

theorem wcLoop_eq (h : Splits fat fd s cs s') (count : WcCount) (hfuel : cs.length < fuel) :
    wcLoop fat fd fuel count s = some (count.chunk cs.flatten, s') := by
  induction h generalizing count fuel with
  | done hread =>
    obtain ⟨fuel, rfl⟩ := Nat.exists_eq_succ_of_ne_zero (Nat.ne_of_gt hfuel)
    rw [wcLoop, hread]
    rfl
  | more hread _ ih =>
    obtain ⟨fuel, rfl⟩ := Nat.exists_eq_succ_of_ne_zero (Nat.ne_of_gt (Nat.zero_lt_of_lt hfuel))
    rw [wcLoop, hread]
    dsimp only
    rw [ih _ (Nat.lt_of_succ_lt_succ hfuel), List.flatten_cons, chunk_append]

/-- Whatever chunks the reads give, `wc` writes the newlines, the words and the bytes of the file,
as far as it is asked for them, and the name it was given. -/
theorem cmdWc_counts (spec : FatSpec fat) {cwd path b : Bytes} {args name : List Char}
    {opts : WcOpts} (hargs : parseWc args = some (opts, name)) (hname : name ≠ [])
    (hpath : resolve cwd (utf8 name) = path) (hcontent : s.content spec path = some b)
    (hopen : s.openPath fat path openRead = (some fd, s₁)) (hreads : Splits fat fd s₁ cs s') :
    ∃ t, (∀ fuel, cs.length < fuel → cmdWc fat fuel cwd args ⟨s, []⟩ = some t) ∧
      t.out = column opts.l (b.count newline) ++ column opts.w (fileWords b).length ++
        column opts.c b.length ++ [.text (utf8 name), lit "\n"] := by
  have hflat := opened_flatten spec hcontent hopen hreads
  have hlines : ((⟨0, 0, 0, false⟩ : WcCount).chunk b).lines = b.count newline := by
    rw [WcCount.chunk, foldl_lines, Nat.zero_add]
  have hwords : ((⟨0, 0, 0, false⟩ : WcCount).chunk b).words = (fileWords b).length := by
    rw [WcCount.chunk, foldl_words, Nat.zero_add]
    rfl
  have hbytes : ((⟨0, 0, 0, false⟩ : WcCount).chunk b).bytes = b.length := by
    rw [WcCount.chunk, foldl_bytes, Nat.zero_add]
  refine ⟨⟨s'.close fd, _⟩, fun fuel hfuel => ?_, rfl⟩
  have hloop := wcLoop_eq hreads ⟨0, 0, 0, false⟩ hfuel
  rw [hflat] at hloop
  rw [cmdWc, hargs]
  dsimp only
  rw [if_neg hname, hpath, hopen]
  dsimp only
  rw [hloop]
  simp only [Option.bind_eq_bind, Option.bind_some, Written.put, Written.withFiles, hlines,
    hwords, hbytes, List.nil_append, List.append_assoc]

def wordsAndLines : List Char := ['-', 'w', 'l', ' ', '/', 'a']

theorem twoLines_counted : ∃ t,
    (∀ fuel, 1 < fuel → cmdWc (flatFat 16) fuel [slash] wordsAndLines
      ⟨textFile [0x78, 0x20, 0x79, 0x0A, 0x7A], []⟩ = some t) ∧
      t.bytes = [0x31, 0x20, 0x33, 0x20, 0x2F, 0x61, 0x0A] := by
  have hopen :
      (textFile [0x78, 0x20, 0x79, 0x0A, 0x7A]).openPath (flatFat 16) [0x2F, 0x61] openRead =
      (some 3, ((textFile [0x78, 0x20, 0x79, 0x0A, 0x7A]).openPath (flatFat 16) [0x2F,
        0x61] openRead).2) :=
    Prod.ext (by decide) rfl
  have hreads :
      Splits (flatFat 16) 3 ((textFile [0x78, 0x20, 0x79, 0x0A, 0x7A]).openPath (flatFat 16) [0x2F,
        0x61] openRead).2 [[0x78, 0x20, 0x79, 0x0A, 0x7A]] _ :=
    .more (Prod.ext (by decide) rfl) (.done (Prod.ext (by decide) rfl))
  have hargs : parseWc wordsAndLines = some (⟨true, true, false⟩, ['/', 'a']) := by decide
  have hpath : resolve [slash] (utf8 ['/', 'a']) = [0x2F, 0x61] := by decide
  have hcontent : (textFile [0x78, 0x20, 0x79, 0x0A, 0x7A]).content (flatSpec 16) [0x2F, 0x61] =
      some [0x78, 0x20, 0x79, 0x0A, 0x7A] := by decide
  obtain ⟨t, hrun, hout⟩ := cmdWc_counts (flatSpec 16) hargs (by decide) hpath hcontent hopen hreads
  refine ⟨t, hrun, ?_⟩
  rw [Written.bytes, hout]
  decide

end Results

end CoeleoOs.Sh
