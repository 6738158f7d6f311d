import CoeleoOs.Lib.Text
import CoeleoOs.Sh.Cwd
import CoeleoOs.Task.ArgvLayout
import CoeleoOs.Task.Sched.Spawn
import Mathlib.Data.List.TakeWhile

/-!
# The words of a command

What the shell packs for the words of a line, as a command, after `run` and as one stage of
a pipeline, and the arguments that the kernel makes of it. The kernel sees bytes, so that a
word is compared by its UTF-8 form.
-/

namespace CoeleoOs.Sh
open CoeleoOs.Task (Bytes pathMax argvMax argvStrMax argvBlob parseArgvBlob basename)
open CoeleoOs.Fs (slash)
open CoeleoOs.Lib.Text

def nameMax : ℕ := 8
def blobMax : ℕ := 1024
def maxWords : ℕ := 8

/-- A path and a packed argument list for the spawn call. -/
structure Spawn where
  path : Bytes
  blob : Bytes
  deriving DecidableEq

def binDir : Bytes := [0x2F, 0x62, 0x69, 0x6E, 0x2F]

def packLoop : ℕ → List Bytes → Option Bytes
  | _, [] => some []
  | n, w :: ws =>
    if blobMax < n + w.length + 1 then none
    else (packLoop (n + w.length + 1) ws).map fun rest => w ++ 0 :: rest

def packArgv (cmd args : List Char) : Bytes :=
  if args = [] then [] else (packLoop 0 (utf8 cmd :: (splitWhitespace args).map utf8)).getD []

def packWords (cwd : Bytes) : List (List Char) → Option Bytes
  | [] => none
  | name :: args => packLoop 0 (utf8 name :: args.map fun w => resolve cwd (utf8 w))

def cmdPath (cmd args : List Char) : List Spawn :=
  if cmd = [] ∨ '/' ∈ cmd ∨ nameMax < (utf8 cmd).length then []
  else [⟨binDir ++ utf8 cmd, packArgv cmd args⟩, ⟨utf8 cmd, packArgv cmd args⟩]

def skipFirstWord (s : List Char) : List Char :=
  match splitOnce isWhitespace (trimStart s) with
  | some (_, rest) => trimStart rest
  | none => []

def cmdRun (cwd : Bytes) (args : List Char) : List Spawn :=
  match splitWhitespace args with
  | [] => []
  | pathArg :: _ => [⟨resolve cwd (utf8 pathArg), packArgv pathArg (skipFirstWord args)⟩]

def spawnElf (cwd : Bytes) (name : List Char) (blob : Bytes) : List Spawn :=
  if '/' ∈ name then [⟨resolve cwd (utf8 name), blob⟩]
  else if name = [] ∨ nameMax < (utf8 name).length then []
  else [⟨binDir ++ utf8 name, blob⟩, ⟨utf8 name, blob⟩]

def runStage (cwd : Bytes) (words : List (List Char)) : List Spawn :=
  if maxWords < words.length then []
  else
    match packWords cwd words, words with
    | some blob, name :: _ => spawnElf cwd name blob
    | _, _ => []

def cText (s : Bytes) : Bytes := s.takeWhile (· ≠ 0)

def kernelArgv (s : Spawn) : Option (List Bytes) :=
  if s.path.length = 0 ∨ pathMax < s.path.length ∨ blobMax < s.blob.length then none
  else
    match (if s.blob = [] then some [basename s.path] else parseArgvBlob s.blob) with
    | none => none
    | some strings =>
      if strings = [] ∨ argvMax < strings.length ∨
        strings.any (fun t => t = [] ∨ argvStrMax < t.length) then none
      else some (strings.map cText)

/-- Every process that these calls can start sees the words. -/
def Passes (spawns : List Spawn) (words : List Bytes) : Prop :=
  ∀ s ∈ spawns, ∀ argv, kernelArgv s = some argv → argv = words

def NoNul (words : List Bytes) : Prop := ∀ w ∈ words, 0 ∉ w

/-- The kernel takes none of these words, or none of them ends early. -/
def Sound (packed : List Bytes) : Prop := parseArgvBlob (argvBlob packed) = none ∨ NoNul packed

def packedLen (words : List Bytes) : ℕ := (words.map fun w => w.length + 1).sum

theorem packLoop_eq (n : ℕ) (words : List Bytes) :
    packLoop n words = if words = [] ∨ n + packedLen words ≤ blobMax then some (argvBlob words)
      else none := by
  induction words generalizing n with
  | nil => rfl
  | cons w ws ih =>
    have hlen : packedLen (w :: ws) = w.length + 1 + packedLen ws := by simp [packedLen]
    have hblob : argvBlob (w :: ws) = w ++ 0 :: argvBlob ws := by simp [argvBlob]
    rw [packLoop, ih, hlen]
    by_cases hfit : blobMax < n + w.length + 1
    · rw [if_pos hfit, if_neg (by simp; omega)]
    · rw [if_neg hfit]
      by_cases hrest : ws = [] ∨ n + w.length + 1 + packedLen ws ≤ blobMax
      · have hall : n + (w.length + 1 + packedLen ws) ≤ blobMax := by
          rcases hrest with rfl | hrest
          · simp [packedLen]
            omega
          · omega
        rw [if_pos hrest, if_pos (.inr hall), hblob]
        rfl
      · rw [not_or] at hrest
        rw [if_neg (not_or.mpr hrest), if_neg (by simp; omega)]
        rfl

section Blob

variable {packed words : List Bytes}

theorem argvBlob_splitOn (h : NoNul packed) : (argvBlob packed).splitOn 0 = packed ++ [[]] := by
  induction packed with
  | nil => rfl
  | cons w ws ih =>
    have hrest : NoNul ws := fun v hv => h v (List.mem_cons_of_mem w hv)
    have hblob : argvBlob (w :: ws) = w ++ 0 :: argvBlob ws := by simp [argvBlob]
    rw [hblob, List.splitOn_append_cons_self_of_not_mem (h w List.mem_cons_self), ih hrest,
      List.cons_append]

theorem argvBlob_inj (hp : NoNul packed) (hw : NoNul words) (h : argvBlob packed = argvBlob words) :
    packed = words := by
  have hsplit := argvBlob_splitOn hp
  rw [h, argvBlob_splitOn hw] at hsplit
  exact (List.append_cancel_right hsplit).symm

theorem argvBlob_count (packed : List Bytes) :
    (argvBlob packed).count 0 = packed.length + (packed.map (List.count 0)).sum := by
  induction packed with
  | nil => rfl
  | cons w ws ih =>
    have hblob : argvBlob (w :: ws) = w ++ 0 :: argvBlob ws := by simp [argvBlob]
    rw [hblob, List.count_append, List.count_cons_self, ih, List.map_cons, List.sum_cons,
      List.length_cons]
    omega

theorem noNul_iff_count : NoNul packed ↔ (packed.map (List.count 0)).sum = 0 := by
  rw [List.sum_eq_zero_iff]
  simp [NoNul, List.count_eq_zero]

theorem parse_packed_iff (hlen : packed.length = words.length) :
    (∀ argv, parseArgvBlob (argvBlob packed) = some argv → argv = words) ↔
      parseArgvBlob (argvBlob packed) = none ∨ packed = words ∧ NoNul words := by
  rcases hparse : parseArgvBlob (argvBlob packed) with _ | argv
  · exact iff_of_true (fun _ h => nomatch h) (.inl rfl)
  obtain ⟨hargs, hblob⟩ := Task.parseArgvBlob_some hparse
  have hargv : NoNul argv := fun w hw hmem => (hargs.each w hw).noNul 0 hmem rfl
  constructor
  · intro h
    obtain rfl := h argv rfl
    have hpacked : NoNul packed := by
      have hcount := congrArg (List.count 0) hblob
      rw [argvBlob_count, argvBlob_count, noNul_iff_count.mp hargv] at hcount
      exact noNul_iff_count.mpr (by omega)
    exact .inr ⟨argvBlob_inj hpacked hargv hblob, hargv⟩
  · rintro (hnone | ⟨rfl, hwords⟩) a ha
    · cases hnone
    · obtain rfl := Option.some.inj ha
      exact argvBlob_inj hargv hwords hblob.symm

theorem cText_of_not_mem {s : Bytes} (h : 0 ∉ s) : cText s = s := by
  induction s with
  | nil => rfl
  | cons b s ih =>
    obtain ⟨hb, hs⟩ := not_or.mp (fun hmem => h (List.mem_cons.mpr hmem))
    rw [cText, List.takeWhile_cons_of_pos (by simpa using Ne.symm hb)]
    exact congrArg _ (ih hs)

theorem argvBlob_length (packed : List Bytes) : (argvBlob packed).length = packedLen packed := by
  simp [argvBlob, packedLen, List.length_flatMap]

theorem kernelArgv_packed {path : Bytes} (hpath : 0 < path.length) (hmax : path.length ≤ pathMax)
    (hne : packed ≠ []) (hfit : packedLen packed ≤ blobMax) :
    kernelArgv ⟨path, argvBlob packed⟩ = parseArgvBlob (argvBlob packed) := by
  have hblob : argvBlob packed ≠ [] := by
    intro h
    have hlen := argvBlob_length packed
    obtain ⟨w, ws, rfl⟩ := List.exists_cons_of_ne_nil hne
    rw [h] at hlen
    simp [packedLen] at hlen
    omega
  have htaken :
      ¬(path.length = 0 ∨ pathMax < path.length ∨ blobMax < (argvBlob packed).length) := by
    rw [argvBlob_length]
    omega
  rw [kernelArgv, if_neg htaken]
  dsimp only
  rw [if_neg hblob]
  rcases hparse : parseArgvBlob (argvBlob packed) with _ | argv
  · rfl
  · obtain ⟨hargs, -⟩ := Task.parseArgvBlob_some hparse
    have hfew := hargs.few
    have htext : argv.map cText = argv := by
      conv_rhs => rw [← List.map_id argv]
      exact List.map_congr_left fun w hw => cText_of_not_mem fun hmem =>
        (hargs.each w hw).noNul 0 hmem rfl
    dsimp only
    rw [if_neg, htext]
    rw [hargs.any_eq_false]
    rintro (hnil | hmany | hany)
    · exact hargs.nonempty hnil
    · omega
    · cases hany

end Blob

section Bare

variable {path : Bytes}

theorem basename_length_le (path : Bytes) : (basename path).length ≤ path.length := by
  rw [basename]
  split
  · exact Nat.le_refl _
  · rcases hlast : (path.splitOn 0x2F).getLast? with _ | c
    · exact Nat.le_refl _
    · exact (mem_splitOn (List.mem_of_getLast? hlast)).2

theorem kernelArgv_bare (hpath : 0 < path.length) (hmax : path.length ≤ argvStrMax) :
    kernelArgv ⟨path, []⟩ = some [cText (basename path)] := by
  have htaken : ¬(path.length = 0 ∨ pathMax < path.length ∨ blobMax < ([] : Bytes).length) := by
    simp only [argvStrMax, pathMax, blobMax, List.length_nil] at *
    omega
  have hne : basename path ≠ [] := by
    rw [basename]
    split
    · exact List.length_pos_iff.mp hpath
    · assumption
  have hlen := basename_length_le path
  rw [kernelArgv, if_neg htaken]
  dsimp only
  rw [if_pos rfl]
  dsimp only
  rw [if_neg]
  · rfl
  · simp [argvMax, hne]
    omega

theorem basename_of_not_mem {name : Bytes} (h : slash ∉ name) (hne : name ≠ []) :
    basename name = name := by
  have hsplit : name.splitOn 0x2F = [name] := List.splitOn_eq_singleton h
  rw [basename, hsplit]
  exact if_neg hne

theorem basename_binDir {name : Bytes} (h : slash ∉ name) (hne : name ≠ []) :
    basename (binDir ++ name) = name := by
  have hsplit : (binDir ++ name).splitOn 0x2F = [[], [0x62, 0x69, 0x6E], name] := by
    have hbin : binDir ++ name = [] ++ slash :: ([0x62, 0x69, 0x6E] ++ slash :: name) := rfl
    change (binDir ++ name).splitOn slash = _
    rw [hbin, List.splitOn_append_cons_self_of_not_mem (by simp),
      List.splitOn_append_cons_self_of_not_mem (by decide), List.splitOn_eq_singleton h]
  rw [basename, hsplit]
  exact if_neg hne

theorem cText_eq_self {s : Bytes} : cText s = s ↔ 0 ∉ s := by
  constructor
  · intro h hmem
    have hzero := List.takeWhile_eq_self_iff.mp h 0 hmem
    simp at hzero
  · exact cText_of_not_mem

end Bare

/-- The words come through as typed, or the kernel takes none of them. -/
def Carried (words : List Bytes) : Prop := packedLen words ≤ blobMax ∧ Sound words

/-- As a command: no file has such a name, or the words are carried. Without arguments only the
name itself must not end early. -/
def CommandFits (cmd args : List Char) : Prop :=
  '/' ∈ cmd ∨ nameMax < (utf8 cmd).length ∨
    (args = [] ∧ 0 ∉ utf8 cmd) ∨ (args ≠ [] ∧ Carried (utf8 cmd :: (splitWhitespace args).map utf8))

/-- After `run`: without arguments the file must have the name that was typed. -/
def RunFits (cwd : Bytes) (cmd : List Char) (args : List (List Char)) : Prop :=
  resolve cwd (utf8 cmd) = [] ∨ (args = [] ∧ cText (basename (resolve cwd (utf8 cmd))) = utf8 cmd) ∨
    (args ≠ [] ∧ Carried (utf8 cmd :: args.map utf8))

/-- As a stage: nothing is started, or every argument is a path that needs no resolving. -/
def StageFits (cwd : Bytes) (cmd : List Char) (args : List (List Char)) : Prop :=
  let packed := utf8 cmd :: args.map fun w => resolve cwd (utf8 w)
  maxWords ≤ args.length ∨ blobMax < packedLen packed ∨ ('/' ∈ cmd ∧ resolve cwd (utf8 cmd) = []) ∨
    ('/' ∉ cmd ∧ nameMax < (utf8 cmd).length) ∨ parseArgvBlob (argvBlob packed) = none ∨
      ((∀ w ∈ args, Absolute (utf8 w)) ∧ NoNul (utf8 cmd :: args.map utf8))

section Routes

variable {cwd : Bytes} {cmd args : List Char} {words : List Bytes}

theorem slash_mem_utf8 {s : List Char} : slash ∈ utf8 s ↔ '/' ∈ s := by
  rw [mem_utf8 (by decide)]
  constructor
  · rintro ⟨c, hc, heq⟩
    rwa [Char.toNat_inj.mp (heq.trans (show slash.toNat = '/'.toNat from rfl))] at hc
  · intro h
    exact ⟨'/', h, rfl⟩

theorem utf8_length_pos (h : cmd ≠ []) : 0 < (utf8 cmd).length :=
  List.length_pos_iff.mpr fun hnil => h (utf8_eq_nil.mp hnil)

theorem passes_packed {path : Bytes} (packed : List Bytes) (hlen : packed.length = words.length)
    (hne : packed ≠ []) (hfit : packedLen packed ≤ blobMax) (hpath : 0 < path.length)
    (hmax : path.length ≤ pathMax) :
    (∀ argv, kernelArgv ⟨path, argvBlob packed⟩ = some argv → argv = words) ↔
      parseArgvBlob (argvBlob packed) = none ∨ packed = words ∧ NoNul words := by
  rw [kernelArgv_packed hpath hmax hne hfit]
  exact parse_packed_iff hlen

theorem passes_carried {path : Bytes} (hne : words ≠ []) (hfit : packedLen words ≤ blobMax)
    (hpath : 0 < path.length) (hmax : path.length ≤ pathMax) :
    (∀ argv, kernelArgv ⟨path, argvBlob words⟩ = some argv → argv = words) ↔ Carried words := by
  rw [passes_packed words rfl hne hfit hpath hmax, Carried, Sound]
  simp [hfit]

theorem passes_bare {path : Bytes} (hpath : 0 < path.length) (hmax : path.length ≤ argvStrMax) :
    (∀ argv, kernelArgv ⟨path, []⟩ = some argv → argv = words) ↔
    [cText (basename path)] = words := by
  rw [kernelArgv_bare hpath hmax]
  simp

theorem packArgv_eq (cmd args : List Char) : packArgv cmd args =
    if args = [] ∨ blobMax < packedLen (utf8 cmd :: (splitWhitespace args).map utf8) then []
    else argvBlob (utf8 cmd :: (splitWhitespace args).map utf8) := by
  rw [packArgv, packLoop_eq]
  by_cases hargs : args = []
  · rw [if_pos hargs, if_pos (.inl hargs)]
  rw [if_neg hargs]
  by_cases hfit : packedLen (utf8 cmd :: (splitWhitespace args).map utf8) ≤ blobMax
  · rw [if_pos (.inr (by omega)), if_neg (by rw [not_or]; exact ⟨hargs, by omega⟩)]
    rfl
  · rw [if_neg (by simp; omega), if_pos (.inr (by omega))]
    rfl

theorem passes_pair (s t : Spawn) : Passes [s, t] words ↔
    (∀ argv, kernelArgv s = some argv → argv = words) ∧ ∀ argv, kernelArgv t = some argv →
    argv = words := by
  simp only [Passes, List.forall_mem_cons, List.not_mem_nil, false_implies, implies_true, and_true]

theorem passes_single (s : Spawn) :
    Passes [s] words ↔ ∀ argv, kernelArgv s = some argv → argv = words := by
  simp only [Passes, List.forall_mem_singleton]

theorem passes_cmdPath (hcmd : cmd ≠ []) :
    Passes (cmdPath cmd args) (utf8 cmd :: (splitWhitespace args).map utf8) ↔
    CommandFits cmd args := by
  rw [cmdPath, CommandFits]
  by_cases hslash : '/' ∈ cmd
  · rw [if_pos (.inr (.inl hslash))]
    exact iff_of_true nofun (.inl hslash)
  by_cases hlong : nameMax < (utf8 cmd).length
  · rw [if_pos (.inr (.inr hlong))]
    exact iff_of_true nofun (.inr (.inl hlong))
  have hno : ¬(cmd = [] ∨ '/' ∈ cmd ∨ nameMax < (utf8 cmd).length) :=
    not_or.mpr ⟨hcmd, not_or.mpr ⟨hslash, hlong⟩⟩
  have hpos := utf8_length_pos hcmd
  have hbytes : slash ∉ utf8 cmd := fun h => hslash (slash_mem_utf8.mp h)
  have hne : utf8 cmd ≠ [] := List.length_pos_iff.mp hpos
  have hbin : (binDir ++ utf8 cmd).length = 5 + (utf8 cmd).length := List.length_append
  have hshort : (utf8 cmd).length ≤ nameMax := Nat.le_of_not_lt hlong
  rw [if_neg hno, or_iff_right hslash, or_iff_right hlong, packArgv_eq, passes_pair]
  simp only [nameMax] at hshort
  by_cases hargs : args = []
  · subst hargs
    rw [if_pos (.inl rfl), passes_bare (by omega) (by simp only [argvStrMax]; omega),
      passes_bare hpos (by simp only [argvStrMax]; omega), basename_binDir hbytes hne,
      basename_of_not_mem hbytes hne, and_self]
    change [cText (utf8 cmd)] = [utf8 cmd] ↔ _
    rw [List.singleton_inj, cText_eq_self]
    simp
  simp only [hargs, false_or, false_and, not_false_eq_true, true_and, ne_eq]
  by_cases hfit : packedLen (utf8 cmd :: (splitWhitespace args).map utf8) ≤ blobMax
  · rw [if_neg (by omega), passes_carried (by simp) hfit (by omega) (by simp only [pathMax]; omega),
      passes_carried (by simp) hfit hpos (by simp only [pathMax]; omega), and_self]
  · rw [if_pos (by omega), passes_bare (by omega) (by simp only [argvStrMax]; omega),
      basename_binDir hbytes hne]
    refine iff_of_false (fun h => ?_) fun h => hfit h.1
    have htail := (List.cons.inj h.1).2
    rw [← htail] at hfit
    simp only [packedLen, blobMax, List.map_cons, List.map_nil, List.sum_cons, List.sum_nil] at hfit
    omega

theorem skipFirstWord_spec {line : List Char} {tail : List (List Char)}
    (h : splitWhitespace line = cmd :: tail) : splitWhitespace (skipFirstWord line) = tail ∧
    (skipFirstWord line = [] ↔ tail = []) := by
  rw [skipFirstWord]
  rw [← splitWhitespace_trimStart] at h
  rcases hsplit : splitOnce isWhitespace (trimStart line) with _ | ⟨w, rest⟩
  · have hall := splitOnce_none hsplit
    rcases ht : trimStart line with _ | ⟨c, t⟩
    · rw [ht] at h
      cases h
    · rw [splitWhitespace_last hall (by simp [ht])] at h
      obtain rfl := (List.cons.inj h).2
      exact ⟨rfl, iff_of_true rfl rfl⟩
  · obtain ⟨c, hc, heq, hall⟩ := splitOnce_some hsplit
    have hw : w ≠ [] := by
      rintro rfl
      cases (trimStart_head heq).symm.trans hc
    rw [heq, splitWhitespace_word hall hw hc] at h
    obtain ⟨-, rfl⟩ := List.cons.inj h
    exact ⟨splitWhitespace_trimStart rest, trimStart_eq_nil rest⟩

theorem passes_cmdRun {line : List Char} {tail : List (List Char)}
    (h : splitWhitespace line = cmd :: tail) :
    Passes (cmdRun cwd line) (utf8 cmd :: tail.map utf8) ↔ RunFits cwd cmd tail := by
  obtain ⟨hrest, hnil⟩ := skipFirstWord_spec h
  have hcmd : cmd ≠ [] := mem_splitWhitespace (h ▸ List.mem_cons_self)
  have hmax := resolve_length cwd (utf8 cmd)
  rw [cmdRun, h, RunFits]
  dsimp only
  rw [passes_single, packArgv_eq, hrest]
  simp only [outLen] at hmax
  by_cases hpath : resolve cwd (utf8 cmd) = []
  · refine iff_of_true (fun argv hargv => ?_) (.inl hpath)
    rw [kernelArgv, if_pos (.inl (by rw [hpath]; rfl))] at hargv
    cases hargv
  have hpos : 0 < (resolve cwd (utf8 cmd)).length := List.length_pos_iff.mpr hpath
  rw [or_iff_right hpath]
  by_cases htail : tail = []
  · subst htail
    rw [if_pos (.inl (hnil.mpr rfl)), passes_bare hpos (by simp only [argvStrMax]; omega)]
    simp
  simp only [mt hnil.mp htail, htail, false_or, false_and, not_false_eq_true, true_and, ne_eq]
  by_cases hfit : packedLen (utf8 cmd :: tail.map utf8) ≤ blobMax
  · rw [if_neg (by omega), passes_carried (by simp) hfit hpos (by simp only [pathMax]; omega)]
  · rw [if_pos (by omega), passes_bare hpos (by simp only [argvStrMax]; omega)]
    refine iff_of_false (fun hsame => htail ?_) fun hsame => hfit hsame.1
    exact List.map_eq_nil_iff.mp (List.cons.inj hsame).2.symm

theorem stage_words (tail : List (List Char)) (hne : ∀ w ∈ tail, w ≠ []) :
    (utf8 cmd :: tail.map fun w => resolve cwd (utf8 w)) = utf8 cmd :: tail.map utf8 ↔
      ∀ w ∈ tail, Absolute (utf8 w) := by
  rw [List.cons_inj_right]
  constructor
  · intro h w hw
    have hsame := List.map_inj_left.mp h w hw
    exact (resolve_eq_self_iff cwd fun hnil => hne w hw (utf8_eq_nil.mp hnil)).mp hsame
  · intro h
    refine List.map_congr_left fun w hw => ?_
    exact (resolve_eq_self_iff cwd fun hnil => hne w hw (utf8_eq_nil.mp hnil)).mpr (h w hw)

theorem runStage_cons (cwd : Bytes) (cmd : List Char) (tail : List (List Char)) :
    runStage cwd (cmd :: tail) = if maxWords < tail.length + 1 then []
      else (packWords cwd (cmd :: tail)).elim [] (spawnElf cwd cmd) := by
  unfold runStage
  rcases packWords cwd (cmd :: tail) with _ | blob <;> rfl

theorem passes_runStage (tail : List (List Char)) (hcmd : cmd ≠ []) (hne : ∀ w ∈ tail, w ≠ []) :
    Passes (runStage cwd (cmd :: tail)) (utf8 cmd :: tail.map utf8) ↔ StageFits cwd cmd tail := by
  have hpacked := fun path => @passes_packed (utf8 cmd :: tail.map utf8) path
    (utf8 cmd :: tail.map fun w => resolve cwd (utf8 w)) (by simp) (by simp)
  simp only [stage_words tail hne] at hpacked
  have hpack : packWords cwd (cmd :: tail) = _ :=
    packLoop_eq 0 (utf8 cmd :: tail.map fun w => resolve cwd (utf8 w))
  rw [runStage_cons, StageFits, hpack, Nat.zero_add]
  by_cases hmany : maxWords ≤ tail.length
  · rw [if_pos (by omega)]
    exact iff_of_true nofun (.inl hmany)
  rw [if_neg (by omega), or_iff_right hmany]
  by_cases hlong : blobMax < packedLen (utf8 cmd :: tail.map fun w => resolve cwd (utf8 w))
  · rw [if_neg (by simp; omega)]
    exact iff_of_true nofun (.inl hlong)
  rw [if_pos (.inr (by omega)), or_iff_right hlong, Option.elim_some, spawnElf]
  by_cases hslash : '/' ∈ cmd
  · have hmax := resolve_length cwd (utf8 cmd)
    rw [if_pos hslash, passes_single]
    simp only [hslash, true_and, not_true_eq_false, false_and, false_or]
    by_cases hpath : resolve cwd (utf8 cmd) = []
    · refine iff_of_true (fun argv hargv => ?_) (.inl hpath)
      rw [kernelArgv, if_pos (.inl (by rw [hpath]; rfl))] at hargv
      cases hargv
    · rw [or_iff_right hpath]
      exact hpacked _ (by omega) (List.length_pos_iff.mpr hpath)
        (by simp only [outLen, pathMax] at *; omega)
  rw [if_neg hslash]
  simp only [hslash, false_and, false_or, not_false_eq_true, true_and]
  by_cases hname : nameMax < (utf8 cmd).length
  · rw [if_pos (.inr hname)]
    exact iff_of_true nofun (.inl hname)
  have hbin : (binDir ++ utf8 cmd).length = 5 + (utf8 cmd).length := List.length_append
  have hpos := utf8_length_pos hcmd
  rw [if_neg (not_or.mpr ⟨hcmd, hname⟩), or_iff_right hname, passes_pair,
    hpacked _ (by omega) (by omega) (by simp only [nameMax, pathMax] at *; omega),
    hpacked _ (by omega) hpos (by simp only [nameMax, pathMax] at *; omega), and_self]

/-- Every way of starting a command hands over the words of the line, exactly on these lines. -/
theorem words_passed_iff (cwd : Bytes) {line : List Char}
    (h : splitWhitespace line = cmd :: splitWhitespace args) :
    (Passes (cmdPath cmd args) (utf8 cmd :: (splitWhitespace args).map utf8) ∧
        Passes (cmdRun cwd line) (utf8 cmd :: (splitWhitespace args).map utf8) ∧
          Passes (runStage cwd (cmd :: splitWhitespace args))
            (utf8 cmd :: (splitWhitespace args).map utf8)) ↔
      CommandFits cmd args ∧ RunFits cwd cmd (splitWhitespace args) ∧
        StageFits cwd cmd (splitWhitespace args) := by
  have hcmd : cmd ≠ [] := mem_splitWhitespace (h ▸ List.mem_cons_self)
  rw [passes_cmdPath hcmd, passes_cmdRun h, passes_runStage _ hcmd fun w hw =>
    mem_splitWhitespace hw]

end Routes

theorem words_passed_absolute : Passes (cmdPath ['x'] ['/', 'a']) [[0x78], [0x2F, 0x61]] ∧
    Passes (cmdRun [slash] ['x', ' ', '/', 'a']) [[0x78], [0x2F, 0x61]] ∧
      Passes (runStage [slash] [['x'], ['/', 'a']]) [[0x78], [0x2F, 0x61]] := by
  have hnul : NoNul [[0x78], [0x2F, 0x61]] := by
    unfold NoNul
    decide
  have hcarried : Carried [[0x78], [0x2F, 0x61]] := ⟨by decide, .inr hnul⟩
  have habsolute : Absolute [0x2F, 0x61] := by
    refine ⟨[[0x61]], fun c hc => ?_, rfl, by decide, by decide⟩
    obtain rfl := List.mem_singleton.mp hc
    exact ⟨by decide, by decide, by decide, by decide⟩
  refine (words_passed_iff [slash] (show splitWhitespace ['x', ' ', '/', 'a'] =
    ['x'] :: splitWhitespace ['/', 'a'] by
    decide)).mpr ⟨.inr (.inr (.inr ⟨by decide, hcarried⟩)), .inr (.inr ⟨by decide, hcarried⟩), ?_⟩
  refine .inr (.inr (.inr (.inr (.inr ⟨fun w hw => ?_, hnul⟩))))
  obtain rfl := List.mem_singleton.mp hw
  exact habsolute

theorem words_rewritten :
    ¬∀ (cwd : Bytes) (cmd args line : List Char), Canonical cwd → cwd.length ≤ 255 →
    splitWhitespace line = cmd :: splitWhitespace args →
      Passes (cmdPath cmd args) (utf8 cmd :: (splitWhitespace args).map utf8) ∧
        Passes (cmdRun cwd line) (utf8 cmd :: (splitWhitespace args).map utf8) ∧
          Passes (runStage cwd (cmd :: splitWhitespace args))
            (utf8 cmd :: (splitWhitespace args).map utf8) := by
  intro h
  have hstage :=
    (h [slash] ['x'] ['a'] ['x', ' ', 'a'] ⟨[], by simp, rfl⟩ (by decide) (by decide)).2.2
  have hsame :=
    hstage ⟨[0x78], argvBlob [[0x78], [0x2F, 0x61]]⟩ (by decide) [[0x78], [0x2F, 0x61]] (by decide)
  exact absurd hsame (by decide)

end CoeleoOs.Sh
