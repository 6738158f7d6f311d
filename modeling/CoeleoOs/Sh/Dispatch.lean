import CoeleoOs.Lib.Text
import Mathlib.Order.WellFounded

/-!
# Dispatch of a line

A line that is typed, or read from a script by `source`, is cut into commands at `;`; an
alias may replace the first word of a command, and what the shell acts on is recorded, with
the line or the command that it came from. Scripts may call scripts, and may change aliases.
-/

namespace CoeleoOs.Sh
open CoeleoOs.Lib.Text

def lineCap : ℕ := 128
def expandedCap : ℕ := 128
def maxAliases : ℕ := 16
def nameCap : ℕ := 16
def valueCap : ℕ := 64

structure Alias where
  name : List Char
  val : List Char
  named : name ≠ []
  nameFits : (utf8 name).length ≤ nameCap
  valFits : (utf8 val).length ≤ valueCap

structure AliasTable where
  items : List Alias
  few : items.length ≤ maxAliases

namespace AliasTable

def empty : AliasTable := ⟨[], Nat.zero_le _⟩

def get (table : AliasTable) (name : List Char) : Option (List Char) :=
  (table.items.find? fun a => a.name = name).map Alias.val

def overwrite (a : Alias) : List Alias → List Alias
  | [] => []
  | b :: items => if b.name = a.name then a :: items else b :: overwrite a items

theorem overwrite_length (a : Alias) (items : List Alias) :
    (overwrite a items).length = items.length := by
  induction items with
  | nil => rfl
  | cons b items ih =>
    rw [overwrite]
    split
    · rfl
    · rw [List.length_cons, ih, List.length_cons]

def set (table : AliasTable) (name val : List Char) : Option AliasTable :=
  if h : name ≠ [] ∧ (utf8 name).length ≤ nameCap ∧ (utf8 val).length ≤ valueCap then
    let a : Alias := ⟨name, val, h.1, h.2.1, h.2.2⟩
    if table.items.any fun b => b.name = name then
      some ⟨overwrite a table.items, (overwrite_length a table.items).trans_le table.few⟩
    else if hfew : table.items.length < maxAliases then
      some ⟨table.items ++ [a], List.length_append.trans_le hfew⟩
    else none
  else none

def remove (table : AliasTable) (name : List Char) : AliasTable :=
  ⟨table.items.eraseP fun a => a.name = name, List.length_eraseP_le.trans table.few⟩

end AliasTable

def trimMatches (q : Char) (s : List Char) : List Char :=
  ((s.dropWhile (· = q)).reverse.dropWhile (· = q)).reverse

def cmdAlias (table : AliasTable) (args : List Char) : AliasTable :=
  match splitOnce (· = '=') (trim args) with
  | some (name, val) =>
    (table.set (trim name) (trimMatches '"' (trimMatches '\'' (trim val)))).getD table
  | none => table

def cmdUnalias (table : AliasTable) (args : List Char) : AliasTable :=
  match splitWhitespace args with
  | [] => table
  | name :: _ => table.remove name

def isMeta (t : List Char) : Bool := t = ['|'] ∨ t = ['>'] ∨ t = ['<']

def hasMeta (line : List Char) : Bool := (splitWhitespace line).any isMeta

/-- What the shell does for a command: the whole line goes to the pipelines, or it is a
command with its arguments. -/
inductive Act where
  | runLine (line : List Char)
  | command (cmd args : List Char)
  deriving DecidableEq

def Act.words : Act → List (List Char)
  | .runLine line => splitWhitespace line
  | .command cmd args => cmd :: splitWhitespace args

def splitCommand (line : List Char) : List Char × List Char :=
  match splitOnce (· = ' ') line with
  | some (cmd, rest) => (cmd, trim rest)
  | none => (line, [])

def expandedBuf (val args : List Char) : List UInt8 :=
  let buf := (utf8 val).take expandedCap
  if args ≠ [] ∧ buf.length < expandedCap then
    buf ++ 0x20 :: (utf8 args).take (expandedCap - (buf.length + 1))
  else buf

def expandAlias (table : AliasTable) (cmd args : List Char) : List Char × List Char :=
  let expanded := match table.get cmd with
    | some val => (fromUtf8 (expandedBuf val args)).getD []
    | none => []
  if expanded = [] then (cmd, args) else splitCommand expanded

def actOn (table : AliasTable) (line : List Char) : Act :=
  if hasMeta line then .runLine line
  else
    let (cmd, args) := splitCommand line
    let (cmd, args) := expandAlias table cmd args
    .command cmd args

/-- What a run leaves behind: the lines, with the bytes that the shell kept and those it lost,
and what it took them for; and the commands, with the aliases of the moment. -/
inductive Event where
  | line (kept lost : List UInt8) (passed : Option (List Char))
  | acted (table : AliasTable) (sub : List Char) (act : Act)

structure Shell where
  table : AliasTable
  events : List Event
  running : Bool

def Shell.log (sh : Shell) (e : Event) : Shell := { sh with events := sh.events ++ [e] }

/-- The bytes that the reads of a script return, and those that a failing read leaves. -/
structure Script where
  reads : List (List UInt8)
  unread : List UInt8

/-- The rest of the system, asked by the number of events so far: what an opened path holds,
and whether a command comes back. -/
structure World where
  script : ℕ → Option Script
  returns : ℕ → Bool

structure LineBuf where
  bytes : List UInt8
  dropped : List UInt8
  fits : bytes.length ≤ lineCap
  full : dropped ≠ [] → bytes.length = lineCap

namespace LineBuf

def empty : LineBuf := ⟨[], [], Nat.zero_le _, fun h => absurd rfl h⟩

def push (buf : LineBuf) (b : UInt8) : LineBuf :=
  if h : buf.bytes.length < lineCap then
    ⟨buf.bytes ++ [b], buf.dropped, List.length_append.trans_le h,
      fun hne => absurd (buf.full hne) (Nat.ne_of_lt h)⟩
  else
    ⟨buf.bytes, buf.dropped ++ [b], buf.fits,
      fun _ => Nat.le_antisymm buf.fits (Nat.le_of_not_lt h)⟩

end LineBuf

def newline : UInt8 := 0x0A

def readLines (unread : List UInt8) : LineBuf → List UInt8 → List (List UInt8 × List UInt8)
  | buf, [] =>
    if buf.bytes = [] then [] else [(buf.bytes, buf.dropped ++ unread.takeWhile (· ≠ newline))]
  | buf, b :: bs =>
    if b = newline then (buf.bytes, buf.dropped) :: readLines unread .empty bs
    else readLines unread (buf.push b) bs

section Run

variable (w : World) (source : List Char → Shell → Shell)

def dispatchSingle (line : List Char) (sh : Shell) : Shell :=
  if sh.running then
    let act := actOn sh.table line
    let sh := sh.log (.acted sh.table line act)
    match act with
    | .runLine _ => { sh with running := w.returns sh.events.length }
    | .command cmd args =>
      if cmd = "exit".toList then { sh with running := false }
      else if cmd = "alias".toList then { sh with table := cmdAlias sh.table args }
      else if cmd = "unalias".toList then { sh with table := cmdUnalias sh.table args }
      else if cmd = "source".toList ∨ cmd = ".".toList then source args sh
      else { sh with running := w.returns sh.events.length }
  else sh

def commands (line : List Char) : List (List Char) :=
  let line := trim line
  if line = [] then []
  else if ';' ∈ line then ((line.splitOn ';').map trim).filter (· ≠ [])
  else [line]

def dispatch (line : List Char) (sh : Shell) : Shell :=
  (commands line).foldl (fun sh sub => dispatchSingle w source sub sh) sh

def dispatchBytes (sh : Shell) (line : List UInt8 × List UInt8) : Shell :=
  if sh.running then
    let sh := sh.log (.line line.1 line.2 (fromUtf8 line.1))
    match fromUtf8 line.1 with
    | some text => dispatch w source text sh
    | none => sh
  else sh

def cmdSource (args : List Char) (sh : Shell) : Shell :=
  match splitWhitespace args, w.script sh.events.length with
  | _ :: _, some s => (readLines s.unread .empty s.reads.flatten).foldl (dispatchBytes w source) sh
  | _, _ => sh

end Run

-- The stack holds so many calls of `source` within each other, and one more ends the shell.
def sourceNested (w : World) : ℕ → List Char → Shell → Shell
  | 0, _, sh => { sh with running := false }
  | depth + 1, args, sh => cmdSource w (sourceNested w depth) args sh

/-- A line as it was typed, which `read_line` keeps whole. -/
def runTyped (w : World) (depth : ℕ) (line : List UInt8) (table : AliasTable) : Shell :=
  dispatch w (sourceNested w depth) ((fromUtf8 line).getD []) ⟨table,
    [.line line [] (fromUtf8 line)], true⟩

def wanted (table : AliasTable) (line : List Char) : List (List Char) :=
  let (cmd, args) := splitCommand line
  splitWhitespace ((table.get cmd).getD cmd) ++ splitWhitespace args

def commandWords (line : List Char) : List (List (List Char)) := (commands line).map splitWhitespace

def IsWord (s : List Char) : Prop := s ≠ [] ∧ ∀ c ∈ s, isWhitespace c = false

def Blank (s : List Char) : Prop := ∀ c ∈ s, isWhitespace c = true ∨ c = ';'

/-- Of a line nothing is run, or all its commands as they stand; of a command, the shell acts
on its words. -/
def Event.Exact : Event → Prop
  | .line kept lost passed =>
    commandWords (passed.getD []) = [] ∨
      ∃ whole, kept ++ lost = utf8 whole ∧ commandWords (passed.getD []) = commandWords whole
  | .acted table sub act => act.words = wanted table sub

def expansion (val args : List Char) : List Char := val ++ if args = [] then [] else ' ' :: args

def ExpansionFits (table : AliasTable) (line : List Char) : Prop :=
  let (cmd, args) := splitCommand line
  match table.get cmd with
  | none => hasMeta line = true ∨ IsWord cmd
  | some val =>
    if hasMeta line then splitWhitespace val = splitWhitespace cmd
    else if (utf8 (expansion val args)).length ≤ expandedCap
      then IsWord (splitCommand (expansion val args)).1
    else fromUtf8 ((utf8 (expansion val args)).take expandedCap) = none ∧
      splitWhitespace val = [cmd]

/-- What the shell kept of a line is no text, or holds no command, or only white space and `;`
are lost; and the words of a command and of its alias are apart at spaces, and fit. -/
def Event.Fits : Event → Prop
  | .line kept lost _ =>
    ∀ text, kept = utf8 text → Blank text ∨ ∃ rest, lost = utf8 rest ∧ Blank rest
  | .acted table sub _ => ExpansionFits table sub

def Event.Real : Event → Prop
  | .line kept _ passed => passed = fromUtf8 kept
  | .acted table sub act => act = actOn table sub

section Commands

variable {line text rest : List Char}

theorem splitCommand_words (line : List Char) :
    splitWhitespace line = splitWhitespace (splitCommand line).1 ++
      splitWhitespace (splitCommand line).2 := by
  rw [splitCommand]
  rcases hsplit : splitOnce (· = ' ') line with _ | ⟨cmd, args⟩
  · exact (List.append_nil _).symm
  · obtain ⟨c, hc, rfl, -⟩ := splitOnce_some hsplit
    obtain rfl : c = ' ' := of_decide_eq_true hc
    rw [splitWhitespace_append_space (by decide), splitWhitespace_trim]

theorem act_words_iff :
    (Act.command (splitCommand line).1 (splitCommand line).2).words = splitWhitespace line ↔
    IsWord (splitCommand line).1 := by
  rw [Act.words, splitCommand_words line, ← List.singleton_append, List.append_left_inj, eq_comm,
    splitWhitespace_eq_singleton, IsWord]

def visible (s : List Char) : List Char := s.filter fun c => !(isWhitespace c || c = ';')

theorem visible_eq_nil : visible text = [] ↔ Blank text := by
  simp [visible, Blank, List.filter_eq_nil_iff, ← Bool.not_eq_true, or_iff_not_imp_left]

theorem visible_append (s t : List Char) : visible (s ++ t) = visible s ++ visible t :=
  List.filter_append ..

def partWords (s : List Char) : List (List (List Char)) :=
  ((s.splitOn ';').map splitWhitespace).filter (· ≠ [])

theorem partWords_part {a : List Char} (ha : ';' ∉ a) (b : List Char) :
    partWords (a ++ ';' :: b) = (if splitWhitespace a = [] then [] else [splitWhitespace a]) ++
      partWords b := by
  rw [partWords, List.splitOn_append_cons_self_of_not_mem ha, List.map_cons,
    List.filter_cons, partWords]
  by_cases h : splitWhitespace a = [] <;> simp [h]

theorem partWords_last {a : List Char} (ha : ';' ∉ a) :
    partWords a = if splitWhitespace a = [] then [] else [splitWhitespace a] := by
  rw [partWords, List.splitOn_eq_singleton ha, List.map_singleton, List.filter_cons]
  by_cases h : splitWhitespace a = [] <;> simp [h]

theorem splitOnce_semicolon_cases (s : List Char) :
    ';' ∉ s ∨ ∃ a b, s = a ++ ';' :: b ∧ ';' ∉ a ∧ b.length < s.length := by
  by_cases h : ';' ∈ s
  · obtain ⟨a, b, rfl, ha⟩ := List.eq_append_cons_of_mem h
    refine .inr ⟨a, b, rfl, ha, ?_⟩
    rw [List.length_append, List.length_cons]
    omega
  · exact .inl h

theorem visible_of_not_mem (h : ';' ∉ text) : visible text = (splitWhitespace text).flatten := by
  rw [splitWhitespace_flatten, visible]
  refine List.filter_congr fun c hc => ?_
  have hne : c ≠ ';' := fun heq => h (heq ▸ hc)
  simp [hne]

theorem partWords_visible (s : List Char) : (partWords s).flatten.flatten = visible s := by
  induction hlen : s.length using Nat.strong_induction_on generalizing s with
  | _ n ih =>
    subst hlen
    rcases splitOnce_semicolon_cases s with hs | ⟨a, b, rfl, ha, hlt⟩
    · rw [partWords_last hs, visible_of_not_mem hs]
      split
      · rename_i hnil
        rw [hnil]
        rfl
      · rw [List.flatten_singleton]
    · have hsemi : visible (';' :: b) = visible b := List.filter_cons_of_neg (by decide)
      rw [partWords_part ha, visible_append, hsemi, visible_of_not_mem ha, ← ih _ hlt b rfl]
      split
      · rename_i hnil
        rw [hnil]
        rfl
      · rw [List.singleton_append, List.flatten_cons, List.flatten_append]

theorem partWords_append_one {c : Char} (hc : isWhitespace c = true ∨ c = ';') (s : List Char) :
    partWords (s ++ [c]) = partWords s := by
  induction hlen : s.length using Nat.strong_induction_on generalizing s with
  | _ n ih =>
    subst hlen
    rcases splitOnce_semicolon_cases s with hs | ⟨a, b, rfl, ha, hlt⟩
    · by_cases hsemi : c = ';'
      · subst hsemi
        rw [partWords_part hs, partWords_last hs]
        exact List.append_nil _
      · have hspace := hc.resolve_right hsemi
        have hnot : ';' ∉ s ++ [c] := by simp [hs, Ne.symm hsemi]
        rw [partWords_last hnot, partWords_last hs,
          splitWhitespace_append_spaces (by simpa using hspace)]
    · rw [List.append_assoc, List.cons_append, partWords_part ha, partWords_part ha, ih _ hlt b rfl]

theorem partWords_append_blank (hrest : Blank rest) :
    partWords (text ++ rest) = partWords text := by
  induction rest generalizing text with
  | nil => rw [List.append_nil]
  | cons c rest ih =>
    rw [List.append_cons text c rest, ih fun x hx => hrest x (List.mem_cons_of_mem c hx),
      partWords_append_one (hrest c List.mem_cons_self)]

theorem partWords_cons_space {c : Char} (hc : isWhitespace c = true) (s : List Char) :
    partWords (c :: s) = partWords s := by
  have hsemi : c ≠ ';' := by
    rintro rfl
    exact absurd hc (by decide)
  rcases splitOnce_semicolon_cases s with hs | ⟨a, b, rfl, ha, -⟩
  · have hnot : ';' ∉ c :: s := by simp [hs, Ne.symm hsemi]
    rw [partWords_last hnot, partWords_last hs, splitWhitespace_cons_space hc]
  · have hnot : ';' ∉ c :: a := by simp [ha, Ne.symm hsemi]
    rw [← List.cons_append, partWords_part hnot, partWords_part ha, splitWhitespace_cons_space hc]

theorem partWords_trimStart (s : List Char) : partWords (trimStart s) = partWords s := by
  induction s with
  | nil => rfl
  | cons c s ih =>
    cases hc : isWhitespace c with
    | true =>
      rw [partWords_cons_space hc, ← ih, trimStart, List.dropWhile_cons_of_pos hc, trimStart]
    | false => rw [trimStart, List.dropWhile_cons_of_neg (by simp [hc])]

theorem partWords_trim (s : List Char) : partWords (trim s) = partWords s := by
  obtain ⟨b, hb, hspace⟩ := trim_append s
  rw [← partWords_trimStart s, hb, partWords_append_blank fun c hc => .inl (hspace c hc)]

theorem commandWords_eq (line : List Char) : commandWords line = partWords line := by
  rw [← partWords_trim, commandWords, commands]
  split
  · rename_i hnil
    rw [hnil]
    rfl
  rename_i hne
  split
  · rw [partWords, List.filter_map, List.filter_map, List.map_map]
    have hwords : splitWhitespace ∘ trim = splitWhitespace := funext splitWhitespace_trim
    rw [hwords]
    refine congrArg _ (List.filter_congr fun s _ => ?_)
    simp [trim_eq_nil]
  · rename_i hsemi
    have hwords : splitWhitespace (trim line) ≠ [] := by
      rw [splitWhitespace_trim]
      exact fun h => hne ((trim_eq_nil line).mpr h)
    rw [partWords_last hsemi, if_neg hwords]
    rfl

theorem commandWords_append : commandWords text = commandWords (text ++ rest) ↔ Blank rest := by
  rw [commandWords_eq, commandWords_eq]
  constructor
  · intro h
    have hvis : visible text = visible text ++ visible rest := by
      rw [← visible_append, ← partWords_visible, ← partWords_visible, h]
    exact visible_eq_nil.mp (List.self_eq_append_right.mp hvis)
  · intro hrest
    exact (partWords_append_blank hrest).symm

theorem commandWords_eq_nil : commandWords text = [] ↔ Blank text := by
  have hnil : commandWords [] = [] := by rfl
  have happend : commandWords [] = commandWords ([] ++ text) ↔ Blank text := commandWords_append
  rw [← happend, List.nil_append, hnil, eq_comm]

end Commands

section Expansion

variable {table : AliasTable} {line cmd val args : List Char}

theorem AliasTable.get_fits (h : table.get cmd = some val) : (utf8 val).length ≤ valueCap := by
  obtain ⟨a, -, rfl⟩ := Option.map_eq_some_iff.mp h
  exact a.valFits

theorem splitCommand_args (line : List Char) (h : (splitCommand line).2 ≠ []) :
    isWhitespace ((splitCommand line).2.getLast h) = false := by
  revert h
  rw [splitCommand]
  rcases splitOnce (· = ' ') line with _ | ⟨cmd, rest⟩
  · exact fun h => absurd rfl h
  · exact fun h => trim_getLast h

theorem expansion_words (val args : List Char) :
    splitWhitespace (expansion val args) = splitWhitespace val ++ splitWhitespace args := by
  rw [expansion]
  split
  · rename_i hargs
    rw [hargs, List.append_nil]
    exact (List.append_nil _).symm
  · exact splitWhitespace_append_space (by decide) val args

theorem expandedBuf_eq (hval : (utf8 val).length ≤ valueCap) :
    expandedBuf val args = (utf8 (expansion val args)).take expandedCap := by
  have htake : (utf8 val).take expandedCap = utf8 val :=
    List.take_of_length_le (hval.trans (by decide))
  have hroom : (utf8 val).length < expandedCap := Nat.lt_of_le_of_lt hval (by decide)
  rw [expandedBuf, htake, expansion]
  by_cases hargs : args = []
  · rw [if_neg (not_and_of_not_left _ (not_not_intro hargs)), if_pos hargs, List.append_nil, htake]
  · have hspace : utf8 (' ' :: args) = 0x20 :: utf8 args := rfl
    rw [if_pos ⟨hargs, hroom⟩, if_neg hargs, utf8_append, hspace, List.take_append, htake]
    obtain ⟨room, hroom⟩ := Nat.exists_eq_add_of_lt hroom
    rw [hroom, Nat.add_assoc, Nat.add_sub_cancel_left, List.take_succ_cons]
    congr 3
    omega

theorem expandAlias_none (h : table.get cmd = none) : expandAlias table cmd args = (cmd, args) := by
  rw [expandAlias, h]
  rfl

theorem expandAlias_some (h : table.get cmd = some val) : expandAlias table cmd args =
    match fromUtf8 ((utf8 (expansion val args)).take expandedCap) with
    | some (c :: cs) => splitCommand (c :: cs)
    | _ => (cmd, args) := by
  simp only [expandAlias, h, expandedBuf_eq (AliasTable.get_fits h)]
  rcases fromUtf8 ((utf8 (expansion val args)).take expandedCap) with _ | _ | ⟨c, cs⟩
  · rfl
  · rfl
  · exact if_neg (List.cons_ne_nil c cs)

theorem cut_words {cut : List Char} (hval : (utf8 val).length ≤ valueCap)
    (hargs : ∀ h : args ≠ [], isWhitespace (args.getLast h) = false)
    (hlong : expandedCap < (utf8 (expansion val args)).length)
    (hcut : (utf8 (expansion val args)).take expandedCap = utf8 cut) :
    (Act.command (splitCommand cut).1 (splitCommand cut).2).words ≠ splitWhitespace val ++
      splitWhitespace args := by
  have hsplit :
      utf8 cut ++ (utf8 (expansion val args)).drop expandedCap = utf8 (expansion val args) := by
    rw [← hcut, List.take_append_drop]
  obtain ⟨lost, hexp, hlost⟩ := utf8_prefix hsplit
  have hne : lost ≠ [] := by
    rintro rfl
    rw [utf8_eq_nil.mpr rfl, List.drop_eq_nil_iff] at hlost
    omega
  have hargsne : args ≠ [] := by
    rintro rfl
    rw [expansion, if_pos rfl, List.append_nil] at hlong
    simp only [expandedCap, valueCap] at hlong hval
    omega
  -- the last character of the arguments is lost
  have hsolid : lost.filter (fun c => !isWhitespace c) ≠ [] := by
    have hlast : lost.getLast hne = args.getLast hargsne := by
      have hall : ∀ h, (expansion val args).getLast h = args.getLast hargsne := by
        rw [expansion, if_neg hargsne]
        intro h
        rw [List.getLast_append_of_ne_nil _ (List.cons_ne_nil _ _), List.getLast_cons hargsne]
      rw [hexp] at hall
      rw [← hall (List.append_ne_nil_of_right_ne_nil _ hne), List.getLast_append_of_ne_nil _ hne]
    intro hnil
    have hmem := List.filter_eq_nil_iff.mp hnil _ (List.getLast_mem hne)
    rw [hlast, hargs hargsne] at hmem
    exact hmem rfl
  intro h
  have hflat := congrArg (fun ws => ws.flatten.filter fun c => !isWhitespace c) h
  have hwords := congrArg List.flatten (splitCommand_words cut)
  simp only [List.flatten_append, splitWhitespace_flatten] at hwords
  simp only [Act.words, List.flatten_cons, ← expansion_words, splitWhitespace_flatten,
    List.filter_append, List.filter_filter, Bool.and_self] at hflat
  rw [← hwords, hexp, List.filter_append] at hflat
  exact hsolid (List.self_eq_append_right.mp hflat)

theorem actOn_exact_iff (table : AliasTable) (line : List Char) :
    (actOn table line).words = wanted table line ↔ ExpansionFits table line := by
  have hargs := splitCommand_args line
  have hline := splitCommand_words line
  rw [actOn, wanted, ExpansionFits]
  generalize splitCommand line = split at hargs hline ⊢
  obtain ⟨cmd, args⟩ := split
  dsimp only at hargs hline ⊢
  cases hmeta : hasMeta line with
  | true =>
    rw [if_pos rfl, Act.words, hline, List.append_left_inj]
    cases table.get cmd with
    | none => exact iff_of_true rfl (.inl rfl)
    | some val => exact eq_comm
  | false =>
    rw [if_neg Bool.false_ne_true]
    cases hget : table.get cmd with
    | none =>
      rw [expandAlias_none hget, Option.getD_none, Act.words, ← List.singleton_append,
        List.append_left_inj, eq_comm, splitWhitespace_eq_singleton]
      exact (or_iff_right Bool.false_ne_true).symm
    | some val =>
      rw [expandAlias_some hget, Option.getD_some]
      dsimp only
      rw [if_neg Bool.false_ne_true]
      by_cases hfit : (utf8 (expansion val args)).length ≤ expandedCap
      · rw [if_pos hfit, List.take_of_length_le hfit, fromUtf8_utf8, ← expansion_words]
        rcases hexp : expansion val args with _ | ⟨c, cs⟩
        · exact iff_of_false (List.cons_ne_nil _ _) fun h => h.1 rfl
        · exact act_words_iff
      · rw [if_neg hfit]
        cases hcut : fromUtf8 ((utf8 (expansion val args)).take expandedCap) with
        | none =>
          rw [Act.words, ← List.singleton_append, List.append_left_inj, eq_comm]
          exact (and_iff_right rfl).symm
        | some cut =>
          have htake := fromUtf8_eq_some.mp hcut
          refine iff_of_false ?_ fun h => nomatch h.1
          rcases cut with _ | ⟨c, cs⟩
          · have hlen := congrArg List.length htake
            rw [List.length_take, utf8_eq_nil.mpr rfl, List.length_nil] at hlen
            simp only [expandedCap] at hfit hlen
            omega
          · exact cut_words (AliasTable.get_fits hget) hargs (Nat.lt_of_not_le hfit) htake

end Expansion

theorem line_exact_iff (kept lost : List UInt8) :
    (Event.line kept lost (fromUtf8 kept)).Exact ↔ (Event.line kept lost (fromUtf8 kept)).Fits := by
  rw [Event.Exact, Event.Fits]
  cases hkept : fromUtf8 kept with
  | none =>
    refine iff_of_true (.inl rfl) fun text h => ?_
    rw [h, fromUtf8_utf8] at hkept
    cases hkept
  | some text =>
    obtain rfl := fromUtf8_eq_some.mp hkept
    rw [Option.getD_some, commandWords_eq_nil]
    constructor
    · intro h text' heq
      have hsame := fromUtf8_utf8 text'
      rw [← heq, hkept] at hsame
      obtain rfl := Option.some.inj hsame
      refine h.imp_right fun ⟨whole, hwhole, hwords⟩ => ?_
      obtain ⟨rest, rfl, hrest⟩ := utf8_prefix hwhole
      exact ⟨rest, hrest, commandWords_append.mp hwords⟩
    · intro h
      refine (h text rfl).imp_right fun ⟨rest, hlost, hblank⟩ => ?_
      exact ⟨text ++ rest, by rw [utf8_append, hlost], commandWords_append.mpr hblank⟩

theorem Event.exact_iff {e : Event} (h : e.Real) : e.Exact ↔ e.Fits := by
  cases e with
  | line kept lost passed =>
    obtain rfl : passed = fromUtf8 kept := h
    exact line_exact_iff kept lost
  | acted table sub act =>
    obtain rfl : act = actOn table sub := h
    exact actOn_exact_iff table sub

section RunInvariant

variable {w : World} {source : List Char → Shell → Shell} {sh : Shell}

def Shell.Real (sh : Shell) : Prop := ∀ e ∈ sh.events, e.Real

theorem Shell.Real.log (h : sh.Real) {e : Event} (he : e.Real) : (sh.log e).Real := by
  intro e' he'
  rcases List.mem_append.mp he' with hmem | hmem
  · exact h e' hmem
  · obtain rfl := List.mem_singleton.mp hmem
    exact he

theorem dispatchSingle_real (hsource : ∀ args sh, sh.Real → (source args sh).Real)
    (line : List Char) (h : sh.Real) : (dispatchSingle w source line sh).Real := by
  have hlog := h.log (e := .acted sh.table line (actOn sh.table line)) rfl
  rw [dispatchSingle]
  split
  · dsimp only
    split
    · exact hlog
    · split_ifs
      · exact hlog
      · exact hlog
      · exact hlog
      · exact hsource _ _ hlog
      · exact hlog
  · exact h

theorem dispatch_real (hsource : ∀ args sh, sh.Real → (source args sh).Real) (line : List Char)
    (h : sh.Real) : (dispatch w source line sh).Real :=
  List.foldlRecOn _ _ h fun _ hsh sub _ => dispatchSingle_real hsource sub hsh

theorem dispatchBytes_real (hsource : ∀ args sh, sh.Real → (source args sh).Real)
    (line : List UInt8 × List UInt8) (h : sh.Real) : (dispatchBytes w source sh line).Real := by
  have hlog := h.log (e := .line line.1 line.2 (fromUtf8 line.1)) rfl
  rw [dispatchBytes]
  split
  · dsimp only
    split
    · exact dispatch_real hsource _ hlog
    · exact hlog
  · exact h

theorem sourceNested_real (w : World) (depth : ℕ) (args : List Char) (sh : Shell) (h : sh.Real) :
    (sourceNested w depth args sh).Real := by
  induction depth generalizing args sh with
  | zero => exact h
  | succ depth ih =>
    rw [sourceNested, cmdSource]
    split
    · exact List.foldlRecOn _ _ h fun _ hsh line _ => dispatchBytes_real ih line hsh
    · exact h

theorem runTyped_real (w : World) (depth : ℕ) (line : List UInt8) (table : AliasTable) :
    (runTyped w depth line table).Real := by
  refine dispatch_real (sourceNested_real w depth) _ fun e he => ?_
  obtain rfl := List.mem_singleton.mp he
  rfl

end RunInvariant

section Lines

def LineBuf.line (buf : LineBuf) : List UInt8 := buf.bytes ++ buf.dropped

theorem LineBuf.push_line (buf : LineBuf) (b : UInt8) : (buf.push b).line = buf.line ++ [b] := by
  rw [push]
  split
  · rename_i hroom
    have hnil : buf.dropped = [] :=
      Classical.not_not.mp fun hne => Nat.ne_of_lt hroom (buf.full hne)
    simp [line, hnil]
  · simp [line]

theorem LineBuf.cut (buf : LineBuf) :
    (buf.bytes, buf.dropped) = (buf.line.take lineCap, buf.line.drop lineCap) := by
  rw [line]
  by_cases hnil : buf.dropped = []
  · rw [hnil, List.append_nil, List.take_of_length_le buf.fits, List.drop_of_length_le buf.fits]
  · rw [← buf.full hnil, List.take_left, List.drop_left]

theorem LineBuf.bytes_eq_nil (buf : LineBuf) : buf.bytes = [] ↔ buf.line = [] := by
  rw [line, List.append_eq_nil_iff]
  refine ⟨fun h => ⟨h, ?_⟩, And.left⟩
  refine Classical.not_not.mp fun hne => ?_
  have hlen := buf.full hne
  rw [h] at hlen
  cases hlen

def endLine : List (List UInt8) → List (List UInt8)
  | [] => []
  | [last] => if last = [] then [] else [last]
  | line :: lines => line :: endLine lines

def scriptLines (text : List UInt8) : List (List UInt8) := endLine (text.splitOn newline)

theorem readLines_eq (buf : LineBuf) (text : List UInt8) : readLines [] buf text =
    (endLine ((text.splitOn newline).modifyHead (buf.line ++ ·))).map fun l =>
      (l.take lineCap, l.drop lineCap) := by
  induction text generalizing buf with
  | nil =>
    have hsplit : ([] : List UInt8).splitOn newline = [[]] := rfl
    rw [readLines, hsplit, List.modifyHead_cons, List.append_nil, endLine, List.takeWhile_nil,
      List.append_nil]
    by_cases hnil : buf.bytes = []
    · rw [if_pos hnil, if_pos (buf.bytes_eq_nil.mp hnil)]
      rfl
    · rw [if_neg hnil, if_neg fun h => hnil (buf.bytes_eq_nil.mpr h), List.map_singleton, buf.cut]
  | cons b text ih =>
    obtain ⟨line, lines, hsplit⟩ := List.exists_cons_of_ne_nil (List.splitOn_ne_nil newline text)
    rw [readLines, List.splitOn_cons_eq_if_modifyHead]
    by_cases hb : b = newline
    · rw [if_pos hb, if_pos (beq_iff_eq.mpr hb), List.modifyHead_cons, List.append_nil, ih, hsplit,
        endLine, List.map_cons, buf.cut]
      · rfl
      · exact fun h => nomatch h
    · rw [if_neg hb, if_neg fun h => hb (beq_iff_eq.mp h), ih, LineBuf.push_line, hsplit]
      simp

theorem readLines_script (text : List UInt8) :
    readLines [] .empty text = (scriptLines text).map fun l =>
      (l.take lineCap, l.drop lineCap) := by
  rw [readLines_eq, scriptLines]
  rcases text.splitOn newline with _ | ⟨line, lines⟩ <;> rfl

end Lines

def cutTable : AliasTable := (AliasTable.empty.set ['r'] ['r', 'm']).getD .empty

def cutLine : List UInt8 := utf8 ('r' :: ' ' :: List.replicate 126 'a')

end CoeleoOs.Sh
