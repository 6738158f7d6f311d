import CoeleoOs.Lib.Lines
import CoeleoOs.Sh.TextOut

/-!
# `grep`

`grep` puts lines together in a buffer of 1024 bytes, drops what does not fit and passes over a
line that is not UTF-8. A line is tested by one search and printed by another one that sets off
every occurrence.
-/

namespace CoeleoOs.Sh
open CoeleoOs.Lib CoeleoOs.Lib.Text CoeleoOs.Lib.Lines CoeleoOs.Fs
open CoeleoOs.Task (Bytes utf8Valid)

variable {φ η : Type}

structure GrepArgs where
  i : Bool
  n : Bool
  v : Bool
  pattern : List Char
  path : List Char
  deriving DecidableEq

def GrepArgs.flag (g : GrepArgs) (c : Char) : GrepArgs :=
  if c = 'i' then { g with i := true } else if c = 'n' then { g with n := true }
    else if c = 'v' then { g with v := true } else g

def GrepArgs.word (g : GrepArgs) (word : List Char) : GrepArgs :=
  if word.head? = some '-' ∧ 1 < word.length then (word.drop 1).foldl GrepArgs.flag g
  else if g.pattern = [] then { g with pattern := word }
  else if g.path = [] then { g with path := word }
  else g

def grepArgs (args : List Char) : GrepArgs :=
  (splitWhitespace args).foldl GrepArgs.word ⟨false, false, false, [], []⟩

def fold (ci : Bool) (b : UInt8) : UInt8 := if ci ∧ 0x41 ≤ b ∧ b ≤ 0x5A then b + 0x20 else b

def sameBytes (ci : Bool) (a b : Bytes) : Bool := a.map (fold ci) = b.map (fold ci)

def strContains (hb nb : Bytes) : Bool :=
  (List.range (hb.length + 1)).any fun i => (hb.drop i).take nb.length = nb

def containsIgnoreAsciiCase (hb nb : Bytes) : Bool :=
  if nb = [] then true
  else if hb.length < nb.length then false
  else (List.range (hb.length - nb.length + 1)).any fun i =>
    sameBytes true ((hb.drop i).take nb.length) nb

-- The first match among the places given. A slice that ends outside panics: `none`.
def matchPos (ci : Bool) (hb nb : Bytes) : List ℕ → Option (Option ℕ)
  | [] => some none
  | i :: is =>
    if hb.length < i + nb.length then none
    else if sameBytes ci ((hb.drop i).take nb.length) nb then some (some i)
    else matchPos ci hb nb is

def highlightFrom (ci : Bool) (hb nb : Bytes) : ℕ → ℕ → Option (List Piece)
  | 0, _ => none
  | fuel + 1, start =>
    if start < hb.length then
      match matchPos ci hb nb (List.range' start (hb.length - nb.length + 1 - start)) with
      | none => none
      | some none => some [.text (hb.drop start)]
      | some (some pos) =>
        (highlightFrom ci hb nb fuel (pos + nb.length)).map fun rest =>
          (if start < pos then [.text ((hb.take pos).drop start)] else []) ++
            [red, .text ((hb.drop pos).take nb.length), normal] ++ rest
    else some []

def printHighlighted (ci : Bool) (hb nb : Bytes) : Option (List Piece) :=
  (highlightFrom ci hb nb (hb.length + 1) 0).map fun ps => ps ++ [lit "\n"]

def GrepArgs.found (g : GrepArgs) (line : Bytes) : Bool :=
  if g.i then containsIgnoreAsciiCase line (utf8 g.pattern) else strContains line (utf8 g.pattern)

def checkAndPrintGrep (g : GrepArgs) (line : Bytes) (idx : ℕ) : Option (List Piece) :=
  if utf8Valid line = false then some []
  else if (g.found line && !g.v) || (!g.found line && g.v) then
    let number := if g.n then [green, .text (printNum idx), lit ":", normal, lit " "] else []
    if !g.v && g.pattern ≠ [] then (printHighlighted g.i line (utf8 g.pattern)).map fun ps =>
      number ++ ps
    else some (number ++ [.text line, lit "\n"])
  else some []

def grepCap : ℕ := 1024

structure GrepScan where
  line : Bytes
  idx : ℕ
  out : List Piece

def grepByte (g : GrepArgs) (s : GrepScan) (b : UInt8) : Option GrepScan :=
  if b = newline then (checkAndPrintGrep g s.line s.idx).map fun ps => ⟨[], s.idx + 1, s.out ++ ps⟩
  else if s.line.length < grepCap then some { s with line := s.line ++ [b] }
  else some s

def grepLoop (fat : FatIo φ η) (g : GrepArgs) (fd : ℕ) :
    ℕ → GrepScan → Files φ → Option (GrepScan × Files φ)
  | 0, _, _ => none
  | fuel + 1, s, files =>
    match files.read fat fd bufLen with
    | (none, files) | (some [], files) => some (s, files)
    | (some (b :: bs), files) =>
      ((b :: bs).foldlM (grepByte g) s).bind fun s => grepLoop fat g fd fuel s files

def GrepScan.last (g : GrepArgs) (s : GrepScan) : Option (List Piece) :=
  if s.line ≠ [] then (checkAndPrintGrep g s.line s.idx).map fun ps => s.out ++ ps else some s.out

def grepFd (fat : FatIo φ η) (fuel : ℕ) (g : GrepArgs) (fd : ℕ) (s : Written φ) :
    Option (Written φ) :=
  (grepLoop fat g fd fuel ⟨[], 1, s.out⟩ s.files).bind fun r =>
    (r.1.last g).map fun out => ⟨if fd ≠ 0 then r.2.close fd else r.2, out⟩

def cmdGrep (fat : FatIo φ η) (fuel : ℕ) (cwd : Bytes) (args : List Char) (s : Written φ) :
    Option (Written φ) :=
  let g := grepArgs args
  if g.pattern = [] then some ((s.put (errMsg "grep" "missing search term")).put
    (usage "grep" "[-i] [-n] [-v] <term> [file]"))
  else if g.path = [] then grepFd fat fuel g 0 s
  else
    match s.files.openPath fat (resolve cwd (utf8 g.path)) openRead with
    | (none, files) =>
      some (((s.withFiles files).put [lit "grep: not found\n"]).put
        (errTarget "grep" g.path "file not found"))
    | (some fd, files) => grepFd fat fuel g fd (s.withFiles files)

section Search

variable {ci : Bool} {hb nb : Bytes}

def Contains (ci : Bool) (nb hb : Bytes) : Prop := nb.map (fold ci) <:+: hb.map (fold ci)

instance (ci : Bool) (nb hb : Bytes) : Decidable (Contains ci nb hb) := by
  unfold Contains
  infer_instance

theorem fold_false (b : Bytes) : b.map (fold false) = b := by
  have hid : ∀ x ∈ b, fold false x = id x := fun x _ => by simp [fold]
  rw [List.map_congr_left hid, List.map_id]

theorem contains_iff : Contains ci nb hb ↔
    ∃ i, i + nb.length ≤ hb.length ∧ sameBytes ci ((hb.drop i).take nb.length) nb = true := by
  simp only [Contains, sameBytes, decide_eq_true_eq]
  constructor
  · rintro ⟨u, v, h⟩
    have hlen := congrArg List.length h
    simp only [List.length_append, List.length_map] at hlen
    refine ⟨u.length, by omega, ?_⟩
    rw [List.map_take, List.map_drop, ← h, List.append_assoc, List.drop_left,
      ← List.length_map (fold ci), List.take_left]
  · rintro ⟨i, -, h⟩
    rw [List.map_take, List.map_drop] at h
    rw [← h]
    exact ((List.take_prefix _ _).isInfix).trans (List.drop_suffix _ _).isInfix

theorem containsIgnoreAsciiCase_iff :
    containsIgnoreAsciiCase hb nb = true ↔ Contains true nb hb := by
  rw [containsIgnoreAsciiCase, contains_iff]
  by_cases hnil : nb = []
  · rw [if_pos hnil]
    refine iff_of_true rfl ⟨0, ?_, ?_⟩ <;> simp [hnil, sameBytes]
  · rw [if_neg hnil]
    by_cases hlen : hb.length < nb.length
    · rw [if_pos hlen]
      refine iff_of_false Bool.false_ne_true ?_
      rintro ⟨i, hi, -⟩
      omega
    · rw [if_neg hlen, List.any_eq_true]
      refine exists_congr fun i => and_congr_left fun _ => ?_
      rw [List.mem_range]
      omega

theorem strContains_iff : strContains hb nb = true ↔ Contains false nb hb := by
  rw [strContains, contains_iff, List.any_eq_true]
  refine exists_congr fun i => ?_
  simp only [sameBytes, fold_false, decide_eq_true_eq, List.mem_range]
  refine ⟨fun h => ⟨?_, h.2⟩, fun h => ⟨by omega, h.2⟩⟩
  have hlen := congrArg List.length h.2
  rw [List.length_take, List.length_drop] at hlen
  omega

theorem found_iff (g : GrepArgs) (line : Bytes) :
    g.found line = true ↔ Contains g.i (utf8 g.pattern) line := by
  rw [GrepArgs.found]
  cases g.i with
  | true => exact containsIgnoreAsciiCase_iff
  | false => exact strContains_iff

end Search

section Print

variable {ci : Bool} {hb nb : Bytes}

theorem matchPos_cases {is : List ℕ} (h : ∀ i ∈ is, i + nb.length ≤ hb.length) :
    matchPos ci hb nb is = some none ∨ ∃ pos ∈ is, matchPos ci hb nb is = some (some pos) := by
  induction is with
  | nil => exact .inl rfl
  | cons i is ih =>
    rw [List.forall_mem_cons] at h
    rw [matchPos, if_neg (Nat.not_lt_of_le h.1)]
    split
    · exact .inr ⟨i, List.mem_cons_self, rfl⟩
    · rcases ih h.2 with hnone | ⟨pos, hpos, hsome⟩
      · exact .inl hnone
      · exact .inr ⟨pos, List.mem_cons_of_mem _ hpos, hsome⟩

theorem highlightFrom_plain (hpos : 0 < nb.length) (hlen : nb.length ≤ hb.length) (fuel start : ℕ)
    (hfuel : hb.length ≤ fuel + start) :
    ∃ ps, highlightFrom ci hb nb (fuel + 1) start = some ps ∧ ps.flatMap Piece.plain =
      hb.drop start := by
  induction fuel generalizing start with
  | zero =>
    have hend : ¬start < hb.length := by omega
    refine ⟨[], by rw [highlightFrom, if_neg hend], ?_⟩
    rw [List.drop_eq_nil_of_le (by omega)]
    rfl
  | succ fuel ih =>
    rw [highlightFrom]
    split
    · have hplaces : ∀ i ∈ List.range' start (hb.length - nb.length + 1 - start), i + nb.length ≤
          hb.length := by
        intro i hi
        rw [List.mem_range'_1] at hi
        omega
      rcases matchPos_cases hplaces with hnone | ⟨pos, hmem, hsome⟩
      · rw [hnone]
        exact ⟨_, rfl, by simp⟩
      · have hstart : start ≤ pos := (List.mem_range'_1.mp hmem).1
        obtain ⟨rest, hrest, hplain⟩ := ih (pos + nb.length) (by omega)
        rw [hsome]
        dsimp only
        rw [hrest]
        refine ⟨_, rfl, ?_⟩
        have hfront :
            ((if start < pos then [Piece.text ((hb.take pos).drop start)]
              else []).flatMap Piece.plain) = (hb.take pos).drop start := by
          split
          · simp
          · next hge =>
            rw [List.drop_eq_nil_of_le ((List.length_take_le _ _).trans (Nat.le_of_not_lt hge))]
            rfl
        have hcut := List.take_append_drop pos hb
        have hback := List.take_append_drop nb.length (hb.drop pos)
        have hlong : start ≤ (hb.take pos).length := by
          rw [List.length_take]
          have := hplaces pos hmem
          omega
        rw [List.drop_drop] at hback
        rw [List.flatMap_append, List.flatMap_append, hfront, hplain]
        conv_rhs => rw [← hcut, List.drop_append_of_le_length hlong, ← hback]
        simp [red, normal]
    · next hend =>
      refine ⟨[], rfl, ?_⟩
      rw [List.drop_eq_nil_of_le (Nat.le_of_not_lt hend)]
      rfl

/-- The lines that `grep` is to print. -/
def GrepArgs.selects (g : GrepArgs) (line : Bytes) : Bool :=
  if g.v then !decide (Contains g.i (utf8 g.pattern) line)
    else decide (Contains g.i (utf8 g.pattern) line)

def GrepArgs.record (g : GrepArgs) (idx : ℕ) (line : Bytes) : Bytes :=
  (if g.n then printNum idx ++ [0x3A, 0x20] else []) ++ line ++ [newline]

theorem selects_eq (g : GrepArgs) (line : Bytes) :
    ((g.found line && !g.v) || (!g.found line && g.v)) = g.selects line := by
  have hfound : g.found line = decide (Contains g.i (utf8 g.pattern) line) :=
    Bool.eq_iff_iff.mpr (by
    rw [found_iff, decide_eq_true_eq])
  rw [hfound, GrepArgs.selects]
  cases g.v <;> simp

theorem plain_newline : (lit "\n").plain = [newline] := by decide

theorem plain_colon : (lit ":").plain = [0x3A] := by decide

theorem plain_space : (lit " ").plain = [0x20] := by decide

theorem plain_number (g : GrepArgs) (idx : ℕ) :
    (if g.n then [green, .text (printNum idx), lit ":", normal, lit " "]
      else []).flatMap Piece.plain = if g.n then printNum idx ++ [0x3A, 0x20] else [] := by
  cases g.n with
  | false => rfl
  | true => simp [plain_colon, plain_space, green, normal]

theorem checkAndPrintGrep_plain (g : GrepArgs) (line : Bytes) (idx : ℕ) :
    ∃ ps, checkAndPrintGrep g line idx = some ps ∧
      ps.flatMap Piece.plain = if utf8Valid line && g.selects line then g.record idx line
        else [] := by
  rw [checkAndPrintGrep, selects_eq]
  cases hvalid : utf8Valid line with
  | false => exact ⟨[], rfl, rfl⟩
  | true =>
    cases hsel : g.selects line with
    | false => exact ⟨[], rfl, rfl⟩
    | true =>
      rw [if_neg (by simp), if_pos rfl]
      dsimp only
      split
      · next hmark =>
        have hv : g.v = false := by simpa using (Bool.and_eq_true_iff.mp hmark).1
        have hpat : g.pattern ≠ [] := by simpa using (Bool.and_eq_true_iff.mp hmark).2
        have hpos : 0 < (utf8 g.pattern).length :=
          List.length_pos_of_ne_nil fun h => hpat (utf8_eq_nil.mp h)
        have hlen : (utf8 g.pattern).length ≤ line.length := by
          rw [GrepArgs.selects, hv] at hsel
          have hcontains : Contains g.i (utf8 g.pattern) line := of_decide_eq_true hsel
          simpa using hcontains.length_le
        obtain ⟨ps, hps, hplain⟩ := @highlightFrom_plain g.i line _ hpos hlen line.length 0 le_rfl
        rw [printHighlighted, hps]
        refine ⟨_, rfl, ?_⟩
        rw [List.flatMap_append, plain_number, List.flatMap_append, hplain]
        simp [plain_newline, GrepArgs.record]
      · refine ⟨_, rfl, ?_⟩
        rw [List.flatMap_append, plain_number]
        simp [plain_newline, GrepArgs.record]

end Print

section Run

variable {fat : FatIo φ η} {s s' : Files φ} {fd : ℕ} {cs : List Bytes}

def records (g : GrepArgs) (passes : Bytes → Bool) (cut : Bytes → Bytes) (idx : ℕ)
    (ls : List Bytes) : List Bytes :=
  ((ls.zipIdx idx).filter fun p => passes p.1).map fun p => g.record p.2 (cut p.1)

def kept (line : Bytes) : Bytes := line.take grepCap

def GrepArgs.shows (g : GrepArgs) (line : Bytes) : Bool :=
  utf8Valid (kept line) && g.selects (kept line)

theorem records_cons (g : GrepArgs) (passes : Bytes → Bool) (cut : Bytes → Bytes) (idx : ℕ)
    (l : Bytes) (ls : List Bytes) : (records g passes cut idx (l :: ls)).flatten =
      (if passes l then g.record idx (cut l) else []) ++
        (records g passes cut (idx + 1) ls).flatten := by
  rw [records, List.zipIdx_cons, List.filter_cons]
  cases passes l <;> rfl

theorem foldlM_grepByte (g : GrepArgs) (bs p : Bytes) (idx : ℕ) (out : List Piece)
    (hp : newline ∉ p) :
    ∃ ps, (bs.foldlM (grepByte g) ⟨kept p, idx, out⟩).bind (GrepScan.last g) = some ps ∧
      ps.flatMap Piece.plain =
        out.flatMap Piece.plain ++
          (records g g.shows kept idx (contents newline (p ++ bs))).flatten := by
  induction bs generalizing p idx out with
  | nil =>
    rw [List.foldlM_nil, Option.pure_def, Option.bind_some, GrepScan.last, List.append_nil]
    by_cases hnil : p = []
    · subst hnil
      exact ⟨out, if_neg (not_not_intro rfl), (List.append_nil _).symm⟩
    · have hkept : kept p ≠ [] := by
        rw [kept, Ne, List.take_eq_nil_iff, not_or]
        exact ⟨by decide, hnil⟩
      obtain ⟨ps, hps, hplain⟩ := checkAndPrintGrep_plain g (kept p) idx
      rw [if_pos hkept, hps]
      refine ⟨_, rfl, ?_⟩
      rw [List.flatMap_append, hplain, contents_of_not_mem hp hnil, records_cons]
      exact congrArg _ (List.append_nil _).symm
  | cons b bs ih =>
    rw [List.foldlM_cons, grepByte]
    by_cases hb : b = newline
    · obtain ⟨ps, hps, hplain⟩ := checkAndPrintGrep_plain g (kept p) idx
      rw [if_pos hb, hps]
      obtain ⟨qs, hqs, hrest⟩ := ih [] (idx + 1) (out ++ ps) List.not_mem_nil
      refine ⟨qs, hqs, ?_⟩
      rw [hrest, List.flatMap_append, hplain, hb, contents_append_sep hp, records_cons,
        List.append_assoc]
      rfl
    · have hnext : (if (kept p).length < grepCap then some ⟨kept p ++ [b], idx, out⟩
          else some ⟨kept p, idx, out⟩) = some (GrepScan.mk (kept (p ++ [b])) idx out) := by
        rw [kept, List.length_take, kept]
        split
        · next hroom =>
          rw [List.take_of_length_le (by omega), List.take_of_length_le (by simp; omega)]
        · next hfull => rw [List.take_append_of_le_length (by omega)]
      obtain ⟨qs, hqs, hrest⟩ := ih (p ++ [b]) idx out (by simp [hp, Ne.symm hb])
      rw [if_neg hb]
      dsimp only
      rw [hnext]
      refine ⟨qs, hqs, ?_⟩
      rw [hrest, List.append_assoc]
      rfl

theorem grepLoop_eq (g : GrepArgs) (h : Splits fat fd s cs s') (st : GrepScan) {fuel : ℕ}
    (hfuel : cs.length < fuel) :
    grepLoop fat g fd fuel st s = (cs.flatten.foldlM (grepByte g) st).map fun st => (st, s') := by
  induction h generalizing st fuel with
  | done hread =>
    obtain ⟨fuel, rfl⟩ := Nat.exists_eq_succ_of_ne_zero (Nat.ne_of_gt hfuel)
    rw [grepLoop, hread]
    rfl
  | @more _ _ _ b bs cs hread _ ih =>
    obtain ⟨fuel, rfl⟩ := Nat.exists_eq_succ_of_ne_zero (Nat.ne_of_gt (Nat.zero_lt_of_lt hfuel))
    rw [grepLoop, hread]
    dsimp only
    rw [List.flatten_cons, List.foldlM_append, Option.bind_eq_bind]
    cases (b :: bs).foldlM (grepByte g) st with
    | none => rfl
    | some st => exact ih st (Nat.lt_of_succ_lt_succ hfuel)

end Run

section Exact

variable {g : GrepArgs} {ls : List Bytes}

theorem newline_not_mem_record {line : Bytes} (hline : newline ∉ line) (idx : ℕ) :
    ∃ p, g.record idx line = p ++ [newline] ∧ newline ∉ p := by
  refine ⟨_, rfl, ?_⟩
  rw [List.mem_append, not_or]
  refine ⟨?_, hline⟩
  split
  · rw [List.mem_append, not_or]
    refine ⟨fun h => ?_, by decide⟩
    exact absurd (mem_printNum h).1 (by decide)
  · exact List.not_mem_nil

theorem record_inj {i j : ℕ} {l m : Bytes} (h : g.record i l = g.record j m) : l = m := by
  have hcut : ∀ (k : ℕ) (x : Bytes), contents 0x3A (printNum k ++ [0x3A, 0x20] ++ x) =
      printNum k :: contents 0x3A (0x20 :: x) := by
    intro k x
    rw [List.append_assoc]
    refine contents_append_sep (fun hmem => ?_) _
    exact absurd (mem_printNum hmem).2 (by decide)
  rw [GrepArgs.record, GrepArgs.record, List.append_left_inj] at h
  cases hn : g.n with
  | false => simpa [hn] using h
  | true =>
    rw [hn, if_pos rfl, if_pos rfl] at h
    have hnum := congrArg (contents 0x3A) h
    rw [hcut, hcut] at hnum
    rw [(List.cons_eq_cons.mp hnum).1] at h
    exact List.append_cancel_left h

theorem countP_agree {α : Type} {p q : α → Bool} {xs : List α}
    (h : ∀ x ∈ xs, p x = true → q x = true) (hcount : xs.countP p = xs.countP q) :
    ∀ x ∈ xs, q x = true → p x = true := by
  induction xs with
  | nil => exact nofun
  | cons x xs ih =>
    rw [List.forall_mem_cons] at h ⊢
    have hle := List.countP_mono_left h.2
    rw [List.countP_cons, List.countP_cons] at hcount
    have hhead := h.1
    cases hp : p x with
    | true =>
      rw [hp, hhead hp] at hcount
      exact ⟨fun _ => rfl, ih h.2 (by omega)⟩
    | false =>
      rw [hp] at hcount
      cases hq : q x with
      | true =>
        rw [hq] at hcount
        simp at hcount
        omega
      | false =>
        rw [hq] at hcount
        exact ⟨fun h => h, ih h.2 hcount⟩

theorem length_records (passes : Bytes → Bool) (cut : Bytes → Bytes) (idx : ℕ) :
    (records g passes cut idx ls).length = ls.countP passes := by
  induction ls generalizing idx with
  | nil => rfl
  | cons l ls ih =>
    rw [records, List.zipIdx_cons, List.filter_cons, List.countP_cons, ← ih (idx + 1)]
    cases passes l <;> rfl

theorem records_eq_iff (hls : ∀ l ∈ ls, newline ∉ l) (idx : ℕ) :
    (records g g.shows kept idx ls).flatten = (records g g.selects id idx ls).flatten ↔
      ∀ l ∈ ls, (g.selects l = true → utf8Valid l = true ∧ l.length ≤ grepCap) ∧
        (g.selects l = false → utf8Valid (kept l) = true → g.selects (kept l) = false) := by
  have hkept : ∀ l : Bytes, l.length ≤ grepCap → kept l = l := fun l hl => List.take_of_length_le hl
  constructor
  · intro hflat
    have hlines :
        ∀ (passes : Bytes → Bool) (cut : Bytes → Bytes), (∀ l, newline ∉ l → newline ∉ cut l) →
        lines newline (records g passes cut idx ls).flatten = records g passes cut idx ls := by
      intro passes cut hcut
      refine lines_flatten fun r hr => ?_
      obtain ⟨p, hp, rfl⟩ := List.mem_map.mp hr
      exact newline_not_mem_record
        (hcut _ (hls _ (List.fst_mem_of_mem_zipIdx (List.mem_of_mem_filter hp)))) _
    have heq : records g g.shows kept idx ls = records g g.selects id idx ls := by
      rw [← hlines g.shows kept fun l hl hmem => hl (List.mem_of_mem_take hmem), hflat,
        hlines g.selects id fun _ hl => hl]
    have hwhole : ∀ l ∈ ls, g.selects l = true → utf8Valid l = true ∧ l.length ≤ grepCap := by
      intro l hl hsel
      obtain ⟨i, hi⟩ := List.mem_iff_getElem?.mp hl
      have hplace : (l, idx + i) ∈ ls.zipIdx idx := List.mk_add_mem_zipIdx_iff_getElem?.mpr hi
      have hmem : g.record (idx + i) l ∈ records g g.selects id idx ls :=
        List.mem_map.mpr ⟨(l, idx + i), List.mem_filter.mpr ⟨hplace, hsel⟩, rfl⟩
      rw [← heq] at hmem
      obtain ⟨q, hq, hrec⟩ := List.mem_map.mp hmem
      obtain ⟨hvalid, -⟩ := Bool.and_eq_true_iff.mp (List.mem_filter.mp hq).2
      rw [← record_inj hrec]
      exact ⟨hvalid, List.length_take_le _ _⟩
    have hshown : ∀ l ∈ ls, g.selects l = true → g.shows l = true := by
      intro l hl hsel
      obtain ⟨hvalid, hlen⟩ := hwhole l hl hsel
      rw [GrepArgs.shows, hkept l hlen, hvalid, hsel]
      rfl
    have hcount := congrArg List.length heq
    rw [length_records, length_records] at hcount
    intro l hl
    refine ⟨hwhole l hl, fun hsel hvalid => Bool.eq_false_iff.mpr fun hcutsel => ?_⟩
    have hshow : g.shows l = true := by
      rw [GrepArgs.shows, hvalid, hcutsel]
      rfl
    exact absurd (hsel.symm.trans (countP_agree hshown hcount.symm l hl hshow)) Bool.false_ne_true
  · intro h
    have hpasses : ∀ l ∈ ls, g.shows l = g.selects l ∧ (g.selects l = true → kept l = l) := by
      intro l hl
      obtain ⟨hyes, hno⟩ := h l hl
      cases hsel : g.selects l with
      | true =>
        obtain ⟨hvalid, hlen⟩ := hyes hsel
        refine ⟨?_, fun _ => hkept l hlen⟩
        rw [GrepArgs.shows, hkept l hlen, hvalid, hsel]
        rfl
      | false =>
        refine ⟨?_, fun hfalse => absurd hfalse Bool.false_ne_true⟩
        rw [GrepArgs.shows, Bool.and_eq_false_imp]
        exact hno hsel
    have hfilter : (ls.zipIdx idx).filter (fun p => g.shows p.1) = (ls.zipIdx idx).filter fun p =>
        g.selects p.1 :=
      List.filter_congr fun p hp => (hpasses p.1 (List.fst_mem_of_mem_zipIdx hp)).1
    have hrecords : records g g.shows kept idx ls = records g g.selects id idx ls := by
      rw [records, records, hfilter]
      refine List.map_congr_left fun p hp => ?_
      obtain ⟨hmem, hsel⟩ := List.mem_filter.mp hp
      rw [(hpasses p.1 (List.fst_mem_of_mem_zipIdx hmem)).2 hsel]
      rfl
    rw [hrecords]

end Exact

section Results

variable {fat : FatIo φ η} (spec : FatSpec fat) {s s₁ s' : Files φ} {fd : ℕ} {cwd path b : Bytes}
  {cs : List Bytes} {args : List Char}

/-- What `grep` is to print of a file, without the colours: the selected lines in order. -/
def grepWanted (g : GrepArgs) (file : Bytes) : Bytes :=
  (((contents newline file).zipIdx 1).filter fun p => g.selects p.1).flatMap fun p =>
    g.record p.2 p.1

/-- Every line to be printed is a text that fits into the buffer, and no other line is selected by
its beginning. -/
def GrepExact (g : GrepArgs) (file : Bytes) : Prop :=
  ∀ l ∈ contents newline file, (g.selects l = true → utf8Valid l = true ∧ l.length ≤ grepCap) ∧
    (g.selects l = false → utf8Valid (kept l) = true → g.selects (kept l) = false)

include spec

theorem cmdGrep_shows (hpat : (grepArgs args).pattern ≠ []) (hname : (grepArgs args).path ≠ [])
    (hpath : resolve cwd (utf8 (grepArgs args).path) = path)
    (hcontent : s.content spec path = some b) (hopen : s.openPath fat path openRead = (some fd, s₁))
    (hreads : Splits fat fd s₁ cs s') :
    ∃ t, (∀ fuel, cs.length < fuel → cmdGrep fat fuel cwd args ⟨s, []⟩ = some t) ∧
      t.plain =
        (records (grepArgs args) (grepArgs args).shows kept 1 (contents newline b)).flatten := by
  have hflat := opened_flatten spec hcontent hopen hreads
  generalize hg : grepArgs args = g at *
  obtain ⟨ps, hps, hplain⟩ := foldlM_grepByte g b [] 1 [] List.not_mem_nil
  refine ⟨⟨if fd ≠ 0 then s'.close fd else s', ps⟩, fun fuel hfuel => ?_, hplain⟩
  have hloop := grepLoop_eq g hreads ⟨[], 1, []⟩ hfuel
  rw [hflat] at hloop
  obtain ⟨st, hst, hlast⟩ := Option.bind_eq_some_iff.mp hps
  have hstart : (GrepScan.mk (kept []) 1 []) = ⟨[], 1, []⟩ := rfl
  rw [← hstart, hst] at hloop
  rw [cmdGrep]
  dsimp only
  rw [hg, if_neg hpat, if_neg hname, hpath, hopen]
  dsimp only [Written.withFiles, grepFd]
  rw [← hstart, hloop, Option.map_some, Option.bind_some, hlast]
  rfl

omit spec in
theorem grepWanted_eq (g : GrepArgs) (file : Bytes) :
    grepWanted g file = (records g g.selects id 1 (contents newline file)).flatten := by
  rw [grepWanted, records, List.flatMap_def]
  rfl

/-- Whatever chunks the reads give and whatever the options, `grep` prints exactly the selected
lines, each of them whole, under these conditions on the lines of the file. -/
theorem grep_selects_iff (hpat : (grepArgs args).pattern ≠ []) (hname : (grepArgs args).path ≠ [])
    (hpath : resolve cwd (utf8 (grepArgs args).path) = path)
    (hcontent : s.content spec path = some b) (hopen : s.openPath fat path openRead = (some fd, s₁))
    (hreads : Splits fat fd s₁ cs s') :
    ∃ t, (∀ fuel, cs.length < fuel → cmdGrep fat fuel cwd args ⟨s, []⟩ = some t) ∧
      (t.plain = grepWanted (grepArgs args) b ↔ GrepExact (grepArgs args) b) := by
  obtain ⟨t, hrun, hplain⟩ := cmdGrep_shows spec hpat hname hpath hcontent hopen hreads
  refine ⟨t, hrun, ?_⟩
  rw [hplain, grepWanted_eq]
  exact records_eq_iff (fun l hl => not_mem_contents hl) 1

end Results

section Flat

def termY : List Char := ['-', 'n', ' ', 'y', ' ', '/', 'a']

theorem grep_second_line : ∃ t,
    (∀ fuel, 1 < fuel → cmdGrep (flatFat 16) fuel [slash] termY ⟨textFile [0x78, 0x0A, 0x78, 0x79],
      []⟩ = some t) ∧ (t.plain = grepWanted (grepArgs termY) [0x78, 0x0A, 0x78, 0x79] ↔
      GrepExact (grepArgs termY) [0x78, 0x0A, 0x78, 0x79]) := by
  have hopen : (textFile [0x78, 0x0A, 0x78, 0x79]).openPath (flatFat 16) [0x2F, 0x61] openRead =
      (some 3,
        ((textFile [0x78, 0x0A, 0x78, 0x79]).openPath (flatFat 16) [0x2F, 0x61] openRead).2) :=
    Prod.ext (by decide) rfl
  have hreads :
      Splits (flatFat 16) 3 ((textFile [0x78, 0x0A, 0x78, 0x79]).openPath (flatFat 16) [0x2F,
        0x61] openRead).2 [[0x78, 0x0A, 0x78, 0x79]] _ :=
    .more (Prod.ext (by decide) rfl) (.done (Prod.ext (by decide) rfl))
  exact grep_selects_iff (flatSpec 16) (by decide) (by decide) (by decide) (by decide) hopen hreads

def onlyY : List Char := ['y', ' ', '/', 'a']

def longLine : Bytes := List.replicate 1024 0x78 ++ [0x79]

theorem longLine_contents : contents newline (longLine ++ [newline]) = [longLine] := by
  have hmem : newline ∉ longLine := by
    rw [longLine, List.mem_append, List.mem_replicate]
    decide
  exact contents_append_sep hmem []

theorem onlyY_selects (line : Bytes) : (grepArgs onlyY).selects line = decide (0x79 ∈ line) := by
  have hargs : grepArgs onlyY = ⟨false, false, false, ['y'], ['/', 'a']⟩ := by decide
  have hterm : utf8 ['y'] = [0x79] := by decide
  rw [hargs, GrepArgs.selects, if_neg Bool.false_ne_true]
  simp only [hterm, Contains, fold_false, List.singleton_infix_iff]

def readOn : ℕ → Files (Bytes → Option Bytes)
  | 0 => ((textFile (longLine ++ [newline])).openPath (flatFat 2000) [0x2F, 0x61] openRead).2
  | n + 1 => ((readOn n).read (flatFat 2000) 3 bufLen).2

theorem read_readOn {n : ℕ} {r : Option Bytes}
    (h : ((readOn n).read (flatFat 2000) 3 bufLen).1 = r) :
    (readOn n).read (flatFat 2000) 3 bufLen = (r, readOn (n + 1)) := by
  rw [readOn, ← h]

theorem longLine_splits :
    Splits (flatFat 2000) 3 (readOn 0)
      [0x78 :: List.replicate 511 0x78, 0x78 :: List.replicate 511 0x78, [0x79, 0x0A]]
      (readOn 4) := by
  have h₀ :
      ((readOn 0).read (flatFat 2000) 3 bufLen).1 = some (0x78 :: List.replicate 511 0x78) := by
    decide +kernel
  have h₁ :
      ((readOn 1).read (flatFat 2000) 3 bufLen).1 = some (0x78 :: List.replicate 511 0x78) := by
    decide +kernel
  have h₂ : ((readOn 2).read (flatFat 2000) 3 bufLen).1 = some [0x79, 0x0A] := by decide +kernel
  have h₃ : ((readOn 3).read (flatFat 2000) 3 bufLen).1 = some [] := by decide +kernel
  exact .more (read_readOn h₀)
    (.more (read_readOn h₁) (.more (read_readOn h₂) (.done (read_readOn h₃))))

/-- The term stands where the buffer is full, and the line is not printed. -/
theorem grep_misses_end : ∃ t,
    (∀ fuel, 3 < fuel → cmdGrep (flatFat 2000) fuel [slash] onlyY ⟨textFile (longLine ++ [newline]),
      []⟩ = some t) ∧ t.plain = [] ∧ grepWanted (grepArgs onlyY) (longLine ++ [newline]) ≠ [] := by
  have hopen : (textFile (longLine ++ [newline])).openPath (flatFat 2000) [0x2F, 0x61] openRead =
      (some 3, readOn 0) :=
    Prod.ext (by decide) rfl
  have hcontent : (textFile (longLine ++ [newline])).content (flatSpec 2000) [0x2F, 0x61] =
      some (longLine ++ [newline]) := by
    decide +kernel
  have hpath : resolve [slash] (utf8 (grepArgs onlyY).path) = [0x2F, 0x61] := by decide
  have hnames : (grepArgs onlyY).pattern ≠ [] ∧ (grepArgs onlyY).path ≠ [] := by decide
  obtain ⟨t, hrun, hplain⟩ :=
    cmdGrep_shows (flatSpec 2000) hnames.1 hnames.2 hpath hcontent hopen longLine_splits
  have hcut : kept longLine = List.replicate 1024 0x78 :=
    List.take_left' (by rw [List.length_replicate]; rfl)
  have hno : (grepArgs onlyY).shows longLine = false := by
    rw [GrepArgs.shows, onlyY_selects, hcut, Bool.and_eq_false_imp]
    intro _
    rw [decide_eq_false_iff_not, List.mem_replicate]
    decide
  have hyes : (grepArgs onlyY).selects longLine = true := by
    rw [onlyY_selects, longLine]
    exact decide_eq_true (List.mem_append_right _ List.mem_cons_self)
  refine ⟨t, hrun, ?_, ?_⟩
  · rw [hplain, longLine_contents, records_cons, hno]
    rfl
  · rw [grepWanted_eq, longLine_contents, records_cons, hyes, if_pos rfl]
    intro hnil
    have hrecord := (List.append_eq_nil_iff.mp hnil).1
    exact List.cons_ne_nil _ _ (List.append_eq_nil_iff.mp hrecord).2

end Flat

end CoeleoOs.Sh
