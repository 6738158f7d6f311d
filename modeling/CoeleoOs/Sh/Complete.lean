import CoeleoOs.Lib.CommonPrefix
import CoeleoOs.Sh.CellsLine
import CoeleoOs.Sh.Cwd
import CoeleoOs.Task.Syscall
import Mathlib.Data.Finset.Card

/-!
# Completion

Tab completes the last word of the line from the names of the builtins and of directories. The
names go through a table of 32 places of 64 bytes, and the line gets their longest common prefix.
-/

namespace CoeleoOs.Sh
open CoeleoOs.Fs (slash dot)
open CoeleoOs.Lib CoeleoOs.Lib.InPlace
open CoeleoOs.Task (Bytes DirEnt packDirent utf8Valid)

structure Places where
  builtins : List Bytes
  cwd : Bytes
  dirs : Bytes → Option (List DirEnt)

namespace Complete

abbrev maxCand : ℕ := 32
abbrev nameCap : ℕ := 64

structure Cand where
  text : Bytes
  isDir : Bool
  fits : text.length ≤ nameCap

def direntIsDir (ent : Bytes) : Bool := ent.headD 0 ≠ 0

def direntName (ent : Bytes) : Bytes :=
  let name := (ent.drop 1).takeWhile (· ≠ 0)
  if utf8Valid name then name else []

def already (cands : List Cand) (name : Bytes) : Bool := cands.any (·.text = name)

def addBuiltin (pre : Bytes) (cands : List Cand) (b : Bytes) : List Cand :=
  if pre <+: b ∧ already cands b = false ∧ cands.length < maxCand then
    cands ++ [⟨b.take nameCap, false, List.length_take_le _ _⟩]
  else cands

def entText (pathPrefix ent : Bytes) : Bytes :=
  pathPrefix ++ direntName ent ++ if direntIsDir ent then [slash] else []

def skipped (pre ent : Bytes) : Prop :=
  direntName ent = [] ∨ direntName ent = [dot] ∨ direntName ent = [dot, dot] ∨
    ¬pre <+: direntName ent

instance (pre ent : Bytes) : Decidable (skipped pre ent) := by
  unfold skipped
  infer_instance

def collectEnt (pre pathPrefix : Bytes) (cands : List Cand) (ent : Bytes) : List Cand :=
  if skipped pre ent then cands
  else if h : nameCap < (entText pathPrefix ent).length then cands
  else if already cands (entText pathPrefix ent) then cands
  else cands ++ [⟨entText pathPrefix ent, direntIsDir ent, Nat.le_of_not_lt h⟩]

def collectLoop (pre pathPrefix : Bytes) : List Bytes → List Cand → List Cand
  | [], cands => cands
  | ent :: ents, cands =>
    if maxCand ≤ cands.length then cands
      else collectLoop pre pathPrefix ents (collectEnt pre pathPrefix cands ent)

def collectDir (w : Places) (path pre pathPrefix : Bytes) (cands : List Cand) : List Cand :=
  match w.dirs path with
  | none => cands
  | some ents => collectLoop pre pathPrefix (ents.map packDirent) cands

def bin : Bytes := [0x2F, 0x62, 0x69, 0x6E]

def dirPart (tok : Bytes) : Bytes := (tok.reverse.dropWhile (· ≠ slash)).reverse

def filePart (tok : Bytes) : Bytes := (tok.reverse.takeWhile (· ≠ slash)).reverse

def collect (w : Places) (tokAt : ℕ) (tok : Bytes) : List Cand :=
  if dirPart tok = [] ∧ tokAt = 0 then
    collectDir w w.cwd (filePart tok) []
      (collectDir w bin (filePart tok) [] (w.builtins.foldl (addBuiltin (filePart tok)) []))
  else if dirPart tok = []
    then collectDir w bin (filePart tok) [] (collectDir w w.cwd (filePart tok) [] [])
  else collectDir w (resolve w.cwd (dirPart tok)) (filePart tok) (dirPart tok) []

def tokenSpan (line : Bytes) (n : ℕ) : Option (ℕ × ℕ) :=
  if n = 0 then some (0, 0) else (backWhile (· ≠ space) line n).map fun i => (i, n - i)

def countSame (first b : Bytes) (limit : ℕ) : ℕ :=
  ((List.range limit).takeWhile fun i => first[i]? = b[i]?).length

-- The loop stops at 0, which no further name changes.
def commonPrefixLen : List Bytes → ℕ
  | [] => 0
  | first :: rest => rest.foldl (fun len b => countSame first b (min len b.length)) first.length

def replaceToken (c : Cells) (tokAt : ℕ) (name : Bytes) : Painted :=
  if c.line.length < tokAt + name.length ∨ lineCap < tokAt + name.length then some (c, [])
  else
    let old := c.n - tokAt
    if name.length < old then some (c, [])
    else do
      let line ← copyFrom c.line tokAt name
      some ({ c with line := line, n := tokAt + name.length }, name.drop old)

def fillLcp (c : Cells) (tokAt tokLen : ℕ) (cand : Cand) (lcp : ℕ) : Painted :=
  if tokLen < lcp ∧ lcp ≤ nameCap then replaceToken c tokAt (cand.text.take lcp) else some (c, [])

def coloured (cand : Cand) : Bytes :=
  if cand.isDir then [0x1B, 0x5B, 0x31, 0x3B, 0x33, 0x34, 0x6D] ++ cand.text ++ [0x1B, 0x5B, 0x30,
    0x6D] else cand.text

def listed (cands : List Cand) : Bytes := [space, space].intercalate (cands.map coloured)

def apply (w : Places) (prompt : Bytes) (c : Cells) : Painted := do
  let (tokAt, tokLen) ← tokenSpan c.line c.n
  if tokLen = 0 then some (c, [])
  else do
    let tok ← slice c.line tokAt (tokAt + tokLen)
    if utf8Valid tok = false then some (c, [])
    else
      match collect w tokAt tok with
      | [] => some (c, [])
      | [cand] => replaceToken c tokAt cand.text
      | cand :: cands => do
        let (c, fill) ← fillLcp c tokAt tokLen cand
            (commonPrefixLen ((cand :: cands).map Cand.text))
        let text ← Cells.tailFrom c.line 0 c.n
        some (c, fill ++ [0x0A] ++ listed (cand :: cands) ++ [0x0A] ++ prompt ++ text)

section Words

def tokenAt (t : Bytes) : ℕ := (t.reverse.dropWhile (· ≠ space)).length

def token (t : Bytes) : Bytes := t.drop (tokenAt t)

def cands (w : Places) (t : Bytes) : List Cand :=
  if token t = [] ∨ utf8Valid (token t) = false then [] else collect w (tokenAt t) (token t)

def filled (t name : Bytes) : Bytes :=
  if (token t).length ≤ name.length ∧ tokenAt t + name.length ≤ lineCap
    then t.take (tokenAt t) ++ name else t

def lineWith (t : Bytes) (names : List Bytes) : Bytes :=
  if names = [] then t else filled t (commonPrefix names)

def complete (w : Places) (t : Bytes) : Bytes := lineWith t ((cands w t).map Cand.text)

def completeOut (w : Places) (prompt t : Bytes) : Bytes :=
  (complete w t).drop t.length ++
    if 2 ≤ (cands w t).length then [0x0A] ++ listed (cands w t) ++ [0x0A] ++ prompt ++ complete w t
      else []

variable {t name : Bytes}

theorem tokenAt_le (t : Bytes) : tokenAt t ≤ t.length := by
  have h := List.length_dropWhile_le (· ≠ space) t.reverse
  rwa [List.length_reverse] at h

theorem token_length (t : Bytes) : (token t).length = t.length - tokenAt t := List.length_drop

theorem take_token (t : Bytes) : t.take (tokenAt t) ++ token t = t := List.take_append_drop _ _

theorem filled_length (ht : t.length ≤ lineCap) (name : Bytes) :
    (filled t name).length ≤ lineCap := by
  rw [filled]
  split
  · rename_i h
    rw [List.length_append, List.length_take]
    omega
  · exact ht

theorem lineWith_length (ht : t.length ≤ lineCap) (names : List Bytes) :
    (lineWith t names).length ≤ lineCap := by
  rw [lineWith]
  split
  · exact ht
  · exact filled_length ht _

theorem filled_drop (t name : Bytes) : (filled t name).drop t.length =
    if (token t).length ≤ name.length ∧ tokenAt t + name.length ≤ lineCap
      then name.drop (t.length - tokenAt t) else [] := by
  have hle := tokenAt_le t
  rw [filled]
  split
  · rw [List.drop_append, List.length_take, Nat.min_eq_left hle, List.drop_of_length_le,
      List.nil_append]
    rw [List.length_take]
    omega
  · exact List.drop_length

theorem prefix_filled (h : (token t).length ≤ name.length → token t <+: name) :
    t <+: filled t name := by
  rw [filled]
  split
  · rename_i hfill
    conv_lhs => rw [← take_token t]
    exact (List.prefix_append_right_inj _).mpr (h hfill.1)
  · exact List.prefix_refl _

end Words

section Table

instance : LawfulBEq Bytes := inferInstance

def tableAdd (table : List Bytes) (item : Bytes × Bytes) : List Bytes :=
  if item.1 ∈ table ∨ maxCand ≤ table.length then table else table ++ [item.2]

def builtinItems (pre : Bytes) (builtins : List Bytes) : List (Bytes × Bytes) :=
  (builtins.filter (pre <+: ·)).map fun b => (b, b.take nameCap)

def entItems (pre pathPrefix : Bytes) (ents : List Bytes) : List (Bytes × Bytes) :=
  (ents.filter fun ent => ¬skipped pre ent ∧ (entText pathPrefix ent).length ≤ nameCap).map
    fun ent =>
    (entText pathPrefix ent, entText pathPrefix ent)

def dirItems (w : Places) (path pre pathPrefix : Bytes) : List (Bytes × Bytes) :=
  entItems pre pathPrefix (((w.dirs path).getD []).map packDirent)

def items (w : Places) (tokAt : ℕ) (tok : Bytes) : List (Bytes × Bytes) :=
  if dirPart tok = [] ∧ tokAt = 0 then
    builtinItems (filePart tok) w.builtins ++
      (dirItems w bin (filePart tok) [] ++ dirItems w w.cwd (filePart tok) [])
  else if dirPart tok = [] then dirItems w w.cwd (filePart tok) [] ++
    dirItems w bin (filePart tok) []
  else dirItems w (resolve w.cwd (dirPart tok)) (filePart tok) (dirPart tok)

variable {cs : List Cand} {w : Places}

theorem already_iff (cs : List Cand) (name : Bytes) :
    already cs name = true ↔ name ∈ cs.map Cand.text := by
  simp [already]

theorem foldl_tableAdd_full {table : List Bytes} (h : maxCand ≤ table.length)
    (is : List (Bytes × Bytes)) : is.foldl tableAdd table = table := by
  induction is with
  | nil => rfl
  | cons i is ih => rw [List.foldl_cons, tableAdd, if_pos (.inr h), ih]

theorem builtinItems_cons (pre b : Bytes) (bs : List Bytes) : builtinItems pre (b :: bs) =
    if pre <+: b then (b, b.take nameCap) :: builtinItems pre bs else builtinItems pre bs := by
  simp only [builtinItems, List.filter_cons, decide_eq_true_eq]
  split <;> rfl

theorem entItems_cons (pre pathPrefix ent : Bytes) (ents : List Bytes) :
    entItems pre pathPrefix (ent :: ents) = if ¬skipped pre ent ∧ (entText pathPrefix ent).length ≤
      nameCap then
      (entText pathPrefix ent, entText pathPrefix ent) :: entItems pre pathPrefix ents
    else entItems pre pathPrefix ents := by
  simp only [entItems, List.filter_cons, decide_eq_true_eq]
  split <;> rfl

theorem builtins_texts (pre : Bytes) (builtins : List Bytes) (cs : List Cand) :
    (builtins.foldl (addBuiltin pre) cs).map Cand.text = (builtinItems pre builtins).foldl tableAdd
      (cs.map Cand.text) := by
  induction builtins generalizing cs with
  | nil => rfl
  | cons b bs ih =>
    rw [List.foldl_cons, ih, builtinItems_cons, addBuiltin]
    by_cases hpre : pre <+: b
    · rw [if_pos hpre, List.foldl_cons, tableAdd, List.length_map]
      congr 1
      by_cases hold : already cs b = true
      · rw [if_neg fun h => by rw [hold] at h; exact Bool.noConfusion h.2.1, if_pos (.inl
          ((already_iff cs b).mp hold))]
      by_cases hfull : maxCand ≤ cs.length
      · rw [if_neg fun h => Nat.not_lt_of_le hfull h.2.2, if_pos (.inr hfull)]
      · rw [if_pos ⟨hpre, Bool.eq_false_of_not_eq_true hold, Nat.lt_of_not_le hfull⟩,
          if_neg (not_or.mpr ⟨fun h => hold ((already_iff cs b).mpr h), hfull⟩), List.map_append]
        rfl
    · rw [if_neg hpre, if_neg fun h => hpre h.1]

theorem collectLoop_texts (pre pathPrefix : Bytes) (ents : List Bytes) (cs : List Cand) :
    (collectLoop pre pathPrefix ents cs).map Cand.text = (entItems pre pathPrefix ents).foldl
      tableAdd (cs.map Cand.text) := by
  induction ents generalizing cs with
  | nil => rfl
  | cons ent ents ih =>
    rw [collectLoop]
    split
    · rename_i hfull
      rw [foldl_tableAdd_full (by rwa [List.length_map])]
    rename_i hroom
    rw [ih, entItems_cons, collectEnt]
    by_cases hskip : skipped pre ent
    · rw [if_pos hskip, if_neg fun h => h.1 hskip]
    rw [if_neg hskip]
    by_cases hlong : nameCap < (entText pathPrefix ent).length
    · rw [dif_pos hlong, if_neg fun h => Nat.not_lt_of_le h.2 hlong]
    have hoffer : ¬skipped pre ent ∧ (entText pathPrefix ent).length ≤ nameCap :=
      ⟨hskip, Nat.le_of_not_lt hlong⟩
    rw [dif_neg hlong, if_pos hoffer, List.foldl_cons, tableAdd, List.length_map]
    congr 1
    by_cases hold : already cs (entText pathPrefix ent) = true
    · rw [if_pos hold, if_pos (.inl ((already_iff cs _).mp hold))]
    · rw [if_neg hold, if_neg (not_or.mpr ⟨fun h => hold ((already_iff cs _).mpr h), hroom⟩),
        List.map_append]
      rfl

theorem collectDir_texts (w : Places) (path pre pathPrefix : Bytes) (cs : List Cand) :
    (collectDir w path pre pathPrefix cs).map Cand.text = (dirItems w path pre pathPrefix).foldl
      tableAdd (cs.map Cand.text) := by
  rw [collectDir, dirItems]
  cases w.dirs path with
  | none => rfl
  | some ents => exact collectLoop_texts _ _ _ _

theorem collect_texts (w : Places) (tokAt : ℕ) (tok : Bytes) :
    (collect w tokAt tok).map Cand.text = (items w tokAt tok).foldl tableAdd [] := by
  rw [collect, items]
  split
  · rw [collectDir_texts, collectDir_texts, builtins_texts, List.foldl_append, List.foldl_append]
    rfl
  split
  · rw [collectDir_texts, collectDir_texts, List.foldl_append]
    rfl
  · exact collectDir_texts _ _ _ _ _

theorem mem_foldl_tableAdd {x : Bytes} {is : List (Bytes × Bytes)} {table : List Bytes}
    (h : x ∈ is.foldl tableAdd table) : x ∈ table ∨ x ∈ is.map Prod.snd := by
  induction is generalizing table with
  | nil => exact .inl h
  | cons i is ih =>
    rw [List.map_cons, List.mem_cons]
    rcases ih h with hx | hx
    · rw [tableAdd] at hx
      split at hx
      · exact .inl hx
      · rcases List.mem_append.mp hx with hx | hx
        · exact .inl hx
        · exact .inr (.inl (List.mem_singleton.mp hx))
    · exact .inr (.inr hx)

theorem dirPart_filePart (tok : Bytes) : dirPart tok ++ filePart tok = tok := by
  rw [dirPart, filePart, ← List.reverse_append, List.takeWhile_append_dropWhile,
    List.reverse_reverse]

theorem items_prefix {tokAt : ℕ} {tok x : Bytes} (h : x ∈ (items w tokAt tok).map Prod.snd)
    (hlen : tok.length ≤ x.length) : tok <+: x := by
  have hsplit := dirPart_filePart tok
  have hdir : ∀ path, x ∈ (dirItems w path (filePart tok) (dirPart tok)).map Prod.snd →
      tok <+: x := by
    intro path hx
    simp only [dirItems, entItems, List.map_map, List.mem_map, List.mem_filter, decide_eq_true_eq]
      at hx
    obtain ⟨ent, ⟨-, hskip, -⟩, rfl⟩ := hx
    have hpre : filePart tok <+: direntName ent := by
      by_contra hno
      exact hskip (.inr (.inr (.inr hno)))
    change tok <+: entText (dirPart tok) ent
    rw [entText, List.append_assoc]
    conv_lhs => rw [← hsplit]
    exact (List.prefix_append_right_inj _).mpr (hpre.trans (List.prefix_append _ _))
  have hbuiltin : dirPart tok = [] → x ∈ (builtinItems (filePart tok) w.builtins).map Prod.snd →
      tok <+: x := by
    intro hnil hx
    simp only [builtinItems, List.map_map, List.mem_map, List.mem_filter, decide_eq_true_eq] at hx
    obtain ⟨b, ⟨-, hpre⟩, rfl⟩ := hx
    rw [hnil, List.nil_append] at hsplit
    rw [hsplit] at hpre
    exact List.prefix_of_prefix_length_le hpre (List.take_prefix _ _) hlen
  rw [items] at h
  split at h
  · rename_i hfirst
    rw [hfirst.1] at hdir
    rw [List.map_append, List.map_append, List.mem_append, List.mem_append] at h
    rcases h with h | h | h
    · exact hbuiltin hfirst.1 h
    · exact hdir _ h
    · exact hdir _ h
  split at h
  · rename_i hnil
    rw [hnil] at hdir
    rw [List.map_append, List.mem_append] at h
    rcases h with h | h
    · exact hdir _ h
    · exact hdir _ h
  · exact hdir _ h

end Table

section Prefix

variable {first b x : Bytes} {len : ℕ}

theorem countSame_cons (x y : UInt8) (xs ys : Bytes) (n : ℕ) :
    countSame (x :: xs) (y :: ys) (n + 1) = if x = y then countSame xs ys n + 1 else 0 := by
  rw [countSame, List.range_succ_eq_map, List.takeWhile_cons]
  by_cases hxy : x = y
  · rw [if_pos hxy, if_pos (by simp [hxy]), List.length_cons, List.takeWhile_map, List.length_map]
    rfl
  · rw [if_neg hxy, if_neg (by simp [hxy])]
    rfl

theorem countSame_le (first b : Bytes) (limit : ℕ) : countSame first b limit ≤ limit := by
  have h := (List.takeWhile_prefix (l := List.range limit) fun i => first[i]? = b[i]?).length_le
  rwa [List.length_range] at h

theorem take_countSame (h : len ≤ first.length) :
    first.take (countSame first b (min len b.length)) = meet (first.take len) b := by
  induction first generalizing b len with
  | nil =>
    obtain rfl : len = 0 := Nat.le_zero.mp h
    cases b <;> rfl
  | cons x xs ih =>
    cases b with
    | nil =>
      rw [List.length_nil, Nat.min_zero]
      cases len <;> rfl
    | cons y ys =>
      cases len with
      | zero => rw [Nat.zero_min]; rfl
      | succ len =>
        rw [List.length_cons, ← Nat.succ_eq_add_one, ← Nat.succ_eq_add_one, Nat.succ_min_succ,
          countSame_cons, List.take_succ_cons, meet]
        split
        · rw [List.take_succ_cons, ih (Nat.le_of_succ_le_succ h)]
        · rfl

theorem take_commonPrefixLen (first : Bytes) (rest : List Bytes) :
    commonPrefixLen (first :: rest) ≤ first.length ∧ first.take (commonPrefixLen (first :: rest)) =
      commonPrefix (first :: rest) := by
  have hfold : ∀ (rest : List Bytes) (len : ℕ), len ≤ first.length →
      rest.foldl (fun len b => countSame first b (min len b.length)) len ≤ first.length ∧
        first.take (rest.foldl (fun len b => countSame first b (min len b.length)) len) =
          rest.foldl meet (first.take len) := by
    intro rest
    induction rest with
    | nil => exact fun len h => ⟨h, rfl⟩
    | cons b rest ih =>
      intro len h
      have hle := countSame_le first b (min len b.length)
      rw [List.foldl_cons, List.foldl_cons, ← take_countSame h]
      exact ih _ (by omega)
  obtain ⟨hle, htake⟩ := hfold rest first.length (Nat.le_refl _)
  rw [List.take_length] at htake
  exact ⟨hle, htake⟩

theorem commonPrefixLen_eq (first : Bytes) (rest : List Bytes) :
    commonPrefixLen (first :: rest) = (commonPrefix (first :: rest)).length := by
  obtain ⟨hle, htake⟩ := take_commonPrefixLen first rest
  rw [← htake, List.length_take, Nat.min_eq_left hle]

end Prefix

section Apply

variable {w : Places} {prompt t name x : Bytes} {c : Cells} {l : Line}

theorem cands_prefix (h : x ∈ (cands w t).map Cand.text) (hlen : (token t).length ≤ x.length) :
    token t <+: x := by
  rw [cands] at h
  split at h
  · cases h
  · rw [collect_texts] at h
    rcases mem_foldl_tableAdd h with h | h
    · cases h
    · exact items_prefix h hlen

theorem token_commonPrefix {names : List Bytes} (hne : names ≠ [])
    (hall : ∀ x ∈ names, (token t).length ≤ x.length → token t <+: x)
    (hlen : (token t).length ≤ (commonPrefix names).length) : token t <+: commonPrefix names := by
  refine (prefix_commonPrefix hne).mpr fun x hx => hall x hx (hlen.trans ?_)
  exact List.IsPrefix.length_le <| commonPrefix_prefix hx

theorem prefix_complete (w : Places) (t : Bytes) : t <+: complete w t := by
  rw [complete, lineWith]
  split
  · exact List.prefix_refl t
  · rename_i hne
    exact prefix_filled fun hlen => token_commonPrefix hne (fun x hx => cands_prefix hx) hlen

theorem tokenSpan_eq (h : Cells.Holds c l) :
    tokenSpan c.line c.n = some (tokenAt l.text, (token l.text).length) := by
  rw [tokenSpan, h.n_eq, token_length]
  split
  · rename_i hzero
    rw [List.length_eq_zero_iff.mp hzero]
    rfl
  · rw [backWhile_eq h.fits_line, h.text_eq]
    rfl

theorem slice_token (h : Cells.Holds c l) :
    slice c.line (tokenAt l.text) (tokenAt l.text + (token l.text).length) =
      some (token l.text) := by
  have hle := tokenAt_le l.text
  rw [h.slice_line (Nat.le_add_right _ _) (by rw [token_length]; omega), token_length,
    Nat.add_sub_cancel' hle, List.take_length]
  rfl

/-- The cells hold this text, and the cursor is where it was. -/
structure Filled (c : Cells) (t : Bytes) (c' : Cells) : Prop where
  size : c'.line.length = lineCap
  n_eq : c'.n = t.length
  text_eq : c'.line.take t.length = t
  cur_eq : c'.cur = c.cur

theorem Filled.holds {c' : Cells} (h : Filled c t c') (ht : t.length ≤ lineCap) :
    Cells.Holds { c' with cur := c'.n } (.replace ⟨t, ht⟩) := ⟨h.size, h.n_eq, h.n_eq, h.text_eq⟩

theorem filled_self (h : Cells.Holds c l) : Filled c l.text c := ⟨h.size, h.n_eq, h.text_eq, rfl⟩

theorem replaceToken_eq (h : Cells.Holds c l) (name : Bytes) : ∃ c',
    replaceToken c (tokenAt l.text) name = some (c', (filled l.text name).drop l.text.length) ∧
    Filled c (filled l.text name) c' := by
  have hle := tokenAt_le l.text
  rw [replaceToken, h.size, filled_drop, h.n_eq, token_length]
  by_cases hfill :
      l.text.length - tokenAt l.text ≤ name.length ∧ tokenAt l.text + name.length ≤ lineCap
  · have htext : filled l.text name = l.text.take (tokenAt l.text) ++ name :=
      if_pos (by rwa [token_length])
    have hlen : (filled l.text name).length = tokenAt l.text + name.length := by
      rw [htext, List.length_append, List.length_take, Nat.min_eq_left hle]
    have hnew := h.written (.replace ⟨filled l.text name, filled_length l.fits name⟩) hle htext
    have hcopy :
        copyFrom c.line (tokenAt l.text) name = some (overwrite c.line (tokenAt l.text) name) :=
      copyFrom_eq (by rw [h.size]; exact hfill.2)
    rw [if_neg (by omega), if_pos hfill]
    dsimp only
    rw [if_neg (Nat.not_lt_of_le hfill.1), hcopy]
    exact ⟨_, rfl, hnew.size, hlen.symm, hnew.text_eq, rfl⟩
  · have htext : filled l.text name = l.text := if_neg (by rwa [token_length])
    rw [if_neg hfill, htext]
    refine ⟨c, ?_, filled_self h⟩
    split
    · rfl
    · rename_i hfits
      exact if_pos (by omega)

theorem complete_cons {cand : Cand} {cs : List Cand} (h : cands w t = cand :: cs) :
    complete w t = filled t (commonPrefix ((cand :: cs).map Cand.text)) := by
  rw [complete, h]
  exact if_neg (List.cons_ne_nil _ _)

theorem fillLcp_eq {cand : Cand} {cs : List Cand} (h : cands w l.text = cand :: cs)
    (hc : Cells.Holds c l) :
    ∃ c', fillLcp c (tokenAt l.text) (token l.text).length cand
        (commonPrefixLen ((cand :: cs).map Cand.text)) =
      some (c', (complete w l.text).drop l.text.length) ∧ Filled c (complete w l.text) c' := by
  obtain ⟨hle, htake⟩ := take_commonPrefixLen cand.text (cs.map Cand.text)
  have hlen := commonPrefixLen_eq cand.text (cs.map Cand.text)
  have hcap := hle.trans cand.fits
  rw [fillLcp, List.map_cons, complete_cons h]
  by_cases hlong : (token l.text).length < commonPrefixLen (cand.text :: cs.map Cand.text)
  · rw [if_pos ⟨hlong, hcap⟩, htake]
    exact replaceToken_eq hc _
  · have hsame : filled l.text (commonPrefix (cand.text :: cs.map Cand.text)) = l.text := by
      rw [filled]
      split
      · rename_i hfill
        have hpre := token_commonPrefix (t := l.text) (List.cons_ne_nil _ _)
          (fun x hx => cands_prefix (w := w) (h ▸ hx)) hfill.1
        rw [← hpre.eq_of_length_le (by omega)]
        exact take_token l.text
      · rfl
    rw [if_neg fun hc => hlong hc.1, List.map_cons, hsame, List.drop_length]
    exact ⟨c, rfl, filled_self hc⟩

theorem apply_eq (w : Places) (prompt : Bytes) (h : Cells.Holds c l) : ∃ c',
    apply w prompt c = some (c', completeOut w prompt l.text) ∧
    Filled c (complete w l.text) c' := by
  have hnone :
      cands w l.text = [] → complete w l.text = l.text ∧ completeOut w prompt l.text = [] := by
    intro hnil
    have hsame : complete w l.text = l.text := by
      rw [complete, hnil]
      rfl
    rw [completeOut, hnil, hsame, List.drop_length]
    exact ⟨rfl, rfl⟩
  rw [apply, tokenSpan_eq h]
  dsimp only [Option.bind_eq_bind, Option.bind_some]
  split
  · rename_i hzero
    obtain ⟨hsame, hout⟩ := hnone (if_pos (.inl (List.length_eq_zero_iff.mp hzero)))
    rw [hsame, hout]
    exact ⟨c, rfl, filled_self h⟩
  rename_i hne
  rw [slice_token h, Option.bind_some]
  split
  · rename_i hutf
    obtain ⟨hsame, hout⟩ := hnone (if_pos (.inr hutf))
    rw [hsame, hout]
    exact ⟨c, rfl, filled_self h⟩
  rename_i hutf
  have hcands : cands w l.text = collect w (tokenAt l.text) (token l.text) :=
    if_neg (not_or.mpr ⟨fun hnil => hne (List.length_eq_zero_iff.mpr hnil), hutf⟩)
  rw [← hcands]
  cases hcs : cands w l.text with
  | nil =>
    obtain ⟨hsame, hout⟩ := hnone hcs
    rw [hsame, hout]
    exact ⟨c, rfl, filled_self h⟩
  | cons cand cs =>
    cases cs with
    | nil =>
      have hout : completeOut w prompt l.text = (complete w l.text).drop l.text.length := by
        rw [completeOut, hcs, if_neg (by simp), List.append_nil]
      rw [hout, complete_cons hcs]
      exact replaceToken_eq h _
    | cons cand' cs =>
      obtain ⟨c', hfill, hc'⟩ := fillLcp_eq hcs h
      have hshow : Cells.tailFrom c'.line 0 c'.n = some (complete w l.text) :=
        hc'.n_eq ▸ (hc'.holds (lineWith_length l.fits _)).show_line
      have hout : completeOut w prompt l.text = (complete w l.text).drop l.text.length ++ ([0x0A] ++
          listed (cand :: cand' :: cs) ++ [0x0A] ++ prompt ++ complete w l.text) := by
        rw [completeOut, hcs, if_pos (by simp)]
      refine ⟨c', ?_, hc'⟩
      dsimp only
      rw [hfill, Option.bind_some, hshow, hout]
      simp only [Option.bind_some, List.append_assoc]

end Apply

section Longest

def dirNames (w : Places) (path pre pathPrefix : Bytes) : List Bytes :=
  (((w.dirs path).getD []).filter fun e => e.name ≠ [] ∧ e.name ≠ [dot] ∧ e.name ≠ [dot, dot] ∧
    pre <+: e.name).map fun e =>
    pathPrefix ++ e.name ++ if e.isDir then [slash] else []

/-- Every candidate for the last word of the line, which is some text. -/
def admitted (w : Places) (t : Bytes) : List Bytes :=
  let tok := token t
  if tok = [] ∨ utf8Valid tok = false then []
  else if dirPart tok = [] ∧ tokenAt t = 0 then
    w.builtins.filter (tok <+: ·) ++
      (dirNames w bin (filePart tok) [] ++ dirNames w w.cwd (filePart tok) [])
  else if dirPart tok = [] then dirNames w w.cwd (filePart tok) [] ++
    dirNames w bin (filePart tok) []
  else dirNames w (resolve w.cwd (dirPart tok)) (filePart tok) (dirPart tok)

def LongestPrefix (names : List Bytes) (p : Bytes) : Prop :=
  (∀ x ∈ names, p <+: x) ∧ ∀ q, (∀ x ∈ names, q <+: x) → q.length ≤ p.length

/-- The line goes on to the longest prefix of all the names, if there is room for it. -/
def Completes (names : List Bytes) (t new : Bytes) : Prop :=
  t <+: new ∧ (names = [] → new = t) ∧
    (names ≠ [] → ∃ p, LongestPrefix names p ∧ new = if tokenAt t + p.length ≤ lineCap
      then t.take (tokenAt t) ++ p else t)

/-- The names that the table takes: the first 32 of those that are offered to it. -/
def kept (w : Places) (t : Bytes) : List Bytes :=
  if token t = [] ∨ utf8Valid (token t) = false then []
    else (items w (tokenAt t) (token t)).foldl tableAdd []

/-- The common prefix of the names, or the word as it is where that is shorter or has no room. -/
def word (t : Bytes) (names : List Bytes) : Bytes :=
  if names ≠ [] ∧ (token t).length ≤ (commonPrefix names).length ∧
    tokenAt t + (commonPrefix names).length ≤ lineCap then
    commonPrefix names
  else token t

variable {w : Places} {prompt t new x : Bytes} {names : List Bytes}

theorem cands_kept (w : Places) (t : Bytes) : (cands w t).map Cand.text = kept w t := by
  rw [cands, kept]
  split
  · rfl
  · exact collect_texts _ _ _

theorem lineWith_word (t : Bytes) (names : List Bytes) :
    lineWith t names = t.take (tokenAt t) ++ word t names := by
  rw [lineWith, word]
  by_cases hne : names = []
  · rw [if_pos hne, if_neg fun h => h.1 hne, take_token]
  · rw [if_neg hne, filled]
    simp only [ne_eq, hne, not_false_eq_true, true_and]
    split
    · rfl
    · exact (take_token t).symm

theorem lineWith_inj (t : Bytes) (names names' : List Bytes) :
    lineWith t names = lineWith t names' ↔ word t names = word t names' := by
  rw [lineWith_word, lineWith_word, List.append_cancel_left_eq]

theorem mem_dirNames {path pre pathPrefix : Bytes} (h : x ∈ dirNames w path pre pathPrefix) :
    pathPrefix ++ pre <+: x := by
  simp only [dirNames, List.mem_map, List.mem_filter, decide_eq_true_eq] at h
  obtain ⟨e, ⟨-, -, -, -, hpre⟩, rfl⟩ := h
  rw [List.append_assoc]
  exact (List.prefix_append_right_inj _).mpr (hpre.trans (List.prefix_append _ _))

theorem admitted_prefix (h : x ∈ admitted w t) : token t <+: x := by
  have hsplit := dirPart_filePart (token t)
  rw [admitted] at h
  split at h
  · cases h
  split at h
  · rename_i hfirst
    rw [hfirst.1, List.nil_append] at hsplit
    rw [hsplit, List.mem_append, List.mem_append] at h
    rcases h with h | h | h
    · simpa using (List.mem_filter.mp h).2
    · exact mem_dirNames h
    · exact mem_dirNames h
  split at h
  · rename_i hnil
    rw [hnil, List.nil_append] at hsplit
    rw [hsplit, List.mem_append] at h
    rcases h with h | h
    · exact mem_dirNames h
    · exact mem_dirNames h
  · exact hsplit ▸ mem_dirNames h

theorem completes_iff (hall : ∀ x ∈ names, token t <+: x) :
    Completes names t new ↔ new = lineWith t names := by
  by_cases hne : names = []
  · rw [Completes, lineWith, if_pos hne]
    constructor
    · exact fun h => h.2.1 hne
    · rintro rfl
      exact ⟨List.prefix_refl _, fun _ => rfl, fun h => absurd hne h⟩
  have htok : token t <+: commonPrefix names := (prefix_commonPrefix hne).mpr hall
  have hline : lineWith t names = if tokenAt t + (commonPrefix names).length ≤ lineCap
      then t.take (tokenAt t) ++ commonPrefix names else t := by
    rw [lineWith, if_neg hne, filled]
    exact if_congr (and_iff_right htok.length_le) rfl rfl
  have hlongest : LongestPrefix names (commonPrefix names) :=
    ⟨fun x hx => commonPrefix_prefix hx, fun q hq => ((prefix_commonPrefix hne).mpr hq).length_le⟩
  constructor
  · rintro ⟨-, -, h⟩
    obtain ⟨p, hp, rfl⟩ := h hne
    rw [eq_commonPrefix hne hp.1 hp.2, hline]
  · rintro rfl
    refine ⟨?_, fun h => absurd h hne, fun _ => ⟨_, hlongest, hline⟩⟩
    rw [lineWith, if_neg hne]
    exact prefix_filled fun _ => htok

theorem complete_completes_iff (w : Places) (t : Bytes) :
    Completes (admitted w t) t (complete w t) ↔ word t (kept w t) = word t (admitted w t) := by
  rw [completes_iff fun x hx => admitted_prefix hx, complete, cands_kept, lineWith_inj]

/-- Nothing is left out of the table or cut on its way there. -/
structure Roomy (w : Places) (t : Bytes) : Prop where
  builtins : ∀ b ∈ w.builtins, b.length ≤ nameCap
  names :
    ∀ path, ∀ e ∈ (w.dirs path).getD [], e.name.length ≤ 62 ∧ 0 ∉ e.name ∧ utf8Valid e.name = true
  short : ∀ x ∈ admitted w t, x.length ≤ nameCap
  few : (admitted w t).toFinset.card ≤ maxCand

theorem direntName_packDirent {e : DirEnt} (hlen : e.name.length ≤ 62) (hnul : 0 ∉ e.name)
    (hutf : utf8Valid e.name = true) : direntName (packDirent e) = e.name := by
  have htake : e.name.take 62 = e.name := List.take_of_length_le hlen
  have hname : ((packDirent e).drop 1).takeWhile (· ≠ 0) = e.name := by
    change (e.name.take 62 ++ List.replicate (63 - (e.name.take 62).length) 0).takeWhile (· ≠ 0) =
        e.name
    obtain ⟨k, hk⟩ : ∃ k, 63 - e.name.length = k + 1 := ⟨62 - e.name.length, by omega⟩
    rw [htake, hk, List.takeWhile_append_of_pos, List.replicate_succ]
    · simp
    · intro b hb
      simp only [ne_eq, decide_not, Bool.not_eq_true', decide_eq_false_iff_not]
      rintro rfl
      exact hnul hb
  rw [direntName, hname]
  exact if_pos hutf

theorem direntIsDir_packDirent (e : DirEnt) : direntIsDir (packDirent e) = e.isDir := by
  rw [direntIsDir, packDirent]
  cases e.isDir with
  | true => rfl
  | false => rfl

theorem dirItems_eq {path pre pathPrefix : Bytes}
    (hnames : ∀ e ∈ (w.dirs path).getD [], e.name.length ≤ 62 ∧ 0 ∉ e.name ∧
      utf8Valid e.name = true) (hshort : ∀ x ∈ dirNames w path pre pathPrefix, x.length ≤ nameCap) :
    dirItems w path pre pathPrefix = (dirNames w path pre pathPrefix).map fun x => (x, x) := by
  have htext : ∀ e ∈ (w.dirs path).getD [], entText pathPrefix (packDirent e) = pathPrefix ++
      e.name ++ if e.isDir then [slash] else [] := by
    intro e he
    obtain ⟨hlen, hnul, hutf⟩ := hnames e he
    rw [entText, direntName_packDirent hlen hnul hutf, direntIsDir_packDirent]
  rw [dirItems, entItems, List.filter_map, List.map_map, dirNames, List.map_map]
  have hfilter :
      ((w.dirs path).getD []).filter ((fun ent => decide (¬skipped pre ent ∧
        (entText pathPrefix ent).length ≤ nameCap)) ∘ packDirent) = ((w.dirs path).getD []).filter
          fun e => e.name ≠ [] ∧ e.name ≠ [dot] ∧ e.name ≠ [dot, dot] ∧ pre <+: e.name := by
    refine List.filter_congr fun e he => ?_
    obtain ⟨hlen, hnul, hutf⟩ := hnames e he
    have hskip : ¬skipped pre (packDirent e) ↔ e.name ≠ [] ∧ e.name ≠ [dot] ∧ e.name ≠ [dot, dot] ∧
        pre <+: e.name := by
      rw [skipped, direntName_packDirent hlen hnul hutf]
      simp only [not_or, not_not, ne_eq]
    rw [Function.comp_apply, decide_eq_decide, hskip]
    refine and_iff_left_of_imp fun hkeep => ?_
    rw [htext e he]
    exact hshort _ (List.mem_map.mpr ⟨e, List.mem_filter.mpr ⟨he, by simpa using hkeep⟩, rfl⟩)
  rw [hfilter]
  refine List.map_congr_left fun e he => ?_
  rw [Function.comp_apply, Function.comp_apply, htext e (List.mem_of_mem_filter he)]

theorem mem_tableAdd {table : List Bytes} (hnodup : table.Nodup)
    (hfew : (table ++ names).toFinset.card ≤ maxCand) :
    x ∈ (names.map fun x => (x, x)).foldl tableAdd table ↔ x ∈ table ++ names := by
  induction names generalizing table with
  | nil => rw [List.append_nil]; rfl
  | cons y ys ih =>
    rw [List.map_cons, List.foldl_cons, tableAdd]
    by_cases hy : y ∈ table
    · have hsame : (table ++ y :: ys).toFinset = (table ++ ys).toFinset := by
        ext z
        simp only [List.mem_toFinset, List.mem_append, List.mem_cons]
        refine ⟨fun h => ?_, fun h => h.imp_right .inr⟩
        rcases h with h | rfl | h
        · exact .inl h
        · exact .inl hy
        · exact .inr h
      rw [if_pos (.inl hy), ih hnodup (hsame ▸ hfew), ← List.mem_toFinset,
        ← List.mem_toFinset, hsame]
    · have hgrow : (table ++ [y]).Nodup := List.nodup_append.mpr ⟨hnodup, List.nodup_singleton y, by
        rintro a ha b hb rfl
        exact hy (List.mem_singleton.mp hb ▸ ha)⟩
      have hsub : (table ++ [y]).toFinset ⊆ (table ++ y :: ys).toFinset := by
        intro z hz
        simp only [List.mem_toFinset, List.mem_append, List.mem_cons, List.not_mem_nil, or_false]
          at hz ⊢
        exact hz.imp_right .inl
      have hroom := (Finset.card_le_card hsub).trans hfew
      rw [List.toFinset_card_of_nodup hgrow, List.length_append, List.length_singleton] at hroom
      rw [if_neg (not_or.mpr ⟨hy, by omega⟩),
        ih hgrow (by rwa [List.append_assoc, List.singleton_append]), List.append_assoc,
        List.singleton_append]

theorem items_eq (h : Roomy w t) (htok : ¬(token t = [] ∨ utf8Valid (token t) = false)) :
    items w (tokenAt t) (token t) = (admitted w t).map fun x => (x, x) := by
  have hbuiltin : ∀ pre, builtinItems pre w.builtins = (w.builtins.filter (pre <+: ·)).map fun x =>
      (x, x) := by
    intro pre
    refine List.map_congr_left fun b hb => ?_
    rw [List.take_of_length_le (h.builtins b (List.mem_of_mem_filter hb))]
  have hsplit := dirPart_filePart (token t)
  have hshort := h.short
  rw [admitted, if_neg htok] at hshort
  rw [items, admitted, if_neg htok]
  by_cases hfirst : dirPart (token t) = [] ∧ tokenAt t = 0
  · rw [if_pos hfirst, List.forall_mem_append, List.forall_mem_append] at hshort
    obtain ⟨-, hbin, hcwd⟩ := hshort
    rw [hfirst.1, List.nil_append] at hsplit
    rw [if_pos hfirst, if_pos hfirst, hbuiltin, dirItems_eq (h.names _) hbin,
      dirItems_eq (h.names _) hcwd, hsplit, List.map_append, List.map_append]
  rw [if_neg hfirst] at hshort
  rw [if_neg hfirst, if_neg hfirst]
  by_cases hnil : dirPart (token t) = []
  · rw [if_pos hnil, List.forall_mem_append] at hshort
    rw [if_pos hnil, if_pos hnil, dirItems_eq (h.names _) hshort.1,
      dirItems_eq (h.names _) hshort.2, List.map_append]
  · rw [if_neg hnil] at hshort
    rw [if_neg hnil, if_neg hnil, dirItems_eq (h.names _) hshort]

theorem word_of_roomy (h : Roomy w t) : word t (kept w t) = word t (admitted w t) := by
  have hmem : ∀ x, x ∈ kept w t ↔ x ∈ admitted w t := by
    intro x
    by_cases htok : token t = [] ∨ utf8Valid (token t) = false
    · rw [kept, admitted, if_pos htok, if_pos htok]
    · rw [kept, if_neg htok, items_eq h htok,
        mem_tableAdd List.nodup_nil (by rw [List.nil_append]; exact h.few), List.nil_append]
  have hnil : kept w t = [] ↔ admitted w t = [] := by
    simp only [List.eq_nil_iff_forall_not_mem, hmem]
  simp only [word, commonPrefix_congr hmem, ne_eq, hnil]

end Longest

section Buffer

variable {w : Places} {prompt : Bytes} {c : Cells}

theorem holds_cells (hsize : c.line.length = lineCap) (hn : c.n ≤ lineCap) (hcur : c.cur ≤ c.n) :
    ∃ l : Line, Cells.Holds c l ∧ l.text = c.line.take c.n := by
  have hlen : (c.line.take c.n).length = c.n := by
    rw [List.length_take, hsize, Nat.min_eq_left hn]
  exact ⟨⟨c.line.take c.n, c.cur, hlen.trans_le hn, hcur.trans_eq hlen.symm⟩,
    ⟨hsize, hlen.symm, rfl, congrArg (fun k => c.line.take k) hlen⟩, rfl⟩

/-- What is completed is always the line, which it is to the end of the common prefix of all the
names exactly when those in the table have it. -/
theorem apply_completes_iff (w : Places) (prompt : Bytes) (c : Cells)
    (hsize : c.line.length = lineCap) (hn : c.n ≤ lineCap) (hcur : c.cur ≤ c.n) :
    ∃ c' out, apply w prompt c = some (c', out) ∧ c'.n ≤ lineCap ∧
      c.line.take c.n <+: c'.line.take c'.n ∧
      (Completes (admitted w (c.line.take c.n)) (c.line.take c.n) (c'.line.take c'.n) ↔
        word (c.line.take c.n) (kept w (c.line.take c.n)) =
          word (c.line.take c.n) (admitted w (c.line.take c.n))) := by
  obtain ⟨l, h, htext⟩ := holds_cells hsize hn hcur
  obtain ⟨c', happly, hc'⟩ := apply_eq w prompt h
  refine ⟨c', _, happly, ?_, ?_, ?_⟩
  · rw [hc'.n_eq]
    exact lineWith_length l.fits _
  · rw [hc'.n_eq, hc'.text_eq, ← htext]
    exact prefix_complete w _
  · rw [hc'.n_eq, hc'.text_eq, ← htext]
    exact complete_completes_iff w _

def crowded : Places where
  builtins := []
  cwd := [slash]
  dirs path :=
    if path = [slash] then
      some ((List.range 32).map (fun i => ⟨[0x61, 0x62, UInt8.ofNat (0x30 + i)], false⟩) ++
        [⟨[0x61, 0x63], false⟩])
    else none

def typedA : Cells := ⟨0x61 :: List.replicate 127 0, 1, 1⟩

theorem apply_completes_empty :
    ∃ c' out, apply ⟨[], [slash], fun _ => none⟩ [] typedA = some (c', out) ∧ c'.n ≤ lineCap ∧
      typedA.line.take typedA.n <+: c'.line.take c'.n ∧
      (Completes (admitted ⟨[], [slash], fun _ => none⟩ (typedA.line.take typedA.n))
          (typedA.line.take typedA.n) (c'.line.take c'.n) ↔
        word (typedA.line.take typedA.n)
            (kept ⟨[], [slash], fun _ => none⟩ (typedA.line.take typedA.n)) =
          word (typedA.line.take typedA.n)
            (admitted ⟨[], [slash], fun _ => none⟩ (typedA.line.take typedA.n))) :=
  apply_completes_iff _ _ typedA (by decide +kernel) (by decide) (by decide)

/-- `a` becomes `ab`, which is no prefix of `ac`. -/
theorem apply_completes_crowded :
    ¬∀ (w : Places) (prompt : Bytes) (c : Cells), c.line.length = lineCap → c.n ≤ lineCap →
    c.cur ≤ c.n → ∃ c' out, apply w prompt c = some (c', out) ∧
      Completes (admitted w (c.line.take c.n)) (c.line.take c.n) (c'.line.take c'.n) := by
  intro h
  have hsize : typedA.line.length = lineCap := by decide +kernel
  obtain ⟨l, hl, htext⟩ := holds_cells hsize (by decide) (by decide)
  obtain ⟨c', out, happly, hcompletes⟩ := h crowded [] typedA hsize (by decide) (by decide)
  obtain ⟨c₁, happly₁, hc₁⟩ := apply_eq crowded [] hl
  obtain ⟨rfl, -⟩ := Prod.mk.inj (Option.some.inj (happly.symm.trans happly₁))
  rw [hc₁.n_eq, hc₁.text_eq, htext, complete_completes_iff] at hcompletes
  revert hcompletes
  decide +kernel

end Buffer

end Complete

end CoeleoOs.Sh
