import CoeleoOs.Sh.Pipeline

/-!
# What the pipeline parser accepts

A line is one to four parts with `|` between them, and a part is words and redirections in any
order. `parse` reads the tokens once and keeps the redirection it waits for in two flags; the
placement of the redirections is looked at when the line is over.
-/

namespace CoeleoOs.Sh
open CoeleoOs.Lib CoeleoOs.Lib.Text

inductive Item where
  | word (text : List Char)
  | input (name : List Char)
  | output (name : List Char)

namespace Item

def text : Item → List Char
  | word t => t
  | input t => t
  | output t => t

def tokens : Item → List (List Char)
  | word t => [t]
  | input t => [['<'], t]
  | output t => [['>'], t]

def words (items : List Item) : List (List Char) :=
  items.filterMap fun | word t => some t | _ => none

def inputs (items : List Item) : List (List Char) :=
  items.filterMap fun | input t => some t | _ => none

def outputs (items : List Item) : List (List Char) :=
  items.filterMap fun | output t => some t | _ => none

end Item

/-- The tokens are words and redirections, none of whose texts is an operator; the stage has the
words in their order and the names of the redirections, at most one of each kind. -/
structure Part (toks : List (List Char)) (st : Stage) : Prop where
  read :
    ∃ items : List Item, (∀ x ∈ items, isMeta x.text = false) ∧ toks = items.flatMap Item.tokens ∧
    st.words = Item.words items ∧ st.stdinPath.toList = Item.inputs items ∧ st.stdoutPath.toList =
      Item.outputs items
  one : 1 ≤ st.words.length
  few : st.words.length ≤ maxWords

structure Grammar (toks : List (List Char)) (stages : List Stage) : Prop where
  parts : List.Forall₂ Part (toks.splitOn ['|']) stages
  one : 1 ≤ stages.length
  few : stages.length ≤ maxStages
  input : ∀ i st, stages[i]? = some st → st.stdinPath.isSome = true → i = 0
  output : ∀ i st, stages[i]? = some st → st.stdoutPath.isSome = true → i + 1 = stages.length

def Stage.add (st : Stage) : Item → Option Stage
  | .word t =>
    if maxWords ≤ st.words.length then none else some { st with words := st.words ++ [t] }
  | .input t => if st.stdinPath.isSome then none else some { st with stdinPath := some t }
  | .output t => if st.stdoutPath.isSome then none else some { st with stdoutPath := some t }

section Scan

variable {before : List Stage} {cur st : Stage} {toks : List (List Char)} {items : List Item}

theorem isMeta_eq_false {t : List Char} : isMeta t = false ↔ t ≠ ['|'] ∧ t ≠ ['>'] ∧ t ≠ ['<'] := by
  simp [isMeta]

theorem scan_item {x : Item} (hx : isMeta x.text = false) :
    x.tokens.foldlM parseTok ⟨before, cur, false, false⟩ = (cur.add x).map fun c =>
      ⟨before, c, false, false⟩ := by
  obtain ⟨hpipe, hgt, hlt⟩ := isMeta_eq_false.mp hx
  cases x with
  | word t =>
    simp only [Item.text] at hpipe hgt hlt
    simp only [Item.tokens, List.foldlM_cons, List.foldlM_nil, parseTok, if_neg hpipe, if_neg hlt,
      if_neg hgt, Stage.add]
    by_cases h : maxWords ≤ cur.words.length
    · simp [h]
    · simp [h]
  | input t =>
    simp only [Item.text] at hx
    simp only [Item.tokens, List.foldlM_cons, List.foldlM_nil, parseTok, Stage.add]
    cases h : cur.stdinPath <;> simp [hx, h]
  | output t =>
    simp only [Item.text] at hx
    simp only [Item.tokens, List.foldlM_cons, List.foldlM_nil, parseTok, Stage.add]
    cases h : cur.stdoutPath <;> simp [hx, h]

theorem scan_items (hx : ∀ x ∈ items, isMeta x.text = false) :
    (items.flatMap Item.tokens).foldlM parseTok ⟨before, cur, false, false⟩ =
      (items.foldlM Stage.add cur).map fun c => ⟨before, c, false, false⟩ := by
  induction items generalizing cur with
  | nil => rfl
  | cons x items ih =>
    rw [List.flatMap_cons, List.foldlM_append, scan_item (hx x List.mem_cons_self),
      List.foldlM_cons]
    cases cur.add x with
    | none => rfl
    | some c => exact ih fun y hy => hx y (List.mem_cons_of_mem x hy)

theorem toList_eq {o o' : Option (List Char)} : o'.toList = o.toList ↔ o = o' := by
  cases o <;> cases o' <;> simp [eq_comm]

theorem toList_append_eq {o o' : Option (List Char)} {t : List Char} {l : List (List Char)} :
    o'.toList = o.toList ++ t :: l ↔ o = none ∧ o'.toList = (some t).toList ++ l := by
  cases o <;> cases o' <;> simp

theorem add_items (hcur : cur.words.length ≤ maxWords) :
    items.foldlM Stage.add cur = some st ↔
      st.words = cur.words ++ Item.words items ∧ st.words.length ≤ maxWords ∧
        st.stdinPath.toList = cur.stdinPath.toList ++ Item.inputs items ∧
        st.stdoutPath.toList = cur.stdoutPath.toList ++ Item.outputs items := by
  induction items generalizing cur with
  | nil =>
    obtain ⟨words, stdin, stdout⟩ := cur
    obtain ⟨words', stdin', stdout'⟩ := st
    simp only [List.foldlM_nil, Item.words, Item.inputs, Item.outputs, List.filterMap_nil,
      List.append_nil, toList_eq, Option.pure_def, Option.some.injEq, Stage.mk.injEq]
    constructor
    · rintro ⟨rfl, rfl, rfl⟩
      exact ⟨rfl, hcur, rfl, rfl⟩
    · rintro ⟨rfl, -, rfl, rfl⟩
      exact ⟨rfl, rfl, rfl⟩
  | cons x items ih =>
    rw [List.foldlM_cons]
    cases x with
    | word t =>
      rw [show Item.words (.word t :: items) = t :: Item.words items from rfl,
        show Item.inputs (.word t :: items) = Item.inputs items from rfl,
        show Item.outputs (.word t :: items) = Item.outputs items from rfl, Stage.add]
      by_cases hfull : maxWords ≤ cur.words.length
      · rw [if_pos hfull]
        refine iff_of_false (fun h => by cases h) fun ⟨hwords, hfew, _⟩ => ?_
        have hlen := congrArg List.length hwords
        rw [List.length_append, List.length_cons] at hlen
        omega
      · rw [if_neg hfull]
        refine (ih (by rw [List.length_append, List.length_singleton]; omega)).trans ?_
        rw [List.append_assoc, List.singleton_append]
    | input t =>
      rw [show Item.words (.input t :: items) = Item.words items from rfl,
        show Item.inputs (.input t :: items) = t :: Item.inputs items from rfl,
        show Item.outputs (.input t :: items) = Item.outputs items from rfl, Stage.add]
      rw [toList_append_eq]
      cases hin : cur.stdinPath with
      | some u => exact iff_of_false (fun h => by cases h) fun h => by cases h.2.2.1.1
      | none =>
        simp only [true_and]
        exact @ih ⟨cur.words, some t, cur.stdoutPath⟩ hcur
    | output t =>
      rw [show Item.words (.output t :: items) = Item.words items from rfl,
        show Item.inputs (.output t :: items) = Item.inputs items from rfl,
        show Item.outputs (.output t :: items) = t :: Item.outputs items from rfl, Stage.add]
      rw [toList_append_eq]
      cases hout : cur.stdoutPath with
      | some u => exact iff_of_false (fun h => by cases h) fun h => by cases h.2.2.2.1
      | none =>
        simp only [true_and]
        exact @ih ⟨cur.words, cur.stdinPath, some t⟩ hcur

def ParseState.pending (s : ParseState) : List (List Char) :=
  if s.expectIn then [['<']] else if s.expectOut then [['>']] else []

/-- The tokens are words and redirections, but for an operator that is still to get its name. -/
structure ParseState.Reads (s : ParseState) (toks : List (List Char)) : Prop where
  read : ∃ items : List Item, (∀ x ∈ items, isMeta x.text = false) ∧
    toks = items.flatMap Item.tokens ++ s.pending
  single : s.expectIn = true → s.expectOut = false

theorem reads_start : ParseState.Reads ⟨before, cur, false, false⟩ [] :=
  ⟨⟨[], fun _ h => absurd h List.not_mem_nil, rfl⟩, fun _ => rfl⟩

theorem ParseState.Reads.item {s s' : ParseState} (h : s.Reads toks) {x : Item}
    (hx : isMeta x.text = false) {t : List Char} (htoks : s.pending ++ [t] = x.tokens)
    (hin : s'.expectIn = false) (hout : s'.expectOut = false) : s'.Reads (toks ++ [t]) := by
  obtain ⟨items, hitems, rfl⟩ := h.read
  refine ⟨⟨items ++ [x], fun y hy => ?_, ?_⟩, fun _ => hout⟩
  · rcases List.mem_append.mp hy with hy | hy
    · exact hitems y hy
    · rw [List.mem_singleton.mp hy]
      exact hx
  · rw [List.append_assoc, htoks, List.flatMap_append, pending, hin, hout]
    simp

theorem ParseState.Reads.step {s s' : ParseState} (h : s.Reads toks) {t : List Char}
    (hstep : parseTok s t = some s') (ht : t ≠ ['|']) : s'.Reads (toks ++ [t]) := by
  rw [parseTok] at hstep
  by_cases hin : s.expectIn = true
  · rw [if_pos hin] at hstep
    split at hstep
    · cases hstep
    next hname =>
    cases hstep
    rw [not_or, Bool.not_eq_true] at hname
    exact h.item (x := .input t) hname.1 (by rw [pending, if_pos hin]; rfl) rfl (h.single hin)
  rw [if_neg hin] at hstep
  by_cases hout : s.expectOut = true
  · rw [if_pos hout] at hstep
    split at hstep
    · cases hstep
    next hname =>
    cases hstep
    rw [not_or, Bool.not_eq_true] at hname
    exact h.item (x := .output t) hname.1 (by rw [pending, if_neg hin, if_pos hout]; rfl)
      (Bool.not_eq_true _ ▸ hin) rfl
  rw [if_neg hout, if_neg ht] at hstep
  have hnone : s.pending = [] := by rw [pending, if_neg hin, if_neg hout]
  obtain ⟨items, hitems, hread⟩ := h.read
  rw [hnone, List.append_nil] at hread
  by_cases hlt : t = ['<']
  · rw [if_pos hlt] at hstep
    cases hstep
    refine ⟨⟨items, hitems, ?_⟩, fun _ => Bool.not_eq_true _ ▸ hout⟩
    rw [hread, hlt]
    rfl
  rw [if_neg hlt] at hstep
  by_cases hgt : t = ['>']
  · rw [if_pos hgt] at hstep
    cases hstep
    refine ⟨⟨items, hitems, ?_⟩, fun h => absurd h hin⟩
    rw [hread, hgt, pending, if_neg hin]
    rfl
  rw [if_neg hgt] at hstep
  split at hstep
  · cases hstep
  cases hstep
  exact h.item (x := .word t) (isMeta_eq_false.mpr ⟨ht, hgt, hlt⟩) (by rw [hnone]; rfl)
    (Bool.not_eq_true _ ▸ hin) (Bool.not_eq_true _ ▸ hout)

theorem reads_scan (hbar : ['|'] ∉ toks) {s : ParseState}
    (hscan : toks.foldlM parseTok ⟨before, cur, false, false⟩ = some s) :
    s.Reads toks := by
  induction toks using List.reverseRecOn generalizing s with
  | nil =>
    cases hscan
    exact reads_start
  | append_singleton toks t ih =>
    rw [List.mem_append, not_or, List.mem_singleton] at hbar
    rw [List.foldlM_append] at hscan
    obtain ⟨r, hr, hstep⟩ := Option.bind_eq_some_iff.mp hscan
    simp only [List.foldlM_cons, List.foldlM_nil, bind_pure] at hstep
    exact (ih hbar.1 hr).step hstep fun h => hbar.2 h.symm

theorem scan_part (hbar : ['|'] ∉ toks) {s : ParseState} :
    (toks.foldlM parseTok ⟨before, .empty, false, false⟩ = some s ∧ s.expectIn = false ∧
      s.expectOut = false ∧ s.cur.words ≠ []) ↔ s = ⟨before, s.cur, false, false⟩ ∧
      Part toks s.cur := by
  have hempty : Stage.empty.words.length ≤ maxWords := Nat.zero_le _
  constructor
  · rintro ⟨hscan, hin, hout, hwords⟩
    obtain ⟨items, hitems, htoks⟩ := (reads_scan hbar hscan).read
    rw [ParseState.pending, hin, hout, if_neg Bool.false_ne_true, if_neg Bool.false_ne_true,
      List.append_nil] at htoks
    rw [htoks, scan_items hitems] at hscan
    obtain ⟨c, hc, rfl⟩ := Option.map_eq_some_iff.mp hscan
    obtain ⟨hw, hfew, hi, ho⟩ := (add_items hempty).mp hc
    exact ⟨rfl, ⟨items, hitems, htoks, hw, hi, ho⟩, List.length_pos_iff.mpr hwords, hfew⟩
  · rintro ⟨hs, ⟨items, hitems, htoks, hw, hi, ho⟩, hone, hfew⟩
    have hadd := (add_items hempty).mpr ⟨hw, hfew, hi, ho⟩
    rw [hs]
    refine ⟨?_, rfl, rfl, List.length_pos_iff.mp hone⟩
    rw [htoks, scan_items hitems, hadd]
    rfl

theorem parseTok_pipe {s s' : ParseState} :
    parseTok s ['|'] = some s' ↔
      (s.expectIn = false ∧ s.expectOut = false ∧ s.cur.words ≠ []) ∧
      s.before.length + 1 < maxStages ∧ s' = ⟨s.before ++ [s.cur], .empty, false, false⟩ := by
  obtain ⟨before, cur, expectIn, expectOut⟩ := s
  have hmeta : isMeta ['|'] = true := by decide
  cases expectIn with
  | true => simp [parseTok, hmeta]
  | false =>
    cases expectOut with
    | true => simp [parseTok, hmeta]
    | false =>
      by_cases hwords : cur.words = []
      · simp [parseTok, hwords]
      by_cases hfull : maxStages ≤ before.length + 1
      · simp [parseTok, hwords, hfull, not_lt.mpr hfull]
      · simp [parseTok, hwords, hfull, not_le.mp hfull, eq_comm]

theorem scan_line {p : List (List Char)} {ps : List (List (List Char))}
    (hbar : ∀ q ∈ p :: ps, ['|'] ∉ q) {s : ParseState} (hroom : before.length < maxStages) :
    (([['|']].intercalate (p :: ps)).foldlM parseTok ⟨before, .empty, false, false⟩ = some s ∧
        s.expectIn = false ∧ s.expectOut = false ∧ s.cur.words ≠ []) ↔
      ∃ stages, List.Forall₂ Part (p :: ps) stages ∧ (before ++ stages).length ≤ maxStages ∧
        s.before ++ [s.cur] = before ++ stages ∧ s.expectIn = false ∧ s.expectOut = false := by
  induction ps generalizing p before with
  | nil =>
    rw [List.intercalate_singleton, scan_part (hbar p List.mem_cons_self)]
    constructor
    · rintro ⟨hs, hpart⟩
      refine ⟨[s.cur], .cons hpart .nil, ?_, ?_⟩
      · rw [List.length_append, List.length_singleton]
        omega
      · rw [hs]
        exact ⟨rfl, rfl, rfl⟩
    · rintro ⟨stages, hstages, -, heq, hin, hout⟩
      obtain ⟨st, rest, hpart, hrest, rfl⟩ := List.forall₂_cons_left_iff.mp hstages
      obtain rfl := List.forall₂_nil_left_iff.mp hrest
      obtain ⟨hbefore, hcur⟩ := List.append_inj' heq rfl
      obtain rfl := List.singleton_inj.mp hcur
      refine ⟨?_, hpart⟩
      obtain ⟨b, cur, expectIn, expectOut⟩ := s
      cases hbefore
      cases hin
      cases hout
      rfl
  | cons q qs ih =>
    rw [List.intercalate_cons_of_ne_nil (List.cons_ne_nil q qs), List.foldlM_append,
      List.foldlM_append]
    have htail : ∀ r ∈ q :: qs, ['|'] ∉ r := fun r hr => hbar r (List.mem_cons_of_mem p hr)
    constructor
    · rintro ⟨hscan, hend⟩
      obtain ⟨r', hr', hrest⟩ := Option.bind_eq_some_iff.mp hscan
      obtain ⟨r, hr, hpipe⟩ := Option.bind_eq_some_iff.mp hr'
      simp only [List.foldlM_cons, List.foldlM_nil, bind_pure] at hpipe
      obtain ⟨hstop, hfew, rfl⟩ := parseTok_pipe.mp hpipe
      obtain ⟨hr, hpart⟩ := (scan_part (hbar p List.mem_cons_self)).mp ⟨hr, hstop⟩
      rw [hr] at hrest hfew
      obtain ⟨stages, hstages, hlen, heq, hflags⟩ :=
        (ih htail (by simpa using hfew)).mp ⟨hrest, hend⟩
      rw [List.append_assoc, List.singleton_append] at hlen heq
      exact ⟨r.cur :: stages, .cons hpart hstages, hlen, heq, hflags⟩
    · rintro ⟨stages, hstages, hlen, heq, hflags⟩
      obtain ⟨st, rest, hpart, hrest, rfl⟩ := List.forall₂_cons_left_iff.mp hstages
      have hlength := hrest.length_eq
      have hfew : before.length + 1 < maxStages := by
        rw [List.length_append, List.length_cons, ← hlength, List.length_cons] at hlen
        omega
      obtain ⟨hfirst, hstop⟩ :=
        (scan_part (s := ⟨before, st, false, false⟩) (hbar p List.mem_cons_self)).mpr ⟨rfl, hpart⟩
      have happend : before ++ st :: rest = (before ++ [st]) ++ rest := by simp
      rw [happend] at hlen heq
      obtain ⟨hscan, hend⟩ := (ih htail (by simpa using hfew)).mpr ⟨rest, hrest, hlen, heq, hflags⟩
      refine ⟨?_, hend⟩
      rw [hfirst]
      have hpipe := parseTok_pipe.mpr ⟨hstop, hfew, rfl⟩
      simp only [Option.bind_eq_bind, Option.bind_some, List.foldlM_cons, List.foldlM_nil, hpipe,
        Option.pure_def]
      exact hscan

theorem redirsFit_iff {stages : List Stage} :
    redirsFit stages = true ↔
      (∀ i st, stages[i]? = some st → st.stdinPath.isSome = true → i = 0) ∧
        ∀ i st, stages[i]? = some st → st.stdoutPath.isSome = true → i + 1 = stages.length := by
  rw [redirsFit, Bool.and_eq_true, List.all_eq_true, List.all_eq_true]
  refine and_congr ⟨fun h i st hi hin => ?_, fun h st hst => ?_⟩ ⟨fun h i st hi hout => ?_,
    fun h st hst => ?_⟩
  · by_contra hpos
    have hmem : st ∈ stages.drop 1 := by
      refine List.mem_of_getElem? (i := i - 1) ?_
      rw [List.getElem?_drop, Nat.add_sub_cancel' (Nat.one_le_iff_ne_zero.mpr hpos)]
      exact hi
    have hnone := h st hmem
    rw [Option.isNone_iff_eq_none] at hnone
    rw [hnone] at hin
    cases hin
  · obtain ⟨i, hi⟩ := List.mem_iff_getElem?.mp hst
    rw [List.getElem?_drop] at hi
    cases hin : st.stdinPath with
    | none => rfl
    | some t =>
      have hzero := h _ st hi (by rw [hin]; rfl)
      omega
  · by_contra hlast
    have hlt := (List.getElem?_eq_some_iff.mp hi).1
    have hmem : st ∈ stages.dropLast := by
      refine List.mem_of_getElem? (i := i) ?_
      rw [List.getElem?_dropLast, if_pos (by omega)]
      exact hi
    have hnone := h st hmem
    rw [Option.isNone_iff_eq_none] at hnone
    rw [hnone] at hout
    cases hout
  · obtain ⟨i, hi⟩ := List.mem_iff_getElem?.mp hst
    rw [List.getElem?_dropLast] at hi
    split at hi
    · cases hout : st.stdoutPath with
      | none => rfl
      | some t =>
        have hend := h i st hi (by rw [hout]; rfl)
        omega
    · cases hi

end Scan

/-- The parser accepts the grammar and nothing else, and returns the stages that the line says. -/
theorem parse_accepts (line : List Char) (stages : List Stage) :
    parse line = some stages ↔ Grammar (splitWhitespace line) stages := by
  obtain ⟨p, ps, hparts⟩ :=
    List.exists_cons_of_ne_nil (List.splitOn_ne_nil ['|'] (splitWhitespace line))
  have hbar : ∀ q ∈ p :: ps, ['|'] ∉ q := by
    intro q hq
    rw [← hparts] at hq
    exact (Text.mem_splitOn hq).1
  have hline : [['|']].intercalate ((splitWhitespace line).splitOn ['|']) = splitWhitespace line :=
    List.intercalate_splitOn _
  rw [hparts] at hline
  rw [parse]
  constructor
  · intro h
    cases hscan : (splitWhitespace line).foldlM parseTok ⟨[], .empty, false, false⟩ with
    | none =>
      rw [hscan] at h
      cases h
    | some s =>
      rw [hscan] at h
      dsimp only at h
      split at h
      · cases h
      next hopen =>
      split at h
      case isFalse => cases h
      next hfit =>
      cases h
      rw [not_or, not_or, Bool.not_eq_true, Bool.not_eq_true] at hopen
      rw [← hline] at hscan
      obtain ⟨stages, hstages, hfew, heq, -⟩ := (scan_line hbar (by decide)).mp ⟨hscan, hopen⟩
      rw [List.nil_append] at hfew heq
      obtain ⟨hin, hout⟩ := redirsFit_iff.mp hfit
      rw [← heq] at hstages hfew
      exact ⟨by rw [hparts]; exact hstages, by simp, hfew, hin, hout⟩
  · rintro ⟨hstages, hone, hfew, hin, hout⟩
    rw [hparts] at hstages
    obtain ⟨before, cur, hlast⟩ :=
      List.eq_nil_or_concat stages |>.resolve_left (List.length_pos_iff.mp hone)
    obtain ⟨hscan, hno, hno', hwords⟩ :=
      (@scan_line [] _ _ hbar ⟨before, cur, false, false⟩ (by decide)).mpr
      ⟨stages, hstages, hfew, by rw [hlast]; simp, rfl, rfl⟩
    rw [hline] at hscan
    rw [hscan]
    have hopen : ¬ (false = true ∨ false = true ∨ cur.words = []) := by simpa using hwords
    rw [List.concat_eq_append] at hlast
    dsimp only
    rw [if_neg hopen, ← hlast, if_pos (redirsFit_iff.mpr ⟨hin, hout⟩)]

example : parse "< in sort -r | uniq > out -c".toList =
    some [⟨["sort".toList, "-r".toList], some "in".toList, none⟩,
      ⟨["uniq".toList, "-c".toList], none, some "out".toList⟩] := by decide

end CoeleoOs.Sh
