import CoeleoOs.Sh.ReadLine

/-!
# The line editor edits a line with a cursor

`read_line` on its buffers is the editor of `Sh.Line` on a line with a cursor. No step leaves the
buffers, and what it writes is told by the line, the history and the search.
-/

namespace CoeleoOs.Sh
open CoeleoOs.Input (StdinRead)
open CoeleoOs.Lib CoeleoOs.Lib.InPlace
open CoeleoOs.Task (Bytes)
open CoeleoOs.Lib.TermRow (printable)

theorem Services.clipBytes_length (w : Services) : w.clipBytes.length ≤ clipCap := by
  rw [clipBytes]
  split
  · rw [List.length_replicate]
  · rename_i h
    exact Nat.le_of_not_lt h

def Services.helpers (w : Services) : Helpers where
  clip := some w.clipBytes
  complete t := ⟨Complete.complete w.places t.1, Complete.lineWith_length t.2 _⟩

namespace Editor

def readOf (e : Editor) : Got → StdinRead
  | .eof => .eof
  | .err => if e.search.isSome then .eof else .wait
  | .byte b => .data b

def key (fancy : Bool) (help : Helpers) (e : Editor) (b : UInt8) : Editor :=
  if b = 0x1B then { e with seq := .esc }
  else if b = 0x01 then e.onFancy fancy e.line.goHome
  else if b = 0x05 then e.onFancy fancy e.line.goToEnd
  else if b = 0x04 then e.onFancy fancy e.line.forwardDelete
  else if b = 0x0B then e.onFancy fancy e.line.killToEnd
  else if b = 0x14 then e.onFancy fancy e.line.transpose
  else if b = 0x12 then if fancy then { e with search := some ⟨[], none⟩ } else e
  else if b = 0x03 then { e with line := .empty, hist := e.hist.unview }
  else if b = 0x0C then e
  else if b = 0x15 then e.onFancy fancy e.line.killToStart
  else if b = 0x16 then e.onFancy fancy (help.clip.elim e.line (paste e.line))
  else if b = 0x17 then e.onFancy fancy e.line.killWord
  else if b = 0x08 ∨ b = 0x7F then { e with line := e.line.backspace, hist := e.hist.unview }
  else if b = 0x09 then
    if fancy then { e with line := .replace (help.complete e.line.asText), hist := e.hist.unview }
      else e
  else if printable b ∧ e.line.text.length < lineCap
    then { e with line := e.line.insert b, hist := e.hist.unview }
  else e

theorem normalByte_eq (fancy : Bool) (help : Helpers) (e : Editor) (b : UInt8) :
    e.normalByte fancy help b = if b = 0x04 ∧ e.line.text.length = 0 then .eof e.hist
    else if b = 0x0A ∨ b = 0x0D then .entered e.line.asText (if fancy then e.hist.push e.line.asText
      else e.hist) else if b = 0x03 ∧ fancy = true then .entered noText e.hist
    else .reading (e.key fancy help b) := by
  have hite : ∀ (c : Prop) [Decidable c] (x y : Editor), LineRead.reading (if c then x else y) =
      if c then .reading x else .reading y := fun c _ x y => apply_ite LineRead.reading c x y
  by_cases hline : b = 0x0A ∨ b = 0x0D
  · rcases hline with rfl | rfl
    · rfl
    · rfl
  by_cases hEot : b = 0x04
  · subst hEot
    by_cases hnil : e.line.text = []
    · rw [if_pos ⟨rfl, List.length_eq_zero_iff.mpr hnil⟩]
      simp [normalByte, hnil]
    · rw [if_neg fun h => hnil (List.length_eq_zero_iff.mp h.2)]
      simp [normalByte, hnil, key]
  by_cases hEtx : b = 0x03
  · subst hEtx
    cases fancy with
    | true => rfl
    | false => rfl
  · rw [if_neg fun h => hEot h.1, if_neg hline, if_neg fun h => hEtx h.1]
    simp only [normalByte, key, hite, if_neg hEot, if_neg hline, if_neg hEtx]

section Out

variable (fancy : Bool) (w : Services) (prompt : Bytes) (e : Editor)

def upOut : Bytes :=
  if e.hist.lines = [] then []
  else
    match e.hist.view with
    | none => e.line.replaceOut (e.hist.get 0).1
    | some age =>
      if e.hist.lines.length ≤ age + 1 then [] else e.line.replaceOut (e.hist.get (age + 1)).1

def downOut : Bytes :=
  match e.hist.view with
  | none => []
  | some 0 => e.line.replaceOut e.hist.draft.1
  | some (age + 1) => e.line.replaceOut (e.hist.get age).1

def fancyOut (out : Bytes) : Bytes := if fancy then out else []

def escOut (b : UInt8) : Bytes :=
  if b = 0x5B then []
  else if b = 0x62 then fancyOut fancy e.line.wordLeftOut
  else if b = 0x66 then fancyOut fancy e.line.wordRightOut
  else []

def csiFinalOut (param : Bytes) (b : UInt8) : Bytes :=
  if b = 0x41 then e.upOut
  else if b = 0x42 then e.downOut
  else if b = 0x43 then e.line.rightOut
  else if b = 0x44 then e.line.leftOut
  else if b = 0x48 then backs e.line.cur
  else if b = 0x46 then e.line.tail
  else if b = 0x7E then
    if param = [0x33] then e.line.deleteOut
    else if param = [0x31] then backs e.line.cur
    else if param = [0x34] then e.line.tail
    else []
  else []

def csiOut (param : Bytes) (b : UInt8) : Bytes :=
  if 0x40 ≤ b ∧ b ≤ 0x7E then fancyOut fancy (e.csiFinalOut param b) else []

def searchShown (s : Search) : Bytes :=
  SearchBuf.heading ++ s.query ++ SearchBuf.separator ++ s.found.elim [] fun i => (e.hist.getAt i).1

def afterSearchOut : Bytes :=
  match e.search with
  | some s => e.searchShown s
  | none => e.line.redrawOut prompt

def keyOut (b : UInt8) : Bytes :=
  let l := e.line
  if b = 0x1B then []
  else if b = 0x01 then fancyOut fancy (backs l.cur)
  else if b = 0x05 then fancyOut fancy l.tail
  else if b = 0x04 then fancyOut fancy l.deleteOut
  else if b = 0x0B then fancyOut fancy l.killEndOut
  else if b = 0x14 then fancyOut fancy l.transposeOut
  else if b = 0x12 then fancyOut fancy (e.searchShown ⟨[], none⟩)
  else if b = 0x03 then l.tail ++ eraseN l.text.length
  else if b = 0x0C then fancyOut fancy (l.redrawOut prompt)
  else if b = 0x15 then fancyOut fancy l.killStartOut
  else if b = 0x16 then fancyOut fancy (l.pasteOut prompt w.clipBytes)
  else if b = 0x17 then fancyOut fancy l.killWordOut
  else if b = 0x08 ∨ b = 0x7F then l.backspaceOut
  else if b = 0x09 then fancyOut fancy (Complete.completeOut w.places prompt l.text)
  else if printable b ∧ l.text.length < lineCap then l.insertOut b
  else []

def normalOut (b : UInt8) : Bytes :=
  if b = 0x04 ∧ e.line.text.length = 0 then []
  else if b = 0x0A ∨ b = 0x0D then e.line.tail ++ [0x0A]
  else if b = 0x03 ∧ fancy = true then e.line.tail ++ [0x0A]
  else e.keyOut fancy w prompt b

def feedOut : Got → Bytes
  | .eof => []
  | .err => []
  | .byte b =>
    match e.search with
    | some s => (e.searchByte s b).afterSearchOut prompt
    | none =>
      match e.seq with
      | .esc => e.escOut fancy b
      | .csi param => e.csiOut fancy param b
      | .normal => e.normalOut fancy w prompt b

end Out

end Editor

def SeqHolds : SeqBuf → Seq → Prop
  | .normal, .normal => True
  | .esc, .esc => True
  | .csi buf len, .csi param => buf.length = 8 ∧ len = param.length ∧ len ≤ 8 ∧ buf.take len = param
  | _, _ => False

structure SearchHolds (s : SearchBuf) (a : Search) (l : Line) : Prop where
  query_size : s.query.length = queryLen
  qlen_eq : s.qlen = a.query.length
  query_eq : s.query.take s.qlen = a.query
  query_le : a.query.length ≤ queryLen
  found_eq : s.found = a.found
  original_size : s.original.length = lineCap
  origN_eq : s.origN = l.text.length
  original_eq : s.original.take s.origN = l.text

def SearchReps (s : Option SearchBuf) (a : Option Search) (l : Line) : Prop :=
  match s, a with
  | none, none => True
  | some s, some a => SearchHolds s a l
  | _, _ => False

/-- The buffers of `read_line` hold an editor. -/
structure Reps (r : ReadLine) (e : Editor) : Prop where
  cells : Cells.Holds r.cells e.line
  seq : SeqHolds r.seq e.seq
  hist : r.hist.abs = e.hist
  search : SearchReps r.search e.search e.line

def StepReps : ReadStep → LineRead → Prop
  | .reading r, .reading e => Reps r e
  | .entered n line hist, .entered text hist' =>
    n = text.1.length ∧ line.take n = text.1 ∧ hist.abs = hist'
  | .eof hist, .eof hist' => hist.abs = hist'
  | _, _ => False

def Does (x : Option (ReadLine × Bytes)) (e : Editor) (out : Bytes) : Prop :=
  ∃ r, x = some (r, out) ∧ Reps r e

theorem Does.ite {c : Prop} [Decidable c] {x y : Option (ReadLine × Bytes)} {e e' : Editor}
    {out out' : Bytes} (hx : c → Does x e out) (hy : ¬c → Does y e' out') :
    Does (if c then x else y) (if c then e else e') (if c then out else out') := by
  split
  · exact hx ‹_›
  · exact hy ‹_›

section Search

variable {s : SearchBuf} {a : Search} {l : Line} {hist : HistRing} {start : ℕ}
    {b : UInt8} {c : Cells}

theorem SearchHolds.query_slice (h : SearchHolds s a l) :
    slice s.query 0 s.qlen = some a.query := by
  have hle := h.query_le
  rw [slice_eq (Nat.zero_le _) (by rw [h.query_size, h.qlen_eq]; exact hle), h.query_eq,
    List.drop_zero]

theorem SearchHolds.lookup_eq (h : SearchHolds s a l) :
    s.lookup hist s.qlen start = some (hist.abs.findMatch a.query start) := by
  rw [SearchBuf.lookup, h.query_slice, HistRing.abs_findMatch]
  rfl

theorem SearchHolds.lookupShort_eq (h : SearchHolds s a l) :
    s.lookupShort hist s.qlen = some (hist.abs.findMatch a.query (hist.abs.lines.length - 1)) := by
  rw [SearchBuf.lookupShort, HistRing.abs_length]
  split
  · exact h.lookup_eq
  · have hnil : a.query = [] := List.length_eq_zero_iff.mp (by rw [← h.qlen_eq]; omega)
    rw [History.findMatch, if_pos (.inl hnil)]

theorem SearchHolds.painted_eq (h : SearchHolds s a l) (e : Editor) (hist : HistRing)
    (hh : hist.abs = e.hist) : s.painted hist = some (e.searchShown a) := by
  have hquery : Cells.tailFrom s.query 0 s.qlen = some a.query := by
    rw [Cells.tailFrom]
    split
    · exact h.query_slice
    · have hnil : a.query = [] := List.length_eq_zero_iff.mp (by rw [← h.qlen_eq]; omega)
      rw [hnil]
  have hfound : s.found.elim [] hist.getAt = a.found.elim [] fun i => (e.hist.getAt i).1 := by
    rw [h.found_eq, ← hh]
    cases a.found with
    | none => rfl
    | some i => exact (hist.abs_getAt i).symm
  rw [SearchBuf.painted, hquery, Editor.searchShown, hfound]
  rfl

theorem SearchHolds.shorter (h : SearchHolds s a l) :
    SearchHolds { s with qlen := s.qlen - 1 } { a with query := a.query.dropLast } l where
  query_size := h.query_size
  qlen_eq := by rw [List.length_dropLast, h.qlen_eq]
  query_eq := by rw [List.dropLast_eq_take, ← h.query_eq, List.take_take, h.query_eq, ← h.qlen_eq,
    Nat.min_eq_left (Nat.sub_le _ _)]
  query_le := by
    rw [List.length_dropLast]
    exact (Nat.sub_le _ _).trans h.query_le
  found_eq := h.found_eq
  original_size := h.original_size
  origN_eq := h.origN_eq
  original_eq := h.original_eq

theorem SearchHolds.longer (h : SearchHolds s a l) (hroom : a.query.length < queryLen) :
    SearchHolds { s with query := overwrite s.query s.qlen [b], qlen := s.qlen + 1 }
      { a with query := a.query ++ [b] } l where
  query_size :=
    (overwrite_size (k := 1) (by rw [h.query_size, h.qlen_eq]; exact hroom) rfl).trans h.query_size
  qlen_eq := by rw [List.length_append, List.length_singleton, h.qlen_eq]
  query_eq := by
    rw [take_overwrite (by rw [h.query_size, h.qlen_eq]; exact hroom.le)
      (by rw [List.length_singleton]), h.query_eq]
  query_le := by
    rw [List.length_append, List.length_singleton]
    exact hroom
  found_eq := h.found_eq
  original_size := h.original_size
  origN_eq := h.origN_eq
  original_eq := h.original_eq

theorem SearchHolds.withFound (h : SearchHolds s a l) (found : Option ℕ) :
    SearchHolds { s with found := found } { a with found := found } l :=
  ⟨h.query_size, h.qlen_eq, h.query_eq, h.query_le, rfl, h.original_size, h.origN_eq, h.original_eq⟩

theorem SearchBuf.start_eq (h : Cells.Holds c l) :
    ∃ s, SearchBuf.start c = some s ∧ SearchHolds s ⟨[], none⟩ l := by
  have hslice : slice c.line 0 c.n = some l.text := by
    rw [h.n_eq, h.slice_line (Nat.zero_le _) (Nat.le_refl _), List.take_length, List.drop_zero]
  have hsize : (List.replicate lineCap (0 : UInt8)).length = lineCap := List.length_replicate
  have hcopy :
      copyFrom (List.replicate lineCap 0) 0 l.text =
        some (overwrite (List.replicate lineCap 0) 0 l.text) :=
    copyFrom_eq (by rw [hsize, Nat.zero_add]; exact l.fits)
  refine ⟨⟨List.replicate queryLen 0, 0, none, overwrite (List.replicate lineCap 0) 0 l.text, c.n⟩,
    ?_, ?_⟩
  · rw [SearchBuf.start, hslice]
    simp only [hcopy, Option.bind_eq_bind, Option.bind_some]
  · refine ⟨List.length_replicate, rfl, List.take_zero, Nat.zero_le _, rfl, ?_, h.n_eq, ?_⟩
    · exact (overwrite_size (by rw [hsize, Nat.zero_add]; exact l.fits) rfl).trans hsize
    · dsimp only
      rw [h.n_eq, take_overwrite (Nat.zero_le _) (Nat.zero_add _)]
      rfl

def SearchDoes (prompt : Bytes) (x : Option (Cells × Option SearchBuf × Bytes)) (e : Editor) :
    Prop :=
  ∃ c s, x = some (c, s, if e.search.isSome then [] else e.line.redrawOut prompt) ∧
    Cells.Holds c e.line ∧ SearchReps s e.search e.line

theorem SearchDoes.ite {p : Prop} [Decidable p] {prompt : Bytes}
    {x y : Option (Cells × Option SearchBuf × Bytes)} {e e' : Editor}
    (hx : p → SearchDoes prompt x e) (hy : ¬p → SearchDoes prompt y e') :
    SearchDoes prompt (if p then x else y) (if p then e else e') := by
  split
  · exact hx ‹_›
  · exact hy ‹_›

variable {e : Editor} {prompt : Bytes}

theorem searchDoes_end {c' : Cells} {l' : Line} (hc : Cells.Holds c' l') :
    SearchDoes prompt (c'.redraw prompt >>= fun out => some (c', none, out)) { e with
      line := l', search := none } := by
  rw [hc.redraw_eq]
  exact ⟨c', none, rfl, hc, trivial⟩

theorem byte_does (prompt : Bytes) (b : UInt8) (hc : Cells.Holds c e.line)
    (hs : SearchHolds s a e.line) (hh : hist.abs = e.hist) (he : e.search = some a) :
    SearchDoes prompt (s.byte hist prompt c b) (e.searchByte a b) := by
  have hsame : SearchDoes prompt (some (c, some s, [])) e :=
    ⟨c, some s, by rw [he]; rfl, hc, by rw [he]; exact hs⟩
  have hgo : ∀ {s' : SearchBuf} {a' : Search}, SearchHolds s' a' e.line →
      SearchDoes prompt (some (c, some s', [])) { e with search := some a' } :=
    fun h => ⟨c, some _, rfl, hc, h⟩
  have hcount : hist.count = e.hist.lines.length := hh ▸ hist.abs_length.symm
  have hqlen : 0 < s.qlen ↔ a.query ≠ [] := by
    rw [hs.qlen_eq, List.length_pos_iff]
  rw [SearchBuf.byte, Editor.searchByte]
  refine .ite (fun _ => ?_) fun _ => .ite (fun _ => ?_) fun _ => .ite (fun _ => ?_) fun _ =>
    .ite (fun _ => ?_) fun _ => ?_
  · rw [hs.found_eq]
    cases a.found with
    | none => exact hsame
    | some i =>
      cases i with
      | zero => exact hsame
      | succ i =>
        simp only [hs.lookup_eq, Option.bind_eq_bind, Option.bind_some, hh]
        exact hgo (hs.withFound _)
  · by_cases hnil : a.query = []
    · rw [if_neg fun h => hqlen.mp h hnil, if_pos hnil]
      exact hsame
    · have hfound :
          s.lookupShort hist (s.qlen - 1) =
            some (hist.abs.findMatch a.query.dropLast (hist.abs.lines.length - 1)) :=
        hs.shorter.lookupShort_eq
      rw [if_pos (hqlen.mpr hnil), if_neg hnil]
      simp only [hfound, hh, Option.bind_eq_bind, Option.bind_some]
      exact hgo (hs.shorter.withFound _)
  · have htext : slice s.original 0 e.line.text.length = some e.line.text := by
      rw [← hs.origN_eq, slice_eq (Nat.zero_le _)
        (by rw [hs.original_size, hs.origN_eq]; exact e.line.fits), hs.original_eq,
        List.drop_zero]
    have hcopy : copyFrom c.line 0 e.line.text = some (overwrite c.line 0 e.line.text) :=
      copyFrom_eq (by rw [hc.size, Nat.zero_add]; exact e.line.fits)
    have hnew := hc.fresh e.line.goToEnd rfl
    simp only [hs.origN_eq, htext, hcopy, Option.bind_eq_bind, Option.bind_some]
    exact searchDoes_end hnew
  · rw [hs.found_eq]
    cases a.found with
    | none => exact searchDoes_end hc
    | some i =>
      have hget : (e.hist.getAt i).1 = hist.getAt i := hh ▸ hist.abs_getAt i
      have hcopy : copyFrom c.line 0 (hist.getAt i) = some (overwrite c.line 0 (hist.getAt i)) :=
        copyFrom_eq (by rw [hc.size, Nat.zero_add, ← hget]; exact (e.hist.getAt i).2)
      have hnew :
          Cells.Holds ⟨overwrite c.line 0 (hist.getAt i), (hist.getAt i).length,
            (hist.getAt i).length⟩ (.replace (e.hist.getAt i)) := by
        rw [← hget]
        exact hc.fresh (.replace (e.hist.getAt i)) rfl
      simp only [hcopy, Option.bind_eq_bind, Option.bind_some]
      exact searchDoes_end hnew
  · by_cases hroom : printable b ∧ a.query.length < queryLen
    · have hcopy : copyFrom s.query s.qlen [b] = some (overwrite s.query s.qlen [b]) := by
        rw [copyFrom_eq]
        rw [hs.query_size, hs.qlen_eq, List.length_singleton]
        exact hroom.2
      have hlong := hs.longer (b := b) hroom.2
      have hfound :
          SearchBuf.lookup { s with query := overwrite s.query s.qlen [b], qlen := s.qlen + 1 } hist
            (s.qlen + 1) (hist.count - 1) =
              some (hist.abs.findMatch (a.query ++ [b]) (hist.count - 1)) := hlong.lookup_eq
      rw [if_pos (by rwa [hs.query_size, hs.qlen_eq]), if_pos hroom, hcopy]
      dsimp only [Option.bind_eq_bind, Option.bind_some] at hfound ⊢
      rw [hfound, Option.bind_some, hh, hcount]
      exact hgo (hlong.withFound _)
    · rw [if_neg (by rwa [hs.query_size, hs.qlen_eq]), if_neg hroom]
      exact hsame

end Search

namespace ReadLine

variable {r : ReadLine} {e : Editor} {fancy : Bool} {w : Services} {prompt : Bytes} {b : UInt8}

theorem search_none (h : Reps r e) (he : e.search = none) : r.search = none := by
  have hs := h.search
  rw [he] at hs
  cases hr : r.search with
  | none => rfl
  | some s =>
    rw [hr] at hs
    exact hs.elim

section Keys

variable (h : Reps r e) (he : e.search = none)
include h he

theorem searchReps_none (l : Line) : SearchReps r.search e.search l := by
  rw [search_none h he, he]
  trivial

theorem onCells_does {p : Painted} {l : Line} {out : Bytes} (hp : Cells.Leaves p l out) :
    Does (r.onCells p) (e.setLine l) out := by
  obtain ⟨c, rfl, hc⟩ := hp
  exact ⟨_, rfl, hc, h.seq, h.hist, searchReps_none h he l⟩

theorem onFancy_does {p : Painted} {l : Line} {out : Bytes} (hp : Cells.Leaves p l out) :
    Does (r.onFancy fancy p) (e.onFancy fancy l) (Editor.fancyOut fancy out) := by
  rw [onFancy, Editor.onFancy, Editor.fancyOut]
  cases fancy with
  | true => exact onCells_does h he hp
  | false => exact ⟨r, rfl, h⟩

theorem paintHist_does {hist : HistRing} {hist' : History} {t : LineText} (hh : hist.abs = hist') :
    Does (r.onHist (paintHist hist (r.cells.paintReplace t.1))) { e with
      line := .replace t, hist := hist' } (e.line.replaceOut t.1) := by
  obtain ⟨c, hpaint, hc⟩ := Cells.paintReplace_leaves h.cells t
  rw [paintHist, hpaint]
  exact ⟨_, rfl, hc, h.seq, hh, searchReps_none h he _⟩

theorem histUp_does : Does (r.onHist (histUp r.hist r.cells))
    { e with line := (e.hist.up e.line).1, hist := (e.hist.up e.line).2 } e.upOut := by
  have hnil : e.hist.lines = [] ↔ r.hist.count = 0 := h.hist ▸ r.hist.abs_lines_eq_nil
  have hlen : e.hist.lines.length = r.hist.count := h.hist ▸ r.hist.abs_length
  have hview : e.hist.view = r.hist.view := h.hist ▸ rfl
  have hget : ∀ age, (e.hist.get age).1 = r.hist.get age := fun age => h.hist ▸ r.hist.abs_get age
  rw [histUp, History.up, Editor.upOut]
  by_cases hcount : r.hist.count = 0
  · rw [if_pos hcount, if_pos (hnil.mpr hcount), if_pos (hnil.mpr hcount)]
    exact ⟨r, rfl, h⟩
  rw [if_neg hcount, if_neg fun hl => hcount (hnil.mp hl), if_neg fun hl => hcount (hnil.mp hl),
    hview, hlen]
  cases hv : r.hist.view with
  | none =>
    have hslice : slice r.cells.line 0 r.cells.n = some e.line.text := by
      rw [h.cells.n_eq, h.cells.slice_line (Nat.zero_le _) (Nat.le_refl _), List.take_length,
        List.drop_zero]
    have hsave :
        r.hist.saveDraft e.line.text = some { r.hist with
          draft := r.hist.draft.store e.line.text e.line.fits } := dif_pos e.line.fits
    have hh :
        HistRing.abs (HistRing.withView { r.hist with
          draft := r.hist.draft.store e.line.text e.line.fits } (some 0)) =
        { e.hist with draft := e.line.asText, view := some 0 } :=
      HistRing.history_ext (congrArg (fun hist => hist.lines.map Subtype.val) h.hist) rfl
        (Slot.text_store _ _ _)
    simp only [hslice, hsave, Option.bind_eq_bind, Option.bind_some]
    change Does (r.onHist (paintHist _ (r.cells.paintReplace (r.hist.get 0)))) _ _
    rw [← hget]
    exact paintHist_does h he hh
  | some age =>
    dsimp only
    by_cases hold : r.hist.count ≤ age + 1
    · rw [if_pos hold, if_pos hold, if_pos hold]
      exact ⟨r, rfl, h⟩
    · rw [if_neg hold, if_neg hold, if_neg hold, ← hget]
      refine paintHist_does h he ?_
      rw [← h.hist]
      rfl

theorem histDown_does : Does (r.onHist (histDown r.hist r.cells))
    { e with line := (e.hist.down e.line).1, hist := (e.hist.down e.line).2 } e.downOut := by
  have hview : e.hist.view = r.hist.view := h.hist ▸ rfl
  have hget : ∀ age, (e.hist.get age).1 = r.hist.get age := fun age => h.hist ▸ r.hist.abs_get age
  rw [histDown, History.down, Editor.downOut, hview]
  cases hv : r.hist.view with
  | none => exact ⟨r, rfl, h⟩
  | some age =>
    cases age with
    | zero =>
      have hdraft : r.hist.draft.text = e.hist.draft.1 := h.hist ▸ rfl
      rw [hdraft]
      refine paintHist_does h he ?_
      rw [← h.hist]
      rfl
    | succ age =>
      dsimp only
      rw [← hget]
      refine paintHist_does h he ?_
      rw [← h.hist]
      rfl

end Keys

section Escape

variable (h : Reps r e) (he : e.search = none)
include h

theorem withSeq_reps {seq : SeqBuf} {seq' : Seq} (hseq : SeqHolds seq seq') : Reps (r.withSeq seq)
    { e with seq := seq' } :=
  ⟨h.cells, hseq, h.hist, h.search⟩

omit h in
theorem onFancy_seq (l : Line) (seq : Seq) : { e.onFancy fancy l with seq := seq } =
    ({ e with seq := seq } : Editor).onFancy fancy l := by
  cases fancy with
  | true => rfl
  | false => rfl

include he

theorem escByte_does : Does (r.escByte fancy b) (e.escByte fancy b) (e.escOut fancy b) := by
  have hnormal : Reps (r.withSeq .normal) { e with seq := .normal } := withSeq_reps h trivial
  rw [escByte, Editor.escByte, Editor.escOut, onFancy_seq, onFancy_seq]
  refine .ite (fun _ => ?_) fun _ => .ite (fun _ => ?_) fun _ => .ite (fun _ => ?_) fun _ => ?_
  · exact ⟨_, rfl, withSeq_reps h ⟨List.length_replicate, rfl, Nat.zero_le 8, List.take_zero⟩⟩
  · exact onFancy_does hnormal he (Cells.wordLeft_leaves h.cells)
  · exact onFancy_does hnormal he (Cells.wordRight_leaves h.cells)
  · exact ⟨_, rfl, hnormal⟩

omit h he in
theorem csiFinal_seq (e : Editor) (param : Bytes) (b : UInt8) (seq : Seq) :
    ({ e with seq := seq } : Editor).csiFinal param b = { e.csiFinal param b with seq := seq } := by
  have hite : ∀ (c : Prop) [Decidable c] (x y : Editor), { (if c then x else y) with seq := seq } =
      if c then { x with seq := seq } else ({ y with seq := seq } : Editor) :=
    fun c _ x y => apply_ite (fun e : Editor => ({ e with seq := seq } : Editor)) c x y
  simp only [Editor.csiFinal, hite]
  rfl

theorem csiFinal_does (param : Bytes) :
    Does (r.csiFinal param b) (e.csiFinal param b) (e.csiFinalOut param b) := by
  have hsame : Does (some (r, [])) e [] := ⟨r, rfl, h⟩
  rw [csiFinal, Editor.csiFinal, Editor.csiFinalOut]
  refine .ite (fun _ => histUp_does h he) fun _ => .ite (fun _ => histDown_does h he) fun _ => ?_
  refine .ite (fun _ => onCells_does h he (Cells.moveRight_leaves h.cells)) fun hright => ?_
  refine .ite (fun _ => onCells_does h he (Cells.moveLeft_leaves h.cells)) fun hleft => ?_
  refine .ite (fun _ => onCells_does h he (Cells.goHome_leaves h.cells)) fun _ => ?_
  refine .ite (fun _ => onCells_does h he (Cells.goToEnd_leaves h.cells)) fun _ => ?_
  refine .ite (fun _ => ?_) fun _ => ?_
  · refine .ite (fun _ => onCells_does h he (Cells.forwardDelete_leaves h.cells)) fun _ => ?_
    refine .ite (fun _ => onCells_does h he (Cells.goHome_leaves h.cells)) fun _ => ?_
    exact .ite (fun _ => onCells_does h he (Cells.goToEnd_leaves h.cells)) fun _ => hsame
  · rw [if_neg hleft, if_neg hright, ite_self]
    exact hsame

theorem csiByte_does {buf param : Bytes} {len : ℕ} (hseq : SeqHolds (.csi buf len) (.csi param)) :
    Does (r.csiByte fancy buf len b) (e.csiByte fancy param b) (e.csiOut fancy param b) := by
  obtain ⟨hsize, hlen, hle, htake⟩ := hseq
  have hnormal : Reps (r.withSeq .normal) { e with seq := .normal } := withSeq_reps h trivial
  rw [csiByte, Editor.csiByte, Editor.csiOut, Editor.fancyOut]
  by_cases hfinal : 0x40 ≤ b ∧ b ≤ 0x7E
  · rw [if_pos hfinal, if_pos hfinal, if_pos hfinal]
    cases fancy with
    | true =>
      have hslice : slice buf 0 len = some param := by
        rw [slice_eq (Nat.zero_le _) (by omega), htake, List.drop_zero]
      simp only [if_true, hslice, Option.bind_eq_bind, Option.bind_some, ← csiFinal_seq]
      exact csiFinal_does hnormal he param
    | false => exact ⟨_, rfl, hnormal⟩
  rw [if_neg hfinal, if_neg hfinal, if_neg hfinal, ← hlen]
  by_cases hroom : len < 8
  · rw [if_pos hroom, if_pos hroom]
    have hcopy : copyFrom buf len [b] = some (overwrite buf len [b]) :=
      copyFrom_eq (by rw [List.length_singleton]; omega)
    rw [hcopy]
    refine ⟨_, rfl, withSeq_reps h ⟨?_, ?_, hroom, ?_⟩⟩
    · exact (overwrite_size (k := 1) (by omega) rfl).trans hsize
    · rw [List.length_append, List.length_singleton, hlen]
    · rw [take_overwrite (by omega) (by rw [List.length_singleton]), htake]
  · rw [if_neg hroom, if_neg hroom]
    exact ⟨_, rfl, hnormal⟩

end Escape

section Keys

theorem searchByte_keeps (e : Editor) (a : Search) (b : UInt8) :
    (e.searchByte a b).seq = e.seq ∧ (e.searchByte a b).hist = e.hist := by
  rw [Editor.searchByte]
  repeat' split
  all_goals exact ⟨rfl, rfl⟩

theorem afterSearch_does (h : Reps r e) {c : Cells} {s : Option SearchBuf} {e' : Editor}
    {out : Bytes} (hseq : e'.seq = e.seq) (hhist : e'.hist = e.hist) (hc : Cells.Holds c e'.line)
    (hs : SearchReps s e'.search e'.line) (hout : out = if e'.search.isSome then []
      else e'.line.redrawOut prompt) : Does ({ r with cells := c }.afterSearch s out) e'
        (e'.afterSearchOut prompt) := by
  cases s with
  | none =>
    cases hsearch : e'.search with
    | some a =>
      rw [hsearch] at hs
      exact hs.elim
    | none =>
      refine ⟨{ r with cells := c, search := none }, ?_, hc, hseq ▸ h.seq, h.hist.trans hhist.symm,
        ?_⟩
      · rw [hout, Editor.afterSearchOut, hsearch]
        rfl
      · rw [hsearch]
        trivial
  | some s =>
    cases hsearch : e'.search with
    | none =>
      rw [hsearch] at hs
      exact hs.elim
    | some a =>
      rw [hsearch] at hs
      have hshown : s.painted r.hist = some (e'.searchShown a) :=
        hs.painted_eq e' r.hist (h.hist.trans hhist.symm)
      refine ⟨{ r with cells := c, search := some s }, ?_, hc, hseq ▸ h.seq,
        h.hist.trans hhist.symm, ?_⟩
      · rw [hout, afterSearch, Editor.afterSearchOut, hsearch]
        simp only [hshown, Option.bind_eq_bind, Option.bind_some]
        rfl
      · rw [hsearch]
        exact hs

theorem searchByte_does (h : Reps r e) {s : SearchBuf} {a : Search} (hr : r.search = some s)
    (he : e.search = some a) :
    Does (r.searchByte prompt s b) (e.searchByte a b)
      ((e.searchByte a b).afterSearchOut prompt) := by
  have hs := h.search
  rw [hr, he] at hs
  obtain ⟨c, s', hbyte, hc, hs'⟩ := byte_does prompt b h.cells hs h.hist he
  obtain ⟨hseq, hhist⟩ := searchByte_keeps e a b
  rw [searchByte, hbyte]
  exact afterSearch_does h hseq hhist hc hs' rfl

variable (h : Reps r e) (he : e.search = none)
include h he

omit he in
theorem reverseSearch_does :
    Does r.reverseSearch { e with search := some ⟨[], none⟩ } (e.searchShown ⟨[], none⟩) := by
  obtain ⟨s, hstart, hs⟩ := SearchBuf.start_eq h.cells
  rw [reverseSearch, hstart]
  have hreps : SearchReps (some s) (some ⟨[], none⟩) e.line := hs
  exact @afterSearch_does r e [] h r.cells (some s) { e with search := some ⟨[], none⟩ } [] rfl rfl
    h.cells hreps rfl

theorem tab_does : Does (r.tab w prompt)
    { e with line := .replace (w.helpers.complete e.line.asText), hist := e.hist.unview }
    (Complete.completeOut w.places prompt e.line.text) := by
  obtain ⟨c, happly, hc⟩ := Complete.apply_eq w.places prompt h.cells
  rw [tab, happly]
  exact ⟨_, rfl, hc.holds (Complete.lineWith_length e.line.fits _), h.seq,
    congrArg History.unview h.hist, searchReps_none h he _⟩

theorem drop_does : Does r.drop { e with line := .empty, hist := e.hist.unview } (e.line.tail ++
    eraseN e.line.text.length) := by
  rw [drop, h.cells.goEnd_eq, h.cells.n_eq]
  exact ⟨_, rfl, ⟨h.cells.size, rfl, rfl, rfl⟩, h.seq, congrArg History.unview h.hist,
    searchReps_none h he _⟩

omit he in
theorem unview_reps : Reps { r with hist := r.hist.unview } { e with hist := e.hist.unview } :=
  ⟨h.cells, h.seq, congrArg History.unview h.hist, h.search⟩

theorem onHistUnview_does {p : Painted} {l : Line} {out : Bytes} (hp : Cells.Leaves p l out) :
    Does ({ r with hist := r.hist.unview }.onCells p) { e with line := l, hist := e.hist.unview }
      out :=
  onCells_does (unview_reps h) he hp

theorem key_does :
    Does (r.key fancy w prompt b) (e.key fancy w.helpers b) (e.keyOut fancy w prompt b) := by
  have hsame : Does (some (r, [])) e [] := ⟨r, rfl, h⟩
  have hclip : w.clipBytes.take 4096 = w.clipBytes := List.take_of_length_le w.clipBytes_length
  rw [key, Editor.key, Editor.keyOut]
  refine .ite (fun _ => ⟨_, rfl, withSeq_reps h trivial⟩) fun _ => ?_
  refine .ite (fun _ => onFancy_does h he (Cells.goHome_leaves h.cells)) fun _ => ?_
  refine .ite (fun _ => onFancy_does h he (Cells.goToEnd_leaves h.cells)) fun _ => ?_
  refine .ite (fun _ => onFancy_does h he (Cells.forwardDelete_leaves h.cells)) fun _ => ?_
  refine .ite (fun _ => onFancy_does h he (Cells.killToEnd_leaves h.cells)) fun _ => ?_
  refine .ite (fun _ => onFancy_does h he (Cells.transpose_leaves h.cells)) fun _ => ?_
  refine .ite (fun _ => .ite (fun _ => reverseSearch_does h) fun _ => hsame) fun _ => ?_
  refine .ite (fun _ => drop_does h he) fun _ => ?_
  refine .ite (fun _ => ?_) fun _ => ?_
  · rw [h.cells.redraw_eq, Editor.fancyOut]
    cases fancy with
    | true => exact ⟨r, rfl, h⟩
    | false => exact hsame
  refine .ite (fun _ => onFancy_does h he (Cells.killToStart_leaves h.cells)) fun _ => ?_
  refine .ite (fun _ => onFancy_does h he ?_) fun _ => ?_
  · have hpaste := Cells.paste_leaves h.cells prompt w.clipBytes
    rw [hclip] at hpaste
    exact hpaste
  refine .ite (fun _ => onFancy_does h he (Cells.killWord_leaves h.cells)) fun _ => ?_
  refine .ite (fun _ => onHistUnview_does h he (Cells.backspace_leaves h.cells)) fun _ => ?_
  refine .ite (fun _ => .ite (fun _ => tab_does h he) fun _ => hsame) fun _ => ?_
  rw [h.cells.n_eq, h.cells.size]
  exact .ite (fun hroom => onHistUnview_does h he (Cells.insert_leaves h.cells hroom.2)) fun _ =>
    hsame

end Keys

section Steps

def StepDoes (x : Option (ReadStep × Bytes)) (e : LineRead) (out : Bytes) : Prop :=
  ∃ r, x = some (r, out) ∧ StepReps r e

theorem stepDoes_reading {x : Option (ReadLine × Bytes)} {out : Bytes} (hx : Does x e out) :
    StepDoes (x.map fun q => (.reading q.1, q.2)) (.reading e) out := by
  obtain ⟨r', rfl, h⟩ := hx
  exact ⟨.reading r', rfl, h⟩

theorem normalByte_does (h : Reps r e) (he : e.search = none) :
    StepDoes (r.normalByte fancy w prompt b) (e.normalByte fancy w.helpers b)
      (e.normalOut fancy w prompt b) := by
  rw [normalByte, Editor.normalByte_eq, Editor.normalOut, h.cells.n_eq]
  by_cases heof : b = 0x04 ∧ e.line.text.length = 0
  · rw [if_pos heof, if_pos heof, if_pos heof]
    exact ⟨.eof r.hist, rfl, h.hist⟩
  rw [if_neg heof, if_neg heof, if_neg heof, h.cells.goEnd_eq]
  by_cases hline : b = 0x0A ∨ b = 0x0D
  · have hslice : slice r.cells.line 0 e.line.text.length = some e.line.text := by
      rw [h.cells.slice_line (Nat.zero_le _) (Nat.le_refl _), List.take_length, List.drop_zero]
    rw [if_pos hline, if_pos hline, if_pos hline, hslice]
    refine ⟨_, rfl, rfl, h.cells.text_eq, ?_⟩
    cases fancy with
    | true =>
      exact (r.hist.abs_push e.line.asText).trans (congrArg (History.push · e.line.asText) h.hist)
    | false => exact h.hist
  rw [if_neg hline, if_neg hline, if_neg hline]
  by_cases hcancel : b = 0x03 ∧ fancy = true
  · rw [if_pos hcancel, if_pos hcancel, if_pos hcancel]
    exact ⟨_, rfl, rfl, rfl, h.hist⟩
  · rw [if_neg hcancel, if_neg hcancel, if_neg hcancel]
    exact stepDoes_reading (key_does h he)

theorem seqHolds_cases (h : Reps r e) :
    (r.seq = .normal ∧ e.seq = .normal) ∨ (r.seq = .esc ∧ e.seq = .esc) ∨
    ∃ buf len param, r.seq = .csi buf len ∧ e.seq = .csi param ∧
    SeqHolds (.csi buf len) (.csi param) := by
  have hseq := h.seq
  cases hr : r.seq with
  | normal =>
    cases he : e.seq with
    | normal => exact .inl ⟨rfl, rfl⟩
    | esc | csi _ =>
      rw [hr, he] at hseq
      exact hseq.elim
  | esc =>
    cases he : e.seq with
    | esc => exact .inr (.inl ⟨rfl, rfl⟩)
    | normal | csi _ =>
      rw [hr, he] at hseq
      exact hseq.elim
  | csi buf len =>
    cases he : e.seq with
    | csi param =>
      rw [hr, he] at hseq
      exact .inr (.inr ⟨buf, len, param, rfl, rfl, hseq⟩)
    | normal | esc =>
      rw [hr, he] at hseq
      exact hseq.elim

theorem feed_does (fancy : Bool) (w : Services) (prompt : Bytes) (h : Reps r e) (g : Got) :
    StepDoes (r.feed fancy w prompt g) (e.feed fancy w.helpers (e.readOf g))
      (e.feedOut fancy w prompt g) := by
  cases hr : r.search with
  | some s =>
    cases he : e.search with
    | none => exact absurd (search_none h he) (by rw [hr]; exact nofun)
    | some a =>
      have hend :
          StepDoes (some (.reading { r with search := none }, [])) (.reading { e with
            search := none }) [] :=
        ⟨_, rfl, h.cells, h.seq, h.hist, trivial⟩
      cases g with
      | eof =>
        rw [feed, Editor.readOf, Editor.feed, hr, he]
        exact hend
      | err =>
        rw [feed, Editor.readOf, he, hr, Option.isSome_some, if_pos rfl, Editor.feed, he]
        exact hend
      | byte b =>
        rw [feed, Editor.readOf, Editor.feed, Editor.feedOut, hr, he]
        exact stepDoes_reading (searchByte_does h hr he)
  | none =>
    have he : e.search = none := by
      cases he : e.search with
      | none => rfl
      | some a =>
        have hs := h.search
        rw [hr, he] at hs
        exact hs.elim
    cases g with
    | eof =>
      rw [feed, Editor.readOf, Editor.feed, hr, he]
      exact ⟨_, rfl, h.hist⟩
    | err =>
      rw [feed, Editor.readOf, he, hr, Option.isSome_none, if_neg Bool.false_ne_true]
      exact ⟨_, rfl, h⟩
    | byte b =>
      rw [feed, Editor.readOf, Editor.feed, Editor.feedOut, hr, he]
      dsimp only
      rcases seqHolds_cases h with ⟨hseq, heseq⟩ | ⟨hseq, heseq⟩ | ⟨buf, len, param, hseq,
          heseq, hcsi⟩
      · rw [hseq, heseq]
        exact normalByte_does h he
      · rw [hseq, heseq]
        exact stepDoes_reading (escByte_does h he)
      · rw [hseq, heseq]
        exact stepDoes_reading (csiByte_does h he hcsi)

end Steps

section Runs

/-- What one read after the other makes of a line that is edited. -/
def steps (fancy : Bool) (prompt : Bytes) :
    ReadStep → List (Services × Got) → Option (ReadStep × Bytes)
  | s, [] => some (s, [])
  | .reading r, (w, g) :: gs => do
    let (s, out) ← r.feed fancy w prompt g
    let (s, rest) ← steps fancy prompt s gs
    some (s, out ++ rest)
  | s, _ :: _ => some (s, [])

end Runs

end ReadLine

/-- The editor over the same reads, with what it writes. -/
def Editor.steps (fancy : Bool) (prompt : Bytes) :
    LineRead → List (Services × Got) → LineRead × Bytes
  | s, [] => (s, [])
  | .reading e, (w, g) :: gs =>
    let r := steps fancy prompt (e.feed fancy w.helpers (e.readOf g)) gs
    (r.1, e.feedOut fancy w prompt g ++ r.2)
  | s, _ :: _ => (s, [])

theorem steps_done {fancy : Bool} {prompt : Bytes} {s : ReadStep} {a : LineRead} (h : StepReps s a)
    (hs : ∀ r, s ≠ .reading r) (gs : List (Services × Got)) :
    ReadLine.StepDoes (ReadLine.steps fancy prompt s gs) (Editor.steps fancy prompt a gs).1
      (Editor.steps fancy prompt a gs).2 := by
  cases s with
  | reading r => exact absurd rfl (hs r)
  | entered n line hist =>
    cases a with
    | entered text hist' => cases gs with
      | nil => exact ⟨_, rfl, h⟩
      | cons g gs => exact ⟨_, rfl, h⟩
    | reading | eof => exact h.elim
  | eof hist =>
    cases a with
    | eof hist' => cases gs with
      | nil => exact ⟨_, rfl, h⟩
      | cons g gs => exact ⟨_, rfl, h⟩
    | reading | entered => exact h.elim

theorem steps_does (fancy : Bool) (prompt : Bytes) {s : ReadStep} {a : LineRead} (h : StepReps s a)
    (gs : List (Services × Got)) :
    ReadLine.StepDoes (ReadLine.steps fancy prompt s gs) (Editor.steps fancy prompt a gs).1
      (Editor.steps fancy prompt a gs).2 := by
  induction gs generalizing s a with
  | nil =>
    cases s with
    | reading | entered | eof =>
      cases a with
      | reading | entered | eof => exact ⟨_, rfl, h⟩
  | cons wg gs ih =>
    obtain ⟨w, g⟩ := wg
    cases s with
    | entered | eof => exact steps_done h nofun _
    | reading r =>
      cases a with
      | entered | eof => exact h.elim
      | reading e =>
        obtain ⟨s', hfeed, hs'⟩ := ReadLine.feed_does fancy w prompt h g
        obtain ⟨s'', hrest, hs''⟩ := ih hs'
        refine ⟨s'', ?_, hs''⟩
        rw [ReadLine.steps, hfeed, Option.bind_eq_bind, Option.bind_some]
        dsimp only
        rw [hrest]
        rfl

theorem start_reps {line : Bytes} (h : line.length = lineCap) (hist : HistRing) :
    Reps (.start line hist) (.start hist.abs) :=
  ⟨⟨h, rfl, rfl, rfl⟩, trivial, rfl, trivial⟩

/-- The buffer shows the line, the cursor and the history of the editor. -/
def ShowsLine : ReadStep → LineRead → Prop
  | .reading r, .reading e =>
    r.cells.line.length = lineCap ∧ r.cells.cur ≤ r.cells.n ∧ r.cells.n ≤ lineCap ∧
      r.cells.line.take r.cells.n = e.line.text ∧ r.cells.cur = e.line.cur ∧ r.hist.abs = e.hist
  | .entered n line hist, .entered text hist' =>
    n ≤ lineCap ∧ line.take n = text.1 ∧ hist.abs = hist'
  | .eof hist, .eof hist' => hist.abs = hist'
  | _, _ => False

theorem showsLine_of_reps {s : ReadStep} {a : LineRead} (h : StepReps s a) : ShowsLine s a := by
  cases s with
  | reading r =>
    cases a with
    | reading e =>
      refine ⟨h.cells.size, h.cells.cur_le_n, h.cells.n_eq.trans_le e.line.fits, ?_,
        h.cells.cur_eq, h.hist⟩
      rw [h.cells.n_eq, h.cells.text_eq]
    | entered | eof => exact h.elim
  | entered n line hist =>
    cases a with
    | entered text hist' => exact ⟨h.1.trans_le text.2, h.2.1, h.2.2⟩
    | reading | eof => exact h.elim
  | eof hist =>
    cases a with
    | eof hist' => exact h
    | reading | entered => exact h.elim

/-- Whatever is read, no access leaves the buffers, and they hold the line that the editor edits. -/
theorem readLine_refines (prompt line : Bytes) (hist : HistRing) (gs : List (Services × Got))
    (h : line.length = lineCap) :
    ∃ s out, ReadLine.steps true prompt (.reading (.start line hist)) gs = some (s, out) ∧
      ShowsLine s (Editor.steps true prompt (.reading (.start hist.abs)) gs).1 := by
  have hstart : StepReps (.reading (.start line hist)) (.reading (.start hist.abs)) :=
    start_reps h hist
  obtain ⟨s, hsteps, hs⟩ := steps_does true prompt hstart gs
  exact ⟨s, _, hsteps, showsLine_of_reps hs⟩

theorem readLine_refines_keys :
    ∃ s out, ReadLine.steps true [] (.reading (.start (List.replicate lineCap 0) .new))
      ([0x61, 0x62, 0x1B, 0x5B, 0x44, 0x08].map fun b => (⟨[], ⟨[], [], fun _ => none⟩⟩, .byte b)) =
        some (s, out) ∧
    ShowsLine s (Editor.steps true [] (.reading (.start HistRing.new.abs))
      ([0x61, 0x62, 0x1B, 0x5B, 0x44, 0x08].map fun b =>
        (⟨[], ⟨[], [], fun _ => none⟩⟩, .byte b))).1 :=
  readLine_refines [] (List.replicate lineCap 0) .new _ List.length_replicate

end CoeleoOs.Sh
