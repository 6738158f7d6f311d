import CoeleoOs.Lib.TermRow
import CoeleoOs.Sh.ReadLine

/-!
# The line on the screen

The row of the terminal behind the line editor shows the prompt, the line and nothing else, with the
cursor where it stands on the line. What an operation writes takes the row of the line to the row
of the line it leaves.
-/

namespace CoeleoOs.Sh
open CoeleoOs.Lib CoeleoOs.Lib.FileStore CoeleoOs.Lib.TermRow
open CoeleoOs.Task (Bytes)

def dirColour : Bytes := [0x1B, 0x5B, 0x31, 0x3B, 0x33, 0x34, 0x6D]

def plainColour : Bytes := [0x1B, 0x5B, 0x30, 0x6D]

def statusColour (lastStatus : UInt8) : Bytes :=
  if lastStatus = 0 then [0x1B, 0x5B, 0x31, 0x3B, 0x39, 0x36, 0x6D]
    else [0x1B, 0x5B, 0x31, 0x3B, 0x33, 0x31, 0x6D]

-- `coeleo>`
def shellName : Bytes := [0x63, 0x6F, 0x65, 0x6C, 0x65, 0x6F, 0x3E]

-- 7 bytes of the buffer of 128 are written, and 32 are kept free.
def promptDir (cwd : Bytes) : Bytes := cwd.take (min cwd.length (128 - 7 - 32))

def formatPrompt (cwd : Bytes) (lastStatus : UInt8) : Bytes :=
  dirColour ++ promptDir cwd ++ plainColour ++ [space] ++ statusColour lastStatus ++ shellName ++
    plainColour ++ [space]

def promptText (cwd : Bytes) : Bytes := promptDir cwd ++ [space] ++ shellName ++ [space]

def row (p t : Bytes) (i : ℕ) : Term := showing (p ++ t) (p.length + i)

def Line.onRow (p : Bytes) (l : Line) : Term := row p l.text l.cur

def PromptShows (prompt p : Bytes) : Prop := (showing [] 0).feed prompt = row p [] 0

section Row

variable {p t xs : Bytes} {i j k : ℕ}

theorem feed_row (hi : i ≤ t.length) (hx : Visible xs) :
    (row p t i).feed xs = row p (overwrite t i xs) (i + xs.length) := by
  have hk : p.length + i ≤ (p ++ t).length := by
    rw [List.length_append]
    omega
  have hover : overwrite (p ++ t) (p.length + i) xs = p ++ overwrite t i xs := by
    rw [overwrite, overwrite, List.take_length_add_append, Nat.add_assoc,
      List.drop_length_add_append, List.append_assoc, List.append_assoc,
      List.append_assoc]
  rw [row, feed_visible hk hx, hover, Nat.add_assoc]
  rfl

theorem row_blanks (p t : Bytes) (i k : ℕ) : row p (t ++ blanks k) i = row p t i := by
  rw [row, ← List.append_assoc]
  exact showing_blanks _ _ _

theorem feed_row_backs (p t : Bytes) (i k : ℕ) : (row p t (i + k)).feed (backs k) = row p t i := by
  rw [row, ← Nat.add_assoc]
  exact feed_backs _ _ _

theorem feed_rewrite (hi : i ≤ t.length) (hk : t.length ≤ i + (xs.length + k)) (hx : Visible xs) :
    (row p t i).feed (xs ++ blanks k) = row p (t.take i ++ xs) (i + (xs.length + k)) := by
  have hlen : (xs ++ blanks k).length = xs.length + k := by
    rw [List.length_append, blanks, List.length_replicate]
  have hover : overwrite t i (xs ++ blanks k) = t.take i ++ xs ++ blanks k := by
    rw [overwrite, hlen, List.drop_of_length_le hk, List.append_nil, List.append_assoc]
  have hall : Visible (xs ++ blanks k) := hx.append (visible_blanks k)
  rw [feed_row hi hall, hover, row_blanks, hlen]

theorem feed_part (hij : i ≤ j) (hj : j ≤ t.length) (ht : Visible t) :
    (row p t i).feed ((t.take j).drop i) = row p t j := by
  have hlen : ((t.take j).drop i).length = j - i := by
    rw [List.length_drop, List.length_take, Nat.min_eq_left hj]
  have hfront : t.take i = (t.take j).take i := by
    rw [List.take_take, Nat.min_eq_left hij]
  have hover : overwrite t i ((t.take j).drop i) = t := by
    rw [overwrite, hlen, Nat.add_sub_cancel' hij, hfront, List.take_append_drop,
      List.take_append_drop]
  rw [feed_row (hij.trans hj) ((ht.take j).drop i), hover, hlen, Nat.add_sub_cancel' hij]

theorem feed_rest (hi : i ≤ t.length) (ht : Visible t) :
    (row p t i).feed (t.drop i) = row p t t.length := by
  have hpart := feed_part (p := p) hi (Nat.le_refl _) ht
  rwa [List.take_length] at hpart

theorem feed_text (p : Bytes) (hx : Visible xs) : (row p [] 0).feed xs = row p xs xs.length := by
  have hall := feed_rewrite (p := p) (t := []) (i := 0) (k := 0) (Nat.le_refl _) (Nat.zero_le _) hx
  rwa [blanks, List.replicate_zero, List.append_nil, List.take_nil, List.nil_append, Nat.add_zero,
    Nat.zero_add] at hall

theorem feed_eraseRow (p t : Bytes) : (row p t t.length).feed (eraseN t.length) = row p [] 0 := by
  have herase := feed_erase (s := p ++ t) t.length List.length_append
  rw [List.take_left] at herase
  rw [row, row, List.append_nil]
  exact herase

end Row

namespace Line

variable {p t xs prompt clip : Bytes} {b : UInt8} {l : Line}

theorem onRow_same {l' : Line} (htext : l'.text = l.text) (hcur : l'.cur = l.cur) :
    (l.onRow p).feed [] = l'.onRow p := by
  rw [onRow, onRow, htext, hcur]
  rfl

section Cursor

theorem goHome_row (p : Bytes) (l : Line) : (l.onRow p).feed (backs l.cur) = l.goHome.onRow p := by
  have hback := feed_row_backs p l.text 0 l.cur
  rwa [Nat.zero_add] at hback

theorem wordLeft_row (p : Bytes) (l : Line) :
    (l.onRow p).feed l.wordLeftOut = l.wordLeft.onRow p := by
  have hback := feed_row_backs p l.text l.wordStart (l.cur - l.wordStart)
  rwa [Nat.add_sub_cancel' l.wordStart_le] at hback

theorem moveLeft_row (p : Bytes) (l : Line) : (l.onRow p).feed l.leftOut = l.moveLeft.onRow p := by
  rw [leftOut]
  split
  · rename_i hzero
    exact onRow_same rfl (by rw [moveLeft_cur, hzero])
  · have hback := feed_row_backs p l.text (l.cur - 1) 1
    rwa [Nat.sub_add_cancel (by omega)] at hback

variable (hl : Visible l.text)
include hl

theorem goToEnd_row : (l.onRow p).feed l.tail = l.goToEnd.onRow p := feed_rest l.cur_le hl

theorem wordRight_row : (l.onRow p).feed l.wordRightOut = l.wordRight.onRow p := by
  have hle : l.cur ≤ l.wordEnd := by
    rw [wordEnd]
    omega
  exact feed_part hle l.wordEnd_le hl

theorem moveRight_row : (l.onRow p).feed l.rightOut = l.moveRight.onRow p := by
  have hcur_le := l.cur_le
  have hout : l.rightOut = (l.text.take (min (l.cur + 1) l.text.length)).drop l.cur := by
    rw [rightOut, tail, ← List.take_eq_take_min, List.drop_take, Nat.add_sub_cancel_left]
  rw [hout]
  exact feed_part (by omega) (Nat.min_le_right _ _) hl

end Cursor

section Edit

variable (hl : Visible l.text)
include hl

theorem forwardDelete_row : (l.onRow p).feed l.deleteOut = l.forwardDelete.onRow p := by
  rw [deleteOut]
  split
  · rename_i hlt
    have hlen : (l.text.drop (l.cur + 1)).length = l.text.length - (l.cur + 1) := List.length_drop
    have hwrite :=
      feed_rewrite (p := p) (k := 1) l.cur_le (by rw [hlen]; omega) (hl.drop (l.cur + 1))
    have hback := feed_row_backs p l.forwardDelete.text l.cur (l.rest - 1 + 1)
    have hend : l.cur + ((l.text.drop (l.cur + 1)).length + 1) = l.cur + (l.rest - 1 + 1) := by
      rw [hlen, rest]
      omega
    have hout : l.text.drop (l.cur + 1) ++ [space, bs] ++ backs (l.rest - 1) =
        l.text.drop (l.cur + 1) ++ blanks 1 ++ backs (l.rest - 1 + 1) := by
      rw [List.append_assoc, List.append_assoc]
      rfl
    rw [hend] at hwrite
    rw [hout, feed_append, onRow, hwrite]
    exact hback
  · rename_i hend
    refine onRow_same ?_ rfl
    change l.text.take l.cur ++ l.text.drop (l.cur + 1) = l.text
    rw [List.take_of_length_le (Nat.le_of_not_lt hend), List.drop_of_length_le (by omega),
      List.append_nil]

omit hl in
theorem killToEnd_row (p : Bytes) (l : Line) :
    (l.onRow p).feed l.killEndOut = l.killToEnd.onRow p := by
  have hcur_le := l.cur_le
  have hnil : Visible [] := nofun
  have hwrite :=
    feed_rewrite (p := p) (k := l.rest) l.cur_le (by rw [List.length_nil, rest]; omega) hnil
  rw [List.nil_append, List.append_nil, List.length_nil, Nat.zero_add] at hwrite
  rw [killEndOut, feed_append, onRow, hwrite]
  exact feed_row_backs _ _ _ _

theorem backspace_row : (l.onRow p).feed l.backspaceOut = l.backspace.onRow p := by
  rw [backspaceOut, backspace]
  split
  · rfl
  · rename_i hne
    have hleft := moveLeft_row p l
    rw [leftOut, if_neg hne] at hleft
    rw [feed_append, hleft]
    exact forwardDelete_row (l := l.moveLeft) hl

theorem transpose_row : (l.onRow p).feed l.transposeOut = l.transpose.onRow p := by
  have hcur_le := l.cur_le
  by_cases hcur : 2 ≤ l.cur
  · obtain ⟨i, hi⟩ : ∃ i, l.cur = i + 2 := ⟨l.cur - 2, by omega⟩
    have hpair := Cells.pair_before (t := l.text) (i := i) (by omega)
    obtain ⟨htext, hkeep, hout⟩ := l.transpose_eq hi hpair
    have hvisible : Visible [l.text[i + 1], l.text[i]] := by
      refine (hl.drop i).take 2 |>.sub ?_
      rw [hpair]
      intro b hb
      simpa [or_comm] using hb
    have hback := feed_row_backs p l.text i 2
    have hwrite := feed_row (p := p) (show i ≤ l.text.length by omega) hvisible
    rw [hout, feed_append, onRow, hi]
    change ((row p l.text (i + 2)).feed (backs 2)).feed _ = _
    rw [hback, hwrite, onRow, htext, hkeep, hi]
    rfl
  · rw [transpose, dif_neg hcur, transposeOut, if_neg hcur]
    rfl

theorem drop_row : (l.onRow p).feed (l.tail ++ eraseN l.text.length) = empty.onRow p := by
  rw [feed_append, goToEnd_row hl]
  exact feed_eraseRow p l.text

theorem replaceOut_row (ht : Visible t) : (l.onRow p).feed (l.replaceOut t) = row p t t.length := by
  rw [replaceOut, feed_append, drop_row hl]
  exact feed_text p ht

theorem killToStart_row : (l.onRow p).feed l.killStartOut = l.killToStart.onRow p := by
  rw [killStartOut]
  split
  · rename_i hzero
    refine onRow_same ?_ hzero.symm
    change l.text.drop l.cur = l.text
    rw [hzero, List.drop_zero]
  · have hlen : l.tail.length = 0 + l.rest := by
      rw [tail, List.length_drop, Nat.zero_add]
      rfl
    have hrow := replaceOut_row (p := p) (t := l.tail) hl (hl.drop _)
    rw [feed_append, hrow, hlen]
    exact feed_row_backs _ _ _ _

theorem killWord_row : (l.onRow p).feed l.killWordOut = l.killWord.onRow p := by
  have hcur_le := l.cur_le
  have hstart := l.wordStart_le
  have htext : l.killWord.text = l.text.take l.wordStart ++ l.text.drop l.cur := rfl
  rw [killWordOut]
  split
  · rename_i hzero
    have hnone : l.wordStart = 0 := by omega
    refine onRow_same ?_ (hnone.trans hzero.symm)
    rw [htext, hnone, hzero]
    rfl
  · have hlen : l.killWord.text.length = l.wordStart + l.rest := by
      rw [htext, List.length_append, List.length_take, List.length_drop, rest]
      omega
    have hrow := replaceOut_row (p := p) (t := l.killWord.text) hl ((hl.take _).append (hl.drop _))
    rw [feed_append, hrow, hlen]
    exact feed_row_backs _ _ _ _

theorem insert_row (hb : printable b) (hroom : l.text.length < lineCap) :
    (l.onRow p).feed (l.insertOut b) = (l.insert b).onRow p := by
  obtain ⟨htext, hcur⟩ := Cells.insert_eq (b := b) hroom
  have hvisible : Visible (b :: l.tail) := List.forall_mem_cons.mpr ⟨hb, hl.drop _⟩
  have hlen : (b :: l.tail).length = 1 + l.rest := by
    rw [List.length_cons, tail, List.length_drop, Nat.add_comm]
    rfl
  have hwrite := feed_rewrite (p := p) (k := 0) l.cur_le (by rw [hlen, rest]; omega) hvisible
  rw [blanks, List.replicate_zero, List.append_nil, hlen, Nat.add_zero, ← Nat.add_assoc] at hwrite
  rw [insertOut, ← List.append_assoc, List.singleton_append, feed_append, onRow, hwrite,
    feed_row_backs, onRow, htext, hcur, List.append_assoc, List.singleton_append]

end Edit

section Redraw

variable {s : Term} (hp : PromptShows prompt p)
include hp

theorem redraw_row (hs : s.mode = .ground) (hl : Visible l.text) :
    s.feed (l.redrawOut prompt) = l.onRow p := by
  have hback := feed_row_backs p l.text l.cur l.rest
  rw [rest, Nat.add_sub_cancel' l.cur_le] at hback
  rw [redrawOut, feed_append, feed_append, feed_append, clearHome, feed_clearHome hs, hp,
    feed_text p hl]
  exact hback

omit hp in
theorem foldl_insert_same (h : (xs.foldl insert l).text.length = l.text.length) :
    xs.foldl insert l = l := by
  induction xs with
  | nil => rfl
  | cons b xs ih =>
    rw [List.foldl_cons] at h ⊢
    by_cases hroom : l.text.length < lineCap
    · have hmore := Cells.foldl_insert_length_le (l.insert b) xs
      rw [h, Cells.insert_length hroom] at hmore
      omega
    · rw [Cells.insert_full hroom] at h ⊢
      exact ih h

theorem paste_row (hl : Visible (Editor.paste l clip).text) :
    (l.onRow p).feed (l.pasteOut prompt clip) = (Editor.paste l clip).onRow p := by
  rw [pasteOut]
  split
  · rename_i hsame
    rw [Editor.paste, foldl_insert_same hsame]
    rfl
  · exact redraw_row hp rfl hl

end Redraw

end Line

section Prompt

variable {cwd : Bytes} {s : Term}

theorem feed_dirColour (hs : s.mode = .ground) : s.feed dirColour = s := by
  obtain ⟨cell, col, mode⟩ := s
  obtain rfl : mode = .ground := hs
  rfl

theorem feed_plainColour (hs : s.mode = .ground) : s.feed plainColour = s := by
  obtain ⟨cell, col, mode⟩ := s
  obtain rfl : mode = .ground := hs
  rfl

theorem feed_statusColour (hs : s.mode = .ground) (lastStatus : UInt8) :
    s.feed (statusColour lastStatus) = s := by
  obtain ⟨cell, col, mode⟩ := s
  obtain rfl : mode = .ground := hs
  rw [statusColour]
  split
  · rfl
  · rfl

theorem formatPrompt_shows (h : Visible cwd) (lastStatus : UInt8) :
    PromptShows (formatPrompt cwd lastStatus) (promptText cwd) := by
  have hname : Visible shellName := by decide
  have hspace : Visible [space] := by decide
  have hshow : ∀ (xs : Bytes) {ys : Bytes}, Visible ys → (showing xs xs.length).feed ys =
      showing (xs ++ ys) (xs ++ ys).length := by
    intro xs ys hys
    rw [feed_visible (Nat.le_refl _) hys, overwrite, List.take_length,
      List.drop_of_length_le (Nat.le_add_right _ _), List.append_nil,
      List.length_append]
  have hstart :
      (showing [] 0).feed (promptDir cwd) = showing (promptDir cwd) (promptDir cwd).length :=
    hshow [] (h.take _)
  rw [PromptShows, formatPrompt]
  simp only [feed_append]
  rw [feed_dirColour rfl, hstart, feed_plainColour (s := showing _ _) rfl, hshow _ hspace,
    feed_statusColour (s := showing _ _) rfl, hshow _ hname,
    feed_plainColour (s := showing _ _) rfl, hshow _ hspace, row, List.append_nil]
  rfl

end Prompt

end CoeleoOs.Sh
