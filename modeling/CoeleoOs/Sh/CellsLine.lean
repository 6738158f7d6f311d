import CoeleoOs.Sh.Cells

/-!
# The line in the buffer

Every operation on the cells of a line stays within the buffer and leaves the cells of the edited
line. What it writes is told by the line alone.
-/

namespace CoeleoOs.Sh
open CoeleoOs.Lib CoeleoOs.Lib.InPlace
open CoeleoOs.Task (Bytes)
open CoeleoOs.Lib.TermRow (printable)

namespace Line

variable (l : Line)

def tail : Bytes := l.text.drop l.cur

def rest : ℕ := l.text.length - l.cur

def deleteOut : Bytes :=
  if l.cur < l.text.length then l.text.drop (l.cur + 1) ++ [space, bs] ++ backs (l.rest - 1) else []

def killEndOut : Bytes := blanks l.rest ++ backs l.rest

def transposeOut : Bytes :=
  if 2 ≤ l.cur then [bs, bs] ++ ((l.text.drop (l.cur - 2)).take 2).reverse else []

def wordLeftOut : Bytes := backs (l.cur - l.wordStart)

def wordRightOut : Bytes := (l.text.take l.wordEnd).drop l.cur

def replaceOut (t : Bytes) : Bytes := l.tail ++ eraseN l.text.length ++ t

def insertOut (b : UInt8) : Bytes := [b] ++ (l.tail ++ backs l.rest)

def backspaceOut : Bytes := if l.cur = 0 then [] else [bs] ++ l.moveLeft.deleteOut

def killStartOut : Bytes := if l.cur = 0 then [] else l.replaceOut l.tail ++ backs l.rest

def killWordOut : Bytes := if l.cur = 0 then [] else l.replaceOut l.killWord.text ++ backs l.rest

def leftOut : Bytes := if l.cur = 0 then [] else [bs]

def rightOut : Bytes := l.tail.take 1

def redrawOut (prompt : Bytes) : Bytes := clearHome ++ prompt ++ l.text ++ backs l.rest

theorem transpose_eq {i : ℕ} {a b : UInt8} (hcur : l.cur = i + 2)
    (hpair : (l.text.drop i).take 2 = [a, b]) : l.transpose.text = overwrite l.text i [b, a] ∧
    l.transpose.cur = l.cur ∧ l.transposeOut = [bs, bs] ++ [b, a] := by
  rw [transpose, transposeOut, dif_pos (by omega), if_pos (by omega)]
  dsimp only
  rw [hcur, Nat.add_sub_cancel, hpair]
  exact ⟨rfl, rfl, rfl⟩

theorem moveLeft_cur : l.moveLeft.cur = l.cur - 1 := rfl

theorem moveRight_cur : l.moveRight.cur = min (l.cur + 1) l.text.length := rfl

def pasteOut (prompt clip : Bytes) : Bytes :=
  if (Editor.paste l clip).text.length = l.text.length then []
    else (Editor.paste l clip).redrawOut prompt

end Line

namespace Cells

/-- The cells of a line, whatever is behind it. -/
structure Holds (c : Cells) (l : Line) : Prop where
  size : c.line.length = lineCap
  n_eq : c.n = l.text.length
  cur_eq : c.cur = l.cur
  text_eq : c.line.take l.text.length = l.text

def Leaves (r : Painted) (l : Line) (out : Bytes) : Prop := ∃ c, r = some (c, out) ∧ Holds c l

variable {c : Cells} {l : Line} {prompt : Bytes}

section Parts

variable (h : Holds c l) {i : ℕ}
include h

theorem Holds.cur_le_n : c.cur ≤ c.n := by
  rw [h.n_eq, h.cur_eq]
  exact l.cur_le

theorem Holds.fits_line : l.text.length ≤ c.line.length := h.size ▸ l.fits

theorem Holds.take_line (hi : i ≤ l.text.length) : c.line.take i = l.text.take i := by
  rw [← h.text_eq, List.take_take, Nat.min_eq_left hi]

theorem Holds.part_line (i : ℕ) : (c.line.drop i).take (l.text.length - i) = l.text.drop i := by
  rw [← List.drop_take, h.text_eq]

theorem Holds.slice_line {j : ℕ} (hij : i ≤ j) (hj : j ≤ l.text.length) :
    slice c.line i j = some ((l.text.take j).drop i) := by
  rw [slice_eq hij (hj.trans h.fits_line), h.take_line hj]

theorem Holds.tailFrom_line (hi : i ≤ l.text.length) :
    tailFrom c.line i l.text.length = some (l.text.drop i) := by
  rw [tailFrom]
  split
  · rw [h.slice_line hi (Nat.le_refl _), List.take_length]
  · rw [List.drop_of_length_le (by omega)]

theorem Holds.getElem_line (hi : i < l.text.length) : c.line[i]? = some l.text[i] := by
  rw [← List.getElem?_take_of_lt hi, h.text_eq, List.getElem?_eq_getElem hi]

theorem Holds.goEnd_eq : c.goEnd = some l.tail := by
  rw [goEnd, h.n_eq, h.cur_eq, h.tailFrom_line l.cur_le, Line.tail]

theorem Holds.redraw_eq : c.redraw prompt = some (l.redrawOut prompt) := by
  rw [redraw, h.n_eq, h.cur_eq, h.tailFrom_line (Nat.zero_le _)]
  rfl

end Parts

theorem Holds.written (h : Holds c l) {i : ℕ} {xs : Bytes} (l' : Line) (hi : i ≤ l.text.length)
    (hl : l'.text = l.text.take i ++ xs) :
    Holds ⟨overwrite c.line i xs, l'.text.length, l'.cur⟩ l' := by
  have hlen : l'.text.length = i + xs.length := by
    rw [hl, List.length_append, List.length_take, Nat.min_eq_left hi]
  have hfits : i + xs.length ≤ c.line.length := hlen ▸ h.size ▸ l'.fits
  refine ⟨(overwrite_size hfits rfl).trans h.size, rfl, rfl, ?_⟩
  rw [take_overwrite (by omega) hlen.symm, h.take_line hi, hl]

theorem Holds.copyUp_line (h : Holds c l) {dst i : ℕ} (hd : dst ≤ i) (hi : i ≤ l.text.length) :
    copyUp c.line dst i (l.text.length - i) = some (overwrite c.line dst (l.text.drop i)) := by
  have hfits := h.fits_line
  rw [copyUp_eq hd (by omega), h.part_line]

theorem Leaves.same (h : Holds c l) {l' : Line} (htext : l'.text = l.text) (hcur : l'.cur = l.cur) :
    Leaves (some (c, [])) l' [] :=
  ⟨c, rfl, h.size, h.n_eq.trans (congrArg List.length htext.symm), h.cur_eq.trans hcur.symm,
    by rw [htext, h.text_eq]⟩

theorem goHome_leaves (h : Holds c l) : Leaves c.goHome l.goHome (backs l.cur) := by
  rw [goHome, h.cur_eq]
  split
  · exact ⟨_, rfl, h.size, h.n_eq, rfl, h.text_eq⟩
  · rename_i hcur
    have hzero : l.cur = 0 := by omega
    rw [hzero]
    exact .same h rfl hzero.symm

theorem goToEnd_leaves (h : Holds c l) : Leaves c.goToEnd l.goToEnd l.tail := by
  rw [goToEnd, h.cur_eq, h.n_eq]
  split
  · rw [h.slice_line l.cur_le (Nat.le_refl _), List.take_length]
    exact ⟨_, rfl, h.size, rfl, rfl, h.text_eq⟩
  · rename_i hcur
    have hend : l.cur = l.text.length := Nat.le_antisymm l.cur_le (Nat.le_of_not_lt hcur)
    rw [Line.tail, hend, List.drop_length]
    exact .same h rfl hend.symm

theorem forwardDelete_leaves (h : Holds c l) :
    Leaves c.forwardDelete l.forwardDelete l.deleteOut := by
  have htext : l.forwardDelete.text = l.text.take l.cur ++ l.text.drop (l.cur + 1) := rfl
  rw [forwardDelete, Line.deleteOut, h.cur_eq, h.n_eq]
  split
  · rename_i hlt
    have hlen : l.forwardDelete.text.length = l.text.length - 1 := by
      rw [htext, List.length_append, List.length_take, List.length_drop]
      omega
    have hnew := hlen ▸ h.written l.forwardDelete l.cur_le htext
    have hcopy : copyUp c.line l.cur (l.cur + 1) (l.text.length - 1 - l.cur) =
        some (overwrite c.line l.cur (l.text.drop (l.cur + 1))) := by
      rw [Nat.sub_sub, Nat.add_comm 1]
      exact h.copyUp_line (Nat.le_succ l.cur) hlt
    have hdrop : l.forwardDelete.text.drop l.cur = l.text.drop (l.cur + 1) := by
      rw [htext, List.drop_left']
      rw [List.length_take, Nat.min_eq_left l.cur_le]
    have htail :
        tailFrom (overwrite c.line l.cur (l.text.drop (l.cur + 1))) l.cur (l.text.length - 1) =
        some (l.text.drop (l.cur + 1)) :=
      (congrArg (tailFrom _ l.cur) hlen.symm).trans
        ((hnew.tailFrom_line l.forwardDelete.cur_le).trans (congrArg some hdrop))
    have hrest : l.rest - 1 = l.text.length - 1 - l.cur := by
      rw [Line.rest]
      omega
    refine ⟨_, ?_, hnew⟩
    simp only [hcopy, htail, hrest, Option.bind_eq_bind, Option.bind_some]
    rfl
  · rename_i hcur
    refine .same h ?_ rfl
    rw [htext, List.take_of_length_le (Nat.le_of_not_lt hcur), List.drop_of_length_le (by omega),
      List.append_nil]

theorem killToEnd_leaves (h : Holds c l) : Leaves c.killToEnd l.killToEnd l.killEndOut := by
  have htext : l.killToEnd.text = l.text.take l.cur := rfl
  have hlen : l.killToEnd.text.length = l.cur := by
    rw [htext, List.length_take, Nat.min_eq_left l.cur_le]
  rw [killToEnd, h.cur_eq, h.n_eq]
  split
  · refine ⟨_, rfl, h.size, hlen.symm, rfl, ?_⟩
    rw [hlen, htext]
    exact h.take_line l.cur_le
  · rename_i hcur
    have hrest : l.rest = 0 := Nat.sub_eq_zero_of_le (Nat.le_of_not_lt hcur)
    rw [Line.killEndOut, hrest]
    exact .same h (List.take_of_length_le (Nat.le_of_not_lt hcur)) rfl

theorem moveLeft_leaves (h : Holds c l) : Leaves c.moveLeft l.moveLeft l.leftOut := by
  rw [moveLeft, Line.leftOut, h.cur_eq]
  split
  · rename_i hzero
    exact .same h rfl (by rw [Line.moveLeft_cur, hzero])
  · exact ⟨_, rfl, h.size, h.n_eq, rfl, h.text_eq⟩

theorem backspace_leaves (h : Holds c l) : Leaves c.backspace l.backspace l.backspaceOut := by
  have hcur_le := l.cur_le
  rw [backspace, Line.backspace, Line.backspaceOut, h.cur_eq, h.n_eq]
  split
  · exact .same h rfl rfl
  · rename_i hpos
    have hleft : Holds ⟨c.line, l.text.length, l.cur - 1⟩ l.moveLeft :=
      ⟨h.size, rfl, rfl, h.text_eq⟩
    obtain ⟨c', hdel, hnew⟩ := forwardDelete_leaves hleft
    rw [forwardDelete] at hdel
    dsimp only at hdel
    rw [if_pos (by omega)] at hdel
    obtain ⟨line, hcopy, hdel⟩ := Option.bind_eq_some_iff.mp hdel
    obtain ⟨tail, htail, hdel⟩ := Option.bind_eq_some_iff.mp hdel
    obtain ⟨rfl, hout⟩ := Prod.mk.inj (Option.some.inj hdel)
    refine ⟨_, ?_, hnew⟩
    simp only [hcopy, htail, Option.bind_eq_bind, Option.bind_some, ← hout, List.append_assoc]

theorem moveRight_leaves (h : Holds c l) : Leaves c.moveRight l.moveRight l.rightOut := by
  have hcur_le := l.cur_le
  rw [moveRight, Line.rightOut, h.cur_eq, h.n_eq]
  split
  · rename_i hend
    rw [Line.tail, List.drop_of_length_le hend]
    exact .same h rfl (by rw [Line.moveRight_cur]; omega)
  · rename_i hcur
    have hone : (l.text.take (l.cur + 1)).drop l.cur = l.tail.take 1 := by
      rw [Line.tail, List.drop_take, Nat.add_sub_cancel_left]
    rw [h.slice_line (Nat.le_succ _) (by omega), hone]
    exact ⟨_, rfl, h.size, rfl, by rw [Line.moveRight_cur]; dsimp only; omega, h.text_eq⟩

theorem pair_before {t : Bytes} {i : ℕ} (h : i + 1 < t.length) :
    (t.drop i).take 2 = [t[i], t[i + 1]] := by
  rw [List.drop_eq_getElem_cons (by omega), List.drop_eq_getElem_cons h]
  rfl

theorem Holds.over (h : Holds c l) {i : ℕ} {xs : Bytes} {l' : Line}
    (hi : i + xs.length ≤ l.text.length) (htext : l'.text = overwrite l.text i xs) :
    Holds ⟨overwrite c.line i xs, l.text.length, l'.cur⟩ l' := by
  have hlen : l'.text.length = l.text.length := htext ▸ overwrite_size hi rfl
  refine ⟨(overwrite_size (hi.trans h.fits_line) rfl).trans h.size, hlen.symm, rfl, ?_⟩
  rw [hlen, overwrite_take hi h.fits_line, h.text_eq, htext]

theorem transpose_leaves (h : Holds c l) : Leaves c.transpose l.transpose l.transposeOut := by
  have hcur_le := l.cur_le
  have hfits := h.fits_line
  rw [transpose, h.cur_eq, h.n_eq]
  by_cases hcur : 2 ≤ l.cur
  · obtain ⟨i, hi⟩ : ∃ i, l.cur = i + 2 := ⟨l.cur - 2, by omega⟩
    have ha := h.getElem_line (show i < l.text.length by omega)
    have hb := h.getElem_line (show i + 1 < l.text.length by omega)
    obtain ⟨htext, hkeep, hout⟩ := l.transpose_eq hi (pair_before (by omega))
    have hone : copyFrom c.line i [l.text[i + 1]] = some (overwrite c.line i [l.text[i + 1]]) :=
      copyFrom_eq (by simp only [List.length_singleton]; omega)
    have htwo : copyFrom (overwrite c.line i [l.text[i + 1]]) (i + 1) [l.text[i]] =
        some (overwrite c.line i [l.text[i + 1], l.text[i]]) := by
      have happend : overwrite (overwrite c.line i [l.text[i + 1]]) (i + 1) [l.text[i]] =
          overwrite c.line i ([l.text[i + 1]] ++ [l.text[i]]) := overwrite_append (by omega)
      rw [copyFrom_eq]
      · exact congrArg some happend
      · rw [overwrite_size (k := 1) (by omega) rfl]
        simp only [List.length_singleton]
        omega
    have hnew := h.over (by simp only [List.length_cons, List.length_nil]; omega) htext
    have hsub : l.cur - 2 = i ∧ l.cur - 1 = i + 1 := by omega
    rw [if_pos ⟨hcur, l.cur_le⟩, hout, hsub.1, hsub.2]
    refine ⟨_, ?_, hkeep ▸ hnew⟩
    simp only [ha, hb, hone, htwo, Option.bind_eq_bind, Option.bind_some]
  · rw [if_neg fun hc => hcur hc.1, Line.transpose, dif_neg hcur, Line.transposeOut, if_neg hcur]
    exact .same h rfl rfl

section Words

theorem take_dropWhile_reverse (p : UInt8 → Bool) (t : Bytes) :
    (t.take (t.reverse.dropWhile p).length).reverse = t.reverse.dropWhile p := by
  have hsuffix := List.dropWhile_suffix (l := t.reverse) p
  rw [← List.reverse_prefix, List.reverse_reverse] at hsuffix
  have htake := List.prefix_iff_eq_take.mp hsuffix
  rw [List.length_reverse] at htake
  rw [← htake, List.reverse_reverse]

theorem wordStart_eq (h : Holds c l) : c.wordStart = some l.wordStart := by
  have hspaces := List.length_dropWhile_le (· = space) (l.text.take l.cur).reverse
  rw [List.length_reverse, List.length_take, Nat.min_eq_left l.cur_le] at hspaces
  have hfront := take_dropWhile_reverse (· = space) (l.text.take l.cur)
  rw [List.take_take, Nat.min_eq_left hspaces] at hfront
  rw [wordStart, h.cur_eq, backWhile_eq (l.cur_le.trans h.fits_line), h.take_line l.cur_le,
    Option.bind_some, backWhile_eq ((hspaces.trans l.cur_le).trans h.fits_line),
    h.take_line (hspaces.trans l.cur_le), hfront, Line.wordStart]

theorem wordLeft_leaves (h : Holds c l) : Leaves c.wordLeft l.wordLeft l.wordLeftOut := by
  rw [wordLeft, Line.wordLeftOut]
  split
  · rename_i hzero
    have hcur : l.cur = 0 := h.cur_eq.symm.trans hzero
    have hstart : l.wordStart = l.cur := by
      have := l.wordStart_le
      omega
    rw [hstart, Nat.sub_self]
    exact .same h rfl hstart
  · refine ⟨⟨c.line, c.n, l.wordStart⟩, ?_, h.size, h.n_eq, rfl, h.text_eq⟩
    rw [wordStart_eq h, h.cur_eq]
    rfl

theorem drop_takeWhile_length (p : UInt8 → Bool) (t : Bytes) :
    t.drop (t.takeWhile p).length = t.dropWhile p :=
  calc t.drop (t.takeWhile p).length =
        (t.takeWhile p ++ t.dropWhile p).drop (t.takeWhile p).length := by
        rw [List.takeWhile_append_dropWhile]
    _ = t.dropWhile p := List.drop_left

theorem wordRight_leaves (h : Holds c l) : Leaves c.wordRight l.wordRight l.wordRightOut := by
  have hcur_le := l.cur_le
  rw [wordRight, h.cur_eq, h.n_eq]
  split
  · rename_i hend
    have hword : l.wordEnd = l.cur := by
      rw [Line.wordEnd, List.drop_of_length_le hend]
      rfl
    have hout : l.wordRightOut = [] := by
      rw [Line.wordRightOut, hword, List.drop_take, Nat.sub_self, List.take_zero]
    rw [hout]
    exact .same h rfl hword
  · have hspaces := (List.takeWhile_prefix (l := l.text.drop l.cur) (· = space)).length_le
    rw [List.length_drop] at hspaces
    have hfirst : foreWhile (· = space) c.line (l.text.length - l.cur) l.cur =
        some (l.cur + ((l.text.drop l.cur).takeWhile (· = space)).length) := by
      rw [foreWhile_eq (by have := h.fits_line; omega), h.part_line]
    have hafter : l.text.drop (l.cur + ((l.text.drop l.cur).takeWhile (· = space)).length) =
        (l.text.drop l.cur).dropWhile (· = space) := by
      rw [← List.drop_drop, drop_takeWhile_length]
    have hsecond :
        foreWhile (· ≠ space) c.line
          (l.text.length - (l.cur + ((l.text.drop l.cur).takeWhile (· = space)).length))
        (l.cur + ((l.text.drop l.cur).takeWhile (· = space)).length) = some l.wordEnd := by
      rw [foreWhile_eq (by have := h.fits_line; omega), h.part_line, hafter, Line.wordEnd]
    have hslice :=
      h.slice_line (i := l.cur) (j := l.wordEnd) (by rw [Line.wordEnd]; omega) l.wordEnd_le
    refine ⟨⟨c.line, l.text.length, l.wordEnd⟩, ?_, h.size, rfl, rfl, h.text_eq⟩
    simp only [hfirst, hsecond, hslice, Option.bind_eq_bind, Option.bind_some]
    rfl

end Words

section Replace

theorem Holds.show_line (h : Holds c l) : tailFrom c.line 0 l.text.length = some l.text :=
  h.tailFrom_line (Nat.zero_le _)

theorem Holds.fresh (h : Holds c l) {t : Bytes} (l' : Line) (htext : l'.text = t) :
    Holds ⟨overwrite c.line 0 t, l'.text.length, l'.cur⟩ l' :=
  h.written l' (Nat.zero_le _) (htext.trans (List.nil_append t).symm)

theorem paintReplace_leaves (h : Holds c l) (t : LineText) :
    Leaves (c.paintReplace t.1) (.replace t) (l.replaceOut t.1) := by
  have hfits : t.1.length ≤ c.line.length := t.2.trans_eq h.size.symm
  have hnew : Holds ⟨overwrite c.line 0 t.1, t.1.length, t.1.length⟩ (.replace t) :=
    h.fresh (.replace t) rfl
  have hshow : tailFrom (overwrite c.line 0 t.1) 0 t.1.length = some t.1 := hnew.show_line
  have hcopy : copyFrom c.line 0 t.1 = some (overwrite c.line 0 t.1) := copyFrom_eq (by omega)
  refine ⟨_, ?_, hnew⟩
  rw [paintReplace, h.goEnd_eq, h.n_eq, Nat.min_eq_left hfits]
  simp only [List.take_length, hcopy, hshow, Option.bind_eq_bind, Option.bind_some]
  rfl

theorem killToStart_leaves (h : Holds c l) : Leaves c.killToStart l.killToStart l.killStartOut := by
  have htext : l.killToStart.text = l.tail := rfl
  rw [killToStart, Line.killStartOut, h.cur_eq]
  split
  · rename_i hzero
    exact .same h (by rw [htext, Line.tail, hzero, List.drop_zero]) hzero.symm
  · have hlen : l.tail.length = l.text.length - l.cur := List.length_drop
    have hnew : Holds ⟨overwrite c.line 0 l.tail, l.tail.length, 0⟩ l.killToStart :=
      h.fresh l.killToStart rfl
    have hcopy : copyUp c.line 0 l.cur (l.text.length - l.cur) = some (overwrite c.line 0 l.tail) :=
      h.copyUp_line (Nat.zero_le l.cur) l.cur_le
    have hshow : tailFrom (overwrite c.line 0 l.tail) 0 (l.text.length - l.cur) = some l.tail :=
      hlen ▸ hnew.show_line
    refine ⟨_, ?_, hnew⟩
    simp only [h.n_eq, hcopy, h.goEnd_eq, hshow, Option.bind_eq_bind, Option.bind_some, hlen]
    rfl

theorem killWord_leaves (h : Holds c l) : Leaves c.killWord l.killWord l.killWordOut := by
  have hcur_le := l.cur_le
  have hstart := l.wordStart_le
  have htext : l.killWord.text = l.text.take l.wordStart ++ l.tail := rfl
  rw [killWord, Line.killWordOut, h.cur_eq]
  split
  · rename_i hzero
    have hnone : l.wordStart = 0 := by omega
    refine .same h ?_ (hnone.trans hzero.symm)
    rw [htext, hnone, Line.tail, hzero, List.take_zero, List.nil_append, List.drop_zero]
  · have hlen : l.killWord.text.length = l.text.length - (l.cur - l.wordStart) := by
      rw [htext, List.length_append, List.length_take, Line.tail, List.length_drop]
      omega
    have hnew :
        Holds ⟨overwrite c.line l.wordStart l.tail, l.killWord.text.length, l.wordStart⟩
          l.killWord :=
      h.written l.killWord (hstart.trans hcur_le) htext
    have hcopy : copyUp c.line l.wordStart l.cur (l.text.length - l.cur) =
        some (overwrite c.line l.wordStart l.tail) :=
      h.copyUp_line hstart hcur_le
    have hshow :
        tailFrom (overwrite c.line l.wordStart l.tail) 0 (l.text.length - (l.cur - l.wordStart)) =
          some l.killWord.text :=
      hlen ▸ hnew.show_line
    have hrest : l.text.length - (l.cur - l.wordStart) - l.wordStart = l.rest := by
      rw [Line.rest]
      omega
    refine ⟨_, ?_, hnew⟩
    simp only [wordStart_eq h, h.n_eq, hcopy, h.goEnd_eq, hshow, Option.bind_eq_bind,
      Option.bind_some, hlen, hrest]
    rfl

end Replace

section Put

variable {b : UInt8}

theorem insert_eq (hroom : l.text.length < lineCap) :
    (l.insert b).text = l.text.take l.cur ++ [b] ++ l.tail ∧ (l.insert b).cur = l.cur + 1 := by
  rw [Line.insert, dif_pos hroom, List.append_assoc]
  exact ⟨rfl, rfl⟩

theorem put_eq (h : Holds c l) (hroom : l.text.length < lineCap) :
    ∃ c', c.put b = some c' ∧ Holds c' (l.insert b) := by
  have hcur_le := l.cur_le
  have hsize := h.size
  obtain ⟨htext, hcur⟩ := insert_eq (b := b) hroom
  have htail : l.tail.length = l.text.length - l.cur := List.length_drop
  have hlen : (l.insert b).text.length = l.text.length + 1 := by
    rw [htext, List.length_append, List.length_append, List.length_take, htail,
      List.length_singleton]
    omega
  have hdown : copyDown c.line (l.cur + 1) l.cur (l.text.length - l.cur) =
      some (overwrite c.line (l.cur + 1) l.tail) := by
    rw [copyDown_eq (Nat.le_succ _) (by omega), h.part_line]
    rfl
  have hmoved : (overwrite c.line (l.cur + 1) l.tail).length = c.line.length :=
    overwrite_size (by omega) rfl
  have hcopy : copyFrom (overwrite c.line (l.cur + 1) l.tail) l.cur [b] =
      some (overwrite (overwrite c.line (l.cur + 1) l.tail) l.cur [b]) :=
    copyFrom_eq (by rw [hmoved, List.length_singleton]; omega)
  refine ⟨⟨overwrite (overwrite c.line (l.cur + 1) l.tail) l.cur [b], l.text.length + 1, l.cur + 1⟩,
    ?_, ?_⟩
  · rw [put, h.cur_eq, h.n_eq]
    simp only [hdown, hcopy, Option.bind_eq_bind, Option.bind_some]
  · have hfront : (c.line.take (l.cur + 1)).take l.cur = l.text.take l.cur := by
      rw [List.take_take, Nat.min_eq_left (Nat.le_succ _), h.take_line hcur_le]
    refine ⟨?_, hlen.symm, hcur.symm, ?_⟩
    · rw [overwrite_size (k := 1) (by rw [hmoved]; omega) rfl, hmoved, hsize]
    · rw [hlen, overwrite_take (by rw [List.length_singleton]; omega) (by rw [hmoved]; omega),
        take_overwrite (by omega) (by omega), overwrite, List.take_append_of_le_length, hfront,
        List.drop_left', htext]
      · rw [List.length_take, List.length_singleton, Nat.min_eq_left (by omega)]
      · rw [List.length_take]
        omega

theorem showTail_eq (h : Holds c l) : c.showTail = some (l.tail ++ backs l.rest) := by
  rw [showTail, h.n_eq, h.cur_eq]
  split
  · rename_i hend
    have hrest : l.rest = 0 := Nat.sub_eq_zero_of_le hend
    rw [Line.tail, List.drop_of_length_le hend, hrest]
    rfl
  · rw [h.slice_line l.cur_le (Nat.le_refl _), List.take_length]
    rfl

theorem insert_leaves (h : Holds c l) (hroom : l.text.length < lineCap) :
    Leaves (c.insert b) (l.insert b) (l.insertOut b) := by
  obtain ⟨c', hput, hnew⟩ := put_eq (b := b) h hroom
  obtain ⟨htext, hcur⟩ := insert_eq (b := b) hroom
  have hfront : (l.text.take l.cur ++ [b]).length = l.cur + 1 := by
    rw [List.length_append, List.length_take, Nat.min_eq_left l.cur_le, List.length_singleton]
  have htail : (l.insert b).tail = l.tail := by
    rw [Line.tail, htext, hcur, List.drop_left' hfront]
  have hrest : (l.insert b).rest = l.rest := by
    rw [Line.rest, htext, hcur, List.length_append, hfront, Line.tail, List.length_drop, Line.rest]
    omega
  refine ⟨c', ?_, hnew⟩
  rw [insert, hput, Line.insertOut, ← htail, ← hrest]
  simp only [showTail_eq hnew, Option.bind_eq_bind, Option.bind_some]

theorem insert_full (hfull : ¬l.text.length < lineCap) : l.insert b = l := by
  rw [Line.insert, dif_neg hfull]

theorem insert_length (hroom : l.text.length < lineCap) :
    (l.insert b).text.length = l.text.length + 1 := by
  have hcur_le := l.cur_le
  rw [(insert_eq hroom).1, List.length_append, List.length_append, List.length_take, Line.tail,
    List.length_drop, List.length_singleton]
  omega

theorem insert_length_le (l : Line) (b : UInt8) : l.text.length ≤ (l.insert b).text.length := by
  by_cases hroom : l.text.length < lineCap
  · rw [insert_length hroom]
    omega
  · rw [insert_full hroom]

theorem foldl_insert_length_le (l : Line) (clip : Bytes) :
    l.text.length ≤ (clip.foldl Line.insert l).text.length := by
  induction clip generalizing l with
  | nil => exact Nat.le_refl _
  | cons b clip ih => exact (insert_length_le l b).trans (ih _)

theorem pasteBytes_eq (clip : Bytes) (h : Holds c l) (added : Bool) :
    ∃ c', pasteBytes clip c added = some (c', added ||
      decide (((clip.filter printable).foldl Line.insert l).text.length ≠ l.text.length)) ∧
      Holds c' ((clip.filter printable).foldl Line.insert l) := by
  induction clip generalizing c l added with
  | nil => exact ⟨c, by simp [pasteBytes], h⟩
  | cons b clip ih =>
    rw [pasteBytes, h.n_eq, h.size]
    by_cases hb : printable b
    · rw [List.filter_cons_of_pos hb, List.foldl_cons]
      by_cases hroom : l.text.length < lineCap
      · obtain ⟨c', hput, hnew⟩ := put_eq (b := b) h hroom
        obtain ⟨c'', hrest, hend⟩ := ih hnew true
        have hmore := foldl_insert_length_le (l.insert b) (clip.filter printable)
        rw [insert_length hroom] at hmore
        have hne : ((clip.filter printable).foldl Line.insert (l.insert b)).text.length ≠
            l.text.length := by omega
        rw [if_pos ⟨hb, hroom⟩]
        refine ⟨c'', ?_, hend⟩
        simp only [hput, hrest, Option.bind_eq_bind, Option.bind_some, Bool.true_or,
          decide_eq_true hne, Bool.or_true]
      · rw [if_neg fun hc => hroom hc.2, insert_full hroom]
        exact ih h added
    · rw [List.filter_cons_of_neg hb, if_neg fun hc => hb hc.1]
      exact ih h added

theorem paste_leaves (h : Holds c l) (prompt clip : Bytes) :
    Leaves (c.paste prompt (clip.take 4096)) (Editor.paste l clip) (l.pasteOut prompt clip) := by
  obtain ⟨c', hbytes, hnew⟩ := pasteBytes_eq (clip.take 4096) h false
  rw [paste, hbytes, Line.pasteOut, Editor.paste]
  by_cases hsame :
      (((clip.take 4096).filter printable).foldl Line.insert l).text.length = l.text.length
  · rw [if_pos hsame]
    exact ⟨c', by simp [hsame], hnew⟩
  · rw [if_neg hsame]
    exact ⟨c', by simp [hsame, hnew.redraw_eq], hnew⟩

end Put

end Cells

end CoeleoOs.Sh
