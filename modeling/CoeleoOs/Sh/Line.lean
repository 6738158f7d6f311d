import CoeleoOs.Input.KeyStream
import CoeleoOs.Sh.Dispatch

/-!
# The line editor of the shell

`read_line` with its history and its search. A line holds at most 128 bytes and its cursor stands
within it. The editor waits for a byte in its own loop or in the loop of the search.
-/

namespace CoeleoOs.Sh
open CoeleoOs.Input (StdinRead)
open CoeleoOs.Task (Bytes)
open CoeleoOs.Lib.TermRow (printable)

abbrev histCap : ℕ := 128
abbrev queryLen : ℕ := 32
abbrev space : UInt8 := 0x20

abbrev LineText := {b : Bytes // b.length ≤ lineCap}

def noText : LineText := ⟨[], Nat.zero_le _⟩

structure Line where
  text : Bytes
  cur : ℕ
  fits : text.length ≤ lineCap
  cur_le : cur ≤ text.length

namespace Line

def empty : Line := ⟨[], 0, Nat.zero_le _, Nat.le_refl _⟩

def replace (t : LineText) : Line := ⟨t.1, t.1.length, t.2, Nat.le_refl _⟩

variable (l : Line)

def goHome : Line := { l with cur := 0, cur_le := Nat.zero_le _ }

def goToEnd : Line := { l with cur := l.text.length, cur_le := Nat.le_refl _ }

def moveLeft : Line := { l with cur := l.cur - 1, cur_le := (Nat.sub_le _ _).trans l.cur_le }

def moveRight : Line :=
  { l with cur := min (l.cur + 1) l.text.length, cur_le := Nat.min_le_right _ _ }

def insert (b : UInt8) : Line :=
  if h : l.text.length < lineCap then
    ⟨l.text.take l.cur ++ b :: l.text.drop l.cur, l.cur + 1, by simp; omega, by grind [l.cur_le]⟩
  else l

def forwardDelete : Line :=
  { l with
    text := l.text.take l.cur ++ l.text.drop (l.cur + 1)
    fits := by grind [l.fits]
    cur_le := by grind [l.cur_le] }

def backspace : Line := if l.cur = 0 then l else l.moveLeft.forwardDelete

def killToEnd : Line := ⟨l.text.take l.cur, l.cur, by grind [l.fits], by grind [l.cur_le]⟩

def killToStart : Line := ⟨l.text.drop l.cur, 0, by grind [l.fits], Nat.zero_le _⟩

def transpose : Line :=
  if h : 2 ≤ l.cur then
    { l with
      text :=
        l.text.take (l.cur - 2) ++ ((l.text.drop (l.cur - 2)).take 2).reverse ++ l.text.drop l.cur
      fits := by grind [l.fits, l.cur_le]
      cur_le := by grind [l.cur_le] }
  else l

def wordStart : ℕ :=
  (((l.text.take l.cur).reverse.dropWhile (· = space)).dropWhile (· ≠ space)).length

theorem wordStart_le : l.wordStart ≤ l.cur := by
  have hspaces := List.length_dropWhile_le (· = space) (l.text.take l.cur).reverse
  have hword :=
    List.length_dropWhile_le (· ≠ space) ((l.text.take l.cur).reverse.dropWhile (· = space))
  rw [List.length_reverse, List.length_take] at hspaces
  rw [wordStart]
  omega

def wordLeft : Line := { l with cur := l.wordStart, cur_le := l.wordStart_le.trans l.cur_le }

def wordEnd : ℕ :=
  let rest := l.text.drop l.cur
  l.cur + (rest.takeWhile (· = space)).length + ((rest.dropWhile (· = space)).takeWhile
    (· ≠ space)).length

theorem wordEnd_le : l.wordEnd ≤ l.text.length := by
  have hcur := l.cur_le
  have hrest := congrArg List.length
    (List.takeWhile_append_dropWhile (p := (· = space)) (l := l.text.drop l.cur))
  have hword :=
    (List.takeWhile_prefix (l := (l.text.drop l.cur).dropWhile (· = space)) (· ≠ space)).length_le
  rw [List.length_append, List.length_drop] at hrest
  rw [wordEnd]
  omega

def wordRight : Line := { l with cur := l.wordEnd, cur_le := l.wordEnd_le }

def killWord : Line :=
  ⟨l.text.take l.wordStart ++ l.text.drop l.cur, l.wordStart,
    by grind [l.fits, l.wordStart_le, l.cur_le], by grind [l.wordStart_le, l.cur_le]⟩

def asText : LineText := ⟨l.text, l.fits⟩

end Line

def trimBytes (s : Bytes) : Bytes :=
  ((s.dropWhile (· = space)).reverse.dropWhile (· = space)).reverse

theorem trimBytes_length (s : Bytes) : (trimBytes s).length ≤ s.length := by
  have hstart := List.length_dropWhile_le (· = space) s
  have hend := List.length_dropWhile_le (· = space) (s.dropWhile (· = space)).reverse
  rw [List.length_reverse] at hend
  rw [trimBytes, List.length_reverse]
  omega

structure History where
  lines : List LineText
  view : Option ℕ
  draft : LineText
  count_le : lines.length ≤ histCap

namespace History

def new : History := ⟨[], none, noText, Nat.zero_le _⟩

variable (h : History)

def get (age : ℕ) : LineText := h.lines.reverse[age]?.getD noText

def getAt (idx : ℕ) : LineText := h.lines[idx]?.getD noText

def unview : History := { h with view := none }

def push (s : LineText) : History :=
  let t : LineText := ⟨trimBytes s.1, (trimBytes_length s.1).trans s.2⟩
  if t.1 = [] then h.unview
  else if h.lines.getLast? = some t then h.unview
  else
    { h with
      lines := (if h.lines.length < histCap then h.lines else h.lines.drop 1) ++ [t]
      view := none
      count_le := by grind [h.count_le] }

def up (l : Line) : Line × History :=
  if h.lines = [] then (l, h)
  else
    match h.view with
    | none => (.replace (h.get 0), { h with draft := l.asText, view := some 0 })
    | some age =>
      if h.lines.length ≤ age + 1 then (l, h)
        else (.replace (h.get (age + 1)), { h with view := some (age + 1) })

def down (l : Line) : Line × History :=
  match h.view with
  | none => (l, h)
  | some 0 => (.replace h.draft, h.unview)
  | some (age + 1) => (.replace (h.get age), { h with view := some age })

def findMatch (query : Bytes) (start : ℕ) : Option ℕ :=
  if query = [] ∨ h.lines = [] then none
  else (List.range (min start (h.lines.length - 1) + 1)).reverse.find? fun i =>
    query <:+: (h.getAt i).1

end History

inductive Seq
  | normal
  | esc
  | csi (buf : Bytes)
  deriving DecidableEq

structure Search where
  query : Bytes
  found : Option ℕ

structure Editor where
  line : Line
  seq : Seq
  hist : History
  search : Option Search

structure Helpers where
  clip : Option Bytes
  complete : LineText → LineText

inductive LineRead
  | reading (e : Editor)
  | entered (text : LineText) (hist : History)
  -- `usize::MAX`
  | eof (hist : History)

namespace Editor

def start (hist : History) : Editor := ⟨.empty, .normal, hist, none⟩

variable (fancy : Bool) (help : Helpers) (e : Editor)

def setLine (l : Line) : Editor := { e with line := l }

def onFancy (l : Line) : Editor := if fancy then e.setLine l else e

def escByte (b : UInt8) : Editor :=
  if b = 0x5B then { e with seq := .csi [] }
  else if b = 0x62 then { e.onFancy fancy e.line.wordLeft with seq := .normal }
  else if b = 0x66 then { e.onFancy fancy e.line.wordRight with seq := .normal }
  else { e with seq := .normal }

def csiFinal (buf : Bytes) (b : UInt8) : Editor :=
  if b = 0x41 then { e with line := (e.hist.up e.line).1, hist := (e.hist.up e.line).2 }
  else if b = 0x42 then { e with line := (e.hist.down e.line).1, hist := (e.hist.down e.line).2 }
  else if b = 0x43 then e.setLine e.line.moveRight
  else if b = 0x44 then e.setLine e.line.moveLeft
  else if b = 0x48 then e.setLine e.line.goHome
  else if b = 0x46 then e.setLine e.line.goToEnd
  else if b = 0x7E then
    if buf = [0x33] then e.setLine e.line.forwardDelete
    else if buf = [0x31] then e.setLine e.line.goHome
    else if buf = [0x34] then e.setLine e.line.goToEnd
    else e
  -- The words of `1;5C` and `1;5D` are never reached: C and D stand above.
  else e

def csiByte (buf : Bytes) (b : UInt8) : Editor :=
  if 0x40 ≤ b ∧ b ≤ 0x7E then { if fancy then e.csiFinal buf b else e with seq := .normal }
  else if buf.length < 8 then { e with seq := .csi (buf ++ [b]) }
  else { e with seq := .normal }

def paste (l : Line) (clip : Bytes) : Line :=
  ((clip.take 4096).filter printable).foldl Line.insert l

def searchByte (s : Search) (b : UInt8) : Editor :=
  if b = 0x12 then
    match s.found with
    | some (i + 1) => { e with search := some { s with found := e.hist.findMatch s.query i } }
    | _ => e
  else if b = 0x08 ∨ b = 0x7F then
    if s.query = [] then e
    else { e with
      search :=
        some ⟨s.query.dropLast, e.hist.findMatch s.query.dropLast (e.hist.lines.length - 1)⟩ }
  else if b = 0x1B ∨ b = 0x03 ∨ b = 0x07 then { e with line := e.line.goToEnd, search := none }
  else if b = 0x0A ∨ b = 0x0D then
    match s.found with
    | some i => { e with line := .replace (e.hist.getAt i), search := none }
    | none => { e with search := none }
  else if printable b ∧ s.query.length < queryLen then
    { e with
      search := some ⟨s.query ++ [b], e.hist.findMatch (s.query ++ [b]) (e.hist.lines.length - 1)⟩ }
  else e

def normalByte (b : UInt8) : LineRead :=
  if b = 0x1B then .reading { e with seq := .esc }
  else if b = 0x01 then .reading (e.onFancy fancy e.line.goHome)
  else if b = 0x05 then .reading (e.onFancy fancy e.line.goToEnd)
  else if b = 0x04 then
    if e.line.text = [] then .eof e.hist else .reading (e.onFancy fancy e.line.forwardDelete)
  else if b = 0x0B then .reading (e.onFancy fancy e.line.killToEnd)
  else if b = 0x14 then .reading (e.onFancy fancy e.line.transpose)
  else if b = 0x12 then .reading (if fancy then { e with search := some ⟨[], none⟩ } else e)
  else if b = 0x0A ∨ b = 0x0D then
    .entered e.line.asText (if fancy then e.hist.push e.line.asText else e.hist)
  else if b = 0x03 then
    if fancy then .entered noText e.hist
      else .reading { e with line := .empty, hist := e.hist.unview }
  else if b = 0x0C then .reading e
  else if b = 0x15 then .reading (e.onFancy fancy e.line.killToStart)
  else if b = 0x16 then .reading (e.onFancy fancy (help.clip.elim e.line (paste e.line)))
  else if b = 0x17 then .reading (e.onFancy fancy e.line.killWord)
  else if b = 0x08 ∨ b = 0x7F
    then .reading { e with line := e.line.backspace, hist := e.hist.unview }
  else if b = 0x09 then
    .reading (if fancy then { e with
      line := .replace (help.complete e.line.asText), hist := e.hist.unview } else e)
  else if printable b ∧ e.line.text.length < lineCap then
    .reading { e with line := e.line.insert b, hist := e.hist.unview }
  else .reading e

def feed : StdinRead → LineRead
  | .wait => .reading e
  | .eof =>
    match e.search with
    | some _ => .reading { e with search := none }
    | none => .eof e.hist
  | .data b =>
    match e.search with
    | some s => .reading (e.searchByte s b)
    | none =>
      match e.seq with
      | .esc => .reading (e.escByte fancy b)
      | .csi buf => .reading (e.csiByte fancy buf b)
      | .normal => e.normalByte fancy help b

end Editor

end CoeleoOs.Sh
