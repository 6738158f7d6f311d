import CoeleoOs.Sh.ReadLineRefines

/-!
# The keys that move by words

Ctrl+Left and Ctrl+Right arrive as `ESC [ 1 ; 5 D` and `ESC [ 1 ; 5 C`, and Alt with a letter as
`ESC b` and `ESC f`. In `read_line` the arms of the plain arrows stand before those of the words.
-/

namespace CoeleoOs.Sh
open CoeleoOs.Input (StdinRead)
open CoeleoOs.Task (Bytes)
open CoeleoOs.Lib.TermRow (printable)

def bytesOf (w : Services) (bs : Bytes) : List (Services × Got) := bs.map fun b => (w, .byte b)

inductive WordKey
  | left
  | right

namespace WordKey

-- `ESC [ 1 ; 5 D` and `ESC [ 1 ; 5 C`
def ctrl : WordKey → Bytes
  | .left => [0x1B, 0x5B, 0x31, 0x3B, 0x35, 0x44]
  | .right => [0x1B, 0x5B, 0x31, 0x3B, 0x35, 0x43]

-- `ESC b` and `ESC f`
def alt : WordKey → Bytes
  | .left => [0x1B, 0x62]
  | .right => [0x1B, 0x66]

def OneByte (l : Line) : WordKey → Prop
  | .left => l.cur ≤ 1 ∨ l.text[l.cur - 1]? ≠ some space ∧ l.text[l.cur - 2]? = some space
  | .right =>
    l.text.length ≤ l.cur + 1 ∨ l.text[l.cur]? ≠ some space ∧ l.text[l.cur + 1]? = some space

/-- A word key that is one of the editor moves over one byte; within an escape sequence or a search
its bytes are typed, for which there is no room. -/
def Same (k : WordKey) (e : Editor) : Prop :=
  if e.search = none ∧ e.seq = .normal then k.OneByte e.line else lineCap ≤ e.line.text.length

end WordKey

inductive EditKey
  | word (w : Services) (k : WordKey)
  | other (w : Services) (g : Got)

namespace EditKey

def ctrl : EditKey → List (Services × Got)
  | .word w k => bytesOf w k.ctrl
  | .other w g => [(w, g)]

def alt : EditKey → List (Services × Got)
  | .word w k => bytesOf w k.alt
  | .other w g => [(w, g)]

end EditKey

def LineRead.seen : LineRead → Bytes × ℕ
  | .reading e => (e.line.text, e.line.cur)
  | .entered text _ => (text.1, text.1.length)
  | .eof _ => ([], 0)

def ReadStep.seen : ReadStep → Bytes × ℕ
  | .reading r => (r.cells.line.take r.cells.n, r.cells.cur)
  | .entered n line _ => (line.take n, n)
  | .eof _ => ([], 0)

/-- Every word key of the keys moves as in the other encoding. -/
def SameWords (prompt : Bytes) : LineRead → List EditKey → Prop
  | _, [] => True
  | s, k :: ks =>
    (∀ e w key, s = .reading e → k = .word w key → key.Same e) ∧
      SameWords prompt (Editor.steps true prompt s k.alt).1 ks

theorem seen_eq {s : ReadStep} {a : LineRead} (h : StepReps s a) : s.seen = a.seen := by
  cases s with
  | reading r =>
    cases a with
    | reading e => rw [ReadStep.seen, LineRead.seen, h.cells.n_eq, h.cells.text_eq, h.cells.cur_eq]
    | entered | eof => exact h.elim
  | entered n line hist =>
    cases a with
    | entered text hist' => rw [ReadStep.seen, LineRead.seen, h.2.1, h.1]
    | reading | eof => exact h.elim
  | eof hist =>
    cases a with
    | eof hist' => rfl
    | reading | entered => exact h.elim

section Words

variable {l : Line}

theorem dropWord_one (t : Bytes) :
    ((t.dropWhile (· = space)).dropWhile (· ≠ space)).length = t.length - 1 ↔
    t.length ≤ 1 ∨ t[0]? ≠ some space ∧ t[1]? = some space := by
  cases t with
  | nil => exact iff_of_true rfl (.inl (Nat.zero_le 1))
  | cons x t =>
    cases t with
    | nil =>
      refine iff_of_true ?_ (.inl (Nat.le_refl 1))
      by_cases hx : x = space
      · simp [hx]
      · simp [hx]
    | cons y t =>
      have hspaces := List.length_dropWhile_le (· = space) t
      have hrest := List.length_dropWhile_le (· ≠ space) t
      have hword := List.length_dropWhile_le (· ≠ space) (t.dropWhile (· = space))
      by_cases hx : x = space
      · by_cases hy : y = space
        · simp [hx, hy]
          simp at hspaces hword
          omega
        · simp [hx, hy]
          simp at hrest
          omega
      · by_cases hy : y = space
        · simp [hx, hy]
        · simp [hx, hy]
          simp at hrest
          omega

theorem takeWord_one (t : Bytes) :
    (t.takeWhile (· = space)).length + ((t.dropWhile (· = space)).takeWhile (· ≠ space)).length =
      min 1 t.length ↔ t.length ≤ 1 ∨ t[0]? ≠ some space ∧ t[1]? = some space := by
  cases t with
  | nil => exact iff_of_true rfl (.inl (Nat.zero_le 1))
  | cons x t =>
    cases t with
    | nil =>
      refine iff_of_true ?_ (.inl (Nat.le_refl 1))
      by_cases hx : x = space
      · simp [hx]
      · simp [hx]
    | cons y t =>
      by_cases hx : x = space
      · by_cases hy : y = space
        · simp [hx, hy]
          omega
        · simp [hx, hy]
      · by_cases hy : y = space
        · simp [hx, hy]
        · simp [hx, hy]

theorem wordStart_one (l : Line) : l.wordStart = l.cur - 1 ↔ WordKey.OneByte l .left := by
  have hcur := l.cur_le
  have hlen : (l.text.take l.cur).reverse.length = l.cur := by
    rw [List.length_reverse, List.length_take, Nat.min_eq_left hcur]
  have hone := dropWord_one (l.text.take l.cur).reverse
  rw [hlen] at hone
  rw [Line.wordStart, hone, WordKey.OneByte]
  refine or_congr_right' fun hlong => ?_
  have hget : ∀ i, i < l.cur → (l.text.take l.cur).reverse[i]? = l.text[l.cur - 1 - i]? := by
    intro i hi
    rw [List.getElem?_reverse (by rw [List.length_take]; omega), List.length_take,
      Nat.min_eq_left hcur, List.getElem?_take_of_lt (by omega)]
  rw [hget 0 (by omega), hget 1 (by omega), Nat.sub_zero, Nat.sub_sub]

theorem wordEnd_one (l : Line) :
    l.wordEnd = min (l.cur + 1) l.text.length ↔ WordKey.OneByte l .right := by
  have hcur := l.cur_le
  have hlen : (l.text.drop l.cur).length = l.text.length - l.cur := List.length_drop
  have hone := takeWord_one (l.text.drop l.cur)
  rw [List.getElem?_drop, List.getElem?_drop, hlen] at hone
  rw [Line.wordEnd, WordKey.OneByte]
  refine Iff.trans ?_ (hone.trans (or_congr_left (by omega)))
  omega

end Words

namespace Editor

variable {fancy : Bool} {prompt : Bytes}

theorem steps_append (s : LineRead) (gs gs' : List (Services × Got)) :
    steps fancy prompt s (gs ++ gs') = ((steps fancy prompt (steps fancy prompt s gs).1 gs').1,
      (steps fancy prompt s gs).2 ++ (steps fancy prompt (steps fancy prompt s gs).1 gs').2) := by
  induction gs generalizing s with
  | nil =>
    cases s with
    | reading | entered | eof => rfl
  | cons wg gs ih =>
    cases s with
    | reading e =>
      rw [List.cons_append, steps, steps, ih]
      simp only [List.append_assoc]
    | entered | eof =>
      cases gs' with
      | nil => rfl
      | cons => rfl

section Typed

variable {w : Services} {l : Line} {h : History} {b : UInt8} {bs cs : Bytes}

theorem steps_typed (hb : printable b) (gs : List (Services × Got)) :
    steps true prompt (.reading ⟨l, .normal, h, none⟩) ((w, .byte b) :: gs) =
      if l.text.length < lineCap then
        ((steps true prompt (.reading ⟨l.insert b, .normal, h.unview, none⟩) gs).1,
          l.insertOut b ++
            (steps true prompt (.reading ⟨l.insert b, .normal, h.unview, none⟩) gs).2)
      else steps true prompt (.reading ⟨l, .normal, h, none⟩) gs := by
  have hne : ∀ c, printable c = false → b ≠ c := by
    rintro c hc rfl
    rw [hb] at hc
    cases hc
  have hkey : key true w.helpers ⟨l, .normal, h, none⟩ b =
      if l.text.length < lineCap then ⟨l.insert b, .normal, h.unview, none⟩
        else ⟨l, .normal, h, none⟩ := by
    simp [key, hne 0x1B rfl, hne 0x01 rfl, hne 0x05 rfl, hne 0x04 rfl, hne 0x0B rfl, hne 0x14 rfl,
      hne 0x12 rfl, hne 0x03 rfl, hne 0x0C rfl, hne 0x15 rfl, hne 0x16 rfl, hne 0x17 rfl,
      hne 0x08 rfl, hne 0x7F rfl, hne 0x09 rfl, hb]
  have hout : keyOut true w prompt ⟨l, .normal, h, none⟩ b = if l.text.length < lineCap
      then l.insertOut b else [] := by
    simp [keyOut, hne 0x1B rfl, hne 0x01 rfl, hne 0x05 rfl, hne 0x04 rfl, hne 0x0B rfl,
      hne 0x14 rfl, hne 0x12 rfl, hne 0x03 rfl, hne 0x0C rfl, hne 0x15 rfl, hne 0x16 rfl,
      hne 0x17 rfl, hne 0x08 rfl, hne 0x7F rfl, hne 0x09 rfl, hb]
  have hends :
      ¬(b = 0x04 ∧ l.text.length = 0) ∧ ¬(b = 0x0A ∨ b = 0x0D) ∧ ¬(b = 0x03 ∧ true = true) :=
    ⟨fun hc => hne 0x04 rfl hc.1, fun hc => hc.elim (hne 0x0A rfl) (hne 0x0D rfl),
      fun hc => hne 0x03 rfl hc.1⟩
  rw [steps, readOf, feed, feedOut]
  dsimp only
  rw [normalByte_eq, normalOut, if_neg hends.1, if_neg hends.2.1, if_neg hends.2.2, if_neg hends.1,
    if_neg hends.2.1, if_neg hends.2.2, hkey, hout]
  split
  · rfl
  · rfl

theorem typed_full (hbs : ∀ b ∈ bs, printable b = true) (hfull : lineCap ≤ l.text.length) :
    steps true prompt (.reading ⟨l, .normal, h, none⟩) (bytesOf w bs) =
      (.reading ⟨l, .normal, h, none⟩, []) := by
  induction bs with
  | nil => rfl
  | cons b bs ih =>
    rw [List.forall_mem_cons] at hbs
    rw [bytesOf, List.map_cons, steps_typed hbs.1, if_neg (Nat.not_lt_of_le hfull)]
    exact ih hbs.2

theorem typed_head (prompt : Bytes) (w : Services) (h : History) (bs : Bytes) (hb : printable b)
    (hroom : l.text.length < lineCap) :
    (steps true prompt (.reading ⟨l, .normal, h, none⟩) (bytesOf w (b :: bs))).2.head? =
      some b := by
  rw [bytesOf, List.map_cons, steps_typed hb, if_pos hroom]
  rfl

theorem typed_differ (prompt : Bytes) (w : Services) (l : Line) (h : History)
    (hbs : ∀ b ∈ bs, printable b = true) (hcs : ∀ b ∈ cs, printable b = true) (hne : bs ≠ [])
    (hhead : bs.head? ≠ cs.head?) :
    (lineCap ≤ l.text.length → steps true prompt (.reading ⟨l, .normal, h, none⟩) (bytesOf w bs) =
      steps true prompt (.reading ⟨l, .normal, h, none⟩) (bytesOf w cs)) ∧
    ((steps true prompt (.reading ⟨l, .normal, h, none⟩) (bytesOf w bs)).2 =
      (steps true prompt (.reading ⟨l, .normal, h, none⟩) (bytesOf w cs)).2 →
      lineCap ≤ l.text.length) := by
  refine ⟨fun hfull => (typed_full hbs hfull).trans (typed_full hcs hfull).symm, fun hout => ?_⟩
  by_contra hroom
  have hroom := Nat.lt_of_not_le hroom
  cases bs with
  | nil => exact hne rfl
  | cons b bs =>
    have hfirst := typed_head prompt w h bs (hbs b List.mem_cons_self) hroom
    rw [hout] at hfirst
    cases cs with
    | nil => cases hfirst
    | cons c cs =>
      rw [typed_head prompt w h cs (hcs c List.mem_cons_self) hroom] at hfirst
      exact hhead hfirst.symm

end Typed

def Settled (e : Editor) : Prop := e.search = none ∨ e.seq = .normal

section Effect

variable {w : Services} {l : Line} {h : History} {k : WordKey} {e : Editor}

theorem ctrl_moves (k : WordKey) :
    steps true prompt (.reading ⟨l, .normal, h, none⟩) (bytesOf w k.ctrl) =
    match k with
    | .left => (.reading ⟨l.moveLeft, .normal, h, none⟩, l.leftOut)
    | .right => (.reading ⟨l.moveRight, .normal, h, none⟩, l.rightOut) := by
  have hout : ∀ out : Bytes, out ++ [] = out := List.append_nil
  cases k with
  | left => exact Prod.ext rfl (hout l.leftOut)
  | right => exact Prod.ext rfl (hout l.rightOut)

theorem alt_moves (k : WordKey) :
    steps true prompt (.reading ⟨l, .normal, h, none⟩) (bytesOf w k.alt) =
    match k with
    | .left => (.reading ⟨l.wordLeft, .normal, h, none⟩, l.wordLeftOut)
    | .right => (.reading ⟨l.wordRight, .normal, h, none⟩, l.wordRightOut) := by
  have hout : ∀ out : Bytes, out ++ [] = out := List.append_nil
  cases k with
  | left => exact Prod.ext rfl (hout l.wordLeftOut)
  | right => exact Prod.ext rfl (hout l.wordRightOut)

theorem line_ext {l l' : Line} (htext : l.text = l'.text) (hcur : l.cur = l'.cur) : l = l' := by
  obtain ⟨text, cur, hfits, hle⟩ := l
  obtain ⟨text', cur', hfits', hle'⟩ := l'
  obtain rfl : text = text' := htext
  obtain rfl : cur = cur' := hcur
  rfl

theorem moves_same (k : WordKey) :
    (k.OneByte l → steps true prompt (.reading ⟨l, .normal, h, none⟩) (bytesOf w k.ctrl) =
      steps true prompt (.reading ⟨l, .normal, h, none⟩) (bytesOf w k.alt)) ∧
    ((steps true prompt (.reading ⟨l, .normal, h, none⟩) (bytesOf w k.ctrl)).1.seen =
      (steps true prompt (.reading ⟨l, .normal, h, none⟩) (bytesOf w k.alt)).1.seen →
      k.OneByte l) := by
  have hcur := l.cur_le
  rw [ctrl_moves, alt_moves]
  cases k with
  | left =>
    rw [← wordStart_one]
    refine ⟨fun hone => ?_, fun hseen => (congrArg Prod.snd hseen).symm⟩
    have hline : l.moveLeft = l.wordLeft := line_ext rfl hone.symm
    have hout : l.leftOut = l.wordLeftOut := by
      rw [Line.leftOut, Line.wordLeftOut, hone]
      split
      · rename_i hzero
        rw [hzero]
        rfl
      · have hdiff : l.cur - (l.cur - 1) = 1 := by omega
        rw [hdiff]
        rfl
    simp only [hline, hout]
  | right =>
    rw [← wordEnd_one]
    refine ⟨fun hone => ?_, fun hseen => (congrArg Prod.snd hseen).symm⟩
    have hline : l.moveRight = l.wordRight := line_ext rfl hone.symm
    have hout : l.rightOut = l.wordRightOut := by
      rw [Line.rightOut, Line.wordRightOut, hone, List.drop_take, Line.tail]
      by_cases hend : l.cur + 1 ≤ l.text.length
      · rw [Nat.min_eq_left hend, Nat.add_sub_cancel_left]
      · rw [Nat.min_eq_right (by omega), List.drop_of_length_le (by omega), List.take_nil,
          List.take_nil]
    simp only [hline, hout]

def TypesOn (prompt : Bytes) (w : Services) (k : WordKey) (e : Editor) : Prop := ∃ l out bs cs,
  l.text.length = e.line.text.length ∧ (∀ b ∈ bs, printable b = true) ∧
  (∀ b ∈ cs, printable b = true) ∧ bs ≠ [] ∧ bs.head? ≠ cs.head? ∧
    steps true prompt (.reading e) (bytesOf w k.ctrl) =
      ((steps true prompt (.reading ⟨l, .normal, e.hist, none⟩) (bytesOf w bs)).1,
        out ++ (steps true prompt (.reading ⟨l, .normal, e.hist, none⟩) (bytesOf w bs)).2) ∧
    steps true prompt (.reading e) (bytesOf w k.alt) =
      ((steps true prompt (.reading ⟨l, .normal, e.hist, none⟩) (bytesOf w cs)).1,
        out ++ (steps true prompt (.reading ⟨l, .normal, e.hist, none⟩) (bytesOf w cs)).2)

def ctrlTyped : WordKey → Bytes
  | .left => [0x5B, 0x31, 0x3B, 0x35, 0x44]
  | .right => [0x5B, 0x31, 0x3B, 0x35, 0x43]

def altTyped : WordKey → Bytes
  | .left => [0x62]
  | .right => [0x66]

theorem ctrlTyped_printable (k : WordKey) : ∀ b ∈ ctrlTyped k, printable b = true := by
  cases k with
  | left | right => exact List.all_eq_true.mp rfl

theorem altTyped_printable (k : WordKey) : ∀ b ∈ altTyped k, printable b = true := by
  cases k with
  | left | right => exact List.all_eq_true.mp rfl

theorem typesOn_esc (k : WordKey) : TypesOn prompt w k ⟨l, .esc, h, none⟩ := by
  refine ⟨l, [], ctrlTyped k, altTyped k, rfl, ctrlTyped_printable k, altTyped_printable k,
    ?_, ?_, ?_, ?_⟩
  all_goals cases k <;> first | decide | rfl

theorem steps_csi_esc (param : Bytes) (gs : List (Services × Got)) :
    steps true prompt (.reading ⟨l, .csi param, h, none⟩) ((w, .byte 0x1B) :: gs) =
      steps true prompt (.reading ⟨l, if param.length < 8 then .csi (param ++ [0x1B])
        else .normal, h, none⟩) gs := by
  have hnext : csiByte true ⟨l, .csi param, h, none⟩ param 0x1B =
      ⟨l, if param.length < 8 then .csi (param ++ [0x1B]) else .normal, h, none⟩ := by
    rw [csiByte, if_neg (by decide)]
    split
    · rfl
    · rfl
  rw [steps, readOf, feed]
  dsimp only
  rw [hnext]
  rfl

theorem typesOn_csi (k : WordKey) (param : Bytes) :
    TypesOn prompt w k ⟨l, .csi param, h, none⟩ := by
  have hesc : ∀ bs, steps true prompt (.reading ⟨l, .csi param, h, none⟩) (bytesOf w (0x1B :: bs)) =
      steps true prompt (.reading ⟨l, if param.length < 8 then .csi (param ++ [0x1B])
        else .normal, h, none⟩) (bytesOf w bs) :=
    fun bs => steps_csi_esc param (bytesOf w bs)
  have hctrl : k.ctrl = 0x1B :: ctrlTyped k := by
    cases k with
    | left | right => rfl
  have halt : k.alt = 0x1B :: altTyped k := by
    cases k with
    | left | right => rfl
  by_cases hlen : param.length < 8
  · refine ⟨l, [], (ctrlTyped k).drop 1, [], rfl,
      fun b hb => ctrlTyped_printable k b (List.mem_of_mem_drop hb), nofun, ?_, ?_, ?_, ?_⟩
    · cases k with
      | left | right => decide
    · cases k with
      | left | right => decide
    · rw [hctrl, hesc, if_pos hlen]
      cases k with
      | left | right => rfl
    · rw [halt, hesc, if_pos hlen]
      cases k with
      | left | right => rfl
  · refine ⟨l, [], ctrlTyped k, altTyped k, rfl, ctrlTyped_printable k, altTyped_printable k,
      ?_, ?_, ?_, ?_⟩
    · cases k with
      | left | right => decide
    · cases k with
      | left | right => decide
    · rw [hctrl, hesc, if_neg hlen]
      rfl
    · rw [halt, hesc, if_neg hlen]
      rfl

theorem typesOn_search (k : WordKey) (s : Search) : TypesOn prompt w k ⟨l, .normal, h, some s⟩ := by
  refine ⟨l.goToEnd, l.goToEnd.redrawOut prompt, ctrlTyped k, altTyped k, rfl,
    ctrlTyped_printable k, altTyped_printable k, ?_, ?_, ?_, ?_⟩
  all_goals cases k <;> first | decide | rfl

theorem typesOn_same (ht : TypesOn prompt w k e) :
    (lineCap ≤ e.line.text.length → steps true prompt (.reading e) (bytesOf w k.ctrl) =
      steps true prompt (.reading e) (bytesOf w k.alt)) ∧
      ((steps true prompt (.reading e) (bytesOf w k.ctrl)).2 =
        (steps true prompt (.reading e) (bytesOf w k.alt)).2 → lineCap ≤ e.line.text.length) := by
  obtain ⟨l, out, bs, cs, hlen, hbs, hcs, hne, hhead, hctrl, halt⟩ := ht
  obtain ⟨hsame, hdiff⟩ := typed_differ prompt w l e.hist hbs hcs hne hhead
  rw [hctrl, halt, ← hlen]
  exact ⟨fun hfull => by rw [hsame hfull], fun hout => hdiff (List.append_cancel_left hout)⟩

theorem word_same (hs : Settled e) :
    (k.Same e → steps true prompt (.reading e) (bytesOf w k.ctrl) = steps true prompt (.reading e)
      (bytesOf w k.alt)) ∧ ((steps true prompt (.reading e) (bytesOf w k.ctrl)).1.seen =
        (steps true prompt (.reading e) (bytesOf w k.alt)).1.seen →
        (steps true prompt (.reading e) (bytesOf w k.ctrl)).2 =
          (steps true prompt (.reading e) (bytesOf w k.alt)).2 → k.Same e) := by
  obtain ⟨l, seq, h, search⟩ := e
  rw [WordKey.Same]
  cases search with
  | none =>
    cases seq with
    | normal =>
      rw [if_pos ⟨rfl, rfl⟩]
      exact ⟨(moves_same k).1, fun hseen _ => (moves_same k).2 hseen⟩
    | esc =>
      rw [if_neg fun hc => nomatch hc.2]
      exact ⟨(typesOn_same (typesOn_esc k)).1, fun _ => (typesOn_same (typesOn_esc k)).2⟩
    | csi param =>
      rw [if_neg fun hc => nomatch hc.2]
      exact ⟨(typesOn_same (typesOn_csi k param)).1,
        fun _ => (typesOn_same (typesOn_csi k param)).2⟩
  | some s =>
    obtain rfl : seq = .normal := hs.resolve_left nofun
    rw [if_neg fun hc => nomatch hc.1]
    exact ⟨(typesOn_same (typesOn_search k s)).1, fun _ => (typesOn_same (typesOn_search k s)).2⟩

end Effect

section Settled

variable {e e' : Editor} {help : Helpers}

theorem csiFinal_search (e : Editor) (param : Bytes) (b : UInt8) :
    (e.csiFinal param b).search = e.search := by
  have hite : ∀ (c : Prop) [Decidable c] (x y : Editor), (if c then x else y).search = if c
      then x.search else y.search :=
    fun c _ x y => apply_ite Editor.search c x y
  simp only [csiFinal, hite, setLine, ite_self]

theorem settled_ite {c : Prop} [Decidable c] (hx : Settled e) (hy : Settled e') :
    Settled (if c then e else e') := by
  split
  · exact hx
  · exact hy

theorem key_settled (hseq : e.seq = .normal) (hsearch : e.search = none) (b : UInt8) :
    Settled (e.key true help b) := by
  have hfancy : ∀ l, Settled (e.onFancy true l) := fun l => .inr hseq
  have hkeep : Settled e := .inr hseq
  have hedit : ∀ l hist, Settled { e with line := l, hist := hist } := fun l hist => .inr hseq
  rw [key]
  refine settled_ite (.inl hsearch)
    (settled_ite (hfancy _) (settled_ite (hfancy _) (settled_ite (hfancy _) ?_)))
  refine settled_ite (hfancy _)
    (settled_ite (hfancy _) (settled_ite (settled_ite (.inr hseq) hkeep) ?_))
  refine settled_ite (hedit _ _)
    (settled_ite hkeep (settled_ite (hfancy _) (settled_ite (hfancy _) ?_)))
  refine settled_ite (hfancy _)
    (settled_ite (hedit _ _) (settled_ite (settled_ite (hedit _ _) hkeep) ?_))
  exact settled_ite (hedit _ _) hkeep

theorem feed_settled (h : Settled e) {r : StdinRead} (hf : e.feed true help r = .reading e') :
    Settled e' := by
  cases r with
  | wait =>
    obtain rfl := LineRead.reading.inj hf
    exact h
  | eof =>
    rw [feed] at hf
    cases hsearch : e.search with
    | none =>
      rw [hsearch] at hf
      cases hf
    | some s =>
      rw [hsearch] at hf
      obtain rfl := LineRead.reading.inj hf
      exact .inl rfl
  | data b =>
    rw [feed] at hf
    cases hsearch : e.search with
    | some s =>
      rw [hsearch] at hf
      obtain rfl := LineRead.reading.inj hf
      have hseq : e.seq = .normal := h.resolve_left (by rw [hsearch]; exact (by simp))
      exact .inr ((ReadLine.searchByte_keeps e s b).1.trans hseq)
    | none =>
      rw [hsearch] at hf
      dsimp only at hf
      cases hseq : e.seq with
      | esc =>
        rw [hseq] at hf
        obtain rfl := LineRead.reading.inj hf
        refine .inl ?_
        rw [escByte]
        split
        · exact hsearch
        split
        · exact hsearch
        split
        · exact hsearch
        · exact hsearch
      | csi param =>
        rw [hseq] at hf
        obtain rfl := LineRead.reading.inj hf
        refine .inl ?_
        rw [csiByte]
        split
        · exact (csiFinal_search e param b).trans hsearch
        split
        · exact hsearch
        · exact hsearch
      | normal =>
        rw [hseq] at hf
        dsimp only at hf
        rw [normalByte_eq] at hf
        split at hf
        · cases hf
        split at hf
        · cases hf
        split at hf
        · cases hf
        · obtain rfl := LineRead.reading.inj hf
          exact key_settled hseq hsearch b

theorem steps_settled (prompt : Bytes) {s : LineRead} (h : ∀ e, s = .reading e → Settled e)
    (gs : List (Services × Got)) : ∀ e, (steps true prompt s gs).1 = .reading e → Settled e := by
  induction gs generalizing s with
  | nil =>
    cases s with
    | reading | entered | eof => exact h
  | cons wg gs ih =>
    cases s with
    | reading e =>
      rw [steps]
      exact ih fun e' he' => feed_settled (h e rfl) he'
    | entered | eof => exact nofun

end Settled

theorem agree_iff {prompt : Bytes} {s : LineRead} (h : ∀ e, s = .reading e → Settled e)
    (ks : List EditKey) :
    (∀ ks', ks' <+: ks → (steps true prompt s (ks'.flatMap EditKey.ctrl)).1.seen =
      (steps true prompt s (ks'.flatMap EditKey.alt)).1.seen ∧
      (steps true prompt s (ks'.flatMap EditKey.ctrl)).2 =
        (steps true prompt s (ks'.flatMap EditKey.alt)).2) ↔ SameWords prompt s ks := by
  induction ks generalizing s with
  | nil =>
    refine iff_of_true (fun ks' hks => ?_) trivial
    rw [List.prefix_nil.mp hks]
    exact ⟨rfl, rfl⟩
  | cons k ks ih =>
    have hnext := ih (steps_settled prompt h k.alt)
    have hkey : (∀ e w key, s = .reading e → k = .word w key → key.Same e) →
        steps true prompt s k.ctrl = steps true prompt s k.alt := by
      intro hsame
      cases k with
      | other w g => rfl
      | word w key =>
        cases s with
        | reading e => exact (word_same (h e rfl)).1 (hsame e w key rfl rfl)
        | entered | eof => cases key <;> rfl
    rw [SameWords, ← hnext]
    constructor
    · intro hagree
      have hsame : ∀ e w key, s = .reading e → k = .word w key → key.Same e := by
        rintro e w key rfl rfl
        obtain ⟨hseen, hout⟩ := hagree [.word w key] (List.prefix_append [_] ks)
        rw [List.flatMap_singleton, List.flatMap_singleton] at hseen hout
        exact (word_same (h e rfl)).2 hseen hout
      refine ⟨hsame, fun ks' hks => ?_⟩
      obtain ⟨hseen, hout⟩ := hagree (k :: ks') (List.cons_prefix_cons.mpr ⟨rfl, hks⟩)
      rw [List.flatMap_cons, List.flatMap_cons, steps_append, steps_append, hkey hsame]
        at hseen hout
      exact ⟨hseen, List.append_cancel_left hout⟩
    · rintro ⟨hsame, hagree⟩ ks' hks
      cases ks' with
      | nil => exact ⟨rfl, rfl⟩
      | cons k' ks' =>
        obtain ⟨rfl, hrest⟩ := List.cons_prefix_cons.mp hks
        obtain ⟨hseen, hout⟩ := hagree ks' hrest
        rw [List.flatMap_cons, List.flatMap_cons, steps_append, steps_append, hkey hsame]
        exact ⟨hseen, by rw [hout]⟩

end Editor

/-- What a run over these reads shows of the line and the cursor, and writes. -/
def ReadLine.shown (prompt : Bytes) (r : ReadLine) (gs : List (Services × Got)) :
    Option ((Bytes × ℕ) × Bytes) :=
  (steps true prompt (.reading r) gs).map fun q => (q.1.seen, q.2)

theorem shown_eq {prompt : Bytes} {r : ReadLine} {e : Editor} (h : Reps r e)
    (gs : List (Services × Got)) :
    r.shown prompt gs = some ((Editor.steps true prompt (.reading e) gs).1.seen,
      (Editor.steps true prompt (.reading e) gs).2) := by
  have hreps : StepReps (.reading r) (.reading e) := h
  obtain ⟨s, hsteps, hs⟩ := steps_does true prompt hreps gs
  rw [ReadLine.shown, hsteps, ← seen_eq hs]
  rfl

/-- From any line, cursor and history the two encodings of the word keys show the same after every
key exactly when each word key moves over one byte or has no room. -/
theorem word_keys_agree_iff (prompt : Bytes) (c : Cells) (hist : HistRing) (l : Line)
    (ks : List EditKey) (h : Cells.Holds c l) :
    (∀ ks', ks' <+: ks → ReadLine.shown prompt ⟨c, .normal, hist, none⟩ (ks'.flatMap EditKey.ctrl) =
      ReadLine.shown prompt ⟨c, .normal, hist, none⟩ (ks'.flatMap EditKey.alt)) ↔
      SameWords prompt (.reading ⟨l, .normal, hist.abs, none⟩) ks := by
  have hreps : Reps ⟨c, .normal, hist, none⟩ ⟨l, .normal, hist.abs, none⟩ :=
    ⟨h, trivial, rfl, trivial⟩
  rw [← Editor.agree_iff fun e he => .inl (by rw [← LineRead.reading.inj he])]
  refine forall₂_congr fun ks' _ => ?_
  rw [shown_eq hreps, shown_eq hreps, Option.some.injEq, Prod.mk.injEq]

def lineAb : Line := ⟨[0x61, 0x62], 2, by decide, by decide⟩

def cellsAb : Cells := ⟨[0x61, 0x62] ++ List.replicate 126 0, 2, 2⟩

theorem cellsAb_holds : Cells.Holds cellsAb lineAb := ⟨rfl, rfl, rfl, rfl⟩

def idle : Services := ⟨[], ⟨[], [], fun _ => none⟩⟩

theorem word_keys_agree_ab : (∀ ks', ks' <+: [EditKey.other idle (.byte 0x62), .word idle .left] →
      ReadLine.shown [] ⟨cellsAb, .normal, .new, none⟩ (ks'.flatMap EditKey.ctrl) =
        ReadLine.shown [] ⟨cellsAb, .normal, .new, none⟩ (ks'.flatMap EditKey.alt)) ↔
    SameWords [] (.reading ⟨lineAb, .normal, HistRing.new.abs, none⟩)
      [EditKey.other idle (.byte 0x62), .word idle .left] :=
  word_keys_agree_iff [] cellsAb .new lineAb _ cellsAb_holds

/-- Ctrl+Left behind `ab` moves to the `b`, and `ESC b` to the `a`. -/
theorem word_keys_ctrl_left : ¬∀ (prompt : Bytes) (c : Cells) (hist : HistRing) (l : Line)
    (ks : List EditKey), Cells.Holds c l →
    ReadLine.shown prompt ⟨c, .normal, hist, none⟩ (ks.flatMap EditKey.ctrl) =
      ReadLine.shown prompt ⟨c, .normal, hist, none⟩ (ks.flatMap EditKey.alt) := by
  intro h
  have hreps : Reps ⟨cellsAb, .normal, .new, none⟩ ⟨lineAb, .normal, HistRing.new.abs, none⟩ :=
    ⟨cellsAb_holds, trivial, rfl, trivial⟩
  have hsame := h [] cellsAb .new lineAb [.word idle .left] cellsAb_holds
  rw [shown_eq hreps, shown_eq hreps, Option.some.injEq, Prod.mk.injEq] at hsame
  have hcur : lineAb.moveLeft.cur = lineAb.wordLeft.cur := congrArg Prod.snd hsame.1
  revert hcur
  decide

end CoeleoOs.Sh
